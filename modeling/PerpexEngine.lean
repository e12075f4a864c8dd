import PerpexEngine.Core.RestartEvents
import PerpexEngine.Core.AccountRuns
import PerpexEngine.Core.Uncrossed
import PerpexEngine.Runtime.EventNumbers
import PerpexEngine.Runtime.Duplicates
import PerpexEngine.Runtime.RiskStates
import PerpexEngine.Runtime.Replies
import PerpexEngine.Runtime.TradeRuns
import PerpexEngine.Runtime.LiquidationOrder
import PerpexEngine.Runtime.IdempotencyKeys
import PerpexEngine.Runtime.OutputRoundTrip
import PerpexEngine.Broker.Commits
import PerpexEngine.Recovery.Handover
import PerpexEngine.Lib.Transfers
import PerpexEngine.Runtime.BookHoldings
import PerpexEngine.Runtime.Lockstep
import PerpexEngine.Runtime.PlacedOrders
import PerpexEngine.Core.TimeInForce
import PerpexEngine.Core.CommandRecords
import PerpexEngine.Runtime.FillMargins
import PerpexEngine.Runtime.LiquidationTransfers
import PerpexEngine.Runtime.RankedFills
import PerpexEngine.Runtime.OrderlyRuns
import PerpexEngine.Recovery.Restores
import PerpexEngine.Broker.DuplicateRecords
import PerpexEngine.Lib.Rounding
import PerpexEngine.Runtime.MarketBalance
import PerpexEngine.Runtime.FundingPayments
import PerpexEngine.Runtime.Failures
import PerpexEngine.Runtime.LiquidationBounds
import PerpexEngine.Runtime.ReduceOnly
import PerpexEngine.Runtime.RestingOrders
import PerpexEngine.Runtime.LiquidationProgress
import PerpexEngine.Runtime.KnownLiquidations
import PerpexEngine.Recovery.LatestCheckpoint
import PerpexEngine.Core.FixedPoint
import PerpexEngine.Core.LadderRuns
import PerpexEngine.Runtime.OpenedOrders
import PerpexEngine.Runtime.ConcealedOrders
import PerpexEngine.Runtime.LevelTotals
import PerpexEngine.Recovery.CheckpointKeys
import PerpexEngine.Recovery.CheckpointTruncation
import PerpexEngine.Protocol.JsonValues
import PerpexEngine.Runtime.AdmittedInputs
import PerpexEngine.Recovery.CheckpointFiles
import PerpexEngine.Broker.WorkerLives
import PerpexEngine.Runtime.RiskReaders
