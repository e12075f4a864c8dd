import PerpexEngine.Runtime.OrderlyRuns
import PerpexEngine.Runtime.LiquidationReplies

/-! Liquidations only ever take positions toward zero: that of the liquidated user and those of the
counterparties, fill by fill. -/
namespace PerpexEngine
open Program

section Moves
variable {side : AdapterSide} {key : PositionRiskKey} {ts : List (Transfer PositionRiskKey)}
  {before : PositionRiskKey → ℤ}

/-- A taker that still faces its own orders has been on its way down all along. -/
theorem TakenBy.along_taker (h : TakenBy side key ts)
    (hend : Facing side (Transfer.settle before ts key)) : Transfer.Along key before ts := by
  cases side with
  | long => exact Transfer.Into.along_target h hend
  | short => exact Transfer.From.along_source h hend

/-- So has another user that still faces the taker. -/
theorem TakenBy.along_maker (h : TakenBy side key ts) {other : PositionRiskKey} (hne : other ≠ key)
    (hend : Facing (oppositeSide side) (Transfer.settle before ts other)) :
    Transfer.Along other before ts := by
  cases side with
  | long => exact Transfer.Into.along_other h hne hend
  | short => exact Transfer.From.along_other h hne hend

variable {input : LiquidatePositionInput} {after : PositionRiskKey → ℤ}
  {trades : List (Transfer PositionRiskKey)} {fills : List (AdapterUserId × ℤ)}

/-- All transfers of a liquidation, in order. -/
def liquidationTransfers (input : LiquidatePositionInput) (before : PositionRiskKey → ℤ)
    (trades : List (Transfer PositionRiskKey)) (fills : List (AdapterUserId × ℤ)) :
    List (Transfer PositionRiskKey) :=
  trades ++ adlTransfers (liquidationOrderSide (before input.key)) input.key fills

theorem takenBy_adlTransfers (hamounts : ∀ fill ∈ fills, 0 ≤ fill.2) :
    TakenBy side key (adlTransfers side key fills) := by
  unfold TakenBy adlTransfers takerTransfer
  cases side with
  | long =>
    intro t ht
    obtain ⟨fill, hfill, rfl⟩ := List.mem_map.1 ht
    exact ⟨rfl, hamounts fill hfill⟩
  | short =>
    intro t ht
    obtain ⟨fill, hfill, rfl⟩ := List.mem_map.1 ht
    exact ⟨rfl, hamounts fill hfill⟩

theorem LiquidationMoves.takenBy (h : LiquidationMoves input before after trades fills) :
    TakenBy (liquidationOrderSide (before input.key)) input.key
      (liquidationTransfers input before trades fills) :=
  h.taken.append (takenBy_adlTransfers h.amounts)

/-- The liquidated position still faces its order when everything is done. -/
theorem LiquidationMoves.facing_key (h : LiquidationMoves input before after trades fills) :
    Facing (liquidationOrderSide (before input.key)) (after input.key) := by
  have hbooked := h.taken.facing (facing_liquidationOrderSide _) h.booked
  have hdeleveraged := @TakenBy.facing _ (adlTransfers (liquidationOrderSide (before input.key))
    input.key fills) _ input.key (takenBy_adlTransfers h.amounts) hbooked
  rw [h.signed, Transfer.settle_append]
  refine hdeleveraged (le_of_eq_of_le ?_ h.left)
  unfold Transfer.total adlTransfers
  rw [List.map_map]
  congr 1
  refine List.map_congr_left fun fill _ => ?_
  cases liquidationOrderSide (before input.key) <;> rfl

/-- Every single transfer takes the liquidated position toward zero. -/
theorem LiquidationMoves.along_key (h : LiquidationMoves input before after trades fills) :
    Transfer.Along input.key before (liquidationTransfers input before trades fills) := by
  refine h.takenBy.along_taker ?_
  have hend := h.facing_key
  rw [h.signed] at hend
  exact hend

/-- And the position of every counterparty. -/
theorem LiquidationMoves.along_counterparty
    (h : LiquidationMoves input before after trades fills) {fill : AdapterUserId × ℤ}
    (hfill : fill ∈ fills) : Transfer.Along ⟨fill.1, input.marketId⟩ before
      (liquidationTransfers input before trades fills) := by
  refine h.takenBy.along_maker ?_ ?_
  · exact fun heq => (h.users fill hfill).1 (congrArg PositionRiskKey.userId heq)
  · have hend := h.facing fill hfill
    rw [h.signed] at hend
    exact hend

end Moves

end PerpexEngine
