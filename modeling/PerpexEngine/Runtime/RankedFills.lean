import PerpexEngine.Runtime.Deleveraging
import PerpexEngine.Runtime.FillMargins
import PerpexEngine.Runtime.LiquidationReplies

/-! Whom the ADL fills of a liquidation reach, in which order and for how much. -/
namespace PerpexEngine
open Program

/-- A user whose open position faces the liquidated one and shows a profit. -/
structure AdlCandidate.Stands (c : AdlCandidate) (input : LiquidatePositionInput)
    (ledger : Ledger) : Prop where
  market : c.key.marketId = input.marketId
  other : c.key.userId ≠ input.liquidatedUserId
  position : ledger.positions[c.key]? = some c.position
  opposing : ledger.signed input.key < 0 ∧ 0 < c.position.signedQuantity ∨
    0 < ledger.signed input.key ∧ c.position.signedQuantity < 0
  risk : ∃ risk, ledger.riskStates[c.key]? = some risk ∧ 0 < risk.unrealizedPnl ∧
    c.unrealizedPnl = risk.unrealizedPnl ∧ c.leverage = risk.leverage ∧
    c.marginRatio = risk.marginRatio
  available : c.availableQuantity = absQuantity c.position.signedQuantity

/-- Higher profit, higher leverage, lower margin ratio, larger exposure, lower user id first. -/
def AdlCandidate.rank (c : AdlCandidate) : ℤ ×ₗ ℤ ×ₗ ℤ ×ₗ ℤ ×ₗ ℤ :=
  toLex (-c.unrealizedPnl, toLex (-c.leverage, toLex (c.marginRatio,
    toLex (-c.availableQuantity, c.key.userId))))

theorem AdlCandidate.before_iff (left right : AdlCandidate) :
    left.before right = true ↔ left.rank < right.rank := by
  unfold before rank
  simp only [Prod.Lex.toLex_lt_toLex]
  split_ifs <;> grind

section Candidates
variable {input : LiquidatePositionInput} {ledger : Ledger} {c : AdlCandidate}

theorem hasOpposingExposure_iff (x y : ℤ) :
    hasOpposingExposure x y = true ↔ x < 0 ∧ 0 < y ∨ 0 < x ∧ y < 0 := by
  unfold hasOpposingExposure
  simp only [Bool.or_eq_true, Bool.and_eq_true, decide_eq_true_eq]
  exact or_comm

theorem adlCandidateOf_iff {liquidated position : IsolatedPositionState} {key : PositionRiskKey}
    (hliquidated : ledger.positions[input.key]? = some liquidated)
    (hposition : ledger.positions[key]? = some position) :
    adlCandidateOf input liquidated ledger.riskStates key position = some c ↔
      c.key = key ∧ c.Stands input ledger := by
  have hsigned : ledger.signed input.key = liquidated.signedQuantity := by
    unfold Ledger.signed signedAt
    rw [hliquidated]
  unfold adlCandidateOf
  constructor
  · intro h
    split at h
    · cases h
    · rename_i hskip
      push Not at hskip
      obtain ⟨hmarket, huser, -, hopposing⟩ := hskip
      rw [ne_eq, Bool.not_eq_false, hasOpposingExposure_iff] at hopposing
      split at h
      · cases h
      · rename_i risk hrisk
        split_ifs at h with hprofit
        cases h
        exact ⟨rfl, hmarket, huser, hposition, hsigned ▸ hopposing,
          ⟨risk, hrisk, not_le.1 hprofit, rfl, rfl, rfl⟩, rfl⟩
  · rintro ⟨rfl, hc⟩
    obtain ⟨risk, hrisk, hprofit, hpnl, hleverage, hratio⟩ := hc.risk
    have hfound : c.position = position := Option.some.inj (hc.position.symm.trans hposition)
    have hopposing := hc.opposing
    rw [hsigned, ← hasOpposingExposure_iff, hfound] at hopposing
    have hskip : ¬(c.key.marketId ≠ input.marketId ∨ c.key.userId = input.liquidatedUserId ∨
        position.signedQuantity = 0 ∨
        hasOpposingExposure liquidated.signedQuantity position.signedQuantity = false) := by
      push Not
      refine ⟨hc.market, hc.other, fun hflat => ?_, fun hfalse => ?_⟩
      · have hopen := hc.opposing
        rw [hfound, hflat] at hopen
        omega
      · rw [hopposing] at hfalse
        cases hfalse
    rw [if_neg hskip, hrisk]
    dsimp only
    rw [if_neg (not_le.2 hprofit), ← hpnl, ← hleverage, ← hratio, ← hfound, ← hc.available]

/-- The candidates are the users that stand opposite, and no others. -/
theorem mem_adlCandidatesAt : c ∈ adlCandidatesAt input ledger ↔ c.Stands input ledger := by
  unfold adlCandidatesAt
  cases hliquidated : ledger.positions[input.key]? with
  | none =>
    refine ⟨fun h => absurd h List.not_mem_nil, fun hc => ?_⟩
    have hflat : ledger.signed input.key = 0 := by
      unfold Ledger.signed signedAt
      rw [hliquidated]
    have hopposing := hc.opposing
    omega
  | some liquidated =>
    dsimp only
    rw [mem_adlCandidatesFor]
    constructor
    · rintro ⟨entry, hentry, hof⟩
      rw [Std.ExtTreeMap.mem_toList_iff_getElem?_eq_some] at hentry
      exact ((adlCandidateOf_iff hliquidated hentry).1 hof).2
    · intro hc
      exact ⟨_, Std.ExtTreeMap.mem_toList_iff_getElem?_eq_some.2 hc.position,
        (adlCandidateOf_iff hliquidated hc.position).2 ⟨rfl, hc⟩⟩

/-- They come in the order of their ranks, of which no two are equal. -/
theorem ranked_adlCandidatesAt (input : LiquidatePositionInput) (ledger : Ledger) :
    Ranked AdlCandidate.rank (adlCandidatesAt input ledger) := by
  unfold adlCandidatesAt
  split
  · exact Ranked.nil _
  · rename_i liquidated hliquidated
    have hnodup := @nodup_adlCandidatesFor input ledger liquidated
    unfold adlCandidatesFor at hnodup ⊢
    rw [((List.perm_insertionSort _ _).map _).nodup_iff, List.Nodup, List.pairwise_map] at hnodup
    apply Ranked.insertionSort_lt AdlCandidate.before_iff
    refine hnodup.imp fun {a b} hne heq => hne ?_
    unfold AdlCandidate.rank at heq
    simp only [toLex_inj, Prod.mk.injEq] at heq
    exact heq.2.2.2.2

end Candidates

/-- A position less so many lots, in the direction of zero. -/
def shrunkBy (x lots : ℤ) : ℤ := if 0 < x then x - lots else x + lots

/-- ADL fills in order: whom they reach, for how much, and what they leave. -/
structure DeleveragesInRank (input : LiquidatePositionInput) (residual : ℤ) (before after : Ledger)
    (fills : List (AdlCandidate × ℤ)) : Prop where
  counterparties : ∀ fill ∈ fills, fill.1.Stands input before ∧ 0 < fill.2 ∧
    fill.2 ≤ fill.1.availableQuantity ∧
    after.signed fill.1.key = shrunkBy (before.signed fill.1.key) fill.2
  distinct : (fills.map (·.1.key.userId)).Nodup
  ranked : Ranked AdlCandidate.rank (fills.map (·.1))
  closed : ∀ fill ∈ fills.dropLast, after.signed fill.1.key = 0
  priority : ∀ c : AdlCandidate, c.Stands input before → ∀ fill ∈ fills, c.rank < fill.1.rank →
    after.signed c.key = 0
  total : ∃ all : List AdlCandidate, (∀ c, c ∈ all ↔ c.Stands input before) ∧
    Ranked AdlCandidate.rank all ∧
    (fills.map (·.2)).sum = min residual (all.map (·.availableQuantity)).sum
  liquidated : after.signed input.key =
    shrunkBy (before.signed input.key) (fills.map (·.2)).sum
  shrinks : residual ≤ absQuantity (before.signed input.key) →
    absQuantity (after.signed input.key) =
      absQuantity (before.signed input.key) - (fills.map (·.2)).sum
  others : ∀ key ≠ input.key, (∀ fill ∈ fills, fill.1.key ≠ key) →
    after.signed key = before.signed key

section Rounds
variable {input : LiquidatePositionInput} {residual : ℤ} {state state' : TranslationState}
  {side : AdapterSide}

theorem adlFills_exact {candidates : List AdlCandidate}
    (havailable : ∀ c ∈ candidates, 0 < c.availableQuantity) (hsize : residual < 2 ^ 63) :
    adlFills residual candidates = (greedy (·.availableQuantity) residual candidates).map
      fun fill => (fill.1.key.userId, fill.2) := by
  have hremaining : 0 ≤ residual ∨ residual ≤ 0 := le_total 0 residual
  rcases hremaining with hremaining | hdone
  · refine List.map_congr_left fun fill hfill => Prod.ext rfl ?_
    have hamount := greedy_amount havailable hfill
    have htotal := (greedy_total havailable hremaining).le.trans (min_le_left _ _)
    have hle : fill.2 ≤ residual := by
      refine le_trans (List.single_le_sum ?_ _ (List.mem_map_of_mem hfill)) htotal
      intro lots hlots
      obtain ⟨served, hserved, rfl⟩ := List.mem_map.1 hlots
      exact (greedy_amount havailable hserved).1.le
    have hmod : (Quantity.ofLots fill.2.toNat).lots = fill.2.toNat :=
      Nat.mod_eq_of_lt (by omega)
    dsimp only
    rw [hmod]
    exact Int.toNat_of_nonneg hamount.1.le
  · unfold adlFills
    rw [greedy_of_nonpos hdone]
    rfl

/-- Fills made of the candidates in order are fills in rank order. -/
theorem Filled.inRank (hresidual : 0 < residual) (hsize : residual < 2 ^ 63)
    (hside : side = liquidationOrderSide (state.ledger.signed input.key))
    (h : Filled side input.key state (adlFills residual (adlCandidatesAt input state.ledger))
      state') :
    DeleveragesInRank input residual state.ledger state'.ledger
      (greedy (·.availableQuantity) residual (adlCandidatesAt input state.ledger)) := by
  have hfacing : Facing side (state.ledger.signed input.key) := hside ▸ facing_liquidationOrderSide _
  have hfaces := fun c => @faces_adlCandidatesAt input state.ledger _ hfacing c
  have havailable := fun c hc => (hfaces c hc).available
  have hranked := ranked_adlCandidatesAt input state.ledger
  have hnodup := nodup_adlFills (nodup_adlCandidatesAt input state.ledger) residual
  have hstands := fun c => @mem_adlCandidatesAt input state.ledger c
  have hsigned := h.signed
  rw [adlFills_exact havailable hsize] at hnodup hsigned
  generalize adlCandidatesAt input state.ledger = candidates at *
  have hserved : ∀ fill ∈ greedy (·.availableQuantity) residual candidates,
      fill.1.Faces side input.key state.ledger.signed :=
    fun fill hfill => hfaces _ (mem_of_mem_greedy hfill)
  have hafter : ∀ fill ∈ greedy (·.availableQuantity) residual candidates,
      state'.ledger.signed fill.1.key = sideLots side (fill.1.availableQuantity - fill.2) := by
    intro fill hfill
    have hfilled := filledOf_of_mem hnodup (List.mem_map_of_mem hfill)
    have hsize := (hserved fill hfill).size
    rw [(hserved fill hfill).key_eq] at hsize ⊢
    rw [hsigned, settle_adlTransfers_user (hserved fill hfill).user, hfilled, hsize]
    unfold sideLots
    cases side with
    | long => rfl
    | short =>
      dsimp only
      omega
  have hfull : ∀ fill ∈ greedy (·.availableQuantity) residual candidates,
      fill.2 = fill.1.availableQuantity → state'.ledger.signed fill.1.key = 0 := by
    intro fill hfill heq
    rw [hafter fill hfill, heq, sub_self]
    cases side <;> rfl
  have hamount := fun fill hfill => @greedy_amount _ _ residual candidates fill havailable hfill
  have htotal := greedy_total havailable hresidual.le
  have hliquidated : state'.ledger.signed input.key = shrunkBy (state.ledger.signed input.key)
      ((greedy (·.availableQuantity) residual candidates).map (·.2)).sum := by
    have hothers : ∀ fill ∈ (greedy (·.availableQuantity) residual candidates).map
        (fun fill => (fill.1.key.userId, fill.2)), fill.1 ≠ input.key.userId := by
      intro fill hfill
      obtain ⟨served, hmem, rfl⟩ := List.mem_map.1 hfill
      exact (hserved served hmem).user
    rw [hsigned, settle_adlTransfers_key hothers, List.map_map, hside]
    unfold shrunkBy sideLots liquidationOrderSide
    split_ifs <;> rfl
  constructor
  · intro fill hfill
    refine ⟨(hstands _).1 (mem_of_mem_greedy hfill), (hamount fill hfill).1, (hamount fill hfill).2,
      ?_⟩
    have hpositive := (hserved fill hfill).available
    rw [hafter fill hfill, (hserved fill hfill).size]
    unfold shrunkBy sideLots
    cases side <;> dsimp only <;> split_ifs <;> omega
  · rw [List.map_map] at hnodup
    exact hnodup
  · exact ranked_greedy hranked residual
  · exact fun fill hfill => hfull fill (List.mem_of_mem_dropLast hfill) (greedy_full hfill)
  · intro c hc fill hfill hlt
    exact hfull _ (greedy_first hranked ((hstands c).2 hc) hfill hlt) rfl
  · exact ⟨candidates, hstands, hranked, htotal⟩
  · exact hliquidated
  · intro hfits
    rw [hliquidated]
    have hle := htotal.le.trans (min_le_left _ _)
    have hnonneg : 0 ≤ ((greedy (·.availableQuantity) residual candidates).map (·.2)).sum := by
      apply List.sum_nonneg
      intro lots hlots
      obtain ⟨served, hfill, rfl⟩ := List.mem_map.1 hlots
      exact (hamount served hfill).1.le
    generalize ((greedy (·.availableQuantity) residual candidates).map (·.2)).sum = filled at *
    clear hliquidated htotal
    unfold shrunkBy
    unfold absQuantity at hfits ⊢
    split_ifs at hfits ⊢ <;> omega
  · intro key hkey hnone
    rw [hsigned, Transfer.settle_untouched]
    intro t ht
    obtain ⟨fill, hfill, rfl⟩ := List.mem_map.1 ht
    obtain ⟨served, hmem, rfl⟩ := List.mem_map.1 hfill
    have hne := hnone served hmem
    rw [(hserved served hmem).key_eq] at hne
    unfold takerTransfer
    cases side
    · exact ⟨hne, hkey.symm⟩
    · exact ⟨hkey.symm, hne⟩

end Rounds

end PerpexEngine
