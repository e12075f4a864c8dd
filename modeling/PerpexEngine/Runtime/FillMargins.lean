import PerpexEngine.Runtime.EventTranslator

/-! The margin of an order over its fills: what is previewed is allocated, and the allocations and
what remains always add up to what was reserved. -/
namespace PerpexEngine

/-- A quantity and the price it was filled at. -/
abbrev PricedFill := ℤ × AdapterPrice

namespace OrderMetadata

/-- The order after some of its fills. -/
def afterFills (metadata : OrderMetadata) (fills : List PricedFill) : OrderMetadata :=
  fills.foldl (fun m fill => allocateFillMargin m fill.1 fill.2) metadata

/-- What `allocate_fill_margin` returns fill by fill. -/
def allocations (metadata : OrderMetadata) : List PricedFill → List ℤ
  | [] => []
  | fill :: fills => allocatedMargin metadata fill.1 fill.2 ::
      allocations (allocateFillMargin metadata fill.1 fill.2) fills

/-- The order has margin of its own, some of it still reserved. -/
structure Reserving (metadata : OrderMetadata) : Prop where
  reserved : 0 < metadata.reservedMarginAmount
  original : 0 < metadata.originalQuantity
  remaining : 0 ≤ metadata.remainingReservedMargin

end OrderMetadata

section Step
variable {metadata : OrderMetadata} {lots : ℤ}

/-- The two copies of the rounding rule agree. -/
theorem previewFillMargin_eq_allocatedMargin (metadata : OrderMetadata) (lots : ℤ)
    (price : AdapterPrice) :
    previewFillMargin metadata lots price = allocatedMargin metadata lots price := by
  unfold previewFillMargin allocatedMargin
  split_ifs
  · exact (min_self _).symm
  · rfl
  · rfl

theorem OrderMetadata.Reserving.allocated (h : metadata.Reserving) (hlots : 0 ≤ lots)
    (price : AdapterPrice) : 0 ≤ allocatedMargin metadata lots price ∧
      allocatedMargin metadata lots price ≤ metadata.remainingReservedMargin := by
  have hshare : 0 ≤ (metadata.reservedMarginAmount * lots).tdiv metadata.originalQuantity :=
    Int.tdiv_nonneg (Int.mul_nonneg h.reserved.le hlots) h.original.le
  unfold allocatedMargin
  rw [if_pos ⟨h.reserved, h.original⟩]
  refine ⟨le_min ?_ h.remaining, min_le_right _ _⟩
  split_ifs
  · exact h.remaining
  · exact hshare

/-- A fill moves its allocation out of what remains. -/
theorem OrderMetadata.Reserving.fill (h : metadata.Reserving) (hlots : 0 ≤ lots)
    (price : AdapterPrice) : (allocateFillMargin metadata lots price).Reserving ∧
      allocatedMargin metadata lots price +
        (allocateFillMargin metadata lots price).remainingReservedMargin =
          metadata.remainingReservedMargin := by
  obtain ⟨-, hle⟩ := h.allocated hlots price
  have hremains : (allocateFillMargin metadata lots price).remainingReservedMargin =
      metadata.remainingReservedMargin - allocatedMargin metadata lots price := by
    unfold allocateFillMargin
    dsimp only
    split_ifs <;> omega
  rw [hremains]
  exact ⟨⟨h.reserved, h.original, by rw [hremains]; omega⟩, by omega⟩

/-- The fill that completes the order takes all that remains. -/
theorem OrderMetadata.Reserving.lastFill (h : metadata.Reserving)
    (hpositive : 0 < metadata.remainingQuantity) (price : AdapterPrice) :
    allocatedMargin metadata metadata.remainingQuantity price =
      metadata.remainingReservedMargin := by
  unfold allocatedMargin
  rw [if_pos ⟨h.reserved, h.original⟩, if_pos ⟨hpositive, le_rfl⟩, min_self]

theorem remainingQuantity_allocateFillMargin (h : lots ≤ metadata.remainingQuantity)
    (price : AdapterPrice) : (allocateFillMargin metadata lots price).remainingQuantity =
      metadata.remainingQuantity - lots := by
  unfold allocateFillMargin
  dsimp only
  split_ifs with hless
  · rfl
  · exact (Int.sub_eq_zero.2 (le_antisymm (not_lt.1 hless) h)).symm

end Step

section Run
variable {metadata : OrderMetadata} {fills : List PricedFill}

/-- What the fills take together. -/
def filledLots (fills : List PricedFill) : ℤ := (fills.map (·.1)).sum

theorem filledLots_cons (fill : PricedFill) (fills : List PricedFill) :
    filledLots (fill :: fills) = fill.1 + filledLots fills := rfl

theorem filledLots_nonneg (h : ∀ fill ∈ fills, 0 < fill.1) : 0 ≤ filledLots fills := by
  induction fills with
  | nil => exact le_rfl
  | cons fill fills ih =>
    have hfirst := h fill List.mem_cons_self
    have hrest := ih fun f hf => h f (List.mem_cons_of_mem _ hf)
    rw [filledLots_cons]
    omega

/-- Over any fills the allocations and what remains add up. -/
theorem OrderMetadata.Reserving.run (h : metadata.Reserving) (hfills : ∀ fill ∈ fills, 0 < fill.1) :
    (metadata.afterFills fills).Reserving ∧
      (metadata.allocations fills).sum + (metadata.afterFills fills).remainingReservedMargin =
        metadata.remainingReservedMargin := by
  induction fills generalizing metadata with
  | nil => exact ⟨h, Int.zero_add _⟩
  | cons fill fills ih =>
    obtain ⟨hnext, hsum⟩ := h.fill (hfills fill List.mem_cons_self).le fill.2
    obtain ⟨hend, htotal⟩ := ih hnext fun f hf => hfills f (List.mem_cons_of_mem _ hf)
    refine ⟨hend, ?_⟩
    change (allocatedMargin metadata fill.1 fill.2 +
      (OrderMetadata.allocations (allocateFillMargin metadata fill.1 fill.2) fills).sum) +
        ((allocateFillMargin metadata fill.1 fill.2).afterFills fills).remainingReservedMargin =
          metadata.remainingReservedMargin
    omega

/-- Fills that complete the order leave no margin behind. -/
theorem OrderMetadata.Reserving.completed (h : metadata.Reserving) {lots : ℤ} (hopen : 0 < lots)
    (hlots : metadata.remainingQuantity = lots) (hfills : ∀ fill ∈ fills, 0 < fill.1)
    (hsum : filledLots fills = lots) :
    (metadata.allocations fills).sum = metadata.remainingReservedMargin := by
  induction fills generalizing metadata lots with
  | nil =>
    have hzero : (0 : ℤ) = lots := hsum
    omega
  | cons fill fills ih =>
    have hpositive := hfills fill List.mem_cons_self
    have hrest := fun f hf => hfills f (List.mem_cons_of_mem fill hf)
    have htail := filledLots_nonneg hrest
    rw [filledLots_cons] at hsum
    obtain ⟨hnext, hmoved⟩ := h.fill hpositive.le fill.2
    change allocatedMargin metadata fill.1 fill.2 +
      (OrderMetadata.allocations (allocateFillMargin metadata fill.1 fill.2) fills).sum = _
    by_cases hlast : fill.1 = lots
    · have hall := h.lastFill (hopen.trans_eq hlots.symm) fill.2
      rw [hlots, ← hlast] at hall
      have hnone : fills = [] := by
        cases fills with
        | nil => rfl
        | cons f fs =>
          have hf := hrest f List.mem_cons_self
          have hfs := filledLots_nonneg fun g hg => hrest g (List.mem_cons_of_mem _ hg)
          rw [filledLots_cons] at htail hsum
          omega
      rw [hnone, hall]
      exact Int.add_zero _
    · have hremains := remainingQuantity_allocateFillMargin
        (hlots.symm ▸ (by omega : fill.1 ≤ lots) : fill.1 ≤ metadata.remainingQuantity) fill.2
      rw [hlots] at hremains
      have hlater := ih hnext (by omega) hremains hrest (by omega)
      omega

/-- At every fill the preview is the allocation and is not negative; the running sum of allocations
and what remains are the reserved margin; a completed order has allocated all of it. -/
theorem fill_margins_add_up (metadata : OrderMetadata)
    (hreserved : 0 < metadata.reservedMarginAmount) (horiginal : 0 < metadata.originalQuantity)
    (hquantity : metadata.remainingQuantity = metadata.originalQuantity)
    (hmargin : metadata.remainingReservedMargin = metadata.reservedMarginAmount)
    (fills : List PricedFill) (hfills : ∀ fill ∈ fills, 0 < fill.1) :
    (∀ earlier fill later, fills = earlier ++ fill :: later →
      previewFillMargin (metadata.afterFills earlier) fill.1 fill.2 =
          allocatedMargin (metadata.afterFills earlier) fill.1 fill.2 ∧
        0 ≤ allocatedMargin (metadata.afterFills earlier) fill.1 fill.2) ∧
      (∀ earlier later, fills = earlier ++ later → (metadata.allocations earlier).sum +
        (metadata.afterFills earlier).remainingReservedMargin = metadata.reservedMarginAmount) ∧
      (filledLots fills = metadata.originalQuantity →
        (metadata.allocations fills).sum = metadata.reservedMarginAmount) := by
  have hstart : metadata.Reserving := ⟨hreserved, horiginal, hreserved.le.trans_eq hmargin.symm⟩
  refine ⟨fun earlier fill later hsplit => ?_, fun earlier later hsplit => ?_, fun hall => ?_⟩
  · subst hsplit
    obtain ⟨hthere, -⟩ := hstart.run fun f hf => hfills f (List.mem_append_left _ hf)
    have hpositive := hfills fill (List.mem_append_right _ List.mem_cons_self)
    exact ⟨previewFillMargin_eq_allocatedMargin _ _ _, (hthere.allocated hpositive.le fill.2).1⟩
  · subst hsplit
    rw [← hmargin]
    exact (hstart.run fun f hf => hfills f (List.mem_append_left _ hf)).2
  · rw [← hmargin]
    exact hstart.completed horiginal hquantity hfills hall

/-- A buy order of ten lots with seven units of margin. -/
def sampleMetadata : OrderMetadata where
  orderId := 1
  marketId := 1
  userId := 7
  side := .long
  originalQuantity := 10
  remainingQuantity := 10
  reduceOnly := false
  marginAsset := ascii "USDC"
  reservedMarginAmount := 7
  remainingReservedMargin := 7
  leverage := 5
  reservationId := ascii "res-1"
  placeRequestId := ascii "req-1"
  placeIdempotencyKey := ascii "idem-1"
  placeInputId := none
  replyPartition := 3
  coreClientOrderId := 1
  corePlaceCommandId := 1

/-- Three fills, none of which takes a whole share of the margin. -/
theorem fill_margins_add_up_sample :
    (sampleMetadata.allocations [(3, 100), (4, 101), (3, 99)]).sum = 7 :=
  (fill_margins_add_up sampleMetadata (by decide) (by decide) rfl rfl
    [(3, 100), (4, 101), (3, 99)] (by decide)).2.2 rfl

example : sampleMetadata.allocations [(3, 100), (4, 101), (3, 99)] = [2, 2, 3] := by decide

end Run
end PerpexEngine
