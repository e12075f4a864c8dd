import PerpexEngine.Core.RingPriceLadder
import Mathlib.Tactic.ByContra
import Mathlib.Tactic.SplitIfs
import Mathlib.Order.Nat

/-! The bitmap scans return the first or last occupied slot of a range, and the best level of
the ring is the one at the best offset from its head, wherever the head stands. -/
namespace PerpexEngine
open BitScan

/-- The entry of the first occupied index in `lo..hi`, the upper end excluded. -/
def FirstIn {α : Type} (f : ℕ → Option α) (lo hi : ℕ) : Option α → Prop
  | none => ∀ i, lo ≤ i → i < hi → f i = none
  | some a => ∃ i, lo ≤ i ∧ i < hi ∧ f i = some a ∧ ∀ j, lo ≤ j → j < i → f j = none

/-- The entry of the last occupied index in `lo..hi`, the upper end excluded. -/
def LastIn {α : Type} (f : ℕ → Option α) (lo hi : ℕ) : Option α → Prop
  | none => ∀ i, lo ≤ i → i < hi → f i = none
  | some a => ∃ i, lo ≤ i ∧ i < hi ∧ f i = some a ∧ ∀ j, i < j → j < hi → f j = none

/-- Empty indices in front of the range change nothing. -/
theorem FirstIn.extend {α : Type} {f : ℕ → Option α} {lo mid hi : ℕ} {r : Option α}
    (h : FirstIn f mid hi r) (hle : lo ≤ mid) (hempty : ∀ i, lo ≤ i → i < mid → i < hi → f i = none) :
    FirstIn f lo hi r := by
  cases r with
  | none =>
    intro i hlo hhi
    by_cases hm : i < mid
    · exact hempty i hlo hm hhi
    · exact h i (by omega) hhi
  | some a =>
    obtain ⟨i, hmi, hhi, hi, hbefore⟩ := h
    refine ⟨i, by omega, hhi, hi, fun j hlo hj => ?_⟩
    by_cases hm : j < mid
    · exact hempty j hlo hm (by omega)
    · exact hbefore j (by omega) hj

/-- Empty indices behind the range change nothing. -/
theorem LastIn.extend {α : Type} {f : ℕ → Option α} {lo mid hi : ℕ} {r : Option α}
    (h : LastIn f lo mid r) (hle : mid ≤ hi) (hempty : ∀ i, mid ≤ i → lo ≤ i → i < hi → f i = none) :
    LastIn f lo hi r := by
  cases r with
  | none =>
    intro i hlo hhi
    by_cases hm : i < mid
    · exact h i hlo hm
    · exact hempty i (by omega) hlo hhi
  | some a =>
    obtain ⟨i, hlo, hmi, hi, hafter⟩ := h
    refine ⟨i, hlo, by omega, hi, fun j hj hhi => ?_⟩
    by_cases hm : j < mid
    · exact hafter j hj hm
    · exact hempty j (by omega) (by omega) hhi

namespace RingPriceLadder

/-- Sizes as constructed, and a bitmap that mirrors the occupancy of the slots. -/
structure WellFormed (ladder : RingPriceLadder) : Prop where
  slots_size : ladder.slots.size = ladder.capacity
  bitmap_size : ladder.activeSlotBitmap.size = bitmapWordCount ladder.capacity
  head_lt : 0 < ladder.capacity → ladder.headIndex < ladder.capacity
  bit_iff : ∀ i, (ladder.wordAt (i / kBitmapWordBits)).getLsbD (i % kBitmapWordBits) =
    (ladder.slotAt i).isSome

variable {ladder : RingPriceLadder}

theorem WellFormed.slotAt_ge (h : ladder.WellFormed) {i : ℕ} (hi : ladder.capacity ≤ i) :
    ladder.slotAt i = none := by
  rw [slotAt, Array.getD_eq_getD_getElem?, Array.getElem?_eq_none (by rw [h.slots_size]; exact hi)]
  rfl

theorem WellFormed.lt_capacity (h : ladder.WellFormed) {i : ℕ} {p : LevelPtr}
    (hi : ladder.slotAt i = some p) : i < ladder.capacity := by
  by_contra hge
  rw [h.slotAt_ge (by omega)] at hi
  cases hi

theorem WellFormed.bit (h : ladder.WellFormed) (w b : ℕ) (hb : b < 64) :
    (ladder.wordAt w).getLsbD b = (ladder.slotAt (w * 64 + b)).isSome := by
  have hi := h.bit_iff (w * 64 + b)
  simp only [kBitmapWordBits] at hi
  rwa [show (w * 64 + b) / 64 = w by omega, show (w * 64 + b) % 64 = b by omega] at hi

theorem bitmapWordCount_pos {capacity : ℕ} (h : 0 < capacity) : 0 < bitmapWordCount capacity := by
  simp only [bitmapWordCount, kBitmapWordBits]
  omega

theorem WellFormed.bitmap_nonempty (h : ladder.WellFormed) (hc : 0 < ladder.capacity) :
    ladder.activeSlotBitmap.isEmpty = false := by
  have hpos := bitmapWordCount_pos hc
  rw [← h.bitmap_size] at hpos
  rw [Array.isEmpty_eq_false_iff]
  exact Array.ne_empty_of_size_pos hpos

/-- A masked word shows exactly the occupied slots of its part of the range. -/
theorem WellFormed.maskedWord_bit (h : ladder.WellFormed) {first last w b : ℕ}
    (hb : b < 64) (hfw : first / 64 ≤ w) (hwl : w ≤ last / 64) :
    (ladder.maskedWord first last w).getLsbD b =
      (decide (first ≤ w * 64 + b) && decide (w * 64 + b ≤ last) &&
        (ladder.slotAt (w * 64 + b)).isSome) := by
  have hbit := h.bit w b hb
  have hfrom := getLsbD_bitsFrom b (first % 64) hb
  have hthrough := getLsbD_bitsThrough b (last % 64) hb (by omega)
  simp only [maskedWord, kBitmapWordBits]
  by_cases hl : w = last / 64 <;> by_cases hf : w = first / 64
  · have hfd : decide (first % 64 ≤ b) = decide (first ≤ w * 64 + b) :=
      decide_eq_decide.2 (by omega)
    have hld : decide (b ≤ last % 64) = decide (w * 64 + b ≤ last) := decide_eq_decide.2 (by omega)
    rw [if_pos hl, if_pos hf, BitVec.getLsbD_and, BitVec.getLsbD_and, hbit, hfrom, hthrough, hfd,
      hld]
    cases (ladder.slotAt (w * 64 + b)).isSome <;> simp
  · have hld : decide (b ≤ last % 64) = decide (w * 64 + b ≤ last) := decide_eq_decide.2 (by omega)
    rw [if_pos hl, if_neg hf, BitVec.getLsbD_and, hbit, hthrough, hld]
    simp [show first ≤ w * 64 + b by omega, Bool.and_comm]
  · have hfd : decide (first % 64 ≤ b) = decide (first ≤ w * 64 + b) :=
      decide_eq_decide.2 (by omega)
    rw [if_neg hl, if_pos hf, BitVec.getLsbD_and, hbit, hfrom, hfd]
    simp [show w * 64 + b ≤ last by omega, Bool.and_comm]
  · rw [if_neg hl, if_neg hf, hbit]
    simp [show first ≤ w * 64 + b by omega, show w * 64 + b ≤ last by omega]

theorem WellFormed.scanWordUp_eq (h : ladder.WellFormed) {w rounds : ℕ} {bits : Word}
    (hbits : ∀ b < 64, bits.getLsbD b = true → (ladder.slotAt (w * 64 + b)).isSome = true) :
    scanWordUp w (rounds + 1) bits ladder =
      (if bits = 0 then none else ladder.slotAt (w * 64 + lowestBit bits), ladder) := by
  rw [scanWordUp]
  split_ifs with hz
  · rfl
  · obtain ⟨p, hp⟩ := Option.isSome_iff_exists.1
      (hbits _ (lowestBit_lt hz) (getLsbD_lowestBit hz))
    have hcap := h.lt_capacity hp
    simp only [kBitmapWordBits, hp, hcap, ↓reduceIte]

theorem WellFormed.scanWordDown_eq (h : ladder.WellFormed) {w rounds : ℕ} {bits : Word}
    (hbits : ∀ b < 64, bits.getLsbD b = true → (ladder.slotAt (w * 64 + b)).isSome = true) :
    scanWordDown w (rounds + 1) bits ladder =
      (if bits = 0 then none else ladder.slotAt (w * 64 + highestBit bits), ladder) := by
  rw [scanWordDown]
  split_ifs with hz
  · rfl
  · obtain ⟨p, hp⟩ := Option.isSome_iff_exists.1
      (hbits _ (highestBit_lt bits) (getLsbD_highestBit hz))
    have hcap := h.lt_capacity hp
    simp only [kBitmapWordBits, hp, hcap, ↓reduceIte]

/-- The occupied slots behind the bits of a masked word. -/
theorem WellFormed.maskedWord_slot (h : ladder.WellFormed) {first last w : ℕ}
    (hfw : first / 64 ≤ w) (hwl : w ≤ last / 64) (b : ℕ) (hb : b < 64)
    (hbit : (ladder.maskedWord first last w).getLsbD b = true) :
    first ≤ w * 64 + b ∧ w * 64 + b ≤ last ∧ (ladder.slotAt (w * 64 + b)).isSome = true := by
  rw [h.maskedWord_bit hb hfw hwl] at hbit
  simpa [and_assoc] using hbit

theorem WellFormed.slot_none_of_bit (h : ladder.WellFormed) {first last w i : ℕ}
    (hfw : first / 64 ≤ w) (hwl : w ≤ last / 64) (hiw : i / 64 = w) (hfi : first ≤ i)
    (hil : i ≤ last) (hbit : (ladder.maskedWord first last w).getLsbD (i % 64) = false) :
    ladder.slotAt i = none := by
  rw [h.maskedWord_bit (by omega) hfw hwl, show w * 64 + i % 64 = i by omega] at hbit
  simpa [hfi, hil] using hbit

theorem WellFormed.scanUp_spec (h : ladder.WellFormed) {first last : ℕ} (count w : ℕ)
    (hfw : first / 64 ≤ w) (hw : w + count = last / 64 + 1) :
    (scanUp first last count w ladder).2 = ladder ∧
      FirstIn ladder.slotAt (max first (w * 64)) (last + 1)
        (scanUp first last count w ladder).1 := by
  induction count generalizing w with
  | zero =>
    refine ⟨rfl, fun i hi hl => ?_⟩
    omega
  | succ count ih =>
    have hwl : w ≤ last / 64 := by omega
    have hslot := h.maskedWord_slot hfw hwl
    have hnone := fun i => h.slot_none_of_bit (i := i) hfw hwl
    rw [scanUp, show kBitmapWordBits = 63 + 1 from rfl,
      h.scanWordUp_eq fun b hb hbit => (hslot b hb hbit).2.2]
    by_cases hz : ladder.maskedWord first last w = 0
    · simp only [hz, ↓reduceIte]
      obtain ⟨hladder, hfirst⟩ := ih (w + 1) (by omega) (by omega)
      refine ⟨hladder, hfirst.extend (by omega) fun j hj hjw hjl => ?_⟩
      exact hnone j (by omega) (by omega) (by omega) (eq_zero_iff.1 hz _ (by omega))
    · have hlt := lowestBit_lt hz
      obtain ⟨hlo, hhi, hsome⟩ := hslot _ hlt (getLsbD_lowestBit hz)
      obtain ⟨p, hp⟩ := Option.isSome_iff_exists.1 hsome
      simp only [hz, ↓reduceIte, hp]
      refine ⟨trivial, _, by omega, by omega, hp, fun j hj hji => ?_⟩
      apply hnone j (by omega) (by omega) (by omega)
      by_contra hbit
      have hle := lowestBit_le (Bool.not_eq_false _ ▸ hbit)
      omega

theorem WellFormed.scanDown_spec (h : ladder.WellFormed) {first last : ℕ} (count : ℕ)
    (hw : first / 64 + count ≤ last / 64 + 1) :
    (scanDown first last (first / 64) count ladder).2 = ladder ∧
      LastIn ladder.slotAt first (min (last + 1) ((first / 64 + count) * 64))
        (scanDown first last (first / 64) count ladder).1 := by
  induction count with
  | zero =>
    refine ⟨rfl, fun i hi hl => ?_⟩
    omega
  | succ count ih =>
    have hfw : first / 64 ≤ first / 64 + count := by omega
    have hwl : first / 64 + count ≤ last / 64 := by omega
    have hslot := h.maskedWord_slot hfw hwl
    have hnone := fun i => h.slot_none_of_bit (i := i) hfw hwl
    rw [scanDown, show kBitmapWordBits = 63 + 1 from rfl,
      h.scanWordDown_eq fun b hb hbit => (hslot b hb hbit).2.2]
    by_cases hz : ladder.maskedWord first last (first / 64 + count) = 0
    · simp only [hz, ↓reduceIte]
      obtain ⟨hladder, hlast⟩ := ih (by omega)
      refine ⟨hladder, hlast.extend (by omega) fun j hj hjf hjl => ?_⟩
      exact hnone j (by omega) (by omega) (by omega) (eq_zero_iff.1 hz _ (by omega))
    · have hlt := highestBit_lt (ladder.maskedWord first last (first / 64 + count))
      obtain ⟨hlo, hhi, hsome⟩ := hslot _ hlt (getLsbD_highestBit hz)
      obtain ⟨p, hp⟩ := Option.isSome_iff_exists.1 hsome
      simp only [hz, ↓reduceIte, hp]
      refine ⟨trivial, _, hlo, by omega, hp, fun j hj hjl => ?_⟩
      apply hnone j (by omega) (by omega) (by omega)
      by_contra hbit
      have hle := le_highestBit (Bool.not_eq_false _ ▸ hbit)
      omega

theorem WellFormed.firstActiveLevelInRange_spec (h : ladder.WellFormed)
    (hc : 0 < ladder.capacity) (first last : ℕ) :
    (ladder.firstActiveLevelInRange first last).2 = ladder ∧
      FirstIn ladder.slotAt first (last + 1) (ladder.firstActiveLevelInRange first last).1 := by
  rw [firstActiveLevelInRange, h.bitmap_nonempty hc]
  by_cases hlt : last < first
  · rw [if_pos (by simpa using hlt)]
    exact ⟨rfl, fun i hi hl => by omega⟩
  · rw [if_neg (by simpa using hlt)]
    have hspec := h.scanUp_spec (last / 64 + 1 - first / 64) (first / 64) le_rfl
      (show first / 64 + (last / 64 + 1 - first / 64) = last / 64 + 1 by omega)
    rwa [max_eq_left (by omega)] at hspec

theorem WellFormed.lastActiveLevelInRange_spec (h : ladder.WellFormed)
    (hc : 0 < ladder.capacity) (first last : ℕ) :
    (ladder.lastActiveLevelInRange first last).2 = ladder ∧
      LastIn ladder.slotAt first (last + 1) (ladder.lastActiveLevelInRange first last).1 := by
  rw [lastActiveLevelInRange, h.bitmap_nonempty hc]
  by_cases hlt : last < first
  · rw [if_pos (by simpa using hlt)]
    exact ⟨rfl, fun i hi hl => by omega⟩
  · rw [if_neg (by simpa using hlt)]
    have hspec := h.scanDown_spec (last / 64 + 1 - first / 64)
      (show first / 64 + (last / 64 + 1 - first / 64) ≤ last / 64 + 1 by omega)
    rwa [min_eq_left (by omega)] at hspec

/-- The slot at an offset from the head, wrapping at the end of the ring. -/
def atOffset (ladder : RingPriceLadder) (offset : ℕ) : Option LevelPtr :=
  ladder.slotAt ((ladder.headIndex + offset) % ladder.capacity)

/-- The best offset of the side: the highest for bids, the lowest for asks. -/
def BestOffset (ladder : RingPriceLadder) (r : Option LevelPtr) : Prop :=
  match ladder.side with
  | .buy => LastIn ladder.atOffset 0 ladder.capacity r
  | .sell => FirstIn ladder.atOffset 0 ladder.capacity r

theorem atOffset_high {i : ℕ}
    (hi : ladder.headIndex ≤ i) (hc : i < ladder.capacity) :
    ladder.atOffset (i - ladder.headIndex) = ladder.slotAt i := by
  rw [atOffset, show ladder.headIndex + (i - ladder.headIndex) = i by omega, Nat.mod_eq_of_lt hc]

theorem atOffset_low (hh : ladder.headIndex < ladder.capacity) {i : ℕ}
    (hi : i < ladder.headIndex) :
    ladder.atOffset (i + (ladder.capacity - ladder.headIndex)) = ladder.slotAt i := by
  rw [atOffset, show ladder.headIndex + (i + (ladder.capacity - ladder.headIndex)) =
    i + ladder.capacity by omega, Nat.add_mod_right, Nat.mod_eq_of_lt (by omega)]

/-- Offsets from the wrap on are the slots below the head. -/
private theorem lastIn_low (hh : ladder.headIndex < ladder.capacity) {r : Option LevelPtr}
    (h : LastIn ladder.slotAt 0 ladder.headIndex r) :
    LastIn ladder.atOffset (ladder.capacity - ladder.headIndex) ladder.capacity r := by
  have hat : ∀ k, ladder.capacity - ladder.headIndex ≤ k → k < ladder.capacity →
      ladder.atOffset k = ladder.slotAt (k - (ladder.capacity - ladder.headIndex)) := by
    intro k hk hkc
    have hlow := atOffset_low hh (i := k - (ladder.capacity - ladder.headIndex)) (by omega)
    rwa [Nat.sub_add_cancel hk] at hlow
  cases r with
  | none =>
    intro k hk hkc
    rw [hat k hk hkc]
    exact h _ (Nat.zero_le _) (by omega)
  | some p =>
    obtain ⟨i, -, hi, hp, hafter⟩ := h
    refine ⟨i + (ladder.capacity - ladder.headIndex), by omega, by omega,
      (atOffset_low hh hi).trans hp, fun j hj hjc => ?_⟩
    rw [hat j (by omega) hjc]
    exact hafter _ (by omega) (by omega)

private theorem firstIn_low (hh : ladder.headIndex < ladder.capacity) {r : Option LevelPtr}
    (h : FirstIn ladder.slotAt 0 ladder.headIndex r) :
    FirstIn ladder.atOffset (ladder.capacity - ladder.headIndex) ladder.capacity r := by
  have hat : ∀ k, ladder.capacity - ladder.headIndex ≤ k → k < ladder.capacity →
      ladder.atOffset k = ladder.slotAt (k - (ladder.capacity - ladder.headIndex)) := by
    intro k hk hkc
    have hlow := atOffset_low hh (i := k - (ladder.capacity - ladder.headIndex)) (by omega)
    rwa [Nat.sub_add_cancel hk] at hlow
  cases r with
  | none =>
    intro k hk hkc
    rw [hat k hk hkc]
    exact h _ (Nat.zero_le _) (by omega)
  | some p =>
    obtain ⟨i, -, hi, hp, hbefore⟩ := h
    refine ⟨i + (ladder.capacity - ladder.headIndex), by omega, by omega,
      (atOffset_low hh hi).trans hp, fun j hj hjc => ?_⟩
    rw [hat j hj (by omega)]
    exact hbefore _ (Nat.zero_le _) (by omega)

/-- Offsets before the wrap are the slots from the head on. -/
private theorem atOffset_before {k : ℕ}
    (hk : k < ladder.capacity - ladder.headIndex) :
    ladder.atOffset k = ladder.slotAt (ladder.headIndex + k) := by
  have hat : ladder.atOffset (ladder.headIndex + k - ladder.headIndex) = _ :=
    atOffset_high (Nat.le_add_right _ _) (by omega)
  rwa [show ladder.headIndex + k - ladder.headIndex = k by omega] at hat

private theorem lastIn_high {r : Option LevelPtr}
    (h : LastIn ladder.slotAt ladder.headIndex ladder.capacity r) :
    LastIn ladder.atOffset 0 (ladder.capacity - ladder.headIndex) r := by
  cases r with
  | none =>
    intro k _ hkc
    rw [atOffset_before hkc]
    exact h _ (by omega) (by omega)
  | some p =>
    obtain ⟨i, hi, hic, hp, hafter⟩ := h
    refine ⟨i - ladder.headIndex, Nat.zero_le _, by omega, (atOffset_high hi hic).trans hp,
      fun j hj hjc => ?_⟩
    rw [atOffset_before hjc]
    exact hafter _ (by omega) (by omega)

private theorem firstIn_high {r : Option LevelPtr}
    (h : FirstIn ladder.slotAt ladder.headIndex ladder.capacity r) :
    FirstIn ladder.atOffset 0 (ladder.capacity - ladder.headIndex) r := by
  cases r with
  | none =>
    intro k _ hkc
    rw [atOffset_before hkc]
    exact h _ (by omega) (by omega)
  | some p =>
    obtain ⟨i, hi, hic, hp, hbefore⟩ := h
    refine ⟨i - ladder.headIndex, Nat.zero_le _, by omega, (atOffset_high hi hic).trans hp,
      fun j hj hjc => ?_⟩
    have hjlt : j < ladder.capacity - ladder.headIndex := by omega
    rw [atOffset_before hjlt]
    exact hbefore _ (by omega) (by omega)

/-- Widening a found range at the other end. -/
private theorem FirstIn.widen {f : ℕ → Option LevelPtr} {lo mid hi : ℕ} {p : LevelPtr}
    (h : FirstIn f lo mid (some p)) (hle : mid ≤ hi) : FirstIn f lo hi (some p) := by
  obtain ⟨i, hlo, hhi, hrest⟩ := h
  exact ⟨i, hlo, by omega, hrest⟩

private theorem LastIn.widen {f : ℕ → Option LevelPtr} {lo mid hi : ℕ} {p : LevelPtr}
    (h : LastIn f mid hi (some p)) (hle : lo ≤ mid) : LastIn f lo hi (some p) := by
  obtain ⟨i, hlo, hrest⟩ := h
  exact ⟨i, by omega, hrest⟩

/-- The two partial scans together find the best offset, for every position of the head. -/
theorem WellFormed.bestLevel_spec (h : ladder.WellFormed) :
    ladder.bestLevel.2 = ladder ∧ ladder.BestOffset ladder.bestLevel.1 := by
  rw [bestLevel, advanceBestAfterEmpty, BestOffset]
  by_cases hc : ladder.capacity = 0
  · rw [if_pos hc]
    refine ⟨rfl, ?_⟩
    cases ladder.side <;> exact fun i _ hi => by omega
  have hpos : 0 < ladder.capacity := by omega
  have hh := h.head_lt hpos
  obtain ⟨hlow, hlast⟩ := h.lastActiveLevelInRange_spec hpos 0 (ladder.headIndex - 1)
  obtain ⟨hhigh, hlast'⟩ :=
    h.lastActiveLevelInRange_spec hpos ladder.headIndex (ladder.capacity - 1)
  obtain ⟨hfhigh, hfirst⟩ :=
    h.firstActiveLevelInRange_spec hpos ladder.headIndex (ladder.capacity - 1)
  obtain ⟨hflow, hfirst'⟩ := h.firstActiveLevelInRange_spec hpos 0 (ladder.headIndex - 1)
  rw [if_neg hc]
  rw [Nat.sub_add_cancel hpos] at hlast' hfirst
  cases ladder.side with
  | buy =>
    by_cases hz : 0 < ladder.headIndex
    · rw [Nat.sub_add_cancel hz] at hlast
      simp only [hz, ↓reduceIte]
      generalize ladder.lastActiveLevelInRange 0 (ladder.headIndex - 1) = low at hlow hlast
      obtain ⟨r, l⟩ := low
      cases r with
      | some p => exact ⟨hlow, LastIn.widen (lastIn_low hh hlast) (Nat.zero_le _)⟩
      | none =>
        obtain rfl : l = ladder := hlow
        refine ⟨hhigh, (lastIn_high hlast').extend (by omega) fun k hk _ hkc => ?_⟩
        exact lastIn_low hh hlast k hk hkc
    · simp only [hz, ↓reduceIte]
      refine ⟨hhigh, ?_⟩
      have hres := lastIn_high hlast'
      rwa [show ladder.capacity - ladder.headIndex = ladder.capacity by omega] at hres
  | sell =>
    generalize ladder.firstActiveLevelInRange ladder.headIndex (ladder.capacity - 1) = high
      at hfhigh hfirst
    obtain ⟨r, l⟩ := high
    cases r with
    | some p => exact ⟨hfhigh, FirstIn.widen (firstIn_high hfirst) (by omega)⟩
    | none =>
      obtain rfl : l = ladder := hfhigh
      by_cases hz : 0 < l.headIndex
      · rw [Nat.sub_add_cancel hz] at hfirst'
        simp only [hz, ↓reduceIte]
        refine ⟨hflow, (firstIn_low hh hfirst').extend (by omega) fun k _ hk hkc => ?_⟩
        exact firstIn_high hfirst k (Nat.zero_le _) hk
      · simp only [hz, ↓reduceIte]
        refine ⟨trivial, fun k hk hkc => ?_⟩
        exact firstIn_high hfirst k hk (by omega)

end RingPriceLadder
end PerpexEngine
