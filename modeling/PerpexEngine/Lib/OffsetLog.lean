import PerpexEngine.Lib.Ranked
import Mathlib.Data.Int.Order.Basic

/-! A log whose entries carry strictly increasing offsets, read from a position on. -/
namespace PerpexEngine.OffsetLog
variable {α : Type} (offset : α → ℤ)

/-- The entries from an offset on. -/
def since (first : ℤ) (log : List α) : List α := log.filter fun a => first ≤ offset a

/-- The entries from an offset on, below another. -/
def between (first last : ℤ) (log : List α) : List α :=
  log.filter fun a => first ≤ offset a ∧ offset a < last

/-- The entry a reader at a position gets next. -/
def next (position : ℤ) (log : List α) : Option α := log.find? fun a => position ≤ offset a

variable {offset} {first last position : ℤ} {log : List α} {a b : α}

theorem mem_since : a ∈ since offset first log ↔ a ∈ log ∧ first ≤ offset a := by simp [since]

theorem mem_between :
    a ∈ between offset first last log ↔ a ∈ log ∧ first ≤ offset a ∧ offset a < last := by
  simp [between]

theorem between_self : between offset first first log = [] := by
  rw [List.eq_nil_iff_forall_not_mem]
  intro a ha
  have hbounds := (mem_between.1 ha).2
  omega

theorem next_mem (h : next offset position log = some a) : a ∈ log := List.mem_of_find?_eq_some h

theorem le_next (h : next offset position log = some a) : position ≤ offset a := by
  simpa using List.find?_some h

theorem head?_since : (since offset position log).head? = next offset position log :=
  List.head?_filter

/-- A reader that sees only part of the log yet gets the same entry, or none. -/
theorem next_take {n : ℕ} (h : next offset position (log.take n) = some a) :
    next offset position log = some a := by
  unfold next at h ⊢
  rw [← List.take_append_drop n log, List.find?_append, h]
  rfl

variable (hlog : Ranked offset log)
include hlog

theorem ranked_since : Ranked offset (since offset first log) :=
  List.Pairwise.sublist List.filter_sublist hlog

/-- What was read up to a position, then what is left from there on. -/
theorem between_append_since (h : first ≤ last) :
    between offset first last log ++ since offset last log = since offset first log := by
  have hbetween : Ranked offset (between offset first last log) :=
    List.Pairwise.sublist List.filter_sublist hlog
  have hall : Ranked offset (between offset first last log ++ since offset last log) := by
    refine List.pairwise_append.2 ⟨hbetween, ranked_since hlog, fun a ha b hb => ?_⟩
    exact (mem_between.1 ha).2.2.trans_le (mem_since.1 hb).2
  refine hall.ext (ranked_since hlog) fun b => ?_
  rw [List.mem_append, mem_between, mem_since, mem_since]
  constructor
  · rintro (⟨hb, hle, -⟩ | ⟨hb, hle⟩)
    · exact ⟨hb, hle⟩
    · exact ⟨hb, h.trans hle⟩
  · rintro ⟨hb, hle⟩
    rcases lt_or_ge (offset b) last with hlt | hge
    · exact .inl ⟨hb, hle, hlt⟩
    · exact .inr ⟨hb, hge⟩

/-- No entry is skipped: what is left is the next entry and what is left after it. -/
theorem since_next (h : next offset position log = some a) :
    since offset position log = a :: since offset (offset a + 1) log := by
  have hle : position ≤ offset a + 1 := by
    have hnext := le_next h
    omega
  have hbetween : between offset position (offset a + 1) log = [a] := by
    have hread : Ranked offset (between offset position (offset a + 1) log) :=
      List.Pairwise.sublist List.filter_sublist hlog
    refine hread.ext (List.pairwise_singleton _ a) fun b => ?_
    rw [mem_between, List.mem_singleton]
    constructor
    · rintro ⟨hb, hposition, hlt⟩
      have hfirst := (ranked_since hlog).head_le (head?_since.trans h)
        (mem_since.2 ⟨hb, hposition⟩)
      exact hlog.eq_of_rank hb (next_mem h) (by omega)
    · rintro rfl
      exact ⟨next_mem h, le_next h, by omega⟩
  rw [← between_append_since hlog hle, hbetween]
  rfl

/-- What has been read grows by the next entry. -/
theorem between_next (hfirst : first ≤ position) (h : next offset position log = some a) :
    between offset first (offset a + 1) log = between offset first position log ++ [a] := by
  have hle : first ≤ offset a + 1 := by
    have hnext := le_next h
    omega
  have hall := between_append_since hlog hle
  rw [← between_append_since hlog hfirst, since_next hlog h, List.append_cons] at hall
  exact List.append_cancel_right hall

end PerpexEngine.OffsetLog
