import Mathlib.Order.Nat
import Mathlib.Tactic.SplitIfs
import Mathlib.Data.Nat.Notation

/-! A free store: cells at natural addresses, allocation at a fresh address. -/
namespace PerpexEngine

/-- No cell at or above `next` is live, so an address is never handed out twice. -/
structure Heap (α : Type*) where
  cells : ℕ → Option α
  next : ℕ
  fresh : ∀ p, next ≤ p → cells p = none

namespace Heap
variable {α : Type*}

def empty : Heap α := ⟨fun _ => none, 0, fun _ _ => rfl⟩

instance : Inhabited (Heap α) := ⟨empty⟩

def read (h : Heap α) (p : ℕ) : Option α := h.cells p

/-- `new`: the cell is at address `h.next`. -/
def alloc (h : Heap α) (a : α) : Heap α where
  cells p := if p = h.next then some a else h.cells p
  next := h.next + 1
  fresh p hp := by
    rw [if_neg (by omega)]
    exact h.fresh p (by omega)

/-- A write through a pointer; a dead address is left dead. -/
def modify (h : Heap α) (p : ℕ) (f : α → α) : Heap α where
  cells q := if q = p then (h.cells p).map f else h.cells q
  next := h.next
  fresh q hq := by
    split_ifs with hqp
    · rw [← hqp, h.fresh q hq]
      rfl
    · exact h.fresh q hq

/-- `delete`. -/
def free (h : Heap α) (p : ℕ) : Heap α where
  cells q := if q = p then none else h.cells q
  next := h.next
  fresh q hq := by
    split_ifs
    · rfl
    · exact h.fresh q hq

@[simp] theorem read_empty (p : ℕ) : (empty : Heap α).read p = none := rfl

theorem read_alloc (h : Heap α) (a : α) (p : ℕ) :
    (h.alloc a).read p = if p = h.next then some a else h.read p := rfl

theorem read_modify (h : Heap α) (p q : ℕ) (f : α → α) :
    (h.modify p f).read q = if q = p then (h.read p).map f else h.read q := rfl

theorem read_free (h : Heap α) (p q : ℕ) :
    (h.free p).read q = if q = p then none else h.read q := rfl

@[simp] theorem next_alloc (h : Heap α) (a : α) : (h.alloc a).next = h.next + 1 := rfl
@[simp] theorem next_modify (h : Heap α) (p : ℕ) (f : α → α) : (h.modify p f).next = h.next := rfl
@[simp] theorem next_free (h : Heap α) (p : ℕ) : (h.free p).next = h.next := rfl

theorem lt_next {h : Heap α} {p : ℕ} {a : α} (hp : h.read p = some a) : p < h.next := by
  by_contra hge
  rw [read, h.fresh p (by omega)] at hp
  cases hp

theorem read_next (h : Heap α) : h.read h.next = none := h.fresh _ (Nat.le_refl _)

@[simp] theorem read_alloc_self (h : Heap α) (a : α) : (h.alloc a).read h.next = some a := by
  rw [read_alloc, if_pos rfl]

theorem read_alloc_of_ne {h : Heap α} {a : α} {p : ℕ} (hp : p ≠ h.next) :
    (h.alloc a).read p = h.read p := by rw [read_alloc, if_neg hp]

theorem read_free_of_ne {h : Heap α} {p q : ℕ} (hq : q ≠ p) : (h.free p).read q = h.read q := by
  rw [read_free, if_neg hq]

theorem read_free_eq_some {h : Heap α} {p q : ℕ} {a : α} :
    (h.free p).read q = some a ↔ q ≠ p ∧ h.read q = some a := by
  rw [read_free]
  split_ifs with hq <;> simp [hq]

@[simp] theorem read_modify_self (h : Heap α) (p : ℕ) (f : α → α) :
    (h.modify p f).read p = (h.read p).map f := by rw [read_modify, if_pos rfl]

theorem read_modify_of_ne {h : Heap α} {p q : ℕ} {f : α → α} (hq : q ≠ p) :
    (h.modify p f).read q = h.read q := by rw [read_modify, if_neg hq]

theorem modify_of_dead {h : Heap α} {p : ℕ} (hp : h.read p = none) (f : α → α) :
    h.modify p f = h := by
  have hc : (h.modify p f).cells = h.cells := by
    funext q
    change (h.modify p f).read q = h.read q
    rw [read_modify]
    split_ifs with hq
    · rw [hq, hp]
      rfl
    · rfl
  cases h
  simpa only [modify, mk.injEq, and_true] using hc

/-- A write that keeps an observation of the cell keeps the observation everywhere. -/
theorem read_modify_map {β : Type*} {f : α → α} {g : α → β} (hfg : ∀ a, g (f a) = g a)
    (h : Heap α) (p q : ℕ) : ((h.modify p f).read q).map g = (h.read q).map g := by
  rw [read_modify]
  split_ifs with hq
  · subst hq
    cases h.read q <;> simp [hfg]
  · rfl

end Heap
end PerpexEngine
