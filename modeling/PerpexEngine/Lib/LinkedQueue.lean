import Mathlib.Data.List.Nodup

/-! Intrusive doubly linked lists: the `prev` and `next` fields of the nodes,
read as functions of the address, agree with a list of addresses. -/
namespace PerpexEngine.LinkedQueue
variable {α : Type*} {prev next prev' next' : α → Option α}

/-- The nodes `xs` are chained, entered from `p` on the left and left to `n` on the right. -/
def Seg (prev next : α → Option α) : Option α → List α → Option α → Prop
  | _, [], _ => True
  | p, x :: xs, n => prev x = p ∧ next x = xs.head?.or n ∧ Seg prev next (some x) xs n

/-- A whole queue: null to the left of its head and to the right of its tail. -/
abbrev Linked (prev next : α → Option α) (xs : List α) : Prop := Seg prev next none xs none

@[simp] theorem seg_nil (p n : Option α) : Seg prev next p [] n := trivial

theorem seg_cons {p n : Option α} {x : α} {xs : List α} :
    Seg prev next p (x :: xs) n ↔
      prev x = p ∧ next x = xs.head?.or n ∧ Seg prev next (some x) xs n := Iff.rfl

theorem seg_append {p n : Option α} {xs ys : List α} :
    Seg prev next p (xs ++ ys) n ↔
      Seg prev next p xs (ys.head?.or n) ∧ Seg prev next (xs.getLast?.or p) ys n := by
  induction xs generalizing p with
  | nil => simp
  | cons x xs ih =>
    have hhead : (xs ++ ys).head?.or n = xs.head?.or (ys.head?.or n) := by
      cases xs <;> simp
    have hlast : (x :: xs).getLast?.or p = xs.getLast?.or (some x) := by
      rw [List.getLast?_cons]
      cases xs.getLast? <;> rfl
    rw [List.cons_append, seg_cons, seg_cons, ih, hhead, hlast]
    tauto

/-- Only the fields of the nodes themselves matter. -/
theorem Seg.congr {p n : Option α} {xs : List α} (h : Seg prev next p xs n)
    (hp : ∀ x ∈ xs, prev' x = prev x) (hn : ∀ x ∈ xs, next' x = next x) :
    Seg prev' next' p xs n := by
  induction xs generalizing p with
  | nil => trivial
  | cons x xs ih =>
    obtain ⟨h1, h2, h3⟩ := h
    refine ⟨(hp x (by simp)).trans h1, (hn x (by simp)).trans h2, ?_⟩
    exact ih h3 (fun y hy => hp y (by simp [hy])) (fun y hy => hn y (by simp [hy]))

/-- Redirecting the `next` field of the last node moves the right boundary. -/
theorem Seg.setRight {p n m : Option α} {xs : List α} (h : Seg prev next p xs n)
    (hp : ∀ x ∈ xs, prev' x = prev x)
    (hn : ∀ x ∈ xs.dropLast, next' x = next x)
    (hlast : ∀ x, xs.getLast? = some x → next' x = m) : Seg prev' next' p xs m := by
  rcases List.eq_nil_or_concat xs with rfl | ⟨ys, y, rfl⟩
  · trivial
  · rw [List.concat_eq_append] at *
    rw [List.dropLast_concat] at hn
    rw [seg_append] at h ⊢
    obtain ⟨hys, hy⟩ := h
    refine ⟨hys.congr (fun x hx => hp x (by simp [hx])) hn, ?_, ?_, trivial⟩
    · rw [hp y (by simp), hy.1]
    · rw [hlast y (by simp)]
      rfl

/-- Redirecting the `prev` field of the first node moves the left boundary. -/
theorem Seg.setLeft {p q n : Option α} {xs : List α} (h : Seg prev next p xs n)
    (hp : ∀ x ∈ xs.tail, prev' x = prev x) (hn : ∀ x ∈ xs, next' x = next x)
    (hfirst : ∀ x, xs.head? = some x → prev' x = q) : Seg prev' next' q xs n := by
  cases xs with
  | nil => trivial
  | cons x xs =>
    obtain ⟨-, h2, h3⟩ := h
    refine ⟨hfirst x rfl, (hn x (by simp)).trans h2, ?_⟩
    exact h3.congr hp (fun y hy => hn y (by simp [hy]))

/-- Appending a node whose `prev` is the old tail. -/
theorem Linked.pushBack {xs : List α} {p : α} (h : Linked prev next xs)
    (hprev : prev' p = xs.getLast?) (hnext : next' p = none)
    (hp : ∀ x ∈ xs, prev' x = prev x) (hn : ∀ x ∈ xs.dropLast, next' x = next x)
    (hlast : ∀ x, xs.getLast? = some x → next' x = some p) : Linked prev' next' (xs ++ [p]) := by
  rw [Linked, seg_append]
  refine ⟨?_, ?_, ?_, trivial⟩
  · exact Seg.setRight h hp hn (fun x hx => by simpa using hlast x hx)
  · simpa using hprev
  · simpa using hnext

theorem Linked.prev_eq {xs ys : List α} {p : α} (h : Linked prev next (xs ++ p :: ys)) :
    prev p = xs.getLast? := by
  have hp := (seg_append.1 h).2.1
  simpa using hp

theorem Linked.next_eq {xs ys : List α} {p : α} (h : Linked prev next (xs ++ p :: ys)) :
    next p = ys.head? := by
  have hp := (seg_append.1 h).2.2.1
  simpa using hp

/-- Bridging the neighbours of a node takes it out of the queue. -/
theorem Linked.unlink {xs ys : List α} {p : α} (h : Linked prev next (xs ++ p :: ys))
    (hpx : ∀ x ∈ xs, prev' x = prev x) (hnx : ∀ x ∈ xs.dropLast, next' x = next x)
    (hpy : ∀ y ∈ ys.tail, prev' y = prev y) (hny : ∀ y ∈ ys, next' y = next y)
    (hlast : ∀ x, xs.getLast? = some x → next' x = next p)
    (hfirst : ∀ y, ys.head? = some y → prev' y = prev p) : Linked prev' next' (xs ++ ys) := by
  have hprev := h.prev_eq
  have hnext := h.next_eq
  obtain ⟨hxs, -, -, hys⟩ := seg_append.1 h
  rw [Linked, seg_append]
  constructor
  · exact hxs.setRight hpx hnx (fun x hx => by simpa [hnext] using hlast x hx)
  · exact hys.setLeft hpy hny (fun y hy => by simpa [hprev] using hfirst y hy)

/-- A queue is determined by its head and the `next` fields. -/
theorem Seg.unique {p q : Option α} {xs ys : List α} (hx : Seg prev next p xs none)
    (hy : Seg prev next q ys none) (hhead : xs.head? = ys.head?) : xs = ys := by
  induction xs generalizing p q ys with
  | nil =>
    cases ys with
    | nil => rfl
    | cons y ys => cases hhead
  | cons x xs ih =>
    cases ys with
    | nil => cases hhead
    | cons y ys =>
      obtain rfl : x = y := Option.some.inj hhead
      obtain ⟨-, hxn, hxs⟩ := hx
      obtain ⟨-, hyn, hys⟩ := hy
      rw [hxn, Option.or_none, Option.or_none] at hyn
      rw [ih hxs hys hyn]

end PerpexEngine.LinkedQueue
