import PerpexEngine.Core.SideBook
import PerpexEngine.Lib.LinkedQueue
import Mathlib.Tactic.ByContra
import Mathlib.Data.List.Basic

/-! The intrusive links of the orders on the heap, and what joining and leaving a level's
list does to them. Everything but the links is read through `attrOf`. -/
namespace PerpexEngine
open LinkedQueue

def prevOf (orders : Heap Order) (p : OrderPtr) : Option OrderPtr :=
  (orders.read p).bind (·.previousOrder)

def nextOf (orders : Heap Order) (p : OrderPtr) : Option OrderPtr :=
  (orders.read p).bind (·.nextOrder)

/-- The data of an order and the level it points to. -/
def attrOf (orders : Heap Order) (p : OrderPtr) : Option (OrderSnapshot × Option LevelPtr) :=
  (orders.read p).map fun o => (o.toOrderSnapshot, o.priceLevel)

variable {orders : Heap Order} {p q : OrderPtr}

theorem attrOf_eq_some {r : OrderSnapshot} {level : Option LevelPtr} :
    attrOf orders p = some (r, level) ↔
      ∃ o, orders.read p = some o ∧ o.toOrderSnapshot = r ∧ o.priceLevel = level := by
  simp [attrOf, Option.map_eq_some_iff]

theorem prevOf_eq {o : Order} (h : orders.read p = some o) :
    prevOf orders p = o.previousOrder := by rw [prevOf, h, Option.bind_some]

theorem nextOf_eq {o : Order} (h : orders.read p = some o) :
    nextOf orders p = o.nextOrder := by rw [nextOf, h, Option.bind_some]

theorem attrOf_eq {o : Order} (h : orders.read p = some o) :
    attrOf orders p = some (o.toOrderSnapshot, o.priceLevel) := by rw [attrOf, h, Option.map_some]

theorem prevOf_modify (orders : Heap Order) (p q : OrderPtr) (f : Order → Order) :
    prevOf (orders.modify p f) q =
      if q = p then (orders.read p).bind fun o => (f o).previousOrder else prevOf orders q := by
  rw [prevOf, Heap.read_modify]
  split_ifs
  · cases orders.read p <;> rfl
  · rfl

theorem nextOf_modify (orders : Heap Order) (p q : OrderPtr) (f : Order → Order) :
    nextOf (orders.modify p f) q =
      if q = p then (orders.read p).bind fun o => (f o).nextOrder else nextOf orders q := by
  rw [nextOf, Heap.read_modify]
  split_ifs
  · cases orders.read p <;> rfl
  · rfl

theorem attrOf_modify (orders : Heap Order) (p q : OrderPtr) (f : Order → Order) :
    attrOf (orders.modify p f) q =
      if q = p then (orders.read p).map fun o => ((f o).toOrderSnapshot, (f o).priceLevel)
      else attrOf orders q := by
  rw [attrOf, Heap.read_modify]
  split_ifs
  · cases orders.read p <;> rfl
  · rfl

@[simp] theorem prevOf_modify_setNext (v : Option OrderPtr) :
    prevOf (orders.modify p (·.setNext v)) q = prevOf orders q := by
  rw [prevOf_modify]
  split_ifs with h
  · rw [h]
    rfl
  · rfl

@[simp] theorem nextOf_modify_setPrevious (v : Option OrderPtr) :
    nextOf (orders.modify p (·.setPrevious v)) q = nextOf orders q := by
  rw [nextOf_modify]
  split_ifs with h
  · rw [h]
    rfl
  · rfl

@[simp] theorem attrOf_modify_setNext (v : Option OrderPtr) :
    attrOf (orders.modify p (·.setNext v)) q = attrOf orders q := by
  rw [attrOf_modify]
  split_ifs with h
  · rw [h]
    rfl
  · rfl

@[simp] theorem attrOf_modify_setPrevious (v : Option OrderPtr) :
    attrOf (orders.modify p (·.setPrevious v)) q = attrOf orders q := by
  rw [attrOf_modify]
  split_ifs with h
  · rw [h]
    rfl
  · rfl

theorem nextOf_modify_setNext (v : Option OrderPtr) (hp : (orders.read p).isSome) :
    nextOf (orders.modify p (·.setNext v)) q = if q = p then v else nextOf orders q := by
  obtain ⟨o, ho⟩ := Option.isSome_iff_exists.1 hp
  rw [nextOf_modify, ho]
  rfl

theorem prevOf_modify_setPrevious (v : Option OrderPtr) (hp : (orders.read p).isSome) :
    prevOf (orders.modify p (·.setPrevious v)) q = if q = p then v else prevOf orders q := by
  obtain ⟨o, ho⟩ := Option.isSome_iff_exists.1 hp
  rw [prevOf_modify, ho]
  rfl

theorem isSome_read_modify (f : Order → Order) :
    ((orders.modify p f).read q).isSome = (orders.read q).isSome := by
  rw [Heap.read_modify]
  split_ifs with h
  · rw [h, Option.isSome_map]
  · rfl

private theorem ne_getLast?_of_mem_dropLast {xs : List OrderPtr} (hnodup : xs.Nodup)
    (hq : q ∈ xs.dropLast) : some q ≠ xs.getLast? := by
  intro heq
  obtain ⟨ys, rfl⟩ := List.getLast?_eq_some_iff.1 heq.symm
  rw [List.dropLast_concat] at hq
  rw [List.nodup_append] at hnodup
  exact hnodup.2.2 q hq q (by simp) rfl

private theorem ne_head?_of_mem_tail {xs : List OrderPtr} (hnodup : xs.Nodup)
    (hq : q ∈ xs.tail) : some q ≠ xs.head? := by
  intro heq
  obtain ⟨ys, rfl⟩ := List.head?_eq_some_iff.1 heq.symm
  exact (List.nodup_cons.1 hnodup).1 hq

section LinkBack
variable {level : LevelPtr} {tail : Option OrderPtr}

theorem prevOf_linkBack (hp : (orders.read p).isSome) :
    prevOf (linkBack orders level tail p) q = if q = p then tail else prevOf orders q := by
  obtain ⟨o, ho⟩ := Option.isSome_iff_exists.1 hp
  cases tail <;> simp only [linkBack, prevOf_modify_setNext] <;> rw [prevOf_modify, ho] <;> rfl

theorem nextOf_linkBack (hp : (orders.read p).isSome)
    (ht : ∀ t, tail = some t → (orders.read t).isSome) (hpt : tail ≠ some p) :
    nextOf (linkBack orders level tail p) q =
      if q = p then none else if some q = tail then some p else nextOf orders q := by
  obtain ⟨o, ho⟩ := Option.isSome_iff_exists.1 hp
  cases tail with
  | none =>
    rw [linkBack, nextOf_modify, ho]
    simp
  | some t =>
    have htp : t ≠ p := fun h => hpt (by rw [h])
    rw [linkBack, nextOf_modify_setNext _ (by rw [isSome_read_modify]; exact ht t rfl),
      nextOf_modify, ho]
    by_cases hqt : q = t
    · simp [hqt, htp]
    · simp [hqt]

theorem attrOf_linkBack {o : Order} (ho : orders.read p = some o) :
    attrOf (linkBack orders level tail p) q =
      if q = p then some (o.toOrderSnapshot, some level) else attrOf orders q := by
  cases tail <;> simp only [linkBack, attrOf_modify_setNext] <;> rw [attrOf_modify, ho] <;> rfl

/-- The new order is the tail of its queue. -/
theorem linked_linkBack {queue : List OrderPtr} (hp : (orders.read p).isSome)
    (h : Linked (prevOf orders) (nextOf orders) queue) (hnodup : queue.Nodup) (hpq : p ∉ queue)
    (hlive : ∀ q ∈ queue, (orders.read q).isSome) (htail : tail = queue.getLast?) :
    Linked (prevOf (linkBack orders level tail p)) (nextOf (linkBack orders level tail p))
      (queue ++ [p]) := by
  subst htail
  have hne : ∀ q ∈ queue, q ≠ p := fun q hq heq => hpq (heq ▸ hq)
  have hmem : ∀ t, queue.getLast? = some t → t ∈ queue := fun t ht => List.mem_of_getLast? ht
  have hnext : ∀ q, nextOf (linkBack orders level queue.getLast? p) q = if q = p then none else
      if some q = queue.getLast? then some p else nextOf orders q := fun q =>
    nextOf_linkBack hp (fun t ht => hlive t (hmem t ht)) (fun ht => hpq (hmem p ht))
  apply h.pushBack
  · rw [prevOf_linkBack hp, if_pos rfl]
  · rw [hnext, if_pos rfl]
  · intro q hq
    rw [prevOf_linkBack hp, if_neg (hne q hq)]
  · intro q hq
    rw [hnext, if_neg (hne q (List.dropLast_subset _ hq)),
      if_neg (ne_getLast?_of_mem_dropLast hnodup hq)]
  · intro q hq
    rw [hnext, if_neg (hne q (hmem q hq)), if_pos hq.symm]

end LinkBack

section Unlink
variable {o : Order}

theorem attrOf_unlinkOrder (ho : orders.read p = some o) :
    attrOf (unlinkOrder orders p o) q =
      if q = p then some (o.toOrderSnapshot, none) else attrOf orders q := by
  have hdetach : ∀ {orders' : Heap Order}, (∀ r, attrOf orders' r = attrOf orders r) →
      attrOf (orders'.modify p Order.detachLinks) q =
        if q = p then some (o.toOrderSnapshot, none) else attrOf orders q := by
    intro orders' hattr
    have hp := hattr p
    rw [attrOf_eq ho] at hp
    obtain ⟨o', ho', hsnap, -⟩ := attrOf_eq_some.1 hp
    rw [attrOf_modify, ho', hattr, Option.map_some, Order.detachLinks_toOrderSnapshot, hsnap]
    rfl
  rw [unlinkOrder]
  apply hdetach
  intro r
  cases o.nextOrder <;> cases o.previousOrder <;> simp

theorem prevOf_unlinkOrder (hp : (orders.read p).isSome)
    (hn : ∀ n, o.nextOrder = some n → (orders.read n).isSome) :
    prevOf (unlinkOrder orders p o) q = if q = p then none
      else if some q = o.nextOrder then o.previousOrder else prevOf orders q := by
  have hdetach : ∀ orders' : Heap Order, (orders'.read p).isSome →
      prevOf (orders'.modify p Order.detachLinks) q =
        if q = p then none else prevOf orders' q := by
    intro orders' hp'
    obtain ⟨x, hx⟩ := Option.isSome_iff_exists.1 hp'
    rw [prevOf_modify, hx]
    rfl
  rw [unlinkOrder]
  cases hnext : o.nextOrder with
  | none =>
    cases hprev : o.previousOrder <;> simp only <;> rw [hdetach] <;>
      simp [isSome_read_modify, hp]
  | some n =>
    have hlive := hn n hnext
    cases hprev : o.previousOrder <;> simp only <;>
      rw [hdetach _ (by simp only [isSome_read_modify, hp]), prevOf_modify_setPrevious _
        (by simp only [isSome_read_modify, hlive])] <;> simp

theorem nextOf_unlinkOrder (hp : (orders.read p).isSome)
    (hv : ∀ v, o.previousOrder = some v → (orders.read v).isSome) :
    nextOf (unlinkOrder orders p o) q = if q = p then none
      else if some q = o.previousOrder then o.nextOrder else nextOf orders q := by
  have hdetach : ∀ orders' : Heap Order, (orders'.read p).isSome →
      nextOf (orders'.modify p Order.detachLinks) q =
        if q = p then none else nextOf orders' q := by
    intro orders' hp'
    obtain ⟨x, hx⟩ := Option.isSome_iff_exists.1 hp'
    rw [nextOf_modify, hx]
    rfl
  rw [unlinkOrder]
  cases hprev : o.previousOrder with
  | none =>
    cases hnext : o.nextOrder <;> simp only <;> rw [hdetach] <;>
      simp [isSome_read_modify, hp]
  | some v =>
    have hlive := hv v hprev
    cases hnext : o.nextOrder <;> simp only <;>
      rw [hdetach _ (by simp only [isSome_read_modify, hp])] <;>
      simp only [nextOf_modify_setPrevious, nextOf_modify_setNext _ hlive, Option.some.injEq]

/-- The neighbours of a removed order are joined. -/
theorem linked_unlinkOrder {xs ys : List OrderPtr} (ho : orders.read p = some o)
    (h : Linked (prevOf orders) (nextOf orders) (xs ++ p :: ys)) (hnodup : (xs ++ p :: ys).Nodup)
    (hlive : ∀ q ∈ xs ++ p :: ys, (orders.read q).isSome) :
    Linked (prevOf (unlinkOrder orders p o)) (nextOf (unlinkOrder orders p o)) (xs ++ ys) := by
  have hp : (orders.read p).isSome := by rw [ho, Option.isSome_some]
  have hprev : o.previousOrder = xs.getLast? := (prevOf_eq ho).symm.trans h.prev_eq
  have hnext : o.nextOrder = ys.head? := (nextOf_eq ho).symm.trans h.next_eq
  obtain ⟨hxs, hpys, hdisj⟩ := List.nodup_append.1 hnodup
  obtain ⟨hpy, hys⟩ := List.nodup_cons.1 hpys
  have hxp : ∀ x ∈ xs, x ≠ p := fun x hx => hdisj x hx p (by simp)
  have hyp : ∀ y ∈ ys, y ≠ p := fun y hy heq => hpy (heq ▸ hy)
  have hxy : ∀ x ∈ xs, ∀ y ∈ ys, x ≠ y := fun x hx y hy => hdisj x hx y (by simp [hy])
  have hlast : ∀ v, xs.getLast? = some v → v ∈ xs := fun v hv => List.mem_of_getLast? hv
  have hhead : ∀ n, ys.head? = some n → n ∈ ys := fun n hn => List.mem_of_head? hn
  have hprev' : ∀ q, prevOf (unlinkOrder orders p o) q = if q = p then none
      else if some q = ys.head? then xs.getLast? else prevOf orders q := by
    intro q
    rw [← hprev, ← hnext]
    refine prevOf_unlinkOrder hp fun n hn => hlive n ?_
    simp [hhead n (hnext ▸ hn)]
  have hnext' : ∀ q, nextOf (unlinkOrder orders p o) q = if q = p then none
      else if some q = xs.getLast? then ys.head? else nextOf orders q := by
    intro q
    rw [← hprev, ← hnext]
    refine nextOf_unlinkOrder hp fun v hv => hlive v ?_
    simp [hlast v (hprev ▸ hv)]
  apply h.unlink
  · intro x hx
    rw [hprev', if_neg (hxp x hx), if_neg]
    exact fun heq => hxy x hx x (hhead x heq.symm) rfl
  · intro x hx
    rw [hnext', if_neg (hxp x (List.dropLast_subset _ hx)),
      if_neg (ne_getLast?_of_mem_dropLast hxs hx)]
  · intro y hy
    rw [hprev', if_neg (hyp y (List.mem_of_mem_tail hy)), if_neg (ne_head?_of_mem_tail hys hy)]
  · intro y hy
    rw [hnext', if_neg (hyp y hy), if_neg]
    exact fun heq => hxy y (hlast y heq.symm) y hy rfl
  · intro x hx
    rw [hnext', if_neg (hxp x (hlast x hx)), if_pos hx.symm, nextOf_eq ho, hnext]
  · intro y hy
    rw [hprev', if_neg (hyp y (hhead y hy)), if_pos hy.symm, prevOf_eq ho, hprev]

end Unlink
end PerpexEngine
