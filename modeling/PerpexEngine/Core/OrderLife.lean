import Mathlib.Data.List.Induction
import PerpexEngine.Core.Depth

/-! The life of one order id in a history of events: accepted once, traded down to nothing or
cancelled, and silent afterwards. -/
namespace PerpexEngine

/-- What the events so far say about an order id. `spent` is an order whose last fill has been
reported and whose `OrderFilled` comes next; a history that fits no life is `broken`. -/
inductive OrderLife where
  | unknown
  | live (original remaining : ℕ)
  | spent (original : ℕ)
  | closed (original filled : ℕ)
  | broken
deriving DecidableEq

namespace OrderLife

def trade (lots : ℕ) : OrderLife → OrderLife
  | live original remaining =>
    if lots < remaining then live original (remaining - lots)
    else if lots = remaining then spent original
    else broken
  | _ => broken

/-- One event in the life of an order id. -/
def step (id : OrderId) (life : OrderLife) : EngineEvent → OrderLife
  | .orderAccepted e =>
    if e.orderId = id then
      match life with
      | unknown => if e.quantity.isZero then broken else live e.quantity.lots e.quantity.lots
      | _ => broken
    else life
  | .tradeExecuted e =>
    if e.makerOrderId = id ∨ e.takerOrderId = id then life.trade e.quantity.lots else life
  | .orderPartial e =>
    if e.orderId = id then
      match life with
      | live _ _ => life
      | _ => broken
    else life
  | .orderFilled e =>
    if e.orderId = id then
      match life with
      | spent original => closed original original
      | _ => broken
    else life
  | .orderCancelled e =>
    if e.orderId = id then
      match life with
      | live original remaining =>
        if e.releasedQuantity.lots = remaining then closed original (original - remaining)
        else broken
      | _ => broken
    else life
  | _ => life

/-- The life of an order id after a history. -/
def after (id : OrderId) (history : List EngineEvent) : OrderLife :=
  history.foldl (step id) unknown

end OrderLife

/-- The lots the trades of a history give an order, as maker or taker. -/
def fillsOf (id : OrderId) (history : List EngineEvent) : ℕ :=
  (history.map fun
    | .tradeExecuted e =>
      if e.makerOrderId = id ∨ e.takerOrderId = id then e.quantity.lots else 0
    | _ => 0).sum

def closes (id : OrderId) : EngineEvent → Bool
  | .orderFilled e => e.orderId = id
  | .orderCancelled e => e.orderId = id
  | _ => false

/-- A fill, a cancel or a report of a fill that names the order. -/
def touches (id : OrderId) : EngineEvent → Bool
  | .tradeExecuted e => e.makerOrderId = id || e.takerOrderId = id
  | .orderPartial e => e.orderId = id
  | .orderFilled e => e.orderId = id
  | .orderCancelled e => e.orderId = id
  | _ => false

def fillReports (id : OrderId) (history : List EngineEvent) : ℕ :=
  history.countP fun
    | .orderFilled e => e.orderId = id
    | _ => false

/-- The account of an order of the given size that a history gives. -/
structure Accounted (id : OrderId) (original : ℕ) (history : List EngineEvent) : Prop where
  fills_le : fillsOf id history ≤ original
  filled_once : fillReports id history = if fillsOf id history = original then 1 else 0
  filled_full : ∀ earlier e, earlier ++ [.orderFilled e] <+: history → e.orderId = id →
    fillsOf id earlier = original
  cancel_rest : ∀ earlier e, earlier ++ [.orderCancelled e] <+: history → e.orderId = id →
    e.releasedQuantity.lots = original - fillsOf id earlier
  silent : ∀ earlier e, earlier ++ [e] <+: history → earlier.any (closes id) = true →
    touches id e = false

section Trace
variable {id : OrderId} {original : ℕ} {history : List EngineEvent} {e : EngineEvent}

theorem fillsOf_append (id : OrderId) (xs ys : List EngineEvent) :
    fillsOf id (xs ++ ys) = fillsOf id xs + fillsOf id ys := by
  simp [fillsOf]

theorem fillReports_append (id : OrderId) (xs ys : List EngineEvent) :
    fillReports id (xs ++ ys) = fillReports id xs + fillReports id ys := List.countP_append

theorem OrderLife.after_append (id : OrderId) (xs ys : List EngineEvent) :
    after id (xs ++ ys) = ys.foldl (step id) (after id xs) := List.foldl_append

namespace OrderLife
variable {life : OrderLife}

/-- The size an accepted order came with. -/
def original? : OrderLife → Option ℕ
  | live original _ => some original
  | spent original => some original
  | closed original _ => some original
  | _ => none

def filled : OrderLife → ℕ
  | live original remaining => original - remaining
  | spent original => original
  | closed _ filled => filled
  | _ => 0

def isClosed : OrderLife → Bool
  | closed _ _ => true
  | _ => false

def reports : OrderLife → ℕ
  | closed original filled => if filled = original then 1 else 0
  | _ => 0

/-- The numbers of a life make sense. -/
def Sound : OrderLife → Prop
  | live original remaining => 0 < remaining ∧ remaining ≤ original
  | closed original filled => filled ≤ original
  | broken => False
  | _ => True

theorem step_broken (id : OrderId) (e : EngineEvent) : step id broken e = broken := by
  cases e <;> simp [step, trade]

theorem foldl_broken (id : OrderId) (history : List EngineEvent) :
    history.foldl (step id) broken = broken := by
  induction history with
  | nil => rfl
  | cons e history ih => rw [List.foldl_cons, step_broken, ih]

theorem step_trade (id : OrderId) (t : TradeExecuted) : step id life (.tradeExecuted t) =
    if t.makerOrderId = id ∨ t.takerOrderId = id then life.trade t.quantity.lots else life := rfl

/-- One event on the numbers of a life. -/
theorem step_numbers (h : life.Sound) (hne : step id life e ≠ broken) :
    (step id life e).Sound ∧ (step id life e).filled = life.filled + fillsOf id [e] ∧
      (step id life e).reports = life.reports + fillReports id [e] ∧
      (step id life e).isClosed = (life.isClosed || closes id e) := by
  cases e with
  | tradeExecuted t =>
    rw [step_trade] at hne ⊢
    simp only [fillsOf, fillReports, closes, List.map_cons, List.map_nil, List.sum_cons,
      List.sum_nil]
    cases life <;> simp only [trade] at hne ⊢ <;> grind [Sound, filled, reports, isClosed]
  | _ =>
    cases life <;> grind [step, Sound, filled, reports, isClosed, fillsOf, fillReports, closes,
      Quantity.isZero_iff]

theorem step_original (hne : step id life e ≠ broken) (h : life.original? = some original) :
    (step id life e).original? = some original := by
  cases e with
  | tradeExecuted t =>
    rw [step_trade] at hne ⊢
    cases life <;> simp only [trade] at hne ⊢ <;> grind [original?]
  | _ => cases life <;> grind [step, original?]

theorem step_accepted {a : OrderAccepted} (hne : step id life (.orderAccepted a) ≠ broken)
    (ha : a.orderId = id) :
    (step id life (.orderAccepted a)).original? = some a.quantity.lots := by
  cases life <;> grind [step, original?]

theorem foldl_original (events : List EngineEvent) (hne : events.foldl (step id) life ≠ broken)
    (h : life.original? = some original) :
    (events.foldl (step id) life).original? = some original := by
  induction events generalizing life with
  | nil => exact h
  | cons e events ih =>
    rw [List.foldl_cons] at hne ⊢
    refine ih hne (step_original (fun hb => hne ?_) h)
    rw [hb, foldl_broken]

theorem after_prefix_ne {earlier : List EngineEvent} (h : earlier <+: history)
    (hne : after id history ≠ broken) : after id earlier ≠ broken := by
  obtain ⟨later, rfl⟩ := h
  intro hb
  rw [after_append, hb, foldl_broken] at hne
  exact hne rfl

theorem after_concat (id : OrderId) (history : List EngineEvent) (e : EngineEvent) :
    after id (history ++ [e]) = step id (after id history) e := by
  rw [after_append]
  rfl

/-- A life that is not broken tells the numbers of its history. -/
theorem after_numbers (hne : after id history ≠ broken) :
    (after id history).Sound ∧ (after id history).filled = fillsOf id history ∧
      (after id history).reports = fillReports id history ∧
      (after id history).isClosed = history.any (closes id) := by
  induction history using List.reverseRecOn with
  | nil => exact ⟨trivial, rfl, rfl, rfl⟩
  | append_singleton history e ih =>
    obtain ⟨hsound, hfilled, hreports, hclosed⟩ := ih (after_prefix_ne (List.prefix_append _ _) hne)
    rw [after_concat] at hne ⊢
    obtain ⟨hsound', hfilled', hreports', hclosed'⟩ := step_numbers hsound hne
    refine ⟨hsound', ?_, ?_, ?_⟩
    · rw [hfilled', hfilled, fillsOf_append]
    · rw [hreports', hreports, fillReports_append]
    · rw [hclosed', hclosed, List.any_append, List.any_cons, List.any_nil, Bool.or_false]

theorem after_accepted (hne : after id history ≠ broken) {a : OrderAccepted}
    (ha : .orderAccepted a ∈ history) (hid : a.orderId = id) :
    (after id history).original? = some a.quantity.lots := by
  obtain ⟨earlier, later, rfl⟩ := List.append_of_mem ha
  have hne' : after id (earlier ++ [.orderAccepted a]) ≠ broken :=
    after_prefix_ne ⟨later, by simp⟩ hne
  rw [after_append, List.foldl_cons] at hne ⊢
  rw [after_concat] at hne'
  exact foldl_original later hne (step_accepted hne' hid)

theorem after_prefix_original {earlier : List EngineEvent} (h : earlier <+: history)
    (hne : after id history ≠ broken) (ho : (after id earlier).original? = some original) :
    (after id history).original? = some original := by
  obtain ⟨later, rfl⟩ := h
  rw [after_append] at hne ⊢
  exact foldl_original later hne ho

/-- Between two commands no fill report is due, and the account is right. -/
theorem accounted (hne : after id history ≠ broken) (hspent : ∀ o, after id history ≠ spent o)
    {a : OrderAccepted} (ha : .orderAccepted a ∈ history) (hid : a.orderId = id) :
    Accounted id a.quantity.lots history := by
  have horiginal := after_accepted hne ha hid
  obtain ⟨hsound, hfilled, hreports, -⟩ := after_numbers hne
  have hevent : ∀ earlier e, earlier ++ [e] <+: history → after id earlier ≠ broken ∧
      step id (after id earlier) e ≠ broken := by
    intro earlier e hp
    have hstep := after_prefix_ne hp hne
    rw [after_concat] at hstep
    exact ⟨after_prefix_ne ((List.prefix_append _ _).trans hp) hne, hstep⟩
  refine ⟨?_, ?_, fun earlier e hp he => ?_, fun earlier e hp he => ?_, fun earlier e hp hc => ?_⟩
  · rw [← hfilled]
    cases hlife : after id history <;> rw [hlife] at horiginal hsound <;>
      grind [original?, Sound, filled]
  · rw [← hfilled, ← hreports]
    cases hlife : after id history <;> rw [hlife] at horiginal hsound <;>
      grind [original?, Sound, filled, reports]
  · obtain ⟨hbefore, hstep⟩ := hevent _ _ hp
    obtain ⟨-, hfilled', -, -⟩ := after_numbers hbefore
    have hsame : ∀ o, (after id earlier).original? = some o →
        (after id history).original? = some o := fun o =>
      after_prefix_original ((List.prefix_append earlier [_]).trans hp) hne
    rw [← hfilled']
    cases hlife : after id earlier <;> rw [hlife] at hstep hsame <;>
      grind [step, original?, filled]
  · obtain ⟨hbefore, hstep⟩ := hevent _ _ hp
    obtain ⟨hsound', hfilled', -, -⟩ := after_numbers hbefore
    have hsame : ∀ o, (after id earlier).original? = some o →
        (after id history).original? = some o := fun o =>
      after_prefix_original ((List.prefix_append earlier [_]).trans hp) hne
    rw [← hfilled']
    cases hlife : after id earlier <;> rw [hlife] at hstep hsame hsound' <;>
      grind [step, original?, filled, Sound]
  · obtain ⟨hbefore, hstep⟩ := hevent _ _ hp
    obtain ⟨-, -, -, hclosed⟩ := after_numbers hbefore
    rw [← hclosed] at hc
    cases hlife : after id earlier <;> rw [hlife] at hstep hc <;>
      cases e <;> grind [step, trade, touches, isClosed]

end OrderLife

end Trace
end PerpexEngine
