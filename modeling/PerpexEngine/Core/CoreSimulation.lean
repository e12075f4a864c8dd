import PerpexEngine.Core.EngineCore

/-! Two cores that differ only in their books give the same events when the books do. -/
namespace PerpexEngine

/-- The results of one command on two books: same events, same counters, related books. -/
def SameResult {A B : Type} (R : A → B → Prop)
    (r : List EngineEvent × A × SequenceGenerator) (r' : List EngineEvent × B × SequenceGenerator) :
    Prop := r.1 = r'.1 ∧ R r.2.1 r'.2.1 ∧ r.2.2 = r'.2.2

/-- `R` is kept by every command whose outcome on the second book satisfies `Good`. -/
structure Simulation {A B : Type} [MatchingBook A] [MatchingBook B] (R : A → B → Prop)
    (Good : B → Prop) : Prop where
  new : ∀ config, R (MatchingBook.new config) (MatchingBook.new config)
  place : ∀ {a b} command g, R a b → Good (MatchingBook.processPlace b command g).2.1 →
    SameResult R (MatchingBook.processPlace a command g) (MatchingBook.processPlace b command g)
  cancel : ∀ {a b} command g, R a b → Good (MatchingBook.processCancel b command g).2.1 →
    SameResult R (MatchingBook.processCancel a command g) (MatchingBook.processCancel b command g)

variable {A B : Type} {R : A → B → Prop} {Good : B → Prop}

/-- The cores agree outside their books, and their books are related symbol by symbol. -/
structure CoreRel (R : A → B → Prop) (core : EngineCore A) (core' : EngineCore B) : Prop where
  books : ∀ id : SymbolId, Option.Rel R core.orderBooks[id]? core'.orderBooks[id]?
  symbolConfigs : core.symbolConfigs = core'.symbolConfigs
  sequenceGenerator : core.sequenceGenerator = core'.sequenceGenerator
  idempotencyIndex : core.idempotencyIndex = core'.idempotencyIndex

/-- Every book of the core satisfies a predicate. -/
def EngineCore.AllBooks (Good : B → Prop) (core : EngineCore B) : Prop :=
  ∀ (id : SymbolId) b, core.orderBooks[id]? = some b → Good b

theorem rel_insert {m : Std.ExtTreeMap SymbolId A} {m' : Std.ExtTreeMap SymbolId B}
    (h : ∀ id : SymbolId, Option.Rel R m[id]? m'[id]?) {a : A} {b : B} (hab : R a b)
    (key id : SymbolId) : Option.Rel R (m.insert key a)[id]? (m'.insert key b)[id]? := by
  rw [Std.ExtTreeMap.getElem?_insert, Std.ExtTreeMap.getElem?_insert]
  split_ifs
  · exact .some hab
  · exact h id

variable {core : EngineCore A} {core' : EngineCore B}

namespace CoreRel

theorem empty : CoreRel R (EngineCore.empty : EngineCore A) EngineCore.empty where
  books id := by
    simp only [EngineCore.empty, Std.ExtTreeMap.getElem?_empty]
    exact .none
  symbolConfigs := rfl
  sequenceGenerator := rfl
  idempotencyIndex := rfl

theorem reject (h : CoreRel R core core') (commandId : CommandId) (orderId : OrderId)
    (userId : UserId) (symbolId : SymbolId) (reason : RejectReason) (record : Bool) :
    (core.reject commandId orderId userId symbolId reason record).1 =
        (core'.reject commandId orderId userId symbolId reason record).1 ∧
      CoreRel R (core.reject commandId orderId userId symbolId reason record).2
        (core'.reject commandId orderId userId symbolId reason record).2 := by
  simp only [EngineCore.reject, h.sequenceGenerator, h.idempotencyIndex]
  exact ⟨trivial, h.books, h.symbolConfigs, rfl, rfl⟩

theorem finish (h : CoreRel R core core') (symbolId : SymbolId) (commandId : CommandId)
    (orderId : OrderId) (accepted : Bool) (index : IdempotencyIndex)
    {r : List EngineEvent × A × SequenceGenerator} {r' : List EngineEvent × B × SequenceGenerator}
    (hr : SameResult R r r') :
    (core.finish symbolId commandId orderId accepted index r).1 =
        (core'.finish symbolId commandId orderId accepted index r').1 ∧
      CoreRel R (core.finish symbolId commandId orderId accepted index r).2
        (core'.finish symbolId commandId orderId accepted index r').2 := by
  obtain ⟨events, a, g⟩ := r
  obtain ⟨events', b, g'⟩ := r'
  obtain ⟨rfl, hab, rfl⟩ := hr
  exact ⟨rfl, rel_insert h.books hab symbolId, h.symbolConfigs, rfl, rfl⟩

variable [MatchingBook A] [MatchingBook B]

theorem addSymbol (hs : Simulation R Good) (h : CoreRel R core core') (config : SymbolConfig) :
    CoreRel R (core.addSymbol config) (core'.addSymbol config) where
  books := rel_insert h.books (hs.new config) config.symbolId
  symbolConfigs := by rw [EngineCore.addSymbol, h.symbolConfigs]; rfl
  sequenceGenerator := h.sequenceGenerator
  idempotencyIndex := h.idempotencyIndex

theorem processPlaceOrder (hs : Simulation R Good) (h : CoreRel R core core')
    (place : PlaceOrderCommand) (hgood : (core'.processPlaceOrder place).2.AllBooks Good) :
    (core.processPlaceOrder place).1 = (core'.processPlaceOrder place).1 ∧
      CoreRel R (core.processPlaceOrder place).2 (core'.processPlaceOrder place).2 := by
  have hbook := h.books place.symbolId
  simp only [EngineCore.processPlaceOrder, h.idempotencyIndex, h.symbolConfigs] at hgood ⊢
  split_ifs at hgood ⊢ with hdup
  · exact h.reject _ _ _ _ _ _
  · cases hconfig : core'.symbolConfigs[place.symbolId]? with
    | none => exact h.reject _ _ _ _ _ _
    | some config =>
      rw [hconfig] at hgood
      generalize core.orderBooks[place.symbolId]? = mine at hbook ⊢
      generalize core'.orderBooks[place.symbolId]? = theirs at hbook hgood ⊢
      cases hbook with
      | none => exact h.reject _ _ _ _ _ _
      | some hab =>
        cases hvalid : validatePlaceOrder place config core'.idempotencyIndex with
        | some reason =>
          simp only [hvalid]
          exact h.reject _ _ _ _ _ _
        | none =>
          simp only [hvalid] at hgood ⊢
          have hresult := hs.place place core'.sequenceGenerator hab
            (hgood place.symbolId _ (by
              simp only [EngineCore.finish, Std.ExtTreeMap.getElem?_insert_self]))
          rw [h.sequenceGenerator, hresult.1]
          exact h.finish _ _ _ _ _ hresult

theorem processCancelOrder (hs : Simulation R Good) (h : CoreRel R core core')
    (cancel : CancelOrderCommand) (hgood : (core'.processCancelOrder cancel).2.AllBooks Good) :
    (core.processCancelOrder cancel).1 = (core'.processCancelOrder cancel).1 ∧
      CoreRel R (core.processCancelOrder cancel).2 (core'.processCancelOrder cancel).2 := by
  have hbook := h.books cancel.symbolId
  simp only [EngineCore.processCancelOrder, h.idempotencyIndex, h.symbolConfigs,
    validateCancelOrder] at hgood ⊢
  split_ifs at hgood ⊢ with hdup
  · exact h.reject _ _ _ _ _ _
  · cases hconfig : core'.symbolConfigs[cancel.symbolId]? with
    | none => exact h.reject _ _ _ _ _ _
    | some config =>
      rw [hconfig] at hgood
      generalize core.orderBooks[cancel.symbolId]? = mine at hbook ⊢
      generalize core'.orderBooks[cancel.symbolId]? = theirs at hbook hgood ⊢
      cases hbook with
      | none => exact h.reject _ _ _ _ _ _
      | some hab =>
        have hresult := hs.cancel cancel core'.sequenceGenerator hab
          (hgood cancel.symbolId _ (by
            simp only [EngineCore.finish, Std.ExtTreeMap.getElem?_insert_self]))
        simp only [h.sequenceGenerator, hresult.1]
        exact h.finish _ _ _ _ _ hresult

/-- One command on both cores. -/
theorem process (hs : Simulation R Good) (h : CoreRel R core core') (command : EngineCommand)
    (hgood : (core'.process command).2.AllBooks Good) :
    (core.process command).1 = (core'.process command).1 ∧
      CoreRel R (core.process command).2 (core'.process command).2 := by
  cases command with
  | placeOrder place => exact h.processPlaceOrder hs place hgood
  | cancelOrder cancel => exact h.processCancelOrder hs cancel hgood
  | malformed =>
    simp only [EngineCore.process, h.sequenceGenerator]
    exact ⟨trivial, h.books, h.symbolConfigs, rfl, h.idempotencyIndex⟩

/-- A run of commands on both cores, as long as the second one stays good. -/
theorem run (hs : Simulation R Good) (h : CoreRel R core core') (commands : List EngineCommand)
    (hgood : ∀ n, (core'.run (commands.take n)).2.AllBooks Good) :
    (core.run commands).1 = (core'.run commands).1 ∧
      CoreRel R (core.run commands).2 (core'.run commands).2 := by
  induction commands generalizing core core' with
  | nil => exact ⟨rfl, h⟩
  | cons command commands ih =>
    obtain ⟨hevents, hrel⟩ := h.process hs command (hgood 1)
    obtain ⟨hrest, hend⟩ := ih hrel fun n => hgood (n + 1)
    simp only [EngineCore.run]
    exact ⟨by rw [hevents, hrest], hend⟩

end CoreRel

/-- What a placed order records in the index once its book has handled it. -/
def EngineCore.placeIndex (core : EngineCore B) (place : PlaceOrderCommand)
    (events : List EngineEvent) : IdempotencyIndex :=
  if hasEventOrderAccepted events
  then core.idempotencyIndex.recordOrder place.orderId place.clientOrderId
  else core.idempotencyIndex

/-- Everything placing an order can do to the core, in full. -/
theorem EngineCore.processPlaceOrder_outcome [MatchingBook B] (core : EngineCore B)
    (place : PlaceOrderCommand) :
    (∃ reason record, core.processPlaceOrder place = core.reject place.commandId place.orderId
      place.userId place.symbolId reason record) ∨
    ∃ config book, core.symbolConfigs[place.symbolId]? = some config ∧
      core.orderBooks[place.symbolId]? = some book ∧
      validatePlaceOrder place config core.idempotencyIndex = none ∧
      core.processPlaceOrder place = core.finish place.symbolId place.commandId place.orderId
        (hasEventOrderAccepted (MatchingBook.processPlace book place core.sequenceGenerator).1)
        (core.placeIndex place (MatchingBook.processPlace book place core.sequenceGenerator).1)
        (MatchingBook.processPlace book place core.sequenceGenerator) := by
  rw [EngineCore.processPlaceOrder]
  dsimp only
  split
  · exact Or.inl ⟨_, _, rfl⟩
  · split
    · rename_i config book hconfig hbook
      split
      · exact Or.inl ⟨_, _, rfl⟩
      · rename_i hvalid
        exact Or.inr ⟨config, book, hconfig, hbook, hvalid, rfl⟩
    · exact Or.inl ⟨_, _, rfl⟩

/-- Everything placing an order can do to the core. -/
theorem EngineCore.processPlaceOrder_cases [MatchingBook B] (core : EngineCore B)
    (place : PlaceOrderCommand) :
    (∃ reason record, core.processPlaceOrder place = core.reject place.commandId place.orderId
      place.userId place.symbolId reason record) ∨
    ∃ config book accepted index, core.symbolConfigs[place.symbolId]? = some config ∧
      core.orderBooks[place.symbolId]? = some book ∧
      validatePlaceOrder place config core.idempotencyIndex = none ∧
      core.processPlaceOrder place = core.finish place.symbolId place.commandId place.orderId
        accepted index (MatchingBook.processPlace book place core.sequenceGenerator) := by
  rcases core.processPlaceOrder_outcome place with h | ⟨config, book, hc, hb, hv, heq⟩
  · exact Or.inl h
  · exact Or.inr ⟨config, book, _, _, hc, hb, hv, heq⟩

/-- Everything cancelling an order can do to the core. -/
theorem EngineCore.processCancelOrder_cases [MatchingBook B] (core : EngineCore B)
    (cancel : CancelOrderCommand) :
    (∃ reason record, core.processCancelOrder cancel = core.reject cancel.commandId
      cancel.orderId cancel.userId cancel.symbolId reason record) ∨
    ∃ config book accepted, core.symbolConfigs[cancel.symbolId]? = some config ∧
      core.orderBooks[cancel.symbolId]? = some book ∧
      core.processCancelOrder cancel = core.finish cancel.symbolId cancel.commandId cancel.orderId
        accepted core.idempotencyIndex (MatchingBook.processCancel book cancel core.sequenceGenerator) := by
  rw [EngineCore.processCancelOrder]
  dsimp only
  split
  · exact Or.inl ⟨_, _, rfl⟩
  · split
    · rename_i config book hconfig hbook
      split
      · exact Or.inl ⟨_, _, rfl⟩
      · exact Or.inr ⟨config, book, _, hconfig, hbook, rfl⟩
    · exact Or.inl ⟨_, _, rfl⟩

/-- What every command with a good outcome keeps of the book it runs on, whatever other books do
meanwhile. -/
structure BookInvariant [MatchingBook B] (Inv : SequenceGenerator → B → Prop)
    (Good : B → Prop) : Prop where
  new : ∀ g config, Inv g (MatchingBook.new config)
  nextEvent : ∀ {g b}, Inv g b → Inv g.nextEvent b
  place : ∀ {g b} command, Inv g b → Good (MatchingBook.processPlace b command g).2.1 →
    Inv (MatchingBook.processPlace b command g).2.2 (MatchingBook.processPlace b command g).2.1 ∧
      ∀ a, Inv g a → Inv (MatchingBook.processPlace b command g).2.2 a
  cancel : ∀ {g b} command, Inv g b → Good (MatchingBook.processCancel b command g).2.1 →
    Inv (MatchingBook.processCancel b command g).2.2 (MatchingBook.processCancel b command g).2.1 ∧
      ∀ a, Inv g a → Inv (MatchingBook.processCancel b command g).2.2 a

namespace BookInvariant
variable {Inv : SequenceGenerator → B → Prop} {core : EngineCore B}

theorem empty (Inv : SequenceGenerator → B → Prop) :
    (EngineCore.empty : EngineCore B).AllBooks (Inv .new) := by
  intro id b hb
  simp [EngineCore.empty] at hb

theorem insert {g : SequenceGenerator} {books : Std.ExtTreeMap SymbolId B}
    (h : ∀ (id : SymbolId) b, books[id]? = some b → Inv g b) {key : SymbolId} {a : B}
    (ha : Inv g a) (id : SymbolId) (b : B) (hb : (books.insert key a)[id]? = some b) : Inv g b := by
  rw [Std.ExtTreeMap.getElem?_insert] at hb
  split_ifs at hb
  · exact Option.some.inj hb ▸ ha
  · exact h id b hb

variable [MatchingBook B]

theorem addSymbol (hi : BookInvariant Inv Good) (h : core.AllBooks (Inv core.sequenceGenerator))
    (config : SymbolConfig) :
    (core.addSymbol config).AllBooks (Inv (core.addSymbol config).sequenceGenerator) :=
  insert h (hi.new core.sequenceGenerator config)

theorem reject (hi : BookInvariant Inv Good) (h : core.AllBooks (Inv core.sequenceGenerator))
    (commandId : CommandId) (orderId : OrderId) (userId : UserId) (symbolId : SymbolId)
    (reason : RejectReason) (record : Bool) :
    (core.reject commandId orderId userId symbolId reason record).2.AllBooks
      (Inv (core.reject commandId orderId userId symbolId reason record).2.sequenceGenerator) :=
  fun id b hb => hi.nextEvent (h id b hb)

omit [MatchingBook B] in
theorem finish (h : core.AllBooks (Inv core.sequenceGenerator))
    (symbolId : SymbolId) (commandId : CommandId) (orderId : OrderId) (accepted : Bool)
    (index : IdempotencyIndex) {r : List EngineEvent × B × SequenceGenerator}
    (hr : Inv r.2.2 r.2.1 ∧ ∀ a, Inv core.sequenceGenerator a → Inv r.2.2 a) :
    (core.finish symbolId commandId orderId accepted index r).2.AllBooks
      (Inv (core.finish symbolId commandId orderId accepted index r).2.sequenceGenerator) :=
  insert (fun id b hb => hr.2 b (h id b hb)) hr.1

theorem process (hi : BookInvariant Inv Good) (h : core.AllBooks (Inv core.sequenceGenerator))
    (command : EngineCommand) (hgood : (core.process command).2.AllBooks Good) :
    (core.process command).2.AllBooks (Inv (core.process command).2.sequenceGenerator) := by
  cases command with
  | malformed => exact fun id b hb => hi.nextEvent (h id b hb)
  | placeOrder place =>
    simp only [EngineCore.process] at hgood ⊢
    rcases core.processPlaceOrder_cases place with ⟨reason, record, heq⟩ |
      ⟨config, book, accepted, index, -, hbook, -, heq⟩
    · rw [heq]
      exact hi.reject h _ _ _ _ _ _
    · rw [heq] at hgood ⊢
      refine finish h _ _ _ _ _ (hi.place place (h _ _ hbook) (hgood place.symbolId _ ?_))
      simp only [EngineCore.finish, Std.ExtTreeMap.getElem?_insert_self]
  | cancelOrder cancel =>
    simp only [EngineCore.process] at hgood ⊢
    rcases core.processCancelOrder_cases cancel with ⟨reason, record, heq⟩ |
      ⟨config, book, accepted, -, hbook, heq⟩
    · rw [heq]
      exact hi.reject h _ _ _ _ _ _
    · rw [heq] at hgood ⊢
      refine finish h _ _ _ _ _ (hi.cancel cancel (h _ _ hbook) (hgood cancel.symbolId _ ?_))
      simp only [EngineCore.finish, Std.ExtTreeMap.getElem?_insert_self]

theorem run (hi : BookInvariant Inv Good) (h : core.AllBooks (Inv core.sequenceGenerator))
    (commands : List EngineCommand) (hgood : ∀ n, (core.run (commands.take n)).2.AllBooks Good) :
    (core.run commands).2.AllBooks (Inv (core.run commands).2.sequenceGenerator) := by
  induction commands generalizing core with
  | nil => exact h
  | cons command commands ih => exact ih (hi.process h command (hgood 1)) fun n => hgood (n + 1)

end BookInvariant
end PerpexEngine
