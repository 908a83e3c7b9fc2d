import TomlSemantics.Proofs.Actions

/-!
# Reading a value

The events of a value lie between those of its key and the end of its pair or element. Run on a
state that has a node for the key, they do what `Value.assemble` says, whatever the value holds.

1. `View.Ready`: nothing waits, nothing is held and no key is being read.
2. `scalar_mirrors`, `array_mirrors` and `inlineTable_mirrors`: one constructor of values each.
3. `value_mirrors`: values of every depth, by induction.
-/

namespace TomlSemantics

/-- Nothing waits, nothing is held and no key is being read: a value may come. -/
structure View.Ready (v : View) : Prop where
  comments : v.comments = {}
  draft : v.draft = none
  held : v.held = none
  tableHeader : v.tableHeader = false
  keyTakesComments : v.keyTakesComments = true

namespace ArrayDraft

/-- The array once its next element is open. -/
def opened (a : ArrayDraft) : ArrayDraft :=
  { a with array := a.noted, next := a.next + 1, comments := {} }

theorem next_settle (a : ArrayDraft) : a.settle.next = a.next := by
  unfold settle
  split <;> rfl

/-- The view inside of an array whose items are being read. -/
def view (a : ArrayDraft) (v : View) (previous : Option Node) : View :=
  { v.onSheet a.sheet with
    stack := .fresh a.array :: v.stack
    previous
    arrays := ⟨a.next, false⟩ :: v.arrays
    comments := a.comments }

end ArrayDraft

/-- An element may hold a value, wherever its array may stand. -/
theorem View.Ready.element {v : View} (ready : v.Ready) (a : ArrayDraft) (previous : Option Node) :
    (a.opened.view v previous).Ready :=
  { ready with comments := rfl }

namespace Builder

variable {s : State} {v : View} {own : Key} {stack : List Node} {o : Options} {line : Nat}

/-! ## Scalars -/

theorem holdValue_mirrors (h : s.Shows v) (scalar : Scalar) :
    Mirrors (holdValue scalar) s scalar.checkValue fun _ s' =>
      s'.Shows { v with held := some scalar } := by
  unfold Mirrors
  simp only [holdValue, setLocation, EStateM.run_bind, EStateM.run_modify]
  cases scalar.checkValue with
  | error cause => exact ⟨_, rfl⟩
  | ok _ => exact ⟨_, rfl, { h with held := rfl }⟩

theorem storeValue_mirrors (h : s.Shows v) (hv : v.stack = .fresh own :: stack) (scalar : Scalar) :
    Mirrors (storeValue scalar) s (storedForm scalar) fun form s' => s'.Shows { v with
      stack := .recorded (own.store form.2 form.1 scalar.spelling) :: stack
      keys := v.keys.append (own.store form.2 form.1 scalar.spelling) } := by
  unfold Mirrors
  simp only [storeValue, EStateM.run_bind]
  cases storedForm scalar with
  | error cause => exact ⟨s, rfl⟩
  | ok form =>
    obtain ⟨id, t, -⟩ := exists_top h hv
    obtain ⟨s₁, stored, t₁, h₁⟩ :=
      change_fresh_run h hv t (·.store form.2 form.1 scalar.spelling)
    obtain ⟨s₂, emitted, -, h₂⟩ := emit_run h₁ rfl t₁
    exact ⟨s₂, by simp only [lift_ok_run, top_run t, stored, emitted], h₂⟩

/-- What had its own events closes without a value. -/
theorem endValue_run {node outer : Node} (h : s.Shows v) (hv : v.stack = node :: outer :: stack)
    (empty : v.held = none) :
    ∃ s', endValue.run s = .ok () s' ∧
      s'.Shows { v with stack := outer :: stack, previous := some node } := by
  obtain ⟨s', closed, h'⟩ := closePrevious_run h hv
  refine ⟨s', ?_, h'⟩
  simp only [endValue, storeHeld, EStateM.run_bind, EStateM.run_get, h.held, empty,
    EStateM.run_pure, closed]

/-- A scalar is stored when its pair or element ends. -/
theorem endValue_mirrors {outer : Node} {scalar : Scalar} (h : s.Shows v)
    (hv : v.stack = .fresh own :: outer :: stack) (held : v.held = some scalar) :
    Mirrors endValue s (storedForm scalar) fun form s' => s'.Shows { v with
      stack := outer :: stack
      held := none
      keys := v.keys.append (own.store form.2 form.1 scalar.spelling)
      previous := some (.recorded (own.store form.2 form.1 scalar.spelling)) } := by
  have dropped : ({ s with held := none } : State).Shows { v with held := none } :=
    { h with held := rfl }
  have stores := (storeValue_mirrors dropped hv scalar).of_run_eq
    (show storeHeld.run s = _ by
      simp only [storeHeld, EStateM.run_bind, EStateM.run_get, h.held, held, dropHeld,
        EStateM.run_modify])
  exact stores.andThen _ fun _ _ h' => closePrevious_run h' rfl

theorem scalar_mirrors (h : s.Shows (v.inside (.fresh own))) (inner : v.stack ≠ [])
    (ready : v.Ready) (scalar : Scalar) :
    Mirrors (do Event.runAll o ((Value.scalar scalar).events line); endValue) s
      ((Value.scalar scalar).assemble o own v.sheet) fun made s' =>
        s'.Shows (v.after made.2 made.1) := by
  obtain ⟨outer, stack, hv⟩ := List.exists_cons_of_ne_nil inner
  simp only [Value.events, Event.runAll_singleton, Value.assemble]
  refine (holdValue_mirrors h (scalar.atLine line)).bind fun _ s₁ h₁ => ?_
  have open_ : (v.inside (.fresh own)).stack = .fresh own :: outer :: stack := by rw [← hv]; rfl
  have stores := endValue_mirrors h₁ open_ rfl
  refine stores.map fun form s' h' => ?_
  rw [← hv, ← ready.held] at h'
  exact h'

/-! ## Inline tables -/

theorem emitAs_run (h : s.Shows v) (hv : v.stack = .fresh own :: stack) (c : Construct) :
    ∃ s', (emitAs c).run s = .ok () s' ∧ s'.Shows { v with
      stack := .recorded (own.setConstruct c) :: stack
      keys := v.keys.append (own.setConstruct c) } := by
  obtain ⟨id, t, -⟩ := exists_top h hv
  obtain ⟨s₁, noted, t₁, h₁⟩ := change_fresh_run h hv t (·.setConstruct c)
  obtain ⟨s₂, emitted, -, h₂⟩ := emit_run h₁ rfl t₁
  exact ⟨s₂, by simp only [emitAs, EStateM.run_bind, top_run t, noted, emitted], h₂⟩

theorem dropHeld_run (h : s.Shows v) (empty : v.held = none) : dropHeld.run s = .ok () s := by
  have same : ({ s with held := none } : State) = s := by rw [← empty, ← h.held]
  simp only [dropHeld, EStateM.run_modify, same]

/-- The key of a pair, below the innermost open node. -/
theorem key_mirrors (line : Nat) {table : Node} (h : s.Shows v) (hv : v.stack = table :: stack)
    (pair : v.tableHeader = false) (takes : v.keyTakesComments = true) (key : KeyPath) :
    Mirrors (Event.runAll o (key.events line)) s
      (do v.sheet.begin o (table.key.name.join (← key.segments)) v.comments.contents)
      fun opened s' => opened.1.arrayMarker = none ∧ s'.Shows
        { (v.onSheet opened.2).inside (.fresh opened.1) with comments := {}, draft := none } := by
  obtain ⟨s₁, started, h₁⟩ := startDraft_run (o := o) h hv
  have base : (if v.tableHeader && !v.scopes.isEmpty then o.root else table.key.name) =
      table.key.name := by rw [pair]; rfl
  rw [base] at h₁
  simp only [KeyPath.events, List.cons_append, Event.runAll, Event.runAll_append, bind_pure_unit]
  refine Mirrors.after started ?_
  refine (segments_mirrors h₁ rfl line key).bind fun segments s₂ h₂ => ?_
  obtain ⟨s₃, finished, h₃⟩ := finishDraft_run (o := o) h₂ rfl pair
  refine (openKey_mirrors h₃ takes _).of_run_eq ?_
  simp only [Event.step, endKey_eq, EStateM.run_bind, finished]

/-! ## Arrays -/

/-- An array whose items are being read, in the key of the innermost open node. -/
def Reads (a : ArrayDraft) (v : View) (s : State) : Prop :=
  (a.next = 0 ↔ a.last = none) ∧ ∃ previous, (∀ key, a.last = some key →
    previous = some (.recorded key)) ∧ s.Shows (a.view v previous)

variable {a : ArrayDraft}

theorem startArray_run (h : s.Shows (v.inside (.fresh own))) (ready : v.Ready)
    (bare : own.arrayMarker = none) :
    ∃ s', startArray.run s = .ok () s' ∧ Reads { array := own.markArray, sheet := v.sheet } v s' := by
  obtain ⟨id, t, found⟩ := exists_top h rfl
  have pushed : ({ s with arrays := ⟨0, false⟩ :: s.arrays } : State).Shows
      { v.inside (.fresh own) with arrays := ⟨0, false⟩ :: v.arrays } :=
    { h with arrays := congrArg _ h.arrays }
  obtain ⟨s', marked, -, h'⟩ := change_fresh_run pushed rfl t Key.markArray
  refine ⟨s', ?_, by simp, v.previous, by simp, ?_⟩
  · simp only [startArray, EStateM.run_bind, top_run t, node_run found, Node.fresh, bare,
      pushArray, EStateM.run_modify, marked]
  · have waiting := ready.comments
    unfold ArrayDraft.view
    rw [← waiting]
    exact h'

/-- The last element gets the comment on its line before anything else happens. -/
theorem settleElement_run (h : Reads a v s) (level : ArrayLevel) (same : level.next = a.next) :
    ∃ s', (settleElement level).run s = .ok () s' ∧ Reads a.settle v s' := by
  obtain ⟨none_iff, previous, last, h⟩ := h
  cases there : a.last with
  | none =>
    have first : level.next = 0 := by rw [same, none_iff, there]
    refine ⟨s, by simp [settleElement, first], ?_⟩
    rw [ArrayDraft.settle, there]
    exact ⟨none_iff, previous, last, h⟩
  | some key =>
    have later : 0 < level.next := by
      rw [same, Nat.pos_iff_ne_zero, ne_eq, none_iff, there]
      simp
    -- What the draft calls its last element is the node that is remembered.
    have recorded := last key there
    subst recorded
    obtain ⟨s', settled, h'⟩ := settlePrevious_run h rfl
    refine ⟨s', by simpa only [settleElement, if_pos later] using settled, ?_⟩
    simp only [ArrayDraft.view] at h'
    rw [ArrayDraft.settle, there]
    cases taken : a.comments.takeFirst with
    | none =>
      rw [taken] at h'
      exact ⟨none_iff, _, last, h'⟩
    | some first =>
      rw [taken] at h'
      refine ⟨?_, _, ?_, h'⟩
      · simp [none_iff, there]
      · intro key h
        cases h
        rfl

/-- The next element gets a node, with the comments before it. -/
theorem openNextElement_run (h : Reads a v s) :
    ∃ id s₁, (openNextElement a.next).run s = .ok id s₁ ∧ ∃ s₂ previous,
      (leadWithComments id).run
        { s₁ with arrays := ⟨a.next + 1, false⟩ :: v.arrays } = .ok () s₂ ∧
      s₂.Shows ((a.opened.view v previous).inside (.fresh a.element)) := by
  obtain ⟨-, previous, -, h⟩ := h
  obtain ⟨array, t, found⟩ := exists_top h rfl
  obtain ⟨s₁, marked, -, h₁⟩ := change_fresh_run h rfl t (·.markLastElement a.next)
  obtain ⟨id, s₂, opened, t₂, h₂⟩ :=
    openNode_run h₁ { name := a.array.name.child (ElementIndex.segment a.next) }
  have counted : ({ s₂ with arrays := ⟨a.next + 1, false⟩ :: v.arrays } : State).Shows
      { a.opened.view v previous with
        stack := .fresh { name := a.array.name.child (ElementIndex.segment a.next) } ::
          .fresh a.noted :: v.stack
        comments := a.comments } := { h₂ with arrays := rfl }
  obtain ⟨s₃, led, -, h₃⟩ := leadWithComments_run counted rfl t₂
  refine ⟨id, s₂, ?_, s₃, previous, led, h₃⟩
  simp only [openNextElement, EStateM.run_bind, top_run t, node_run found, marked]
  exact opened

theorem startElement_mirrors (h : Reads a v s) :
    Mirrors (startElement o) s
      (if o.maxArrayElements ≤ a.next then .error (.arrayTooLong o.maxArrayElements) else .ok a.settle)
      fun a s' => ∃ previous, s'.Shows ((a.opened.view v previous).inside (.fresh a.element)) := by
  obtain ⟨s₁, settled, h₁⟩ := settleElement_run h ⟨a.next, false⟩ rfl
  have arrays : s.arrays = ⟨a.next, false⟩ :: v.arrays := h.2.choose_spec.2.arrays
  have arrays₁ : s₁.arrays = ⟨a.settle.next, false⟩ :: v.arrays := h₁.2.choose_spec.2.arrays
  obtain ⟨id, s₂, opened, s₃, previous, led, h₃⟩ := openNextElement_run h₁
  split
  · next full =>
    refine ⟨s, ?_⟩
    simp only [startElement, EStateM.run_bind, EStateM.run_get, arrays,
      require_stops (decide_eq_false (Nat.not_lt.mpr full))]
  · next room =>
    refine ⟨s₃, ?_, previous, h₃⟩
    rw [ArrayDraft.next_settle] at opened led
    simp only [startElement, EStateM.run_bind, EStateM.run_get, arrays, settled, opened,
      require_run (decide_eq_true (Nat.not_le.mp room)), EStateM.run_modify]
    exact led

/-- The array is put into the set, with the comments after its last element. -/
theorem endArray_run (h : Reads a v s) :
    ∃ s' previous, endArray.run s = .ok () s' ∧ s'.Shows { v.onSheet a.finish.2 with
      stack := .recorded a.finish.1 :: v.stack, previous, comments := {} } := by
  obtain ⟨s₁, settled, -, previous, -, h₁⟩ := settleElement_run h ⟨a.next, false⟩ rfl
  have arrays : s.arrays = ⟨a.next, false⟩ :: v.arrays := h.2.choose_spec.2.arrays
  obtain ⟨id, t₁, -⟩ := exists_top h₁ rfl
  obtain ⟨s₂, trailed, t₂, h₂⟩ := trailWithComments_run h₁ rfl t₁
  have left : ({ s₂ with arrays := s₂.arrays.tail } : State).Shows
      { v.onSheet a.settle.sheet with
        stack := .fresh a.finish.1 :: v.stack, previous, comments := {} } :=
    { h₂ with arrays := by rw [h₂.arrays]; rfl }
  obtain ⟨s₃, emitted, -, h₃⟩ := emit_run left rfl t₂
  refine ⟨s₃, previous, ?_, h₃⟩
  simp only [endArray, EStateM.run_bind, EStateM.run_get, arrays, settled, top_run t₁, trailed,
    EStateM.run_modify, emitted, closeArray, Bool.false_eq_true, if_false, EStateM.run_pure]

/-! ## Values of every depth -/

theorem runAll_array (o : Options) (items : List Item) (line : Nat) :
    Event.runAll o ((Value.array items).events line) =
      (do startArray; Event.runAll o (itemEvents line items); endArray) := by
  cases items with
  | nil => simp [Value.events, itemEvents, Event.runAll, Event.step]
  | cons item items =>
    simp only [Value.events, itemEvents, Event.runAll, Event.runAll_append, Event.step,
      List.cons_append, bind_assoc, bind_pure_unit]

/-- The array has been read: it ends, and so does what it is the value of. -/
theorem array_mirrors {items : List Item} (h : s.Shows (v.inside (.fresh own)))
    (inner : v.stack ≠ []) (ready : v.Ready) (bare : own.arrayMarker = none)
    (read : ∀ {a : ArrayDraft} {s : State}, Reads a v s →
      Mirrors (Event.runAll o (itemEvents line items)) s (assembleItems o items a) fun a s' =>
        Reads a v s') :
    Mirrors (do Event.runAll o ((Value.array items).events line); endValue) s
      ((Value.array items).assemble o own v.sheet) fun made s' =>
        s'.Shows (v.after made.2 made.1) := by
  obtain ⟨outer, stack, hv⟩ := List.exists_cons_of_ne_nil inner
  obtain ⟨s₁, started, h₁⟩ := startArray_run h ready bare
  simp only [runAll_array, bind_assoc, Value.assemble]
  refine Mirrors.after started ?_
  refine ((read h₁).andThen (y := do endArray; endValue) _ fun a s₂ h₂ => ?_).map fun a s' h' => h'
  obtain ⟨s₃, previous, ended, h₃⟩ := endArray_run h₂
  rw [hv] at h₃
  obtain ⟨s₄, closed, h₄⟩ := endValue_run h₃ rfl ready.held
  refine ⟨s₄, by simp only [EStateM.run_bind, ended, closed], ?_⟩
  rw [← hv, ← ready.comments] at h₄
  exact h₄

/-- A table whose pairs are being read, in the innermost open node. -/
def Fills (table : Key) (v : View) (sheet : Sheet) (s : State) : Prop :=
  ∃ previous, s.Shows { v.onSheet sheet with stack := .recorded table :: v.stack, previous }

theorem Fills.endValue_run {table : Key} {sheet : Sheet} (h : Fills table v sheet s)
    (inner : v.stack ≠ []) (ready : v.Ready) :
    ∃ s', endValue.run s = .ok () s' ∧ s'.Shows (v.after sheet table) := by
  obtain ⟨outer, stack, hv⟩ := List.exists_cons_of_ne_nil inner
  obtain ⟨previous, h⟩ := h
  rw [hv] at h
  obtain ⟨s', closed, h'⟩ := Builder.endValue_run h rfl ready.held
  rw [← hv] at h'
  exact ⟨s', closed, h'⟩

/-- The table has been read: it ends, and so does what it is the value of. -/
theorem inlineTable_mirrors {pairs : List (KeyPath × Value)} (h : s.Shows (v.inside (.fresh own)))
    (inner : v.stack ≠ []) (ready : v.Ready)
    (read : ∀ {table : Key} {sheet : Sheet} {s : State}, Fills table v sheet s →
      Mirrors (Event.runAll o (pairsEvents line pairs)) s (assemblePairs o pairs table.name sheet)
        (Fills table v)) :
    Mirrors (do Event.runAll o ((Value.inlineTable pairs).events line); endValue) s
      ((Value.inlineTable pairs).assemble o own v.sheet) fun made s' =>
        s'.Shows (v.after made.2 made.1) := by
  -- The table goes into the set before its pairs, so they are read over a set that holds it.
  obtain ⟨s₁, emitted, h₁⟩ := emitAs_run h rfl .inlineTable
  have filled : Fills (own.setConstruct .inlineTable) v
      (v.sheet.put (own.setConstruct .inlineTable)) s₁ := ⟨v.previous, h₁⟩
  simp only [Value.assemble]
  cases pairs with
  | nil =>
    obtain ⟨s', closed, h'⟩ := filled.endValue_run inner ready
    simp only [Value.events, Event.runAll_singleton]
    exact Mirrors.after emitted ⟨s', closed, h'⟩
  | cons pair pairs =>
    have rest := read filled
    simp only [pairsEvents, Event.runAll_append] at rest
    simp only [Value.events, Event.runAll, Event.runAll_append, List.cons_append, bind_assoc]
    refine Mirrors.after emitted ?_
    have ended := rest.andThen (y := do dropHeld; endValue) _ fun sheet s₂ h₂ => by
      obtain ⟨s', closed, h'⟩ := h₂.endValue_run inner ready
      obtain ⟨_, h₂⟩ := h₂
      exact ⟨s', by simp only [EStateM.run_bind, dropHeld_run h₂ ready.held, closed], h'⟩
    simp only [bind_assoc] at ended
    exact ended.map fun _ _ h' => h'

/-- The events of a value, and the end of what it is the value of, do what the value says. -/
def Stores (o : Options) (line : Nat) (x : Value) : Prop :=
  ∀ {s : State} {v : View} {own : Key}, s.Shows (v.inside (.fresh own)) → v.stack ≠ [] → v.Ready →
    own.arrayMarker = none →
    Mirrors (do Event.runAll o (x.events line); endValue) s (x.assemble o own v.sheet)
      fun made s' => s'.Shows (v.after made.2 made.1)

/-- A pair, whether it has a line of its own or stands in an inline table. -/
theorem keyValue_mirrors {table : Node} {x : Value} (stores : Stores o line x) (h : s.Shows v)
    (hv : v.stack = table :: stack) (ready : ({ v with comments := {} } : View).Ready)
    (key : KeyPath) :
    Mirrors (Event.runAll o (pairEvents line (key, x))) s
      (assembleBelow o table.key.name v.comments.contents key x v.sheet)
      fun made s' => s'.Shows (({ v with comments := {} } : View).after made.2 made.1) := by
  have inner : v.stack ≠ [] := hv ▸ List.cons_ne_nil _ _
  have named := key_mirrors (o := o) line h hv ready.tableHeader ready.keyTakesComments key
  simp only [pairEvents, Event.runAll_append, Event.runAll_singleton, Event.step]
  rw [bind_assoc]
  refine named.bind fun opened s₁ h₁ => ?_
  obtain ⟨bare, h₁⟩ := h₁
  rw [← ready.draft] at h₁
  exact stores (v := { v.onSheet opened.2 with comments := {} }) h₁ inner { ready with } bare

mutual

theorem value_mirrors (o : Options) (line : Nat) : ∀ x, Stores o line x
  | .scalar scalar, _, _, _, h, inner, ready, _ => scalar_mirrors h inner ready scalar
  | .array items, _, _, _, h, inner, ready, bare =>
    array_mirrors h inner ready bare fun reads => items_mirror o line items reads inner ready
  | .inlineTable pairs, _, _, _, h, inner, ready, _ =>
    inlineTable_mirrors h inner ready fun fills => pairs_mirror o line pairs fills inner ready

theorem item_mirrors (o : Options) (line : Nat) : ∀ (item : Item) {s : State} {v : View}
    {a : ArrayDraft}, Reads a v s → v.stack ≠ [] → v.Ready →
    Mirrors (Event.runAll o (item.events line)) s (item.assemble o a) fun a s' => Reads a v s'
  | .value x, _, v, a, reads, _, ready => by
    simp only [Item.events, Event.runAll, Event.runAll_append, List.cons_append, bind_pure_unit,
      Item.assemble]
    have started := startElement_mirrors (o := o) reads
    split at started
    · next full =>
      obtain ⟨s', stopped⟩ := started
      rw [if_pos full]
      exact ⟨s', by simp only [Event.step, EStateM.run_bind, stopped]⟩
    · next room =>
      obtain ⟨s₁, ran, previous, h₁⟩ := started
      rw [if_neg room]
      refine Mirrors.after ran ?_
      have ends := value_mirrors o line x h₁ (List.cons_ne_nil _ _) (ready.element _ _) rfl
      refine ends.map fun made s' h' => ⟨by simp [ArrayDraft.add], _, ?_, h'⟩
      intro key same
      cases same
      rfl
  | .comment text, s, v, a, reads, _, _ => by
    obtain ⟨none_iff, previous, last, h⟩ := reads
    obtain ⟨s', queued, h'⟩ := queueComment_run h (commentScalar line text) rfl
    simp only [Item.events, Event.runAll_singleton, Item.assemble]
    exact ⟨s', queued, none_iff, previous, last, h'⟩
  | .blankLine, s, v, a, reads, _, _ => by
    obtain ⟨none_iff, previous, last, h⟩ := reads
    simp only [Item.events, Event.runAll_singleton, Item.assemble]
    exact (queueBlankLine_mirrors h).map fun _ _ h' => ⟨none_iff, previous, last, h'⟩

theorem items_mirror (o : Options) (line : Nat) : ∀ (items : List Item) {s : State} {v : View}
    {a : ArrayDraft}, Reads a v s → v.stack ≠ [] → v.Ready →
    Mirrors (Event.runAll o (itemEvents line items)) s (assembleItems o items a)
      fun a s' => Reads a v s'
  | [], s, _, _, reads, _, _ => ⟨s, rfl, reads⟩
  | item :: items, _, _, _, reads, inner, ready => by
    simp only [itemEvents, Event.runAll_append, assembleItems]
    exact (item_mirrors o line item reads inner ready).bind fun _ _ reads =>
      items_mirror o line items reads inner ready

theorem pair_mirrors (o : Options) (line : Nat) : ∀ (pair : KeyPath × Value) {s : State} {v : View}
    {table : Key} {sheet : Sheet}, Fills table v sheet s → v.stack ≠ [] → v.Ready →
    Mirrors (Event.runAll o (pairEvents line pair)) s (assemblePair o pair table.name sheet)
      (Fills table v)
  | (key, x), _, v, table, sheet, fills, inner, ready => by
    obtain ⟨previous, h⟩ := fills
    have stored := keyValue_mirrors (value_mirrors o line x) h rfl { ready with comments := rfl } key
    rw [assemblePair_eq, ← show v.comments.contents = [] by rw [ready.comments]; rfl]
    refine stored.map fun made s' h' => ⟨some (.recorded made.1), ?_⟩
    rw [← ready.comments] at h'
    exact h'

theorem pairs_mirror (o : Options) (line : Nat) : ∀ (pairs : List (KeyPath × Value)) {s : State}
    {v : View} {table : Key} {sheet : Sheet}, Fills table v sheet s → v.stack ≠ [] → v.Ready →
    Mirrors (Event.runAll o (pairsEvents line pairs)) s (assemblePairs o pairs table.name sheet)
      (Fills table v)
  | [], s, _, _, _, fills, _, _ => ⟨s, rfl, fills⟩
  | pair :: pairs, _, _, _, _, fills, inner, ready => by
    simp only [pairsEvents, Event.runAll_append, assemblePairs]
    exact (pair_mirrors o line pair fills inner ready).bind fun _ _ fills =>
      pairs_mirror o line pairs fills inner ready

end

end Builder

end TomlSemantics
