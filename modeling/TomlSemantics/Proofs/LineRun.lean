import TomlSemantics.Proofs.Key
import TomlSemantics.Proofs.Scope
import TomlSemantics.Proofs.ValueRun
import TomlSemantics.Proofs.Write

/-!
# Reading a line

Between two lines nothing is half read. What is open then is the root, the element of the innermost
array of tables if there is one, and the table if there is one, each known by its name.

1. `Outline.Left`: the states that a line leaves, by what its outline says.
2. `Builder.line_mirrors`: the events of a line do what `Line.assemble` says.
3. `Builder.lines_mirror`: so do the events of lines one after another.
-/

namespace TomlSemantics

theorem Scope.element_of_currentElement {root : Name} {scopes : List Scope} {opened : Name × Name}
    (h : currentElement root scopes = .ok opened) : Scope.element root scopes = .ok opened.1 := by
  obtain ⟨element, found, h⟩ := exists_of_bind_eq_ok h
  unfold Name.withArray at h
  split at h
  · cases h
    exact found
  · cases h

/-! ## States between lines -/

namespace Outline

/-- What a line leaves, with the nodes that are open. -/
def view (out : Outline) (stack : List Node) (previous : Option Node) : View where
  keys := out.sheet.keys
  stack
  previous
  scopes := out.scopes
  comments := out.comments
  nextOrder := out.sheet.nextOrder
  inTable := out.table.isSome

/-- While a table is open, its node is the innermost. -/
def TableInside (out : Outline) (stack : List Node) : Prop :=
  out.table.isSome = true →
    ∃ node outer, stack = node :: outer ∧ node.key.construct = some .table

/-- The states that a line leaves. -/
def Left (o : Options) (out : Outline) (s : State) : Prop :=
  ∃ stack previous, out.openNames o = .ok (stack.map (·.key.name)) ∧ out.TableInside stack ∧
    s.Shows (out.view stack previous)

variable {o : Options} {out : Outline} {names : List Name}

theorem openNames_eq_ok (h : out.openNames o = .ok names) :
    ∃ element, Scope.element o.root out.scopes = .ok element ∧
      names = out.table.toList ++ if out.scopes.isEmpty then [o.root] else [element, o.root] := by
  obtain ⟨element, found, rest⟩ := exists_of_bind_eq_ok h
  cases rest
  exact ⟨element, found, rfl⟩

/-- The innermost name is the one that the key of a pair starts from. -/
theorem base_eq_ok (h : out.openNames o = .ok names) :
    ∃ name rest, names = name :: rest ∧ out.base o = .ok name := by
  obtain ⟨element, found, rfl⟩ := openNames_eq_ok h
  unfold base
  cases out.table with
  | some name => exact ⟨name, _, rfl, rfl⟩
  | none =>
    cases scopes : out.scopes with
    | nil => exact ⟨o.root, [], rfl, rfl⟩
    | cons scope outer =>
      rw [scopes] at found
      exact ⟨element, [o.root], rfl, found⟩

end Outline

namespace Builder

variable {s : State} {v : View} {stack : List Node} {o : Options} {number : Nat}

/-! ## Comments on a line -/

/-- A comment that is the only one to wait is taken as it is. -/
theorem lineComment_run (h : s.Shows v) (empty : v.comments = {}) (number : Nat) (text : String)
    (site : CommentSite) :
    ∃ s₁ s₂, (queueComment (commentScalar number text)).run s = .ok () s₁ ∧
      (takeLineComment site).run s₁ = .ok (some (.marked text)) s₂ ∧ s₂.Shows v := by
  obtain ⟨s₁, queued, h₁⟩ := queueComment_run h (commentScalar number text) rfl
  have only : s₁.comments.takeOnly site = .ok (some (.marked text, {})) := by
    rw [h₁.comments, empty]
    rfl
  refine ⟨s₁, { s₁ with comments := {} }, queued, ?_, { h₁ with comments := empty.symm }⟩
  simp only [takeLineComment, EStateM.run_bind, EStateM.run_get, only, lift_ok_run]
  rfl

/-- The comment on the line of a pair, if there is one, goes to the pair. -/
theorem commentPair_run {key : Key} (h : s.Shows v) (empty : v.comments = {})
    (hv : v.previous = some (.recorded key)) (o : Options) (number : Nat) (c : Option String) :
    ∃ s' previous, (Event.runAll o (Line.commentEvents number .pairComment c)).run s = .ok () s' ∧
      s'.Shows { v with keys := (v.sheet.annotate key c).keys, previous } := by
  cases c with
  | none => exact ⟨s, v.previous, rfl, h⟩
  | some text =>
    obtain ⟨s₁, s₂, queued, taken, h₂⟩ := lineComment_run h empty number text .pair
    have nodes := h₂.nodes
    rw [hv] at nodes
    obtain ⟨id, last, -⟩ := nodes.last
    obtain ⟨s₃, changed, h₃⟩ := change_previous_run h₂ hv last (·.setInline (.marked text))
    refine ⟨s₃, some (.recorded (key.setInline (.marked text))), ?_, h₃⟩
    simp only [Line.commentEvents, Event.runAll, Event.step, EStateM.run_bind, queued, commentPair,
      taken, EStateM.run_get, last, changed]
    rfl

/-- The comment on the line of a header, if there is one, goes to the innermost open node. -/
theorem commentHeader_run {key : Key} (h : s.Shows v) (empty : v.comments = {})
    (hv : v.stack = .recorded key :: stack) (o : Options) (number : Nat) (c : Option String) :
    ∃ s' node, (Event.runAll o (Line.commentEvents number .headerComment c)).run s = .ok () s' ∧
      node.key.name = key.name ∧ node.key.construct = key.construct ∧
      s'.Shows { v with keys := (v.sheet.annotate key c).keys, stack := node :: stack } := by
  cases c with
  | none => exact ⟨s, .recorded key, rfl, rfl, rfl, by rw [← hv]; exact h⟩
  | some text =>
    obtain ⟨s₁, s₂, queued, taken, h₂⟩ := lineComment_run h empty number text .header
    obtain ⟨id, t, -⟩ := exists_top h₂ hv
    obtain ⟨s₃, changed, -, h₃⟩ := change_run h₂ hv t (·.setInline (.marked text))
    refine ⟨s₃, .recorded (key.setInline (.marked text)), ?_, rfl, rfl, h₃⟩
    simp only [Line.commentEvents, Event.runAll, Event.step, EStateM.run_bind, queued,
      commentHeader, taken, top_run t, changed]
    rfl

/-! ## Pairs -/

theorem pair_line_mirrors {out : Outline} (left : out.Left o s) (key : KeyPath) (x : Value)
    (c : Option String) :
    Mirrors (Event.runAll o ((Line.pair key x c).events number)) s (Line.assemblePair o key x c out)
      fun out' s' => out'.Left o s' := by
  obtain ⟨stack, previous, opens, inside, h⟩ := left
  obtain ⟨base, rest, names, base_eq⟩ := Outline.base_eq_ok opens
  obtain ⟨table, outer, rfl, rfl, -⟩ := List.map_eq_cons_iff.mp names
  have ready : ({ out.view (table :: outer) previous with comments := {} } : View).Ready :=
    ⟨rfl, rfl, rfl, rfl, rfl⟩
  have stored := keyValue_mirrors (value_mirrors o number x) h rfl ready key
  rw [Line.assemblePair, base_eq]
  simp only [Line.events, Event.runAll_append]
  have commented := stored.andThen (fun made s' =>
      ({ out with sheet := made.2.annotate made.1 c, comments := {} } : Outline).Left o s')
    fun made s₁ h₁ => by
      obtain ⟨s₂, previous, ran, h₂⟩ := commentPair_run h₁ rfl rfl o number c
      have counted : (made.2.annotate made.1 c).nextOrder = made.2.nextOrder := by cases c <;> rfl
      refine ⟨s₂, ran, table :: outer, previous, opens, inside, ?_⟩
      rw [Outline.view, counted]
      exact h₂
  exact commented.map fun _ _ left => left

/-! ## Closing what is open -/

theorem closeNode_names {name outer : Name} {names : List Name} (h : s.Shows v)
    (hv : v.stack.map (·.key.name) = name :: outer :: names) :
    ∃ s' stack, closeNode.run s = .ok () s' ∧ stack.map (·.key.name) = outer :: names ∧
      s'.Shows { v with stack } := by
  obtain ⟨node, rest, stack, -, below⟩ := List.map_eq_cons_iff.mp hv
  obtain ⟨next, others, rfl, rfl, rfl⟩ := List.map_eq_cons_iff.mp below
  obtain ⟨s', closed, h'⟩ := closeNode_run h stack
  exact ⟨s', next :: others, closed, rfl, h'⟩

theorem replaceTable_run {table : Option Name} {name : Name} {names : List Name} (h : s.Shows v)
    (hv : v.stack.map (·.key.name) = table.toList ++ name :: names)
    (inTable : v.inTable = table.isSome) :
    ∃ s' stack, replaceTable.run s = .ok () s' ∧ stack.map (·.key.name) = name :: names ∧
      s'.Shows { v with stack, inTable := true } := by
  cases table with
  | none =>
    refine ⟨_, v.stack, ?_, hv, ({ h with inTable := rfl } :
      ({ s with inTable := true } : State).Shows { v with inTable := true })⟩
    simp only [replaceTable, EStateM.run_bind, EStateM.run_get, h.inTable, inTable]
    rfl
  | some t =>
    obtain ⟨s', stack, closed, names, h'⟩ := closeNode_names h hv
    have open_ : v.inTable = true := inTable
    refine ⟨s', stack, ?_, names, by rw [← open_]; exact h'⟩
    simp only [replaceTable, EStateM.run_bind, EStateM.run_get, h.inTable, open_, if_true, closed]

theorem leaveTable_run {table : Option Name} {name : Name} {names : List Name} (h : s.Shows v)
    (hv : v.stack.map (·.key.name) = table.toList ++ name :: names)
    (inTable : v.inTable = table.isSome) :
    ∃ s' stack, leaveTable.run s = .ok () s' ∧ stack.map (·.key.name) = name :: names ∧
      s'.Shows { v with stack, inTable := false } := by
  cases table with
  | none =>
    have closed : v.inTable = false := inTable
    refine ⟨s, v.stack, ?_, hv, by rw [← closed]; exact h⟩
    simp only [leaveTable, EStateM.run_bind, EStateM.run_get, h.inTable, closed]
    rfl
  | some t =>
    obtain ⟨s', stack, closed, names, h'⟩ := closeNode_names h hv
    refine ⟨{ s' with inTable := false }, stack, ?_, names, { h' with inTable := rfl }⟩
    have open_ : v.inTable = true := inTable
    simp only [leaveTable, EStateM.run_bind, EStateM.run_get, h.inTable, open_, if_true, closed,
      EStateM.run_modify]

theorem leaveElement_run {root element : Name} (h : s.Shows v)
    (hv : v.stack.map (·.key.name) = if v.scopes.isEmpty then [root] else [element, root]) :
    ∃ s' node, leaveElement.run s = .ok () s' ∧ node.key.name = root ∧
      s'.Shows { v with stack := [node] } := by
  simp only [leaveElement, EStateM.run_bind, EStateM.run_get, h.scopes]
  cases scopes : v.scopes.isEmpty with
  | true =>
    rw [scopes, if_pos rfl] at hv
    obtain ⟨node, stack, only⟩ := List.map_eq_singleton_iff.mp hv
    refine ⟨s, node, rfl, only, by rw [← stack]; exact h⟩
  | false =>
    rw [scopes, if_neg Bool.false_ne_true] at hv
    obtain ⟨s', stack, closed, names, h'⟩ := closeNode_names h hv
    obtain ⟨node, rfl, only⟩ := List.map_eq_singleton_iff.mp names
    exact ⟨s', node, closed, only, h'⟩

/-! ## Headers of tables -/

theorem placeTable_run (h : s.Shows v) (name : Name) :
    (placeTable o name).run s = (lift (Scope.placeHeader o.root name v.scopes)).run s := by
  simp only [placeTable, Scope.placeHeader, EStateM.run_bind, EStateM.run_get, h.scopes]
  cases Scope.place o.root name v.scopes with
  | error cause => rfl
  | ok placement => cases placement <;> rfl

theorem finishDraft_table_run {name : Name} (h : s.Shows v) (draft : v.draft = some name)
    (header : v.tableHeader = true) :
    (finishDraft o).run s = (lift (Scope.placeHeader o.root name v.scopes)).run
      { s with draft := none, tableHeader := false } := by
  have ended : ({ s with draft := none, tableHeader := false } : State).Shows
      { v with draft := none, tableHeader := false } :=
    { h with draft := rfl, tableHeader := rfl }
  simp only [finishDraft, EStateM.run_bind, EStateM.run_get, h.draft, draft, EStateM.run_set,
    h.tableHeader, header, if_true]
  exact placeTable_run ended name

/-- The key of a table is placed among the open arrays of tables when it ends. -/
theorem endKey_table_mirrors {name : Name} (h : s.Shows v) (draft : v.draft = some name)
    (header : v.tableHeader = true) (takes : v.keyTakesComments = true) :
    Mirrors (endKey o) s
      (Scope.placeHeader o.root name v.scopes >>= fun placed =>
        v.sheet.begin o placed v.comments.contents)
      fun opened s' => s'.Shows { (v.onSheet opened.2).inside (.fresh opened.1) with
        comments := {}, draft := none, tableHeader := false } := by
  have finished := finishDraft_table_run (o := o) h draft header
  cases place : Scope.placeHeader o.root name v.scopes with
  | error cause =>
    rw [place] at finished
    exact ⟨{ s with draft := none, tableHeader := false }, by
      simp only [endKey_eq, EStateM.run_bind, finished, lift_error_run]⟩
  | ok target =>
    rw [place] at finished
    have ended : ({ s with draft := none, tableHeader := false } : State).Shows
        { v with draft := none, tableHeader := false } :=
      { h with draft := rfl, tableHeader := rfl }
    refine ((openKey_mirrors ended takes target).of_run_eq ?_).imp fun opened s' h' => h'.2
    simp only [endKey_eq, EStateM.run_bind, finished, lift_ok_run]

/-- The key of a table starts from the root, whatever was open. -/
theorem startTable_run {out : Outline} (left : out.Left o s) :
    ∃ s' stack previous, (do startTable o; startDraft o).run s = .ok () s' ∧
      { out with table := none }.openNames o = .ok (stack.map (·.key.name)) ∧
      s'.Shows { out.view stack previous with
        inTable := true, tableHeader := true, draft := some o.root } := by
  obtain ⟨stack, previous, opens, -, h⟩ := left
  obtain ⟨element, found, names⟩ := Outline.openNames_eq_ok opens
  have shape : ∃ name names, (if out.scopes.isEmpty then [o.root] else [element, o.root]) =
      name :: names ∧ (out.scopes.isEmpty = true → name = o.root) := by
    cases out.scopes.isEmpty <;> exact ⟨_, _, rfl, by simp⟩
  obtain ⟨name, rest, eq, outside⟩ := shape
  rw [eq] at names
  obtain ⟨s₁, stack₁, replaced, names₁, h₁⟩ := replaceTable_run h names rfl
  obtain ⟨top, below, rfl, top_name, -⟩ := List.map_eq_cons_iff.mp names₁
  -- Inside an element its node is on top, but the key of a table does not start from it.
  have base : (if true && !out.scopes.isEmpty then o.root else top.key.name) = o.root := by
    rw [top_name]
    cases empty : out.scopes.isEmpty with
    | true => exact outside empty
    | false => rfl
  have header : ({ s₁ with tableHeader := true } : State).Shows
      { out.view (top :: below) previous with inTable := true, tableHeader := true } :=
    { h₁ with tableHeader := rfl }
  obtain ⟨s₂, started, h₂⟩ := startDraft_run (o := o) header rfl
  obtain ⟨s₃, again, h₃⟩ := startDraft_run (o := o) h₂ rfl
  refine ⟨s₃, top :: below, previous, ?_, ?_, ?_⟩
  · simp only [startTable, EStateM.run_bind, replaced, EStateM.run_modify, started, again]
  · rw [Outline.openNames, found, names₁, ← eq]
    rfl
  · rw [← base]
    exact h₃

theorem Sheet.nextOrder_annotate (sheet : Sheet) (key : Key) (c : Option String) :
    (sheet.annotate key c).nextOrder = sheet.nextOrder := by
  cases c <;> rfl

/-- A node that is put inside of what is open once a table is closed is the next table. -/
theorem openNames_table {out : Outline} {stack : List Node} {name : Name} (sheet : Sheet)
    (h : { out with table := none }.openNames o = .ok (stack.map (·.key.name))) :
    ({ out with sheet, comments := {}, table := some name } : Outline).openNames o =
      .ok (name :: stack.map (·.key.name)) := by
  obtain ⟨element, found, names⟩ := Outline.openNames_eq_ok h
  have found : Scope.element o.root out.scopes = .ok element := found
  rw [names, Outline.openNames, found]
  rfl

theorem table_line_mirrors {out : Outline} (left : out.Left o s) (key : KeyPath)
    (c : Option String) (number : Nat) :
    Mirrors (Event.runAll o ((Line.table key c).events number)) s (Line.assembleTable o key c out)
      fun out' s' => out'.Left o s' := by
  obtain ⟨s₁, stack, previous, started, opens, h₁⟩ := startTable_run left
  have events : Event.runAll o ((Line.table key c).events number) = (do
      (do startTable o; startDraft o)
      Event.runAll o (key.map fun part => .keySegment (part.atLine number))
      endKey o
      emitAs .table
      Event.runAll o (Line.commentEvents number .headerComment c)) := by
    simp [Line.events, KeyPath.events, Event.runAll, Event.runAll_append, Event.step]
  rw [events, Line.assembleTable]
  refine Mirrors.after started ?_
  refine (segments_mirrors h₁ rfl number key).bind fun segments s₂ h₂ => ?_
  refine (endKey_table_mirrors h₂ rfl rfl rfl).bind fun opened s₃ h₃ => ?_
  obtain ⟨s₄, emitted, h₄⟩ := emitAs_run h₃ rfl .table
  obtain ⟨s₅, node, commented, same, construct, h₅⟩ := commentHeader_run h₄ rfl rfl o number c
  refine ⟨s₅, ?_, node :: stack, previous, ?_, fun _ => ⟨node, stack, rfl, ?_⟩, ?_⟩
  · simp only [EStateM.run_bind, emitted, commented]
  · rw [List.map_cons, same]
    exact openNames_table _ opens
  · rw [construct, Key.construct_setConstruct]
  · rw [Outline.view, Sheet.nextOrder_annotate]
    exact h₅

/-! ## Headers of arrays of tables -/

/-- The key of an array of tables starts from the root, with only the root open. -/
theorem startTableArray_run {out : Outline} (left : out.Left o s) :
    ∃ s' node previous, (do startTableArray o; startDraft o).run s = .ok () s' ∧
      node.key.name = o.root ∧ s'.Shows { out.view [node] previous with
        inTable := false, draft := some o.root, keyTakesComments := false } := by
  obtain ⟨stack, previous, opens, -, h⟩ := left
  obtain ⟨element, -, names⟩ := Outline.openNames_eq_ok opens
  have shape : ∃ name names, (if out.scopes.isEmpty then [o.root] else [element, o.root]) =
      name :: names := by
    cases out.scopes.isEmpty <;> exact ⟨_, _, rfl⟩
  obtain ⟨name, rest, eq⟩ := shape
  rw [eq] at names
  obtain ⟨s₁, stack₁, tableLeft, names₁, h₁⟩ := leaveTable_run h names rfl
  rw [← eq] at names₁
  obtain ⟨s₂, node, elementLeft, node_name, h₂⟩ := leaveElement_run h₁ names₁
  have header : ({ s₂ with draft := some o.root, keyTakesComments := false } : State).Shows
      { out.view [node] previous with
        inTable := false, draft := some o.root, keyTakesComments := false } :=
    { h₂ with draft := rfl, keyTakesComments := rfl }
  obtain ⟨s₃, started, h₃⟩ := startDraft_run (o := o) header rfl
  refine ⟨s₃, node, previous, ?_, node_name, ?_⟩
  · simp only [startTableArray, EStateM.run_bind, tableLeft, elementLeft, setDraft,
      EStateM.run_modify, started]
  · rw [← node_name]
    exact h₃

theorem enterScope_mirrors (h : s.Shows v) (name : Name) :
    Mirrors (enterScope o name) s (Scope.enter v.keys o.root name v.scopes) fun scopes s' =>
      scopes ≠ [] ∧ s'.Shows { v with scopes } := by
  have keys : s.keys = v.keys := h.keys
  unfold Mirrors
  simp only [enterScope, EStateM.run_bind, EStateM.run_get, keys, h.scopes]
  cases entered : Scope.enter v.keys o.root name v.scopes with
  | error cause => exact ⟨s, rfl⟩
  | ok scopes => exact ⟨_, rfl, Scope.enter_ne_nil entered, { h with scopes := rfl }⟩

/-- The number that the key of the header took is free again. -/
theorem dropHeader_run {node outer : Node} {n : Nat} (h : s.Shows v)
    (hv : v.stack = node :: outer :: stack) (order : v.nextOrder = n + 1) :
    ∃ s', dropHeader.run s = .ok () s' ∧
      s'.Shows { v with stack := outer :: stack, nextOrder := n } := by
  obtain ⟨s', closed, h'⟩ := closeNode_run h hv
  refine ⟨{ s' with nextOrder := s'.nextOrder - 1 }, ?_, { h' with nextOrder := ?_ }⟩
  · simp only [dropHeader, EStateM.run_bind, closed, EStateM.run_modify]
  · rw [h'.nextOrder]
    exact congrArg (· - 1) order

theorem handOver_run (h : s.Shows v) (key : Key) :
    ∃ s', (handOver key).run s = .ok () s' ∧ s'.Shows { v with keys := v.keys.append key } :=
  ⟨_, rfl, { h with keys := congrArg (KeySet.append · key) h.keys }⟩

theorem recordTableArray_run (h : s.Shows v) (container : Name) (index : Nat) :
    ∃ s', (recordTableArray container index).run s = .ok () s' ∧
      s'.Shows (v.onSheet (v.sheet.recordTableArray container index)) := by
  have has : s.output.has container = (v.sheet.keys.lookup container).isSome := by
    rw [Output.has, h.keys]
    rfl
  simp only [recordTableArray, Sheet.recordTableArray, EStateM.run_bind, EStateM.run_get, has]
  by_cases known : (v.sheet.keys.lookup container).isSome = true
  · rw [if_pos known, if_pos known]
    exact ⟨_, rfl, { h with keys := congrArg (KeySet.adjust · container _) h.keys }⟩
  · rw [if_neg known, if_neg known]
    have counted : ({ s with nextOrder := s.nextOrder + 1 } : State).Shows
        { v with nextOrder := v.nextOrder + 1 } :=
      { h with nextOrder := congrArg (· + 1) h.nextOrder }
    obtain ⟨s', handed, h'⟩ := handOver_run counted
      (((({ name := container } : Key).setConstruct .tableArray).markLastElement index).setOrder
        s.nextOrder)
    rw [h.nextOrder] at h'
    exact ⟨s', by simp only [takeOrder, EStateM.run_bind, EStateM.run_modifyGet, handed], h'⟩

theorem openElement_run (h : s.Shows v) (element : Name) :
    ∃ s', (openElement element).run s = .ok () s' ∧ s'.Shows
      { v.inside (.recorded (({ name := element } : Key).addLeading v.comments.contents)) with
        keys := v.keys.append (({ name := element } : Key).addLeading v.comments.contents)
        comments := {} } := by
  obtain ⟨id, s₁, opened, t₁, h₁⟩ := openNode_run h { name := element }
  obtain ⟨s₂, led, t₂, h₂⟩ := leadWithComments_run h₁ rfl t₁
  obtain ⟨s₃, emitted, -, h₃⟩ := emit_run h₂ rfl t₂
  exact ⟨s₃, by simp only [openElement, EStateM.run_bind, opened, led, emitted], h₃⟩

theorem recordElement_eq (o : Options) (s : State) : (recordElement o).run s = (do
    let opened ← lift (Scope.currentElement o.root s.scopes)
    recordTableArray opened.2 ((s.scopes.head?.map Scope.index).getD 0)
    return opened.1 : Builder Name).run s := by
  rw [recordElement, EStateM.run_bind, EStateM.run_get]
  dsimp only
  rw [EStateM.run_bind, EStateM.run_bind, Scope.currentElement]
  cases Scope.element o.root s.scopes with
  | error cause => rfl
  | ok element =>
    have step : (Except.ok element >>= Name.withArray) = element.withArray := rfl
    rw [lift_ok_run, step, Name.withArray]
    dsimp only
    cases element.parent with
    | none => rfl
    | some container => rfl

/-- The next element of the innermost array is recorded and opened. -/
theorem nextElement_mirrors (h : s.Shows v) :
    Mirrors (do openElement (← recordElement o)) s (Scope.currentElement o.root v.scopes)
      fun opened s' =>
        let sheet := v.sheet.recordTableArray opened.2 ((v.scopes.head?.map Scope.index).getD 0)
        let own := ({ name := opened.1 } : Key).addLeading v.comments.contents
        Scope.element o.root v.scopes = .ok opened.1 ∧
          s'.Shows { (v.onSheet (sheet.put own)).inside (.recorded own) with comments := {} } := by
  have recordElement := recordElement_eq o s
  rw [h.scopes] at recordElement
  cases current : Scope.currentElement o.root v.scopes with
  | error cause =>
    rw [current, EStateM.run_bind, lift_error_run] at recordElement
    exact ⟨s, by rw [EStateM.run_bind, recordElement]⟩
  | ok opened =>
    rw [current, EStateM.run_bind, lift_ok_run] at recordElement
    obtain ⟨s₁, recorded, h₁⟩ := recordTableArray_run h opened.2
      ((v.scopes.head?.map Scope.index).getD 0)
    obtain ⟨s₂, opens, h₂⟩ := openElement_run h₁ opened.1
    refine ⟨s₂, ?_, Scope.element_of_currentElement current, h₂⟩
    rw [EStateM.run_bind, recordElement]
    dsimp only
    rw [EStateM.run_bind, recorded]
    exact opens

theorem enter_mirrors {out : Outline} (h : s.Shows v) (keys : v.keys = out.sheet.keys)
    (scopes : v.scopes = out.scopes) (name : Name) :
    Mirrors (do require (name.isBelow o.root) .namelessTableArray; enterScope o name) s
      (out.enter o name) fun scopes s' => scopes ≠ [] ∧ s'.Shows { v with scopes } := by
  unfold Outline.enter
  split
  · next below =>
    rw [← keys, ← scopes]
    exact Mirrors.after (require_run below _ s) (enterScope_mirrors h name)
  · next outside =>
    have stops := require_stops (Bool.eq_false_iff.mpr outside) .namelessTableArray s
    exact ⟨s, by simp only [EStateM.run_bind, stops]⟩

/-- The header's own node is closed again, and the element opened in its place. -/
theorem endTableArray_mirrors {out : Outline} {node : Node} {name : Name}
    {previous : Option Node} (h : s.Shows
      { out.view [.fresh (({ name } : Key).setOrder out.sheet.nextOrder), node] previous with
        inTable := false, nextOrder := out.sheet.nextOrder + 1, keyTakesComments := false }) :
    Mirrors (endTableArray o) s (out.openElement o name) fun opened s' =>
      opened.2.comments = {} ∧ opened.2.table = none ∧
        opened.2.openNames o = .ok [opened.1.name, o.root] ∧
        s'.Shows (opened.2.view [.recorded opened.1, node] previous) := by
  have topped := topName_run h rfl
  refine Mirrors.of_run_eq (y := do
      (do require (name.isBelow o.root) .namelessTableArray; enterScope o name)
      dropHeader
      (do openElement (← recordElement o))
      modify fun s => { s with keyTakesComments := true }) ?_
    ((enter_mirrors h rfl rfl name).bind fun scopes s₁ ⟨nonempty, h₁⟩ => ?_)
  · rw [endTableArray, EStateM.run_bind, topped]
    simp only [bind_assoc]
    rfl
  · obtain ⟨s₂, dropped, h₂⟩ := dropHeader_run h₁ rfl rfl
    refine Mirrors.after dropped ((nextElement_mirrors h₂).bind fun opened s₃ ⟨element, h₃⟩ => ?_)
    refine ⟨{ s₃ with keyTakesComments := true }, rfl, rfl, rfl, ?_, { h₃ with keyTakesComments := rfl }⟩
    rw [Outline.openNames, element]
    obtain ⟨scope, outer, rfl⟩ := List.exists_cons_of_ne_nil nonempty
    rfl

/-- The actions of the header of an array of tables. -/
theorem runAll_tableArray (o : Options) (key : KeyPath) (c : Option String) (number : Nat) :
    Event.runAll o ((Line.tableArray key c).events number) = (do
      (do startTableArray o; startDraft o)
      Event.runAll o (key.map fun part => .keySegment (part.atLine number))
      endKey o
      endTableArray o
      Event.runAll o (Line.commentEvents number .headerComment c)) := by
  simp [Line.events, KeyPath.events, Event.runAll, Event.runAll_append, Event.step]

theorem tableArray_line_mirrors {out : Outline} (left : out.Left o s) (key : KeyPath)
    (c : Option String) (number : Nat) :
    Mirrors (Event.runAll o ((Line.tableArray key c).events number)) s
      (Line.assembleTableArray o key c out) fun out' s' => out'.Left o s' := by
  obtain ⟨s₁, node, previous, started, root, h₁⟩ := startTableArray_run left
  rw [runAll_tableArray, Line.assembleTableArray]
  refine Mirrors.after started ?_
  refine (segments_mirrors h₁ rfl number key).bind fun segments s₂ h₂ => ?_
  obtain ⟨s₃, finished, h₃⟩ := finishDraft_run (o := o) h₂ rfl rfl
  -- The header's node takes no comments: they wait for the element.
  have same : (endKey o).run s₂ = (openKey o (o.root.join segments)).run s₃ := by
    simp only [endKey_eq, EStateM.run_bind, finished]
  have named := (openKey_header_mirrors h₃ rfl (o.root.join segments)).of_run_eq same
  refine named.bind fun _ s₄ h₄ => ?_
  refine (endTableArray_mirrors h₄).bind fun opened s₅ left₅ => ?_
  obtain ⟨empty, closed, names, h₅⟩ := left₅
  obtain ⟨s₆, top, commented, same, -, h₆⟩ := commentHeader_run h₅ empty rfl o number c
  refine ⟨s₆, commented, [top, node], previous, ?_, fun open_ => ?_, ?_⟩
  · rw [List.map_cons, same, List.map_singleton, root]
    exact names
  · rw [closed] at open_
    cases open_
  · rw [Outline.view, Sheet.nextOrder_annotate]
    exact h₆

/-- A header that names another key stops there, and the set stays as it is. -/
theorem tableArray_line_stops {out : Outline} (left : out.Left o s) {key : KeyPath}
    {path : List String} (segments : key.segments = .ok path)
    (taken : isFree o out.sheet.keys (o.root.join path) = false) (c : Option String) (number : Nat) :
    ∃ s', (Event.runAll o ((Line.tableArray key c).events number)).run s =
      .error (.duplicateName (o.root.join path)) s' ∧ s'.keys = out.sheet.keys := by
  obtain ⟨s₁, node, previous, started, -, h₁⟩ := startTableArray_run left
  have named := segments_mirrors (o := o) h₁ rfl number key
  rw [segments] at named
  obtain ⟨s₂, ran, h₂⟩ := named
  obtain ⟨s₃, finished, h₃⟩ := finishDraft_run (o := o) h₂ rfl rfl
  have keys : s₃.keys = out.sheet.keys := h₃.keys
  rw [← keys] at taken
  refine ⟨s₃, ?_, keys⟩
  simp only [runAll_tableArray, EStateM.run_bind, started, ran, endKey_eq, finished, openKey,
    checkFree, EStateM.run_get, require_stops taken]

/-! ## Lines -/

/-- The events of a line do what the line says. -/
theorem line_mirrors {out : Outline} (left : out.Left o s) (line : Line)
    (numbered : line.isNumbered = true) (number : Nat) :
    Mirrors (Event.runAll o (line.events number)) s (line.assemble o out) fun out' s' =>
      out'.Left o s' := by
  cases line with
  | pair key x c => exact pair_line_mirrors left key x c
  | table key c => exact table_line_mirrors left key c number
  | tableArray key c => exact tableArray_line_mirrors left key c number
  | comment text =>
    obtain ⟨stack, previous, opens, inside, h⟩ := left
    obtain ⟨s', queued, h'⟩ := queueComment_run h (commentScalar number text) rfl
    simp only [Line.events, Event.runAll_singleton, Line.assemble]
    exact ⟨s', queued, stack, previous, opens, inside, h'⟩
  | blank =>
    obtain ⟨stack, previous, opens, inside, h⟩ := left
    simp only [Line.events, Event.runAll_singleton, Line.assemble]
    exact (queueBlankLine_mirrors h).map fun _ _ h' => ⟨stack, previous, opens, inside, h'⟩
  | raw e => cases numbered

theorem lines_mirror {lines : List Line} (numbered : ∀ line ∈ lines, line.isNumbered = true)
    {out : Outline} (left : out.Left o s) (before : Nat) :
    Mirrors (Event.runAll o (Document.lineEvents before lines)) s (Document.outline o lines out)
      fun out' s' => out'.Left o s' := by
  induction lines generalizing s out before with
  | nil => exact ⟨s, rfl, left⟩
  | cons line rest ih =>
    obtain ⟨first, later⟩ := List.forall_mem_cons.mp numbered
    simp only [Document.lineEvents, Event.runAll_append, Document.outline]
    exact (line_mirrors left line first _).bind fun _ _ left => ih later left _

end Builder

end TomlSemantics
