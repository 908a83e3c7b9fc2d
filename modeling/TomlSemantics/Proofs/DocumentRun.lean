import TomlSemantics.Load
import TomlSemantics.Proofs.LineRun

/-!
# Reading a document

The events of a document are those of its lines, and feeding them to a state runs their steps until
the first fault.

1. `parse_eq_assemble`: the keys of a document are those that its lines say.
2. `Outline.Left.feed_line`: a line that can be assembled takes the state to what the line leaves.
3. `Outline.Left.openNames_eq`: the names of the nodes that are open between lines.
-/

namespace TomlSemantics

namespace Builder

variable {s : State} {v : View} {o : Options}

/-! ## Documents -/

theorem startDocument_run (h : s.Shows v) (fresh : s.started = false) :
    ∃ s', startDocument.run s = .ok () s' ∧ s'.Shows v := by
  refine ⟨{ s with started := true }, ?_, { h with }⟩
  simp only [startDocument, EStateM.run_bind, EStateM.run_get, fresh, Bool.not_false,
    require_run rfl, EStateM.run_modify]

theorem leadRoot_run (h : s.Shows v) (block : List BlockEntry) :
    ∃ s', (leadRoot o block).run s = .ok () s' ∧ s'.Shows { v with
      keys := if (v.keys.lookup o.root).isSome then v.keys.adjust o.root (·.addLeading block)
        else v.keys.append (({ name := o.root } : Key).addLeading block) } := by
  have has : s.output.has o.root = (v.keys.lookup o.root).isSome := by rw [Output.has, h.keys]
  simp only [leadRoot, EStateM.run_bind, EStateM.run_get, has]
  by_cases known : (v.keys.lookup o.root).isSome = true
  · rw [if_pos known, if_pos known]
    exact ⟨_, rfl, { h with keys := congrArg (KeySet.adjust · o.root _) h.keys }⟩
  · rw [if_neg known, if_neg known]
    exact handOver_run h _

/-- Comments that still wait in the end go to the root. -/
theorem endDocument_run {out : Outline} (left : out.Left o s) :
    ∃ s', (endDocument o).run s = .ok () s' ∧ s'.keys = out.finish o := by
  obtain ⟨stack, previous, -, -, h⟩ := left
  simp only [endDocument, Outline.finish, EStateM.run_bind, EStateM.run_get, h.comments]
  by_cases empty : out.comments.isEmpty = true
  · simp only [Outline.view, empty]
    exact ⟨s, rfl, h.keys⟩
  · obtain ⟨s', led, h'⟩ := leadRoot_run (o := o)
      ({ h with comments := rfl } : ({ s with comments := {} } : State).Shows
        { out.view stack previous with comments := {} }) out.comments.contents
    rw [if_neg empty]
    refine ⟨s', ?_, h'.keys⟩
    simp only [Outline.view, Bool.eq_false_iff.mpr empty, Bool.not_false, if_true,
      drainComments_run h, EStateM.run_bind]
    exact led

/-- The start of a document leaves nothing but the root open. -/
theorem startDocument_left (o : Options) (keys : KeySet) :
    ∃ s', startDocument.run (State.start o keys) = .ok () s' ∧ (Outline.start keys).Left o s' := by
  obtain ⟨s', started, h⟩ := startDocument_run (State.shows_start o keys) rfl
  exact ⟨s', started, _, none, rfl, nofun, h⟩

/-- The events of a document do what the document says. -/
theorem document_mirrors {lines : List Line} (numbered : ∀ line ∈ lines, line.isNumbered = true)
    (o : Options) :
    Mirrors (Event.runAll o (Document.events lines)) (State.start o ∅) (Document.assemble o lines)
      fun keys s' => s'.keys = keys := by
  obtain ⟨s₁, started, left⟩ := startDocument_left o ∅
  simp only [Document.events, Event.runAll_append, Event.runAll, List.cons_append, bind_pure_unit,
    Document.assemble]
  refine Mirrors.after started ?_
  refine ((lines_mirror numbered left 0).andThen (fun out s' => s'.keys = out.finish o)
    fun _ _ left => endDocument_run left).map fun _ _ same => same

end Builder

/-! ## Feeding -/

theorem Event.fault_of_runAll_ok {o : Options} {s s' : State} {events : List Event}
    (h : (runAll o events).run s = .ok () s') : s'.fault = s.fault := by
  induction events generalizing s with
  | nil => cases h; rfl
  | cons e rest ih =>
    rw [runAll, EStateM.run_bind] at h
    cases ran : (e.step o).run s with
    | error cause t => rw [ran] at h; cases h
    | ok _ t =>
      rw [ran] at h
      rw [ih h, fault_of_step_ok ran]

namespace State

variable {o : Options} {s : State}

theorem feed_of_fault (e : Event) {fault : Fault} (h : s.fault = some fault) :
    s.feed o e = (s, none) := by
  rw [feed, h]

/-- Until the first fault, feeding events is running their steps. -/
theorem feedUntilFault_eq (h : s.fault = none) (events : List Event) :
    s.feedUntilFault o events = match (Event.runAll o events).run s with
      | .ok _ s' => s'
      | .error cause s' => { s' with fault := some ⟨cause, some s'.location⟩ } := by
  induction events generalizing s with
  | nil => rfl
  | cons e rest ih =>
    rw [feedUntilFault, feed, h, Event.runAll, EStateM.run_bind]
    cases ran : (e.step o).run s with
    | error cause s' => rfl
    | ok _ s' => exact ih ((Event.fault_of_step_ok ran).trans h)

theorem feedAll_of_fault {fault : Fault} (h : s.fault = some fault) (events : List Event) :
    s.feedAll o events = s := by
  induction events with
  | nil => rfl
  | cons e rest ih =>
    rw [feedAll, List.foldl_cons, feed_of_fault e h]
    exact ih

theorem fault_of_feedAll {events : List Event} (h : (s.feedAll o events).fault = none) :
    s.fault = none := by
  cases stopped : s.fault with
  | none => rfl
  | some fault =>
    rw [feedAll_of_fault stopped, stopped] at h
    cases h

/-- Events after a fault change nothing. -/
theorem feedAll_eq_feedUntilFault (h : s.fault = none) (events : List Event) :
    s.feedAll o events = s.feedUntilFault o events := by
  induction events generalizing s with
  | nil => rfl
  | cons e rest ih =>
    rw [feedAll, List.foldl_cons, feedUntilFault, feed, h]
    dsimp only
    cases ran : (e.step o).run s with
    | error cause s' => exact feedAll_of_fault rfl rest
    | ok _ s' => exact ih ((Event.fault_of_step_ok ran).trans h)

end State

/-! ## States between lines -/

namespace State

variable {o : Options} {s s' : State} {events : List Event}

/-- The names of the open nodes, the innermost first. -/
def openNames (s : State) : List (Option Name) :=
  s.nodes.stack.map fun id => (s.nodes.get? id).map (·.key.name)

/-- The state has no fault and fits the result, or has the cause of the result as its fault. -/
def Reflects {α : Type} (s : State) (r : Except Cause α) (fits : α → State → Prop) : Prop :=
  match r with
  | .ok a => fits a s ∧ s.fault = none
  | .error cause => ∃ location, s.fault = some ⟨cause, location⟩

/-- Feeding events that do what a result says. -/
theorem reflects_feedAll {α : Type} {r : Except Cause α} {fits : α → State → Prop}
    (none : s.fault = none) (h : Builder.Mirrors (Event.runAll o events) s r fits) :
    (s.feedAll o events).Reflects r fits := by
  rw [feedAll_eq_feedUntilFault none, feedUntilFault_eq none]
  cases r with
  | ok a =>
    obtain ⟨s', ran, fit⟩ := h
    rw [ran]
    exact ⟨fit, (Event.fault_of_runAll_ok ran).trans none⟩
  | error cause =>
    obtain ⟨s', stopped⟩ := h
    rw [stopped]
    exact ⟨_, rfl⟩

theorem Reflects.exists_ok {α : Type} {r : Except Cause α} {fits : α → State → Prop}
    (h : s.Reflects r fits) (none : s.fault = none) : ∃ a, r = .ok a ∧ fits a s := by
  cases r with
  | ok a => exact ⟨a, rfl, h.1⟩
  | error cause =>
    obtain ⟨location, stopped⟩ := h
    exact nomatch none.symm.trans stopped

end State

namespace Outline

variable {o : Options} {out out' : Outline} {s : State}

/-- The open nodes have the names that the outline says. -/
theorem Left.openNames_eq (left : out.Left o s) :
    ∃ names, out.openNames o = .ok names ∧ s.openNames = names.map some ∧ s.scopes = out.scopes := by
  obtain ⟨stack, previous, opens, -, h⟩ := left
  refine ⟨_, opens, ?_, h.scopes⟩
  have slots := congrArg (List.map (Option.map (·.key.name))) h.nodes.stack_eq
  rw [List.map_map, List.map_map] at slots
  rw [List.map_map]
  exact slots

theorem Left.keys_eq (left : out.Left o s) : s.keys = out.sheet.keys := by
  obtain ⟨_, _, -, -, h⟩ := left
  exact h.keys

/-- The start of a document is fed without a fault. -/
theorem start_left (o : Options) (keys : KeySet) :
    (start keys).Left o ((State.start o keys).feedAll o [.documentStart]) ∧
      ((State.start o keys).feedAll o [.documentStart]).fault = none := by
  obtain ⟨s', started, left⟩ := Builder.startDocument_left o keys
  have mirrors : Builder.Mirrors (Event.runAll o [.documentStart]) (State.start o keys)
      (.ok (start keys)) fun out s' => out.Left o s' := by
    rw [Event.runAll_singleton]
    exact ⟨s', started, left⟩
  exact State.reflects_feedAll rfl mirrors

/-- A line is fed as it is assembled. -/
theorem Left.reflects_line (left : out.Left o s) (none : s.fault = none) {line : Line}
    (numbered : line.isNumbered = true) (number : Nat) :
    (s.feedAll o (line.events number)).Reflects (line.assemble o out) fun out' s' =>
      out'.Left o s' :=
  State.reflects_feedAll none (Builder.line_mirrors left line numbered number)

/-- A line that can be assembled is fed without a fault. -/
theorem Left.feed_line (left : out.Left o s) (none : s.fault = none) {line : Line}
    (numbered : line.isNumbered = true) (ok : line.assemble o out = .ok out') (number : Nat) :
    out'.Left o (s.feedAll o (line.events number)) ∧
      (s.feedAll o (line.events number)).fault = .none := by
  have fed := left.reflects_line none numbered number
  rw [ok] at fed
  exact fed

end Outline

namespace Document

variable {o : Options} {lines done rest : List Line} {line : Line} {out final : Outline}

/-! ### Lines one after another -/

theorem exists_of_outline_cons (ok : outline o (line :: rest) out = .ok final) :
    ∃ next, line.assemble o out = .ok next ∧ outline o rest next = .ok final :=
  exists_of_bind_eq_ok ok

theorem outline_append (o : Options) (done rest : List Line) (out : Outline) :
    outline o (done ++ rest) out = outline o done out >>= outline o rest := by
  induction done generalizing out with
  | nil => rfl
  | cons line done ih =>
    rw [List.cons_append, outline, outline]
    cases line.assemble o out with
    | error cause => rfl
    | ok next => exact ih next

theorem exists_of_outline_append (ok : outline o (done ++ rest) out = .ok final) :
    ∃ mid, outline o done out = .ok mid ∧ outline o rest mid = .ok final :=
  exists_of_bind_eq_ok ((outline_append o done rest out).symm.trans ok)

/-! ### Lines that are fed -/

/-- The state after the first lines of a document. -/
def stateAfter (o : Options) (lines : List Line) : State :=
  (State.start o ∅).feedAll o (.documentStart :: lineEvents 0 lines)

/-- Lines are fed as they are assembled. -/
theorem reflects_lines (numbered : ∀ line ∈ lines, line.isNumbered = true) (o : Options)
    (keys : KeySet) :
    ((State.start o keys).feedAll o (.documentStart :: lineEvents 0 lines)).Reflects
      (outline o lines (.start keys)) fun out s => out.Left o s := by
  obtain ⟨s₁, started, left⟩ := Builder.startDocument_left o keys
  refine State.reflects_feedAll rfl ?_
  rw [Event.runAll]
  exact Builder.Mirrors.after started (Builder.lines_mirror numbered left 0)

end Document

/-! ## The keys of a document -/

/-- The keys of a document, or the cause that it has none, are those that its lines say. -/
theorem parse_eq_assemble {lines : List Line} (numbered : ∀ line ∈ lines, line.isNumbered = true)
    (o : Options) :
    (parse o (Document.events lines)).mapError Fault.cause = Document.assemble o lines := by
  have mirrors := Builder.document_mirrors numbered o
  rw [parse, State.feedUntilFault_eq rfl]
  cases assembled : Document.assemble o lines with
  | error cause =>
    rw [assembled] at mirrors
    obtain ⟨s', stopped⟩ := mirrors
    rw [stopped]
    rfl
  | ok keys =>
    rw [assembled] at mirrors
    obtain ⟨s', ran, same⟩ := mirrors
    have unharmed : s'.close.fault = none := Event.fault_of_runAll_ok ran
    rw [ran, ← same]
    simp only [State.finish, unharmed]
    rfl

/-- A document is read just if it can be assembled, with the same keys. -/
theorem parse_eq_ok_iff {lines : List Line} (numbered : ∀ line ∈ lines, line.isNumbered = true)
    (o : Options) {keys : KeySet} :
    parse o (Document.events lines) = .ok keys ↔ Document.assemble o lines = .ok keys := by
  rw [← parse_eq_assemble numbered o]
  cases parse o (Document.events lines) with
  | error fault => exact iff_of_false nofun nofun
  | ok found => simp [Except.mapError]

end TomlSemantics
