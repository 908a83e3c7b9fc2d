import TomlSemantics.Proofs.Latch
import TomlSemantics.Proofs.Staged

/-!
# All keys of a document, or none

A document is added to a set as a whole or not at all, whether its events are given or a grammar
reports them. What a grammar says in the end only counts if its events caused no fault: it cannot
take back a fault of theirs, nor put its own in that place.

1. `Recognition.run_eq`: a grammar takes the state where the events that it reports take it.
2. `Recognition.run_replay`: a grammar that replays events stops at their first fault.
3. `all_or_none`: what is left of a set in every case.
-/

namespace TomlSemantics

variable {o : Options} {s : State} {keys : KeySet}

/-! ## What a grammar reports -/

namespace Recognition

/-- The events that a recognition reports, with the faults that it gets to see. -/
def reported (o : Options) (s : State) : Recognition → List Event
  | done _ => []
  | report e next => e :: (next (s.feed o e).2).reported o (s.feed o e).1

/-- A recognition only reaches the state through its events. -/
theorem run_eq (o : Options) (s : State) (r : Recognition) :
    (r.run o s).2 = s.feedAll o (r.reported o s) := by
  induction r generalizing s with
  | done outcome => rfl
  | report e next ih => exact ih _ _

/-- Events that are replayed go up to the first fault, and that is the outcome. -/
theorem run_replay (none : s.fault = none) (events : List Event) :
    (replay events).run o s = (match (s.feedUntilFault o events).fault with
      | some fault => .error fault
      | .none => .ok (), s.feedUntilFault o events) := by
  induction events generalizing s with
  | nil =>
    rw [State.feedUntilFault, none]
    rfl
  | cons e rest ih =>
    have latched := (State.feed_latch (o := o) none e).1
    rw [replay, run, State.feedUntilFault]
    generalize s.feed o e = fed at latched
    obtain ⟨t, reported⟩ := fed
    cases reported with
    | none => exact ih latched
    | some fault =>
      dsimp only at latched ⊢
      rw [latched]
      rfl

end Recognition

/-! ## The name of the source -/

/-- No step looks at the name of the source. -/
theorem feed_named (o : Options) (path : String) (s : State) (e : Event) :
    s.feed (o.named path) e = s.feed o e := by
  cases e <;> rfl

theorem Recognition.run_named (path : String) (r : Recognition) :
    r.run (o.named path) s = r.run o s := by
  induction r generalizing s with
  | done outcome => rfl
  | report e next ih =>
    rw [run, run, feed_named]
    exact ih _

theorem Recognition.reported_named (path : String) (r : Recognition) :
    r.reported (o.named path) s = r.reported o s := by
  induction r generalizing s with
  | done outcome => rfl
  | report e next ih =>
    rw [reported, reported, feed_named, ih]

/-! ## Grammars -/

/-- The keys of the events that a grammar reports are those that it leaves in the state. -/
theorem parse_reported (o : Options) (path : String) (r : Recognition) :
    parse o (r.reported (o.named path) (.start (o.named path) ∅)) =
      (r.run (o.named path) (.start (o.named path) ∅)).2.finish := by
  rw [Recognition.reported_named, Recognition.run_named, parse,
    ← State.feedAll_eq_feedUntilFault rfl, Recognition.run_eq]
  rfl

/-- A fault that events caused comes before one that the grammar found. -/
theorem recognise_eq (o : Options) (grammar : Grammar) (text : String) :
    recognise o grammar text =
      match ((grammar text).run o (.start o ∅)).2.fault, ((grammar text).run o (.start o ∅)).1 with
      | some fault, _ => .error fault
      | none, .error fault => .error fault
      | none, .ok () => .ok ((grammar text).run o (.start o ∅)).2.keys := by
  unfold recognise
  generalize (grammar text).run o (.start o ∅) = run
  obtain ⟨outcome, s⟩ := run
  dsimp only
  rw [State.finish_eq]
  cases s.fault <;> cases outcome <;> rfl

/-- Replaying events is reading them. -/
theorem recognise_replay (o : Options) (path : String) (events : List Event) (text : String) :
    recognise (o.named path) (fun _ => .replay events) text = parse o events := by
  have start_named : State.start (o.named path) ∅ = State.start o ∅ := rfl
  rw [recognise_eq, Recognition.run_named, start_named, Recognition.run_replay rfl, parse,
    State.finish_eq]
  cases ((State.start o ∅).feedUntilFault o events).fault <;> rfl

/-! ## Sets -/

/-- How a set fares when keys are staged for it. -/
inductive Loaded (keys : KeySet) : Except Fault KeySet → Except Fault Unit × KeySet → Prop
  /-- Nothing is added. -/
  | none (fault : Fault) : Loaded keys (.error fault) (.error fault, keys)
  /-- Every name has its staged key, or else its old one. -/
  | all {staged after : KeySet} :
      (∀ name, after.lookup name = (staged.lookup name).or (keys.lookup name)) →
      Loaded keys (.ok staged) (.ok (), after)

/-- Keys that are staged under their own names are added all at once. -/
theorem loaded_addStaged {staged : Except Fault KeySet} (named : ∀ k, staged = .ok k → k.Named)
    (keys : KeySet) : Loaded keys staged (addStaged staged keys) := by
  cases staged with
  | error fault => exact .none fault
  | ok staged => exact .all (KeySet.lookup_mergeInto (named staged rfl) keys)

/-- Keys are added to a set all at once or not at all, in the words of `Loaded` for events that are
given. For a grammar, a fault that its events caused comes first, whatever the grammar makes of it;
then the fault that the grammar found; and if there is neither, every name has the key that the
events say, or else its old one. A grammar that replays events adds what they add. -/
theorem all_or_none (path : String) {file : FileContent} {text : String}
    (readable : file.text = .ok text) (o : Options) (grammar : Grammar) (events : List Event)
    (keys : KeySet) :
    let start := State.start (o.named path) ∅
    let outcome := ((grammar text).run (o.named path) start).1
    let s := ((grammar text).run (o.named path) start).2
    let said := parse o ((grammar text).reported (o.named path) start)
    let loaded := loadFile path file o grammar keys
    Loaded keys (parse o events) (load o events keys) ∧
    said = s.finish ∧
    (∀ fault, s.fault = some fault → loaded = (.error fault, keys)) ∧
    (s.fault = none →
      (∀ fault, outcome = .error fault → loaded = (.error fault, keys)) ∧
      (outcome = .ok () → ∃ staged, said = .ok staged ∧ Loaded keys said loaded)) ∧
    loadFile path file o (fun _ => .replay events) keys = load o events keys := by
  intro start outcome s said loaded
  have opened (grammar : Grammar) : loadFile path file o grammar keys =
      addStaged (recognise (o.named path) grammar text) keys := by
    unfold loadFile
    rw [readable]
  have said_eq : said = s.finish := parse_reported o path (grammar text)
  have loaded_eq : loaded = addStaged (match s.fault, outcome with
      | some fault, _ => .error fault
      | none, .error fault => .error fault
      | none, .ok () => .ok s.keys) keys :=
    (opened grammar).trans (congrArg (addStaged · keys) (recognise_eq (o.named path) grammar text))
  refine ⟨loaded_addStaged (fun _ => parse_named) keys, said_eq, fun fault stopped => ?stopped,
    fun quiet => ⟨fun fault found => ?found, fun fine => ?added⟩, ?replayed⟩
  case stopped => rw [loaded_eq, stopped]; rfl
  case found => rw [loaded_eq, quiet, found]; rfl
  case added =>
    have said_ok : said = .ok s.keys := by rw [said_eq, State.finish_eq, quiet]
    have added : loaded = addStaged said keys := by rw [loaded_eq, quiet, fine, said_ok]
    exact ⟨s.keys, said_ok, added ▸ loaded_addStaged (fun _ => parse_named) keys⟩
  case replayed => rw [opened, recognise_replay, load]

/-- A grammar that reports events whether they cause faults or not, and says that all went well. -/
def Recognition.swallow : List Event → Recognition
  | [] => done (.ok ())
  | e :: rest => report e fun _ => swallow rest

/-- A pair that is given twice. -/
def twiceEvents : List Event :=
  [.documentStart, .keyStart, .keySegment (.verbatim .bare "a"), .keyEnd,
    .value (.verbatim .boolean "true"), .pairEnd, .keyStart, .keySegment (.verbatim .bare "a"),
    .keyEnd, .value (.verbatim .boolean "true"), .pairEnd, .documentEnd]

theorem all_or_none_swallowed :
    (FileContent.bytes []).text = .ok "" ∧
    (∃ fault, fault.cause = .duplicateName ⟨["user:", "a"]⟩ ∧
      loadFile "a.toml" (.bytes []) {} (fun _ => .swallow twiceEvents) foreignKeys =
        (.error fault, foreignKeys)) ∧
    loadFile "a.toml" (.bytes []) {} (fun _ => .replay elementEvents) foreignKeys =
      load {} elementEvents foreignKeys := by
  have readable : (FileContent.bytes []).text = .ok "" := rfl
  have fared := all_or_none "a.toml" readable {} (fun _ => .swallow twiceEvents) elementEvents
    foreignKeys
  exact ⟨readable, ⟨_, rfl, fared.2.2.1 _ rfl⟩, fared.2.2.2.2⟩

end TomlSemantics
