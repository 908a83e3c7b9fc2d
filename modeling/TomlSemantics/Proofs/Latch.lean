import TomlSemantics.Proofs.DocumentRun

/-!
# The first fault stays

A fault stops the reading for good: it is placed at the last scalar or syntax error, no later event
reports another or changes anything, and it is what the reading ends with. So it makes no difference
whether the events go on after a fault or stop there.

1. `State.feed_latch`: what one event does to a state without a fault.
2. `State.quiet_or_stopped`: a run reports no fault, or one event of it stops it.
3. `stopped_once`: what that says about a reading from its start to its end.
-/

namespace TomlSemantics

/-- The last place that is named by events, with the place that was noted before them. -/
def lastPlace (noted : Location) (events : List Event) : Location :=
  (events.filterMap Event.place?).getLastD noted

theorem lastPlace_cons (noted : Location) (e : Event) (rest : List Event) :
    lastPlace noted (e :: rest) = lastPlace (e.place?.getD noted) rest := by
  unfold lastPlace
  cases named : e.place? with
  | none => rw [List.filterMap_cons_none named]; rfl
  | some place => rw [List.filterMap_cons_some named, List.getLastD_cons]; rfl

namespace State

variable {o : Options} {s : State}

/-- What each event reports: the fault that it caused, if it did. -/
def responses (o : Options) (s : State) : List Event → List (Option Fault)
  | [] => []
  | e :: rest => (s.feed o e).2 :: (s.feed o e).1.responses o rest

/-- A reading ends with its fault, or with its keys if there is none. -/
theorem finish_eq (s : State) :
    s.finish = match s.fault with
      | some fault => .error fault
      | none => .ok s.keys :=
  rfl

/-! ## One event -/

/-- An event reports the fault that it leaves, and a fault is where the last scalar or syntax error
was, that of the event itself if it has one. -/
theorem feed_latch (h : s.fault = none) (e : Event) :
    (s.feed o e).1.fault = (s.feed o e).2 ∧
    (s.feed o e).1.location = e.place?.getD s.location ∧
    ∀ fault, (s.feed o e).2 = some fault → fault.location = some (e.place?.getD s.location) := by
  have place := e.location_step o s
  unfold Builder.Leads at place
  rw [feed, h]
  dsimp only
  cases ran : (e.step o).run s with
  | ok _ t =>
    rw [ran] at place
    exact ⟨(Event.fault_of_step_ok ran).trans h, place, fun _ raised => by cases raised⟩
  | error cause t =>
    rw [ran] at place
    refine ⟨rfl, place, fun fault raised => ?_⟩
    cases raised
    exact congrArg some place

/-! ## Runs -/

/-- After a fault no event reports another. -/
theorem responses_of_fault {fault : Fault} (h : s.fault = some fault) (events : List Event) :
    s.responses o events = .replicate events.length none := by
  induction events with
  | nil => rfl
  | cons e rest ih =>
    rw [responses, feed_of_fault e h, ih]
    rfl

/-- No event of a run reports a fault. -/
structure Quiet (o : Options) (s : State) (events : List Event) : Prop where
  responses_eq : s.responses o events = .replicate events.length none
  fault_eq : (s.feedAll o events).fault = none

/-- A run is stopped by its event `e`. -/
structure StoppedAt (o : Options) (s : State) (before : List Event) (e : Event)
    (after : List Event) (fault : Fault) : Prop where
  /-- No other event reports a fault. -/
  responses_eq : s.responses o (before ++ e :: after) =
    .replicate before.length none ++ some fault :: .replicate after.length none
  /-- The fault is where the last scalar or syntax error was. -/
  location_eq : fault.location = some (lastPlace s.location (before ++ [e]))
  fault_eq : (s.feedAll o (before ++ [e])).fault = some fault
  /-- Later events change nothing. -/
  unchanged : ∀ first, first <+: after →
    s.feedAll o (before ++ e :: first) = s.feedAll o (before ++ [e])

theorem Quiet.cons {e : Event} {rest : List Event} (reported : (s.feed o e).2 = none)
    (h : (s.feed o e).1.Quiet o rest) : s.Quiet o (e :: rest) where
  responses_eq := by
    rw [responses, reported, h.responses_eq]
    rfl
  fault_eq := h.fault_eq

theorem StoppedAt.cons {first e : Event} {before after : List Event} {fault : Fault}
    (none : s.fault = none) (reported : (s.feed o first).2 = .none)
    (h : (s.feed o first).1.StoppedAt o before e after fault) :
    s.StoppedAt o (first :: before) e after fault where
  responses_eq := by
    rw [List.cons_append, responses, reported, h.responses_eq]
    rfl
  location_eq := by
    rw [h.location_eq, (feed_latch none first).2.1, List.cons_append, lastPlace_cons]
  fault_eq := h.fault_eq
  unchanged := h.unchanged

/-- An event that reports a fault stops the run that it begins. -/
theorem stoppedAt_of_feed {e : Event} {fault : Fault} (none : s.fault = none)
    (reported : (s.feed o e).2 = some fault) (after : List Event) :
    s.StoppedAt o [] e after fault := by
  obtain ⟨left, -, placed⟩ := feed_latch (o := o) none e
  have stopped := left.trans reported
  constructor
  case responses_eq =>
    rw [List.nil_append, responses, reported, responses_of_fault stopped]
    rfl
  case location_eq => rw [placed fault reported, List.nil_append, lastPlace_cons]; rfl
  case fault_eq => exact stopped
  case unchanged => exact fun first _ => feedAll_of_fault stopped first

/-- The events of a run report no fault, or one of them stops it. -/
theorem quiet_or_stopped (none : s.fault = none) (events : List Event) :
    s.Quiet o events ∨ ∃ before e after fault, events = before ++ e :: after ∧
      s.StoppedAt o before e after fault := by
  induction events generalizing s with
  | nil => exact .inl ⟨rfl, none⟩
  | cons e rest ih =>
    have left := (feed_latch (o := o) none e).1
    cases reported : (s.feed o e).2 with
    | some fault => exact .inr ⟨[], e, rest, fault, rfl, stoppedAt_of_feed none reported rest⟩
    | none =>
      obtain quiet | ⟨before, at_, after, fault, rfl, stopped⟩ := ih (left.trans reported)
      · exact .inl (quiet.cons reported)
      · exact .inr ⟨e :: before, at_, after, fault, rfl, stopped.cons none reported⟩

end State

/-! ## Readings -/

/-- At most one event of a reading reports a fault. It has a place, later events neither report
another nor change anything, and the reading ends with it; without a fault it ends with the keys.
So events that go on after a fault, and events that stop there, come to the same. -/
theorem stopped_once (o : Options) (keys : KeySet) (events : List Event) :
    let start := State.start o keys
    let s := start.feedAll o events
    ((start.responses o events = .replicate events.length none ∧ s.finish = .ok s.keys) ∨
      ∃ before e after fault, events = before ++ e :: after ∧
        start.responses o events =
          .replicate before.length none ++ some fault :: .replicate after.length none ∧
        fault.location = some (lastPlace {} (before ++ [e])) ∧
        (∀ first, first <+: after → start.feedAll o (before ++ e :: first) = s) ∧
        s.finish = .error fault) ∧
    s.finish = (start.feedUntilFault o events).finish ∧
    ((State.start o ∅).feedAll o events).finish = parse o events := by
  intro start s
  refine ⟨?_, by rw [← State.feedAll_eq_feedUntilFault rfl],
    by rw [parse, ← State.feedAll_eq_feedUntilFault rfl]⟩
  obtain quiet | ⟨before, e, after, fault, rfl, stopped⟩ := start.quiet_or_stopped rfl events
  · exact .inl ⟨quiet.responses_eq, by rw [State.finish_eq, quiet.fault_eq]⟩
  · have same := stopped.unchanged after List.prefix_rfl
    refine .inr ⟨before, e, after, fault, rfl, stopped.responses_eq, stopped.location_eq,
      fun first begins => (stopped.unchanged first begins).trans same.symm, ?_⟩
    have left : s.fault = some fault := (congrArg State.fault same).trans stopped.fault_eq
    rw [State.finish_eq, left]

end TomlSemantics
