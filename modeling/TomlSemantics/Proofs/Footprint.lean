import TomlSemantics.Proofs.IntegrityRun

/-!
# Nothing outside of the root

Names come from headers, from drafts, from open arrays of tables and from their elements. All of
them stay inside of the root, whatever the events are, because the open arrays lie in each other.

1. `State.Inside`: all that a state names is inside of the root.
2. `all_inside_root`: so it is after any events, and keys elsewhere are as they were.
-/

namespace TomlSemantics

/-- All that a state names is inside of the root, and what it has put out came about, from a set of
keys, by changes inside of the root. -/
structure State.Inside (o : Options) (keys : KeySet) (s : State) : Prop where
  nodes : ∀ id node, s.nodes.get? id = some node → node.key.name.isWithin o.root = true
  draft : ∀ name, s.draft = some name → name.isWithin o.root = true
  handed : ∀ name ∈ s.output.handed, name.isWithin o.root = true
  edits : Output.Edits o.root { keys } s.output
  /-- Keys elsewhere are as they were. -/
  outside : ∀ name, ¬ name.isWithin o.root = true → s.keys.lookup name = keys.lookup name
  /-- Each open array of tables lies below the one around it, the outermost below the root. -/
  scopes : Scope.Nested o.root s.scopes

theorem State.Proper.inside {o : Options} {keys : KeySet} {s : State} (h : s.Proper o keys) :
    s.Inside o keys where
  nodes id node found := (h.nodes.built id node found).isWithin
  draft := h.draft
  handed := h.output.handed_within (List.forall_mem_nil _)
  edits := h.output
  outside _ elsewhere := h.output.lookup_outside elsewhere
  scopes := h.scopes

/-- Whatever the events are, nothing outside of the root is named, handed over or changed, the open
arrays of tables lie in each other, and so no event finds an array outside of the one around it, or
an element without its array. -/
theorem all_inside_root (o : Options) (keys : KeySet) (events : List Event) :
    let s := (State.start o keys).feedAll o events
    s.Inside o keys ∧
    ∀ e fault, (s.feed o e).2 = some fault →
      (∀ name base, fault.cause ≠ .scopeOutside name base) ∧
        fault.cause ≠ .elementWithoutArray := by
  intro s
  have proper : s.Proper o keys := State.proper_feedAll o keys events
  refine ⟨proper.inside, fun e fault raised => ?_⟩
  have sound := proper.not_breakage raised
  constructor
  · rintro name base same
    rw [same] at sound
    cases sound
  · intro same
    rw [same] at sound
    cases sound

end TomlSemantics
