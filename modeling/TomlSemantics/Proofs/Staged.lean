import TomlSemantics.Proofs.RelocatedSet

/-!
# Staging and building in place

A document is added to a set by reading it on its own and merging its keys. Reading it straight into
the set comes to the same, if the set has nothing at or below the root: no action looks at a key
elsewhere, and none touches one.

1. `parse_named`: every key of a document stands under its own name.
2. `load_eq_direct`: staging and building in place come to the same.
-/

namespace TomlSemantics

/-- Changes to the output keep every key under its own name. -/
theorem Output.Edits.named {root : Name} {out out' : Output} (h : out.Edits root out')
    (before : out.keys.Named) : out'.keys.Named := by
  induction h with
  | refl => exact before
  | tail _ last ih =>
    cases last with
    | put key _ => exact ih.append key
    | adjust name f _ edit => exact ih.adjust name edit.name_eq

variable {o : Options} {events : List Event}

theorem parse_named {keys : KeySet} (h : parse o events = .ok keys) : keys.Named := by
  have proper := State.proper_feedUntilFault o ∅ events
  rw [State.keys_of_finish h]
  exact proper.output.named KeySet.named_empty

/-- Reading into a set with nothing at or below the root goes as reading on its own: it raises the
same fault, or has the same keys at and below the root. -/
theorem direct_outcome {keys : KeySet}
    (foreign : ∀ name, name.isWithin o.root = true → keys.lookup name = none)
    (events : List Event) :
    Outcome (· = ·) (fun staged done => done = staged.mergeInto keys ∧
        ∀ name, done.lookup name = (staged.lookup name).or (keys.lookup name))
      (parse o events) ((State.start o keys).feedUntilFault o events).finish := by
  have sets : KeySet.Moved o.root o.root ∅ keys := by
    rintro _ _ ⟨path, rfl, rfl⟩
    rw [foreign _ (o.root.isWithin_join path)]
    exact .none
  refine (State.finish_outcome rfl sets events).imp (fun _ _ fault => fault.eq) ?_
  intro staged done parsed ended moved
  have found (name : Name) : done.lookup name = (staged.lookup name).or (keys.lookup name) := by
    by_cases within : name.isWithin o.root = true
    · obtain ⟨path, rfl⟩ := Name.isWithin_iff.mp within
      rw [foreign _ within, Option.or_none, moved.lookup_eq path]
    · have proper := State.proper_feedUntilFault o keys events
      rw [State.keys_of_finish ended, State.keys, proper.output.lookup_outside within,
        (parse_within parsed).lookup_eq_none within, Option.none_or]
  refine ⟨KeySet.ext_lookup fun name => ?_, found⟩
  rw [found, KeySet.lookup_mergeInto (parse_named parsed)]

/-- A set with nothing at or below the root can be built in place: that fails with the same fault as
staging, and otherwise gives the set that staging leaves, with the keys that were there and those of
the document. -/
theorem load_eq_direct {keys : KeySet}
    (foreign : ∀ name, name.isWithin o.root = true → keys.lookup name = none)
    (events : List Event) :
    let direct := ((State.start o keys).feedUntilFault o events).finish
    (∀ fault, direct = .error fault ↔ (load o events keys).1 = .error fault) ∧
    ∀ done, direct = .ok done →
      load o events keys = (.ok (), done) ∧
      ∃ staged, parse o events = .ok staged ∧
        ∀ name, done.lookup name = (staged.lookup name).or (keys.lookup name) := by
  intro direct
  have outcome : Outcome _ _ (parse o events) direct := direct_outcome foreign events
  unfold load
  generalize parse o events = staged at outcome ⊢
  generalize direct = built at outcome ⊢
  cases outcome with
  | error same =>
    subst same
    exact ⟨fun fault => ⟨fun h => by cases h; rfl, fun h => by cases h; rfl⟩, nofun⟩
  | ok merged =>
    obtain ⟨rfl, found⟩ := merged
    refine ⟨fun fault => ⟨nofun, nofun⟩, fun done same => ?_⟩
    cases same
    exact ⟨rfl, _, rfl, found⟩

/-- A set with a key of its own, elsewhere. -/
def foreignKeys : KeySet := .ofList [{ name := ⟨["system:", "a"]⟩ }]

/-- An element of an array of tables, and a pair in it. -/
def elementEvents : List Event :=
  [.documentStart, .tableArrayStart, .keyStart, .keySegment (.verbatim .bare "t"), .keyEnd,
    .tableArrayEnd, .keyStart, .keySegment (.verbatim .bare "a"), .keyEnd,
    .value (.verbatim .boolean "true"), .pairEnd, .documentEnd]

theorem foreignKeys_lookup (name : Name) (within : name.isWithin ({} : Options).root = true) :
    foreignKeys.lookup name = none := by
  refine (KeySet.lookup_append ∅ _ name).trans (if_neg ?_)
  rintro rfl
  exact absurd within (by decide)

theorem load_eq_direct_foreign :
    (∀ name, name.isWithin ({} : Options).root = true → foreignKeys.lookup name = none) ∧
    ∃ done, ((State.start {} foreignKeys).feedUntilFault {} elementEvents).finish = .ok done ∧
      load {} elementEvents foreignKeys = (.ok (), done) ∧
      done.toList.map (·.name.segments) =
        [["system:", "a"], ["user:", "t"], ["user:", "t", "#0"], ["user:", "t", "#0", "a"]] := by
  have both := load_eq_direct foreignKeys_lookup elementEvents
  refine ⟨foreignKeys_lookup, _, rfl, (both.2 _ rfl).1, ?_⟩
  decide

end TomlSemantics
