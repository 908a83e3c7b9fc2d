import TomlSemantics.Proofs.Contiguous
import TomlSemantics.Proofs.Placement

/-!
# What is known between any lines

The set between the lines of a document has no gaps, and the open arrays stand at the elements that
are noted. That does not depend on the arrays that were left and resumed in between, nor on names
that were given again.

1. `Outline.Effect`: what a line that is read does, and the names that it gives.
2. `Outline.Regular`: what is known between lines. `Regular.effect`: every line has an effect.
   `Regular.assemble`, `Regular.outline`: lines keep what is known.
3. `elements_contiguous`: the elements of every array of tables in a document.
-/

namespace TomlSemantics

variable {o : Options} {array : Name} {keys : KeySet} {count index : Nat} {out out' : Outline}
  {key : KeyPath} {v : Value} {c : Option String}

/-! ## Effects of lines -/

/-- The names that a line gives to keys that are no arrays of tables, from a state on. -/
def Line.closes (o : Options) (s : State) : Line → List Name
  | pair key v _ => (pairBelow (key, v) s.scopeName).productions
  | table key _ => (Scope.placeHeader o.root (o.root.join key.path) s.scopes).toOption.toList
  | tableArray .. | comment _ | blank | raw _ => []

/-- A header opens an array at its next element, inside of others. -/
abbrev Outline.Opens (o : Options) (count : Nat) (out : Outline) (name : Name) (index : Nat)
    (outer : List Scope) (array : Name) : Prop :=
  Scope.Headed (fun _ => True) (OpenAt out.sheet.keys.unordered count) out.sheet.keys.unordered
    o.root name index outer array

/-- What a line that is read does: it puts keys into the set, under names that it gives, or opens
the next element of an array, or waits for the next key. -/
inductive Outline.Effect (o : Options) (count : Nat) (out' out : Outline) : List Name → Prop
  | adds (a : Inventory) (table : Option Name) : out'.Adds o out table a →
      (∀ name, table = some name → name.isWithin o.root = true) →
      Effect o count out' out a.productions
  | heads (name : Name) (run : List Remark) (c : Option String) (index : Nat) (outer : List Scope)
      (array : Name) : out.Opens o count name index outer array →
      out'.Heads o out name run c index outer array → Effect o count out' out []
  | take (r : Remark) : out' = { out with comments := out.comments.take r } →
      Effect o count out' out []

/-! ## Between lines -/

/-- What is known between lines: the set has no gaps, and where the open arrays stand. -/
structure Outline.Regular (o : Options) (count : Nat) (out : Outline) : Prop where
  contiguous : Contiguous o.root count out.sheet.keys.unordered
  standing : Scope.Standing (fun _ => True) (OpenAt out.sheet.keys.unordered count) o.root out.scopes
  table : ∀ name, out.table = some name → name.isWithin o.root = true
  comments : ∃ run, out.comments = queueOf run

namespace Outline.Regular

theorem start (o : Options) (count : Nat) : (Outline.start ∅).Regular o count where
  contiguous := .empty o.root count
  standing := Scope.standing_nil
  table _ none := by cases none
  comments := ⟨[], rfl⟩

/-- What is noted tells where an array stands. -/
theorem reopens (h : out.Regular o count) :
    Scope.Reopens (fun _ => True) (OpenAt out.sheet.keys.unordered count) out.sheet.keys := by
  intro n m noted
  rw [← Scope.lastElement_unordered] at noted
  obtain ⟨k, found, -⟩ := Scope.lastElement_of_isTableArray noted
  refine ⟨⟨?_, ?_, (h.contiguous.last noted).2.1⟩, fun _ _ => trivial⟩
  · rw [found]
    exact nofun
  · intro m' noted'
    rw [noted] at noted'
    exact (Option.some.inj noted').symm

/-- The root has no key between lines. -/
theorem lookup_root (h : out.Regular o count) : out.sheet.keys.lookup o.root = none := by
  by_contra present
  exact Name.isBelow_irrefl o.root (h.contiguous.below o.root fun none =>
    present (KeySet.lookup_unordered_eq_none_iff.mp none))

/-! ### Lines have effects -/

/-- The header of an array of tables opens the next element, just if the key is accepted and names
no other key. -/
theorem header_decides (h : out.Regular o count) (named : (Line.tableArray key c).parts.Named) :
    Decides True
      (key.Accepted ∧ Builder.isFree o out.sheet.keys.unordered (o.root.join key.path) = true)
      ((Line.tableArray key c).assemble o out) fun out' => ∃ run index outer array,
        out.Opens o count (o.root.join key.path) index outer array ∧
        out'.Heads o out (o.root.join key.path) run c index outer array := by
  obtain ⟨nonempty, plain⟩ := named key (List.mem_singleton.mpr rfl)
  obtain ⟨run, comments⟩ := h.comments
  have path (accepted : key.Accepted) := KeyPath.path_ne_nil accepted nonempty
  refine (Line.assembleTableArray_heads True path (fun accepted => ?_) comments).imp
    fun out' _ opened => ⟨run, opened⟩
  obtain ⟨index, outer, array, entered, headed⟩ := h.standing.enter_eq_ok h.reopens
    (HeaderPath.of_plain (path accepted) plain) rfl
  refine ⟨index, outer, array, entered, headed.seated.element_eq index, headed.standing,
    headed.seated, ?_⟩
  rw [Scope.lastElement_unordered]
  exact headed.next

/-- Every line that is read has an effect, and the names that it gives are those that it closes. -/
theorem effect (h : out.Regular o count) (small : o.maxArrayElements < ElementIndex.limit)
    {line : Line} (numbered : line.isNumbered = true) (named : line.parts.Named)
    (ok : line.assemble o out = .ok out') :
    ∃ closed, out'.Effect o count out closed ∧ ∀ s, out.Left o s → line.closes o s = closed := by
  obtain ⟨run, comments⟩ := h.comments
  cases line with
  | pair key v c =>
    obtain ⟨scope, base, within⟩ := Outline.base_within h.standing.nested h.table
    obtain ⟨-, adds⟩ := Line.assemblePair_adds small named comments base within ok
    refine ⟨_, .adds _ out.table adds h.table, fun s left => ?_⟩
    rw [Line.closes, left.scopeName_eq base, Line.productions_pair]
  | table key c =>
    obtain ⟨-, name, place, adds⟩ := Line.assembleTable_adds h.standing.nested named comments ok
    refine ⟨_, .adds _ (some name) adds ?_, fun s left => ?_⟩
    · rintro name ⟨⟩
      exact Name.isWithin_of_isBelow (adds.sits.inside _ (List.mem_singleton.mpr rfl))
    · obtain ⟨-, -, -, scopes⟩ := left.openNames_eq
      rw [Line.closes, scopes, place]
      rfl
  | tableArray key c =>
    have decides := h.header_decides named
    rw [ok] at decides
    obtain ⟨-, run, index, outer, array, opens, heads⟩ := decides
    exact ⟨[], .heads _ run c index outer array opens heads, fun _ _ => rfl⟩
  | comment text =>
    cases ok
    exact ⟨[], .take (.comment text) rfl, fun _ _ => rfl⟩
  | blank =>
    rw [Line.assemble, CommentQueue.newline_eq] at ok
    split at ok
    · cases ok
      exact ⟨[], .take .blank rfl, fun _ _ => rfl⟩
    · cases ok
  | raw e => cases numbered

/-! ### Lines keep what is known -/

/-- Keys that belong to names that a line gives. -/
theorem adds {a : Inventory} {table : Option Name} (h : out.Regular o count)
    (adds : out'.Adds o out table a)
    (within : ∀ name, table = some name → name.isWithin o.root = true) :
    out'.Regular o (count + 1) where
  contiguous := by
    rw [adds.follows.keys]
    exact (h.contiguous.appendAll adds.sits).mono (Nat.le_succ count)
  standing := by
    obtain ⟨path, current⟩ := h.standing.nested.element_eq_ok
    rw [adds.follows.keys, adds.follows.scopes]
    refine h.standing.imp current fun n i _ stands => stands.imp ?_ ?_ (Nat.le_succ count)
    · intro present none
      exact present (KeySet.lookup_appendAll_eq_none_iff.mp none).1
    · intro m found
      exact (Scope.lastElement_of_appendAll adds.sits.noTableArray found).2
  table := adds.follows.table ▸ within
  comments := ⟨[], adds.follows.comments⟩

/-- The next element of an array of tables. -/
theorem heads {name : Name} {run : List Remark} {outer : List Scope} (h : out.Regular o count)
    (few : count < ElementIndex.limit) (opens : out.Opens o count name index outer array)
    (heads : out'.Heads o out name run c index outer array) : out'.Regular o (count + 1) := by
  obtain ⟨plain, -, below⟩ := opens.seated.array_spec opens.standing.nested
  have next := opens.nextElement h.contiguous
  have none : (lineKey (array.child (ElementIndex.segment index)) run c).isTableArray = false := rfl
  refine ⟨?_, ?_, ?_, [], heads.comments⟩
  · rw [heads.keys]
    exact h.contiguous.element few plain below next rfl none
  · rw [heads.keys, heads.scopes]
    exact opens.standing_cons (next.openAt few none) fun n i other stands =>
      stands.element other none
  · rw [heads.table]
    exact nofun

/-- A comment or a blank line. -/
theorem take (h : out.Regular o count) (r : Remark) :
    ({ out with comments := out.comments.take r } : Outline).Regular o (count + 1) := by
  have le := Nat.le_succ count
  obtain ⟨path, current⟩ := h.standing.nested.element_eq_ok
  obtain ⟨run, comments⟩ := h.comments
  refine ⟨h.contiguous.mono le, h.standing.imp current fun _ _ _ stands =>
    stands.imp id (fun _ => id) le, h.table, run ++ [r], ?_⟩
  rw [queueOf_concat, ← comments]

/-- Whatever a line does, it keeps what is known. -/
theorem keep {closed : List Name} (h : out.Regular o count) (few : count < ElementIndex.limit)
    (effect : out'.Effect o count out closed) : out'.Regular o (count + 1) := by
  cases effect with
  | adds a table adds within => exact h.adds adds within
  | heads name run c index outer array opens heads => exact h.heads few opens heads
  | take r same =>
    subst same
    exact h.take r

/-- Any number of lines keeps what is known. -/
theorem outline (small : o.maxArrayElements < ElementIndex.limit) {lines : List Line}
    (numbered : ∀ line ∈ lines, line.isNumbered = true) (named : ∀ line ∈ lines, line.parts.Named)
    (h : out.Regular o count) (few : count + lines.length ≤ ElementIndex.limit)
    (ok : Document.outline o lines out = .ok out') : out'.Regular o (count + lines.length) := by
  induction lines generalizing out count with
  | nil =>
    cases ok
    exact h
  | cons line rest ih =>
    obtain ⟨numbered₁, numbered⟩ := List.forall_mem_cons.mp numbered
    obtain ⟨named₁, named⟩ := List.forall_mem_cons.mp named
    rw [List.length_cons] at few ⊢
    obtain ⟨next, assembled, ok⟩ := Document.exists_of_outline_cons ok
    obtain ⟨_, effect, -⟩ := h.effect small numbered₁ named₁ assembled
    have later := ih numbered named (h.keep (by omega) effect) (by omega) ok
    rwa [Nat.add_right_comm, Nat.add_assoc] at later

end Outline.Regular

/-! ## Documents -/

/-- What waits in the end changes no key but that of the root. -/
theorem Outline.lookup_finish {n : Name} (other : n ≠ o.root) :
    (out.finish o).lookup n = out.sheet.keys.lookup n := by
  unfold finish
  split
  · rfl
  · split
    · rw [KeySet.lookup_adjust, if_neg other]
    · exact KeySet.lookup_append_of_ne _ (Ne.symm other)

/-- A key that only has the comments that wait in the end is no array of tables. -/
theorem Outline.isTableArray_finish_root {k : Key} (noRoot : out.sheet.keys.lookup o.root = none)
    (found : (out.finish o).lookup o.root = some k) : k.isTableArray = false := by
  unfold finish at found
  split at found
  · rw [noRoot] at found
    cases found
  · rw [noRoot, if_neg (by simp)] at found
    have own := (KeySet.lookup_append_self out.sheet.keys
      (({ name := o.root } : Key).addLeading out.comments.contents)).symm.trans found
    exact Option.some.inj own ▸ rfl

/-- A document whose keys have names, no segment of which names an element of an array. -/
structure Document.Spelled (lines : List Line) : Prop where
  numbered : ∀ line ∈ lines, line.isNumbered = true
  named : ∀ line ∈ lines, line.parts.Named
  few : lines.length < ElementIndex.limit

namespace Document.Spelled

variable {lines done rest : List Line}

theorem of_append (h : Document.Spelled (done ++ rest)) : Document.Spelled done where
  numbered line member := h.numbered line (List.mem_append_left _ member)
  named line member := h.named line (List.mem_append_left _ member)
  few := by
    have few := h.few
    rw [List.length_append] at few
    omega

/-- What is known after lines that are read. -/
theorem outline (h : Document.Spelled lines) (small : o.maxArrayElements < ElementIndex.limit)
    (ok : Document.outline o lines (.start ∅) = .ok out) :
    out.Regular o lines.length ∧ out.Left o (stateAfter o lines) ∧
      (stateAfter o lines).fault = none := by
  have few := h.few
  have regular := (Outline.Regular.start o 0).outline small h.numbered h.named (by omega) ok
  have reflects := reflects_lines h.numbered o ∅
  rw [Nat.zero_add] at regular
  rw [ok] at reflects
  exact ⟨regular, reflects⟩

theorem exists_outline (h : Document.Spelled lines) (parsed : parse o (events lines) = .ok keys) :
    ∃ final, Document.outline o lines (.start ∅) = .ok final ∧ keys = final.finish o := by
  obtain ⟨final, ok, finished⟩ := exists_of_bind_eq_ok ((parse_eq_ok_iff h.numbered o).mp parsed)
  exact ⟨final, ok, (Except.ok.inj finished).symm⟩

end Document.Spelled

/-- What a set without gaps says of an array of tables, by the marker that its key has. -/
theorem Contiguous.exists_marker {root name : Name} {k : Key}
    (h : Contiguous root count keys.unordered) (found : keys.lookup name = some k)
    (isArray : k.isTableArray = true) :
    ∃ marker m, k.arrayMarker = some marker ∧ ElementIndex.ofSegment marker = some m ∧
      ∀ j < ElementIndex.limit,
        (keys.lookup (name.child (ElementIndex.segment j))).isSome = true ↔ j ≤ m := by
  have found' : keys.unordered.lookup name = some k.unordered := by
    rw [KeySet.lookup_unordered, found]
    rfl
  obtain ⟨-, m, -, last, elements⟩ := h.array name k.unordered found' isArray
  have noted : k.lastTableElement = some m := by
    rw [Scope.lastElement_unordered, Scope.lastElement, found] at last
    exact last
  rw [Key.lastTableElement, if_pos isArray] at noted
  obtain ⟨marker, noted, reads⟩ := Option.bind_eq_some_iff.mp noted
  refine ⟨marker, m, noted, reads, fun j bound => ?_⟩
  rw [← elements j bound, Option.isSome_iff_ne_none]
  exact KeySet.lookup_unordered_eq_none_iff.not.symm

/-- Every array of tables in a document notes its last element, and the elements that have keys are
those up to that. -/
theorem elements_contiguous {lines : List Line} (h : Document.Spelled lines) (o : Options)
    (small : o.maxArrayElements < ElementIndex.limit) {keys : KeySet}
    (parsed : parse o (Document.events lines) = .ok keys) {name : Name} {k : Key}
    (found : keys.lookup name = some k) (isArray : k.isTableArray = true) :
    ∃ marker m, k.arrayMarker = some marker ∧ ElementIndex.ofSegment marker = some m ∧
      ∀ j < ElementIndex.limit,
        (keys.lookup (name.child (ElementIndex.segment j))).isSome = true ↔ j ≤ m := by
  obtain ⟨final, ok, rfl⟩ := h.exists_outline parsed
  obtain ⟨regular, -⟩ := h.outline small ok
  -- What waits in the end only changes the key of the root, which is no array of tables.
  have other : name ≠ o.root := by
    rintro rfl
    rw [Outline.isTableArray_finish_root regular.lookup_root found] at isArray
    cases isArray
  rw [Outline.lookup_finish other] at found
  have below : name.isBelow o.root = true :=
    regular.contiguous.below name
      (KeySet.lookup_unordered_eq_none_iff.not.mpr (found ▸ Option.some_ne_none k))
  obtain ⟨marker, m, noted, reads, elements⟩ := regular.contiguous.exists_marker found isArray
  refine ⟨marker, m, noted, reads, fun j bound => ?_⟩
  have inside := Name.isBelow_trans (Name.isBelow_child name (ElementIndex.segment j)) below
  rw [Outline.lookup_finish (Name.ne_of_isBelow_of_isWithin inside o.root.isWithin_refl)]
  exact elements j bound

/-- An array that is left and resumed, with arrays inside of its elements, and one whose key a table
takes. -/
def resumedLines : List Line :=
  [.tableArray (.ofDotted "a") none, .tableArray (.ofDotted "a.b") none,
    .tableArray (.ofDotted "c") none, .tableArray (.ofDotted "a.b") none,
    .tableArray (.ofDotted "a") none, .tableArray (.ofDotted "a.b") none,
    .table (.ofDotted "c") none, .pair (.ofDotted "x") (.array []) none]

theorem resumedLines_spelled : Document.Spelled resumedLines :=
  ⟨by decide, by unfold Parts.Named Plain; decide, by decide⟩

theorem elements_contiguous_resumed :
    Document.Spelled resumedLines ∧ ({} : Options).maxArrayElements < ElementIndex.limit ∧
    ∃ keys k, parse {} (Document.events resumedLines) = .ok keys ∧
      keys.lookup (({} : Options).root.join ["a", "#0", "b"]) = some k ∧ k.isTableArray = true ∧
      ∃ marker m, k.arrayMarker = some marker ∧ ElementIndex.ofSegment marker = some m ∧
        ∀ j < ElementIndex.limit,
          (keys.lookup ((({} : Options).root.join ["a", "#0", "b"]).child
            (ElementIndex.segment j))).isSome = true ↔ j ≤ m := by
  have read : (parse {} (Document.events resumedLines)).toOption.bind (fun keys =>
      (keys.lookup (({} : Options).root.join ["a", "#0", "b"])).map Key.isTableArray) = some true := by
    decide
  obtain ⟨keys, parsed, present⟩ := Option.bind_eq_some_iff.mp read
  obtain ⟨k, found, isArray⟩ := Option.map_eq_some_iff.mp present
  have parsed : parse {} (Document.events resumedLines) = .ok keys := by
    cases result : parse {} (Document.events resumedLines) with
    | error fault => rw [result] at parsed; cases parsed
    | ok keys' => rw [result] at parsed; exact congrArg _ (Option.some.inj parsed)
  exact ⟨resumedLines_spelled, by decide, keys, k, parsed, found, isArray,
    elements_contiguous resumedLines_spelled {} (by decide) parsed found isArray⟩

end TomlSemantics
