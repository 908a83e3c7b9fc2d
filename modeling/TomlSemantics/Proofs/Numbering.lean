import TomlSemantics.Proofs.Contiguous
import TomlSemantics.Proofs.Numbers
import TomlSemantics.Proofs.Placement

/-!
# The numbers of a document

The keys of pairs and tables and those of arrays of tables are numbered in the order in which the
document gives their names, without a gap, an array where its first header stands. Nothing else has
a number.

1. `Document.numbered`: the names that lines give, in their order.
2. `Outline.Numbered`: what is known between lines. `Numbered.assemble`: every line keeps it.
3. `KeySet.Numbers.byOrder_eq`: the keys of a set in the order of their numbers.
4. `keys_numbered`: the numbers of the keys of a document.
-/

namespace TomlSemantics

variable {o : Options} {ends : String → Prop} {count : Nat} {run : List Remark}
  {placed : List (Name × Comments)} {names : List Name} {out out' : Outline}

/-! ## Names in the order of a document -/

/-- The names that a line gives to keys that are numbered, with the key that is open after it and
the names so far. An array of tables is only numbered once. -/
def Line.numbered (scope : Name) (sofar : List Name) : Line → List Name
  | pair key v _ => (pairBelow (key, v) scope).productions
  | table _ _ => [scope]
  | tableArray _ _ =>
      let array := scope.parent.getD {}
      if array ∈ sofar then [] else [array]
  | comment _ | blank | raw _ => []

/-- The names so far with those that lines give to keys that are numbered, from a state on. -/
def Document.numbered (o : Options) : State → Nat → List Name → List Line → List Name
  | _, _, sofar, [] => sofar
  | s, before, sofar, line :: rest =>
      let s' := s.feedAll o (line.events (before + 1))
      numbered o s' (before + 1) (sofar ++ line.numbered (s'.site o line) sofar) rest

/-! ## Between lines -/

/-- What is known between lines: the names so far differ, all have keys, and these are numbered. -/
structure Outline.Numbered (names : List Name) (out : Outline) : Prop where
  numbers : out.sheet.Numbers names
  distinct : names.Nodup
  present : ∀ n ∈ names, out.sheet.keys.lookup n ≠ none
  plain : ∀ n ∈ names, n.stem = n

namespace Outline.Numbered

theorem start : (Outline.start ∅).Numbered [] where
  numbers := ⟨rfl, KeySet.named_empty, nofun⟩
  distinct := .nil
  present := nofun
  plain := nofun

/-- A name without segments of elements has a key just if it was given. -/
theorem mem_iff (h : out.Numbered names) {n : Name} (plain : n.stem = n) :
    n ∈ names ↔ (out.sheet.keys.lookup n).isSome = true := by
  rw [Option.isSome_iff_ne_none]
  refine ⟨h.present n, fun present => ?_⟩
  obtain ⟨k, found⟩ := Option.ne_none_iff_exists'.mp present
  have numbered := h.numbers.numbered n k found
  have name := h.numbers.named n k found
  cases order : k.order with
  | none => exact absurd (name ▸ plain) (numbered.element order)
  | some i => exact name ▸ List.mem_of_getElem? (numbered.number i order)

/-- New keys with names that the document gives. -/
theorem adds (h : out.Numbered names) {a : Inventory} {table : Option Name}
    (adds : out'.Adds o out table a)
    (fresh : ∀ k ∈ a.keys, out.sheet.keys.unordered.lookup k.name = none)
    (numbers : out'.sheet.Numbers (names ++ a.productions)) :
    out'.Numbered (names ++ a.productions) := by
  have found (n : Name) : out'.sheet.keys.lookup n = none ↔
      out.sheet.keys.lookup n = none ∧ n ∉ a.keys.map Key.name := by
    rw [← KeySet.lookup_unordered_eq_none_iff, adds.follows.keys,
      KeySet.lookup_appendAll_eq_none_iff, KeySet.lookup_unordered_eq_none_iff]
  refine ⟨numbers, List.nodup_append.mpr ⟨h.distinct, adds.distinct, ?_⟩,
    List.forall_mem_append.mpr ⟨fun n old none => ?_, fun n given none => ?_⟩,
    List.forall_mem_append.mpr ⟨h.plain, adds.sits.plain⟩⟩
  · rintro n old p given rfl
    obtain ⟨k, inside, rfl⟩ := List.mem_map.mp (adds.sits.given n given)
    exact h.present k.name old (KeySet.lookup_unordered_eq_none_iff.mp (fresh k inside))
  · exact h.present n old ((found n).mp none).1
  · exact ((found n).mp none).2 (adds.sits.given n given)

/-- The next element of an array of tables. -/
theorem heads (h : out.Numbered names) {name array : Name} {c : Option String} {index : Nat}
    {outer : List Scope} (heads : out'.Heads o out name run c index outer array)
    (plain : array.stem = array)
    (numbers : out'.sheet.Numbers
      (if (out.sheet.keys.lookup array).isSome then names else names ++ [array])) :
    out'.Numbered (names ++ if array ∈ names then [] else [array]) := by
  have found (n : Name) : out'.sheet.keys.lookup n ≠ none ↔
      n = array.child (ElementIndex.segment index) ∨ n = array ∨
        out.sheet.keys.lookup n ≠ none := by
    rw [ne_eq, ← KeySet.lookup_unordered_eq_none_iff, heads.keys, ← ne_eq,
      KeySet.lookup_element_ne_none_iff, ne_eq, KeySet.lookup_unordered_eq_none_iff]
    rfl
  have kept : ∀ n ∈ names, out'.sheet.keys.lookup n ≠ none := fun n old =>
    (found n).mpr (.inr (.inr (h.present n old)))
  by_cases old : array ∈ names
  · rw [if_pos ((h.mem_iff plain).mp old)] at numbers
    rw [if_pos old, List.append_nil]
    exact ⟨numbers, h.distinct, kept, h.plain⟩
  · rw [if_neg fun present => old ((h.mem_iff plain).mpr present)] at numbers
    rw [if_neg old]
    refine ⟨numbers, List.nodup_append.mpr ⟨h.distinct, List.nodup_singleton _, ?_⟩,
      List.forall_mem_append.mpr ⟨kept, List.forall_mem_singleton.mpr ?_⟩,
      List.forall_mem_append.mpr ⟨h.plain, List.forall_mem_singleton.mpr plain⟩⟩
    · rintro n before _ same rfl
      rw [List.mem_singleton.mp same] at before
      exact old before
    · exact (found array).mpr (.inr (.inl rfl))

/-- Every line keeps what is known, and numbers the keys whose names it gives. -/
theorem assemble (h : out.Numbered names) (between : out.Placed o ends count run placed)
    (few : count < ElementIndex.limit) (small : o.maxArrayElements < ElementIndex.limit)
    {line : Line} (numbered : line.isNumbered = true) (named : line.parts.Named)
    (heads : ∀ key ∈ line.headerKeys, ∀ s, key.path.getLast? = some s → ends s)
    (apart : ∀ key ∈ line.otherKeys, ∀ s, key.path.getLast? = some s → ¬ ends s)
    (ok : line.assemble o out = .ok out') {scope : Name} (site : out'.site o line = .ok scope) :
    out'.Numbered (names ++ line.numbered scope names) := by
  cases line with
  | pair key v c =>
    obtain ⟨scope', base, base', adds, apart⟩ := between.pair_adds small named apart ok
    obtain rfl := Except.ok.inj (site.symm.trans base')
    have numbers := Line.assemblePair_numbers small h.numbers base ok
    rw [← Line.productions_pair key v scope run c] at apart numbers
    have fresh := (between.recorded.appendAll (Nat.le_of_lt few) adds.sits adds.free apart).1
    rw [Line.numbered, ← Line.productions_pair key v scope run c]
    exact h.adds adds fresh numbers
  | table key c =>
    obtain ⟨scope', base, -, adds, apart⟩ := between.tableHeader_adds named apart ok
    obtain rfl := Except.ok.inj (site.symm.trans base)
    have fresh := (between.recorded.appendAll (Nat.le_of_lt few) adds.sits adds.free
      (List.forall_mem_singleton.mpr apart)).1
    obtain ⟨name, table, numbers⟩ := Line.assembleTable_numbers h.numbers ok
    obtain rfl := Option.some.inj (adds.follows.table.symm.trans table)
    exact h.adds adds fresh numbers
  | tableArray key c =>
    obtain ⟨index, outer, array, entered, opened⟩ :=
      between.arrayHeader_heads named (heads key (List.mem_singleton.mpr rfl)) ok
    have le := entered.index_le fun m noted => (between.recorded.last noted).2.2
    have element : Scope.element o.root out'.scopes =
        .ok (array.child (ElementIndex.segment index)) := by
      rw [opened.scopes]
      exact entered.element_eq
    obtain rfl := Except.ok.inj (element.symm.trans site)
    have numbers := Line.assembleTableArray_numbers h.numbers ok element (by omega)
    rw [Line.numbered, Name.parent_child]
    exact h.heads opened entered.array_spec.1 numbers
  | comment text =>
    cases ok
    rw [Line.numbered, List.append_nil]
    exact { h with }
  | blank =>
    obtain ⟨comments, -, ok⟩ := exists_of_bind_eq_ok ok
    cases ok
    rw [Line.numbered, List.append_nil]
    exact { h with }
  | raw e => cases numbered

end Outline.Numbered

/-! ## Sets -/

/-- The keys of a set have the numbers that their names have in a list, and keys with other names
have none. All names in the list have keys, and none is that of an element. -/
structure KeySet.Numbers (names : List Name) (s : KeySet) : Prop where
  named : s.Named
  distinct : names.Nodup
  present : ∀ n ∈ names, s.lookup n ≠ none
  plain : ∀ n ∈ names, n.stem = n
  order_iff : ∀ n k, s.lookup n = some k → ∀ i, k.order = some i ↔ names[i]? = some n

namespace KeySet.Numbers

variable {s : KeySet}

/-- A new key without a number. -/
theorem append (h : s.Numbers names) {k : Key} (fresh : s.lookup k.name = none)
    (order : k.order = none) : (s.append k).Numbers names where
  named := h.named.append k
  distinct := h.distinct
  present n given none := by
    rw [lookup_append] at none
    split at none
    · cases none
    · exact h.present n given none
  plain := h.plain
  order_iff n l found i := by
    rw [lookup_append] at found
    split at found
    · next same =>
      cases found
      rw [order, ← same]
      exact iff_of_false nofun fun given => h.present _ (List.mem_of_getElem? given) fresh
    · exact h.order_iff n l found i

/-- Elements have no numbers. -/
theorem order_element (h : s.Numbers names) {array : Name} {index : Nat} {k : Key}
    (bound : index < ElementIndex.limit)
    (found : s.lookup (array.child (ElementIndex.segment index)) = some k) : k.order = none := by
  cases order : k.order with
  | none => rfl
  | some i =>
    have given := List.mem_of_getElem? ((h.order_iff _ k found i).mp order)
    have stem := h.plain _ given
    rw [Name.stem_child_segment array bound] at stem
    exact absurd stem.symm (Name.ne_stem_of_isBelow (Name.isBelow_child array _))

theorem mem_byOrder_iff (h : s.Numbers names) {i : Nat} {k : Key} :
    (i, k) ∈ s.byOrder ↔ s.lookup k.name = some k ∧ names[i]? = some k.name := by
  rw [KeySet.byOrder, List.mem_mergeSort, List.mem_filterMap]
  constructor
  · rintro ⟨l, member, same⟩
    obtain ⟨j, order, same⟩ := Option.map_eq_some_iff.mp same
    cases same
    have found := (mem_toList_iff h.named).mp member
    exact ⟨found, (h.order_iff _ k found i).mp order⟩
  · rintro ⟨found, given⟩
    refine ⟨k, (mem_toList_iff h.named).mpr found, ?_⟩
    rw [(h.order_iff _ k found i).mpr given]
    rfl

/-- The numbers are those of the names in the list, without a gap. -/
theorem numbers_byOrder (h : s.Numbers names) :
    s.byOrder.map (·.1) = List.range names.length := by
  have sorted : (s.byOrder.map (·.1)).Pairwise (· ≤ ·) := by
    rw [List.pairwise_map]
    exact (List.pairwise_mergeSort (by simpa using fun _ _ _ _ _ _ => Nat.le_trans)
      (by simpa using fun _ _ _ _ => Nat.le_total _ _) _).imp (by simp)
  have listed : s.byOrder.Nodup := by
    refine (List.mergeSort_perm _ _).nodup_iff.mpr ?_
    refine ((nodup_names h.named).of_map _).filterMap fun k l e inside inside' => ?_
    obtain ⟨i, -, rfl⟩ := Option.map_eq_some_iff.mp inside
    obtain ⟨j, -, same⟩ := Option.map_eq_some_iff.mp inside'
    exact (Prod.mk.inj same).2.symm
  have distinct : (s.byOrder.map (·.1)).Nodup := by
    refine listed.map_on ?_
    rintro ⟨i, k⟩ first ⟨j, l⟩ second rfl
    obtain ⟨found, given⟩ := h.mem_byOrder_iff.mp first
    obtain ⟨found', given'⟩ := h.mem_byOrder_iff.mp second
    have name : k.name = l.name := Option.some.inj (given.symm.trans given')
    rw [name, found'] at found
    cases found
    rfl
  have members (i : Nat) : i ∈ s.byOrder.map (·.1) ↔ i ∈ List.range names.length := by
    rw [List.mem_map, List.mem_range]
    constructor
    · rintro ⟨⟨j, k⟩, member, rfl⟩
      exact (List.getElem?_eq_some_iff.mp (h.mem_byOrder_iff.mp member).2).1
    · intro less
      have given := List.getElem?_eq_getElem less
      obtain ⟨k, found⟩ := Option.ne_none_iff_exists'.mp
        (h.present _ (List.mem_of_getElem? given))
      have name := h.named _ k found
      rw [← name] at found given
      exact ⟨(i, k), h.mem_byOrder_iff.mpr ⟨found, given⟩, rfl⟩
  exact List.Perm.eq_of_pairwise (fun _ _ _ _ => Nat.le_antisymm) sorted
    List.pairwise_le_range
    ((List.perm_ext_iff_of_nodup distinct List.nodup_range).mpr members)

/-- In the order of their numbers the keys have the names of the list. -/
theorem names_byOrder (h : s.Numbers names) : s.byOrder.map (·.2.name) = names := by
  refine List.ext_getElem? fun i => ?_
  have number := congrArg (·[i]?) h.numbers_byOrder
  simp only [List.getElem?_map] at number ⊢
  cases at_ : s.byOrder[i]? with
  | none =>
    rw [at_] at number
    have beyond : names.length ≤ i := by simpa using number.symm
    exact (List.getElem?_eq_none beyond).symm
  | some e =>
    obtain ⟨j, k⟩ := e
    rw [at_] at number
    obtain ⟨_, same⟩ := List.getElem?_eq_some_iff.mp number.symm
    obtain rfl : i = j := by rwa [List.getElem_range] at same
    exact (h.mem_byOrder_iff.mp (List.mem_of_getElem? at_)).2.symm

end KeySet.Numbers

/-! ## Documents -/

namespace Outline.Numbered

/-- Between lines the keys have the numbers of the names so far. -/
theorem keys (h : out.Numbered names) : out.sheet.keys.Numbers names where
  named := h.numbers.named
  distinct := h.distinct
  present := h.present
  plain := h.plain
  order_iff n k found i := by
    have numbered := h.numbers.numbered n k found
    obtain rfl := h.numbers.named n k found
    refine ⟨numbered.number i, fun given => ?_⟩
    cases order : k.order with
    | none => exact absurd (h.plain _ (List.mem_of_getElem? given)) (numbered.element order)
    | some j =>
      have same := (numbered.number j order).trans given.symm
      have less := (List.getElem?_eq_some_iff.mp given).1
      rw [(List.getElem?_inj less h.distinct).mp same.symm]

/-- What waits in the end has no number. -/
theorem finish (h : out.Numbered names) (noRoot : out.sheet.keys.lookup o.root = none) :
    (out.finish o).Numbers names := by
  unfold Outline.finish
  split
  · exact h.keys
  · rw [noRoot, if_neg (by simp)]
    exact h.keys.append noRoot rfl

end Outline.Numbered

/-- Lines number the keys whose names they give, from every state between lines on. -/
theorem Document.numbers_numbered (small : o.maxArrayElements < ElementIndex.limit)
    {lines : List Line} (numbered : ∀ line ∈ lines, line.isNumbered = true)
    (named : ∀ line ∈ lines, line.parts.Named)
    (heads : ∀ key ∈ lines.flatMap Line.headerKeys, ∀ s, key.path.getLast? = some s → ends s)
    (apart : ∀ key ∈ lines.flatMap Line.otherKeys, ∀ s, key.path.getLast? = some s → ¬ ends s)
    {s : State} (before : Nat) {final : Outline} (left : out.Left o s) (none : s.fault = none)
    (between : out.Placed o ends count run placed) (h : out.Numbered names)
    (few : count + lines.length < ElementIndex.limit) (ok : outline o lines out = .ok final) :
    (final.finish o).Numbers (Document.numbered o s before names lines) := by
  induction lines generalizing out s run placed count names before with
  | nil =>
    cases ok
    exact h.finish between.lookup_root
  | cons line rest ih =>
    rw [List.flatMap_cons, List.forall_mem_append] at heads apart
    obtain ⟨numbered₁, numbered⟩ := List.forall_mem_cons.mp numbered
    obtain ⟨named₁, named⟩ := List.forall_mem_cons.mp named
    rw [List.length_cons] at few
    obtain ⟨out', assembled, ok⟩ := exists_of_outline_cons ok
    obtain ⟨scope, site, between'⟩ :=
      between.assemble (by omega) small numbered₁ named₁ heads.1 apart.1 assembled
    have h' := h.assemble between (by omega) small numbered₁ named₁ heads.1 apart.1 assembled site
    obtain ⟨left', none'⟩ := left.feed_line none numbered₁ assembled (before + 1)
    rw [Document.numbered, left'.site_eq site]
    exact ih numbered named heads.2 apart.2 (before + 1) left' none' between' h' (by omega) ok

/-- The keys of a document that is read are numbered in the order in which it gives their names:
those of pairs, also inside of inline tables, those of tables, and those of arrays of tables, an
array where its first header stands. That is also how they are listed by number. Elements have no
numbers, nor have other keys. -/
theorem keys_numbered {lines : List Line} (h : Document.Separate lines) (o : Options)
    (small : o.maxArrayElements < ElementIndex.limit) {keys : KeySet}
    (parsed : parse o (Document.events lines) = .ok keys) :
    let names := Document.numbered o ((State.start o ∅).feedAll o [.documentStart]) 0 [] lines
    keys.Numbers names ∧
    keys.byOrder.map (·.1) = List.range names.length ∧
    keys.byOrder.map (·.2.name) = names ∧
    ∀ (array : Name) (index : Nat) (k : Key), index < ElementIndex.limit →
      keys.lookup (array.child (ElementIndex.segment index)) = some k → k.order = none := by
  intro names
  obtain ⟨final, outlined, finished⟩ :=
    exists_of_bind_eq_ok ((parse_eq_ok_iff h.numbered o).mp parsed)
  obtain rfl := Except.ok.inj finished
  obtain ⟨left, none⟩ := Outline.start_left o ∅
  let ends (s : String) := ∃ key ∈ lines.flatMap Line.headerKeys, key.path.getLast? = some s
  have numbers : (final.finish o).Numbers names := by
    refine Document.numbers_numbered small h.numbered h.named (fun key member s last => ?_)
      (fun key member s last => ?_) 0 left none (.start o ends 0) .start
      (by have := h.few; omega) outlined
    · exact ⟨key, member, last⟩
    · rintro ⟨header, inside, same⟩
      exact h.apart header inside key member (same.trans last.symm)
  exact ⟨numbers, numbers.numbers_byOrder, numbers.names_byOrder,
    fun _ _ _ bound found => numbers.order_element bound found⟩

/-- Inline tables inside of each other, and arrays of tables that are left and resumed. -/
def numberedLines : List Line :=
  [.pair (.ofDotted "p") (.inlineTable [(.ofDotted "x", .scalar (.verbatim .decimal "1")),
      (.ofDotted "y.z", .array [.value (.inlineTable [(.ofDotted "w", .array [])])])]) none,
    .tableArray (.ofDotted "a") none, .tableArray (.ofDotted "a.b") none,
    .pair (.ofDotted "k") (.scalar (.verbatim .boolean "true")) (some "in b"),
    .tableArray (.ofDotted "c") none, .tableArray (.ofDotted "a.b") none,
    .table (.ofDotted "t") none, .tableArray (.ofDotted "a") none,
    .tableArray (.ofDotted "a.b") none, .comment "end"]

theorem numberedLines_separate : Document.Separate numberedLines :=
  ⟨by decide, by unfold Parts.Named Plain; decide, by decide, by decide⟩

theorem keys_numbered_resumed :
    Document.Separate numberedLines ∧ ({} : Options).maxArrayElements < ElementIndex.limit ∧
    ∃ keys, parse {} (Document.events numberedLines) = .ok keys ∧
      keys.byOrder.map (·.1) = List.range 10 ∧
      keys.byOrder.map (·.2.name.segments) =
        [["user:", "p"], ["user:", "p", "x"], ["user:", "p", "y", "z"],
          ["user:", "p", "y", "z", "#0", "w"], ["user:", "a"], ["user:", "a", "#0", "b"],
          ["user:", "a", "#0", "b", "#0", "k"], ["user:", "c"], ["user:", "t"],
          ["user:", "a", "#1", "b"]] := by
  refine ⟨numberedLines_separate, by decide, ?_⟩
  cases parsed : parse {} (Document.events numberedLines) with
  | error fault =>
    have read : (parse {} (Document.events numberedLines)).toBool = true := by decide
    rw [parsed] at read
    cases read
  | ok keys =>
    obtain ⟨-, numbers, names, -⟩ := keys_numbered numberedLines_separate {} (by decide) parsed
    refine ⟨keys, rfl, numbers.trans (by decide), ?_⟩
    rw [← Function.comp_def Name.segments, ← List.map_map, names]
    decide

end TomlSemantics
