import TomlSemantics.Proofs.DocumentRun
import TomlSemantics.Proofs.LineKeys

/-!
# Documents without arrays of tables

Such a document is read just if its parts are accepted and no name is given twice, and its keys are
those that can be read off its lines.

1. `Document.inventory`: the keys of lines below a table that is open.
2. `Document.Stores`: lines put their inventory into the set. `Document.outline_stores`: lines in
   every order, with values of every depth.
3. `parse_flat_iff`: which documents are read, and what is in the set.
-/

namespace TomlSemantics

/-! ## Lines -/

/-- A line that is no header of an array of tables, nor an event that no line has. -/
def Line.isFlat : Line → Bool
  | pair .. | table .. | comment _ | blank => true
  | tableArray .. | raw _ => false

namespace Document

/-- The parts of lines. -/
def parts : List Line → Parts
  | [] => {}
  | line :: rest => line.parts ++ parts rest

/-- What lines put into the set while a table is open, after a run. Arrays of tables are left
out. -/
def inventory (root : Name) : Name → List Remark → List Line → Inventory
  | _, _, [] => {}
  | scope, run, .pair key v c :: rest =>
      .ofLine (v.mark (lineKey (scope.join key.path) run c)) (v.inner (scope.join key.path))
        ++ inventory root scope [] rest
  | _, run, .table key c :: rest =>
      .ofLine (tableKey (root.join key.path) run c) {}
        ++ inventory root (root.join key.path) [] rest
  | scope, run, .comment text :: rest => inventory root scope (run ++ [.comment text]) rest
  | scope, run, .blank :: rest => inventory root scope (run ++ [.blank]) rest
  | scope, run, .tableArray .. :: rest | scope, run, .raw _ :: rest =>
      inventory root scope run rest

end Document

variable {o : Options}

namespace Document

/-- The inventory of lines sits below the root. -/
theorem inventory_sits (small : o.maxArrayElements < ElementIndex.limit) {lines : List Line}
    (flat : ∀ line ∈ lines, line.isFlat = true) (named : (parts lines).Named)
    (accepted : (parts lines).Accepted o) (scope : Name) (within : scope.isWithin o.root = true)
    (run : List Remark) :
    (inventory o.root scope run lines).Sits (fun n => n.isBelow o.root = true) fun _ => False := by
  induction lines generalizing scope run with
  | nil => exact .empty
  | cons line rest ih =>
    obtain ⟨flat₁, flat⟩ := List.forall_mem_cons.mp flat
    rw [parts, Parts.named_append_iff] at named
    rw [parts, Parts.accepted_append_iff] at accepted
    have rest := ih flat named.2 accepted.2
    cases line with
    | pair key v c =>
      exact (Line.pair_sits small run c named.1 within accepted.1).append_given (rest scope within [])
    | table key c =>
      exact (Line.table_sits run c named.1 accepted.1).append_given
        (rest _ (Name.isWithin_join o.root key.path) [])
    | comment text => exact rest scope within _
    | blank => exact rest scope within _
    | tableArray key c => cases flat₁
    | raw e => cases flat₁

theorem count_lineEvents {line : Line} (flat : line.isFlat = true) (before : Nat)
    (rest : List Line) :
    (lineEvents before (line :: rest)).count .blankLine =
      (line.events (before + 1)).count .blankLine +
        (lineEvents (before + 1) rest).count .blankLine := by
  cases line with
  | tableArray key c => cases flat
  | raw e => cases flat
  | _ => exact List.count_append

theorem count_pair_le (number : Nat) (key : KeyPath) (v : Value) (c : Option String) :
    (v.events number).count .blankLine ≤ ((Line.pair key v c).events number).count .blankLine := by
  simp only [Line.events, pairEvents, List.count_append]
  omega

/-- Lines put their inventory into the set, while a table is open and after a run, just if it fits
there. -/
def Stores (o : Options) (lines : List Line) (before : Nat) (scope : Name) (run : List Remark)
    (out : Outline) : Prop :=
  Decides ((queueOf run).blankLines + (lineEvents before lines).count .blankLine <
      CommentQueue.blankLineLimit)
    (Fits o out.sheet.keys.unordered (parts lines) (inventory o.root scope run lines).productions)
    (outline o lines out) fun out' => out'.sheet.keys.unordered =
      out.sheet.keys.unordered.appendAll (inventory o.root scope run lines).keys

section Stores

variable {line : Line} {rest : List Line} {before : Nat} {scope : Name} {run : List Remark}
  {out : Outline}

/-- A line that puts keys into the set, and the lines after it. -/
theorem Stores.cons {a : Inventory} {scope' : Name} {table : Option Name}
    (small : o.maxArrayElements < ElementIndex.limit) (flat : ∀ l ∈ line :: rest, l.isFlat = true)
    (named : (parts rest).Named) (within : scope'.isWithin o.root = true)
    (puts : inventory o.root scope run (line :: rest) = a ++ inventory o.root scope' [] rest)
    (sits : line.parts.Accepted o → a.Sits (fun n => n.isBelow o.root = true) fun _ => False)
    (first : Decides ((line.events (before + 1)).count .blankLine < CommentQueue.blankLineLimit)
      (Fits o out.sheet.keys.unordered line.parts a.productions) (line.assemble o out)
      fun out' => out'.Follows out table (out.sheet.keys.unordered.appendAll a.keys))
    (later : ∀ out', out'.Follows out table (out.sheet.keys.unordered.appendAll a.keys) →
      Stores o rest (before + 1) scope' [] out') :
    Stores o (line :: rest) before scope run out := by
  obtain ⟨flat₁, flat⟩ := List.forall_mem_cons.mp flat
  have fits := fits_append_iff out.sheet.keys.unordered sits
    (fun ok => inventory_sits small flat named ok scope' within [])
    fun p below => ⟨id, Name.ne_of_isBelow_of_isWithin below o.root.isWithin_refl⟩
  rw [Stores, parts, count_lineEvents flat₁, outline, puts]
  refine first.bind (fun few => by omega) (fun fit => (fits.mp fit).1) fun out' fit follows => ?_
  have later := later out' follows
  rw [Stores, follows.keys] at later
  refine (later.imp fun _ _ keys => ?_).scarce (fun few => ?_) |>.iff
    ⟨fun later => fits.mpr ⟨fit, later⟩, fun fit => (fits.mp fit).2⟩
  · rw [keys, Inventory.keys_append, KeySet.appendAll_append]
  · show 0 + _ < _
    omega

/-- A comment or a blank line, and the lines after it. -/
theorem Stores.comment {text : String} (comments : out.comments = queueOf run)
    (later : Stores o rest (before + 1) scope (run ++ [.comment text])
      { out with comments := queueOf (run ++ [.comment text]) }) :
    Stores o (.comment text :: rest) before scope run out := by
  rw [queueOf_concat] at later
  rw [Stores, parts, count_lineEvents rfl, outline, Line.assemble, comments]
  refine Decides.scarce later fun few => ?_
  rw [queueOf_concat]
  show 0 + _ < _
  omega

theorem Stores.blank (comments : out.comments = queueOf run)
    (later : Stores o rest (before + 1) scope (run ++ [.blank])
      { out with comments := queueOf (run ++ [.blank]) }) :
    Stores o (.blank :: rest) before scope run out := by
  have blankLines : (queueOf (run ++ [.blank])).blankLines = (queueOf run).blankLines + 1 := by
    rw [queueOf_concat]
    rfl
  have count : (Line.blank.events (before + 1)).count .blankLine = 1 := rfl
  rw [Stores, parts, count_lineEvents rfl, outline, Line.assemble, comments,
    CommentQueue.newline_eq, count]
  -- A blank line that cannot be counted is one too many.
  split
  · rw [queueOf_concat] at later
    exact Decides.scarce later fun few => by omega
  · exact fun few => by omega

end Stores

/-- Lines in every order, with values of every depth, put their inventory into the set, just if it
fits there. -/
theorem outline_stores (small : o.maxArrayElements < ElementIndex.limit) {lines : List Line}
    (flat : ∀ line ∈ lines, line.isFlat = true) (named : (parts lines).Named) (before : Nat)
    {out : Outline} {scope : Name} {run : List Remark} (scopes : out.scopes = [])
    (base : out.base o = .ok scope) (within : scope.isWithin o.root = true)
    (comments : out.comments = queueOf run) : Stores o lines before scope run out := by
  induction lines generalizing out scope run before with
  | nil => exact ⟨.empty o _, rfl⟩
  | cons line rest ih =>
    obtain ⟨flat₁, flat₂⟩ := List.forall_mem_cons.mp flat
    rw [parts, Parts.named_append_iff] at named
    cases line with
    | pair key v c =>
      have sits := Line.pair_sits small run c named.1 within
      have few := count_pair_le (before + 1) key v c
      have first := Line.assemblePair_decides small (before + 1) (c := c) named.1 comments base within
      rw [← Line.productions_pair key v scope run c] at first
      refine .cons small flat named.2 within rfl sits (first.scarce fun few => by omega)
        fun out' follows => ?_
      -- The table that is open stays open.
      have base' : out'.base o = .ok scope := by
        rw [Outline.base, follows.table, follows.scopes, ← Outline.base, base]
      exact ih flat₂ named.2 (before + 1) (follows.scopes.trans scopes) base' within follows.comments
    | table key c =>
      have within' := Name.isWithin_join o.root key.path
      -- Without arrays of tables a header counts from the root.
      have place : Scope.placeHeader o.root (o.root.join key.path) out.scopes =
          .ok (o.root.join key.path) := by
        rw [scopes]
        rfl
      refine .cons small flat named.2 within' rfl (Line.table_sits run c named.1)
        ((Line.assembleTable_decides _ comments place).iff Line.fits_table_iff.symm)
        fun out' follows => ?_
      have base' : out'.base o = .ok (o.root.join key.path) := by
        rw [Outline.base, follows.table]
      exact ih flat₂ named.2 (before + 1) (follows.scopes.trans scopes) base' within' follows.comments
    | comment text => exact .comment comments (ih flat₂ named.2 (before + 1) scopes base within rfl)
    | blank => exact .blank comments (ih flat₂ named.2 (before + 1) scopes base within rfl)
    | tableArray key c => cases flat₁
    | raw e => cases flat₁

end Document

/-! ## Documents -/

/-- The key without its number and its comments. -/
def Key.content (k : Key) : Key := { k with order := none, comments := {} }

/-- The keys without their numbers and comments. A key of the root that had nothing else is left
out. -/
def KeySet.contents (s : KeySet) (root : Name) : List Key :=
  (s.toList.map Key.content).filter fun k => k ≠ { name := root }

/-- A document without arrays of tables whose keys have names, no segment of which names an element
of an array, and with blank lines that can be counted. -/
structure Document.Flat (lines : List Line) : Prop where
  flat : ∀ line ∈ lines, line.isFlat = true
  named : (parts lines).Named
  few : (events lines).count .blankLine < CommentQueue.blankLineLimit

/-- A set that keys of different names were put into. -/
theorem KeySet.toList_unordered_perm {s : KeySet} {keys : List Key}
    (h : s.unordered = (∅ : KeySet).appendAll keys) (distinct : (keys.map Key.name).Nodup) :
    (s.toList.map Key.unordered).Perm keys := by
  rw [← toList_mapKeys, ← unordered, h]
  exact toList_appendAll_perm named_empty keys distinct fun _ _ => rfl

theorem KeySet.contents_perm {s : KeySet} {keys : List Key} {root : Name}
    (h : s.unordered = (∅ : KeySet).appendAll keys) (distinct : (keys.map Key.name).Nodup)
    (below : ∀ k ∈ keys, k.name ≠ root) : (s.contents root).Perm (keys.map Key.content) := by
  have same : s.toList.map Key.content = (s.toList.map Key.unordered).map Key.content := by
    rw [List.map_map]
    rfl
  have kept : (keys.map Key.content).filter (fun k => k ≠ { name := root }) =
      keys.map Key.content := by
    rw [List.filter_eq_self]
    intro content member
    obtain ⟨k, inside, rfl⟩ := List.mem_map.mp member
    exact decide_eq_true fun equal => below k inside (congrArg Key.name equal)
  rw [contents, same, ← kept]
  exact ((toList_unordered_perm h distinct).map _).filter _

/-- Comments for the root bring no contents. -/
theorem Outline.contents_finish {out : Outline} {keys : List Key}
    (h : out.sheet.keys.unordered = (∅ : KeySet).appendAll keys)
    (distinct : (keys.map Key.name).Nodup) (below : ∀ k ∈ keys, k.name ≠ o.root) :
    ((out.finish o).contents o.root).Perm (keys.map Key.content) := by
  have inner := KeySet.contents_perm h distinct below
  have named : out.sheet.keys.Named :=
    KeySet.named_of_unordered (h ▸ KeySet.named_empty.appendAll keys)
  have noRoot : out.sheet.keys.lookup o.root = none := by
    have none : out.sheet.keys.unordered.lookup o.root = none := by
      rw [h, KeySet.lookup_appendAll_eq_none_iff]
      refine ⟨rfl, fun member => ?_⟩
      obtain ⟨k, member, same⟩ := List.mem_map.mp member
      exact below k member same
    exact KeySet.lookup_unordered_eq_none_iff.mp none
  unfold Outline.finish
  split
  · exact inner
  · rw [noRoot, if_neg (by simp)]
    have listed := KeySet.toList_appendAll_perm named
      [({ name := o.root } : Key).addLeading out.comments.contents]
      (List.nodup_singleton _) (List.forall_mem_singleton.mpr noRoot)
    refine (((listed.map Key.content).filter _).trans ?_).trans inner
    rw [List.map_append, List.filter_append, KeySet.contents]
    simp [Key.content, Key.addLeading]

theorem Document.Flat.isNumbered {lines : List Line} (h : Document.Flat lines) :
    ∀ line ∈ lines, line.isNumbered = true := by
  intro line member
  have flat := h.flat line member
  cases line with
  | raw e => cases flat
  | _ => rfl

/-- Such a document can be assembled just if its parts are accepted and all names that it gives
differ. -/
theorem Document.Flat.assemble_decides {lines : List Line} (h : Document.Flat lines)
    (small : o.maxArrayElements < ElementIndex.limit) :
    let inventory := Document.inventory o.root o.root [] lines
    Decides True ((Document.parts lines).Accepted o ∧ inventory.productions.Nodup)
      (Document.assemble o lines)
      fun keys => (keys.contents o.root).Perm (inventory.keys.map Key.content) := by
  intro inventory
  have start : (Outline.start ∅).scopes = [] := rfl
  have empty : (Outline.start ∅).comments = queueOf [] := rfl
  have stores := Document.outline_stores small h.flat h.named 0 start rfl o.root.isWithin_refl empty
  -- In the empty set every name is free.
  have fits : Fits o (Outline.start ∅).sheet.keys.unordered (Document.parts lines)
      inventory.productions ↔ (Document.parts lines).Accepted o ∧ inventory.productions.Nodup :=
    ⟨fun fit => ⟨fit.accepted, fit.distinct⟩, fun fit => ⟨fit.1, fit.2, fun _ _ => rfl⟩⟩
  have few : (queueOf []).blankLines + (Document.lineEvents 0 lines).count .blankLine <
      CommentQueue.blankLineLimit := by
    have inner : (Document.lineEvents 0 lines).Sublist (Document.events lines) :=
      (List.sublist_append_left _ _).cons _
    exact Nat.lt_of_le_of_lt (Nat.zero_add _ ▸ inner.count_le _) h.few
  unfold Document.assemble
  refine Decides.bind stores (fun _ => few) fits.mpr fun out fit keys => ⟨fits.mp fit, ?_⟩
  have sits := Document.inventory_sits small h.flat h.named fit.accepted o.root
    o.root.isWithin_refl []
  exact Outline.contents_finish keys (sits.distinct fit.distinct) fun k member =>
    Name.ne_of_isBelow_of_isWithin (sits.inside k member) o.root.isWithin_refl

/-- A document without arrays of tables is read just if its parts are accepted and all names that it
gives differ. Then what is in the set, but for numbers and comments, is its inventory. -/
theorem parse_flat_iff {lines : List Line} (h : Document.Flat lines) (o : Options)
    (small : o.maxArrayElements < ElementIndex.limit) :
    let inventory := Document.inventory o.root o.root [] lines
    ((∃ keys, parse o (Document.events lines) = .ok keys) ↔
      (Document.parts lines).Accepted o ∧ inventory.productions.Nodup) ∧
    ∀ keys, parse o (Document.events lines) = .ok keys →
      (keys.contents o.root).Perm (inventory.keys.map Key.content) := by
  intro inventory
  have decides := h.assemble_decides small
  simp only [parse_eq_ok_iff h.isNumbered]
  cases assembled : Document.assemble o lines with
  | error cause =>
    rw [assembled] at decides
    refine ⟨iff_of_false ?_ (decides trivial), nofun⟩
    rintro ⟨keys, ⟨⟩⟩
  | ok keys =>
    rw [assembled] at decides
    refine ⟨iff_of_true ⟨keys, rfl⟩ decides.1, fun found same => ?_⟩
    cases same
    exact decides.2

/-- A table with an array in which an inline table holds another array. -/
def nestedLines : List Line :=
  [.comment "first",
    .table (.ofDotted "t") none,
    .pair (.ofDotted "a.b")
      (.array [.comment "one", .value (.scalar (.verbatim .decimal "1")), .blankLine,
        .value (.inlineTable [(.ofDotted "x", .array [.value (.array [])])])])
      (some "last")]

theorem nestedLines_flat : Document.Flat nestedLines :=
  ⟨by decide, by unfold Parts.Named Plain; decide, by decide⟩

theorem parse_flat_iff_nested :
    Document.Flat nestedLines ∧ ({} : Options).maxArrayElements < ElementIndex.limit ∧
    (Document.parts nestedLines).Accepted {} ∧
    ∃ keys, parse {} (Document.events nestedLines) = .ok keys ∧
      (keys.contents ({} : Options).root).Perm
        ((Document.inventory ({} : Options).root ({} : Options).root [] nestedLines).keys.map
          Key.content) := by
  have flat := parse_flat_iff nestedLines_flat {} (by decide)
  have read : (parse {} (Document.events nestedLines)).toBool = true := by decide
  cases parsed : parse {} (Document.events nestedLines) with
  | ok keys =>
    exact ⟨nestedLines_flat, by decide, (flat.1.mp ⟨keys, parsed⟩).1, keys, rfl,
      flat.2 keys parsed⟩
  | error fault =>
    rw [parsed] at read
    cases read

end TomlSemantics
