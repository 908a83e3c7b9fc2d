import TomlSemantics.Proofs.DocumentRun
import TomlSemantics.Proofs.HeaderKeys

/-!
# Where comments go

Every comment of a document that is read goes to one place: before a key or on its line, around an
element of an array, after the last one, or before the key of the root. No key loses the comments
that it got.

1. `Line.placedAt`: the keys that a line gives comments to, and `Document.placements` for all lines.
2. `Outline.Placed`: what is known between lines. `Outline.Placed.assemble`: every line keeps it.
3. `comments_placed`: the comments in the set are those of the lines.
-/

namespace TomlSemantics

/-! ## Comments of a set -/

/-- The comments of a key, with its name. -/
def Key.remark (k : Key) : Name × Comments := (k.name, k.comments)

/-- The names that have comments at all. -/
def commented (placed : List (Name × Comments)) : List (Name × Comments) :=
  placed.filter fun e => !e.2.isEmpty

/-- The comments of a set, with the names of their keys. -/
def KeySet.remarks (s : KeySet) : List (Name × Comments) := commented (s.toList.map Key.remark)

theorem commented_append (first later : List (Name × Comments)) :
    commented (first ++ later) = commented first ++ commented later :=
  List.filter_append ..

namespace KeySet

variable {s : KeySet} {keys : List Key}

theorem remarks_unordered (s : KeySet) : s.unordered.remarks = s.remarks := by
  rw [remarks, unordered, toList_mapKeys, List.map_map]
  rfl

/-- New keys bring their comments. -/
theorem remarks_appendAll_perm (named : s.Named) (keys : List Key) (distinct : (keys.map Key.name).Nodup)
    (fresh : ∀ k ∈ keys, s.lookup k.name = none) :
    (s.appendAll keys).remarks.Perm (s.remarks ++ commented (keys.map Key.remark)) := by
  rw [remarks, remarks, ← commented_append, ← List.map_append]
  exact ((toList_appendAll_perm named keys distinct fresh).map _).filter _

/-- Noting an element brings no comments. -/
theorem remarks_noteElement_perm (named : s.Named) (array : Name) (index : Nat) :
    (s.noteElement array index).remarks.Perm s.remarks := by
  unfold noteElement
  split
  · rw [remarks, toList_adjust s array (f := (·.markLastElement index)) Key.remark fun _ => rfl,
      ← remarks]
  · next absent =>
    have fresh : s.lookup array = none := by simpa using absent
    refine (remarks_appendAll_perm named [_] (List.nodup_singleton _)
      (List.forall_mem_singleton.mpr fresh)).trans ?_
    rw [show commented (List.map Key.remark [_]) = [] from rfl, List.append_nil]

theorem Named.noteElement (h : s.Named) (array : Name) (index : Nat) :
    (s.noteElement array index).Named := by
  unfold KeySet.noteElement
  split
  · exact h.adjust array fun _ => rfl
  · exact h.append _

end KeySet

/-! ## Comments of lines -/

namespace Line

/-- The keys that a line gives comments to, or could, when a key is open after it. -/
def placedAt (scope : Name) (run : List Remark) : Line → List (Name × Comments)
  | pair key v c =>
      let name := scope.join key.path
      (v.mark (lineKey name run c) :: (v.inner name).keys).map Key.remark
  | table _ c | tableArray _ c => [(lineKey scope run c).remark]
  | comment _ | blank | raw _ => []

/-- The run of comments and blank lines after a line. -/
def runAfter (run : List Remark) : Line → List Remark
  | comment text => run ++ [.comment text]
  | blank => run ++ [.blank]
  | raw _ => run
  | pair .. | table .. | tableArray .. => []

/-- The keys of headers of arrays of tables. -/
def headerKeys : Line → List KeyPath
  | tableArray key _ => [key]
  | _ => []

/-- All other keys, also inside of values. -/
def otherKeys : Line → List KeyPath
  | tableArray .. => []
  | line => line.parts.keyPaths

end Line

/-- The key that is open after a line: the element that a header of an array of tables opened, or
the innermost key. -/
def Outline.site (o : Options) (out : Outline) : Line → Except Cause Name
  | .tableArray .. => Scope.element o.root out.scopes
  | _ => out.base o

/-- What is known between lines: the keys can be told by their names, the open arrays are at their
last elements, and the comments so far are in their places. -/
structure Outline.Placed (o : Options) (ends : String → Prop) (count : Nat) (run : List Remark)
    (placed : List (Name × Comments)) (out : Outline) : Prop where
  recorded : Recorded o.root ends count out.sheet.keys.unordered
  tracked : Scope.Tracked ends (Scope.lastElement out.sheet.keys.unordered) o.root out.scopes
  table : ∀ name, out.table = some name → name.isWithin o.root = true
  comments : out.comments = queueOf run
  named : out.sheet.keys.unordered.Named
  remarks : out.sheet.keys.unordered.remarks.Perm (commented placed)

variable {o : Options} {ends : String → Prop} {count : Nat} {run : List Remark}
  {placed : List (Name × Comments)} {out out' : Outline}

namespace Outline.Placed

theorem base_eq (h : out.Placed o ends count run placed) :
    ∃ scope, out.base o = .ok scope ∧ scope.isWithin o.root = true :=
  Outline.base_within h.tracked.nested h.table

/-- The root has no key between lines. -/
theorem lookup_root (h : out.Placed o ends count run placed) :
    out.sheet.keys.lookup o.root = none := by
  by_contra present
  obtain ⟨k, found⟩ := Option.ne_none_iff_exists'.mp
    (KeySet.lookup_unordered_eq_none_iff.not.mpr present)
  exact Name.isBelow_irrefl o.root (h.recorded.below o.root k found)

/-- Keys that are new and belong to names that are free, with their comments. -/
theorem appendAll (h : out.Placed o ends count run placed) (few : count ≤ ElementIndex.limit)
    {a : Inventory} {table : Option Name} (adds : out'.Adds o out table a)
    (apart : ∀ p ∈ a.productions, ¬ p.EndsIn ends)
    (within : ∀ name, table = some name → name.isWithin o.root = true) :
    out'.Placed o ends (count + 1) [] (placed ++ a.keys.map Key.remark) := by
  obtain ⟨sits, distinct, free, follows⟩ := adds
  obtain ⟨fresh, recorded⟩ := h.recorded.appendAll few sits free apart
  have same := Scope.lastElement_appendAll fresh sits.noTableArray
  refine ⟨?_, ?_, ?_, follows.comments, ?_, ?_⟩
  · rw [follows.keys]
    exact recorded.mono (Nat.le_succ count)
  · rw [follows.keys, same, follows.scopes]
    exact h.tracked
  · rw [follows.table]
    exact within
  · rw [follows.keys]
    exact h.named.appendAll _
  · rw [follows.keys, commented_append]
    exact (KeySet.remarks_appendAll_perm h.named _ (sits.distinct distinct) fresh).trans
      (h.remarks.append_right _)

/-- A name that ends as a key does that is no header of an array of tables. -/
theorem not_endsIn {key : KeyPath} {n : Name} (nonempty : key.path ≠ [])
    (apart : ∀ s, key.path.getLast? = some s → ¬ ends s) : ¬ (n.join key.path).EndsIn ends := by
  rintro ⟨s, base, ends_⟩
  rw [Name.base_join n nonempty] at base
  exact apart s base ends_

/-- Nothing is known at the start, and nothing has to be. -/
theorem start (o : Options) (ends : String → Prop) (count : Nat) :
    (Outline.start ∅).Placed o ends count [] [] where
  recorded := .empty o.root ends count
  tracked := Scope.tracked_nil
  table _ none := by cases none
  comments := rfl
  named := KeySet.named_empty
  remarks := .refl _

/-- The keys between lines, with nothing open. -/
theorem restart (h : out.Placed o ends count [] placed) :
    (Outline.start out.sheet.keys).Placed o ends count [] placed :=
  { h with
    tracked := Scope.tracked_nil
    table := fun _ none => by cases none
    comments := rfl }

/-- A pair that is read puts its inventory below the innermost key, under names that do not end as
those of arrays do. -/
theorem pair_adds (h : out.Placed o ends count run placed)
    (small : o.maxArrayElements < ElementIndex.limit) {key : KeyPath} {v : Value}
    {c : Option String} (named : (Line.pair key v c).parts.Named)
    (apart : ∀ key' ∈ (Line.pair key v c).otherKeys, ∀ s, key'.path.getLast? = some s → ¬ ends s)
    (ok : (Line.pair key v c).assemble o out = .ok out') :
    ∃ scope, out.base o = .ok scope ∧ out'.base o = .ok scope ∧
      out'.Adds o out out.table (.ofLine (v.mark (lineKey (scope.join key.path) run c))
        (v.inner (scope.join key.path))) ∧
      ∀ p ∈ (pairBelow (key, v) scope).productions, ¬ p.EndsIn ends := by
  obtain ⟨scope, base, within⟩ := h.base_eq
  obtain ⟨accepted, adds⟩ := Line.assemblePair_adds small named h.comments base within ok
  refine ⟨scope, base, ?_, adds, fun p given => ?_⟩
  · rw [Outline.base, adds.follows.table, adds.follows.scopes, ← Outline.base, base]
  · obtain ⟨key', inside, table, rfl⟩ := pairBelow_spelled (key, v) scope p given
    have nonempty := KeyPath.path_ne_nil (accepted.keys key' inside) (named key' inside).1
    exact not_endsIn nonempty (apart key' inside)

/-- The header of a table that is read puts its key below the root, under a name that does not end
as those of arrays do. -/
theorem tableHeader_adds (h : out.Placed o ends count run placed) {key : KeyPath}
    {c : Option String} (named : (Line.table key c).parts.Named)
    (apart : ∀ key' ∈ (Line.table key c).otherKeys, ∀ s, key'.path.getLast? = some s → ¬ ends s)
    (ok : (Line.table key c).assemble o out = .ok out') :
    ∃ scope, out'.base o = .ok scope ∧ scope.isWithin o.root = true ∧
      out'.Adds o out (some scope) (.ofLine (tableKey scope run c) {}) ∧
      ¬ scope.EndsIn ends := by
  obtain ⟨accepted, name, place, adds⟩ :=
    Line.assembleTable_adds h.tracked.nested named h.comments ok
  have nonempty := (named key (List.mem_singleton.mpr rfl)).1
  -- The rest of the path ends as all of it does, and so no array has its name.
  obtain ⟨enclosing, first, later, path, some_, within, rfl⟩ := Scope.placeHeader_spec
    h.tracked.nested (KeyPath.path_ne_nil accepted nonempty) rfl place
  refine ⟨enclosing.join later, ?_, Name.isWithin_trans (Name.isWithin_join enclosing later) within,
    adds, ?_⟩
  · rw [Outline.base, adds.follows.table]
  · rintro ⟨s, base, ends_⟩
    refine apart key (List.mem_singleton.mpr rfl) s ?_ ends_
    rw [path, List.getLast?_append, ← Name.base_join enclosing some_, base]
    rfl

/-- The header of an array of tables that is read opens the element after the one that is noted. -/
theorem arrayHeader_heads (h : out.Placed o ends count run placed) {key : KeyPath}
    {c : Option String} (named : (Line.tableArray key c).parts.Named)
    (ends_ : ∀ s, key.path.getLast? = some s → ends s)
    (ok : (Line.tableArray key c).assemble o out = .ok out') :
    ∃ index outer array,
      Scope.Entered ends (Scope.lastElement out.sheet.keys.unordered) o.root
        (o.root.join key.path) index outer array ∧
      out'.Heads o out (o.root.join key.path) run c index outer array := by
  have ok : Line.assembleTableArray o key c out = .ok out' := ok
  obtain ⟨nonempty, plain⟩ := named key (List.mem_singleton.mpr rfl)
  have header (accepted : key.Accepted) : HeaderPath ends key.path := by
    have path := KeyPath.path_ne_nil accepted nonempty
    have last := List.getLast?_eq_some_getLast path
    exact ⟨path, plain, _, last, ends_ _ last⟩
  have decides := Line.assembleTableArray_decides True (c := c) h.tracked
    (fun n m found => (h.recorded.last found).2.1) header h.comments
  rw [ok] at decides
  exact decides.2

theorem pair (h : out.Placed o ends count run placed) (few : count ≤ ElementIndex.limit)
    (small : o.maxArrayElements < ElementIndex.limit) {key : KeyPath} {v : Value}
    {c : Option String} (named : (Line.pair key v c).parts.Named)
    (apart : ∀ key' ∈ (Line.pair key v c).otherKeys, ∀ s, key'.path.getLast? = some s → ¬ ends s)
    (ok : (Line.pair key v c).assemble o out = .ok out') :
    ∃ scope, out'.base o = .ok scope ∧
      out'.Placed o ends (count + 1) [] (placed ++ (Line.pair key v c).placedAt scope run) := by
  obtain ⟨scope, -, base, adds, apart⟩ := h.pair_adds small named apart ok
  rw [← Line.productions_pair key v scope run c] at apart
  exact ⟨scope, base, h.appendAll few adds apart h.table⟩

theorem tableHeader (h : out.Placed o ends count run placed) (few : count ≤ ElementIndex.limit)
    {key : KeyPath} {c : Option String} (named : (Line.table key c).parts.Named)
    (apart : ∀ key' ∈ (Line.table key c).otherKeys, ∀ s, key'.path.getLast? = some s → ¬ ends s)
    (ok : (Line.table key c).assemble o out = .ok out') :
    ∃ scope, out'.base o = .ok scope ∧
      out'.Placed o ends (count + 1) [] (placed ++ (Line.table key c).placedAt scope run) := by
  obtain ⟨scope, base, within, adds, apart⟩ := h.tableHeader_adds named apart ok
  refine ⟨scope, base, h.appendAll few adds (List.forall_mem_singleton.mpr apart) ?_⟩
  rintro name ⟨⟩
  exact within

theorem arrayHeader (h : out.Placed o ends count run placed) (few : count < ElementIndex.limit)
    {key : KeyPath} {c : Option String} (named : (Line.tableArray key c).parts.Named)
    (ends_ : ∀ s, key.path.getLast? = some s → ends s)
    (ok : (Line.tableArray key c).assemble o out = .ok out') :
    ∃ scope, Scope.element o.root out'.scopes = .ok scope ∧
      out'.Placed o ends (count + 1) [] (placed ++ (Line.tableArray key c).placedAt scope run) := by
  obtain ⟨index, outer, array, entered, heads⟩ := h.arrayHeader_heads named ends_ ok
  obtain ⟨fresh, recorded, tracked⟩ := h.recorded.element
    (lineKey (array.child (ElementIndex.segment index)) run c) few entered rfl rfl
  refine ⟨array.child (ElementIndex.segment index), ?_, ?_, ?_, ?_, heads.comments, ?_, ?_⟩
  · rw [heads.scopes]
    exact entered.element_eq
  · rw [heads.keys]
    exact recorded
  · rw [heads.keys, heads.scopes]
    exact tracked
  · rw [heads.table]
    exact nofun
  · rw [heads.keys]
    exact (h.named.noteElement array index).append _
  · rw [heads.keys, commented_append]
    -- The array notes its element in an attribute, which moves no comment.
    have noted := KeySet.remarks_noteElement_perm h.named array index
    refine ((KeySet.remarks_appendAll_perm (h.named.noteElement array index) [_]
      (List.nodup_singleton _) (List.forall_mem_singleton.mpr fresh)).trans ?_)
    exact (noted.trans h.remarks).append_right _

theorem take (h : out.Placed o ends count run placed) (r : Remark) :
    ({ out with comments := out.comments.take r } : Outline).Placed o ends (count + 1) (run ++ [r])
      (placed ++ []) := by
  rw [List.append_nil]
  refine ⟨h.recorded.mono (Nat.le_succ count), h.tracked, h.table, ?_, h.named, h.remarks⟩
  rw [queueOf_concat, ← h.comments]

/-- Every line keeps what is known, and gives its comments to its keys. -/
theorem assemble (h : out.Placed o ends count run placed) (few : count < ElementIndex.limit)
    (small : o.maxArrayElements < ElementIndex.limit) {line : Line}
    (numbered : line.isNumbered = true) (named : line.parts.Named)
    (heads : ∀ key ∈ line.headerKeys, ∀ s, key.path.getLast? = some s → ends s)
    (apart : ∀ key ∈ line.otherKeys, ∀ s, key.path.getLast? = some s → ¬ ends s)
    (ok : line.assemble o out = .ok out') :
    ∃ scope, out'.site o line = .ok scope ∧
      out'.Placed o ends (count + 1) (line.runAfter run) (placed ++ line.placedAt scope run) := by
  cases line with
  | pair key v c => exact h.pair (Nat.le_of_lt few) small named apart ok
  | table key c => exact h.tableHeader (Nat.le_of_lt few) named apart ok
  | tableArray key c =>
    exact h.arrayHeader few named (heads key (List.mem_singleton.mpr rfl)) ok
  | comment text =>
    cases ok
    obtain ⟨scope, base, -⟩ := h.base_eq
    exact ⟨scope, base, h.take (.comment text)⟩
  | blank =>
    obtain ⟨scope, base, -⟩ := h.base_eq
    rw [Line.assemble, CommentQueue.newline_eq] at ok
    split at ok
    · cases ok
      exact ⟨scope, base, h.take .blank⟩
    · cases ok
  | raw e => cases numbered

end Outline.Placed

/-! ## Comments of documents -/

namespace State

/-- The name of the innermost open node. -/
def scopeName (s : State) : Name := s.openNames.head?.join.getD {}

/-- The name of the current element of the innermost array of tables. -/
def elementName (o : Options) (s : State) : Name :=
  (Scope.element o.root s.scopes).toOption.getD {}

/-- The key that is open after a line: the element that a header of an array of tables opened, or
the innermost key. -/
def site (o : Options) (s : State) : Line → Name
  | .tableArray .. => s.elementName o
  | _ => s.scopeName

end State

/-- The innermost open node has the name that the key of a pair would start from. -/
theorem Outline.Left.scopeName_eq {s : State} (left : out.Left o s) {scope : Name}
    (h : out.base o = .ok scope) : s.scopeName = scope := by
  obtain ⟨names, opens, open_, -⟩ := left.openNames_eq
  obtain ⟨name, rest, rfl, found⟩ := Outline.base_eq_ok opens
  rw [h] at found
  cases found
  rw [State.scopeName, open_]
  rfl

theorem Outline.Left.site_eq {s : State} (left : out.Left o s) {line : Line} {scope : Name}
    (h : out.site o line = .ok scope) : s.site o line = scope := by
  cases line with
  | tableArray key c =>
    obtain ⟨names, -, -, scopes⟩ := left.openNames_eq
    have element : Scope.element o.root out.scopes = .ok scope := h
    rw [State.site, State.elementName, scopes, element]
    rfl
  | _ => exact left.scopeName_eq h

namespace Document

/-- Where the comments of lines go, from a state on and after a run. What is left of a run in the
end goes before the key of the root, if there is a comment in it. -/
def placements (o : Options) : State → Nat → List Remark → List Line → List (Name × Comments)
  | _, _, run, [] =>
      [(o.root, { leading := if run.all (· = .blank) then [] else blockOf run })]
  | s, before, run, line :: rest =>
      let s' := s.feedAll o (line.events (before + 1))
      line.placedAt (s'.site o line) run
        ++ placements o s' (before + 1) (line.runAfter run) rest

/-- A document in which the headers of arrays of tables end differently from all other keys. Keys
have names, and no segment names an element of an array. -/
structure Separate (lines : List Line) : Prop where
  numbered : ∀ line ∈ lines, line.isNumbered = true
  named : ∀ line ∈ lines, line.parts.Named
  apart : ∀ header ∈ lines.flatMap Line.headerKeys, ∀ key ∈ lines.flatMap Line.otherKeys,
    header.path.getLast? ≠ key.path.getLast?
  few : lines.length < ElementIndex.limit

end Document

/-- What waits in the end goes to the root. -/
theorem Outline.Placed.finish (h : out.Placed o ends count run placed) (s : State) (before : Nat) :
    (out.finish o).remarks.Perm (commented (placed ++ Document.placements o s before run [])) := by
  have noRoot := h.lookup_root
  have before := h.remarks
  rw [KeySet.remarks_unordered] at before
  rw [commented_append, Document.placements, Outline.finish, h.comments, isEmpty_queueOf, noRoot,
    contents_queueOf]
  by_cases blank : run.all (· = .blank) = true
  · rw [if_pos blank, if_pos blank]
    exact before.trans (List.append_nil _ ▸ .refl _)
  · rw [if_neg blank, if_neg blank, if_neg (by simp)]
    refine (KeySet.remarks_appendAll_perm (KeySet.named_of_unordered h.named) [_]
      (List.nodup_singleton _) (List.forall_mem_singleton.mpr noRoot)).trans ?_
    exact before.append_right _

namespace Document

/-- The comments of lines go where the lines say, from every state between lines on. -/
theorem placements_perm (small : o.maxArrayElements < ElementIndex.limit) {lines : List Line}
    (numbered : ∀ line ∈ lines, line.isNumbered = true)
    (named : ∀ line ∈ lines, line.parts.Named)
    (heads : ∀ key ∈ lines.flatMap Line.headerKeys, ∀ s, key.path.getLast? = some s → ends s)
    (apart : ∀ key ∈ lines.flatMap Line.otherKeys, ∀ s, key.path.getLast? = some s → ¬ ends s)
    {s : State} (before : Nat) {final : Outline} (left : out.Left o s) (none : s.fault = none)
    (h : out.Placed o ends count run placed) (few : count + lines.length < ElementIndex.limit)
    (ok : outline o lines out = .ok final) :
    (final.finish o).remarks.Perm (commented (placed ++ placements o s before run lines)) := by
  induction lines generalizing out s run placed count before with
  | nil =>
    cases ok
    exact h.finish s before
  | cons line rest ih =>
    rw [List.flatMap_cons, List.forall_mem_append] at heads apart
    obtain ⟨numbered₁, numbered⟩ := List.forall_mem_cons.mp numbered
    obtain ⟨named₁, named⟩ := List.forall_mem_cons.mp named
    rw [List.length_cons] at few
    obtain ⟨out', assembled, ok⟩ := exists_of_outline_cons ok
    obtain ⟨scope, site, h'⟩ := h.assemble (by omega) small numbered₁ named₁ heads.1 apart.1 assembled
    obtain ⟨left', none'⟩ := left.feed_line none numbered₁ assembled (before + 1)
    have later := ih numbered named heads.2 apart.2 (before + 1) left' none' h' (by omega) ok
    rw [placements, left'.site_eq site, ← List.append_assoc]
    exact later

end Document

/-- Every comment of a document that is read goes to the place that its line gives it, and nowhere
else: if no header of an array of tables ends as another key does. -/
theorem comments_placed {lines : List Line} (h : Document.Separate lines) (o : Options)
    (small : o.maxArrayElements < ElementIndex.limit) {keys : KeySet}
    (parsed : parse o (Document.events lines) = .ok keys) :
    keys.remarks.Perm (commented
      (Document.placements o ((State.start o ∅).feedAll o [.documentStart]) 0 [] lines)) := by
  have assembled := (parse_eq_ok_iff h.numbered o).mp parsed
  unfold Document.assemble at assembled
  cases outline : Document.outline o lines (.start ∅) with
  | error cause => rw [outline] at assembled; cases assembled
  | ok final =>
    rw [outline] at assembled
    cases assembled
    obtain ⟨left, none⟩ := Outline.start_left o ∅
    let ends (s : String) := ∃ key ∈ lines.flatMap Line.headerKeys, key.path.getLast? = some s
    refine Document.placements_perm small h.numbered h.named (fun key member s last => ?_)
      (fun key member s last => ?_) 0 left none (.start o ends 0) (by have := h.few; omega) outline
    · exact ⟨key, member, last⟩
    · rintro ⟨header, inside, same⟩
      exact h.apart header inside key member (same.trans last.symm)

/-- Two elements of an array of tables with comments in all places. -/
def remarkedLines : List Line :=
  [.comment "first", .tableArray (.ofDotted "t") (some "element"),
    .pair (.ofDotted "a")
      (.array [.blankLine, .value (.scalar (.verbatim .decimal "1")), .comment "one", .comment "two",
        .value (.array []), .comment "three"])
      (some "last"),
    .tableArray (.ofDotted "t") none, .blank, .comment "end"]

theorem remarkedLines_separate : Document.Separate remarkedLines :=
  ⟨by decide, by unfold Parts.Named Plain; decide, by decide, by decide⟩

theorem comments_placed_remarked :
    Document.Separate remarkedLines ∧ ({} : Options).maxArrayElements < ElementIndex.limit ∧
    ∃ keys, parse {} (Document.events remarkedLines) = .ok keys ∧
      keys.remarks.Perm (commented (Document.placements {}
        ((State.start {} ∅).feedAll {} [.documentStart]) 0 [] remarkedLines)) := by
  refine ⟨remarkedLines_separate, by decide, ?_⟩
  cases parsed : parse {} (Document.events remarkedLines) with
  | ok keys => exact ⟨keys, rfl, comments_placed remarkedLines_separate {} (by decide) parsed⟩
  | error fault =>
    have read : (parse {} (Document.events remarkedLines)).toBool = true := by decide
    rw [parsed] at read
    cases read

end TomlSemantics
