import TomlSemantics.Proofs.Placement
import TomlSemantics.Proofs.Reopen

/-!
# Headers after other headers

The header of an array of tables opens an element inside of the arrays that are open already. If
none was open, the arrays around it would be those that the set has. The two can differ: an array
that another header closed is not opened again as long as one around it stays open.

1. `Outline.Placed.header`: the header of an array of tables is always read.
2. `Outline.Left.feed_headers`: so are any number of them.
3. `element_fresh_iff`: when a header opens the element that it would open with nothing open.
-/

namespace TomlSemantics

/-! ## Headers -/

namespace KeyPath

/-- Every part of a key is bare, and there is one. -/
def IsBare (key : KeyPath) : Prop :=
  key ≠ [] ∧ ∀ s ∈ key, s.kind = .bare ∧ Text.isBare s.text = true

/-- A key that is accepted and gives a name, no segment of which names an element. -/
structure Spells (key : KeyPath) : Prop where
  accepted : key.Accepted
  nonempty : key ≠ []
  plain : Plain key.path

/-- Bare text names no element. -/
theorem ofSegment_of_isBare {s : String} (h : Text.isBare s = true) :
    ElementIndex.ofSegment s = none := by
  rw [Text.isBare, Bool.and_eq_true, List.all_eq_true] at h
  unfold ElementIndex.ofSegment
  split
  · next rest eq =>
    have mark := h.2 '#' (eq ▸ List.mem_cons_self)
    exact absurd mark (by decide)
  · rfl

theorem IsBare.spells {key : KeyPath} (h : key.IsBare) : key.Spells := by
  have segments (s : Scalar) (inside : s ∈ key) : s.keySegments = .ok [s.text] := by
    rw [Scalar.keySegments, (h.2 s inside).1]
  refine ⟨fun s inside => ⟨_, segments s inside⟩, h.1, fun t inside => ?_⟩
  obtain ⟨s, part, inside⟩ := List.mem_flatMap.mp inside
  rw [segments s part] at inside
  obtain rfl : t = s.text := List.mem_singleton.mp inside
  exact ofSegment_of_isBare (h.2 s part).2

theorem Spells.header {key : KeyPath} (h : key.Spells) : HeaderPath (fun _ => True) key.path := by
  have nonempty := path_ne_nil h.accepted h.nonempty
  exact ⟨nonempty, h.plain, _, List.getLast?_eq_some_getLast nonempty, trivial⟩

end KeyPath

/-- The header of an array of tables with a key that names it. -/
def Line.IsHeader (line : Line) : Prop := ∃ key c, line = .tableArray key c ∧ key.Spells

variable {o : Options} {count : Nat} {run : List Remark} {placed : List (Name × Comments)}
  {out : Outline} {key : KeyPath} {c : Option String}

namespace Outline

/-- A header is always read: it enters its array, and the element is open after it. -/
theorem Placed.header (h : out.Placed o (fun _ => True) count run placed)
    (few : count ≤ ElementIndex.limit) (spells : key.Spells) (c : Option String) :
    ∃ out' index outer array, (Line.tableArray key c).assemble o out = .ok out' ∧
      Scope.enter out.sheet.keys o.root (o.root.join key.path) out.scopes =
        .ok (⟨o.root.join key.path, index⟩ :: outer) ∧
      Scope.Entered (fun _ => True) (Scope.lastElement out.sheet.keys) o.root
        (o.root.join key.path) index outer array ∧
      out'.scopes = ⟨o.root.join key.path, index⟩ :: outer ∧
      out'.base o = .ok (array.child (ElementIndex.segment index)) := by
  have header := spells.header
  have free : Builder.isFree o out.sheet.keys.unordered (o.root.join key.path) = true := by
    unfold Builder.isFree
    cases found : out.sheet.keys.unordered.lookup (o.root.join key.path) with
    | none => rfl
    | some k =>
      have stem := Name.stem_join o.root header.nonempty header.plain
      have yes := h.recorded.isTableArray few stem (header.endsIn o.root) found
      simp only [yes, Bool.true_or]
  have decides := Line.assembleTableArray_decides True (c := c) h.tracked
    (fun n m found => (h.recorded.last found).2.1) (fun _ => header) h.comments
  cases ok : Line.assembleTableArray o key c out with
  | error cause =>
    rw [ok] at decides
    exact absurd ⟨spells.accepted, free⟩ (decides trivial)
  | ok out' =>
    rw [ok] at decides
    obtain ⟨-, index, outer, array, entered, heads⟩ := decides
    rw [Scope.lastElement_unordered] at entered
    refine ⟨out', index, outer, array, ok, heads.enter, entered, heads.scopes, ?_⟩
    rw [Outline.base, heads.table, heads.scopes]
    exact entered.element_eq

/-- Headers are fed without a fault, and keep what is known. -/
theorem Left.feed_headers {headers : List Line} (heads : ∀ line ∈ headers, line.IsHeader)
    {s : State} (left : out.Left o s) (none : s.fault = none)
    (h : out.Placed o (fun _ => True) count [] placed)
    (few : count + headers.length ≤ ElementIndex.limit) (before : Nat) :
    ∃ (out' : Outline) (placed' : List (Name × Comments)),
      out'.Left o (s.feedAll o (Document.lineEvents before headers)) ∧
      (s.feedAll o (Document.lineEvents before headers)).fault = .none ∧
      out'.Placed o (fun _ => True) (count + headers.length) [] placed' := by
  induction headers generalizing out s count placed before with
  | nil => exact ⟨out, placed, left, none, h⟩
  | cons line rest ih =>
    obtain ⟨⟨key, c, rfl, spells⟩, others⟩ := List.forall_mem_cons.mp heads
    rw [List.length_cons] at few
    obtain ⟨out', -, -, -, ok, -⟩ := h.header (by omega) spells c
    obtain ⟨left', none'⟩ := left.feed_line none rfl ok (before + 1)
    obtain ⟨scope, -, h'⟩ := h.arrayHeader (by omega)
      (List.forall_mem_singleton.mpr ⟨spells.nonempty, spells.plain⟩) (fun _ _ => trivial) ok
    have later := ih others left' none' h' (by omega) (before + 1)
    rw [Document.lineEvents, State.feedAll, List.foldl_append, List.length_cons,
      Nat.add_comm rest.length, ← Nat.add_assoc]
    exact later

end Outline

/-- What a header opens after an outline: it is read without a fault, and the element that it enters
is innermost. -/
theorem Outline.Left.feed_header {s : State} (left : out.Left o s) (none : s.fault = none)
    (h : out.Placed o (fun _ => True) count run placed) (few : count ≤ ElementIndex.limit)
    (spells : key.Spells) (c : Option String) (number : Nat) :
    let s' := s.feedAll o ((Line.tableArray key c).events number)
    s'.fault = .none ∧ ∃ index outer array,
      Scope.enter out.sheet.keys o.root (o.root.join key.path) out.scopes =
        .ok (⟨o.root.join key.path, index⟩ :: outer) ∧
      Scope.Entered (fun _ => True) (Scope.lastElement out.sheet.keys) o.root
        (o.root.join key.path) index outer array ∧
      s'.scopes = ⟨o.root.join key.path, index⟩ :: outer ∧
      s'.scopeName = array.child (ElementIndex.segment index) := by
  obtain ⟨out', index, outer, array, ok, enter, entered, scopes, base⟩ := h.header few spells c
  obtain ⟨left', none'⟩ := left.feed_line none rfl ok number
  obtain ⟨-, -, -, same⟩ := left'.openNames_eq
  exact ⟨none', index, outer, array, enter, entered, same.trans scopes, left'.scopeName_eq base⟩

/-- After any headers, a header opens the element that it would open with nothing open, just if no
array at or above its name is open, or every array that would be opened again is. -/
theorem element_fresh_iff {headers : List Line} (heads : ∀ line ∈ headers, line.IsHeader)
    (few : headers.length < ElementIndex.limit) {key : KeyPath} (spells : key.Spells)
    (c : Option String) (o : Options) (number : Nat) :
    let header := (Line.tableArray key c).events number
    let s := (State.start o ∅).feedAll o (.documentStart :: Document.lineEvents 0 headers)
    let live := s.feedAll o header
    let fresh := (State.start o s.keys).feedAll o (.documentStart :: header)
    live.fault = none ∧ fresh.fault = none ∧
      (live.scopeName = fresh.scopeName ↔
        (∀ scope ∈ s.scopes, ¬ (o.root.join key.path).isWithin scope.name = true) ∨
          ∀ scope ∈ fresh.scopes.tail, scope ∈ s.scopes) := by
  intro header s live fresh
  obtain ⟨left₀, none₀⟩ := Outline.start_left o ∅
  obtain ⟨out, placed, left, none, h⟩ := left₀.feed_headers heads none₀ (.start o _ 0) (by omega) 0
  rw [Nat.zero_add] at h
  have bound : ∀ n m, Scope.lastElement out.sheet.keys n = some m → m < headers.length := by
    intro n m noted
    rw [← Scope.lastElement_unordered] at noted
    exact (h.recorded.last noted).2.2
  have tracked := h.tracked
  rw [Scope.lastElement_unordered] at tracked
  obtain ⟨-, -, -, open_⟩ := left.openNames_eq
  obtain ⟨none₁, i, outer, array, enter, entered, -, live_name⟩ :=
    left.feed_header none h (Nat.le_of_lt few) spells c number
  -- The other run starts anew over what this one has recorded.
  obtain ⟨left', none'⟩ := Outline.start_left o out.sheet.keys
  obtain ⟨none₂, j, outer', array', enter', entered', scopes', fresh_name⟩ :=
    left'.feed_header none' h.restart (Nat.le_of_lt few) spells c number
  have keys : s.keys = out.sheet.keys := left.keys_eq
  have fresh_eq : fresh = ((State.start o out.sheet.keys).feedAll o [.documentStart]).feedAll o
      header := by
    rw [← keys]
    rfl
  have live_name : live.scopeName = _ := live_name
  have open_ : s.scopes = out.scopes := open_
  refine ⟨none₁, fresh_eq ▸ none₂, ?_⟩
  rw [live_name, fresh_eq, fresh_name, scopes', open_, List.tail_cons]
  exact (entered.element_eq_iff entered' few bound).trans
    (tracked.outer_eq_iff spells.header.nonempty enter enter')

/-- Two arrays inside of an element, the first of them closed by the second. -/
def siblingHeaders : List Line :=
  [.tableArray (.ofDotted "a") none, .tableArray (.ofDotted "a.b") none,
    .tableArray (.ofDotted "a.c") none]

theorem siblingHeaders_heads : ∀ line ∈ siblingHeaders, line.IsHeader := by
  unfold siblingHeaders
  simp only [List.forall_mem_cons]
  refine ⟨⟨_, _, rfl, ?_⟩, ⟨_, _, rfl, ?_⟩, ⟨_, _, rfl, ?_⟩, nofun⟩ <;>
    exact KeyPath.IsBare.spells (by unfold KeyPath.IsBare; decide)

theorem siblingKey_spells : KeyPath.Spells (.ofDotted "a.b.d") :=
  KeyPath.IsBare.spells (by unfold KeyPath.IsBare; decide)

theorem element_fresh_iff_siblings :
    (∀ line ∈ siblingHeaders, line.IsHeader) ∧ siblingHeaders.length < ElementIndex.limit ∧
    KeyPath.Spells (.ofDotted "a.b.d") ∧
    let header := (Line.tableArray (.ofDotted "a.b.d") none).events 4
    let s := (State.start {} ∅).feedAll {} (.documentStart :: Document.lineEvents 0 siblingHeaders)
    let live := s.feedAll {} header
    let fresh := (State.start {} s.keys).feedAll {} (.documentStart :: header)
    live.fault = none ∧ fresh.fault = none ∧
      (live.scopeName = fresh.scopeName ↔
        (∀ scope ∈ s.scopes,
          ¬ (({} : Options).root.join (KeyPath.path (.ofDotted "a.b.d"))).isWithin scope.name = true) ∨
          ∀ scope ∈ fresh.scopes.tail, scope ∈ s.scopes) :=
  ⟨siblingHeaders_heads, by decide, siblingKey_spells,
    element_fresh_iff siblingHeaders_heads (by decide) siblingKey_spells none {} 4⟩

/-- After `[[a.c]]`, the header `[[a.b.d]]` does not go into the element of `[[a.b]]`, as it would
with nothing open. -/
theorem siblings_element_ne :
    let header := (Line.tableArray (.ofDotted "a.b.d") none).events 4
    let s := (State.start {} ∅).feedAll {} (.documentStart :: Document.lineEvents 0 siblingHeaders)
    (s.feedAll {} header).scopeName = ({} : Options).root.join ["a", "#0", "b", "d", "#0"] ∧
      ((State.start {} s.keys).feedAll {} (.documentStart :: header)).scopeName =
        ({} : Options).root.join ["a", "#0", "b", "#0", "d", "#0"] := by
  decide

end TomlSemantics
