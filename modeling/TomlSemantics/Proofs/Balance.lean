import TomlSemantics.Proofs.DocumentRun
import TomlSemantics.Proofs.Spelling

/-!
# Nothing half read between lines

Whatever lines a document has, reading one of them either stops with a fault of the text or leaves
nothing half read: the root is open, an element if an array of tables is open, and a table if one
was started. The faults that only wrong events could cause do not occur.

1. `Sound`: a result that meets a condition, or a fault of the text.
2. `Value.assemble_sound` and `Line.assemble_sound`: values of every depth, and lines in every order.
3. `State.Balanced`: the states between lines, with at most four nodes.
4. `balanced_after_lines`, `parse_faults_semantic`.
-/

namespace TomlSemantics

/-! ## Faults of the text -/

/-- The result meets a condition, or the text is to blame that there is none. -/
def Sound {α : Type} (r : Except Cause α) (meets : α → Prop) : Prop :=
  match r with
  | .ok a => meets a
  | .error cause => cause.faultClass = .semantic

namespace Sound

variable {α β : Type} {r : Except Cause α} {meets : α → Prop}

theorem bind {f : α → Except Cause β} {next : β → Prop} (h : Sound r meets)
    (hf : ∀ a, meets a → Sound (f a) next) : Sound (r >>= f) next := by
  cases r with
  | ok a => exact hf a h
  | error cause => exact h

end Sound

/-- A scalar that a grammar takes for a comment, where a key or a value should be. -/
def Event.misplacesComment : Event → Bool
  | keySegment s | value s => s.kind = .comment
  | _ => false

/-- Events of values and lines whose comments are all in their places. -/
def NoMisplaced (events : List Event) : Prop := ∀ e ∈ events, e.misplacesComment = false

namespace NoMisplaced

theorem append_iff {first later : List Event} :
    NoMisplaced (first ++ later) ↔ NoMisplaced first ∧ NoMisplaced later :=
  List.forall_mem_append

theorem cons_iff {e : Event} {later : List Event} :
    NoMisplaced (e :: later) ↔ e.misplacesComment = false ∧ NoMisplaced later :=
  List.forall_mem_cons

end NoMisplaced

/-! ## Scalars -/

theorem checkBare_sound (s : String) : Sound (checkBare s) fun _ => True := by
  unfold checkBare
  split
  · trivial
  · rfl

theorem checkBare_all_sound (segments : List String) :
    Sound (segments.forM checkBare) fun _ => True := by
  induction segments with
  | nil => trivial
  | cons first rest ih => exact (checkBare_sound first).bind fun _ _ => ih

theorem Scalar.keySegments_sound (s : Scalar) (h : s.kind ≠ .comment) :
    Sound s.keySegments fun segments => segments ≠ [] := by
  unfold keySegments
  cases kind : s.kind with
  | comment => exact absurd kind h
  | bare | basic | literal => exact List.cons_ne_nil _ _
  | multilineBasic | multilineLiteral => rfl
  | float => exact Sound.bind (checkBare_all_sound _) fun _ _ => splitAtPoint_ne_nil _
  | _ => exact Sound.bind (checkBare_sound _) fun _ _ => List.cons_ne_nil _ _

/-- A scalar that is taken for a value can be stored. -/
theorem Scalar.checkValue_sound (s : Scalar) (h : s.kind ≠ .comment) :
    Sound s.checkValue fun _ => s.kind.storage.isSome = true := by
  unfold checkValue
  cases kind : s.kind with
  | comment => exact absurd kind h
  | bare => rfl
  | offsetDateTime | localDateTime | localDate | localTime =>
    dsimp only
    split <;> rfl
  | _ => rfl

theorem storedForm_sound (s : Scalar) (h : s.kind.storage.isSome = true) :
    Sound (Builder.storedForm s) fun _ => True := by
  unfold Builder.storedForm
  split
  · rfl
  · obtain ⟨storage, found⟩ := Option.isSome_iff_exists.mp h
    simp only [found]
    trivial

/-! ## Values of every depth -/

theorem CommentQueue.newline_sound {q : CommentQueue} {n : Nat}
    (h : q.blankLines + (n + 1) < blankLineLimit) :
    Sound q.newline fun q' => q'.blankLines + n < blankLineLimit := by
  unfold newline
  rw [if_pos (by omega)]
  show q.blankLines + 1 + n < blankLineLimit
  omega

theorem KeyPath.segments_sound {key : KeyPath} (line : Nat) (h : NoMisplaced (key.events line)) :
    Sound key.segments fun segments => key ≠ [] → segments ≠ [] := by
  have parts : NoMisplaced (key.map fun s => .keySegment (s.atLine line)) := by
    intro e member
    exact h e (by simp [KeyPath.events, List.mem_map.mp member])
  clear h
  induction key with
  | nil => exact fun h => absurd rfl h
  | cons part key ih =>
    rw [List.map_cons, NoMisplaced.cons_iff] at parts
    have comment : part.kind ≠ .comment := of_decide_eq_false parts.1
    refine (part.keySegments_sound comment).bind fun first nonempty => ?_
    exact (ih parts.2).bind fun rest _ => fun _ => by simp [nonempty]

theorem Sheet.checkFree_sound (o : Options) (sheet : Sheet) (name : Name) :
    Sound (sheet.checkFree o name) fun _ => True := by
  unfold Sheet.checkFree
  split
  · trivial
  · rfl

theorem Sheet.begin_sound (o : Options) (sheet : Sheet) (name : Name) (block : List BlockEntry) :
    Sound (sheet.begin o name block) fun _ => True :=
  Sound.bind (sheet.checkFree_sound o name) fun _ _ => trivial

mutual

theorem Value.assemble_sound (o : Options) (line : Nat) : ∀ (x : Value) (own : Key) (sheet : Sheet),
    NoMisplaced (x.events line) →
    (x.events line).count .blankLine < CommentQueue.blankLineLimit →
    Sound (x.assemble o own sheet) fun _ => True
  | .scalar s, own, sheet, placed, _ => by
    have comment : s.kind ≠ .comment :=
      of_decide_eq_false (NoMisplaced.cons_iff.mp placed).1
    unfold Value.assemble
    exact Sound.bind (s.checkValue_sound comment) fun _ storable =>
      (storedForm_sound s storable).bind fun _ _ => trivial
  | .array items, own, sheet, placed, few => by
    have inner := itemEvents_sublist line items
    unfold Value.assemble
    refine Sound.bind (assembleItems_sound o line items _ ?_ ?_) fun _ _ => trivial
    · exact fun e member => placed e (inner.subset member)
    · rw [Nat.zero_add]
      exact Nat.lt_of_le_of_lt (inner.count_le _) few
  | .inlineTable pairs, own, sheet, placed, few => by
    have inner := pairsEvents_sublist line pairs
    unfold Value.assemble
    refine Sound.bind (assemblePairs_sound o line pairs _ _ ?_ ?_) fun _ _ => trivial
    · exact fun e member => placed e (inner.subset member)
    · exact Nat.lt_of_le_of_lt (inner.count_le _) few

theorem Item.assemble_sound (o : Options) (line : Nat) : ∀ (item : Item) (a : ArrayDraft) (n : Nat),
    NoMisplaced (item.events line) →
    a.comments.blankLines + ((item.events line).count .blankLine + n) < CommentQueue.blankLineLimit →
    Sound (item.assemble o a) fun b => b.comments.blankLines + n < CommentQueue.blankLineLimit
  | .value x, a, n, placed, few => by
    rw [Item.events, NoMisplaced.append_iff, NoMisplaced.cons_iff] at placed
    simp only [Item.events, List.count_append, List.count_cons] at few
    unfold Item.assemble
    split
    · rfl
    · refine Sound.bind (Value.assemble_sound o line x _ _ placed.1.2 (by omega)) fun _ _ => ?_
      show 0 + n < CommentQueue.blankLineLimit
      omega
  | .comment text, a, n, _, few => by
    unfold Item.assemble
    show 0 + n < CommentQueue.blankLineLimit
    omega
  | .blankLine, a, n, _, few => by
    unfold Item.assemble
    refine Sound.bind (CommentQueue.newline_sound (n := n) ?_) fun _ few => few
    rw [Item.events, List.count_singleton_self] at few
    omega

theorem assembleItems_sound (o : Options) (line : Nat) : ∀ (items : List Item) (a : ArrayDraft),
    NoMisplaced (itemEvents line items) →
    a.comments.blankLines + (itemEvents line items).count .blankLine < CommentQueue.blankLineLimit →
    Sound (assembleItems o items a) fun _ => True
  | [], _, _, _ => by
    rw [assembleItems]
    trivial
  | item :: items, a, placed, few => by
    rw [itemEvents, NoMisplaced.append_iff] at placed
    rw [itemEvents, List.count_append] at few
    rw [assembleItems]
    exact (Item.assemble_sound o line item a _ placed.1 few).bind fun b few =>
      assembleItems_sound o line items b placed.2 few

theorem assemblePair_sound (o : Options) (line : Nat) : ∀ (pair : KeyPath × Value) (table : Name)
    (sheet : Sheet), NoMisplaced (pairEvents line pair) →
    (pairEvents line pair).count .blankLine < CommentQueue.blankLineLimit →
    Sound (assemblePair o pair table sheet) fun _ => True
  | (key, x), table, sheet, placed, few => by
    simp only [pairEvents, NoMisplaced.append_iff] at placed
    simp only [pairEvents, List.count_append] at few
    unfold assemblePair
    exact (KeyPath.segments_sound line placed.1.1).bind fun _ _ =>
      (Sheet.begin_sound o sheet _ _).bind fun opened _ =>
        (Value.assemble_sound o line x _ _ placed.1.2 (by omega)).bind fun _ _ => trivial

theorem assemblePairs_sound (o : Options) (line : Nat) : ∀ (pairs : List (KeyPath × Value))
    (table : Name) (sheet : Sheet), NoMisplaced (pairsEvents line pairs) →
    (pairsEvents line pairs).count .blankLine < CommentQueue.blankLineLimit →
    Sound (assemblePairs o pairs table sheet) fun _ => True
  | [], _, _, _, _ => by
    unfold assemblePairs
    trivial
  | pair :: pairs, table, sheet, placed, few => by
    rw [pairsEvents, NoMisplaced.append_iff] at placed
    rw [pairsEvents, List.count_append] at few
    unfold assemblePairs
    exact (assemblePair_sound o line pair table sheet placed.1 (by omega)).bind fun _ _ =>
      assemblePairs_sound o line pairs table _ placed.2 (by omega)

end

/-! ## Lines in every order -/

/-- Whether a line that opens an element says of which array. -/
def Line.isNamed : Line → Bool
  | tableArray key _ => !key.isEmpty
  | _ => true

namespace Outline

/-- What a line leaves when all is well: open arrays that lie in each other, and few enough blank
lines for `n` more. -/
def Sane (o : Options) (n : Nat) (out : Outline) : Prop :=
  Scope.Nested o.root out.scopes ∧ out.comments.blankLines + n < CommentQueue.blankLineLimit

variable {o : Options} {out : Outline} {n : Nat}

theorem base_sound (h : Scope.Nested o.root out.scopes) :
    Sound (out.base o) fun _ => True := by
  unfold base
  split
  · trivial
  · obtain ⟨path, found⟩ := h.element_eq_ok
    rw [found]
    trivial

theorem placeHeader_sound {name : Name} (h : Scope.Nested o.root out.scopes) :
    Sound (Scope.placeHeader o.root name out.scopes) fun _ => True := by
  obtain ⟨placement, found⟩ := h.place_eq_ok name
  rw [Scope.placeHeader, found]
  cases placement <;> trivial

theorem openElement_sound {name : Name} (h : Scope.Nested o.root out.scopes)
    (below : name.isBelow o.root = true) :
    Sound (out.openElement o name) fun opened =>
      Scope.Nested o.root opened.2.scopes ∧ opened.2.comments = {} := by
  obtain ⟨index, outer, entered, nested⟩ := h.enter_eq_ok below out.sheet.keys
  obtain ⟨array, -, found⟩ := nested.element_child
  rw [openElement, enter, if_pos below, entered]
  show Sound (Scope.currentElement o.root (⟨name, index⟩ :: outer) >>= _) _
  rw [Scope.currentElement, found]
  show Sound ((array.child _).withArray >>= _) _
  rw [Name.withArray, Name.parent_child]
  exact ⟨nested, rfl⟩

end Outline

theorem Line.assemble_sound (o : Options) (line : Line) (numbered : line.isNumbered = true)
    (named : line.isNamed = true) (number n : Nat) {out : Outline}
    (placed : NoMisplaced (line.events number))
    (sane : out.Sane o ((line.events number).count .blankLine + n)) :
    Sound (line.assemble o out) (Outline.Sane o n) := by
  obtain ⟨nested, few⟩ := sane
  have fresh : ({} : CommentQueue).blankLines + n < CommentQueue.blankLineLimit := by
    show 0 + n < CommentQueue.blankLineLimit
    omega
  cases line with
  | pair key x c =>
    simp only [events, pairEvents, NoMisplaced.append_iff] at placed
    simp only [events, pairEvents, List.count_append] at few
    refine Sound.bind (Outline.base_sound nested) fun base _ => ?_
    have named : Sound (do out.sheet.begin o (base.join (← key.segments)) out.comments.contents)
        fun _ => True :=
      Sound.bind (KeyPath.segments_sound number placed.1.1.1) fun _ _ =>
        Sheet.begin_sound o out.sheet _ _
    exact Sound.bind (Sound.bind named fun opened _ =>
      Value.assemble_sound o number x _ _ placed.1.1.2 (by omega)) fun _ _ => ⟨nested, fresh⟩
  | table key c =>
    simp only [events, NoMisplaced.append_iff, NoMisplaced.cons_iff] at placed
    refine Sound.bind (KeyPath.segments_sound number placed.1.2) fun path _ => ?_
    refine Sound.bind (Sound.bind (Outline.placeHeader_sound nested) fun name _ =>
      Sheet.begin_sound o out.sheet name _) fun opened _ => ?_
    exact ⟨nested, fresh⟩
  | tableArray key c =>
    simp only [events, NoMisplaced.append_iff, NoMisplaced.cons_iff] at placed
    -- The path is not empty, so the array lies below the root.
    have some_ : key ≠ [] := by simpa [isNamed] using named
    refine Sound.bind (KeyPath.segments_sound number placed.1.2) fun path nonempty => ?_
    refine Sound.bind (Sheet.checkFree_sound o out.sheet _) fun _ _ => ?_
    refine Sound.bind (Outline.openElement_sound nested
      (Name.isBelow_join o.root (nonempty some_))) fun opened result => ?_
    refine ⟨result.1, ?_⟩
    show opened.2.comments.blankLines + n < _
    rw [result.2]
    exact fresh
  | comment text => exact ⟨nested, fresh⟩
  | blank =>
    rw [events, List.count_singleton_self] at few
    exact Sound.bind (CommentQueue.newline_sound (n := n) (by omega)) fun _ few => ⟨nested, few⟩
  | raw e => cases numbered

namespace Document

/-- What a grammar reports: no event outside of a line, comments only in their places, elements only
of arrays that have a name, and blank lines that can be counted. -/
structure Grammatical (lines : List Line) : Prop where
  numbered : ∀ line ∈ lines, line.isNumbered = true
  named : ∀ line ∈ lines, line.isNamed = true
  placed : NoMisplaced (events lines)
  few : (events lines).count .blankLine < CommentQueue.blankLineLimit

theorem outline_sound (o : Options) {lines : List Line}
    (numbered : ∀ line ∈ lines, line.isNumbered = true)
    (named : ∀ line ∈ lines, line.isNamed = true) (before n : Nat) {out : Outline}
    (placed : NoMisplaced (lineEvents before lines))
    (sane : out.Sane o ((lineEvents before lines).count .blankLine + n)) :
    Sound (outline o lines out) (Outline.Sane o n) := by
  induction lines generalizing out before with
  | nil =>
    rw [lineEvents, List.count_nil, Nat.zero_add] at sane
    exact sane
  | cons line rest ih =>
    obtain ⟨numbered₁, numbered⟩ := List.forall_mem_cons.mp numbered
    obtain ⟨named₁, named⟩ := List.forall_mem_cons.mp named
    rw [lineEvents, NoMisplaced.append_iff] at placed
    rw [lineEvents, List.count_append, Nat.add_assoc] at sane
    unfold outline
    exact Sound.bind (line.assemble_sound o numbered₁ named₁ _ _ placed.1 sane) fun _ sane =>
      ih numbered named _ placed.2 sane

theorem lineEvents_append (before : Nat) (done rest : List Line) :
    lineEvents before (done ++ rest) =
      lineEvents before done ++ lineEvents (before + lineCount done) rest := by
  induction done generalizing before with
  | nil => rfl
  | cons line done ih =>
    have count : lineCount (line :: done) = lineCount done + if line.isNumbered then 1 else 0 :=
      List.countP_cons
    rw [List.cons_append, lineEvents, lineEvents, ih, List.append_assoc, count]
    cases line.isNumbered <;> simp [Nat.add_assoc, Nat.add_comm]

/-- The lines read so far are what a grammar reports, too. -/
theorem Grammatical.outline_sound {done lines : List Line} (h : Grammatical lines)
    (first : done <+: lines) (o : Options) (keys : KeySet) :
    Sound (outline o done (.start keys)) (Outline.Sane o 0) := by
  obtain ⟨rest, rfl⟩ := first
  have inner : (lineEvents 0 done).Sublist (events (done ++ rest)) := by
    rw [events, lineEvents_append, List.cons_append, List.append_assoc]
    exact (List.sublist_append_left _ _).cons _
  refine Document.outline_sound o (fun l member => h.numbered l (List.mem_append_left _ member))
    (fun l member => h.named l (List.mem_append_left _ member)) 0 0
    (fun e member => h.placed e (inner.subset member)) ⟨trivial, ?_⟩
  show 0 + ((lineEvents 0 done).count .blankLine + 0) < _
  have most := inner.count_le .blankLine
  have few := h.few
  omega

end Document

/-! ## Balanced states -/

namespace State

/-- The construct that the innermost open node came from. -/
def innermost (s : State) : Option Construct :=
  (s.nodes.stack.head?.bind s.nodes.get?).bind (·.key.construct)

/-- Nothing is half read: what is open is the root, the current element if an array of tables is
open, and a table if one was started. -/
structure Balanced (o : Options) (s : State) : Prop where
  opens : ∃ element tables, Scope.element o.root s.scopes = .ok element ∧
    tables.length = (if s.inTable then 1 else 0) ∧
    s.openNames = (tables ++ if s.scopes.isEmpty then [o.root] else [element, o.root]).map some
  table : s.inTable = true → s.innermost = some .table
  arrays : s.arrays = []
  draft : s.draft = none
  held : s.held = none
  tableHeader : s.tableHeader = false
  keyTakesComments : s.keyTakesComments = true

end State

theorem OpenNodes.Shows.live_eq {n : OpenNodes} {stack : List Node} {previous : Option Node}
    (h : n.Shows stack previous) : n.live = previous.toList.length + stack.length := by
  have members : ∀ id, n.holdersOf id ≠ 0 ↔ id ∈ n.previous.toList ++ n.stack := by
    intro id
    rw [holdersOf, ne_eq, List.count_eq_zero, Decidable.not_not]
  have last : n.previous.toList.length = previous.toList.length := by
    have same := congrArg Option.isSome h.previous_eq
    rw [Option.isSome_map, Option.isSome_map] at same
    rw [Option.length_toList, Option.length_toList, same]
  have open_ := congrArg List.length h.stack_eq
  rw [List.length_map, List.length_map] at open_
  rw [live, h.exact.counts.live_eq_length h.exact.valid h.distinct members, List.length_append, last, open_]

theorem Outline.Left.balanced {o : Options} {out : Outline} {s : State} (left : out.Left o s) :
    s.Balanced o := by
  obtain ⟨names, opens, open_, scopes⟩ := left.openNames_eq
  obtain ⟨element, found, rfl⟩ := Outline.openNames_eq_ok opens
  obtain ⟨stack, previous, -, inside, h⟩ := left
  have inTable : s.inTable = out.table.isSome := h.inTable
  refine ⟨⟨element, out.table.toList, scopes ▸ found, ?_, ?_⟩, fun open_ => ?_, h.arrays, h.draft,
    h.held, h.tableHeader, h.keyTakesComments⟩
  · rw [inTable, Option.length_toList]
  · rw [open_, scopes]
  · rw [inTable] at open_
    obtain ⟨node, outer, eq, construct⟩ := inside open_
    have nodes := h.nodes
    rw [show (out.view stack previous).stack = node :: outer from eq] at nodes
    obtain ⟨id, ids, slots, found, -⟩ := nodes.top
    rw [State.innermost, slots, List.head?_cons, Option.bind_some, found, Option.bind_some,
      construct]

/-- The root, an element and a table are open at most, and a pair is remembered. -/
theorem Outline.Left.liveNodes_le {o : Options} {out : Outline} {s : State} (left : out.Left o s) :
    s.liveNodes ≤ 4 := by
  obtain ⟨stack, previous, opens, -, h⟩ := left
  obtain ⟨element, -, names⟩ := Outline.openNames_eq_ok opens
  have open_ : stack.length ≤ 3 := by
    have length := congrArg List.length names
    rw [List.length_map, List.length_append, Option.length_toList] at length
    rw [length]
    split <;> split <;> simp
  have last : previous.toList.length ≤ 1 := by cases previous <;> simp
  rw [State.liveNodes, h.nodes.live_eq]
  show previous.toList.length + stack.length ≤ 4
  omega

/-! ## Runs -/

/-- After every line of a document, either the text is to blame for a fault or nothing is half
read. -/
theorem balanced_after_lines {done lines : List Line} (h : Document.Grammatical lines)
    (first : done <+: lines) (o : Options) (keys : KeySet) :
    let s := (State.start o keys).feedAll o (.documentStart :: Document.lineEvents 0 done)
    (∃ fault, s.fault = some fault ∧ fault.cause.faultClass = .semantic) ∨
      s.fault = none ∧ s.Balanced o ∧ s.liveNodes ≤ 4 := by
  have numbered : ∀ line ∈ done, line.isNumbered = true := fun l member =>
    h.numbered l (first.subset member)
  have sound := h.outline_sound first o keys
  have reflects := Document.reflects_lines numbered o keys
  cases outline : Document.outline o done (.start keys) with
  | error cause =>
    rw [outline] at reflects sound
    obtain ⟨location, stopped⟩ := reflects
    exact .inl ⟨_, stopped, sound⟩
  | ok out =>
    rw [outline] at reflects
    exact .inr ⟨reflects.2, reflects.1.balanced, reflects.1.liveNodes_le⟩

/-- Reading a document fails only where the text is to blame. -/
theorem parse_faults_semantic {lines : List Line} (h : Document.Grammatical lines) (o : Options)
    {fault : Fault} (failed : parse o (Document.events lines) = .error fault) :
    fault.cause.faultClass = .semantic := by
  have assembled := parse_eq_assemble h.numbered o
  have sound := h.outline_sound (List.prefix_refl lines) o ∅
  rw [failed, Document.assemble] at assembled
  cases outline : Document.outline o lines (.start ∅) with
  | ok out => rw [outline] at assembled; cases assembled
  | error cause =>
    rw [outline] at assembled sound
    cases assembled
    exact sound

/-- The lines of a document, in every order and with values of every depth, keep the reading
balanced: after each of them either the text is to blame for a fault or nothing is half read, with
at most four nodes; and nothing but the text is ever to blame. -/
theorem balanced_or_semantic {lines : List Line} (h : Document.Grammatical lines) (o : Options) :
    (∀ done, done <+: lines →
      let s := (State.start o ∅).feedAll o (.documentStart :: Document.lineEvents 0 done)
      (∃ fault, s.fault = some fault ∧ fault.cause.faultClass = .semantic) ∨
        s.fault = none ∧ s.Balanced o ∧ s.liveNodes ≤ 4) ∧
    ∀ fault, parse o (Document.events lines) = .error fault → fault.cause.faultClass = .semantic :=
  ⟨fun _ first => balanced_after_lines h first o ∅, fun _ failed => parse_faults_semantic h o failed⟩

/-- A value that is no value, three arrays deep. -/
def bareInArrays : Value :=
  .array [.value (.array [.value (.array [.value (.scalar (.verbatim .bare "b"))])])]

/-- An element of an array of tables, and a pair in it that cannot be read. -/
def stoppedLines : List Line :=
  [.tableArray [.verbatim .bare "t"] none, .pair [.verbatim .bare "a"] bareInArrays none]

theorem stoppedLines_grammatical : Document.Grammatical stoppedLines :=
  ⟨by decide, by decide, by unfold NoMisplaced; decide, by decide⟩

theorem balanced_or_semantic_stopped :
    Document.Grammatical stoppedLines ∧
    ∀ fault, parse {} (Document.events stoppedLines) = .error fault →
      fault.cause.faultClass = .semantic :=
  ⟨stoppedLines_grammatical, (balanced_or_semantic stoppedLines_grammatical {}).2⟩

/-- Where a fault stops a line, more nodes may be left than between lines. -/
theorem liveNodes_stopped :
    Document.Grammatical stoppedLines ∧
    ((State.start {} ∅).feedAll {} (.documentStart :: Document.lineEvents 0 stoppedLines)).liveNodes
      = 6 :=
  ⟨stoppedLines_grammatical, by decide⟩

end TomlSemantics
