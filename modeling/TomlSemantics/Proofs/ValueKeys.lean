import TomlSemantics.Proofs.Inventory

/-!
# Values put their inventory into the set

Whether a value of any depth can be read is decided by its parts and by the names that are free,
and what it puts into the set is its inventory. Only the numbers of the keys are left out.

1. `Decides`: a computation that succeeds just if a condition holds, and what its result meets.
2. `Fits`: the parts are accepted, and the names that are given are free and differ.
   `fits_append_iff`: one thing after another.
3. `Value.assemble_decides`: values of every depth.
-/

namespace TomlSemantics

/-! ## Computations that decide a condition -/

/-- The result is there only if a condition holds, and then meets another. If there is none although
the condition holds, blank lines were not few. -/
def Decides {α : Type} (few fits : Prop) (r : Except Cause α) (meets : α → Prop) : Prop :=
  match r with
  | .ok a => fits ∧ meets a
  | .error _ => few → ¬ fits

namespace Decides

variable {α β : Type} {few fewer fits all : Prop} {r : Except Cause α} {meets : α → Prop}

/-- What comes next decides the rest of a condition. -/
theorem bind {f : α → Except Cause β} {next : β → Prop} (h : Decides fewer fits r meets)
    (scarce : few → fewer) (needed : all → fits)
    (rest : ∀ a, fits → meets a → Decides few all (f a) next) : Decides few all (r >>= f) next := by
  cases r with
  | ok a => exact rest a h.1 h.2
  | error cause => exact fun scarce_ fit => h (scarce scarce_) (needed fit)

theorem iff (h : Decides few fits r meets) (same : fits ↔ all) : Decides few all r meets := by
  cases r with
  | ok a => exact ⟨same.mp h.1, h.2⟩
  | error cause => exact fun scarce fit => h scarce (same.mpr fit)

theorem imp {weaker : α → Prop} (h : Decides few fits r meets)
    (hw : ∀ a, fits → meets a → weaker a) : Decides few fits r weaker := by
  cases r with
  | ok a => exact ⟨h.1, hw a h.1 h.2⟩
  | error cause => exact h

theorem scarce (h : Decides fewer fits r meets) (scarce : few → fewer) :
    Decides few fits r meets := by
  cases r with
  | ok a => exact h
  | error cause => exact fun scarce_ => h (scarce scarce_)

end Decides

/-! ## Keys and sets without numbers -/

/-- A number says nothing about what a key holds. -/
theorem Key.isNew_of_unordered {k : Key} (h : k.unordered.IsNew) : k.IsNew :=
  ⟨h.value_eq, h.attributes_eq, h.trailing_eq⟩

/-- The set without the numbers of its keys. -/
def KeySet.unordered (s : KeySet) : KeySet := s.mapKeys Key.unordered

theorem KeySet.lookup_unordered (s : KeySet) (name : Name) :
    s.unordered.lookup name = (s.lookup name).map Key.unordered :=
  lookup_mapKeys s Key.unordered name

theorem KeySet.lookup_unordered_eq_none_iff {s : KeySet} {name : Name} :
    s.unordered.lookup name = none ↔ s.lookup name = none := by
  rw [lookup_unordered, Option.map_eq_none_iff]

theorem KeySet.unordered_append (s : KeySet) (k : Key) :
    (s.append k).unordered = s.unordered.append k.unordered :=
  mapKeys_append s k rfl

theorem KeySet.named_of_unordered {s : KeySet} (h : s.unordered.Named) : s.Named := by
  intro name k found
  refine h name k.unordered ?_
  rw [lookup_unordered, found]
  rfl

theorem isFree_unordered (o : Options) (s : KeySet) (name : Name) :
    Builder.isFree o s.unordered name = Builder.isFree o s name := by
  rw [Builder.isFree, KeySet.lookup_unordered]
  cases found : s.lookup name <;> simp only [Builder.isFree, found, Option.map]
  rfl

theorem KeySet.taken_unordered_iff {s : KeySet} {name : Name} :
    s.unordered.Taken name ↔ s.Taken name := by
  constructor
  · rintro ⟨k, found, no⟩
    rw [lookup_unordered] at found
    obtain ⟨l, before, rfl⟩ := Option.map_eq_some_iff.mp found
    exact ⟨l, before, no⟩
  · rintro ⟨k, found, no⟩
    exact ⟨k.unordered, by rw [lookup_unordered, found]; rfl, no⟩

theorem isFree_iff {s : KeySet} {name : Name} :
    Builder.isFree o s name = true ↔ ¬ s.Taken name ∨ name = o.root := by
  unfold Builder.isFree KeySet.Taken
  cases found : s.lookup name with
  | none => simp
  | some k => simp

theorem isFree_append_of_ne (o : Options) (s : KeySet) {k : Key} {name : Name}
    (h : k.name ≠ name) : Builder.isFree o (s.append k) name = Builder.isFree o s name := by
  rw [Builder.isFree, KeySet.lookup_append_of_ne s h, Builder.isFree]

/-- A name is free after keys that are no arrays of tables if it was, and none of them has it. -/
theorem isFree_appendAll_iff {o : Options} {s : KeySet} {keys : List Key} {name : Name}
    (noTableArray : ∀ k ∈ keys, k.isTableArray = false) (notRoot : name ≠ o.root) :
    Builder.isFree o (s.appendAll keys) name = true ↔
      Builder.isFree o s name = true ∧ name ∉ keys.map Key.name := by
  by_cases member : name ∈ keys.map Key.name
  · refine iff_of_false (fun free => ?_) fun h => h.2 member
    cases found : (s.appendAll keys).lookup name with
    | none => exact (KeySet.lookup_appendAll_eq_none_iff.mp found).2 member
    | some k =>
      have none := noTableArray k (KeySet.mem_of_lookup_appendAll_of_mem member found)
      rw [Builder.isFree, found] at free
      simp [none, notRoot] at free
  · rw [Builder.isFree, KeySet.lookup_appendAll_of_not_mem member, Builder.isFree]
    simp [member]

/-! ## What fits into a set -/

/-- The parts are accepted, and the names that are given differ and are free. -/
structure Fits (o : Options) (keys : KeySet) (parts : Parts) (names : List Name) : Prop where
  accepted : parts.Accepted o
  distinct : names.Nodup
  free : ∀ p ∈ names, Builder.isFree o keys p = true

variable {o : Options} {keys : KeySet} {a b : Inventory} {first later : Parts}

theorem Fits.empty (o : Options) (keys : KeySet) : Fits o keys {} [] :=
  ⟨Parts.accepted_empty o, .nil, nofun⟩

/-- Whether one thing after another fits: the first does, and then the other, into the set that has
the keys of the first. -/
theorem fits_append_iff (keys : KeySet) {region owner region₂ owner₂ : Name → Prop}
    (ha : first.Accepted o → a.Sits region owner) (hb : later.Accepted o → b.Sits region₂ owner₂)
    (apart : ∀ p, region₂ p → ¬ owner p ∧ p ≠ o.root) :
    Fits o keys (first ++ later) (a ++ b).productions ↔
      Fits o keys first a.productions ∧ Fits o (keys.appendAll a.keys) later b.productions := by
  have free_iff : first.Accepted o → later.Accepted o → ∀ p ∈ b.productions,
      (Builder.isFree o (keys.appendAll a.keys) p = true ↔
        Builder.isFree o keys p = true ∧ p ∉ a.productions) := by
    intro ok₁ ok₂ p given
    obtain ⟨k, inB, rfl⟩ := List.mem_map.mp ((hb ok₂).given p given)
    obtain ⟨notOwner, notRoot⟩ := apart _ ((hb ok₂).inside k inB)
    rw [isFree_appendAll_iff (ha ok₁).noTableArray notRoot,
      (ha ok₁).mem_names_iff ((hb ok₂).plain _ given) notOwner]
  rw [Inventory.productions_append]
  constructor
  · rintro ⟨accepted, distinct, free⟩
    obtain ⟨ok₁, ok₂⟩ := Parts.accepted_append_iff.mp accepted
    obtain ⟨distinct₁, distinct₂, other⟩ := List.nodup_append.mp distinct
    obtain ⟨free₁, free₂⟩ := List.forall_mem_append.mp free
    refine ⟨⟨ok₁, distinct₁, free₁⟩, ok₂, distinct₂, fun p given => ?_⟩
    exact (free_iff ok₁ ok₂ p given).mpr ⟨free₂ p given, fun inA => other p inA p given rfl⟩
  · rintro ⟨⟨ok₁, distinct₁, free₁⟩, ok₂, distinct₂, free₂⟩
    have apart₂ := fun p given => (free_iff ok₁ ok₂ p given).mp (free₂ p given)
    refine ⟨Parts.accepted_append_iff.mpr ⟨ok₁, ok₂⟩, List.nodup_append.mpr
      ⟨distinct₁, distinct₂, fun p inA q inB same => (apart₂ q inB).2 (same ▸ inA)⟩,
      List.forall_mem_append.mpr ⟨free₁, fun p given => (apart₂ p given).1⟩⟩

/-- Other names do not matter. -/
theorem fits_append_key_iff {k : Key} {names : List Name}
    (other : first.Accepted o → k.name ∉ names) :
    Fits o (keys.append k) first names ↔ Fits o keys first names := by
  have free_iff : first.Accepted o → ∀ p ∈ names,
      Builder.isFree o (keys.append k) p = Builder.isFree o keys p := fun ok p given =>
    isFree_append_of_ne o keys fun same => other ok (same ▸ given)
  constructor
  · rintro ⟨ok, distinct, free⟩
    exact ⟨ok, distinct, fun p given => (free_iff ok p given).symm.trans (free p given)⟩
  · rintro ⟨ok, distinct, free⟩
    exact ⟨ok, distinct, fun p given => (free_iff ok p given).trans (free p given)⟩

/-! ## Pairs -/

theorem KeyPath.segments_decides (few : Prop) (key : KeyPath) :
    Decides few key.Accepted key.segments fun path => path = key.path := by
  by_cases accepted : key.Accepted
  · rw [KeyPath.segments_eq accepted]
    exact ⟨accepted, rfl⟩
  · cases found : key.segments with
    | ok path => exact absurd (KeyPath.accepted_of_segments found) accepted
    | error cause => exact fun _ => accepted

theorem Sheet.begin_decides (few : Prop) (sheet : Sheet) (name : Name) (block : List BlockEntry) :
    Decides few (Builder.isFree o sheet.keys.unordered name = true) (sheet.begin o name block)
      fun opened => opened.1.unordered = ({ name } : Key).addLeading block ∧
        opened.2.keys = sheet.keys := by
  rw [isFree_unordered, Sheet.begin, Sheet.checkFree]
  by_cases free : Builder.isFree o sheet.keys name = true
  · rw [if_pos free]
    exact ⟨free, rfl, rfl⟩
  · rw [if_neg free]
    exact fun _ => free

/-- Reading a value puts its own key and its inventory into the set, just if it fits there. -/
def Value.Stores (o : Options) (few : Prop) (v : Value) (own : Key) (sheet : Sheet) : Prop :=
  Decides few (Fits o sheet.keys.unordered v.parts (v.inner own.name).productions)
    (v.assemble o own sheet) fun made =>
      made.1 = v.mark own ∧ made.2.keys.unordered =
        (sheet.keys.unordered.append (v.mark own.unordered)).appendAll (v.inner own.name).keys

/-- A pair fits if its key is accepted, its name is free, and its value fits below that. -/
theorem fits_pair_iff (keys : KeySet) {key : KeyPath} {v : Value} {table : Name}
    (below : v.parts.Accepted o → ∀ q ∈ (v.inner (table.join key.path)).productions,
      q.isBelow (table.join key.path) = true) :
    Fits o keys (partsOfPair (key, v)) (pairBelow (key, v) table).productions ↔
      key.Accepted ∧ Builder.isFree o keys (table.join key.path) = true ∧
        Fits o keys v.parts (v.inner (table.join key.path)).productions := by
  rw [partsOfPair, pairBelow]
  constructor
  · rintro ⟨accepted, distinct, free⟩
    obtain ⟨own, ok⟩ := Parts.accepted_append_iff.mp accepted
    obtain ⟨free₁, free₂⟩ := List.forall_mem_cons.mp free
    exact ⟨own.keys key (List.mem_singleton.mpr rfl), free₁, ok, distinct.of_cons, free₂⟩
  · rintro ⟨own, free₁, ok, distinct, free₂⟩
    refine ⟨Parts.accepted_append_iff.mpr ⟨⟨List.forall_mem_singleton.mpr own, nofun, nofun⟩, ok⟩,
      List.nodup_cons.mpr ⟨fun given => ?_, distinct⟩, List.forall_mem_cons.mpr ⟨free₁, free₂⟩⟩
    exact Name.isBelow_irrefl _ (below ok _ given)

/-- A pair below a table puts its key and the inventory of its value into the set. -/
theorem assembleBelow_decides {few : Prop} {key : KeyPath} {v : Value} {table : Name}
    (block : List BlockEntry) (sheet : Sheet)
    (below : v.parts.Accepted o → ∀ q ∈ (v.inner (table.join key.path)).productions,
      q.isBelow (table.join key.path) = true)
    (stores : ∀ own sheet', own.name = table.join key.path → own.IsNew →
      sheet'.keys = sheet.keys → v.Stores o few own sheet') :
    Decides few
      (Fits o sheet.keys.unordered (partsOfPair (key, v)) (pairBelow (key, v) table).productions)
      (assembleBelow o table block key v sheet) fun made =>
        let own := v.mark (({ name := table.join key.path } : Key).addLeading block)
        made.1.unordered = own ∧ made.2.keys.unordered =
          (sheet.keys.unordered.append own).appendAll (v.inner (table.join key.path)).keys := by
  rw [assembleBelow, bind_assoc]
  have fits := fits_pair_iff sheet.keys.unordered below
  refine (KeyPath.segments_decides few key).bind id (fun fit => (fits.mp fit).1) fun path ok found => ?_
  subst found
  refine (Sheet.begin_decides few sheet _ block).bind id (fun fit => (fits.mp fit).2.1)
    fun opened free begun => ?_
  obtain ⟨own, sheet'⟩ := opened
  obtain ⟨unordered, keys⟩ := begun
  have name : own.name = table.join key.path := congrArg Key.name unordered
  have new : own.IsNew := Key.isNew_of_unordered (unordered ▸ ⟨rfl, rfl, rfl⟩)
  have stored := stores own sheet' name new keys
  rw [Value.Stores, name, keys, unordered] at stored
  refine (stored.imp fun made _ result => ?_).iff
    ⟨fun fit => fits.mpr ⟨ok, free, fit⟩, fun fit => (fits.mp fit).2.2⟩
  exact ⟨by rw [result.1, Value.unordered_mark, unordered], result.2⟩

/-! ## Arrays -/

/-- The set with the comment on the line of the last element, if both are there. -/
def KeySet.settle (keys : KeySet) : Option Key → Option Comment → KeySet
  | some last, some c => keys.append (last.setInline c).unordered
  | _, _ => keys

namespace ArrayDraft

/-- An array that has read a number of elements, and a run after the last of them. -/
structure Reads (a : ArrayDraft) (own : Key) (index : Nat) (run : List Remark) : Prop where
  array : a.array = own.holding (.ofArray index)
  next : a.next = index
  last : a.last.isSome = decide (index ≠ 0)
  comments : a.comments = queueOf run

variable {a : ArrayDraft} {own : Key} {index : Nat} {run : List Remark}

theorem Reads.start (new : own.IsNew) (sheet : Sheet) :
    ({ array := own.markArray, sheet } : ArrayDraft).Reads own 0 [] := by
  have array := own.markArray_holding {}
  rw [new.holding_empty] at array
  exact ⟨array, rfl, rfl, rfl⟩

theorem Reads.take (h : a.Reads own index run) (r : Remark) :
    ({ a with comments := (queueOf run).take r } : ArrayDraft).Reads own index (run ++ [r]) :=
  ⟨h.array, h.next, h.last, (queueOf_concat run r).symm⟩

/-- The last element gets the comment that the run starts with. -/
theorem Reads.settle (h : a.Reads own index run) :
    a.settle.array = a.array ∧ a.settle.next = a.next ∧
      a.settle.comments = queueOf (runBefore index run) ∧
      a.settle.sheet.keys.unordered = a.sheet.keys.unordered.settle a.last (inlineOf run) := by
  have first := takeFirst_queueOf run
  rw [← h.comments] at first
  unfold ArrayDraft.settle
  cases last : a.last with
  | none =>
    have zero : index = 0 := by simpa [last] using h.last
    refine ⟨rfl, rfl, ?_, rfl⟩
    rw [runBefore, if_pos zero]
    exact h.comments
  | some key =>
    have more : index ≠ 0 := by simpa [last] using h.last
    rw [runBefore, if_neg more]
    cases comment : inlineOf run with
    | none =>
      rw [comment] at first
      rw [show a.comments.takeFirst = none from first]
      refine ⟨rfl, rfl, ?_, rfl⟩
      -- The run starts with a blank line or not at all: nothing is taken from it.
      have same : afterInline run = run := by
        cases run with
        | nil => rfl
        | cons r run => cases r <;> first | rfl | cases comment
      rw [same]
      exact h.comments
    | some c =>
      rw [comment] at first
      rw [show a.comments.takeFirst = some (c, queueOf (afterInline run)) from first]
      exact ⟨rfl, rfl, rfl, KeySet.unordered_append _ _⟩

theorem markLastElement_ofArray (own : Key) (index : Nat) :
    (own.holding (.ofArray index)).markLastElement index = own.holding (.ofArray (index + 1)) := by
  rw [Key.markLastElement_holding]
  cases index <;> rfl

/-- The key of the next element. -/
theorem Reads.element (h : a.Reads own index run) :
    a.settle.element = elementKey own.name index run [] := by
  obtain ⟨array, next, comments, -⟩ := h.settle
  rw [ArrayDraft.element, array, next, comments, h.array, h.next, contents_queueOf]
  rfl

theorem Reads.add (h : a.Reads own index run) (key : Key) (sheet : Sheet) :
    (a.settle.add key sheet).Reads own (index + 1) [] := by
  obtain ⟨array, next, -, -⟩ := h.settle
  refine ⟨?_, ?_, rfl, rfl⟩
  · show a.settle.array.markLastElement a.settle.next = _
    rw [array, next, h.array, h.next, markLastElement_ofArray]
  · show a.settle.next + 1 = _
    rw [next, h.next]

/-- The array with all its elements, and the comments after the last. -/
theorem Reads.finish (h : a.Reads own index run) :
    a.finish.1 = (own.holding (.ofArray index)).addTrailing (blockOf (runBefore index run)) ∧
      a.finish.2.keys.unordered =
        (a.sheet.keys.unordered.settle a.last (inlineOf run)).append a.finish.1.unordered := by
  obtain ⟨array, -, comments, keys⟩ := h.settle
  refine ⟨?_, ?_⟩
  · show a.settle.array.addTrailing a.settle.comments.contents = _
    rw [array, comments, h.array, contents_queueOf]
  · rw [← keys]
    exact KeySet.unordered_append _ _

end ArrayDraft

/-- An element that gets the comment on its line later might as well have had it from the start. -/
theorem KeySet.settle_element {keys : KeySet} {v : Value} {array : Name} {index : Nat}
    {run after : List Remark} {inner : List Key}
    (other : array.child (ElementIndex.segment index) ∉ inner.map Key.name) :
    ((keys.append (v.mark (elementKey array index run []))).appendAll inner).settle
        (some (v.mark (elementKey array index run []))) (inlineOf after) =
      (keys.append (v.mark (elementKey array index run after))).appendAll inner := by
  cases comment : inlineOf after with
  | none =>
    have same : elementKey array index run after = elementKey array index run [] := by
      rw [elementKey, comment]
      rfl
    rw [same]
    rfl
  | some c =>
    have same : (elementKey array index run []).setInline c = elementKey array index run after := by
      rw [elementKey, elementKey, comment]
      rfl
    rw [settle, Value.setInline_mark, same, Value.unordered_mark]
    refine append_appendAll_append keys ?_ ?_
    · rw [v.name_mark, v.name_mark]
      rfl
    · rw [v.name_mark]
      exact other

/-! ## Values of every depth -/

theorem fits_scalar_iff {s : Scalar} : Fits o keys { scalars := [s] } [] ↔ s.IsValue := by
  constructor
  · rintro ⟨accepted, -, -⟩
    exact accepted.scalars s (List.mem_singleton.mpr rfl)
  · intro value
    exact ⟨⟨nofun, List.forall_mem_singleton.mpr value, nofun⟩, .nil, nofun⟩

theorem fits_array_iff {n : Nat} {names : List Name} :
    Fits o keys ({ arraySizes := [n] } ++ first) names ↔
      n ≤ o.maxArrayElements ∧ Fits o keys first names := by
  constructor
  · rintro ⟨accepted, distinct, free⟩
    obtain ⟨own, ok⟩ := Parts.accepted_append_iff.mp accepted
    exact ⟨own.arrays n (List.mem_singleton.mpr rfl), ok, distinct, free⟩
  · rintro ⟨few, ok, distinct, free⟩
    refine ⟨Parts.accepted_append_iff.mpr ⟨⟨nofun, nofun, ?_⟩, ok⟩, distinct, free⟩
    exact List.forall_mem_singleton.mpr few

/-- What the items of an array put into the set, once the last element before them has the comment
on its line. -/
def ArrayDraft.Stores (o : Options) (few : Prop) (items : List Item) (own : Key) (index : Nat)
    (run : List Remark) (a : ArrayDraft) : Prop :=
  let before := a.sheet.keys.unordered.settle a.last (inlineOf (run ++ firstRun items))
  let inventory := itemsBelow items own.name index run
  let count := index + elementCount items
  Decides few (count ≤ o.maxArrayElements ∧ Fits o before (partsOfItems items) inventory.productions)
    (assembleItems o items a) fun b =>
      let made := b.finish
      made.1 = (own.holding (.ofArray count)).addTrailing
          (blockOf (runBefore count (lastRun items run))) ∧
        made.2.keys.unordered = (before.appendAll inventory.keys).append made.1.unordered

/-- An element, with what lies below it. -/
def elementBelow (v : Value) (array : Name) (index : Nat) (run after : List Remark) : Inventory :=
  .ofKey (v.mark (elementKey array index run after))
    ++ v.inner (array.child (ElementIndex.segment index))

/-- Elements fit one after another. -/
theorem fits_value_iff (keys : KeySet) (run : List Remark)
    (small : o.maxArrayElements < ElementIndex.limit) {v : Value}
    {items : List Item} {array : Name} {index : Nat}
    (named : (partsOfItems (.value v :: items)).Named) (within : array.isWithin o.root = true)
    (few : index + 1 + elementCount items ≤ o.maxArrayElements) :
    Fits o keys (partsOfItems (.value v :: items))
        (itemsBelow (.value v :: items) array index run).productions ↔
      Fits o keys v.parts (v.inner (array.child (ElementIndex.segment index))).productions ∧
        Fits o (keys.appendAll (elementBelow v array index run (firstRun items)).keys)
          (partsOfItems items) (itemsBelow items array (index + 1) []).productions := by
  rw [partsOfItems, Parts.named_append_iff] at named
  rw [partsOfItems, itemsBelow]
  refine fits_append_iff keys
    (fun ok => Value.own_sits (elementKey array index run (firstRun items))
      (v.inner_sits small _ named.1 ok))
    (fun ok => itemsBelow_sits small items array (index + 1) [] named.2 ok (by omega))
    fun p ⟨j, _, _, inside⟩ => ?_
  have below := Name.isBelow_of_isWithin_of_isBelow inside (Name.isBelow_child array _)
  refine ⟨fun same => ?_, Name.ne_of_isBelow_of_isWithin below within⟩
  have stem : (array.child (ElementIndex.segment index)).stem = array.stem :=
    Name.stem_child_segment array (by omega)
  exact Name.ne_stem_of_isBelow below (same.trans stem)

theorem assembleItems_value {v : Value} {items : List Item} {a : ArrayDraft}
    (few : ¬ o.maxArrayElements ≤ a.next) :
    assembleItems o (.value v :: items) a = (do
      let made ← v.assemble o a.settle.element a.settle.sheet
      assembleItems o items (a.settle.add made.1 made.2)) := by
  rw [assembleItems, Item.assemble, if_neg few]
  show (v.assemble o a.settle.element a.settle.sheet >>= _) >>= _ = _
  rw [bind_assoc]
  rfl

/-- The set after an element, which by then has the comment on its line. -/
theorem ArrayDraft.settle_add {a : ArrayDraft} {v : Value} {own : Key} {index : Nat}
    {run after : List Remark} {made : Key × Sheet}
    (other : own.name.child (ElementIndex.segment index) ∉
      (v.inner (own.name.child (ElementIndex.segment index))).keys.map Key.name)
    (same : made.1 = v.mark (elementKey own.name index run []))
    (keys : made.2.keys.unordered = (a.settle.sheet.keys.unordered.append
      (v.mark (elementKey own.name index run []))).appendAll
        (v.inner (own.name.child (ElementIndex.segment index))).keys) :
    (a.settle.add made.1 made.2).sheet.keys.unordered.settle (a.settle.add made.1 made.2).last
        (inlineOf ([] ++ after)) =
      a.settle.sheet.keys.unordered.appendAll (elementBelow v own.name index run after).keys := by
  show made.2.keys.unordered.settle (some made.1) _ = _
  rw [keys, same]
  exact KeySet.settle_element other

/-- An element, and what stands after it. If the array is too long already, no element fits. -/
theorem ArrayDraft.Stores.value (small : o.maxArrayElements < ElementIndex.limit) {few : Prop}
    {v : Value} {items : List Item} {own : Key} {index : Nat} {run : List Remark} {a : ArrayDraft}
    (named : (partsOfItems (.value v :: items)).Named) (within : own.name.isWithin o.root = true)
    (reads : a.Reads own index run)
    (inner : v.Stores o few (elementKey own.name index run []) a.settle.sheet)
    (rest : ∀ made : Key × Sheet, index + 1 ≤ o.maxArrayElements →
      (a.settle.add made.1 made.2).Stores o few items own (index + 1) []) :
    a.Stores o few (.value v :: items) own index run := by
  have count : index + elementCount (.value v :: items) = index + 1 + elementCount items := by
    rw [elementCount]
    omega
  rw [ArrayDraft.Stores, count]
  -- A full array faults before the element is looked at.
  by_cases full : o.maxArrayElements ≤ index
  · rw [assembleItems, Item.assemble, reads.next, if_pos full]
    exact fun _ fit => by omega
  have fits (few : index + 1 + elementCount items ≤ o.maxArrayElements) :=
    fits_value_iff a.settle.sheet.keys.unordered run small named within few
  obtain ⟨-, -, -, before⟩ := reads.settle
  rw [partsOfItems, Parts.named_append_iff] at named
  rw [assembleItems_value (reads.next ▸ full), reads.element, firstRun, List.append_nil, ← before]
  refine Decides.bind inner id (fun fit => ((fits fit.1).mp fit.2).1) fun made fit made_ => ?_
  obtain ⟨same, keys⟩ := made_
  have rest := rest made (by omega)
  rw [Stores, settle_add (Value.not_mem_inner small _ named.1 fit.accepted) same keys,
    ← KeySet.appendAll_append] at rest
  refine rest.iff ⟨fun later => ?_, fun fit => ?_⟩
  · exact ⟨later.1, (fits later.1).mpr ⟨fit, later.2⟩⟩
  · exact ⟨fit.1, ((fits fit.1).mp fit.2).2⟩

mutual

/-- Reading a value below the root puts its own key and its inventory into the set, just if it
fits there. -/
theorem Value.assemble_decides (small : o.maxArrayElements < ElementIndex.limit) (line : Nat) :
    ∀ (v : Value) (own : Key) (sheet : Sheet), own.IsNew → v.parts.Named →
    own.name.isWithin o.root = true →
    v.Stores o ((v.events line).count .blankLine < CommentQueue.blankLineLimit) own sheet
  | .scalar s, own, sheet, new, _, _ => by
    rw [Value.Stores, Value.assemble, Value.parts, Value.inner, fits_scalar_iff]
    by_cases value : s.IsValue
    · obtain ⟨text, storage, canonical, kind, stored⟩ := value.storedForm_eq
      rw [value.checkValue_eq, stored]
      have mark : (Value.scalar s).mark own = own.store storage text s.spelling := by
        have held := own.store_holding kind text
        rw [new.holding_empty] at held
        rw [held, Value.mark_eq_holding new rfl, Value.holding, canonical]
        rfl
      rw [← Value.unordered_mark, mark]
      exact ⟨value, rfl, KeySet.unordered_append _ _⟩
    · cases checked : s.checkValue with
      | error cause => exact fun _ => value
      | ok _ =>
        cases stored : Builder.storedForm s with
        | error cause => exact fun _ => value
        | ok form => exact absurd (Scalar.isValue_of_ok checked stored) value
  | .array items, own, sheet, new, named, within => by
    have other := Value.not_mem_inner (o := o) small own.name named
    rw [Value.parts, Parts.named_append_iff] at named
    have elements := assembleItems_decides small line items own 0 [] _ named.2 within
      (.start new sheet) (Nat.zero_le _)
    rw [ArrayDraft.Stores, Nat.zero_add] at elements
    rw [Value.Stores, Value.assemble, Value.parts, fits_array_iff]
    refine elements.bind (fun few => ?_) id fun b fit made =>
      ⟨fit, made.1.trans (Value.mark_array new).symm, ?_⟩
    · exact Nat.lt_of_le_of_lt (Nat.zero_add _ ▸ (itemEvents_sublist line items).count_le _) few
    · have mark : b.finish.1.unordered = (Value.array items).mark own.unordered := by
        rw [← Value.unordered_mark, Value.mark_array new, made.1]
      have accepted := (fits_array_iff.mpr fit).accepted
      -- An array's own key is put last, but its inventory lists it first.
      rw [KeySet.append_appendAll_comm _ (by rw [Value.name_mark]; exact other accepted), ← mark]
      exact made.2
  | .inlineTable pairs, own, sheet, new, named, within => by
    have other := Value.not_mem_inner (o := o) small own.name named
    have inner := assemblePairs_decides small line pairs own.name
      (sheet.put (own.setConstruct .inlineTable)) named within
    have mark : (Value.inlineTable pairs).mark own = own.setConstruct .inlineTable := by
      have set := own.setConstruct_holding {} .inlineTable
      rw [new.holding_empty] at set
      rw [set, Value.mark_eq_holding new rfl]
      rfl
    have put : (sheet.put (own.setConstruct .inlineTable)).keys.unordered =
        sheet.keys.unordered.append ((Value.inlineTable pairs).mark own.unordered) := by
      rw [← Value.unordered_mark, mark]
      exact KeySet.unordered_append _ _
    have given : (partsOfPairs pairs).Accepted o →
        ((Value.inlineTable pairs).mark own.unordered).name ∉
          (pairsBelow pairs own.name).productions := by
      intro ok member
      rw [Value.name_mark] at member
      exact other ok ((pairsBelow_sits small pairs own.name named ok).given _ member)
    rw [put, fits_append_key_iff given] at inner
    rw [Value.Stores, Value.assemble, Value.parts, Value.inner]
    refine inner.bind (fun few => ?_) id fun made fit keys => ⟨fit, mark.symm, keys⟩
    exact Nat.lt_of_le_of_lt ((pairsEvents_sublist line pairs).count_le _) few

theorem assembleItems_decides (small : o.maxArrayElements < ElementIndex.limit) (line : Nat) :
    ∀ (items : List Item) (own : Key) (index : Nat) (run : List Remark) (a : ArrayDraft),
    (partsOfItems items).Named → own.name.isWithin o.root = true → a.Reads own index run →
    index ≤ o.maxArrayElements →
    a.Stores o ((queueOf run).blankLines + (itemEvents line items).count .blankLine <
      CommentQueue.blankLineLimit) items own index run
  | [], own, index, run, a, _, _, reads, few => by
    rw [ArrayDraft.Stores, assembleItems]
    refine ⟨⟨few, .empty o _⟩, ?_⟩
    rw [firstRun, List.append_nil]
    exact reads.finish
  | .value v :: items, own, index, run, a, named, within, reads, _ => by
    have parts := named
    rw [partsOfItems, Parts.named_append_iff] at parts
    have events : (itemEvents line (.value v :: items)).count .blankLine =
        (v.events line).count .blankLine + (itemEvents line items).count .blankLine := by
      simp [itemEvents, Item.events]
    have element : (own.name.child (ElementIndex.segment index)).isWithin o.root = true :=
      Name.isWithin_trans (Name.isWithin_join _ _) within
    have inner := v.assemble_decides small line (elementKey own.name index run [])
      a.settle.sheet ⟨rfl, rfl, rfl⟩ parts.1 element
    refine .value small named within reads (inner.scarce fun few => by omega) fun made few => ?_
    refine Decides.scarce (assembleItems_decides small line items own (index + 1) []
      (a.settle.add made.1 made.2) parts.2 within (reads.add _ _) few) fun few => ?_
    show 0 + _ < _
    omega
  | .comment text :: items, own, index, run, a, named, within, reads, few => by
    have rest := assembleItems_decides small line items own index _ _ named within
      (reads.take (.comment text)) few
    rw [ArrayDraft.Stores, List.append_assoc, queueOf_concat] at rest
    rw [ArrayDraft.Stores, assembleItems, Item.assemble, reads.comments]
    refine Decides.scarce rest fun few => ?_
    have blankLines : ((queueOf run).take (.comment text)).blankLines = 0 := rfl
    rw [blankLines]
    simp only [itemEvents, List.count_append] at few
    omega
  | .blankLine :: items, own, index, run, a, named, within, reads, few => by
    have rest := assembleItems_decides small line items own index _ _ named within
      (reads.take .blank) few
    rw [ArrayDraft.Stores, List.append_assoc, queueOf_concat] at rest
    rw [ArrayDraft.Stores, assembleItems, Item.assemble, reads.comments, CommentQueue.newline_eq]
    have count : (itemEvents line (.blankLine :: items)).count .blankLine =
        1 + (itemEvents line items).count .blankLine := by
      rw [itemEvents, Item.events, List.count_append, List.count_singleton_self]
    have blankLines : ((queueOf run).take .blank).blankLines = (queueOf run).blankLines + 1 := rfl
    split
    · exact Decides.scarce rest fun few => by omega
    · exact fun few => by omega

theorem assemblePair_decides (small : o.maxArrayElements < ElementIndex.limit) (line : Nat) :
    ∀ (pair : KeyPath × Value) (table : Name) (sheet : Sheet), (partsOfPair pair).Named →
    table.isWithin o.root = true →
    Decides ((pairEvents line pair).count .blankLine < CommentQueue.blankLineLimit)
      (Fits o sheet.keys.unordered (partsOfPair pair) (pairBelow pair table).productions)
      (assemblePair o pair table sheet) fun made =>
        made.keys.unordered = sheet.keys.unordered.appendAll (pairBelow pair table).keys
  | (key, v), table, sheet, named, within => by
    have inner := named
    rw [partsOfPair, Parts.named_append_iff] at inner
    rw [assemblePair_eq, pairEvents, List.count_append, List.count_append]
    refine (assembleBelow_decides [] sheet (Value.inner_isBelow small inner.2)
      fun own sheet' name new _ => ?_).bind id id fun made fit result => ⟨fit, result.2⟩
    · refine Decides.scarce (v.assemble_decides small line own sheet' new inner.2 ?_)
        fun few => by omega
      rw [name]
      exact Name.isWithin_trans (Name.isWithin_join table _) within

theorem assemblePairs_decides (small : o.maxArrayElements < ElementIndex.limit) (line : Nat) :
    ∀ (pairs : List (KeyPath × Value)) (table : Name) (sheet : Sheet), (partsOfPairs pairs).Named →
    table.isWithin o.root = true →
    Decides ((pairsEvents line pairs).count .blankLine < CommentQueue.blankLineLimit)
      (Fits o sheet.keys.unordered (partsOfPairs pairs) (pairsBelow pairs table).productions)
      (assemblePairs o pairs table sheet) fun made =>
        made.keys.unordered = sheet.keys.unordered.appendAll (pairsBelow pairs table).keys
  | [], table, sheet, _, _ => by
    unfold assemblePairs
    exact ⟨.empty o _, rfl⟩
  | pair :: pairs, table, sheet, named, within => by
    rw [partsOfPairs, Parts.named_append_iff] at named
    rw [assemblePairs, partsOfPairs, pairsBelow, pairsEvents, List.count_append]
    have fits := fits_append_iff sheet.keys.unordered
      (pairBelow_sits small pair table named.1) (pairsBelow_sits small pairs table named.2)
      fun p below => ⟨id, Name.ne_of_isBelow_of_isWithin below within⟩
    refine (assemblePair_decides small line pair table sheet named.1 within).bind
      (fun few => by omega) (fun fit => (fits.mp fit).1) fun made fit keys => ?_
    have rest := assemblePairs_decides small line pairs table made named.2 within
    rw [keys, ← KeySet.appendAll_append] at rest
    exact (rest.scarce fun few => by omega).iff
      ⟨fun later => fits.mpr ⟨fit, later⟩, fun fit => (fits.mp fit).2⟩

end

/-- A pair below a table at or below the root, with the comments before it. -/
theorem assembleBelow_stores (small : o.maxArrayElements < ElementIndex.limit) (line : Nat)
    {key : KeyPath} {v : Value} {table : Name} (block : List BlockEntry) (sheet : Sheet)
    (named : (partsOfPair (key, v)).Named) (within : table.isWithin o.root = true) :
    Decides ((v.events line).count .blankLine < CommentQueue.blankLineLimit)
      (Fits o sheet.keys.unordered (partsOfPair (key, v)) (pairBelow (key, v) table).productions)
      (assembleBelow o table block key v sheet) fun made =>
        let own := v.mark (({ name := table.join key.path } : Key).addLeading block)
        made.1.unordered = own ∧ made.2.keys.unordered =
          (sheet.keys.unordered.append own).appendAll (v.inner (table.join key.path)).keys := by
  rw [partsOfPair, Parts.named_append_iff] at named
  refine assembleBelow_decides block sheet (Value.inner_isBelow small named.2)
    fun own sheet' name new _ => v.assemble_decides small line own sheet' new named.2 ?_
  rw [name]
  exact Name.isWithin_trans (Name.isWithin_join table _) within

end TomlSemantics
