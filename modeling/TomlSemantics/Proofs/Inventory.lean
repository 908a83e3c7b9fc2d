import Mathlib.Data.List.Nodup
import TomlSemantics.Proofs.Holding
import TomlSemantics.Proofs.Key
import TomlSemantics.Proofs.Remark
import TomlSemantics.Proofs.Spelling
import TomlSemantics.Proofs.Stem

/-!
# What a value puts into the set

A value puts certain keys into the set, under names that can be read off the document alone. An
`Inventory` lists them, together with the names that the document gives for that.

1. `Value.holding`, `Value.trailing`: what a value leaves in its own key, and the comments after its
   last element. `Value.mark` is that key, `Value.inner` what the value puts below it.
2. `Value.parts`: the keys, scalars and arrays that a value is made of, and `Parts.Accepted`, what
   is asked of them.
3. `Inventory.Sits`: every key belongs to a name that the document gives, and if those names differ,
   the names of all keys do. `Value.inner_sits`: values of every depth.
-/

namespace TomlSemantics

/-! ## Runs in arrays -/

/-- The run before the first element. -/
def firstRun : List Item → List Remark
  | [] | .value _ :: _ => []
  | .comment text :: items => .comment text :: firstRun items
  | .blankLine :: items => .blank :: firstRun items

/-- The run after the last element, or all of it if there is none, after the run so far. -/
def lastRun : List Item → List Remark → List Remark
  | [], run => run
  | .value _ :: items, _ => lastRun items []
  | .comment text :: items, run => lastRun items (run ++ [.comment text])
  | .blankLine :: items, run => lastRun items (run ++ [.blank])

/-- The number of elements. -/
def elementCount : List Item → Nat
  | [] => 0
  | .value _ :: items => elementCount items + 1
  | .comment _ :: items | .blankLine :: items => elementCount items

/-- The run before the element at an index, without the comment of the element before it. -/
def runBefore (index : Nat) (run : List Remark) : List Remark :=
  if index = 0 then run else afterInline run

/-! ## Keys of values -/

/-- What a value leaves in its own key. A scalar without a canonical text leaves nothing. -/
def Value.holding : Value → Holding
  | .scalar s => (s.canonical.toOption.map s.holding).getD {}
  | .array items => .ofArray (elementCount items)
  | .inlineTable _ => { construct := some "inlinetable" }

/-- The comments after the last element of an array. -/
def Value.trailing : Value → List BlockEntry
  | .array items => blockOf (runBefore (elementCount items) (lastRun items []))
  | .scalar _ | .inlineTable _ => []

/-- The key that a value makes of its own. -/
def Value.mark (v : Value) (own : Key) : Key :=
  { own.holding v.holding with comments := { own.comments with trailing := v.trailing } }

/-- The key of an element, with the comments around it. -/
def elementKey (array : Name) (index : Nat) (run after : List Remark) : Key where
  name := array.child (ElementIndex.segment index)
  comments := { inline := inlineOf after, leading := blockOf (runBefore index run) }

/-! ## Inventories -/

/-- The names that pairs and headers give, and the keys that go into the set. -/
structure Inventory where
  productions : List Name := []
  keys : List Key := []

namespace Inventory

/-- One after the other. -/
instance : Append Inventory where
  append a b := ⟨a.productions ++ b.productions, a.keys ++ b.keys⟩

/-- A key that nothing in the document names. -/
def ofKey (k : Key) : Inventory := { keys := [k] }

/-- A name that the document gives. -/
def ofName (name : Name) : Inventory := { productions := [name] }

@[simp] theorem productions_append (a b : Inventory) :
    (a ++ b).productions = a.productions ++ b.productions := rfl

@[simp] theorem keys_append (a b : Inventory) : (a ++ b).keys = a.keys ++ b.keys := rfl

end Inventory

mutual

/-- What a value puts below its own key, which has a name. -/
def Value.inner : Value → Name → Inventory
  | .scalar _, _ => {}
  | .array items, name => itemsBelow items name 0 []
  | .inlineTable pairs, name => pairsBelow pairs name

/-- What the elements of an array put below it, from an index on and after a run. -/
def itemsBelow : List Item → Name → Nat → List Remark → Inventory
  | [], _, _, _ => {}
  | .value v :: items, array, index, run =>
      .ofKey (v.mark (elementKey array index run (firstRun items)))
        ++ v.inner (array.child (ElementIndex.segment index))
        ++ itemsBelow items array (index + 1) []
  | .comment text :: items, array, index, run =>
      itemsBelow items array index (run ++ [.comment text])
  | .blankLine :: items, array, index, run => itemsBelow items array index (run ++ [.blank])

/-- What a pair puts into an inline table. -/
def pairBelow : KeyPath × Value → Name → Inventory
  | (key, v), table =>
      .ofName (table.join key.path) ++ .ofKey (v.mark { name := table.join key.path })
        ++ v.inner (table.join key.path)

/-- What the pairs of an inline table put below it. -/
def pairsBelow : List (KeyPath × Value) → Name → Inventory
  | [], _ => {}
  | pair :: pairs, table => pairBelow pair table ++ pairsBelow pairs table

end

/-! ## Parts of values -/

/-- The keys, scalars and arrays that something in a document is made of. -/
structure Parts where
  keyPaths : List KeyPath := []
  scalars : List Scalar := []
  /-- How many elements each array has. -/
  arraySizes : List Nat := []

namespace Parts

/-- One after the other. -/
instance : Append Parts where
  append a b := ⟨a.keyPaths ++ b.keyPaths, a.scalars ++ b.scalars, a.arraySizes ++ b.arraySizes⟩

end Parts

mutual

/-- The parts of a value of any depth. -/
def Value.parts : Value → Parts
  | .scalar s => { scalars := [s] }
  | .array items => { arraySizes := [elementCount items] } ++ partsOfItems items
  | .inlineTable pairs => partsOfPairs pairs

/-- The parts of what stands in an array. -/
def partsOfItems : List Item → Parts
  | [] => {}
  | .value v :: items => v.parts ++ partsOfItems items
  | .comment _ :: items | .blankLine :: items => partsOfItems items

/-- The parts of a pair. -/
def partsOfPair : KeyPath × Value → Parts
  | (key, v) => { keyPaths := [key] } ++ v.parts

/-- The parts of the pairs of an inline table. -/
def partsOfPairs : List (KeyPath × Value) → Parts
  | [] => {}
  | pair :: pairs => partsOfPair pair ++ partsOfPairs pairs

end

/-- A scalar that can be stored as a value: no comment and no bare string, well-formed if it is a
datetime, and with a canonical text. -/
structure Scalar.IsValue (s : Scalar) : Prop where
  quoted : s.kind ≠ .bare
  noComment : s.kind ≠ .comment
  wellFormed : s.kind.isDatetime = true → Datetime.isWellFormed s.kind s.text = true
  canonical : ∃ text, s.canonical = .ok text

namespace Parts

/-- Every part of every key is one, all scalars are values, and no array is too long. -/
structure Accepted (o : Options) (parts : Parts) : Prop where
  keys : ∀ key ∈ parts.keyPaths, key.Accepted
  scalars : ∀ s ∈ parts.scalars, s.IsValue
  arrays : ∀ n ∈ parts.arraySizes, n ≤ o.maxArrayElements

/-- No key is empty, and none has a segment that names an element of an array. -/
def Named (parts : Parts) : Prop := ∀ key ∈ parts.keyPaths, key ≠ [] ∧ Plain key.path

variable {o : Options} {a b : Parts}

theorem accepted_append_iff : (a ++ b).Accepted o ↔ a.Accepted o ∧ b.Accepted o := by
  constructor
  · rintro ⟨keys, scalars, arrays⟩
    obtain ⟨keys₁, keys₂⟩ := List.forall_mem_append.mp keys
    obtain ⟨scalars₁, scalars₂⟩ := List.forall_mem_append.mp scalars
    obtain ⟨arrays₁, arrays₂⟩ := List.forall_mem_append.mp arrays
    exact ⟨⟨keys₁, scalars₁, arrays₁⟩, keys₂, scalars₂, arrays₂⟩
  · rintro ⟨first, later⟩
    exact ⟨List.forall_mem_append.mpr ⟨first.keys, later.keys⟩,
      List.forall_mem_append.mpr ⟨first.scalars, later.scalars⟩,
      List.forall_mem_append.mpr ⟨first.arrays, later.arrays⟩⟩

theorem accepted_empty (o : Options) : ({} : Parts).Accepted o := ⟨nofun, nofun, nofun⟩

theorem named_append_iff : (a ++ b).Named ↔ a.Named ∧ b.Named := List.forall_mem_append

end Parts

namespace Scalar

/-- What a value is stored as. -/
theorem IsValue.storedForm_eq {s : Scalar} (h : s.IsValue) :
    ∃ text storage, s.canonical = .ok text ∧ s.kind.storage = some storage ∧
      Builder.storedForm s = .ok (text, storage) := by
  obtain ⟨text, canonical⟩ := h.canonical
  cases storage : s.kind.storage with
  | none =>
    have quoted := h.quoted
    have noComment := h.noComment
    cases kind : s.kind <;> simp_all [Kind.storage]
  | some found =>
    refine ⟨text, found, canonical, rfl, ?_⟩
    simp only [Builder.storedForm, canonical, storage]

theorem IsValue.checkValue_eq {s : Scalar} (h : s.IsValue) : s.checkValue = .ok () := by
  have quoted := h.quoted
  have noComment := h.noComment
  have wellFormed := h.wellFormed
  unfold checkValue
  cases kind : s.kind <;> simp_all [Kind.isDatetime]

theorem isValue_of_ok {s : Scalar} {form : String × Storage} (checked : s.checkValue = .ok ())
    (stored : Builder.storedForm s = .ok form) : s.IsValue := by
  unfold checkValue at checked
  refine ⟨?_, ?_, ?_, ?_⟩
  · intro kind
    simp [kind] at checked
  · intro kind
    simp [kind] at checked
  · intro datetime
    cases kind : s.kind <;> simp_all [Kind.isDatetime]
  · cases canonical : s.canonical with
    | ok text => exact ⟨text, rfl⟩
    | error reason => simp [Builder.storedForm, canonical] at stored

theorem storage_of_storedForm {s : Scalar} {form : String × Storage}
    (stored : Builder.storedForm s = .ok form) : s.kind.storage = some form.2 := by
  unfold Builder.storedForm at stored
  split at stored
  · cases stored
  · split at stored
    · cases stored
    · next storage =>
      cases stored
      exact storage

end Scalar

/-! ## Keys of values -/

@[simp] theorem Value.name_mark (v : Value) (own : Key) : (v.mark own).name = own.name := rfl

theorem Value.unordered_mark (v : Value) (own : Key) :
    (v.mark own).unordered = v.mark own.unordered := rfl

theorem Value.setInline_mark (v : Value) (own : Key) (c : Comment) :
    (v.mark own).setInline c = v.mark (own.setInline c) := rfl

/-- Without comments after it a value changes what the key holds, and nothing else. -/
theorem Value.mark_eq_holding {v : Value} {own : Key} (new : own.IsNew) (none : v.trailing = []) :
    v.mark own = own.holding v.holding := by
  rw [mark, none, ← new.trailing_eq]
  rfl

/-- The comments after the last element are the first ones of their kind. -/
theorem Value.mark_array {items : List Item} {own : Key} (new : own.IsNew) :
    (Value.array items).mark own = (own.holding (.ofArray (elementCount items))).addTrailing
      (blockOf (runBefore (elementCount items) (lastRun items []))) := by
  have first : (own.holding (.ofArray (elementCount items))).comments.trailing = [] :=
    new.trailing_eq
  rw [Key.addTrailing, first, List.nil_append]
  rfl

/-- A value does not make a key an array of tables. -/
theorem Value.isTableArray_mark (v : Value) (own : Key) : (v.mark own).isTableArray = false := by
  refine own.isTableArray_holding (h := v.holding) ?_
  cases v with
  | scalar s =>
    rw [holding]
    cases s.canonical with
    | error reason => exact nofun
    | ok text => exact s.construct_holding_ne text
  | array items =>
    rw [holding]
    cases elementCount items <;> exact nofun
  | inlineTable pairs => simp [holding]

/-! ## Names that the document gives -/

namespace Inventory

/-- Every key lies in a region and belongs to an owner or to a name that the document gives, which
is not spelled as an element is. If the names given differ, so do those of all keys. -/
structure Sits (inv : Inventory) (region owner : Name → Prop) : Prop where
  inside : ∀ k ∈ inv.keys, region k.name
  given : ∀ p ∈ inv.productions, p ∈ inv.keys.map Key.name
  plain : ∀ p ∈ inv.productions, p.stem = p
  owned : ∀ k ∈ inv.keys, owner k.name.stem ∨ k.name.stem ∈ inv.productions
  noTableArray : ∀ k ∈ inv.keys, k.isTableArray = false
  distinct : inv.productions.Nodup → (inv.keys.map Key.name).Nodup

namespace Sits

variable {a b : Inventory} {region owner other : Name → Prop}

theorem empty : ({} : Inventory).Sits region owner :=
  ⟨nofun, nofun, nofun, nofun, nofun, fun _ => .nil⟩

theorem imp (h : a.Sits region owner) {wider : Name → Prop}
    (inside : ∀ n, region n → wider n) (owned : ∀ n, owner n → other n ∨ n ∈ a.productions) :
    a.Sits wider other :=
  { h with
    inside := fun k member => inside _ (h.inside k member)
    owned := fun k member => (h.owned k member).elim (owned _) .inr }

theorem append (ha : a.Sits region owner) (hb : b.Sits region other)
    (owned : ∀ n, other n → owner n ∨ n ∈ a.productions)
    (apart : (a.productions ++ b.productions).Nodup →
      ∀ k ∈ a.keys, ∀ l ∈ b.keys, k.name ≠ l.name) : (a ++ b).Sits region owner where
  inside := List.forall_mem_append.mpr ⟨ha.inside, hb.inside⟩
  given p member := by
    rw [keys_append, List.map_append, List.mem_append]
    exact (List.mem_append.mp member).imp (ha.given p) (hb.given p)
  plain := List.forall_mem_append.mpr ⟨ha.plain, hb.plain⟩
  owned k member := by
    rw [productions_append, List.mem_append]
    rcases List.mem_append.mp member with first | later
    · exact (ha.owned k first).imp_right .inl
    · rcases hb.owned k later with outer | own
      · exact (owned _ outer).imp_right .inl
      · exact .inr (.inr own)
  noTableArray := List.forall_mem_append.mpr ⟨ha.noTableArray, hb.noTableArray⟩
  distinct nodup := by
    have parts := List.nodup_append.mp nodup
    rw [keys_append, List.map_append, List.nodup_append]
    refine ⟨ha.distinct parts.1, hb.distinct parts.2.1, fun n first m later => ?_⟩
    obtain ⟨k, inA, rfl⟩ := List.mem_map.mp first
    obtain ⟨l, inB, rfl⟩ := List.mem_map.mp later
    exact apart nodup k inA l inB

theorem ofKey {k : Key} (none : k.isTableArray = false) :
    (Inventory.ofKey k).Sits (· = k.name) (· = k.name.stem) where
  inside := List.forall_mem_singleton.mpr rfl
  given := nofun
  plain := nofun
  owned := List.forall_mem_singleton.mpr (.inl rfl)
  noTableArray := List.forall_mem_singleton.mpr none
  distinct _ := List.nodup_singleton _

/-- A key whose own name is given. -/
theorem ofProduction {k : Key} {p : Name} (same : k.name = p) (plain : p.stem = p)
    (none : k.isTableArray = false) :
    (Inventory.ofName p ++ Inventory.ofKey k).Sits (· = p) fun _ => False := by
  subst same
  exact {
    inside := List.forall_mem_singleton.mpr rfl
    given := List.forall_mem_singleton.mpr (List.mem_singleton.mpr rfl)
    plain := List.forall_mem_singleton.mpr plain
    owned := List.forall_mem_singleton.mpr (.inr (List.mem_singleton.mpr plain))
    noTableArray := List.forall_mem_singleton.mpr none
    distinct := fun _ => List.nodup_singleton _ }

/-- Keys that belong to different names differ. -/
theorem append_given (ha : a.Sits region fun _ => False) (hb : b.Sits region fun _ => False) :
    (a ++ b).Sits region fun _ => False :=
  ha.append hb (fun _ => False.elim) fun nodup k inA l inB same => by
    have first := (ha.owned k inA).resolve_left id
    have later := (hb.owned l inB).resolve_left id
    rw [← same] at later
    exact (List.nodup_append.mp nodup).2.2 _ first _ later rfl

/-- A key comes with what lies below it. -/
theorem append_below {n : Name} (ha : a.Sits (· = n) owner)
    (hb : b.Sits (fun m => m.isBelow n = true) other)
    (owned : ∀ m, other m → owner m ∨ m ∈ a.productions) :
    (a ++ b).Sits (fun m => m.isWithin n = true) owner := by
  have own : a.Sits (fun m => m.isWithin n = true) owner :=
    ha.imp (fun m same => same ▸ m.isWithin_refl) fun m => .inl
  have inner : b.Sits (fun m => m.isWithin n = true) other :=
    hb.imp (fun m => Name.isWithin_of_isBelow) fun m => .inl
  refine own.append inner owned fun _ k inA l inB same => ?_
  have below := hb.inside l inB
  rw [← same, ha.inside k inA] at below
  exact Name.isBelow_irrefl n below

/-- A name that is spelled as none of the owners is taken if the document gives it. -/
theorem mem_names_iff (h : a.Sits region owner) {p : Name} (plain : p.stem = p)
    (notOwner : ¬ owner p) : p ∈ a.keys.map Key.name ↔ p ∈ a.productions := by
  constructor
  · intro member
    obtain ⟨k, inA, rfl⟩ := List.mem_map.mp member
    have owned := h.owned k inA
    rw [plain] at owned
    exact owned.resolve_left notOwner
  · exact h.given p

end Sits

/-- The names at or below the elements of an array, from an index on. -/
def InElements (array : Name) (index : Nat) (n : Name) : Prop :=
  ∃ j, index ≤ j ∧ j < ElementIndex.limit ∧
    n.isWithin (array.child (ElementIndex.segment j)) = true

end Inventory

/-! ## Values of every depth -/

open Inventory

variable {o : Options}

namespace Value

variable {v : Value}

/-- A value with its own key, if what it puts below that sits well. -/
theorem own_sits (own : Key)
    (inner : (v.inner own.name).Sits (fun n => n.isBelow own.name = true)
      fun n => n = own.name.stem) :
    (Inventory.ofKey (v.mark own) ++ v.inner own.name).Sits
      (fun n => n.isWithin own.name = true) fun n => n = own.name.stem := by
  have key := Sits.ofKey (v.isTableArray_mark own)
  rw [v.name_mark] at key
  exact key.append_below inner fun _ => .inl

/-- A value with its own key, whose name is given. -/
theorem given_sits (own : Key) (plain : own.name.stem = own.name)
    (inner : (v.inner own.name).Sits (fun n => n.isBelow own.name = true)
      fun n => n = own.name.stem) :
    (Inventory.ofName own.name ++ Inventory.ofKey (v.mark own) ++ v.inner own.name).Sits
      (fun n => n.isWithin own.name = true) fun _ => False := by
  have key := Sits.ofProduction (v.name_mark own) plain (v.isTableArray_mark own)
  refine key.append_below inner fun n same => .inr ?_
  rw [same, plain]
  exact List.mem_append_left _ (List.mem_singleton.mpr rfl)

end Value

mutual

/-- What a value puts below its own key lies there, and belongs to that key or to a name that the
value gives. -/
theorem Value.inner_sits (small : o.maxArrayElements < ElementIndex.limit) :
    ∀ (v : Value) (name : Name), v.parts.Named → v.parts.Accepted o →
    (v.inner name).Sits (fun n => n.isBelow name = true) fun n => n = name.stem
  | .scalar s, name, _, _ => by
    unfold Value.inner
    exact .empty
  | .array items, name, named, accepted => by
    rw [Value.parts, Parts.named_append_iff] at named
    rw [Value.parts, Parts.accepted_append_iff] at accepted
    have few := accepted.1.arrays _ (List.mem_singleton.mpr rfl)
    have elements := itemsBelow_sits small items name 0 [] named.2 accepted.2 (by omega)
    unfold Value.inner
    refine elements.imp (fun n inside => ?_) fun n => .inl
    obtain ⟨j, -, -, within⟩ := inside
    exact Name.isBelow_of_isWithin_of_isBelow within (Name.isBelow_child name _)
  | .inlineTable pairs, name, named, accepted => by
    unfold Value.inner
    exact (pairsBelow_sits small pairs name named accepted).imp (fun n => id) fun n => False.elim

theorem itemsBelow_sits (small : o.maxArrayElements < ElementIndex.limit) :
    ∀ (items : List Item) (array : Name) (index : Nat) (run : List Remark),
    (partsOfItems items).Named → (partsOfItems items).Accepted o →
    index + elementCount items < ElementIndex.limit →
    (itemsBelow items array index run).Sits (InElements array index) fun n => n = array.stem
  | [], array, index, run, _, _, _ => by
    unfold itemsBelow
    exact .empty
  | .value v :: items, array, index, run, named, accepted, few => by
    rw [partsOfItems, Parts.named_append_iff] at named
    rw [partsOfItems, Parts.accepted_append_iff] at accepted
    unfold elementCount at few
    have first : index < ElementIndex.limit := by omega
    have element := Value.own_sits (elementKey array index run (firstRun items))
      (v.inner_sits small _ named.1 accepted.1)
    rw [show (elementKey array index run (firstRun items)).name.stem = array.stem from
      Name.stem_child_segment array first] at element
    have rest := itemsBelow_sits small items array (index + 1) [] named.2 accepted.2 (by omega)
    unfold itemsBelow
    refine (element.imp (fun n within => ⟨index, Nat.le_refl _, first, within⟩) fun n => .inl).append
      (rest.imp (fun n ⟨j, later, rest⟩ => ⟨j, by omega, rest⟩) fun n => .inl) (fun _ => .inl) ?_
    -- Keys of one name would lie within two elements of the array.
    intro _ k inside l after same
    obtain ⟨j, later, bound, within⟩ := rest.inside l after
    rw [← same] at within
    have index_eq := ElementIndex.segment_injective first bound
      (Name.segment_eq_of_isWithin_child (element.inside k inside) within)
    omega
  | .comment text :: items, array, index, run, named, accepted, few => by
    unfold itemsBelow
    exact itemsBelow_sits small items array index _ named accepted few
  | .blankLine :: items, array, index, run, named, accepted, few => by
    unfold itemsBelow
    exact itemsBelow_sits small items array index _ named accepted few

theorem pairBelow_sits (small : o.maxArrayElements < ElementIndex.limit) :
    ∀ (pair : KeyPath × Value) (table : Name), (partsOfPair pair).Named →
    (partsOfPair pair).Accepted o →
    (pairBelow pair table).Sits (fun n => n.isBelow table = true) fun _ => False
  | (key, v), table, named, accepted => by
    rw [partsOfPair, Parts.named_append_iff] at named
    rw [partsOfPair, Parts.accepted_append_iff] at accepted
    obtain ⟨nonempty, plain⟩ := named.1 key (List.mem_singleton.mpr rfl)
    have path := KeyPath.path_ne_nil (accepted.1.keys key (List.mem_singleton.mpr rfl)) nonempty
    have stem := Name.stem_join table path plain
    have own := Value.given_sits { name := table.join key.path } stem
      (v.inner_sits small _ named.2 accepted.2)
    unfold pairBelow
    refine own.imp (fun n within => ?_) fun n => .inl
    exact Name.isBelow_of_isWithin_of_isBelow within (Name.isBelow_join table path)

theorem pairsBelow_sits (small : o.maxArrayElements < ElementIndex.limit) :
    ∀ (pairs : List (KeyPath × Value)) (table : Name),
    (partsOfPairs pairs).Named → (partsOfPairs pairs).Accepted o →
    (pairsBelow pairs table).Sits (fun n => n.isBelow table = true) fun _ => False
  | [], table, _, _ => by
    unfold pairsBelow
    exact .empty
  | pair :: pairs, table, named, accepted => by
    rw [partsOfPairs, Parts.named_append_iff] at named
    rw [partsOfPairs, Parts.accepted_append_iff] at accepted
    unfold pairsBelow
    exact (pairBelow_sits small pair table named.1 accepted.1).append_given
      (pairsBelow_sits small pairs table named.2 accepted.2)

end

/-- What a value puts below a name does not have that name. -/
theorem Value.not_mem_inner (small : o.maxArrayElements < ElementIndex.limit) {v : Value}
    (name : Name) (named : v.parts.Named) (accepted : v.parts.Accepted o) :
    name ∉ (v.inner name).keys.map Key.name := by
  intro member
  obtain ⟨k, inside, same⟩ := List.mem_map.mp member
  have below := (v.inner_sits small name named accepted).inside k inside
  rw [same] at below
  exact Name.isBelow_irrefl name below

theorem Value.inner_isBelow (small : o.maxArrayElements < ElementIndex.limit) {v : Value}
    {name : Name} (named : v.parts.Named) (accepted : v.parts.Accepted o) :
    ∀ p ∈ (v.inner name).productions, p.isBelow name = true := by
  intro p given
  have sits := v.inner_sits small name named accepted
  obtain ⟨k, inside, rfl⟩ := List.mem_map.mp (sits.given p given)
  exact sits.inside k inside

/-! ## Where names come from -/

mutual

/-- Every name that a value gives is that of one of its keys, below some other name. -/
theorem Value.spelled : ∀ (v : Value) (name : Name), ∀ p ∈ (v.inner name).productions,
    ∃ key ∈ v.parts.keyPaths, ∃ table : Name, p = table.join key.path
  | .scalar s, name => by
    unfold Value.inner
    exact nofun
  | .array items, name => by
    rw [Value.inner, Value.parts]
    exact itemsBelow_spelled items name 0 []
  | .inlineTable pairs, name => by
    rw [Value.inner, Value.parts]
    exact pairsBelow_spelled pairs name

theorem itemsBelow_spelled : ∀ (items : List Item) (array : Name) (index : Nat) (run : List Remark),
    ∀ p ∈ (itemsBelow items array index run).productions,
    ∃ key ∈ (partsOfItems items).keyPaths, ∃ table : Name, p = table.join key.path
  | [], array, index, run => by
    unfold itemsBelow
    exact nofun
  | .value v :: items, array, index, run => by
    rw [itemsBelow, partsOfItems]
    intro p member
    rcases List.mem_append.mp member with inner | later
    · obtain ⟨key, inside, from_⟩ := v.spelled (array.child (ElementIndex.segment index)) p inner
      exact ⟨key, List.mem_append_left _ inside, from_⟩
    · obtain ⟨key, inside, from_⟩ := itemsBelow_spelled items array (index + 1) [] p later
      exact ⟨key, List.mem_append_right _ inside, from_⟩
  | .comment text :: items, array, index, run => by
    rw [itemsBelow, partsOfItems]
    exact itemsBelow_spelled items array index _
  | .blankLine :: items, array, index, run => by
    rw [itemsBelow, partsOfItems]
    exact itemsBelow_spelled items array index _

theorem pairBelow_spelled : ∀ (pair : KeyPath × Value) (table : Name),
    ∀ p ∈ (pairBelow pair table).productions,
    ∃ key ∈ (partsOfPair pair).keyPaths, ∃ table : Name, p = table.join key.path
  | (key, v), table => by
    rw [pairBelow, partsOfPair]
    intro p member
    rcases List.mem_cons.mp member with rfl | inner
    · exact ⟨key, List.mem_cons_self, table, rfl⟩
    · obtain ⟨other, inside, from_⟩ := v.spelled (table.join key.path) p inner
      exact ⟨other, List.mem_cons_of_mem _ inside, from_⟩

theorem pairsBelow_spelled : ∀ (pairs : List (KeyPath × Value)) (table : Name),
    ∀ p ∈ (pairsBelow pairs table).productions,
    ∃ key ∈ (partsOfPairs pairs).keyPaths, ∃ table : Name, p = table.join key.path
  | [], table => by
    unfold pairsBelow
    exact nofun
  | pair :: pairs, table => by
    rw [pairsBelow, partsOfPairs]
    intro p member
    rcases List.mem_append.mp member with first | later
    · obtain ⟨key, inside, from_⟩ := pairBelow_spelled pair table p first
      exact ⟨key, List.mem_append_left _ inside, from_⟩
    · obtain ⟨key, inside, from_⟩ := pairsBelow_spelled pairs table p later
      exact ⟨key, List.mem_append_right _ inside, from_⟩

end

end TomlSemantics
