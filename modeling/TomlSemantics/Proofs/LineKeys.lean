import TomlSemantics.Proofs.ValueKeys

/-!
# Lines put keys into the set

A pair puts its key and its inventory into the set, the header of a table only its key. Both get the
run of comments before them, and the comment on their line.

1. `Line.assemblePair_decides`: a pair below the table that is open.
2. `Line.assembleTable_decides`: the header of a table, wherever it is placed.
-/

namespace TomlSemantics

variable {o : Options} {out : Outline} {run : List Remark} {few : Prop}

/-- The key of a line: the run before it, and the comment on it. -/
def lineKey (name : Name) (run : List Remark) (c : Option String) : Key where
  name
  comments := { inline := c.map .marked, leading := blockOf run }

/-- The key of a table, which holds nothing but what it is. -/
def tableKey (name : Name) (run : List Remark) (c : Option String) : Key :=
  (lineKey name run c).holding { construct := some "simpletable" }

/-- The parts of a line. -/
def Line.parts : Line → Parts
  | pair key v _ => partsOfPair (key, v)
  | table key _ | tableArray key _ => { keyPaths := [key] }
  | comment _ | blank | raw _ => {}

/-- A key whose name a line gives, and what is below it. -/
def Inventory.ofLine (own : Key) (inner : Inventory) : Inventory :=
  .ofName own.name ++ .ofKey own ++ inner

namespace Outline

/-- A pair or header takes the run before it, and changes the set and the open table. -/
structure Follows (out' out : Outline) (table : Option Name) (keys : KeySet) : Prop where
  comments : out'.comments = {}
  scopes : out'.scopes = out.scopes
  table : out'.table = table
  keys : out'.sheet.keys.unordered = keys

/-- A pair or header puts an inventory into the set: it sits below the root, and the names that it
gives differ and are free. -/
structure Adds (o : Options) (out' out : Outline) (table : Option Name) (a : Inventory) : Prop where
  sits : a.Sits (fun n => n.isBelow o.root = true) fun _ => False
  distinct : a.productions.Nodup
  free : ∀ p ∈ a.productions, Builder.isFree o out.sheet.keys.unordered p = true
  follows : out'.Follows out table (out.sheet.keys.unordered.appendAll a.keys)

end Outline

/-- The comment on the line of a key is put there with the key. -/
theorem Sheet.unordered_annotate (sheet : Sheet) (key : Key) (c : Option String) :
    (sheet.annotate key c).keys.unordered = match c with
      | none => sheet.keys.unordered
      | some text => sheet.keys.unordered.append (key.unordered.setInline (.marked text)) := by
  cases c with
  | none => rfl
  | some text => exact KeySet.unordered_append _ _

/-! ## Pairs -/

theorem Line.pair_sits (small : o.maxArrayElements < ElementIndex.limit) {key : KeyPath} {v : Value}
    {scope : Name} (run : List Remark) (c : Option String) (named : (partsOfPair (key, v)).Named)
    (within : scope.isWithin o.root = true) (accepted : (partsOfPair (key, v)).Accepted o) :
    (Inventory.ofLine (v.mark (lineKey (scope.join key.path) run c))
      (v.inner (scope.join key.path))).Sits (fun n => n.isBelow o.root = true) fun _ => False := by
  rw [partsOfPair, Parts.named_append_iff] at named
  rw [partsOfPair, Parts.accepted_append_iff] at accepted
  obtain ⟨nonempty, plain⟩ := named.1 key (List.mem_singleton.mpr rfl)
  have path := KeyPath.path_ne_nil (accepted.1.keys key (List.mem_singleton.mpr rfl)) nonempty
  have sits := Value.given_sits (lineKey (scope.join key.path) run c)
    (Name.stem_join scope path plain) (v.inner_sits small _ named.2 accepted.2)
  rw [Inventory.ofLine, v.name_mark]
  refine sits.imp (fun n inside => ?_) fun _ => .inl
  exact Name.isBelow_of_isBelow_of_isWithin
    (Name.isBelow_of_isWithin_of_isBelow inside (Name.isBelow_join scope path)) within

/-- A pair below the root puts its key and the inventory of its value into the set, just if it fits
there. -/
theorem Line.assemblePair_decides (small : o.maxArrayElements < ElementIndex.limit) (number : Nat)
    {key : KeyPath} {v : Value} {c : Option String} {scope : Name}
    (named : (partsOfPair (key, v)).Named) (comments : out.comments = queueOf run)
    (base : out.base o = .ok scope) (within : scope.isWithin o.root = true) :
    Decides ((v.events number).count .blankLine < CommentQueue.blankLineLimit)
      (Fits o out.sheet.keys.unordered (partsOfPair (key, v)) (pairBelow (key, v) scope).productions)
      (Line.assemblePair o key v c out) fun out' =>
        out'.Follows out out.table
          ((out.sheet.keys.unordered.append (v.mark (lineKey (scope.join key.path) run c))).appendAll
            (v.inner (scope.join key.path)).keys) := by
  rw [Line.assemblePair, base, comments, contents_queueOf]
  refine (assembleBelow_stores small number (blockOf run) out.sheet named within).bind id id
    fun made fit stored => ⟨fit, rfl, rfl, rfl, ?_⟩
  obtain ⟨own, keys⟩ := stored
  rw [partsOfPair, Parts.named_append_iff] at named
  have accepted := (Parts.accepted_append_iff.mp fit.accepted).2
  have other := Value.not_mem_inner small (scope.join key.path) named.2 accepted
  show (made.2.annotate made.1 c).keys.unordered = _
  rw [Sheet.unordered_annotate, own, keys]
  cases c with
  | none => rfl
  | some text =>
    dsimp only
    rw [Value.setInline_mark]
    refine KeySet.append_appendAll_append _ ?_ ?_
    · rw [v.name_mark, v.name_mark]
      rfl
    · rw [v.name_mark]
      exact other

/-- The names that a pair gives are its own and those inside of its value. -/
theorem Line.productions_pair (key : KeyPath) (v : Value) (scope : Name) (run : List Remark)
    (c : Option String) :
    (Inventory.ofLine (v.mark (lineKey (scope.join key.path) run c))
      (v.inner (scope.join key.path))).productions = (pairBelow (key, v) scope).productions := by
  rw [Inventory.ofLine, v.name_mark]
  rfl

/-- A pair that is read puts its inventory into the set. -/
theorem Line.assemblePair_adds (small : o.maxArrayElements < ElementIndex.limit) {key : KeyPath}
    {v : Value} {c : Option String} {scope : Name} {out' : Outline}
    (named : (Line.pair key v c).parts.Named) (comments : out.comments = queueOf run)
    (base : out.base o = .ok scope) (within : scope.isWithin o.root = true)
    (ok : (Line.pair key v c).assemble o out = .ok out') :
    (partsOfPair (key, v)).Accepted o ∧
      out'.Adds o out out.table (Inventory.ofLine (v.mark (lineKey (scope.join key.path) run c))
        (v.inner (scope.join key.path))) := by
  have decides := Line.assemblePair_decides small 0 (c := c) named comments base within
  rw [show Line.assemblePair o key v c out = .ok out' from ok] at decides
  obtain ⟨fit, follows⟩ := decides
  rw [← Line.productions_pair key v scope run c] at fit
  exact ⟨fit.accepted, Line.pair_sits small run c named within fit.accepted, fit.distinct, fit.free,
    follows⟩

/-! ## Tables -/

theorem Line.placed_table_sits {enclosing : Name} {path : List String} (run : List Remark)
    (c : Option String) (within : enclosing.isWithin o.root = true) (nonempty : path ≠ [])
    (plain : Plain path) :
    (Inventory.ofLine (tableKey (enclosing.join path) run c) {}).Sits
      (fun n => n.isBelow o.root = true) fun _ => False := by
  have noTableArray : (tableKey (enclosing.join path) run c).isTableArray = false :=
    Key.isTableArray_holding _ (by decide)
  have own := Inventory.Sits.ofProduction (k := tableKey (enclosing.join path) run c) rfl
    (Name.stem_join enclosing nonempty plain) noTableArray
  unfold Inventory.ofLine
  refine (own.imp (fun n same => ?_) fun _ => .inl).append_given .empty
  rw [same]
  exact Name.isBelow_of_isBelow_of_isWithin (Name.isBelow_join enclosing nonempty) within

theorem Line.table_sits {key : KeyPath} (run : List Remark) (c : Option String)
    (named : (Line.table key c).parts.Named) (accepted : (Line.table key c).parts.Accepted o) :
    (Inventory.ofLine (tableKey (o.root.join key.path) run c) {}).Sits
      (fun n => n.isBelow o.root = true) fun _ => False := by
  obtain ⟨nonempty, plain⟩ := named key (List.mem_singleton.mpr rfl)
  have path := KeyPath.path_ne_nil (accepted.keys key (List.mem_singleton.mpr rfl)) nonempty
  exact placed_table_sits run c o.root.isWithin_refl path plain

theorem Line.fits_table_iff {keys : KeySet} {key : KeyPath} {name : Name} :
    Fits o keys { keyPaths := [key] } [name] ↔
      key.Accepted ∧ Builder.isFree o keys name = true := by
  constructor
  · rintro ⟨accepted, -, free⟩
    exact ⟨accepted.keys key (List.mem_singleton.mpr rfl), free name (List.mem_singleton.mpr rfl)⟩
  · rintro ⟨accepted, free⟩
    exact ⟨⟨List.forall_mem_singleton.mpr accepted, nofun, nofun⟩, List.nodup_singleton _,
      List.forall_mem_singleton.mpr free⟩

/-- The header of a table puts its key into the set, just if the key is accepted and the place that
it names is free. -/
theorem Line.assembleTable_decides (few : Prop) {key : KeyPath} {c : Option String} {name : Name}
    (comments : out.comments = queueOf run)
    (place : Scope.placeHeader o.root (o.root.join key.path) out.scopes = .ok name) :
    Decides few (key.Accepted ∧ Builder.isFree o out.sheet.keys.unordered name = true)
      (Line.assembleTable o key c out) fun out' =>
        out'.Follows out (some name)
          (out.sheet.keys.unordered.append (tableKey name run c)) := by
  unfold Line.assembleTable
  refine (KeyPath.segments_decides few key).bind id (·.1) fun path accepted found => ?_
  subst found
  rw [Outline.beginTable, place, comments, contents_queueOf]
  refine (Sheet.begin_decides few out.sheet name (blockOf run)).bind id (·.2)
    fun opened free begun => ⟨⟨accepted, free⟩, ?_⟩
  obtain ⟨own, keys⟩ := begun
  have construct : (opened.1.setConstruct .table).unordered = tableKey name run none :=
    (congrArg (·.setConstruct .table) own).trans
      ((lineKey name run none).setConstruct_holding {} .table)
  refine ⟨rfl, rfl, congrArg (some ∘ Key.name) own, ?_⟩
  show ((opened.2.put (opened.1.setConstruct .table)).annotate _ c).keys.unordered = _
  rw [Sheet.unordered_annotate, construct, Sheet.put, KeySet.unordered_append, construct, keys]
  cases c with
  | none => rfl
  | some text => exact KeySet.append_append_of_eq _ rfl

end TomlSemantics
