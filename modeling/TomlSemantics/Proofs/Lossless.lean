import TomlSemantics.Proofs.Accounts
import TomlSemantics.Proofs.DocumentRun
import TomlSemantics.Proofs.Inventory

/-!
# No spelling is lost

A value is stored as its canonical text, and how it was spelled is noted only where that is another
text. Both can be read back from the key, because a node gets one value at most: the end of a pair
or an element sets it and closes the node, and nothing else touches it. No spelling of an older
value is ever left beside a newer text.

1. `Key.Notes` and `Key.Terse`: what a value leaves in its key, and what is known of all keys.
2. `State.Orderly`: no open node has a spelling. `Spare.orderly`: what sets no value keeps that.
3. `State.Filled`: the innermost open node may have one. `endValue_completes`: the node that gets a
   value is closed in the same step.
4. `storing_lossless`: whatever the events are.
-/

namespace TomlSemantics

open Builder

/-! ## Keys -/

namespace Key

variable {k k' : Key} {text spelling : String}

/-- A value in a key: its text, and its spelling where that is not the text. -/
structure Notes (k : Key) (text spelling : String) : Prop where
  text_eq : k.text = some text
  spelling_eq : k.spelling = if text = spelling then none else some spelling

/-- A key that notes a spelling has another text. -/
def Terse (k : Key) : Prop :=
  ∀ spelling, k.spelling = some spelling → ∃ text, k.text = some text ∧ text ≠ spelling

theorem Terse.of_spelling_eq_none (h : k.spelling = none) : k.Terse := by
  intro spelling noted
  rw [h] at noted
  cases noted

theorem IsBlank.terse (h : k.IsBlank) : k.Terse := .of_spelling_eq_none h.spelling_eq

theorem SameValue.text_eq (same : k.SameValue k') : k.text = k'.text := by
  unfold Key.text
  rw [same.value_eq]

theorem SameValue.terse (same : k.SameValue k') (h : k'.Terse) : k.Terse := by
  intro spelling noted
  rw [same.text_eq]
  exact h spelling (same.spelling_eq.symm.trans noted)

theorem SameValue.notes (same : k.SameValue k') (h : k'.Notes text spelling) :
    k.Notes text spelling :=
  ⟨same.text_eq.trans h.text_eq, same.spelling_eq.trans h.spelling_eq⟩

theorem Notes.terse (h : k.Notes text spelling) : k.Terse := by
  intro noted found
  rw [h.spelling_eq] at found
  split at found
  · cases found
  · next other =>
    cases found
    exact ⟨text, h.text_eq, other⟩

/-- The spelling is the one that is noted, or else the text. -/
theorem Notes.recovers (h : k.Notes text spelling) : k.spelling.or k.text = some spelling := by
  rw [h.spelling_eq, h.text_eq]
  split
  · next same => rw [same]; rfl
  · rfl

/-! ### Setting a value -/

theorem spelling_setText (k : Key) (text : String) : (k.setText text).spelling = k.spelling :=
  SortedMap.lookup_erase_of_ne _ (by decide)

theorem spelling_setBytes (k : Key) (bytes : List UInt8) :
    (k.setBytes bytes).spelling = k.spelling :=
  attributeText_setAttribute_of_ne k "" (by decide)

theorem keepsValue_setValueType (t : ValueType) : KeepsValue (·.setValueType t) :=
  keepsValue_setAttribute (by decide) _

/-- A spelling is noted where there was none. -/
theorem notes_noteSpelling (h : k.spelling = none) (stored : k.text = some text)
    (spelling : String) : (k.noteSpelling spelling).Notes text spelling := by
  unfold noteSpelling
  rw [stored]
  by_cases same : text = spelling
  · rw [if_pos (congrArg some same)]
    exact ⟨stored, by rw [h, if_pos same]⟩
  · rw [if_neg (fun h => same (Option.some.inj h))]
    refine ⟨stored, ?_⟩
    rw [if_neg same]
    exact attributeText_setAttribute_self k _ _

/-- A string is noted with its spelling, unless it stands for something else. -/
theorem storeString_notes (h : k.spelling = none) (text spelling : String) :
    (k.storeString text spelling).Terse ∧
      ((Text.isNull text || Text.isBase64 text) = false →
        (k.storeString text spelling).Notes text spelling) := by
  have unspelled : (k.setText text).spelling = none := (k.spelling_setText text).trans h
  unfold storeString
  dsimp only
  by_cases null : Text.isNull text = true
  · rw [if_pos null]
    refine ⟨.of_spelling_eq_none ?_, by simp [null]⟩
    rw [spelling_setBytes, unspelled]
  · rw [if_neg null]
    by_cases bytes : Text.isBase64 text = true
    · rw [if_pos bytes]
      exact ⟨.of_spelling_eq_none unspelled, by simp [bytes]⟩
    · rw [if_neg bytes]
      have typed : (if (k.setText text).valueType ≠ some .binary ∧ text ≠ ""
          then (k.setText text).setValueType .string else k.setText text).SameValue
            (k.setText text) := by
        split
        · exact keepsValue_setValueType .string _
        · exact .refl _
      have notes := notes_noteSpelling (typed.spelling_eq.trans unspelled) (typed.text_eq.trans rfl)
        spelling
      exact ⟨notes.terse, fun _ => notes⟩

end Key

/-- A value that is spelled out where its text does not tell: no truth value, and no string that
stands for no value or for bytes. -/
def Scalar.IsSpelled (v : Scalar) : Prop :=
  v.kind ≠ .boolean ∧
    ¬ (v.kind.isString = true ∧ (Text.isNull v.text || Text.isBase64 v.text) = true)

namespace Scalar

variable {v : Scalar} {form : String × Storage}

theorem canonical_of_storedForm (stored : storedForm v = .ok form) : v.canonical = .ok form.1 := by
  unfold storedForm at stored
  split at stored
  · cases stored
  · next text canonical =>
    split at stored
    · cases stored
    · cases stored
      exact canonical

/-- A string is stored as it reads. -/
theorem text_of_quoted {c : Construct} (canonical : v.canonical = .ok form.1)
    (storage : v.kind.storage = some (.quoted c)) : v.kind.isString = true ∧ form.1 = v.text := by
  unfold Scalar.canonical at canonical
  cases kind : v.kind with
  | basic | literal | multilineBasic | multilineLiteral =>
    rw [kind] at canonical
    exact ⟨rfl, (Except.ok.inj canonical).symm⟩
  | _ => rw [kind] at storage; cases storage

theorem kind_of_unspelled {t : ValueType} (storage : v.kind.storage = some (.typed t false)) :
    v.kind = .boolean := by
  cases kind : v.kind with
  | boolean => rfl
  | _ => rw [kind] at storage; cases storage

end Scalar

/-- A value that is stored in a key without a spelling. -/
theorem Key.store_notes {k : Key} {v : Scalar} {form : String × Storage} (h : k.spelling = none)
    (stored : storedForm v = .ok form) :
    (k.store form.2 form.1 v.spelling).Terse ∧
      (v.IsSpelled → (k.store form.2 form.1 v.spelling).Notes form.1 v.spelling) := by
  have unspelled : (k.setText form.1).spelling = none := (k.spelling_setText form.1).trans h
  have storage := Scalar.storage_of_storedForm stored
  cases how : form.2 with
  | quoted c =>
    rw [how] at storage
    obtain ⟨string, same⟩ := Scalar.text_of_quoted (Scalar.canonical_of_storedForm stored) storage
    obtain ⟨terse, notes⟩ := storeString_notes h form.1 v.spelling
    have construct := keepsValue_setConstruct c (k.storeString form.1 v.spelling)
    refine ⟨construct.terse terse, fun spelled => construct.notes (notes ?_)⟩
    rw [same]
    exact Bool.eq_false_iff.mpr fun special => spelled.2 ⟨string, special⟩
  | typed t keepSpelling =>
    have typed := keepsValue_setValueType t (k.setText form.1)
    cases keepSpelling with
    | true =>
      have notes := notes_noteSpelling (typed.spelling_eq.trans unspelled)
        (typed.text_eq.trans rfl) v.spelling
      exact ⟨notes.terse, fun _ => notes⟩
    | false =>
      rw [how] at storage
      refine ⟨.of_spelling_eq_none (typed.spelling_eq.trans unspelled), fun spelled => ?_⟩
      exact absurd (Scalar.kind_of_unspelled storage) spelled.1
  | plain =>
    have notes := notes_noteSpelling unspelled rfl v.spelling
    exact ⟨notes.terse, fun _ => notes⟩

/-! ## Nodes and keys -/

/-- What is known of every key in a set. -/
def KeySet.Terse (keys : KeySet) : Prop := ∀ name k, keys.lookup name = some k → k.Terse

namespace KeySet.Terse

variable {keys : KeySet} {key : Key} {name : Name} {f : Key → Key}

theorem append (h : keys.Terse) (terse : key.Terse) : (keys.append key).Terse := by
  intro name k found
  by_cases same : key.name = name
  · subst same
    rw [lookup_append_self] at found
    cases found
    exact terse
  · rw [lookup_append_of_ne _ same] at found
    exact h name k found

theorem adjust (h : keys.Terse) (keeps : Key.KeepsValue f) : (keys.adjust name f).Terse := by
  intro other k found
  rw [lookup_adjust] at found
  split at found
  · obtain ⟨old, before, rfl⟩ := Option.map_eq_some_iff.mp found
    exact (keeps old).terse (h other old before)
  · exact h other k found

end KeySet.Terse

namespace OpenNodes

variable {n m : OpenNodes} {open_ : List NodeId} {id : NodeId} {old node : Node}

/-- What is known of nodes: none is open twice, some are open without a spelling, and all keys are
terse. -/
structure Orderly (n : OpenNodes) (open_ : List NodeId) : Prop where
  exact : n.Exact
  nodup : n.stack.Nodup
  unspelled : ∀ id ∈ open_, ∀ node, n.get? id = some node → node.key.spelling = none
  terse : ∀ id node, n.get? id = some node → node.key.Terse

namespace Orderly

theorem mono {open' : List NodeId} (h : n.Orderly open_) (fewer : ∀ id ∈ open', id ∈ open_) :
    n.Orderly open' where
  exact := h.exact
  nodup := h.nodup
  unspelled id member := h.unspelled id (fewer id member)
  terse := h.terse

/-- Keys that were there before, in a pool that counts its holders. -/
theorem of_keys (h : n.Orderly open_) (exact : m.Exact) (nodup : m.stack.Nodup)
    (keys : ∀ id node, m.get? id = some node → ∃ old, n.get? id = some old ∧ old.key = node.key) :
    m.Orderly open_ where
  exact := exact
  nodup := nodup
  unspelled id member node found := by
    obtain ⟨old, before, same⟩ := keys id node found
    rw [← same]
    exact h.unspelled id member old before
  terse id node found := by
    obtain ⟨old, before, same⟩ := keys id node found
    rw [← same]
    exact h.terse id old before

theorem start (root : Key) (blank : root.IsBlank) :
    (OpenNodes.start root).Orderly (OpenNodes.start root).stack := by
  refine ⟨Exact.start _, List.nodup_singleton _, fun id _ node found => ?_, fun id node found => ?_⟩
  · rw [key_of_get?_start found]
    exact blank.spelling_eq
  · rw [key_of_get?_start found]
    exact blank.terse

theorem put (h : n.Orderly open_) (found : n.get? id = some old)
    (holders : node.holders = old.holders) (unspelled : id ∈ open_ → node.key.spelling = none)
    (terse : node.key.Terse) : (n.put id node).Orderly open_ where
  exact := h.exact.put found holders
  nodup := h.nodup
  unspelled other member there here := by
    rw [get?, OpenNodes.put, NodePool.get?_put n.pool node found] at here
    split at here
    · next same =>
      cases here
      exact unspelled (same ▸ member)
    · exact h.unspelled other member there here
  terse other there here := by
    rw [get?, OpenNodes.put, NodePool.get?_put n.pool node found] at here
    split at here
    · cases here
      exact terse
    · exact h.terse other there here

theorem push (h : n.Orderly n.stack) {key : Key} (blank : key.IsBlank) :
    (n.push key).2.Orderly (n.push key).2.stack := by
  have stored := NodePool.get?_store h.exact.valid key
  have fresh : (n.pool.store key).1 ∉ n.stack := fun held =>
    h.exact.accounted.fresh key (List.mem_append_right _ held)
  refine ⟨h.exact.push key, List.nodup_cons.mpr ⟨fresh, h.nodup⟩, fun id member node found => ?_,
    fun id node found => ?_⟩
  · rw [get?, OpenNodes.push, stored] at found
    split at found
    · cases found
      exact blank.spelling_eq
    · next other => exact h.unspelled id ((List.mem_cons.mp member).resolve_left other) node found
  · rw [get?, OpenNodes.push, stored] at found
    split at found
    · cases found
      exact blank.terse
    · exact h.terse id node found

/-- The innermost node is closed, whether it has a spelling or not. -/
theorem pop (h : n.Orderly n.stack.tail) (popped : n.pop? = some m) : m.Orderly m.stack := by
  have exact := h.exact.pop popped
  unfold pop? at popped
  split at popped
  · next id outer rest stack =>
    cases popped
    have nodup := h.nodup
    rw [stack] at nodup h
    exact h.of_keys exact (List.nodup_cons.mp nodup).2 fun _ _ => NodePool.exists_of_get?_release
  · cases popped

theorem remember (h : n.Orderly open_) (held : id ∈ n.stack) : (n.remember id).Orderly open_ := by
  have counted : n.holdersOf id ≠ 0 :=
    (List.count_pos_iff.mpr (List.mem_append_right _ held)).ne'
  exact h.of_keys (h.exact.remember counted) h.nodup fun _ _ => exists_of_get?_remember

end Orderly

end OpenNodes

/-! ## States -/

namespace State

variable {s t : State}

/-- What is known of a state until a fault: no open node has a spelling, and all keys are terse. -/
structure Orderly (s : State) : Prop where
  nodes : s.nodes.Orderly s.nodes.stack
  keys : s.keys.Terse

/-- What is known of a state whose innermost open node has just got its value: none of the others
has a spelling. -/
structure Filled (s : State) : Prop where
  nodes : s.nodes.Orderly s.nodes.stack.tail
  keys : s.keys.Terse

/-- A state stays orderly if it was. -/
def StaysOrderly (s t : State) : Prop := s.Orderly → t.Orderly

/-- The key of the innermost open node has come into the output with a value. -/
def Stores (s t : State) (v : Scalar) : Prop :=
  ∃ id node text key, s.nodes.stack.head? = some id ∧ s.nodes.get? id = some node ∧
    v.canonical = .ok text ∧ t.keys.lookup node.key.name = some key ∧
    (v.IsSpelled → key.Notes text v.spelling)

theorem Orderly.filled (h : s.Orderly) : s.Filled :=
  ⟨h.nodes.mono fun _ => List.mem_of_mem_tail, h.keys⟩

end State

/-- What sets no value leaves no spelling. -/
theorem Spare.orderly {s t : State} (h : Spare s t) (orderly : s.Orderly) : t.Orderly := by
  obtain ⟨nodes, keys⟩ := orderly
  cases h with
  | put id old node found holders same =>
    refine ⟨nodes.put found holders (fun open_ => ?_) (same.terse (nodes.terse id old found)), keys⟩
    rw [same.spelling_eq]
    exact nodes.unspelled id open_ old found
  | push key blank => exact ⟨nodes.push blank, keys⟩
  | pop m popped =>
    have filled := State.Orderly.filled ⟨nodes, keys⟩
    exact ⟨filled.nodes.pop popped, keys⟩
  | hand id node found => exact ⟨nodes, keys.append (nodes.terse id node found)⟩
  | handBlank key blank => exact ⟨nodes, keys.append blank.terse⟩
  | adjust name f keeps => exact ⟨nodes, keys.adjust keeps⟩
  | other _ same output _ => exact ⟨same ▸ nodes, by rwa [State.keys, output]⟩

instance : Spans State.StaysOrderly where
  refl _ h := h
  trans first later h := later (first h)
  spare h _ := h.orderly

/-! ## The end of a pair or an element -/

namespace Builder

variable {α β : Type} {x : Builder α} {s : State} {v : Scalar} {id : NodeId} {rest : List NodeId}
  {node : Node}

/-- An action ends in a state that fits its result, or stops with terse keys in the output. -/
def Completes (x : Builder α) (s : State) (post : α → State → Prop) : Prop :=
  match x.run s with
  | .ok a t => post a t
  | .error _ t => t.keys.Terse

theorem Completes.bind {f : α → Builder β} {post : α → State → Prop} {next : β → State → Prop}
    (hx : Completes x s post) (hf : ∀ a t, post a t → Completes (f a) t next) :
    Completes (x >>= f) s next := by
  unfold Completes at hx ⊢
  rw [EStateM.run_bind]
  cases ran : x.run s with
  | error cause t => rwa [ran] at hx
  | ok a t =>
    rw [ran] at hx
    exact hf a t hx

theorem Completes.imp {post post' : α → State → Prop} (hx : Completes x s post)
    (weaker : ∀ a t, post a t → post' a t) : Completes x s post' := by
  unfold Completes at hx ⊢
  cases ran : x.run s with
  | error cause t => rwa [ran] at hx
  | ok a t =>
    rw [ran] at hx
    exact weaker a t hx

/-- The innermost open node is open only once, so what it is changed to matters to no other. -/
theorem put_filled {old : Node} (h : s.Filled) (open_ : s.nodes.stack = id :: rest)
    (found : s.nodes.get? id = some old) (node : Node) (holders : node.holders = old.holders)
    (terse : node.key.Terse) : ({ s with nodes := s.nodes.put id node } : State).Filled := by
  have others : id ∉ s.nodes.stack.tail := by
    have distinct := h.nodes.nodup
    rw [open_] at distinct ⊢
    exact (List.nodup_cons.mp distinct).1
  exact ⟨h.nodes.put found holders (fun member => absurd member others) terse, h.keys⟩

theorem change_filled (f : Key → Key) (h : s.Filled) (open_ : s.nodes.stack = id :: rest)
    (found : s.nodes.get? id = some node) (terse : (f node.key).Terse) :
    ∃ t, (change id f).run s = .ok () t ∧ t.Filled ∧ t.nodes.stack = id :: rest ∧
      t.nodes.get? id = some { node with key := f node.key } := by
  have put := put_filled h open_ found { node with key := f node.key } rfl terse
  have here := NodePool.get?_put_self { node with key := f node.key } found
  simp only [change, setNode, EStateM.run_bind, node_run found, EStateM.run_modify]
  obtain ⟨key, holders, emitted⟩ := node
  cases emitted with
  | false => exact ⟨_, rfl, put, open_, here⟩
  | true => exact ⟨_, rfl, ⟨put.nodes, put.keys.append terse⟩, open_, here⟩

theorem emit_filled (h : s.Filled) (open_ : s.nodes.stack = id :: rest)
    (found : s.nodes.get? id = some node) :
    ∃ t, (emit id).run s = .ok () t ∧ t.Filled ∧
      t.keys.lookup node.key.name = some node.key := by
  have terse := h.nodes.terse id node found
  have put := put_filled h open_ found { node with emitted := true } rfl terse
  simp only [emit, setNode, EStateM.run_bind, node_run found, EStateM.run_modify]
  exact ⟨_, rfl, ⟨put.nodes, put.keys.append terse⟩, KeySet.lookup_append_self _ _⟩

/-- A value goes to the innermost open node and to the output. -/
theorem commit_completes {form : String × Storage} (h : s.Orderly)
    (open_ : s.nodes.stack = id :: rest) (stored : storedForm v = .ok form) :
    Completes (do change id (·.store form.2 form.1 v.spelling); emit id) s fun _ t =>
      t.Filled ∧ s.Stores t v := by
  have innermost : id ∈ s.nodes.stack := by
    rw [open_]
    exact List.mem_cons_self
  obtain ⟨node, found⟩ := h.nodes.exact.exists_get? (List.mem_append_right _ innermost)
  -- The node was open until now, so it has no spelling that the new value could leave behind.
  obtain ⟨terse, notes⟩ := Key.store_notes (h.nodes.unspelled id innermost node found) stored
  obtain ⟨s₁, changed, filled₁, open₁, found₁⟩ :=
    change_filled (·.store form.2 form.1 v.spelling) h.filled open_ found terse
  obtain ⟨s₂, emitted, filled₂, put⟩ := emit_filled filled₁ open₁ found₁
  unfold Completes
  simp only [EStateM.run_bind, changed, emitted]
  refine ⟨filled₂, id, node, form.1, _, ?_, found, Scalar.canonical_of_storedForm stored, ?_, notes⟩
  · rw [open_]
    rfl
  · rwa [Key.name_store] at put

theorem storeValue_completes (h : s.Orderly) (v : Scalar) :
    Completes (storeValue v) s fun _ t => t.Filled ∧ s.Stores t v := by
  cases stored : storedForm v with
  | error cause =>
    unfold Completes
    simp only [storeValue, stored, EStateM.run_bind, lift_error_run]
    exact h.keys
  | ok form =>
    cases open_ : s.nodes.stack with
    | nil =>
      unfold Completes
      simp only [storeValue, stored, EStateM.run_bind, lift_ok_run, top, EStateM.run_get, open_]
      exact h.keys
    | cons id rest =>
      have commits := commit_completes h open_ stored
      unfold Completes at commits ⊢
      simpa only [storeValue, stored, EStateM.run_bind, lift_ok_run, top_run ⟨rest, open_⟩]
        using commits

theorem storeHeld_completes (h : s.Orderly) :
    Completes storeHeld s fun _ t => t.Filled ∧ ∀ v, s.held = some v → s.Stores t v := by
  cases held : s.held with
  | none =>
    unfold Completes
    simp only [storeHeld, EStateM.run_bind, EStateM.run_get, held]
    exact ⟨h.filled, fun _ none => by cases none⟩
  | some v =>
    have dropped : ({ s with held := none } : State).Orderly := ⟨h.nodes, h.keys⟩
    have same : storeHeld.run s = (storeValue v).run { s with held := none } := by
      simp only [storeHeld, dropHeld, EStateM.run_bind, EStateM.run_get, held, EStateM.run_modify]
    have stores := storeValue_completes dropped v
    unfold Completes at stores ⊢
    rw [same]
    cases ran : (storeValue v).run { s with held := none } with
    | error cause t => rwa [ran] at stores
    | ok _ t =>
      rw [ran] at stores
      refine ⟨stores.1, fun _ found => ?_⟩
      cases found
      exact stores.2

theorem closePrevious_completes (h : s.Filled) :
    Completes closePrevious s fun _ t => t.Orderly ∧ t.keys = s.keys := by
  unfold Completes
  cases open_ : s.nodes.stack with
  | nil =>
    simp only [closePrevious, EStateM.run_bind, top, EStateM.run_get, open_]
    exact h.keys
  | cons id rest =>
    have innermost : id ∈ s.nodes.stack := by rw [open_]; exact List.mem_cons_self
    have remembered : (s.nodes.remember id).Orderly (s.nodes.remember id).stack.tail :=
      h.nodes.remember innermost
    simp only [closePrevious, closeNode, EStateM.run_bind, EStateM.run_modify, EStateM.run_get,
      top_run ⟨rest, open_⟩]
    cases popped : (s.nodes.remember id).pop? with
    | none => exact h.keys
    | some m => exact ⟨⟨remembered.pop popped, h.keys⟩, rfl⟩

/-- A node gets one value at most: it is closed in the same step. -/
theorem endValue_completes (h : s.Orderly) :
    Completes endValue s fun _ t => t.Orderly ∧ ∀ v, s.held = some v → s.Stores t v := by
  refine (storeHeld_completes h).bind fun _ t done => ?_
  obtain ⟨filled, stores⟩ := done
  refine (closePrevious_completes filled).imp fun _ t' closed => ⟨closed.1, fun v held => ?_⟩
  unfold State.Stores
  rw [closed.2]
  exact stores v held

end Builder

/-! ## Runs -/

theorem Event.step_of_endsValue {e : Event} (ends : e.endsValue = true) (o : Options) :
    e.step o = endValue := by
  cases e with
  | pairEnd | elementEnd => rfl
  | _ => cases ends

namespace State

variable {o : Options} {s : State}

/-- What is known of a state after any events. -/
structure Lossless (s : State) : Prop where
  orderly : s.fault = none → s.Orderly
  keys : s.keys.Terse

theorem lossless_start (o : Options) : (start o ∅).Lossless where
  orderly _ := ⟨.start _ (Key.isBlank_empty o.root), fun _ _ found => by cases found⟩
  keys _ _ found := by cases found

theorem Orderly.feed (h : s.Orderly) (clear : s.fault = none) (e : Event) :
    (s.feed o e).1.Lossless ∧ (e.endsValue = true → (s.feed o e).2 = none →
      ∀ v, s.held = some v → s.Stores (s.feed o e).1 v) := by
  unfold State.feed
  rw [clear]
  by_cases ends : e.endsValue = true
  · have completes := endValue_completes h
    unfold Completes at completes
    rw [Event.step_of_endsValue ends o]
    cases ran : endValue.run s with
    | error cause t =>
      rw [ran] at completes
      refine ⟨⟨fun none => ?_, completes⟩, fun _ none => ?_⟩
      · cases none
      · cases none
    | ok _ t =>
      rw [ran] at completes
      exact ⟨⟨fun _ => completes.1, completes.1.keys⟩, fun _ _ => completes.2⟩
  · have leads := e.step_leads_of_endValue (R := StaysOrderly) o s fun yes => absurd yes ends
    have noted : (s.noting e.place?).Orderly := ⟨h.nodes, h.keys⟩
    unfold Leads at leads
    cases ran : (e.step o).run s with
    | error cause t =>
      rw [ran] at leads
      refine ⟨⟨fun none => ?_, (leads noted).keys⟩, fun yes => absurd yes ends⟩
      cases none
    | ok _ t =>
      rw [ran] at leads
      exact ⟨⟨fun _ => leads noted, (leads noted).keys⟩, fun yes => absurd yes ends⟩

theorem Lossless.feed (h : s.Lossless) (o : Options) (e : Event) : (s.feed o e).1.Lossless := by
  cases stopped : s.fault with
  | none => exact ((h.orderly stopped).feed stopped e).1
  | some fault =>
    rw [feed_of_fault e stopped]
    exact h

theorem Lossless.feedAll (h : s.Lossless) (events : List Event) :
    (s.feedAll o events).Lossless := by
  induction events generalizing s with
  | nil => exact h
  | cons e rest ih => exact ih (h.feed o e)

end State

/-- Whatever the events are, no key notes a spelling beside the same text, or without one. When a
value is stored, at the end of its pair or element, the key of that has its canonical text from
then on, with the spelling beside it just if that is another text: the spelling can be read back. -/
theorem storing_lossless (o : Options) (events : List Event) :
    let s := (State.start o ∅).feedAll o events
    s.keys.Terse ∧
    ∀ e v, e.endsValue = true → s.held = some v → v.IsSpelled → s.fault = none →
      (s.feed o e).2 = none →
      ∃ id node key text, s.nodes.stack.head? = some id ∧ s.nodes.get? id = some node ∧
        (s.feed o e).1.keys.lookup node.key.name = some key ∧ v.canonical = .ok text ∧
        key.Notes text v.spelling ∧ key.spelling.or key.text = some v.spelling := by
  intro s
  have lossless : s.Lossless := (State.lossless_start o).feedAll events
  refine ⟨lossless.keys, fun e v ends held spelled clear quiet => ?_⟩
  have stores := ((lossless.orderly clear).feed clear e).2 ends quiet v held
  obtain ⟨id, node, text, key, innermost, found, canonical, stored, notes⟩ := stores
  exact ⟨id, node, key, text, innermost, found, stored, canonical, notes spelled,
    (notes spelled).recovers⟩

example :
    let events : List Event := [.keyStart, .keySegment (.verbatim .bare "a"), .keyEnd,
      .value (.verbatim .hex "0x1F"), .pairEnd]
    ((State.start {} ∅).feedAll {} events).keys.toList.map (fun k => (k.text, k.spelling)) =
      [(some "31", some "0x1F")] := by decide +kernel

end TomlSemantics
