import Mathlib.Data.List.Nodup
import TomlSemantics.Builder.OpenNodes

/-!
# Holders of nodes

A pool is exact when it frees a node with its last holder and no earlier, and when its free slots
are known, each once. The open nodes and the last pair are the only holders.

1. `NodePool.Valid`: the free slots are those that hold no node, each listed once, and the others
   are counted.
2. `NodePool.Counts`: the number that is kept with each node is the number of its holders.
3. `OpenNodes.Exact`: both, for the holders that there are. Opening, closing and remembering nodes
   keep it (`Exact.push`, `Exact.pop`, `Exact.remember`, `Exact.put`).
4. `Counts.live_eq_length`: the nodes that have not been freed are those that are held.
-/

namespace TomlSemantics

theorem NodeId.ext_iff {i j : NodeId} : i = j ↔ i.slot = j.slot := by
  cases i
  cases j
  simp

namespace NodePool

/-- The free slots are those that hold no node, each listed once, and the others are counted. -/
structure Valid (p : NodePool) : Prop where
  free_nodup : p.free.Nodup
  mem_free_iff : ∀ slot, slot ∈ p.free ↔ p.slots[slot]? = some none
  live_eq : p.live = p.slots.countP Option.isSome

/-- The holders that are counted with each node are `holders` in number. A node without a holder
is not in the pool. -/
def Counts (p : NodePool) (holders : NodeId → Nat) : Prop :=
  ∀ id, (p.get? id).map Node.holders = if holders id = 0 then none else some (holders id)

/-! ## What is in a slot after a change -/

theorem get?_put (p : NodePool) {id : NodeId} {old : Node} (node : Node) (h : p.get? id = some old)
    (other : NodeId) : (p.put id node).get? other = if other = id then some node else p.get? other := by
  split
  · next same => rw [same, get?_put_self node h]
  · next differs => exact get?_put_of_ne p node (Ne.symm differs)

theorem get?_store_self {p : NodePool} (valid : p.Valid) (key : Key) :
    p.get? (p.store key).1 = none := by
  unfold store get?
  split
  · next slot free found =>
    have empty := (valid.mem_free_iff slot).mp (by simp [found])
    simp [empty]
  · simp

theorem get?_store {p : NodePool} (valid : p.Valid) (key : Key) (id : NodeId) :
    (p.store key).2.get? id = if id = (p.store key).1 then some { key } else p.get? id := by
  unfold store get?
  split
  · next slot free found =>
    have empty := (valid.mem_free_iff slot).mp (by simp [found])
    obtain ⟨inside, -⟩ := List.getElem?_eq_some_iff.mp empty
    by_cases same : id.slot = slot
    · simp [NodeId.ext_iff, same, inside]
    · simp [NodeId.ext_iff, same, Ne.symm same]
  · by_cases same : id.slot = p.slots.length
    · simp [NodeId.ext_iff, same]
    · rcases Nat.lt_or_ge id.slot p.slots.length with inside | outside
      · simp [NodeId.ext_iff, same, List.getElem?_append_left inside]
      · have beyond : (p.slots ++ [some ({ key } : Node)]).length ≤ id.slot := by
          rw [List.length_append, List.length_singleton]
          omega
        simp [NodeId.ext_iff, same, outside, List.getElem?_eq_none beyond]

theorem get?_retain (p : NodePool) (id other : NodeId) :
    (p.retain id).get? other =
      if other = id then (p.get? id).map fun n => { n with holders := n.holders + 1 }
      else p.get? other := by
  unfold retain
  split
  · next node found => rw [get?_put p _ found, found, Option.map_some]
  · next found =>
    split
    · next same => rw [same, found, Option.map_none]
    · rfl

theorem get?_release (p : NodePool) (id other : NodeId) :
    (p.release id).get? other =
      if other = id then (p.get? id).bind fun n =>
        if n.holders = 1 then none else some { n with holders := n.holders - 1 }
      else p.get? other := by
  unfold release
  split
  · next node found =>
    rw [found, Option.bind_some]
    split
    · next last =>
      have inside := slot_lt_of_get? found
      by_cases same : other = id
      · subst same
        simp [get?, inside]
      · have slots : id.slot ≠ other.slot := fun h => same (NodeId.ext_iff.mpr h.symm)
        simp [get?, same, List.getElem?_set_ne slots]
    · exact get?_put p _ found other
  · next found =>
    split
    · next same => rw [same, found, Option.bind_none]
    · rfl

/-! ## Free slots -/

theorem valid_empty : Valid {} := ⟨List.nodup_nil, by simp, rfl⟩

/-- One slot more or less is occupied, or as many, by what the slot held and what it holds now. -/
theorem countP_set_add {slots : List (Option Node)} {slot : Nat} {old : Option Node}
    (h : slots[slot]? = some old) (new : Option Node) :
    (slots.set slot new).countP Option.isSome + (if old.isSome then 1 else 0) =
      slots.countP Option.isSome + if new.isSome then 1 else 0 := by
  obtain ⟨inside, rfl⟩ := List.getElem?_eq_some_iff.mp h
  have counted : slots[slot].isSome = true → 0 < slots.countP Option.isSome := fun occupied =>
    List.countP_pos_iff.mpr ⟨_, List.getElem_mem inside, occupied⟩
  rw [List.countP_set inside]
  split
  · next occupied =>
    have := counted occupied
    omega
  · omega

theorem getElem?_slots_of_get? {p : NodePool} {id : NodeId} {node : Node}
    (h : p.get? id = some node) : p.slots[id.slot]? = some (some node) :=
  Option.join_eq_some_iff.mp h

theorem Valid.put {p : NodePool} (valid : p.Valid) {id : NodeId} {old : Node} (node : Node)
    (h : p.get? id = some old) : (p.put id node).Valid where
  free_nodup := valid.free_nodup
  mem_free_iff slot := by
    have inside := slot_lt_of_get? h
    simp only [NodePool.put, valid.mem_free_iff slot]
    by_cases same : id.slot = slot
    · subst same
      simp only [List.getElem?_set_self inside, Option.some.injEq, reduceCtorEq, iff_false]
      intro empty
      simp [get?, empty] at h
    · rw [List.getElem?_set_ne same]
  live_eq := by
    have counted := countP_set_add (getElem?_slots_of_get? h) (some node)
    exact valid.live_eq.trans (Nat.add_right_cancel counted).symm

theorem Valid.store {p : NodePool} (valid : p.Valid) (key : Key) : (p.store key).2.Valid := by
  unfold NodePool.store
  split
  · next slot free found =>
    have distinct := valid.free_nodup
    rw [found, List.nodup_cons] at distinct
    have empty := (valid.mem_free_iff slot).mp (by simp [found])
    obtain ⟨inside, -⟩ := List.getElem?_eq_some_iff.mp empty
    refine ⟨distinct.2, fun other => ?_, ?_⟩
    · by_cases same : slot = other
      · subst same
        simp [List.getElem?_set_self inside, distinct.1]
      · rw [List.getElem?_set_ne same, ← valid.mem_free_iff other, found, List.mem_cons]
        simp [Ne.symm same]
    · rw [valid.live_eq]
      exact (countP_set_add empty (some { key })).symm
  · next found =>
    refine ⟨valid.free_nodup, fun other => ?_, ?_⟩
    · rw [valid.mem_free_iff other]
      rcases Nat.lt_trichotomy other p.slots.length with inside | rfl | beyond
      · rw [List.getElem?_append_left inside]
      · simp
      · have most : (p.slots ++ [some ({ key } : Node)]).length ≤ other := by
          rw [List.length_append]
          exact Nat.succ_le_of_lt beyond
        rw [List.getElem?_eq_none most, List.getElem?_eq_none (Nat.le_of_lt beyond)]
    · rw [valid.live_eq, List.countP_append]
      rfl

theorem Valid.retain {p : NodePool} (valid : p.Valid) (id : NodeId) : (p.retain id).Valid := by
  unfold NodePool.retain
  split
  · next found => exact valid.put _ found
  · exact valid

theorem Valid.release {p : NodePool} (valid : p.Valid) (id : NodeId) : (p.release id).Valid := by
  unfold NodePool.release
  split
  · next node found =>
    split
    · have inside := slot_lt_of_get? found
      have taken : id.slot ∉ p.free := by
        rw [valid.mem_free_iff]
        intro empty
        simp [get?, empty] at found
      refine ⟨List.nodup_cons.mpr ⟨taken, valid.free_nodup⟩, fun slot => ?_, ?_⟩
      · rw [List.mem_cons, valid.mem_free_iff slot]
        by_cases same : id.slot = slot
        · subst same
          simp [List.getElem?_set_self inside]
        · simp [List.getElem?_set_ne same, Ne.symm same]
      · have counted := countP_set_add (getElem?_slots_of_get? found) none
        rw [valid.live_eq]
        exact Nat.sub_eq_of_eq_add counted.symm
    · exact valid.put _ found
  · exact valid

/-! ## Counts -/

variable {p : NodePool} {holders : NodeId → Nat}

theorem Counts.get?_eq_none_iff (h : p.Counts holders) (id : NodeId) :
    p.get? id = none ↔ holders id = 0 := by
  have counted := h id
  constructor
  · intro empty
    by_contra some
    simp [empty, some] at counted
  · intro none
    simpa [none] using counted

theorem Counts.holders_eq (h : p.Counts holders) {id : NodeId} {node : Node}
    (found : p.get? id = some node) : node.holders = holders id := by
  have counted := h id
  rw [found, Option.map_some] at counted
  split at counted
  · cases counted
  · exact Option.some.inj counted

theorem Counts.exists_get? (h : p.Counts holders) {id : NodeId} (held : holders id ≠ 0) :
    ∃ node, p.get? id = some node :=
  Option.ne_none_iff_exists'.mp fun empty => held ((h.get?_eq_none_iff id).mp empty)

theorem Counts.put (h : p.Counts holders) {id : NodeId} {old node : Node}
    (found : p.get? id = some old) (same : node.holders = old.holders) :
    (p.put id node).Counts holders := by
  intro other
  rw [get?_put p node found]
  split
  · next here =>
    rw [here, Option.map_some, same, ← Option.map_some, ← found]
    exact h id
  · exact h other

theorem Counts.store (h : p.Counts holders) (valid : p.Valid) (key : Key) :
    (p.store key).2.Counts fun id => holders id + if id = (p.store key).1 then 1 else 0 := by
  intro other
  rw [get?_store valid]
  split
  · next here =>
    have fresh := (h.get?_eq_none_iff _).mp (get?_store_self valid key)
    simp [here, fresh]
  · next differs => simpa [differs] using h other

theorem Counts.retain (h : p.Counts holders) {id : NodeId} (held : holders id ≠ 0) :
    (p.retain id).Counts fun other => holders other + if other = id then 1 else 0 := by
  intro other
  obtain ⟨node, found⟩ := h.exists_get? held
  rw [get?_retain]
  split
  · next here => simp [here, found, h.holders_eq found]
  · next differs => simpa [differs] using h other

theorem Counts.release (h : p.Counts holders) {id : NodeId} (held : holders id ≠ 0) :
    (p.release id).Counts fun other => holders other - if other = id then 1 else 0 := by
  intro other
  obtain ⟨node, found⟩ := h.exists_get? held
  rw [get?_release]
  split
  · next here =>
    subst here
    have counted := h.holders_eq found
    rw [found, Option.bind_some]
    by_cases last : holders other = 1
    · simp [counted, last]
    · have more : holders other - 1 ≠ 0 := by omega
      simp [counted, last, more]
  · next differs => simpa [differs] using h other

/-- The nodes that have not been freed are those that are held. -/
theorem Counts.live_eq_length (h : p.Counts holders) (valid : p.Valid) {ids : List NodeId}
    (distinct : ids.Nodup) (members : ∀ id, holders id ≠ 0 ↔ id ∈ ids) : p.live = ids.length := by
  have occupied : p.live =
      ((List.range p.slots.length).filter fun slot => (p.get? ⟨slot⟩).isSome).length := by
    have slots : p.slots = (List.range p.slots.length).map fun slot => p.get? ⟨slot⟩ := by
      apply List.ext_getElem (by simp)
      intro slot inside _
      simp [get?, inside]
    rw [valid.live_eq, ← List.countP_eq_length_filter]
    conv_lhs => rw [slots]
    rw [List.countP_map]
    rfl
  -- Neither list repeats a slot, so it is enough that they hold the same slots.
  have same : ((List.range p.slots.length).filter fun slot => (p.get? ⟨slot⟩).isSome).Perm
      (ids.map NodeId.slot) := by
    refine (List.perm_ext_iff_of_nodup (List.nodup_range.filter _) ?_).mpr fun slot => ?_
    · exact distinct.map fun i j slots => NodeId.ext_iff.mpr slots
    · have held : (p.get? ⟨slot⟩).isSome ↔ (⟨slot⟩ : NodeId) ∈ ids := by
        rw [← members, ← not_iff_not, Option.not_isSome_iff_eq_none, h.get?_eq_none_iff]
        simp
      rw [List.mem_filter, List.mem_range, held, List.mem_map]
      constructor
      · exact fun found => ⟨_, found.2, rfl⟩
      · rintro ⟨id, found, rfl⟩
        obtain ⟨node, here⟩ := h.exists_get? ((members id).mpr found)
        exact ⟨slot_lt_of_get? here, found⟩
  rw [occupied, same.length_eq, List.length_map]

end NodePool

/-! ## The holders that there are -/

namespace OpenNodes

/-- The places that hold a node: the open nodes, and the last pair or element. -/
def holdersOf (n : OpenNodes) (id : NodeId) : Nat := (n.previous.toList ++ n.stack).count id

/-- The pool knows its holders and its free slots. -/
structure Exact (n : OpenNodes) : Prop where
  valid : n.pool.Valid
  counts : n.pool.Counts n.holdersOf

namespace Exact

variable {n : OpenNodes}

theorem start (root : Key) : (OpenNodes.start root).Exact where
  valid := NodePool.valid_empty.store root
  counts := by
    have none : NodePool.Counts {} fun _ => 0 := by
      intro id
      simp [NodePool.get?]
    have one := none.store NodePool.valid_empty root
    intro id
    rw [show (OpenNodes.start root).pool = (NodePool.store {} root).2 from rfl, one id]
    simp [holdersOf, OpenNodes.start, push, List.count_singleton, eq_comm (a := id)]

theorem push (h : n.Exact) (key : Key) : (n.push key).2.Exact where
  valid := h.valid.store key
  counts := by
    have more := h.counts.store h.valid key
    intro id
    rw [show (n.push key).2.pool = (n.pool.store key).2 from rfl, more id]
    simp only [holdersOf, OpenNodes.push, List.count_append, List.count_cons, beq_iff_eq,
      Nat.add_assoc, eq_comm (a := id)]

theorem put (h : n.Exact) {id : NodeId} {old node : Node} (found : n.get? id = some old)
    (same : node.holders = old.holders) : (n.put id node).Exact where
  valid := h.valid.put node found
  counts := h.counts.put found same

theorem pop (h : n.Exact) {m : OpenNodes} (popped : n.pop? = some m) : m.Exact := by
  unfold pop? at popped
  split at popped
  · next id outer rest stack =>
    cases popped
    refine ⟨h.valid.release id, ?_⟩
    have held : n.holdersOf id ≠ 0 := by simp [holdersOf, stack]
    have less := h.counts.release held
    intro other
    rw [less other]
    simp only [holdersOf, stack, List.count_append, List.count_cons, beq_iff_eq,
      eq_comm (a := other)]
    grind
  · cases popped

theorem remember (h : n.Exact) {id : NodeId} (held : n.holdersOf id ≠ 0) : (n.remember id).Exact := by
  have more := h.counts.retain held
  cases before : n.previous with
  | none =>
    refine ⟨by simpa [OpenNodes.remember, before] using h.valid.retain id, ?_⟩
    intro other
    have pool : (n.remember id).pool = n.pool.retain id := by simp [OpenNodes.remember, before]
    rw [pool, more other]
    simp [holdersOf, OpenNodes.remember, before, List.count_cons, eq_comm (a := other)]
  | some old =>
    refine ⟨by simpa [OpenNodes.remember, before] using (h.valid.retain id).release old, ?_⟩
    have stillHeld : n.holdersOf old + (if old = id then 1 else 0) ≠ 0 := by
      simp [holdersOf, before]
    have fewer := more.release stillHeld
    intro other
    have pool : (n.remember id).pool = (n.pool.retain id).release old := by
      simp [OpenNodes.remember, before]
    rw [pool, fewer other]
    simp only [holdersOf, OpenNodes.remember, before, Option.toList_some, List.count_append,
      List.count_cons, List.count_nil, beq_iff_eq, eq_comm (a := other)]
    grind

end Exact

end OpenNodes

end TomlSemantics
