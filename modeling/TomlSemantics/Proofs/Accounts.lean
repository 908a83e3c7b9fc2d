import Mathlib.Data.List.Dedup
import TomlSemantics.Proofs.IntegrityRun

/-!
# Nodes are freed with their last holder

The number that is kept with a node is that of its holders, after any events and also in the middle
of a step. So a node that is needed is always there, a slot is used again only when nothing refers
to it any more, and when all holders let go no node is left.

1. `OpenNodes.Accounted`: every node has its holders, and every holder has its node.
2. `Exact.accounted`, `Exact.live_closeAll`: exact counts account for all nodes, and lead to none.
3. `nodes_accounted`: all events account for all nodes.
-/

namespace TomlSemantics

/-! ## Letting go of many holders -/

namespace NodePool

variable {p : NodePool} {holders : NodeId → Nat}

theorem Valid.foldl_release (valid : p.Valid) (ids : List NodeId) :
    (ids.foldl NodePool.release p).Valid := by
  induction ids generalizing p with
  | nil => exact valid
  | cons id rest ih => exact ih (valid.release id)

/-- Holders let go one after another, none of them more often than it holds. -/
theorem Counts.foldl_release (h : p.Counts holders) {ids : List NodeId}
    (held : ∀ id, ids.count id ≤ holders id) :
    (ids.foldl NodePool.release p).Counts fun id => holders id - ids.count id := by
  induction ids generalizing p holders with
  | nil => exact h
  | cons id rest ih =>
    have counted (other : NodeId) : (id :: rest).count other =
        rest.count other + if other = id then 1 else 0 := by
      rw [List.count_cons]
      simp only [beq_iff_eq, eq_comm (a := other)]
    have here : holders id ≠ 0 := by
      have enough := held id
      rw [counted, if_pos rfl] at enough
      exact Nat.ne_of_gt (Nat.lt_of_lt_of_le (Nat.succ_pos _) enough)
    have later : ∀ other, rest.count other ≤ holders other - if other = id then 1 else 0 := by
      intro other
      have enough := held other
      rw [counted] at enough
      exact Nat.le_sub_of_add_le enough
    have fewer : (fun other => holders other - (id :: rest).count other) = fun other =>
        (holders other - if other = id then 1 else 0) - rest.count other := by
      funext other
      rw [counted, Nat.add_comm, Nat.sub_sub]
    rw [List.foldl_cons, fewer]
    exact ih (h.release here) later

end NodePool

/-! ## Accounts -/

namespace OpenNodes

variable {n : OpenNodes}

/-- Every node has its holders, and every holder has its node. -/
structure Accounted (n : OpenNodes) : Prop where
  /-- The slot of every open node, and of the last pair or element, is occupied. -/
  occupied : ∀ id ∈ n.previous.toList ++ n.stack, ∃ node, n.get? id = some node
  /-- The holders of a node are its places among the open nodes, and the place for the last pair or
  element if it is that. -/
  holders_eq : ∀ id node, n.get? id = some node →
    node.holders = n.stack.count id + if n.previous = some id then 1 else 0
  /-- No node is kept without a holder. -/
  holders_pos : ∀ id node, n.get? id = some node → 0 < node.holders
  free_nodup : n.pool.free.Nodup
  /-- The slots that are free are those that are empty. -/
  mem_free_iff : ∀ slot, slot ∈ n.pool.free ↔ n.pool.slots[slot]? = some none
  live_eq : n.live = (n.previous.toList ++ n.stack).dedup.length
  /-- The slot for the next node is that of no node that is held. -/
  fresh : ∀ key, (n.pool.store key).1 ∉ n.previous.toList ++ n.stack

theorem holdersOf_ne_zero_iff (n : OpenNodes) (id : NodeId) :
    n.holdersOf id ≠ 0 ↔ id ∈ n.previous.toList ++ n.stack := by
  rw [holdersOf, ← Nat.pos_iff_ne_zero, List.count_pos_iff]

theorem holdersOf_eq (n : OpenNodes) (id : NodeId) :
    n.holdersOf id = n.stack.count id + if n.previous = some id then 1 else 0 := by
  rw [holdersOf, List.count_append, Nat.add_comm]
  congr 1
  cases n.previous with
  | none => rfl
  | some old => simp [List.count_singleton]

theorem Exact.accounted (h : n.Exact) : n.Accounted where
  occupied _ held := h.exists_get? held
  holders_eq id node found := (h.counts.holders_eq found).trans (n.holdersOf_eq id)
  holders_pos id node found := by
    rw [h.counts.holders_eq found, Nat.pos_iff_ne_zero]
    intro none
    have empty := (h.counts.get?_eq_none_iff id).mpr none
    rw [← get?, found] at empty
    cases empty
  free_nodup := h.valid.free_nodup
  mem_free_iff := h.valid.mem_free_iff
  live_eq := h.counts.live_eq_length h.valid (List.nodup_dedup _) fun id =>
    (n.holdersOf_ne_zero_iff id).trans List.mem_dedup.symm
  fresh key held := by
    obtain ⟨node, found⟩ := h.exists_get? held
    have new := NodePool.get?_store_self h.valid key
    rw [← get?, found] at new
    cases new

/-- Closing everything is letting go of every holder. -/
theorem closeAll_pool (n : OpenNodes) :
    n.closeAll.pool = (n.previous.toList ++ n.stack).foldl NodePool.release n.pool := by
  rw [List.foldl_append]
  unfold closeAll
  cases n.previous <;> rfl

/-- When all holders let go, no node is left. -/
theorem Exact.live_closeAll (h : n.Exact) : n.closeAll.live = 0 := by
  have gone := h.counts.foldl_release fun id => Nat.le_refl (n.holdersOf id)
  have valid := h.valid.foldl_release (n.previous.toList ++ n.stack)
  rw [live, closeAll_pool]
  exact gone.live_eq_length valid List.nodup_nil fun id => by simp [holdersOf]

end OpenNodes

/-! ## Steps -/

/-- Every write keeps the counts exact. -/
theorem Write.exact {s t : State} (h : Write s t) (exact : s.nodes.Exact) : t.nodes.Exact := by
  cases h with
  | put id old node found same => exact exact.put found same
  | push key => exact exact.push key
  | pop nodes popped => exact exact.pop popped
  | remember id open_ =>
    exact exact.remember ((s.nodes.holdersOf_ne_zero_iff id).mpr (List.mem_append_right _ open_))
  | hand key => exact exact
  | adjust name f => exact exact
  | other t nodes _ _ => rwa [nodes]

theorem Writes.exact {s t : State} (h : Writes s t) (exact : s.nodes.Exact) : t.nodes.Exact := by
  induction h with
  | refl => exact exact
  | tail _ last ih => exact last.exact ih

/-- Whatever the events are, all nodes are accounted for after them, and after everything that a
further step writes, wherever it stops (`Event.step_does`). The root stays the outermost open node,
no event finds a node gone, and closing the state leaves none. -/
theorem nodes_accounted (o : Options) (keys : KeySet) (events : List Event) :
    let s := (State.start o keys).feedAll o events
    (∀ t, Writes s t → t.nodes.Accounted) ∧
    (s.nodes.stack.getLast? = some OpenNodes.rootId ∧
      ∃ node, s.nodes.get? OpenNodes.rootId = some node ∧ node.key.name = o.root) ∧
    (∀ e fault, (s.feed o e).2 = some fault → fault.cause ≠ .nodeReleased) ∧
    s.close.liveNodes = 0 := by
  intro s
  have proper : s.Proper o keys := State.proper_feedAll o keys events
  have exact := proper.nodes.exact
  refine ⟨fun t writes => (writes.exact exact).accounted, ⟨proper.nodes.bottom, ?_⟩, ?_,
    exact.live_closeAll⟩
  · have open_ := List.mem_of_getLast? proper.nodes.bottom
    obtain ⟨node, found⟩ := exact.exists_get? (List.mem_append_right _ open_)
    exact ⟨node, found, proper.nodes.root_name node found⟩
  · intro e fault raised same
    have sound := proper.not_breakage raised
    rw [same] at sound
    cases sound

end TomlSemantics
