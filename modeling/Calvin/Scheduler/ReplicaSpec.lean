import Calvin.Scheduler.Replica

/-!
# The nodes of a replica by themselves

Every step of a replica is a step of one of its nodes, so that what holds of all
runs of a scheduler holds of the nodes of a replica.
-/

namespace Calvin.Replica

open Function Lib

variable {cfg : ClusterConfig} {mode : Nat} {merge : List TxnProto} {compute : Compute}
  {init : Key → Record} {s s' : Replica}

/-! ## The transactions of a node -/

theorem txnAt_mem {m : Nat} {p : Ptr} (hp : p < (stream cfg merge m).length) :
    ∃ c ∈ merge, c.fakeTxn = false ∧ m ∈ LowlatencySequencer.readers cfg c ∧
      txnAt cfg merge m p = LowlatencySequencer.withReaders cfg c := by
  have hmem : txnAt cfg merge m p ∈ stream cfg merge m := by
    rw [txnAt, List.getElem?_eq_getElem hp, Option.getD_some]
    exact List.getElem_mem hp
  obtain ⟨c, hc, heq⟩ := List.mem_map.mp hmem
  obtain ⟨hc, hsub⟩ := List.mem_filter.mp hc
  exact ⟨c, hc, (of_decide_eq_true hsub).1, (of_decide_eq_true hsub).2, heq.symm⟩

/-- The numbers behind the last transaction stand for empty ones. -/
theorem txnAt_of_ge {m : Nat} {p : Ptr} (hp : ¬ p < (stream cfg merge m).length) :
    txnAt cfg merge m p = { txnId := 0 } := by
  rw [txnAt, List.getElem?_eq_none_iff.mpr (Nat.le_of_not_lt hp), Option.getD_none]

theorem txnAt_readers {m : Nat} {p : Ptr} (hp : p < (stream cfg merge m).length) :
    m ∈ (txnAt cfg merge m p).readers := by
  obtain ⟨c, -, -, hread, heq⟩ := txnAt_mem hp
  rw [heq]
  exact List.mem_append_right _ hread

/-- A node keeps the order of the merge. -/
theorem txnAt_pairwise {R : TxnProto → TxnProto → Prop} {m : Nat} {p q : Ptr}
    (h : (merge.filter fun txn => txn.fakeTxn = false).Pairwise fun a b =>
      R (LowlatencySequencer.withReaders cfg a) (LowlatencySequencer.withReaders cfg b))
    (hp : p < (stream cfg merge m).length) (hqp : q < p) :
    R (txnAt cfg merge m q) (txnAt cfg merge m p) := by
  have hstream : (stream cfg merge m).Pairwise R := by
    have hfilter : (merge.filter fun txn => txn.fakeTxn = false ∧
        m ∈ LowlatencySequencer.readers cfg txn) =
        (merge.filter fun txn => txn.fakeTxn = false).filter fun txn =>
          m ∈ LowlatencySequencer.readers cfg txn := by
      rw [List.filter_filter]
      exact List.filter_congr fun txn _ => by simp [Bool.and_comm]
    rw [stream, LowlatencySequencer.subbatch, List.pairwise_map, hfilter]
    exact h.sublist List.filter_sublist
  have hq : q < (stream cfg merge m).length := Nat.lt_trans hqp hp
  have htxn : ∀ {i : Ptr} (hi : i < (stream cfg merge m).length),
      txnAt cfg merge m i = (stream cfg merge m)[i] := fun hi => by
    rw [txnAt, List.getElem?_eq_getElem hi, Option.getD_some]
  rw [htxn hp, htxn hq]
  exact List.pairwise_iff_getElem.mp hstream q p hq hp hqp

/-! ## Steps of one node -/

/-- The step of a node in a step of the replica. -/
def nodeEvent (s : Replica) : Event → Option (Nat × DeterministicScheduler.Event)
  | .node m e => some (m, e)
  | .start m => some (m, .start)
  | .deliver m p i => s.network[i]?.map fun msg => (m, .readResult p msg.entries)

/-- One node makes a step, the others stay. -/
theorem next_node {e : Event} (h : (machine cfg mode merge compute init).next s e = some s') :
    ∃ m node e', nodeEvent s e = some (m, e') ∧ s'.nodes = update s.nodes m node ∧
      DeterministicScheduler.step (nodeConfig cfg m) mode (txnAt cfg merge m) compute
        (s.nodes m) e' =
        some node := by
  cases e with
  | node m e =>
      have hnode : (DeterministicScheduler.step (nodeConfig cfg m) mode (txnAt cfg merge m) compute
          (s.nodes m) e).map (setNode s m) = some s' := by
        simp only [machine, nodeStep] at h
        split at h
        · exact (Option.ite_none_right_eq_some.mp h).2
        · cases h
        · cases h
        · exact h
      obtain ⟨node, hstep, rfl⟩ := Option.map_eq_some_iff.mp hnode
      exact ⟨m, node, e, rfl, rfl, hstep⟩
  | start m =>
      obtain ⟨⟨node, sent⟩, hstart, rfl⟩ := Option.map_eq_some_iff.mp h
      exact ⟨m, node, .start, rfl, rfl, Option.map_eq_some_iff.mpr ⟨_, hstart, rfl⟩⟩
  | deliver m p i =>
      obtain ⟨msg, hmsg, h⟩ := Option.bind_eq_some_iff.mp h
      obtain ⟨-, h⟩ := Option.ite_none_right_eq_some.mp h
      obtain ⟨node, hread, rfl⟩ := Option.map_eq_some_iff.mp h
      exact ⟨m, node, .readResult p msg.entries, Option.map_eq_some_iff.mpr ⟨msg, hmsg, rfl⟩, rfl,
        hread⟩

/-- A node of a replica is in a state that its scheduler reaches by itself. -/
theorem reachable_node {good : Replica → Event → Prop}
    (h : (machine cfg mode merge compute init).Reach good s) (m : Nat) :
    (DeterministicScheduler.machine (nodeConfig cfg m) mode (txnAt cfg merge m) compute
      init).Reachable (s.nodes m) := by
  induction h with
  | init => exact .init
  | step _ _ hn ih =>
      obtain ⟨m', node, e', -, hnodes, hstep⟩ := next_node hn
      rw [hnodes]
      by_cases hm : m = m'
      · subst hm
        rw [update_self]
        exact .step ih trivial hstep
      · rw [update_of_ne hm]
        exact ih

end Calvin.Replica
