import Calvin.Machine.MasterLookups

/-!
# Fake transactions

`RunReader` skips a transaction that is marked as fake: no replica whose batch
it is in should be a master of its keys. The mark comes from the load generator
and the static layout of the keys, the masters from the storage.

* `Inv`: the invariant of all nodes, next to what is under way for the
  transactions that wait for masters;
* `skipped_not_master`: no master is skipped, as long as the masters looked up
  for a fake transaction are several replicas without replica 0;
* `skipped_master`: with two keys that now have one master it is lost.
-/

namespace Calvin.SequencerWriter

open Function Lib

/-- The masters looked up for a transaction are as its mark says. -/
def Spread (txn : TxnProto) : Prop :=
  txn.fakeTxn = true → txn.involvedReplicas.length ≠ 1 ∧ 0 ∉ txn.involvedReplicas

/-- A transaction that `RunReader` can skip: where it is batched, it has no
entry. -/
def Skippable (txn : TxnProto) : Prop :=
  txn.fakeTxn = true → ∀ entry ∈ entries txn, entry.master ≠ txn.originReplica

/-- The condition on a step. -/
def Good (cfg : ClusterConfig) (s : Sequencers) (e : Event) : Prop :=
  (∀ txn ∈ completed cfg s e, Spread txn) ∧ FreshId s e

instance (txn : TxnProto) : Decidable (Spread txn) := inferInstanceAs (Decidable (_ → _))

instance (txn : TxnProto) : Decidable (Skippable txn) := inferInstanceAs (Decidable (_ → _))

instance (cfg : ClusterConfig) (s : Sequencers) (e : Event) : Decidable (Good cfg s e) :=
  inferInstanceAs (Decidable (_ ∧ _))

/-! ## What is batched -/

/-- What is batched can be skipped, and a fake transaction on its way goes to
replica 0, which is no master of its keys. -/
structure Batched (cfg : ClusterConfig) (s : Sequencers) : Prop where
  messages : ∀ n, ∀ txn ∈ (s.writers n).batchMessage, Skippable txn
  batches : ∀ batch ∈ s.batches, ∀ txn ∈ batch, Skippable txn
  forwords : ∀ p ∈ s.forwords, p.2.fakeTxn = true →
    p.1 / cfg.nodesPerReplica = 0 ∧ ∀ entry ∈ entries p.2, entry.master ≠ 0

structure Inv (cfg : ClusterConfig) (s : Sequencers) : Prop where
  counted : Counted cfg s
  batched : Batched cfg s

theorem inv_init (cfg : ClusterConfig) : Inv cfg {} where
  counted _ _ := rfl
  batched := ⟨fun _ _ h => (List.not_mem_nil h).elim, fun _ h => (List.not_mem_nil h).elim,
    fun _ h => (List.not_mem_nil h).elim⟩

section

variable {cfg : ClusterConfig} {s s' : Sequencers} {n : Nat}

theorem Batched.addToBatch (hb : Batched cfg s) {txn : TxnProto} (h : Skippable txn) :
    Batched cfg (addToBatch s n txn) := by
  refine ⟨fun m t ht => ?_, hb.batches, hb.forwords⟩
  by_cases hm : m = n
  · subst hm
    simp only [SequencerWriter.addToBatch, setWriter, update_self, List.mem_append,
      List.mem_singleton] at ht
    rcases ht with ht | rfl
    · exact hb.messages m t ht
    · exact h
  · simp only [SequencerWriter.addToBatch, setWriter, update_of_ne hm] at ht
    exact hb.messages m t ht

theorem Batched.forword (hb : Batched cfg s) {destination : Nat} {txn : TxnProto}
    (h : txn.fakeTxn = true → destination / cfg.nodesPerReplica = 0 ∧
      ∀ entry ∈ entries txn, entry.master ≠ 0) : Batched cfg (forword s destination txn) := by
  refine ⟨hb.messages, hb.batches, fun p hp => ?_⟩
  rcases List.mem_append.mp hp with hp | hp
  · exact hb.forwords p hp
  · rw [List.mem_singleton.mp hp]
    exact h

/-- A transaction with all masters that is spread goes where it is no loss. -/
theorem route_spec (h0 : 0 < cfg.nodesPerReplica) {txn : TxnProto} (random : Nat)
    (hc : Complete (n / cfg.nodesPerReplica) txn) (hs : Spread txn) (hf : txn.fakeTxn = true) :
    (∀ entry ∈ entries txn, entry.master ≠ 0) ∧
      match route (nodeConfig cfg n) random txn with
      | none => txn.originReplica = 0
      | some destination => destination / cfg.nodesPerReplica = 0 := by
  obtain ⟨hlength, hzero⟩ := hs hf
  refine ⟨fun entry he h => hzero (h ▸ hc.involved entry he), ?_⟩
  have hnot : ∀ replica, txn.involvedReplicas ≠ [replica] := fun replica h =>
    hlength (by rw [h]; rfl)
  unfold route
  split
  · rename_i heq
    split at heq
    · rename_i h
      exact (hnot _ h).elim
    · split at heq
      · rename_i hlocal
        exact hc.origin.trans hlocal.2
      · cases heq
  · rename_i heq
    split at heq
    · rename_i h
      exact (hnot _ h).elim
    · split at heq
      · cases heq
      · cases heq
        exact Nat.div_eq_of_lt (Nat.mod_lt _ h0)

/-- Batching or sending completed transactions on. -/
theorem Batched.dispatch (h0 : 0 < cfg.nodesPerReplica) {random : Nat → Nat}
    {completed : List TxnProto} (hb : Batched cfg s)
    (hc : ∀ t ∈ completed, Complete (n / cfg.nodesPerReplica) t ∧ Spread t) :
    Batched cfg (dispatch cfg s n random completed) := by
  induction completed generalizing s with
  | nil => exact hb
  | cons txn rest ih =>
      obtain ⟨hcomplete, hspread⟩ := hc txn List.mem_cons_self
      have hrest := fun t ht => hc t (List.mem_cons_of_mem _ ht)
      have hroute := fun hf => route_spec h0 (random rest.length) hcomplete hspread hf
      rw [SequencerWriter.dispatch]
      cases hr : route (nodeConfig cfg n) (random rest.length) txn with
      | none =>
          rw [hr] at hroute
          have hskip : Skippable txn := by
            intro hf entry he
            rw [(hroute hf).2]
            exact (hroute hf).1 entry he
          exact ih (hb.addToBatch (n := n) hskip) hrest
      | some destination =>
          rw [hr] at hroute
          exact ih (hb.forword fun hf => ⟨(hroute hf).2, (hroute hf).1⟩) hrest

theorem Batched.setWriter (hb : Batched cfg s) {w : Writer}
    (h : ∀ txn ∈ w.batchMessage, txn ∈ (s.writers n).batchMessage) :
    Batched cfg (setWriter s n w) := by
  refine ⟨fun m t ht => ?_, hb.batches, hb.forwords⟩
  by_cases hm : m = n
  · subst hm
    rw [setWriter_writers_self] at ht
    exact hb.messages m t (h t ht)
  · rw [setWriter_writers_of_ne w hm] at ht
    exact hb.messages m t ht

/-- Every step that meets the condition keeps what is batched as it should be. -/
theorem Inv.batched_step {e : Event} {maxBatchSize : Nat} (h0 : 0 < cfg.nodesPerReplica)
    (hi : Inv cfg s) (hgood : Good cfg s e) (h : next cfg maxBatchSize s e = some s') :
    Batched cfg s' := by
  cases e with
  | getTxn n txn answers random =>
      simp only [next, Option.ite_none_right_eq_some, Option.some.injEq] at h
      obtain ⟨-, rfl⟩ := h
      obtain ⟨-, -, hmessage, -, hcomplete⟩ :=
        getTxn_spec (nodeConfig cfg n) (hi.counted n) hgood.2 answers
      exact (hi.batched.setWriter fun t ht => hmessage ▸ ht).dispatch h0 fun t ht =>
        ⟨hcomplete t ht, hgood.1 t ht⟩
  | sendLookups n mds =>
      simp only [next, Option.ite_none_right_eq_some, Option.some.injEq] at h
      obtain ⟨-, rfl⟩ := h
      have hb := hi.batched.setWriter (n := n)
        (w := { s.writers n with
          lookupMasterBatch := (s.writers n).lookupMasterBatch.filter fun p => p.1 ≠ mds })
        fun _ ht => ht
      exact ⟨hb.messages, hb.batches, hb.forwords⟩
  | answer i getMasterCounter =>
      simp only [next, Option.map_eq_some_iff] at h
      obtain ⟨lookup, -, rfl⟩ := h
      exact ⟨hi.batched.messages, hi.batched.batches, hi.batched.forwords⟩
  | gotResult i random =>
      simp only [next, Option.bind_eq_some_iff, Option.map_eq_some_iff, Prod.exists] at h
      obtain ⟨m, hm, w, done, hw, rfl⟩ := h
      have hspread := hgood.1
      rw [completed, hm, Option.bind_some, hw] at hspread
      obtain ⟨-, hmessage, -, hcomplete⟩ := lookupResults_spec (counted_result hi.counted hm) hw
      have hb : Batched cfg { s with results := s.results.eraseIdx i } :=
        ⟨hi.batched.messages, hi.batched.batches, hi.batched.forwords⟩
      exact (hb.setWriter fun t ht => hmessage ▸ ht).dispatch h0 fun t ht =>
        ⟨hcomplete t ht, hspread t ht⟩
  | schedulerForword destination txn =>
      simp only [next, Option.ite_none_right_eq_some, Option.some.injEq] at h
      obtain ⟨hreal, rfl⟩ := h
      refine hi.batched.forword fun hf => ?_
      rw [hreal] at hf
      cases hf
  | gotForword i =>
      simp only [next, Option.map_eq_some_iff, Prod.exists] at h
      obtain ⟨n, txn, hforword, rfl⟩ := h
      have hmem : (n, txn) ∈ s.forwords := List.mem_of_getElem? hforword
      have hb : Batched cfg { s with forwords := s.forwords.eraseIdx i } :=
        ⟨hi.batched.messages, hi.batched.batches,
          fun p hp => hi.batched.forwords p (List.mem_of_mem_eraseIdx hp)⟩
      refine hb.addToBatch fun hf entry he => ?_
      obtain ⟨hzero, hmasters⟩ := hi.batched.forwords _ hmem hf
      show entry.master ≠ n / cfg.nodesPerReplica
      rw [hzero]
      exact hmasters entry he
  | sendBatch n =>
      simp only [next, Option.some.injEq] at h
      have hb := hi.batched.setWriter (n := n)
        (w := { s.writers n with batchMessage := [], txnIdOffset := 0 })
        fun _ ht => (List.not_mem_nil ht).elim
      split at h
      · subst h
        exact hb
      · subst h
        refine ⟨hb.messages, fun batch hbatch => ?_, hb.forwords⟩
        rcases List.mem_append.mp hbatch with hbatch | hbatch
        · exact hb.batches batch hbatch
        · rw [List.mem_singleton.mp hbatch]
          exact hi.batched.messages n

theorem inv_step {e : Event} {maxBatchSize : Nat} (h0 : 0 < cfg.nodesPerReplica)
    (hi : Inv cfg s) (hgood : Good cfg s e) (h : next cfg maxBatchSize s e = some s') :
    Inv cfg s' :=
  ⟨counted_step hi.counted hgood.2 h, hi.batched_step h0 hgood h⟩

end

/-! ## Main results -/

/-- In every run whose steps meet the condition, a transaction that is skipped as
fake has no entry that its origin is the master of. -/
theorem skipped_not_master (cfg : ClusterConfig) (maxBatchSize : Nat) (s : Sequencers)
    (h0 : 0 < cfg.nodesPerReplica) (h : (machine cfg maxBatchSize).Reach (Good cfg) s) :
    ∀ batch ∈ s.batches, ∀ txn ∈ batch, txn.fakeTxn = true →
      ∀ entry ∈ entries txn, entry.master ≠ txn.originReplica := by
  have hi : Inv cfg s := h.invariant (inv_init cfg) fun _ _ _ _ hg hi hn => inv_step h0 hi hg hn
  exact hi.batched.batches

/-- Three replicas of one node. -/
def threeReplicas : ClusterConfig := { replicasSize := 3 }

/-- What the load generator makes of `MicroTxnMRSP(7, 0, 1, 2)`: five keys laid
out at replica 1 and five at replica 2. -/
def microTxnMRSP : TxnProto where
  txnId := 7
  txnType := 1
  fakeTxn := true
  readWriteSet :=
    [⟨[49], 1, 0⟩, ⟨[50], 2, 0⟩, ⟨[49, 48, 51], 1, 0⟩, ⟨[49, 48, 54], 1, 0⟩, ⟨[49, 48, 57], 1, 0⟩,
      ⟨[49, 49, 50], 1, 0⟩, ⟨[49, 48, 52], 2, 0⟩, ⟨[49, 48, 55], 2, 0⟩, ⟨[49, 49, 48], 2, 0⟩,
      ⟨[49, 49, 51], 2, 0⟩]

/-- The position of a key of replica 2 in the transaction. -/
def laidOutAtTwo (i : Nat) : Bool := i = 1 ∨ 6 ≤ i

/-- With the masters as they are laid out it goes to replica 0 and is skipped
there. -/
theorem skipped_not_master_forwarded :
    ∃ s : Sequencers, s.batches.length = 1 ∧ ∀ batch ∈ s.batches, ∀ txn ∈ batch,
      txn.fakeTxn = true → ∀ entry ∈ entries txn, entry.master ≠ txn.originReplica := by
  obtain ⟨s, hr, hs⟩ := Machine.exists_of_runIf (m := machine threeReplicas 1)
    (Good threeReplicas) (P := fun s => s.batches.length = 1)
    [.getTxn 1 microTxnMRSP (fun i => (if laidOutAtTwo i then 2 else 1, 0)) 0, .gotForword 0,
      .sendBatch 0]
    (by decide)
  exact ⟨s, hs, skipped_not_master threeReplicas 1 s (by decide) hr⟩

/-- Once the keys of replica 2 have been remastered to replica 1, the transaction
is batched there, and skipped by the only master of its keys. -/
theorem skipped_master :
    ∃ s : Sequencers, (machine threeReplicas 1).Reachable s ∧
      ∃ batch ∈ s.batches, ∃ txn ∈ batch, txn.fakeTxn = true ∧
        ∃ entry ∈ entries txn, entry.master = txn.originReplica :=
  Machine.exists_of_trace (m := machine threeReplicas 1)
    (P := fun s => ∃ batch ∈ s.batches, ∃ txn ∈ batch, txn.fakeTxn = true ∧
      ∃ entry ∈ entries txn, entry.master = txn.originReplica)
    [.getTxn 1 microTxnMRSP (fun i => (1, if laidOutAtTwo i then 1 else 0)) 0, .sendBatch 1]
    (by decide)

end Calvin.SequencerWriter
