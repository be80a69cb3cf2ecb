import Calvin.Log.LocalPaxosGeneration
import Calvin.Machine.LowlatencySequencerWriter
import Calvin.Theorems.RetryDispatch

/-!
# Dispatch of a transaction to its participants

A transaction is split by partition, in `RunReader`, and by master, in the copies
that the leaders of the other replicas generate. `covered_iff` says when each of
its entries gets exactly one participant.
-/

namespace Calvin.DispatchCoverage

open LowlatencySequencer
open SequencerWriter (entries)
open LocalPaxos (Leader)
open LocalPaxos.GeneratedCopies (sixReplicas)
open LocalPaxos.SequenceExchange (Topology)

section

variable (cfg : ClusterConfig) (top : Topology) (source : Nat) (batch : List TxnProto)

/-- The batch a replica generates from a batch. -/
def generatedBatch (r : Nat) : List TxnProto :=
  ((mrTxnsBatch source r batch).getD []).map (Leader.generatedTxn (top.config r))

/-- What is sent to a partition of a batch and the batches generated from it. -/
def dispatched (mds : Nat) : List TxnProto :=
  subbatch cfg batch mds ++
    (List.range top.replicas).flatMap fun r => subbatch cfg (generatedBatch top source batch r) mds

/-- Every entry of a transaction has exactly one copy at its partition, and no
partition gets a copy it holds no entry for. -/
structure Covered (txn : TxnProto) : Prop where
  once : ∀ entry ∈ entries txn,
    ((dispatched cfg top source batch (cfg.lookupPartition entry.key)).filter fun t =>
      t.txnId = txn.txnId ∧ t.originReplica = entry.master).length = 1
  only : ∀ mds, ∀ t ∈ dispatched cfg top source batch mds, t.txnId = txn.txnId →
    ∃ entry ∈ entries txn, cfg.lookupPartition entry.key = mds ∧ entry.master = t.originReplica

end

/-- A transaction as `RunWriter` batches it: its involved replicas are the
masters of its entries, a single one batches it itself, several at replica 0. -/
structure Routed (top : Topology) (source : Nat) (txn : TxnProto) : Prop where
  origin : txn.originReplica = source
  notGenerated : txn.newGenerated = false
  nodup : txn.involvedReplicas.Nodup
  masters : ∀ r, r ∈ txn.involvedReplicas ↔ ∃ entry ∈ entries txn, entry.master = r
  replicas : ∀ r ∈ txn.involvedReplicas, r < top.replicas
  single : ∀ r, txn.involvedReplicas = [r] → source = r
  several : 1 < txn.involvedReplicas.length → source = 0
  /-- The mark is set only away from replica 0. -/
  fake : txn.fakeTxn = true → 0 ∉ txn.involvedReplicas

section

variable {cfg : ClusterConfig} {top : Topology} {source : Nat} {batch : List TxnProto}
  {txn : TxnProto}

/-- The sub-batch of a partition, for one id. -/
theorem subbatch_filter (mds id : Nat) (txns : List TxnProto) :
    ((subbatch cfg txns mds).filter fun t => t.txnId = id) =
      subbatch cfg (txns.filter fun t => t.txnId = id) mds := by
  rw [subbatch, subbatch, List.filter_map, List.filter_filter, List.filter_filter]
  congr 1
  refine List.filter_congr fun t _ => ?_
  simp only [Function.comp_apply]
  exact Bool.and_comm _ _

theorem subbatch_singleton (mds : Nat) (t : TxnProto) :
    subbatch cfg [t] mds =
      if t.fakeTxn = false ∧ mds ∈ readers cfg t then [withReaders cfg t] else [] := by
  rw [subbatch, List.filter_cons, List.filter_nil]
  by_cases h : t.fakeTxn = false ∧ mds ∈ readers cfg t
  · rw [if_pos h, if_pos (decide_eq_true h)]
    rfl
  · rw [if_neg h, if_neg (by simpa using h)]
    rfl

/-- What a replica generates from one transaction of a batch. -/
theorem generatedBatch_filter (hset : ∀ t ∈ batch, t.involvedReplicas.Nodup)
    (hids : (batch.map TxnProto.txnId).Nodup) (hm : txn ∈ batch) (r : Nat) :
    ((generatedBatch top source batch r).filter fun t => t.txnId = txn.txnId) =
      if source = 0 ∧ r ≠ 0 ∧ Relevant r txn then [Leader.generatedTxn (top.config r) txn]
      else [] := by
  unfold generatedBatch mrTxnsBatch
  by_cases hsource : source = 0 ∧ r ≠ 0
  · rw [if_pos hsource, Option.getD_some, mrTxns_eq_filter hset, List.filter_map]
    have hone := RetryDispatch.filter_txnId hids hm
    have hfilter : ((batch.filter (Relevant r)).filter fun t => t.txnId = txn.txnId) =
        if Relevant r txn then [txn] else [] := by
      rw [List.filter_comm, hone, List.filter_singleton]
      by_cases h : Relevant r txn <;> simp [h]
    show ((batch.filter (Relevant r)).filter fun t => t.txnId = txn.txnId).map _ = _
    rw [hfilter]
    by_cases h : Relevant r txn
    · rw [if_pos h, if_pos ⟨hsource.1, hsource.2, h⟩]
      rfl
    · rw [if_neg h, if_neg fun h' => h h'.2.2]
      rfl
  · rw [if_neg hsource, if_neg fun h => hsource ⟨h.1, h.2.1⟩]
    rfl

/-- The participants of a transaction at a partition. -/
theorem dispatched_filter (hset : ∀ t ∈ batch, t.involvedReplicas.Nodup)
    (hids : (batch.map TxnProto.txnId).Nodup) (hm : txn ∈ batch) (mds : Nat) :
    ((dispatched cfg top source batch mds).filter fun t => t.txnId = txn.txnId) =
      subbatch cfg [txn] mds ++ (List.range top.replicas).flatMap fun r =>
        if source = 0 ∧ r ≠ 0 ∧ Relevant r txn then
          subbatch cfg [Leader.generatedTxn (top.config r) txn] mds
        else [] := by
  rw [dispatched, List.filter_append, subbatch_filter, RetryDispatch.filter_txnId hids hm,
    List.filter_flatMap]
  congr 1
  refine List.flatMap_congr fun r _ => ?_
  rw [subbatch_filter, generatedBatch_filter hset hids hm]
  split <;> rfl

/-- The one participant of an origin. -/
theorem subbatch_singleton_filter (mds q : Nat) (t : TxnProto) :
    ((subbatch cfg [t] mds).filter fun t' => t'.originReplica = q) =
      if t.originReplica = q then subbatch cfg [t] mds else [] := by
  rw [subbatch_singleton]
  have horigin : (withReaders cfg t).originReplica = t.originReplica := rfl
  by_cases h : t.fakeTxn = false ∧ mds ∈ readers cfg t
  · rw [if_pos h, List.filter_cons, List.filter_nil, horigin]
    by_cases hq : t.originReplica = q <;> simp [hq]
  · rw [if_neg h, List.filter_nil, ite_self]

theorem flatMap_range_single {α : Type} (n q : Nat) (ys : List α) :
    ((List.range n).flatMap fun r => if r = q then ys else []) = if q < n then ys else [] := by
  induction n with
  | zero => rfl
  | succ n ih =>
      rw [List.range_succ, List.flatMap_append, ih, List.flatMap_singleton]
      by_cases h : q < n
      · rw [if_pos h, if_neg (Nat.ne_of_gt h), if_pos (Nat.lt_succ_of_lt h), List.append_nil]
      · by_cases hq : n = q
        · rw [if_neg h, if_pos hq, if_pos (hq ▸ Nat.lt_succ_self n), List.nil_append]
        · rw [if_neg h, if_neg hq, if_neg (by omega), List.nil_append]

/-- The copies of a transaction of one origin at a partition: the transaction
itself, or the copy its leader has generated. -/
theorem dispatched_filter_origin (hset : ∀ t ∈ batch, t.involvedReplicas.Nodup)
    (hids : (batch.map TxnProto.txnId).Nodup) (hm : txn ∈ batch) (mds q : Nat)
    (hq : q < top.replicas) :
    ((dispatched cfg top source batch mds).filter fun t =>
        t.txnId = txn.txnId ∧ t.originReplica = q) =
      (if txn.originReplica = q then subbatch cfg [txn] mds else []) ++
        if source = 0 ∧ q ≠ 0 ∧ Relevant q txn then
          subbatch cfg [Leader.generatedTxn (top.config q) txn] mds
        else [] := by
  have hboth : ((dispatched cfg top source batch mds).filter fun t =>
      t.txnId = txn.txnId ∧ t.originReplica = q) =
        ((dispatched cfg top source batch mds).filter fun t => t.txnId = txn.txnId).filter
          fun t => t.originReplica = q := by
    rw [List.filter_filter]
    refine List.filter_congr fun t _ => ?_
    rw [Bool.decide_and, Bool.and_comm]
  rw [hboth, dispatched_filter hset hids hm, List.filter_append, subbatch_singleton_filter,
    List.filter_flatMap]
  congr 1
  have hone : ∀ r, (if source = 0 ∧ r ≠ 0 ∧ Relevant r txn then
      subbatch cfg [Leader.generatedTxn (top.config r) txn] mds else []).filter
        (fun t => t.originReplica = q) =
      if r = q then
        if source = 0 ∧ q ≠ 0 ∧ Relevant q txn then
          subbatch cfg [Leader.generatedTxn (top.config q) txn] mds
        else []
      else [] := by
    intro r
    by_cases hr : r = q
    · subst hr
      rw [if_pos rfl]
      split
      · rw [subbatch_singleton_filter]
        exact if_pos rfl
      · rfl
    · rw [if_neg hr]
      split
      · rw [subbatch_singleton_filter]
        exact if_neg hr
      · rfl
  rw [List.flatMap_congr fun r _ => hone r, flatMap_range_single, if_pos hq]

/-- A copy is sent to a partition only for an entry there. -/
theorem dispatched_only (hset : ∀ t ∈ batch, t.involvedReplicas.Nodup)
    (hids : (batch.map TxnProto.txnId).Nodup) (hm : txn ∈ batch) (mds : Nat) (t : TxnProto)
    (ht : t ∈ dispatched cfg top source batch mds) (hid : t.txnId = txn.txnId) :
    ∃ entry ∈ entries txn,
      cfg.lookupPartition entry.key = mds ∧ entry.master = t.originReplica := by
  have hreader : ∀ t' : TxnProto, entries t' = entries txn → t ∈ subbatch cfg [t'] mds →
      ∃ entry ∈ entries txn, cfg.lookupPartition entry.key = mds ∧
        entry.master = t.originReplica := by
    intro t' hentries hmem
    rw [subbatch_singleton] at hmem
    split at hmem
    · rename_i h
      rw [List.mem_singleton.mp hmem]
      obtain ⟨entry, he, hmaster, hpart⟩ := mem_partitions.mp h.2
      exact ⟨entry, hentries ▸ he, hpart, hmaster⟩
    · cases hmem
  have hfilter : t ∈ (dispatched cfg top source batch mds).filter fun t => t.txnId = txn.txnId :=
    List.mem_filter.mpr ⟨ht, decide_eq_true hid⟩
  rw [dispatched_filter hset hids hm, List.mem_append, List.mem_flatMap] at hfilter
  rcases hfilter with h | ⟨r, -, h⟩
  · exact hreader txn rfl h
  · split at h
    · exact hreader (Leader.generatedTxn (top.config r) txn) rfl h
    · cases h

/-- A copy goes to the partition of an entry that its origin masters. -/
theorem subbatch_of_entry (cfg : ClusterConfig) {t : TxnProto} {entry : KeyEntry}
    (hf : t.fakeTxn = false)
    (he : entry ∈ entries t) (hmaster : entry.master = t.originReplica) :
    subbatch cfg [t] (cfg.lookupPartition entry.key) = [withReaders cfg t] := by
  rw [subbatch_singleton, if_pos ⟨hf, mem_partitions.mpr ⟨entry, he, hmaster, rfl⟩⟩]

/-- A routed transaction is covered, unless it is marked as fake and has a single
master: that one skips it. -/
theorem covered_iff (cfg : ClusterConfig) (top : Topology) (source : Nat) (batch : List TxnProto)
    (txn : TxnProto) (hset : ∀ t ∈ batch, t.involvedReplicas.Nodup)
    (hids : (batch.map TxnProto.txnId).Nodup) (hm : txn ∈ batch) (hr : Routed top source txn) :
    Covered cfg top source batch txn ↔
      ¬ (txn.fakeTxn = true ∧ txn.involvedReplicas.length = 1) := by
  constructor
  · rintro hc ⟨hf, hlength⟩
    obtain ⟨r, hinvolved⟩ := List.length_eq_one_iff.mp hlength
    have hmem : r ∈ txn.involvedReplicas := by simp [hinvolved]
    obtain ⟨entry, he, hmaster⟩ := (hr.masters r).mp hmem
    have hone := hc.once entry he
    have hnot : ¬ Relevant r txn := fun h => by have := h.1; omega
    rw [hmaster, dispatched_filter_origin hset hids hm _ r (hr.replicas r hmem),
      if_pos (hr.origin.trans (hr.single r hinvolved)), if_neg (fun h => hnot h.2.2),
      List.append_nil, subbatch_singleton, hf] at hone
    simp at hone
  · intro hcond
    refine ⟨fun entry he => ?_, fun mds t ht hid => dispatched_only hset hids hm mds t ht hid⟩
    have hmem : entry.master ∈ txn.involvedReplicas := (hr.masters _).mpr ⟨entry, he, rfl⟩
    rw [dispatched_filter_origin hset hids hm _ _ (hr.replicas _ hmem), hr.origin]
    rcases Nat.lt_or_ge 1 txn.involvedReplicas.length with hmany | hfew
    · have hsource := hr.several hmany
      by_cases hzero : entry.master = 0
      · -- replica 0 dispatches the transaction itself
        have hf : txn.fakeTxn = false := by
          cases hf : txn.fakeTxn with
          | false => rfl
          | true => exact (hr.fake hf (hzero ▸ hmem)).elim
        have hhere := subbatch_of_entry cfg hf he
          (hzero.trans (hsource.symm.trans hr.origin.symm))
        rw [if_pos (hsource.trans hzero.symm), if_neg (fun h => h.2.1 hzero), hhere]
        rfl
      · -- another master dispatches the copy of its leader
        have hhere := subbatch_of_entry cfg
          (t := Leader.generatedTxn (top.config entry.master) txn) rfl he rfl
        rw [if_neg (fun h => hzero (h.symm.trans hsource)),
          if_pos ⟨hsource, hzero, hmany, hmem, hr.notGenerated⟩, hhere]
        rfl
    · have hlength : txn.involvedReplicas.length = 1 :=
        Nat.le_antisymm hfew (List.length_pos_of_mem hmem)
      obtain ⟨r, hinvolved⟩ := List.length_eq_one_iff.mp hlength
      have hsource : source = entry.master := by
        rw [hinvolved, List.mem_singleton] at hmem
        exact (hr.single r hinvolved).trans hmem.symm
      have hf : txn.fakeTxn = false := by
        cases hf : txn.fakeTxn with
        | false => rfl
        | true => exact (hcond ⟨hf, hlength⟩).elim
      have hnot : ¬ Relevant entry.master txn := fun h => by have := h.1; omega
      have hhere := subbatch_of_entry cfg hf he (hsource.symm.trans hr.origin.symm)
      rw [if_pos hsource, if_neg (fun h => hnot h.2.2), hhere]
      rfl

end

/-- A transaction of replicas 0 and 1 on two partitions. -/
def ofTwo : TxnProto where
  txnId := 7
  readSet := [⟨[48], 0, 0⟩]
  readWriteSet := [⟨[49], 1, 0⟩]
  involvedReplicas := [0, 1]

def twoPartitions : ClusterConfig := { nodesPerReplica := 2, replicasSize := 6 }

theorem routed_ofTwo : Routed (sixReplicas false) 0 ofTwo where
  origin := rfl
  notGenerated := rfl
  nodup := by decide
  masters r := by
    simp only [ofTwo, entries, List.mem_cons, List.not_mem_nil, or_false, List.singleton_append,
      exists_eq_or_imp, exists_eq_left]
    exact ⟨fun h => h.imp Eq.symm Eq.symm, fun h => h.imp Eq.symm Eq.symm⟩
  replicas := by decide
  single r h := by simp [ofTwo] at h
  several _ := rfl
  fake h := by cases h

theorem covered_iff_ofTwo :
    Covered twoPartitions (sixReplicas false) 0 [ofTwo] ofTwo ↔
      ¬ (ofTwo.fakeTxn = true ∧ ofTwo.involvedReplicas.length = 1) :=
  covered_iff twoPartitions (sixReplicas false) 0 [ofTwo] ofTwo (by decide)
    (by decide) (by decide) routed_ofTwo

/-- A transaction of replicas 1 and 2 whose keys are now all mastered at replica
1. -/
def fakeOfOne : TxnProto where
  txnId := 7
  readWriteSet := [⟨[49], 1, 0⟩, ⟨[50], 1, 1⟩]
  originReplica := 1
  involvedReplicas := [1]
  fakeTxn := true

/-- It is routed as `RunWriter` does, and nothing of it reaches partition 1. -/
theorem fake_not_covered :
    Routed (sixReplicas false) 1 fakeOfOne ∧
      ¬ Covered twoPartitions (sixReplicas false) 1 [fakeOfOne] fakeOfOne := by
  refine ⟨⟨rfl, rfl, by decide, fun r => ?_, by decide, fun r h => ?_, fun h => ?_, fun _ => ?_⟩,
    fun h => ?_⟩
  · simp [fakeOfOne, entries, eq_comm]
  · simpa [fakeOfOne, eq_comm] using h
  · exact absurd h (by decide)
  · decide
  · have hone := h.once ⟨[49], 1, 0⟩ (by decide)
    revert hone
    decide

end Calvin.DispatchCoverage
