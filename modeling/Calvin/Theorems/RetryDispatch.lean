import Calvin.Backend.StorageManagerSpec
import Calvin.Machine.LowlatencySequencerWriter
import Calvin.Theorems.GeneratedCopies

/-!
# Retried transactions

An aborted transaction is sent again under a new id, as a copy of the object
that has been aborted. If it involves several replicas it is batched at replica
0, and the leaders of the others have to copy it.

* `retried_copied_iff`: it is copied exactly if the aborted transaction is not a
  generated copy itself, since the mark stays set.
-/

namespace Calvin.RetryDispatch

open LowlatencySequencer LocalPaxos.GeneratedCopies
open SequencerWriter (receiveForword nodeConfig)
open LocalPaxos (Leader)
open LocalPaxos.SequenceExchange (Topology)

/-- The copies that the leader of a replica has generated. -/
def generatedTxns (s : System) (r : Nat) : List TxnProto :=
  ((s.generated r).map Prod.snd).flatten

/-! ## Copying it -/

section

variable {content : Nat → List TxnProto} {r batchId : Nat} {log : List Sequence} {txn : TxnProto}

/-- With unique ids, one transaction has a given id. -/
theorem filter_txnId {txns : List TxnProto} (h : (txns.map TxnProto.txnId).Nodup)
    (hm : txn ∈ txns) : (txns.filter fun t => t.txnId = txn.txnId) = [txn] := by
  induction txns with
  | nil => cases hm
  | cons t rest ih =>
      obtain ⟨ht, hrest⟩ := List.nodup_cons.mp h
      rcases List.mem_cons.mp hm with rfl | hm
      · have hnone : (rest.filter fun t' => t'.txnId = txn.txnId) = [] :=
          List.filter_eq_nil_iff.mpr fun t' ht' => by
            have hne : t'.txnId ≠ txn.txnId := fun heq => ht (heq ▸ List.mem_map_of_mem ht')
            simpa using hne
        rw [List.filter_cons_of_pos (by simp), hnone]
      · have hne : t.txnId ≠ txn.txnId := fun heq => ht (heq ▸ List.mem_map_of_mem hm)
        rw [List.filter_cons_of_neg (by simpa using hne), ih hrest hm]

/-- The relevant transactions of a log with the id of one of its
transactions. -/
theorem filter_relevantTxns (hids : DistinctIds content) (hlog : log.flatten.Nodup)
    (hb : batchId ∈ log.flatten) (hm : txn ∈ content batchId) :
    ((relevantTxns content r log).filter fun t => t.txnId = txn.txnId) =
      if Relevant r txn then [txn] else [] := by
  split
  · rename_i hrelevant
    refine filter_txnId (relevantTxns_nodup hids hlog) (List.mem_flatMap.mpr ⟨batchId, hb, ?_⟩)
    exact List.mem_filter.mpr ⟨hm, decide_eq_true hrelevant⟩
  · rename_i hrelevant
    refine List.filter_eq_nil_iff.mpr fun t ht heq => hrelevant ?_
    obtain ⟨b, -, ht⟩ := List.mem_flatMap.mp ht
    obtain ⟨ht, hr⟩ := List.mem_filter.mp ht
    have hid : t.txnId = txn.txnId := of_decide_eq_true heq
    by_cases hbb : b = batchId
    · -- the same batch: the same transaction
      subst hbb
      have hsame := filter_txnId (hids b).1 hm
      have hmem : t ∈ (content b).filter fun t => t.txnId = txn.txnId :=
        List.mem_filter.mpr ⟨ht, heq⟩
      rw [hsame, List.mem_singleton] at hmem
      exact hmem ▸ of_decide_eq_true hr
    · exact ((hids b).2 batchId (Ne.symm hbb) t ht txn hm hid).elim

end

/-- What a leader has generated of one transaction of replica 0, once it is
through with its batch. -/
theorem generatedTxns_filter {top : Topology} {content : Nat → List TxnProto} {s : System}
    {r batchId : Nat} {txn : TxnProto} (hi : Inv top content s) (hr : r ≠ 0)
    (hset : ∀ b, ∀ txn ∈ content b, txn.involvedReplicas.Nodup) (hids : DistinctIds content)
    (hb : batchId ∈ (s.cluster.from 0 r).flatten) (hm : txn ∈ content batchId) :
    ((generatedTxns s r).filter fun t => t.txnId = txn.txnId) =
      if Relevant r txn then [Leader.generatedTxn (top.config r) txn] else [] := by
  have hg := hi.generation r
  have hgenerated : generatedTxns s r = (relevantTxns content r
      [(s.cluster.from 0 r).flatten ++ (s.cluster.leaders r).pc.handled]).map
        (Leader.generatedTxn (top.config r)) := by
    rw [generatedTxns, hg.contents hr, flatten_copies hset, relevantTxns, List.flatten_singleton]
    rfl
  have hprefix : (s.cluster.from 0 r).flatten ++ (s.cluster.leaders r).pc.handled <+:
      (s.logOfZero top r).flatten := handled_prefix_log hi hr
  have hnodup : [(s.cluster.from 0 r).flatten ++
      (s.cluster.leaders r).pc.handled].flatten.Nodup := by
    rw [List.flatten_singleton]
    exact (logOfZero_nodup (r := r) hi).sublist hprefix.sublist
  have hmem : batchId ∈ [(s.cluster.from 0 r).flatten ++
      (s.cluster.leaders r).pc.handled].flatten := by
    rw [List.flatten_singleton]
    exact List.mem_append_left _ hb
  have hone := filter_relevantTxns (r := r) hids hnodup hmem hm
  rw [hgenerated, List.filter_map]
  show ((relevantTxns content r _).filter fun t => t.txnId = txn.txnId).map _ = _
  rw [hone]
  split <;> rfl

/-- Several involved replicas are not all replica 0. -/
theorem exists_ne_zero {replicas : List Nat} (h : replicas.Nodup) (hl : 1 < replicas.length) :
    ∃ r ∈ replicas, r ≠ 0 := by
  match replicas, h, hl with
  | a :: b :: rest, h, _ =>
      have hab : a ≠ b := fun heq => (List.nodup_cons.mp h).1 (heq ▸ List.mem_cons_self)
      by_cases ha : a = 0
      · exact ⟨b, List.mem_cons_of_mem _ List.mem_cons_self, fun hb => hab (ha.trans hb.symm)⟩
      · exact ⟨a, List.mem_cons_self, ha⟩

/-- A transaction that is sent again to several replicas, once it is in a batch
that replica 0 has submitted and every other involved replica has ordered:
every one of these has generated one copy of it, if and only if the aborted
transaction was not a generated copy. -/
theorem retried_copied_iff (cfg : ClusterConfig) (store : Key → Record) (txn : TxnProto)
    (sm : StorageManager) (guid random : Nat) (commit : Bool) (status : Status)
    (forword : TxnForword)
    (hcheck : sm.checkCommitOrAbort cfg store txn guid random =
      some (commit, status, some forword))
    (hmulti : 1 < forword.data.involvedReplicas.length)
    (top : Topology) (content : Nat → List TxnProto) (s : System) (h0 : 0 < top.allNodes)
    (hset : ∀ b, ∀ txn ∈ content b, txn.involvedReplicas.Nodup) (hids : DistinctIds content)
    (hreach : (machine top content).Reachable s) (batchId : Nat)
    (hbatch : receiveForword (nodeConfig cfg forword.destinationNode) forword.data ∈
      content batchId)
    (hordered : ∀ r ∈ forword.data.involvedReplicas, r ≠ 0 →
      batchId ∈ (s.cluster.from 0 r).flatten) :
    (∀ r ∈ forword.data.involvedReplicas, r ≠ 0 →
        ((generatedTxns s r).filter fun t => t.txnId = guid) =
          [Leader.generatedTxn (top.config r)
            (receiveForword (nodeConfig cfg forword.destinationNode) forword.data)]) ↔
      txn.newGenerated = false := by
  obtain ⟨-, hguid, hflag, -, hnodup⟩ := StorageManager.checkCommitOrAbort_forword hcheck
  have hi := inv_of_reachable h0 hreach
  have hone : ∀ r ∈ forword.data.involvedReplicas, r ≠ 0 →
      ((generatedTxns s r).filter fun t => t.txnId = guid) =
        if Relevant r (receiveForword (nodeConfig cfg forword.destinationNode) forword.data) then
          [Leader.generatedTxn (top.config r)
            (receiveForword (nodeConfig cfg forword.destinationNode) forword.data)]
        else [] := fun r hr hr0 => by
    have h := generatedTxns_filter hi hr0 hset hids (hordered r hr hr0) hbatch
    rwa [show (receiveForword (nodeConfig cfg forword.destinationNode) forword.data).txnId = guid
      from hguid] at h
  constructor
  · intro h
    obtain ⟨r, hr, hr0⟩ := exists_ne_zero hnodup hmulti
    have hall := h r hr hr0
    rw [hone r hr hr0] at hall
    split at hall
    · rename_i hrelevant
      exact hflag ▸ hrelevant.2.2
    · cases hall
  · intro h r hr hr0
    rw [hone r hr hr0]
    exact if_pos ⟨hmulti, hr, hflag.trans h⟩

/-! ## Two retries -/

/-- The node of partition 0 in replica 1. -/
def nodeOfOne : ClusterConfig := { localReplicaId := 1, nodesPerReplica := 2, replicasSize := 6 }

/-- The records there: key '2' has been remastered to replica 0. -/
def storeOfOne (key : Key) : Record := if key = [50] then ⟨[], 0, 1⟩ else ⟨[], 1, 0⟩

/-- A transaction of replica 1 alone. -/
def ofOne : TxnProto where
  txnId := 7
  readWriteSet := [⟨[48], 1, 0⟩, ⟨[50], 1, 0⟩]
  readers := [0]
  writers := [0]
  originReplica := 1
  involvedReplicas := [1]

/-- The copy that replica 1 has generated of a transaction of replicas 1
and 2. -/
def copyOfOne : TxnProto where
  txnId := 7
  readWriteSet := [⟨[48], 1, 0⟩, ⟨[50], 2, 0⟩]
  readers := [0]
  writers := [0]
  originReplica := 1
  newGenerated := true
  involvedReplicas := [1, 2]

/-- Its manager, once the record of key '2' has come from the other copy. -/
def managerOfOne (txn : TxnProto) : StorageManager :=
  (StorageManager.create nodeOfOne 2 storeOfOne txn).1.handleReadResult [([50], ⟨[], 0, 1⟩)]

/-- What either is sent again as, under id 12015. -/
def retryOf (txn : TxnProto) : TxnProto :=
  { txn with
    txnId := 12015
    readWriteSet := [⟨[48], 1, 0⟩, ⟨[50], 0, 1⟩]
    involvedReplicas := [0, 1] }

def forwordOf (txn : TxnProto) : TxnForword where
  destinationNode := 0
  data := retryOf txn

/-- Batch 12002 of replica 0 holds the retry. -/
def retryBatch (txn : TxnProto) (batchId : Nat) : List TxnProto :=
  if batchId = 12002 then [receiveForword (nodeConfig nodeOfOne 0) (retryOf txn)] else []

/-- A run in which replica 1 orders the batch. -/
def retryRun (txns : List TxnProto) : List LocalPaxos.SequenceExchange.Event :=
  [.step 0 (.append 12002), .step 0 .pick, .step 0 (.gotAck 1), .step 0 .finish, .deliver 0 1,
    .step 1 .pick, .batch 1 12002 txns, .step 1 .generate, .step 1 .generate,
    .step 1 (.gotAck 1), .step 1 .finish]

theorem retryBatch_nodup (txn : TxnProto) :
    ∀ b, ∀ t ∈ retryBatch txn b, t.involvedReplicas.Nodup := by
  intro b t ht
  unfold retryBatch at ht
  split at ht
  · rw [List.mem_singleton.mp ht]
    exact (by decide : [0, 1].Nodup)
  · cases ht

theorem retryBatch_distinct (txn : TxnProto) : DistinctIds (retryBatch txn) := by
  intro b
  unfold retryBatch
  refine ⟨by split <;> simp, fun b' hb t ht t' ht' => ?_⟩
  split at ht
  · rename_i h
    rw [if_neg (fun h' => hb (h'.trans h.symm))] at ht'
    cases ht'
  · cases ht

/-- The transaction of replica 1 alone is copied when it is sent again. -/
theorem retried_copied_iff_ofOne :
    ∃ s : System, 12002 ∈ (s.cluster.from 0 1).flatten ∧
      ((∀ r ∈ (forwordOf ofOne).data.involvedReplicas, r ≠ 0 →
        ((generatedTxns s r).filter fun t => t.txnId = 12015) =
          [Leader.generatedTxn ((sixReplicas false).config r)
            (receiveForword (nodeConfig nodeOfOne 0) (retryOf ofOne))]) ↔
        ofOne.newGenerated = false) := by
  obtain ⟨s, hr, hs⟩ := Lib.Machine.exists_of_trace
    (m := machine (sixReplicas false) (retryBatch ofOne))
    (P := fun s => 12002 ∈ (s.cluster.from 0 1).flatten)
    (retryRun [receiveForword (nodeConfig nodeOfOne 0) (retryOf ofOne)]) (by decide)
  refine ⟨s, hs, retried_copied_iff nodeOfOne storeOfOne ofOne (managerOfOne ofOne) 12015 0 false
    .aborted (forwordOf ofOne) (by decide) (by decide) (sixReplicas false) (retryBatch ofOne) s
    (by decide) (retryBatch_nodup ofOne) (retryBatch_distinct ofOne) hr 12002 (by decide)
    fun r hmem hr0 => ?_⟩
  rcases List.mem_cons.mp hmem with rfl | hmem
  · exact (hr0 rfl).elim
  · rw [List.mem_singleton.mp hmem]
    exact hs

/-- The generated copy is sent again to replicas 0 and 1 with its mark, and
replica 1, which has ordered its batch, generates nothing. -/
theorem retried_not_copied :
    (managerOfOne copyOfOne).checkCommitOrAbort nodeOfOne storeOfOne copyOfOne 12015 0 =
        some (false, .aborted, some (forwordOf copyOfOne)) ∧
      (forwordOf copyOfOne).data.involvedReplicas = [0, 1] ∧
      ∃ s : System, (machine (sixReplicas false) (retryBatch copyOfOne)).Reachable s ∧
        12002 ∈ (s.cluster.from 0 1).flatten ∧ generatedTxns s 1 = [] := by
  refine ⟨by decide, rfl, ?_⟩
  exact Lib.Machine.exists_of_trace
    (m := machine (sixReplicas false) (retryBatch copyOfOne))
    (P := fun s => 12002 ∈ (s.cluster.from 0 1).flatten ∧ generatedTxns s 1 = [])
    (retryRun []) (by decide)

end Calvin.RetryDispatch
