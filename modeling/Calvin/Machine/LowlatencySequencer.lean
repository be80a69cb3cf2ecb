import Mathlib.Data.List.Dedup
import Mathlib.Data.List.Sort
import Calvin.Machine.ClusterConfig

/-!
# The reader thread of the low-latency sequencer

What `LowlatencySequencer::RunReader` does with the transactions of a
`TXN_BATCH`: it computes the readers and the writers of each and forwards it to
the readers in its replica. The multi-replica transactions of a batch of replica
0 go to the local Paxos leader of every other replica they involve.
-/

namespace Calvin.LowlatencySequencer

section

variable (cfg : ClusterConfig)

/-- The partitions of the entries that the origin of a copy is the master of,
in ascending order. -/
def partitions (txn : TxnProto) (entries : List KeyEntry) : List Nat :=
  ((entries.filter fun entry => entry.master = txn.originReplica).map fun entry =>
    cfg.lookupPartition entry.key).dedup.insertionSort (· ≤ ·)

def readers (txn : TxnProto) : List Nat := partitions cfg txn (txn.readSet ++ txn.readWriteSet)

def writers (txn : TxnProto) : List Nat := partitions cfg txn txn.readWriteSet

/-- The transaction with its readers and writers, as it is forwarded. -/
def withReaders (txn : TxnProto) : TxnProto :=
  { txn with
    readers := txn.readers ++ readers cfg txn
    writers := txn.writers ++ writers cfg txn }

/-- What a batch holds for one partition; fake transactions are skipped. -/
def subbatch (batch : List TxnProto) (mds : Nat) : List TxnProto :=
  (batch.filter fun txn => txn.fakeTxn = false ∧ mds ∈ readers cfg txn).map (withReaders cfg)

end

/-- The "relevant multi-replica actions" of a batch, once for each time the
replica is listed. -/
def mrTxns (localReplica : Nat) (batch : List TxnProto) : List TxnProto :=
  batch.flatMap fun txn =>
    if 1 < txn.involvedReplicas.length ∧ txn.newGenerated = false then
      (txn.involvedReplicas.filter (· = localReplica)).map fun _ => txn
    else []

/-- The contents of the `MR_TXNS_BATCH` for a batch, if one is sent. -/
def mrTxnsBatch (sourceReplica localReplica : Nat) (batch : List TxnProto) :
    Option (List TxnProto) :=
  if sourceReplica = 0 ∧ localReplica ≠ 0 then some (mrTxns localReplica batch) else none

variable {cfg : ClusterConfig} {txn : TxnProto}

theorem mem_partitions {entries : List KeyEntry} {mds : Nat} :
    mds ∈ partitions cfg txn entries ↔
      ∃ entry ∈ entries, entry.master = txn.originReplica ∧
        cfg.lookupPartition entry.key = mds := by
  unfold partitions
  rw [List.mem_insertionSort, List.mem_dedup, List.mem_map]
  constructor
  · rintro ⟨entry, he, rfl⟩
    obtain ⟨he, hm⟩ := List.mem_filter.mp he
    exact ⟨entry, he, of_decide_eq_true hm, rfl⟩
  · rintro ⟨entry, he, hm, rfl⟩
    exact ⟨entry, List.mem_filter.mpr ⟨he, decide_eq_true hm⟩, rfl⟩

theorem nodup_partitions (entries : List KeyEntry) : (partitions cfg txn entries).Nodup :=
  (List.perm_insertionSort _ _).nodup_iff.mpr (List.nodup_dedup _)

/-- A multi-replica transaction that has the replica among its involved ones
and is no copy itself. -/
def Relevant (replica : Nat) (txn : TxnProto) : Prop :=
  1 < txn.involvedReplicas.length ∧ replica ∈ txn.involvedReplicas ∧ txn.newGenerated = false

instance (replica : Nat) (txn : TxnProto) : Decidable (Relevant replica txn) :=
  inferInstanceAs (Decidable (_ ∧ _ ∧ _))

/-- With the involved replicas listed once, each relevant transaction is
forwarded once. -/
theorem mrTxns_eq_filter {localReplica : Nat} {batch : List TxnProto}
    (h : ∀ txn ∈ batch, txn.involvedReplicas.Nodup) :
    mrTxns localReplica batch = batch.filter (Relevant localReplica) := by
  induction batch with
  | nil => rfl
  | cons txn rest ih =>
      have hrest := ih fun t ht => h t (List.mem_cons_of_mem _ ht)
      have hnodup := h txn List.mem_cons_self
      rw [mrTxns, List.flatMap_cons, ← mrTxns, hrest, List.filter_cons]
      by_cases hm : 1 < txn.involvedReplicas.length ∧ txn.newGenerated = false
      · rw [if_pos hm, List.filter_eq, List.map_replicate]
        by_cases hr : localReplica ∈ txn.involvedReplicas
        · have hrel : Relevant localReplica txn := ⟨hm.1, hr, hm.2⟩
          rw [hnodup.count, if_pos hr, if_pos (decide_eq_true hrel)]
          rfl
        · have hrel : ¬ Relevant localReplica txn := fun hrel => hr hrel.2.1
          rw [hnodup.count, if_neg hr, if_neg (by simpa using hrel)]
          rfl
      · have hr : ¬ Relevant localReplica txn := fun hr => hm ⟨hr.1, hr.2.2⟩
        rw [if_neg hm, if_neg (by simpa using hr), List.nil_append]

end Calvin.LowlatencySequencer
