import Mathlib.Data.List.Dedup
import Mathlib.Data.List.Sort
import Calvin.Log.Paxos
import Calvin.Machine.ClusterConfig

/-!
# The reader thread of the original sequencer (mode 0)

What `Sequencer::RunReader` does with the transactions of a `TXN_BATCH`: every
partition with a key of the transaction is a reader of it. And what it does with a
`BATCH_VOTE`, on the head machine: it counts the votes of a batch until all
replicas have voted, and submits the batch to Paxos on the way.
-/

namespace Calvin.Sequencer

open Function

section

variable (cfg : ClusterConfig)

/-- The partitions of the entries, in ascending order. -/
def partitions (entries : List KeyEntry) : List Nat :=
  (entries.map fun entry => cfg.lookupPartition entry.key).dedup.insertionSort (· ≤ ·)

def readers (txn : TxnProto) : List Nat := partitions cfg (txn.readSet ++ txn.readWriteSet)

def writers (txn : TxnProto) : List Nat := partitions cfg txn.readWriteSet

/-- The transaction with its readers and writers, as it is forwarded. -/
def withReaders (txn : TxnProto) : TxnProto :=
  { txn with
    readers := txn.readers ++ readers cfg txn
    writers := txn.writers ++ writers cfg txn }

/-- What the batch of one partition gets from a `TXN_BATCH`. -/
def subbatch (batch : List TxnProto) (mds : Nat) : List TxnProto :=
  (batch.filter fun txn => mds ∈ readers cfg txn).map (withReaders cfg)

end

/-- What the reader thread of the head machine keeps: `batch_votes_` and the
Paxos leader. -/
structure Voting where
  batchVotes : Nat → Option Nat := fun _ => none
  paxosLog : Paxos.Leader := {}

/-- The number of votes with one more, from the entry of the batch. -/
def votesAfter : Option Nat → Nat
  | none => 1
  | some votes => votes + 1

/-- A `BATCH_VOTE`; the flag says that the batch is submitted. -/
def batchVote (replicasSize : Nat) (s : Voting) (batchId : Nat) : Voting × Bool :=
  let votes := votesAfter (s.batchVotes batchId)
  let batchVotes := update s.batchVotes batchId (some votes)
  -- Remove from map if all servers are accounted for.
  let batchVotes := if votes = replicasSize then update batchVotes batchId none else batchVotes
  if votes = replicasSize / 2 + 1 then
    ({ batchVotes, paxosLog := s.paxosLog.append batchId }, true)
  else ({ s with batchVotes }, false)

variable {cfg : ClusterConfig}

theorem mem_partitions {entries : List KeyEntry} {mds : Nat} :
    mds ∈ partitions cfg entries ↔ ∃ entry ∈ entries, cfg.lookupPartition entry.key = mds := by
  unfold partitions
  rw [List.mem_insertionSort, List.mem_dedup, List.mem_map]

theorem nodup_partitions (entries : List KeyEntry) : (partitions cfg entries).Nodup :=
  (List.perm_insertionSort _ _).nodup_iff.mpr (List.nodup_dedup _)

end Calvin.Sequencer
