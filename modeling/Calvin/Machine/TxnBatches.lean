import Calvin.Machine.LowlatencySequencerWriter
import Calvin.Machine.NumberKeys
import Calvin.Machine.TxnIds

/-!
# The writer thread of the original sequencer (mode 0)

`Sequencer::RunWriter`: in each epoch a machine draws a batch number, collects
transactions of its client, and sends the batch to one machine of every replica,
which a hash of the number picks.
-/

namespace Calvin

/-- `FNVHash`; the hash is a `uint32`. The bytes are below 128, where `char` has
no sign. -/
def fnvHash (key : Key) : Nat :=
  key.foldl (fun hash c => (hash * 1099511628211 % UInt32.size) ^^^ c.toNat) 2166136261

/-- `HashBatchID`. -/
def ClusterConfig.hashBatchId (cfg : ClusterConfig) (batchId : Nat) : Nat :=
  fnvHash (decimal (33 * batchId % UInt64.size)) % cfg.nodesPerReplica

/-- `all_nodes_size()`. -/
def ClusterConfig.allNodesSize (cfg : ClusterConfig) : Nat := cfg.nodesPerReplica * cfg.replicasSize

/-- A `TXN_BATCH` message, channel `sequencer_`. -/
structure TxnBatch where
  destinationNode : Nat
  batchNumber : Nat
  data : List TxnProto
deriving DecidableEq, Repr

namespace Sequencer

/-- A transaction of the client as it is added to the batch. -/
def collectTxn (localReplica maxBatchSize batchNumber txnIdOffset : Nat) (txn : ClientTxn) :
    TxnProto where
  txnId := TxnIds.clientTxnId maxBatchSize batchNumber txnIdOffset
  txnType := txn.txnType
  readSet := txn.readSet
  readWriteSet := txn.readWriteSet
  originReplica := localReplica
  involvedReplicas := [localReplica]

/-- The transaction requests of an epoch. -/
def collect (localReplica maxBatchSize batchNumber : Nat) (txns : List ClientTxn) :
    List TxnProto :=
  txns.mapIdx (collectTxn localReplica maxBatchSize batchNumber)

/-- This epoch's transactions for the central machine of each replica. -/
def txnBatches (cfg : ClusterConfig) (batchNumber : Nat) (data : List TxnProto) : List TxnBatch :=
  (List.range cfg.replicasSize).map fun i =>
    { destinationNode := cfg.lookupMachineId (cfg.hashBatchId batchNumber) i, batchNumber, data }

variable {cfg : ClusterConfig}

/-- The machine a batch is sent to belongs to the replica. -/
theorem destination_replica (hn : 0 < cfg.nodesPerReplica) (batchId i : Nat) :
    cfg.lookupMachineId (cfg.hashBatchId batchId) i / cfg.nodesPerReplica = i := by
  have hlt : cfg.hashBatchId batchId < cfg.nodesPerReplica := Nat.mod_lt _ hn
  rw [ClusterConfig.lookupMachineId, Nat.mul_comm, Nat.mul_add_div hn, Nat.div_eq_of_lt hlt,
    Nat.add_zero]

end Sequencer

end Calvin
