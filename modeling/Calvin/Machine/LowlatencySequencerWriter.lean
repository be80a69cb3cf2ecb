import Mathlib.Logic.Function.Basic
import Calvin.Lib.Machine
import Calvin.Machine.LowlatencySequencer

/-!
# The writer thread of the low-latency sequencer

`LowlatencySequencer::RunWriter` of every node, with the messages between them.
A node takes transactions from its client, looks the masters of their keys up,
here or at the node of their partition, and batches a transaction or sends it
on once all its masters are known. Transactions from elsewhere are batched as
they come.

* `Writer`: the locals of `RunWriter`;
* `Sequencers`, `machine`: all nodes, in any interleaving.

What `GetMasterCounter` answers is part of the events, since the workers change
the records concurrently. The lookup requests of an epoch leave the node one
partition after another.
-/

namespace Calvin.SequencerWriter

open Function Lib

structure LookupMasterEntry where
  txnId : Nat
  keys : List Key
deriving DecidableEq, Repr

structure LookupMasterResultEntry where
  txnId : Nat
  keyEntries : List KeyEntry
deriving DecidableEq, Repr

/-- The locals of `RunWriter`. -/
structure Writer where
  batchMessage : List TxnProto := []
  txnIdOffset : Nat := 0
  /-- Transactions with masters to come, and for how many entries. -/
  expectedMasterLookups : Nat → Option (Nat × TxnProto) := fun _ => none
  involvedReplicas : Nat → List Nat := fun _ => []
  /-- The requests to be sent, with their partitions. -/
  lookupMasterBatch : List (Nat × LookupMasterEntry) := []

/-- All entries of a transaction. -/
def entries (txn : TxnProto) : List KeyEntry := txn.readSet ++ txn.readWriteSet

/-- The transaction with its involved replicas, in ascending order. -/
def addInvolved (txn : TxnProto) (involved : List Nat) : TxnProto :=
  { txn with involvedReplicas := txn.involvedReplicas ++ involved.insertionSort (· ≤ ·) }

section

variable (cfg : ClusterConfig)

/-- Where a transaction with all masters goes: the machine it is sent to, or
the batch of this node. -/
def route (random : Nat) (txn : TxnProto) : Option Nat :=
  match txn.involvedReplicas with
  | [replica] =>
      if replica = cfg.localReplicaId then none
      else some (replica * cfg.nodesPerReplica + random % cfg.nodesPerReplica)
  | involved =>
      if 1 < involved.length ∧ cfg.localReplicaId = 0 then none
      else some (random % cfg.nodesPerReplica)

/-- A forwarded transaction, as it is batched. -/
def receiveForword (txn : TxnProto) : TxnProto := { txn with originReplica := cfg.localReplicaId }

/-- Set the masters of the local entries; `answers` are those of
`GetMasterCounter`, by position. -/
def readMasters (answers : Nat → Nat × Nat) (entries : List KeyEntry) : List KeyEntry :=
  entries.mapIdx fun i entry =>
    if cfg.isLocal entry.key then
      { entry with master := (answers i).1, counter := (answers i).2 }
    else entry

/-- The keys elsewhere that are at a partition, in ascending order. -/
def remoteKeys (remote : List KeyEntry) (mds : Nat) : List Key :=
  ((remote.filter fun entry => cfg.lookupPartition entry.key = mds).map
    KeyEntry.key).dedup.insertionSort (· ≤ ·)

/-- The requests for keys elsewhere, one for each partition. -/
def lookupRequests (txnId : Nat) (remote : List KeyEntry) : List (Nat × LookupMasterEntry) :=
  let partitions := (remote.map fun entry => cfg.lookupPartition entry.key).dedup
  (partitions.insertionSort (· ≤ ·)).map fun mds =>
    (mds, { txnId, keys := remoteKeys cfg remote mds })

/-- A transaction of the client with the masters of its local entries. -/
def localMasters (answers : Nat → Nat × Nat) (txn : TxnProto) : TxnProto :=
  { txn with
    originReplica := cfg.localReplicaId
    clientReplica := cfg.localReplicaId
    readSet := readMasters cfg answers txn.readSet
    readWriteSet := readMasters cfg (fun i => answers (txn.readSet.length + i)) txn.readWriteSet }

/-- The next transaction of the client; the second result are the transactions
whose masters are all known. -/
def getTxn (w : Writer) (txn : TxnProto) (answers : Nat → Nat × Nat) : Writer × List TxnProto :=
  let txn := localMasters cfg answers txn
  let here := (entries txn).filter fun entry => cfg.isLocal entry.key
  let remote := (entries txn).filter fun entry => ¬ cfg.isLocal entry.key
  let involved := (w.involvedReplicas txn.txnId) ∪ (here.map KeyEntry.master).dedup
  let w := { w with txnIdOffset := w.txnIdOffset + 1 }
  if remote.length = 0 then
    ({ w with involvedReplicas := update w.involvedReplicas txn.txnId [] },
      [addInvolved txn involved])
  else
    ({ w with
        expectedMasterLookups := update w.expectedMasterLookups txn.txnId
          (some (remote.length, txn))
        involvedReplicas := update w.involvedReplicas txn.txnId involved
        lookupMasterBatch := w.lookupMasterBatch ++ lookupRequests cfg txn.txnId remote },
      [])

end

/-- `remote_entries_map`: the last entry with a key. -/
def remoteEntry (keyEntries : List KeyEntry) (key : Key) : Option KeyEntry :=
  keyEntries.reverse.find? fun entry => entry.key = key

/-- An entry with the master that has been looked up, if it has. -/
def setMaster (keyEntries : List KeyEntry) (entry : KeyEntry) : KeyEntry :=
  match remoteEntry keyEntries entry.key with
  | some found => { entry with master := found.master, counter := found.counter }
  | none => entry

/-- One entry of a `MASTER_LOOKUP_RESULT`; `none` is the failed `CHECK` on a
transaction that is not there. -/
def lookupResult (w : Writer) (result : LookupMasterResultEntry) :
    Option (Writer × List TxnProto) :=
  (w.expectedMasterLookups result.txnId).map fun (expected, txn) =>
    let found := (entries txn).filter fun entry => (remoteEntry result.keyEntries entry.key).isSome
    let txn :=
      { txn with
        readSet := txn.readSet.map (setMaster result.keyEntries)
        readWriteSet := txn.readWriteSet.map (setMaster result.keyEntries) }
    let involved := w.involvedReplicas result.txnId ∪
      (found.map fun entry => (setMaster result.keyEntries entry).master).dedup
    if expected - found.length = 0 then
      ({ w with
          expectedMasterLookups := update w.expectedMasterLookups result.txnId none
          involvedReplicas := update w.involvedReplicas result.txnId [] },
        [addInvolved txn involved])
    else
      ({ w with
          expectedMasterLookups := update w.expectedMasterLookups result.txnId
            (some (expected - found.length, txn))
          involvedReplicas := update w.involvedReplicas result.txnId involved },
        [])

/-- All entries of a `MASTER_LOOKUP_RESULT`. -/
def lookupResults (w : Writer) : List LookupMasterResultEntry → Option (Writer × List TxnProto)
  | [] => some (w, [])
  | result :: rest =>
      (lookupResult w result).bind fun (w, completed) =>
        (lookupResults w rest).map fun (w, more) => (w, completed ++ more)

/-! ## All nodes -/

/-- A `MASTER_LOOKUP` message. -/
structure MasterLookup where
  sourceNode : Nat
  destinationNode : Nat
  data : List LookupMasterEntry
deriving DecidableEq, Repr

/-- A `MASTER_LOOKUP_RESULT` message. -/
structure MasterLookupResult where
  destinationNode : Nat
  data : List LookupMasterResultEntry
deriving DecidableEq, Repr

structure Sequencers where
  writers : Nat → Writer := fun _ => {}
  /-- `TXN_FORWORD` messages in the network, with their destinations. -/
  forwords : List (Nat × TxnProto) := []
  lookups : List MasterLookup := []
  results : List MasterLookupResult := []
  /-- The `TXN_BATCH`es sent so far. -/
  batches : List (List TxnProto) := []

inductive Event
  /-- A node takes a transaction from its client. -/
  | getTxn (n : Nat) (txn : TxnProto) (answers : Nat → Nat × Nat) (random : Nat)
  /-- A node sends the requests of its epoch to a partition. -/
  | sendLookups (n mds : Nat)
  /-- The reader thread of a node answers a request from its storage. -/
  | answer (i : Nat) (getMasterCounter : Nat → Key → Nat × Nat)
  /-- A node takes the answer to its requests. -/
  | gotResult (i : Nat) (random : Nat → Nat)
  /-- A scheduler sends a transaction to a sequencer: a remaster transaction, or
  one that is aborted here and sent again. -/
  | schedulerForword (destination : Nat) (txn : TxnProto)
  | gotForword (i : Nat)
  /-- A node ends its epoch and sends the batch. -/
  | sendBatch (n : Nat)

section

variable (cfg : ClusterConfig) (maxBatchSize : Nat)

/-- The configuration of a node. -/
def nodeConfig (n : Nat) : ClusterConfig :=
  { cfg with
    relativeNodeId := n % cfg.nodesPerReplica
    localReplicaId := n / cfg.nodesPerReplica }

def setWriter (s : Sequencers) (n : Nat) (w : Writer) : Sequencers :=
  { s with writers := update s.writers n w }

/-- The batch of a node takes a transaction. -/
def addToBatch (s : Sequencers) (n : Nat) (txn : TxnProto) : Sequencers :=
  setWriter s n { s.writers n with batchMessage := (s.writers n).batchMessage ++ [txn] }

/-- A transaction is sent to a node. -/
def forword (s : Sequencers) (destination : Nat) (txn : TxnProto) : Sequencers :=
  { s with forwords := s.forwords ++ [(destination, txn)] }

/-- Batch the transactions with all masters at a node, or send them on. -/
def dispatch (s : Sequencers) (n : Nat) (random : Nat → Nat) : List TxnProto → Sequencers
  | [] => s
  | txn :: rest =>
      let s :=
        match route (nodeConfig cfg n) (random rest.length) txn with
        | none => addToBatch s n txn
        | some destination => forword s destination txn
      dispatch s n random rest

/-- The answers to a request, from the storage of the node. -/
def answerLookup (getMasterCounter : Nat → Key → Nat × Nat) (lookup : MasterLookup) :
    MasterLookupResult where
  destinationNode := lookup.sourceNode
  data := lookup.data.mapIdx fun j entry =>
    { txnId := entry.txnId
      keyEntries := entry.keys.map fun key =>
        { key, master := (getMasterCounter j key).1, counter := (getMasterCounter j key).2 } }

/-- The transactions of clients whose masters become known in a step. -/
def completed (s : Sequencers) : Event → List TxnProto
  | .getTxn n txn answers _ => (getTxn (nodeConfig cfg n) (s.writers n) txn answers).2
  | .gotResult i _ =>
      ((s.results[i]?.bind fun m => lookupResults (s.writers m.destinationNode) m.data).map
        Prod.snd).getD []
  | _ => []

def next (s : Sequencers) : Event → Option Sequencers
  | .getTxn n txn answers random =>
      if (s.writers n).txnIdOffset < maxBatchSize then
        let (w, completed) := getTxn (nodeConfig cfg n) (s.writers n) txn answers
        some (dispatch cfg (setWriter s n w) n (fun _ => random) completed)
      else none
  | .sendLookups n mds =>
      let w := s.writers n
      if maxBatchSize ≤ w.txnIdOffset ∧ (w.lookupMasterBatch.any fun p => p.1 = mds) then
        some { setWriter s n
            { w with lookupMasterBatch := w.lookupMasterBatch.filter fun p => p.1 ≠ mds } with
          lookups := s.lookups ++
            [{ sourceNode := n
               destinationNode := cfg.lookupMachineId mds (nodeConfig cfg n).localReplicaId
               data := (w.lookupMasterBatch.filter fun p => p.1 = mds).map Prod.snd }] }
      else none
  | .answer i getMasterCounter =>
      s.lookups[i]?.map fun lookup =>
        { s with
          lookups := s.lookups.eraseIdx i
          results := s.results ++ [answerLookup getMasterCounter lookup] }
  | .gotResult i random =>
      s.results[i]?.bind fun m =>
        (lookupResults (s.writers m.destinationNode) m.data).map fun (w, completed) =>
          dispatch cfg
            (setWriter { s with results := s.results.eraseIdx i } m.destinationNode w)
            m.destinationNode random completed
  | .schedulerForword destination txn =>
      -- what is executed was not skipped, and a remaster transaction is a new object
      if txn.fakeTxn = false then some (forword s destination txn) else none
  | .gotForword i =>
      s.forwords[i]?.map fun (n, txn) =>
        addToBatch { s with forwords := s.forwords.eraseIdx i } n
          (receiveForword (nodeConfig cfg n) txn)
  | .sendBatch n =>
      let w := s.writers n
      let s := setWriter s n { w with batchMessage := [], txnIdOffset := 0 }
      some (if w.batchMessage = [] then s else { s with batches := s.batches ++ [w.batchMessage] })

def machine : Machine Sequencers Event where
  init := {}
  next := next cfg maxBatchSize

end

end Calvin.SequencerWriter
