import Mathlib.Data.List.AList
import Mathlib.Data.List.Sort
import Calvin.Machine.ClusterConfig

/-!
# The storage manager of a transaction

`backend/storage_manager.{h,cc}`: the objects of one transaction at one
participant. The constructor reads the records of the node and sends them to
the writers; `HandleReadResult` adds what other participants have read;
`ReadyToExecute` says when nothing is missing, and `CheckCommitOrAbort` whether
the masters and counters the transaction was sent with still hold.
-/

namespace Calvin

/-- The channel `<txn_id>-<origin>` of a participant. `IntToString` takes an
`int`, so only the low 32 bits of the id are in the name; the origin has no more. -/
abbrev Channel := Nat × Nat

def channelOf (txnId origin : Nat) : Channel := (txnId % UInt32.size, origin)

/-- What `objects_` points to: a record of the storage, or a copy of a remote
one. -/
inductive Object
  | stored
  | copied (val : Record)
deriving DecidableEq, Repr

/-- A `READ_RESULT` message. -/
structure ReadResult where
  destinationChannel : Channel
  destinationNode : Nat
  entries : List (Key × Record)
deriving DecidableEq, Repr

/-- A `TXN_FORWORD` message to `sequencer_txn_receive_`. -/
structure TxnForword where
  destinationNode : Nat
  data : TxnProto
deriving DecidableEq, Repr

structure StorageManager where
  objects : AList (fun _ : Key => Object) := ∅
  localEntries : List (Key × Record) := []
  localCommit : Bool := true
  involvedMachines : List (Nat × Nat) := []
  remoteReplicaWriters : List (Nat × Nat) := []
  /-- `min_involved_machine_` and its origin; only readers in mode 2 set them. -/
  minInvolvedMachine : Option (Nat × Nat) := none
  writer : Bool := false

namespace StorageManager

/-- Whether an entry still names the master and the counter of its object. -/
def upToDate (val : Record) (entry : KeyEntry) : Bool :=
  entry.master = val.master ∧ entry.counter = val.counter

section

variable (cfg : ClusterConfig) (mode : Nat) (store : Key → Record) (txn : TxnProto)

/-- Read a local record. -/
def readLocal (sm : StorageManager) (entry : KeyEntry) : StorageManager :=
  let val := store entry.key
  { sm with
    objects := sm.objects.insert entry.key .stored
    localEntries := sm.localEntries ++ [(entry.key, val)]
    localCommit := sm.localCommit && upToDate val entry }

def addInvolvedMachine (sm : StorageManager) (entry : KeyEntry) : StorageManager :=
  if mode = 2 then
    { sm with
      involvedMachines :=
        sm.involvedMachines.insert (cfg.lookupPartition entry.key, entry.master) }
  else sm

/-- One round of the loop over `read_set`. -/
def readEntry (sm : StorageManager) (entry : KeyEntry) : StorageManager :=
  let sm := addInvolvedMachine cfg mode sm entry
  if mode ≠ 0 ∧ entry.master ≠ txn.originReplica then sm
  else if cfg.lookupPartition entry.key = cfg.relativeNodeId then readLocal store sm entry
  else sm

/-- One round of the loop over `read_write_set`: the writers elsewhere are
recorded. -/
def readWriteEntry (sm : StorageManager) (entry : KeyEntry) : StorageManager :=
  let mds := cfg.lookupPartition entry.key
  let sm := addInvolvedMachine cfg mode sm entry
  if mode ≠ 0 ∧ entry.master ≠ txn.originReplica then
    { sm with remoteReplicaWriters := sm.remoteReplicaWriters.insert (mds, entry.master) }
  else if mode ≠ 0 ∧ mds ≠ cfg.relativeNodeId then
    { sm with remoteReplicaWriters := sm.remoteReplicaWriters.insert (mds, txn.originReplica) }
  else if mds = cfg.relativeNodeId then readLocal store sm entry
  else sm

/-- The smallest machine, and the smallest origin on it. -/
def minMachine (machines : List (Nat × Nat)) : Nat × Nat :=
  machines.foldl
    (fun least machine =>
      if machine.1 < least.1 ∨ (machine.1 = least.1 ∧ machine.2 < least.2) then machine
      else least)
    (2147483647, 2147483647)

/-- The local reads, to another participant in this replica. -/
def resultFor (entries : List (Key × Record)) (writer : Nat × Nat) : ReadResult where
  destinationChannel := channelOf txn.txnId writer.2
  destinationNode := cfg.lookupMachineId writer.1 cfg.localReplicaId
  entries := entries

/-- The writers the local reads go to, with the origins of their copies. -/
def destinations (sm : StorageManager) : List (Nat × Nat) :=
  if mode = 0 then
    let writers := (txn.readWriteSet.map fun entry => cfg.lookupPartition entry.key).dedup
    (writers.filter (· ≠ cfg.relativeNodeId)).map fun mds => (mds, txn.originReplica)
  else sm.remoteReplicaWriters

/-- The constructor, with the messages it sends. -/
def create : StorageManager × List ReadResult :=
  let writer := decide (cfg.relativeNodeId ∈ txn.writers)
  if cfg.relativeNodeId ∈ txn.readers then
    let sm := txn.readSet.foldl (readEntry cfg mode store txn) {}
    let sm := txn.readWriteSet.foldl (readWriteEntry cfg mode store txn) sm
    let least := if mode = 2 then some (minMachine sm.involvedMachines) else none
    ({ sm with minInvolvedMachine := least, writer },
      (destinations cfg mode txn sm).map (resultFor cfg txn sm.localEntries))
  else ({ writer }, [])

/-- `HandleReadResult`. -/
def handleReadResult (sm : StorageManager) (entries : List (Key × Record)) : StorageManager :=
  { sm with
    objects := entries.foldl (fun objects e => objects.insert e.1 (.copied e.2)) sm.objects }

/-- `ReadyToExecute`. -/
def readyToExecute (sm : StorageManager) : Bool :=
  sm.objects.entries.length = txn.readSet.length + txn.readWriteSet.length

/-- `ReadObject`; `none` is the null pointer of a missing object. -/
def readObject (sm : StorageManager) (key : Key) : Option Record :=
  (sm.objects.lookup key).map fun
    | .stored => store key
    | .copied val => val

/-- The checks of all entries, up to the first that fails; `none` is the use of
a null pointer. -/
def checkEntries (sm : StorageManager) : List KeyEntry → Option Bool
  | [] => some true
  | entry :: rest =>
      (sm.readObject store entry.key).bind fun val =>
        if upToDate val entry then checkEntries sm rest else some false

/-- The entries with the masters and counters of their objects. -/
def refreshEntries (sm : StorageManager) (entries : List KeyEntry) : Option (List KeyEntry) :=
  entries.mapM fun entry =>
    (sm.readObject store entry.key).map fun val =>
      { entry with master := val.master, counter := val.counter }

/-- The transaction that is sent again after an abort; `guid` and `random` are
the answers of `GetGUID` and `rand`. The data are serialized before
`client_replica` is set. -/
def retry (sm : StorageManager) (guid random : Nat) : Option TxnForword :=
  (refreshEntries store sm txn.readSet).bind fun readSet =>
    (refreshEntries store sm txn.readWriteSet).map fun readWriteSet =>
      let involvedReplicas :=
        ((readSet ++ readWriteSet).map KeyEntry.master).dedup.insertionSort (· ≤ ·)
      { destinationNode :=
          match involvedReplicas with
          | [replica] => replica * cfg.nodesPerReplica + random % cfg.nodesPerReplica
          | _ => random % cfg.nodesPerReplica
        data :=
          { txn with txnId := guid, status := .new, readSet, readWriteSet, involvedReplicas } }

/-- The decision of `CheckCommitOrAbort` and the status it sets. -/
def decision (sm : StorageManager) : Option (Bool × Status) :=
  if txn.status = .abortedWithoutLock then some (false, txn.status)
  else if sm.localCommit = false then some (false, .aborted)
  else if sm.involvedMachines.length = 1 then some (true, txn.status)
  else
    (checkEntries store sm (txn.readSet ++ txn.readWriteSet)).map fun
      | true => (true, txn.status)
      | false => (false, .aborted)

/-- This participant sends the transaction again if it aborts. -/
def retries (sm : StorageManager) : Bool :=
  cfg.localReplicaId = txn.originReplica ∧
    sm.minInvolvedMachine = some (cfg.relativeNodeId, txn.originReplica)

/-- `CheckCommitOrAbort`: the decision, the status of the transaction, and the
transaction that is sent again. -/
def checkCommitOrAbort (sm : StorageManager) (guid random : Nat) :
    Option (Bool × Status × Option TxnForword) :=
  (decision store txn sm).bind fun (commit, status) =>
    if commit = false ∧ retries cfg txn sm then
      (retry cfg store { txn with status } sm guid random).map fun forword =>
        (commit, status, some forword)
    else some (commit, status, none)

end

end StorageManager

end Calvin
