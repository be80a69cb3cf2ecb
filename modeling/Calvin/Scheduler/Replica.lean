import Calvin.Machine.LowlatencySequencer
import Calvin.Scheduler.DeterministicScheduler

/-!
# A replica

The nodes of one replica, one for each partition. Each schedules the
transactions of the merged logs that involve its partition, and they send each
other `READ_RESULT` messages. Messages may be delivered in any order; one whose
channel is not in use yet stays in the network.
-/

namespace Calvin

open Function Lib

structure Replica where
  nodes : Nat → Node
  network : List ReadResult := []

namespace Replica

inductive Event
  /-- A step of a node in which no message is sent or received. -/
  | node (m : Nat) (e : DeterministicScheduler.Event)
  /-- A worker of a node creates a manager and sends its read results. -/
  | start (m : Nat)
  /-- A message reaches a transaction of a node that waits on its channel. -/
  | deliver (m : Nat) (p : Ptr) (i : Nat)
deriving DecidableEq, Repr

section

variable (cfg : ClusterConfig) (mode : Nat) (merge : List TxnProto) (compute : Compute)

/-- The configuration of the node of a partition. -/
def nodeConfig (m : Nat) : ClusterConfig := { cfg with relativeNodeId := m }

/-- The transactions of the merged logs that a node schedules. -/
def stream (m : Nat) : List TxnProto := LowlatencySequencer.subbatch cfg merge m

def txnAt (m : Nat) (p : Ptr) : TxnProto := (stream cfg merge m)[p]?.getD { txnId := 0 }

def setNode (s : Replica) (m : Nat) (node : Node) : Replica :=
  { s with nodes := update s.nodes m node }

/-- The steps of a node by itself; it parses what is in its batches. -/
def nodeStep (s : Replica) (m : Nat) (e : DeterministicScheduler.Event) : Option Replica :=
  let next := (DeterministicScheduler.step (nodeConfig cfg m) mode (txnAt cfg merge m) compute
    (s.nodes m) e).map (setNode s m)
  match e with
  | .parse => if (s.nodes m).next < (stream cfg merge m).length then next else none
  | .start => none
  | .readResult _ _ => none
  | _ => next

def start (s : Replica) (m : Nat) : Option Replica :=
  (DeterministicScheduler.start (nodeConfig cfg m) mode (txnAt cfg merge m) (s.nodes m)).map
    fun (node, sent) => { setNode s m node with network := s.network ++ sent }

def deliver (s : Replica) (m : Nat) (p : Ptr) (i : Nat) : Option Replica :=
  s.network[i]?.bind fun msg =>
    let txn := txnAt cfg merge m p
    if msg.destinationNode = cfg.lookupMachineId m cfg.localReplicaId ∧
        msg.destinationChannel = channelOf txn.txnId txn.originReplica then
      (DeterministicScheduler.readResult (txnAt cfg merge m) (s.nodes m) p msg.entries).map
        fun node => { setNode s m node with network := s.network.eraseIdx i }
    else none

/-- The replica over the records it is loaded with. -/
def machine (init : Key → Record) : Machine Replica Event where
  init := { nodes := fun m => DeterministicScheduler.initial (txnAt cfg merge m) init }
  next s
    | .node m e => nodeStep cfg mode merge compute s m e
    | .start m => start cfg mode merge s m
    | .deliver m p i => deliver cfg merge s m p i

/-- The record of a key, at the node of its partition. -/
def records (s : Replica) (k : Key) : Record := (s.nodes (cfg.lookupPartition k)).store k

/-- A node has executed a transaction. -/
def Executed (node : Node) (p : Ptr) : Prop := p ∈ node.doneQueue ∨ p ∈ node.deleted

/-- Every node has executed every transaction of its batches. -/
def Complete (s : Replica) : Prop :=
  ∀ m, ∀ p < (stream cfg merge m).length, Executed (s.nodes m) p

end

/-- Executing a transaction alone: it sees the records of its keys and changes
the values it writes. -/
def runAlone (compute : Compute) (store : Key → Record) (txn : ClientTxn) : Key → Record :=
  fun k =>
    if k ∈ txn.writeKeys then
      { store k with
        value := compute txn (fun k' => if k' ∈ txn.keys then some (store k') else none) k }
    else store k

end Replica

end Calvin
