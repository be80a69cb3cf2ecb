import Calvin.Machine.Sequencer
import Calvin.Scheduler.Replica

/-!
# A replica of the original system (mode 0)

The nodes of one replica when there are no masters: each schedules the transactions
of the global order that read or write a record of its partition, once, and the
participants send each other `READ_RESULT` messages as they do with masters.
-/

namespace Calvin.OriginalReplica

open Function Lib
open Replica (Event nodeConfig setNode Executed)

section

variable (cfg : ClusterConfig) (order : List TxnProto) (compute : Compute)

/-- The transactions of the global order that a node schedules. -/
def stream (m : Nat) : List TxnProto := Sequencer.subbatch cfg order m

def txnAt (m : Nat) (p : Ptr) : TxnProto := (stream cfg order m)[p]?.getD { txnId := 0 }

/-- The steps of a node by itself; it parses what is in its batches. -/
def nodeStep (s : Replica) (m : Nat) (e : DeterministicScheduler.Event) : Option Replica :=
  let next := (DeterministicScheduler.step (nodeConfig cfg m) 0 (txnAt cfg order m) compute
    (s.nodes m) e).map (setNode s m)
  match e with
  | .parse => if (s.nodes m).next < (stream cfg order m).length then next else none
  | .start => none
  | .readResult _ _ => none
  | _ => next

def start (s : Replica) (m : Nat) : Option Replica :=
  (DeterministicScheduler.start (nodeConfig cfg m) 0 (txnAt cfg order m) (s.nodes m)).map
    fun (node, sent) => { setNode s m node with network := s.network ++ sent }

def deliver (s : Replica) (m : Nat) (p : Ptr) (i : Nat) : Option Replica :=
  s.network[i]?.bind fun msg =>
    let txn := txnAt cfg order m p
    if msg.destinationNode = cfg.lookupMachineId m cfg.localReplicaId ∧
        msg.destinationChannel = channelOf txn.txnId txn.originReplica then
      (DeterministicScheduler.readResult (txnAt cfg order m) (s.nodes m) p msg.entries).map
        fun node => { setNode s m node with network := s.network.eraseIdx i }
    else none

/-- The replica over the records it is loaded with. -/
def machine (init : Key → Record) : Machine Replica Event where
  init := { nodes := fun m => DeterministicScheduler.initial (txnAt cfg order m) init }
  next s
    | .node m e => nodeStep cfg order compute s m e
    | .start m => start cfg order s m
    | .deliver m p i => deliver cfg order s m p i

/-- Every node has executed every transaction of its batches. -/
def Complete (s : Replica) : Prop :=
  ∀ m, ∀ p < (stream cfg order m).length, Executed (s.nodes m) p

/-- A message is handed to the only transaction of the node with the name of its
channel, whatever the origin. -/
def OneName : Replica → Event → Prop
  | _, .deliver m p _ =>
      ∀ q < (stream cfg order m).length,
        (txnAt cfg order m q).txnId % UInt32.size = (txnAt cfg order m p).txnId % UInt32.size →
        q = p
  | _, _ => True

instance (s : Replica) (e : Event) : Decidable (OneName cfg order s e) :=
  match e with
  | .deliver m p _ => inferInstanceAs (Decidable (∀ q < (stream cfg order m).length,
      (txnAt cfg order m q).txnId % UInt32.size = (txnAt cfg order m p).txnId % UInt32.size →
      q = p))
  | .node _ _ => inferInstanceAs (Decidable True)
  | .start _ => inferInstanceAs (Decidable True)

end

end Calvin.OriginalReplica
