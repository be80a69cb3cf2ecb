import Calvin.Scheduler.Ordering
import Calvin.Scheduler.OriginalReplica

/-!
# The original system (mode 0)

From the clients to the records: the writer and reader threads, the votes, Paxos and
the main loops of `Ordering`, and behind them the lock managers and workers of all
nodes.

A node locks what its main loop has parsed, one transaction after another. Its
`READ_RESULT` messages stay in its replica.
-/

namespace Calvin

open Function Lib

structure OriginalSystem where
  ordering : Ordering := {}
  replicas : Nat → Replica

namespace OriginalSystem

open Replica (nodeConfig setNode)

inductive Event
  | ordering (e : Ordering.Event)
  | replica (r : Nat) (e : Replica.Event)
deriving DecidableEq

/-- The node of a step of a replica. -/
def nodeOf : Replica.Event → Nat
  | .node m _ => m
  | .start m => m
  | .deliver m _ _ => m

section

variable (cfg : ClusterConfig) (compute : Compute) (parsed : Nat → List TxnProto)

/-- The transactions of a node, from those it has parsed. -/
def txnAt (m : Nat) (p : Ptr) : TxnProto := (parsed m)[p]?.getD { txnId := 0 }

/-- The steps of a node by itself; it locks what has been parsed. -/
def nodeStep (s : Replica) (m : Nat) (e : DeterministicScheduler.Event) : Option Replica :=
  let next := (DeterministicScheduler.step (nodeConfig cfg m) 0 (txnAt parsed m) compute
    (s.nodes m) e).map (setNode s m)
  match e with
  | .parse => if (s.nodes m).next < (parsed m).length then next else none
  | .start => none
  | .readResult _ _ => none
  | _ => next

def start (s : Replica) (m : Nat) : Option Replica :=
  (DeterministicScheduler.start (nodeConfig cfg m) 0 (txnAt parsed m) (s.nodes m)).map
    fun (node, sent) => { setNode s m node with network := s.network ++ sent }

def deliver (s : Replica) (m : Nat) (p : Ptr) (i : Nat) : Option Replica :=
  s.network[i]?.bind fun msg =>
    let txn := txnAt parsed m p
    if msg.destinationNode = cfg.lookupMachineId m cfg.localReplicaId ∧
        msg.destinationChannel = channelOf txn.txnId txn.originReplica then
      (DeterministicScheduler.readResult (txnAt parsed m) (s.nodes m) p msg.entries).map
        fun node => { setNode s m node with network := s.network.eraseIdx i }
    else none

def replicaNext (s : Replica) : Replica.Event → Option Replica
  | .node m e => nodeStep cfg compute parsed s m e
  | .start m => start cfg parsed s m
  | .deliver m p i => deliver cfg parsed s m p i

end

section

variable (cfg : ClusterConfig) (maxBatchSize : Nat) (compute : Compute)

/-- The configuration of a replica. -/
def replicaConfig (r : Nat) : ClusterConfig := { cfg with localReplicaId := r }

/-- What the main loop of a node has parsed. -/
def parsed (s : OriginalSystem) (r m : Nat) : List TxnProto :=
  (s.ordering.loops (cfg.lookupMachineId m r)).parsed

def next (s : OriginalSystem) : Event → Option OriginalSystem
  | .ordering e =>
      (Ordering.next cfg maxBatchSize s.ordering e).map fun ordering => { s with ordering }
  | .replica r e =>
      if r < cfg.replicasSize ∧ nodeOf e < cfg.nodesPerReplica then
        (replicaNext (replicaConfig cfg r) compute (parsed cfg s r) (s.replicas r) e).map
          fun replica => { s with replicas := update s.replicas r replica }
      else none

/-- The system over the records that each replica is loaded with. -/
def machine (init : Key → Record) : Machine OriginalSystem Event where
  init :=
    { replicas := fun _ =>
        { nodes := fun _ => DeterministicScheduler.initial (fun _ => { txnId := 0 }) init } }
  next := next cfg maxBatchSize compute

/-- No batch number is cut, the ids of the transactions fit `int32`, and the client
names no key twice in a transaction. -/
def Fits (s : OriginalSystem) : Event → Prop
  | .ordering (.epoch n txns) =>
      let batchNumber := 1 + n + cfg.allNodesSize * s.ordering.nextGuid n
      batchNumber < UInt64.size ∧ (batchNumber + 1) * maxBatchSize ≤ 2147483648 ∧
        ∀ txn ∈ txns, txn.keys.Nodup
  | _ => True

instance (s : OriginalSystem) (e : Event) : Decidable (Fits cfg maxBatchSize s e) :=
  match e with
  | .ordering (.epoch _ _) => inferInstanceAs (Decidable (_ ∧ _ ∧ _))
  | .ordering (.gotBatch _) | .ordering (.gotVote _) | .ordering .propose
  | .ordering (.gotAck _) | .ordering .commit | .ordering (.receive _)
  | .ordering (.deliver _ _) | .ordering (.round _ _) | .replica _ _ => isTrue trivial

/-- A replica has executed as many transactions as there are in an order, and has parsed
no others. -/
def HasDone (s : OriginalSystem) (r : Nat) (order : List TxnProto) : Prop :=
  ∀ m < cfg.nodesPerReplica,
    (parsed cfg s r m).length = (OriginalReplica.stream cfg order m).length ∧
      ∀ p < (parsed cfg s r m).length, Replica.Executed ((s.replicas r).nodes m) p

end

end OriginalSystem

end Calvin
