import Calvin.Machine.LowlatencySequencerWriter
import Calvin.Scheduler.DeterministicScheduler

/-!
# All replicas

The schedulers of all nodes in mode 2, with what goes round between them: a
transaction that is sent to a sequencer gets into the log of an origin, each
replica merges the logs in its own way, and the nodes of the replica schedule
the merge, where executing a transaction may send a remaster transaction.

Batching and Paxos are left out: a log takes a transaction in one step, and a
replica merges the logs transaction by transaction. That gives at least the
merges that the replicas can schedule.
-/

namespace Calvin

open Function Lib Microbenchmark SequencerWriter

structure Replicas where
  /-- The nodes, by machine id. -/
  nodes : Nat → Node
  access : Nat → Key → Access
  /-- `READ_RESULT` messages. -/
  network : List ReadResult := []
  /-- `TXN_FORWORD` messages of the schedulers to the sequencers. -/
  forwords : List TxnForword := []
  /-- The log of each origin. -/
  logs : Nat → List TxnProto := fun _ => []
  /-- What each replica has merged so far. -/
  merges : Nat → List TxnProto := fun _ => []
  /-- How much of the log of an origin is in the merge of a replica. -/
  merged : Nat → Nat → Nat := fun _ _ => 0
  /-- History: the remaster transactions that were sent to sequencers. -/
  created : List TxnProto := []

namespace Replicas

inductive Event
  /-- The log of an origin takes a transaction that a client has made. -/
  | client (o : Nat) (txn : TxnProto)
  /-- The log of an origin takes a transaction that a scheduler has sent. -/
  | gotForword (i : Nat)
  /-- A replica merges the next transaction of a log. -/
  | merge (r o : Nat)
  /-- A step of a node in which no message is sent or received. -/
  | node (n : Nat) (e : DeterministicScheduler.Event)
  /-- A worker of a node creates a manager and sends its read results. -/
  | start (n : Nat)
  /-- A message reaches a transaction of a node that waits on its channel. -/
  | deliver (n : Nat) (p : Ptr) (i : Nat)
  /-- A worker of a node executes or aborts a transaction; `guids` are for the
  remaster transactions it sends, `unset` is the memory its copies have got. -/
  | run (n : Nat) (p : Ptr) (guid random : Nat) (guids : Nat → Nat) (unset : Key → Unset)

section

variable (cfg : ClusterConfig) (compute : Compute)

/-- The replica of a node. -/
def replicaOf (n : Nat) : Nat := n / cfg.nodesPerReplica

/-- The transactions a node gets from the merge of its replica. -/
def stream (s : Replicas) (n : Nat) : List TxnProto :=
  LowlatencySequencer.subbatch (nodeConfig cfg n) (s.merges (replicaOf cfg n))
    (nodeConfig cfg n).relativeNodeId

def txnAt (s : Replicas) (n : Nat) (p : Ptr) : TxnProto := (stream cfg s n)[p]?.getD { txnId := 0 }

def setNode (s : Replicas) (n : Nat) (node : Node) : Replicas :=
  { s with nodes := update s.nodes n node }

/-- The log of an origin takes a transaction; its origin has been set. -/
def addToLog (s : Replicas) (o : Nat) (txn : TxnProto) : Replicas :=
  { s with logs := update s.logs o (s.logs o ++ [txn]) }

def gotForword (s : Replicas) (i : Nat) : Option Replicas :=
  s.forwords[i]?.map fun msg =>
    addToLog { s with forwords := s.forwords.eraseIdx i } (replicaOf cfg msg.destinationNode)
      (receiveForword (nodeConfig cfg msg.destinationNode) msg.data)

/-- The merge of a replica takes the next transaction of the log of an origin. -/
def addToMerge (s : Replicas) (r o : Nat) (txn : TxnProto) : Replicas :=
  { s with
    merges := update s.merges r (s.merges r ++ [txn])
    merged := update s.merged r (update (s.merged r) o (s.merged r o + 1)) }

def merge (s : Replicas) (r o : Nat) : Option Replicas :=
  (s.logs o)[s.merged r o]?.map (addToMerge s r o)

/-- A new object for the next transaction of a node, with its own status. -/
def load (txns : Ptr → TxnProto) (node : Node) : Node :=
  { node with
    status := update node.status node.next (txns node.next).status
    waits :=
      { node.waits with
        waitForRemasterPros :=
          update node.waits.waitForRemasterPros node.next (txns node.next).waitForRemasterPros } }

def nodeStep (s : Replicas) (n : Nat) (e : DeterministicScheduler.Event) : Option Replicas :=
  let next := fun node =>
    (DeterministicScheduler.step (nodeConfig cfg n) 2 (txnAt cfg s n) compute node e).map
      (setNode s n)
  match e with
  | .parse =>
      if (s.nodes n).next < (stream cfg s n).length then next (load (txnAt cfg s n) (s.nodes n))
      else none
  | .start => none
  | .readResult _ _ => none
  | .run _ _ _ => none
  | _ => next (s.nodes n)

def start (s : Replicas) (n : Nat) : Option Replicas :=
  (DeterministicScheduler.start (nodeConfig cfg n) 2 (txnAt cfg s n) (s.nodes n)).map
    fun (node, sent) => { setNode s n node with network := s.network ++ sent }

def deliver (s : Replicas) (n : Nat) (p : Ptr) (i : Nat) : Option Replicas :=
  s.network[i]?.bind fun msg =>
    let txn := txnAt cfg s n p
    if msg.destinationNode = n ∧ msg.destinationChannel = channelOf txn.txnId txn.originReplica then
      (DeterministicScheduler.readResult (txnAt cfg s n) (s.nodes n) p msg.entries).map
        fun node => { setNode s n node with network := s.network.eraseIdx i }
    else none

/-- A node sends remaster transactions to its own sequencer, and what is aborted
to that of another node. -/
def send (s : Replicas) (n : Nat) (access : Key → Access) (remasters : List TxnProto)
    (forword : List TxnForword) : Replicas :=
  { s with
    access := update s.access n access
    forwords := s.forwords ++ remasters.map (fun txn => ⟨n, txn⟩) ++ forword
    created := s.created ++ remasters ++
      (forword.map TxnForword.data).filter fun txn => txn.remasterTxn }

/-- `Execute` or abort; only what is executed touches the statistics. -/
def run (s : Replicas) (n : Nat) (p : Ptr) (guid random : Nat) (guids : Nat → Nat)
    (unset : Key → Unset) : Option Replicas :=
  let txns := txnAt cfg s n
  let old := s.nodes n
  (old.managers p).bind fun sm =>
    (DeterministicScheduler.run (nodeConfig cfg n) 2 txns compute old p guid random).map
      fun (node, forword) =>
        let touched :=
          if node.status p = .committed then
            executeAccess (replicaOf cfg n) 2 guids unset (DeterministicScheduler.txnOf txns old p)
              sm old.store (s.access n)
          else (s.access n, [])
        send (setNode s n node) n touched.1 touched.2 forword.toList

/-- The records the replicas are loaded with; the values may differ. -/
def initializeStorage (value : Nat → Key → Value) (n : Nat) : Key → Record := fun k =>
  { value := value n k, master := cfg.lookupMaster k, counter := 0 }

/-- The replicas before the first transaction; `unset` is the memory of the records. -/
def machine (value : Nat → Key → Value) (unset : Nat → Key → Unset) : Machine Replicas Event where
  init :=
    { nodes := fun n =>
        DeterministicScheduler.initial (fun _ => { txnId := 0 }) (initializeStorage cfg value n)
      access := fun n k => { toUnset := unset n k } }
  next s
    | .client o txn => if txn.remasterTxn then none else some (addToLog s o txn)
    | .gotForword i => gotForword cfg s i
    | .merge r o => merge s r o
    | .node n e => nodeStep cfg compute s n e
    | .start n => start cfg s n
    | .deliver n p i => deliver cfg s n p i
    | .run n p guid random guids unset => run cfg compute s n p guid random guids unset

/-- The indices of `access_pattern` are valid: the client of a transaction that is
executed is at one of the first replicas. -/
def InRange (s : Replicas) : Event → Prop
  | .run n p _ _ _ _ => (txnAt cfg s n p).clientReplica < Access.replicaSize
  | _ => True

/-- The record of a key at a replica. -/
def records (s : Replicas) (r : Nat) (k : Key) : Record :=
  (s.nodes (cfg.lookupMachineId (cfg.lookupPartition k) r)).store k

end

end Replicas

end Calvin
