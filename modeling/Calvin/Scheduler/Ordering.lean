import Calvin.Log.PaxosFollower
import Calvin.Machine.TxnBatches
import Calvin.Scheduler.BatchStream
import Calvin.Theorems.BatchVotes

/-!
# Ordering the batches of all machines (mode 0)

From the clients to the schedulers: the writer threads send batches to all
replicas, the reader threads pass them on to the schedulers of their replica and
vote, the head machine submits what a majority has voted for to Paxos, and the
participants send the order they agree on to the schedulers of their replicas.

Messages between machines arrive in any order, but for those of Paxos, whose links
are FIFO. The reader thread of the head machine and the leader's thread share the
leader; each of their steps is one here.
-/

namespace Calvin

open Function Lib
open BatchVotes (Vote)
open SequencerWriter (nodeConfig)

structure Ordering where
  /-- The counters of `GetGUID`, by machine id. -/
  nextGuid : Nat → Nat := fun _ => 1000
  /-- `TXN_BATCH` messages. -/
  txnBatches : List TxnBatch := []
  /-- `BATCH_VOTE` messages, with the replicas they come from. -/
  voteMessages : List Vote := []
  /-- `batch_votes_` of the head machine. -/
  batchVotes : Nat → Option Nat := fun _ => none
  paxos : Paxos.Group := {}
  /-- The main loops of the schedulers, by machine id, with the messages for them. -/
  loops : Nat → BatchStream.Loop := fun _ => { stream := { inFlight := [] } }
  /-- History: the batches of the writer threads, with their numbers. -/
  batches : List (Nat × List TxnProto) := []
  /-- History: the votes the head machine has handled. -/
  handled : List Vote := []
  /-- History: the calls of `Append`. -/
  appended : List Nat := []
  /-- History: what has been sent to a scheduler. -/
  sent : Nat → List SchedulerMessage := fun _ => []

namespace Ordering

inductive Event
  /-- A writer thread ends its epoch with transactions of its client. -/
  | epoch (n : Nat) (txns : List ClientTxn)
  /-- A reader thread reads a `TXN_BATCH`. -/
  | gotBatch (i : Nat)
  /-- The reader thread of the head machine reads a `BATCH_VOTE`. -/
  | gotVote (i : Nat)
  | propose
  /-- The leader reads the oldest ack of a participant. -/
  | gotAck (i : Nat)
  | commit
  /-- A participant reads its oldest message. -/
  | receive (i : Nat)
  /-- A message arrives at a scheduler. -/
  | deliver (n index : Nat)
  /-- A round of the main loop of a scheduler. -/
  | round (n : Nat) (room : Bool)
deriving DecidableEq

section

variable (cfg : ClusterConfig) (maxBatchSize : Nat)

def setLoop (s : Ordering) (n : Nat) (loop : BatchStream.Loop) : Ordering :=
  { s with loops := update s.loops n loop }

/-- Messages for the schedulers of a replica, by relative node id. -/
def sendSchedulers (s : Ordering) (r : Nat) (messages : Nat → List SchedulerMessage) : Ordering :=
  { s with
    loops := fun n =>
      if n / cfg.nodesPerReplica = r then
        let loop := s.loops n
        { loop with
          stream := { loop.stream with
            inFlight := loop.stream.inFlight ++ messages (n % cfg.nodesPerReplica) } }
      else s.loops n
    sent := fun n =>
      if n / cfg.nodesPerReplica = r then s.sent n ++ messages (n % cfg.nodesPerReplica)
      else s.sent n }

/-- `RunWriter`, from the batch number to the messages. -/
def epoch (s : Ordering) (n : Nat) (txns : List ClientTxn) : Option Ordering :=
  if n < cfg.allNodesSize ∧ txns.length ≤ maxBatchSize then
    let batchNumber := TxnIds.getGUID cfg.allNodesSize n (s.nextGuid n)
    let data :=
      Sequencer.collect (nodeConfig cfg n).localReplicaId maxBatchSize batchNumber txns
    some { s with
      nextGuid := update s.nextGuid n (s.nextGuid n + 1)
      txnBatches := s.txnBatches ++ Sequencer.txnBatches cfg batchNumber data
      batches := s.batches ++ [(batchNumber, data)] }
  else none

/-- `RunReader` on a `TXN_BATCH`: the sub-batches for the schedulers of the
replica, and the vote. -/
def gotBatch (s : Ordering) (i : Nat) : Option Ordering :=
  s.txnBatches[i]?.map fun message =>
    let r := (nodeConfig cfg message.destinationNode).localReplicaId
    sendSchedulers cfg
      { s with
        txnBatches := s.txnBatches.eraseIdx i
        voteMessages := s.voteMessages ++ [⟨r, message.batchNumber⟩] }
      r fun mds =>
        [.txnSubbatch
          { batchNumber := message.batchNumber
            data := Sequencer.subbatch cfg message.data mds }]

/-- `RunReader` on a `BATCH_VOTE`. -/
def gotVote (s : Ordering) (i : Nat) : Option Ordering :=
  s.voteMessages[i]?.map fun vote =>
    let (voting, submitted) := Sequencer.batchVote cfg.replicasSize
      { batchVotes := s.batchVotes, paxosLog := s.paxos.leader } vote.batchId
    { s with
      voteMessages := s.voteMessages.eraseIdx i
      batchVotes := voting.batchVotes
      paxos := { s.paxos with leader := voting.paxosLog }
      handled := vote :: s.handled
      appended := if submitted then s.appended ++ [vote.batchId] else s.appended }

/-- A step of the participant of a replica; the orders it sends go to the
schedulers of the replica. -/
def paxosStep (s : Ordering) (r : Nat) (e : Paxos.Group.Event) : Option Ordering :=
  (Paxos.Group.next cfg.replicasSize s.paxos e).map fun paxos =>
    sendSchedulers cfg { s with paxos } r fun _ =>
      (paxos.orders.drop s.paxos.orders.length).map fun (version, data) =>
        .paxosBatchOrder version data

def next (s : Ordering) : Event → Option Ordering
  | .epoch n txns => epoch cfg maxBatchSize s n txns
  | .gotBatch i => gotBatch cfg s i
  | .gotVote i => gotVote cfg s i
  | .propose => paxosStep cfg s 0 .propose
  | .gotAck i => paxosStep cfg s 0 (.gotAck i)
  | .commit => paxosStep cfg s 0 .commit
  | .receive i => paxosStep cfg s i (.receive i)
  | .deliver n index =>
      ((s.loops n).stream.deliver index).map fun stream =>
        setLoop s n { s.loops n with stream }
  | .round n room => ((s.loops n).round room).map (setLoop s n)

def machine : Machine Ordering Event where
  init := {}
  next := next cfg maxBatchSize

/-- No batch number is cut. -/
def Fits (s : Ordering) : Event → Prop
  | .epoch n _ => 1 + n + cfg.allNodesSize * s.nextGuid n < UInt64.size
  | _ => True

instance (s : Ordering) (e : Event) : Decidable (Fits cfg s e) :=
  match e with
  | .epoch _ _ => inferInstanceAs (Decidable (_ < _))
  | .gotBatch _ | .gotVote _ | .propose | .gotAck _ | .commit | .receive _ | .deliver _ _
  | .round _ _ => isTrue trivial

end

end Ordering

end Calvin
