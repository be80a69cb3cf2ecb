import Mathlib.Data.List.Sort
import Mathlib.Logic.Function.Basic
import Calvin.Lib.Machine
import Calvin.Log.LocalMemLog

/-!
# The per-replica Paxos leader (low-latency modes)

`log/local_paxos.cc`: the leader orders its own local sequences and those it
receives from the leaders of other replicas. `RunLeader` and `RunLeaderStrong`
share one model, told apart by `Config.strong`; the remote branch of
`RunLeader` is the code of `HandleRemoteBatch` written out in place.

The leader thread is cut at the points where it can wait: the top of its loop,
the wait for the `MR_TXNS_BATCH` of a remote batch, the ack loop, and the
`SYNCHRONIZE_ACK` loop of the strong leader. Everything between two such points
is one step. `ReceiveMessage` is modelled message by message.
-/

namespace Calvin.LocalPaxos

open Function

/-- The members of `LocalPaxos` and of its configuration that never change. -/
structure Config where
  localReplica : Nat
  /-- `replicas_size()`. -/
  replicas : Nat
  /-- `participants_.size()`. -/
  participants : Nat
  /-- `type_ == 2`: the thread is `RunLeaderStrong`. -/
  strong : Bool
  localNodeId : Nat := 0
  allNodes : Nat := 1
deriving DecidableEq, Repr

/-- `static_cast<int>(participants_.size()) / 2 + 1`. -/
def Config.quorum (cfg : Config) : Nat := cfg.participants / 2 + 1

/-- `closed_replica` of `RunLeaderStrong`. -/
def closedReplica (replica : Nat) : Nat :=
  if replica < 3 then replica + 3 else replica - 3

/-- The messages of channel `paxos_log_`. -/
inductive LogMessage
  | mrTxnsBatch (batchNumber : Nat) (data : List TxnProto)
  | newSequence (fromReplica latestVersion : Nat) (data : List Sequence)
  | newSequenceAck (fromReplica latestVersion : Nat)
  | synchronize (fromReplica : Nat) (data : Sequence)
  | synchronizeAck
  | paxosCommit (globalVersion : Nat)
deriving DecidableEq, Repr

/-- What a step of the leader sends. -/
inductive Output
  /-- To the leader of another replica, channel `paxos_log_`. -/
  | peer (replica : Nat) (message : LogMessage)
  /-- `PAXOS_DATA` to the other participants, channel `paxos_ack_`; the local
  version is there if the proposal is a local one. -/
  | data (globalVersion : Nat) (localVersion : Option Nat) (encoded : Sequence)
  /-- `PAXOS_BATCH_ORDER` to the schedulers of this replica. The origin is not
  in the message: it is what `isLocal` and `remote_replica` say at the time. -/
  | order (globalVersion : Nat) (encoded : Sequence) (origin : Nat)
  /-- `PAXOS_COMMIT` to the other participants, channel `paxos_log_`. -/
  | commit (globalVersion : Nat)
  /-- `TXN_BATCH` with generated transactions, one per replica. -/
  | batch (batchNumber : Nat) (data : List TxnProto)
deriving DecidableEq, Repr

/-- Where `HandleRemoteBatch` returns to. -/
inductive Ret
  | top
  /-- The loop that waits for the `SYNCHRONIZE_ACK` of a local sequence. -/
  | sync (encoded : Sequence)
deriving DecidableEq, Repr

/-- Whose sequence is being proposed: `isLocal`, `remote_replica`. -/
inductive Source
  | own
  | remote (replica : Nat) (ret : Ret)
deriving DecidableEq, Repr

/-- Where the leader thread stands. -/
inductive Pc
  /-- At the top of `while (go_)`, or in `ReceiveMessage` there. -/
  | idle
  /-- In the loop over the batches of a sequence of replica 0. -/
  | generate (remaining : List Nat) (encoded : Sequence) (replica : Nat) (ret : Ret)
  | collect (encoded : Sequence) (acks : Nat) (source : Source)
  /-- At the condition of `while (received_synchronize_ack == false)`. -/
  | syncTest (encoded : Sequence)
  /-- In the `ReceiveMessage` of that loop. -/
  | syncReceive (encoded : Sequence)
deriving DecidableEq, Repr

/-- The point a remote sequence returns to. -/
def Ret.pc : Ret → Pc
  | .top => .idle
  | .sync encoded => .syncTest encoded

/-- The members of `LocalPaxos` and the locals of its leader thread. -/
structure Leader where
  sequence : Sequence := []
  localCount : Nat := 0
  localLog : LocalMemLog := {}
  globalLog : LocalMemLog := {}
  mrTxnBatches : Nat → Option (List TxnProto) := fun _ => none
  sequencesOtherReplicas : List (Sequence × Nat) := []
  readersForLocalLog : Nat → LogReader := fun _ => {}
  newSequenceTodo : List Nat := []
  localNextVersion : Nat := 0
  globalNextVersion : Nat := 0
  receivedSynchronizeAck : Bool := false
  isFirst : Bool := true
  alternate : Nat := 0
  nextGuid : Nat := 1000
  pc : Pc := .idle

namespace Leader

/-- `Append`. -/
def append (l : Leader) (blockid : Nat) : Leader :=
  { l with sequence := l.sequence ++ [blockid], localCount := l.localCount + 1 }

/-- `std::set::insert`. -/
def insertTodo (todo : List Nat) (replica : Nat) : List Nat :=
  if replica ∈ todo then todo else todo.orderedInsert (· ≤ ·) replica

/-- Read everything new in the local log for a replica; `latest` is the last
version read, or the given one if nothing was new. -/
def readNew (l : Leader) (replica latest : Nat) : Leader × Nat × List Sequence :=
  let (r, es) := (l.readersForLocalLog replica).drain l.localLog
  ({ l with readersForLocalLog := update l.readersForLocalLog replica r },
    (es.getLast?.map Prod.fst).getD latest, es.map Prod.snd)

/-- `ReceiveMessage` on one message. -/
def receiveMessage (cfg : Config) (l : Leader) : LogMessage → Leader × List Output
  | .mrTxnsBatch batchNumber data =>
      ({ l with mrTxnBatches := update l.mrTxnBatches batchNumber (some data) }, [])
  | .newSequence fromReplica latestVersion data =>
      ({ l with
          sequencesOtherReplicas :=
            l.sequencesOtherReplicas ++ data.map fun sequence => (sequence, fromReplica) },
        [.peer fromReplica (.newSequenceAck cfg.localReplica latestVersion)])
  | .newSequenceAck fromReplica acked =>
      let (l, latest, sequences) := l.readNew fromReplica acked
      if latest = acked then
        ({ l with newSequenceTodo := insertTodo l.newSequenceTodo fromReplica }, [])
      else
        (l, [.peer fromReplica (.newSequence cfg.localReplica latest sequences)])
  | .synchronize fromReplica data =>
      ({ l with sequencesOtherReplicas := l.sequencesOtherReplicas ++ [(data, fromReplica)] },
        [.peer fromReplica .synchronizeAck])
  | .synchronizeAck => ({ l with receivedSynchronizeAck := true }, [])
  | .paxosCommit _ => (l, [])

/-- Start the ack loop for a proposal. -/
def startCollect (l : Leader) (encoded : Sequence) (source : Source) : Leader × List Output :=
  ({ l with pc := .collect encoded 1 source },
    [.data l.globalNextVersion
      (match source with | .own => some l.localNextVersion | .remote .. => none) encoded])

/-- Propose the local sequence. -/
def proposeLocal (l : Leader) : Leader × List Output :=
  startCollect
    { l with
      localNextVersion := l.localNextVersion + 1
      globalNextVersion := l.globalNextVersion + 1
      sequence := []
      localCount := 0 }
    l.sequence .own

/-- The head of `HandleRemoteBatch`: take the next remote sequence, which the
caller has seen to be there. -/
def handleRemoteBatch (cfg : Config) (l : Leader) (ret : Ret) : Option (Leader × List Output) :=
  match l.sequencesOtherReplicas with
  | [] => none
  | (sequence, replica) :: rest =>
      let l :=
        { l with
          globalNextVersion := l.globalNextVersion + 1
          sequencesOtherReplicas := rest }
      if cfg.localReplica ≠ 0 ∧ replica = 0 then
        some ({ l with pc := .generate sequence sequence replica ret }, [])
      else
        some (l.startCollect sequence (.remote replica ret))

/-- The top of the loop, once there is a request. -/
def pick (cfg : Config) (l : Leader) : Option (Leader × List Output) :=
  match l.pc with
  | .idle =>
      if l.localCount = 0 ∧ l.sequencesOtherReplicas = [] then none
      else if cfg.strong then
        if l.sequencesOtherReplicas ≠ [] then l.handleRemoteBatch cfg .top
        else some l.proposeLocal
      else
        let l := { l with alternate := (l.alternate + 1) % 10 }
        if (l.alternate < 1 ∧ 0 < l.localCount) ∨ l.sequencesOtherReplicas = [] then
          some l.proposeLocal
        else l.handleRemoteBatch cfg .top
  | _ => none

/-- The copy of a multi-replica transaction that this replica generates. -/
def generatedTxn (cfg : Config) (txn : TxnProto) : TxnProto :=
  { txn with fakeTxn := false, newGenerated := true, originReplica := cfg.localReplica }

/-- One round of the loop over the batches of a remote sequence; it waits until
the `MR_TXNS_BATCH` of the batch is there. -/
def generate (cfg : Config) (l : Leader) : Option (Leader × List Output) :=
  match l.pc with
  | .generate [] encoded replica ret => some (l.startCollect encoded (.remote replica ret))
  | .generate (batchId :: rest) encoded replica ret =>
      (l.mrTxnBatches batchId).map fun data =>
        let l := { l with pc := .generate rest encoded replica ret }
        if data = [] then (l, [])
        else
          let batchNumber := 1 + cfg.localNodeId + cfg.allNodes * l.nextGuid
          (Leader.append { l with nextGuid := l.nextGuid + 1 } batchNumber,
            [.batch batchNumber (data.map (generatedTxn cfg))])
  | _ => none

/-- A `PAXOS_DATA_ACK` taken from channel `paxos_ack_` while acks are missing. -/
def gotAck (cfg : Config) (l : Leader) (ackVersion : Nat) : Option Leader :=
  match l.pc with
  | .collect encoded acks source =>
      if acks < cfg.quorum then
        some { l with
          pc := .collect encoded (if ackVersion = l.globalNextVersion then acks + 1 else acks)
            source }
      else none
  | _ => none

/-- Send what is new in the local log to each of these replicas. With `check`,
there must be something new (`CHECK(latest_version != 0)`). -/
def sendSequences (cfg : Config) (check : Bool) :
    Leader → List Nat → Option (Leader × List Output)
  | l, [] => some (l, [])
  | l, replica :: rest =>
      let (l, latest, sequences) := l.readNew replica 0
      if check ∧ latest = 0 then none
      else
        (sendSequences cfg check l rest).map fun (l, outs) =>
          (l, .peer replica (.newSequence cfg.localReplica latest sequences) :: outs)

/-- The replicas that get the local sequences for the first time. -/
def firstTargets (cfg : Config) : List Nat :=
  (List.range cfg.replicas).filter fun i =>
    i ≠ cfg.localReplica ∧ ¬ (cfg.strong ∧ i = closedReplica cfg.localReplica)

/-- The end of an iteration with a local sequence: append to both logs and hand
the local log over to the replicas that wait for it. -/
def finishLocal (cfg : Config) (l : Leader) (encoded : Sequence) :
    Option (Leader × List Output) :=
  (l.localLog.append l.localNextVersion encoded).bind fun localLog =>
    (l.globalLog.append l.globalNextVersion encoded).bind fun globalLog =>
      let l := { l with localLog, globalLog, pc := .idle }
      if l.isFirst then
        sendSequences cfg false { l with isFirst := false } (firstTargets cfg)
      else
        sendSequences cfg true { l with newSequenceTodo := [] } l.newSequenceTodo

/-- With a quorum of acks: send the order and the commit, and go on by source. -/
def finish (cfg : Config) (l : Leader) : Option (Leader × List Output) :=
  match l.pc with
  | .collect encoded acks source =>
      if acks < cfg.quorum then none
      else
        match source with
        | .remote replica ret =>
            (l.globalLog.append l.globalNextVersion encoded).map fun globalLog =>
              ({ l with globalLog, pc := Ret.pc ret },
                [.order l.globalNextVersion encoded replica, .commit l.globalNextVersion])
        | .own =>
            let outs := [.order l.globalNextVersion encoded cfg.localReplica,
              .commit l.globalNextVersion]
            if cfg.strong then
              some ({ l with pc := .syncTest encoded },
                outs ++ [.peer (closedReplica cfg.localReplica)
                  (.synchronize cfg.localReplica encoded)])
            else
              (l.finishLocal cfg encoded).map fun (l, sent) => (l, outs ++ sent)
  | _ => none

/-- The test of the `SYNCHRONIZE_ACK` loop. -/
def syncTest (cfg : Config) (l : Leader) : Option (Leader × List Output) :=
  match l.pc with
  | .syncTest encoded =>
      if l.receivedSynchronizeAck then
        finishLocal cfg { l with receivedSynchronizeAck := false } encoded
      else
        some ({ l with pc := .syncReceive encoded }, [])
  | _ => none

/-- `ReceiveMessage` of that loop has drained its channel: handle a remote
sequence if there is one, then test again. -/
def syncReceived (cfg : Config) (l : Leader) : Option (Leader × List Output) :=
  match l.pc with
  | .syncReceive encoded =>
      if l.sequencesOtherReplicas ≠ [] then l.handleRemoteBatch cfg (.sync encoded)
      else some ({ l with pc := .syncTest encoded }, [])
  | _ => none

/-- The points at which the leader reads channel `paxos_log_`. -/
def receiving (l : Leader) : Bool :=
  match l.pc with
  | .idle | .generate .. | .syncReceive _ => true
  | .collect .. | .syncTest _ => false

end Leader

/-- What can happen to a leader. -/
inductive Event
  /-- `Append` in the sequencer thread. -/
  | append (blockid : Nat)
  /-- Another thread of the node draws a GUID. -/
  | drawGuid
  | receive (message : LogMessage)
  | gotAck (version : Nat)
  | pick
  | generate
  | finish
  | syncTest
  | syncReceived
deriving DecidableEq, Repr

/-- One step of a leader, with what it sends. -/
def Leader.step (cfg : Config) (l : Leader) : Event → Option (Leader × List Output)
  | .append blockid => some (l.append blockid, [])
  | .drawGuid => some ({ l with nextGuid := l.nextGuid + 1 }, [])
  | .receive message => if l.receiving then some (l.receiveMessage cfg message) else none
  | .gotAck version => (l.gotAck cfg version).map fun l => (l, [])
  | .pick => l.pick cfg
  | .generate => l.generate cfg
  | .finish => l.finish cfg
  | .syncTest => l.syncTest cfg
  | .syncReceived => l.syncReceived cfg

end Calvin.LocalPaxos
