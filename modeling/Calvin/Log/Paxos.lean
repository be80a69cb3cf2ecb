import Calvin.Lib.Machine
import Calvin.Log.LocalMemLog

/-!
# The Paxos leader of the original system (mode 0)

`log/paxos.cc`. `RunLeader` is cut where it blocks: at the top of its loop,
waiting for requests, and in the ack loop of a proposal. What it runs between
two such points is one step here; only `Append` of the sequencer thread and
arriving messages can interleave.
-/

namespace Calvin.Paxos

/-- Where `RunLeader` stands. -/
inductive LeaderPc
  | idle
  /-- Collecting `PAXOS_DATA_ACK`s for a proposal. -/
  | collect (version : Nat) (encoded : Sequence) (acks : Nat)
deriving DecidableEq, Repr

/-- The leader's members and the locals of `RunLeader`. -/
structure Leader where
  sequence : Sequence := []
  count : Nat := 0
  nextVersion : Nat := 0
  log : LocalMemLog := {}
  pc : LeaderPc := .idle
deriving DecidableEq, Repr

namespace Leader

/-- `Append`. -/
def append (l : Leader) (blockid : Nat) : Leader :=
  { l with sequence := l.sequence ++ [blockid], count := l.count + 1 }

/-- Propose a new sequence, once there are requests. The `PAXOS_DATA` messages
carry the version and the sequence held by the new program point. -/
def propose (l : Leader) : Option Leader :=
  match l.pc with
  | .idle =>
      if l.count = 0 then none
      else some
        { l with
          nextVersion := l.nextVersion + 1
          sequence := []
          count := 0
          pc := .collect l.nextVersion l.sequence 1 }
  | .collect .. => none

/-- A `PAXOS_DATA_ACK` taken from channel `paxos_log_` while acks are missing. -/
def gotAck (quorum : Nat) (l : Leader) (ackVersion : Nat) : Option Leader :=
  match l.pc with
  | .idle => none
  | .collect version encoded acks =>
      if acks < quorum then
        some { l with
          pc := .collect version encoded (if ackVersion = version then acks + 1 else acks) }
      else none

/-- With a quorum of acks: send the `PAXOS_BATCH_ORDER`, which is returned,
then `PAXOS_COMMIT`, and append to the log. -/
def commit (quorum : Nat) (l : Leader) : Option (Leader × SchedulerMessage) :=
  match l.pc with
  | .idle => none
  | .collect version encoded acks =>
      if acks < quorum then none
      else (l.log.append version encoded).map fun log =>
        ({ l with log, pc := .idle }, .paxosBatchOrder version encoded)

end Leader

/-- `participants_.size() / 2 + 1`. -/
def quorum (participants : Nat) : Nat := participants / 2 + 1

end Calvin.Paxos
