import Mathlib.Logic.Function.Basic
import Calvin.Log.Paxos

/-!
# The followers of the original Paxos (mode 0)

`Paxos::RunFollower`, and the leader with all its followers over links that are
FIFO per sender and receiver.
-/

namespace Calvin.Paxos

open Function Lib

/-- The messages from the leader to a follower, channel `paxos_log_`. -/
inductive Message
  | paxosData (version : Nat) (encoded : Sequence)
  | paxosCommit (version : Nat)
deriving DecidableEq, Repr

structure Follower where
  uncommitted : List (Nat × Sequence) := []
  log : LocalMemLog := {}
deriving DecidableEq, Repr

/-- One message; the results are the acks and the `PAXOS_BATCH_ORDER`s it
sends. `none` is a failed `CHECK`. The version of a commit is not read. -/
def Follower.receive (f : Follower) : Message → Option (Follower × List Nat × List (Nat × Sequence))
  | .paxosData version encoded =>
      some ({ f with uncommitted := f.uncommitted ++ [(version, encoded)] }, [version], [])
  | .paxosCommit _ =>
      match f.uncommitted with
      | [] => none
      | (version, data) :: rest =>
          (f.log.append version data).map fun log =>
            ({ uncommitted := rest, log }, [], [(version, data)])

/-- The participants; 0 is the leader. -/
structure Group where
  leader : Leader := {}
  followers : Nat → Follower := fun _ => {}
  /-- Sent by the leader to a follower and not yet read. -/
  toFollower : Nat → List Message := fun _ => []
  /-- Acks of a follower that the leader has not read. -/
  toLeader : Nat → List Nat := fun _ => []
  /-- History: the `PAXOS_BATCH_ORDER`s of all participants. -/
  orders : List (Nat × Sequence) := []
  /-- History: what the leader has proposed. -/
  proposals : List (Nat × Sequence) := []
  /-- History: the acks of a follower that the leader has read. -/
  acked : Nat → List Nat := fun _ => []

namespace Group

inductive Event
  | append (blockid : Nat)
  | propose
  /-- The leader reads the oldest ack of a follower. -/
  | gotAck (i : Nat)
  | commit
  /-- A follower reads its oldest message. -/
  | receive (i : Nat)
deriving DecidableEq, Repr

section

variable (participants : Nat)

def IsFollower (i : Nat) : Prop := 0 < i ∧ i < participants

instance (i : Nat) : Decidable (IsFollower participants i) := inferInstanceAs (Decidable (_ ∧ _))

/-- Send to the participants 1, 2, .... -/
def broadcast (link : Nat → List Message) (message : Message) : Nat → List Message := fun i =>
  if IsFollower participants i then link i ++ [message] else link i

def next (s : Group) : Event → Option Group
  | .append blockid => some { s with leader := s.leader.append blockid }
  | .propose =>
      s.leader.propose.map fun leader =>
        { s with
          leader
          toFollower := broadcast participants s.toFollower
            (.paxosData s.leader.nextVersion s.leader.sequence)
          proposals := s.proposals ++ [(s.leader.nextVersion, s.leader.sequence)] }
  | .gotAck i =>
      match s.toLeader i with
      | [] => none
      | version :: rest =>
          (s.leader.gotAck (quorum participants) version).map fun leader =>
            { s with
              leader
              toLeader := update s.toLeader i rest
              acked := update s.acked i (s.acked i ++ [version]) }
  | .commit =>
      (s.leader.commit (quorum participants)).bind fun (leader, order) =>
        match order with
        | .paxosBatchOrder version encoded =>
            some
              { s with
                leader
                toFollower := broadcast participants s.toFollower (.paxosCommit version)
                orders := s.orders ++ [(version, encoded)] }
        | .txnSubbatch _ => none
  | .receive i =>
      match s.toFollower i with
      | [] => none
      | message :: rest =>
          ((s.followers i).receive message).map fun (follower, acks, orders) =>
            { s with
              followers := update s.followers i follower
              toFollower := update s.toFollower i rest
              toLeader := update s.toLeader i (s.toLeader i ++ acks)
              orders := s.orders ++ orders }

def machine : Machine Group Event where
  init := {}
  next := next participants

end

end Group

end Calvin.Paxos
