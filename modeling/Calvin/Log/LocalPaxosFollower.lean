import Calvin.Log.LocalPaxos

/-!
# The followers of a replica

`RunFollower` (`log/local_paxos.cc`) and the connection between the leader of a
replica and its followers: reliable FIFO links, whose far end sorts the
messages into the channels `paxos_log_` and `paxos_ack_` of the receiver.
-/

namespace Calvin.LocalPaxos

inductive MessageType
  | paxosData
  | paxosDataAck
  | paxosCommit
deriving DecidableEq, Repr

inductive Channel
  | paxosLog
  | paxosAck
deriving DecidableEq, Repr

/-- The fields of `MessageProto` that leader and followers use among each
other. -/
structure Message where
  type : MessageType
  miscInt : List Nat := []
  data : List Sequence := []
deriving DecidableEq, Repr

/-- `Clear`; the type goes back to the default, which nothing reads here. -/
def Message.clear (_ : Message) : Message := { type := .paxosData }

structure Follower where
  /-- Received and not yet read, by channel. -/
  paxosLog : List Message := []
  paxosAck : List Message := []
  uncommitted : List Message := []
  globalLog : LocalMemLog := {}
  localLog : LocalMemLog := {}
deriving DecidableEq, Repr

namespace Follower

/-- A message reaches its channel. -/
def receive (f : Follower) (channel : Channel) (message : Message) : Follower :=
  match channel with
  | .paxosLog => { f with paxosLog := f.paxosLog ++ [message] }
  | .paxosAck => { f with paxosAck := f.paxosAck ++ [message] }

/-- The `PAXOS_DATA` branch: queue the proposal and acknowledge its version. -/
def handleData (f : Follower) (message : Message) : Option (Follower × List Message) :=
  message.miscInt[0]?.map fun version =>
    ({ f with uncommitted := f.uncommitted ++ [message] },
      [{ type := .paxosDataAck, miscInt := [version] }])

/-- The `PAXOS_COMMIT` branch. `append_message` is cleared before its
`misc_int_size` is tested. -/
def handleCommit (f : Follower) : Option (Follower × List Message) :=
  match f.uncommitted with
  | [] => none
  | appendMessage :: rest =>
      appendMessage.miscInt[0]?.bind fun globalVersion =>
        appendMessage.data[0]?.bind fun data =>
          let cleared := appendMessage.clear
          (f.globalLog.append globalVersion data).bind fun globalLog =>
            let f := { f with uncommitted := rest, globalLog }
            if 1 < cleared.miscInt.length then
              cleared.miscInt[1]?.bind fun localVersion =>
                (f.localLog.append localVersion data).map fun localLog =>
                  ({ f with localLog }, [])
            else some (f, [])

/-- One round of `RunFollower`, with what it sends to the leader. It reads
`paxos_ack_` only; `none` if there is nothing to read, or a check fails. -/
def runFollower (f : Follower) : Option (Follower × List Message) :=
  match f.paxosAck with
  | [] => none
  | message :: rest =>
      let f := { f with paxosAck := rest }
      match message.type with
      | .paxosData => f.handleData message
      | .paxosCommit => f.handleCommit
      | .paxosDataAck => some (f, [])

/-- A commit never fills the local log: the fields that would tell a local
sequence are cleared by then. -/
theorem handleCommit_localLog {f f' : Follower} {outs : List Message}
    (h : f.handleCommit = some (f', outs)) : f'.localLog = f.localLog := by
  unfold handleCommit at h
  split at h
  · cases h
  · simp only [Option.bind_eq_some_iff] at h
    obtain ⟨_, -, _, -, _, -, h⟩ := h
    rw [if_neg (by simp [Message.clear])] at h
    cases h
    rfl

/-- No message fills the local log of a follower. -/
theorem runFollower_localLog {f f' : Follower} {outs : List Message}
    (h : f.runFollower = some (f', outs)) : f'.localLog = f.localLog := by
  unfold runFollower at h
  split at h
  · cases h
  · rename_i message rest hq
    dsimp only at h
    split at h
    · simp only [handleData, Option.map_eq_some_iff, Prod.mk.injEq] at h
      obtain ⟨_, -, rfl, -⟩ := h
      rfl
    · have hl := handleCommit_localLog h
      exact hl
    · cases h
      rfl

end Follower

/-- What a step of the leader sends to every follower, by channel. -/
def toFollowers : Output → List (Channel × Message)
  | .data globalVersion localVersion encoded =>
      [(.paxosAck, ⟨.paxosData, globalVersion :: localVersion.toList, [encoded]⟩)]
  | .commit globalVersion => [(.paxosLog, ⟨.paxosCommit, [globalVersion], []⟩)]
  | .peer .. | .order .. | .batch .. => []

/-- A replica: the leader, its followers and the links between them. -/
structure Replica where
  leader : Leader := {}
  followers : Nat → Follower := fun _ => {}
  /-- Sent to a follower and not yet delivered. -/
  link : Nat → List (Channel × Message) := fun _ => []
  /-- Sent by a follower and not yet read by the leader. -/
  acks : Nat → List Message := fun _ => []
  /-- History: what the leader proposed. -/
  proposed : List (Nat × Option Nat × Sequence) := []
  /-- History: what was delivered to the channels of a follower. -/
  delivered : Nat → List Message := fun _ => []

end Calvin.LocalPaxos
