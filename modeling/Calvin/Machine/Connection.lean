import Mathlib.Logic.Function.Basic
import Mathlib.Data.List.Basic

/-!
# The connection multiplexer

`ConnectionMultiplexer` of a node (`machine/connection.cc`). Other threads put
requests and messages in its queues and take messages from the queues of channels;
its own thread goes round the loop of `Run`, each part of which is a function
here. Queues are lists, as `AtomicQueue` is seen from outside, and are told apart
by the order in which they were allocated; a message that is put in one is
returned with the queue.

`DeleteChannel` is left out.
-/

namespace Calvin

open Function

abbrev ChannelName := String

/-- `MessageProto`, as far as the multiplexer reads it. -/
structure Message where
  destinationNode : Nat
  destinationChannel : ChannelName
  data : List UInt8 := []
deriving DecidableEq, Repr

/-- A request in `link_unlink_queue_`. -/
inductive ChannelRequest
  | linkChannel (channelRequest mainChannel : ChannelName)
  | unlinkChannel (channelRequest : ChannelName)
deriving DecidableEq, Repr

structure ConnectionMultiplexer where
  localNodeId : Nat
  /-- The number of the queue of each channel. -/
  channelResults : ChannelName → Option Nat := fun _ => none
  /-- The queues that were allocated. -/
  queues : List (List Message) := []
  undeliveredMessages : ChannelName → List Message := fun _ => []
  newChannelQueue : List ChannelName := []
  linkUnlinkQueue : List ChannelRequest := []
  sendMessageQueue : List Message := []
  /-- The loop of `Run` goes on. -/
  running : Bool := true

namespace ConnectionMultiplexer

/-- A message and the queue it is put in. -/
abbrev Put := Nat × Message

/-! ## Calls from other threads -/

/-- `NewChannel`, which then waits for the channel. -/
def newChannel (s : ConnectionMultiplexer) (channel : ChannelName) : ConnectionMultiplexer :=
  { s with newChannelQueue := s.newChannelQueue ++ [channel] }

/-- `LinkChannel` and `UnlinkChannel`. -/
def request (s : ConnectionMultiplexer) (r : ChannelRequest) : ConnectionMultiplexer :=
  { s with linkUnlinkQueue := s.linkUnlinkQueue ++ [r] }

/-- `Send`. -/
def send (s : ConnectionMultiplexer) (m : Message) : ConnectionMultiplexer :=
  { s with sendMessageQueue := s.sendMessageQueue ++ [m] }

/-- `GotMessage`: the message taken, with its queue; there is no result if the
channel does not exist. -/
def gotMessage (s : ConnectionMultiplexer) (channel : ChannelName) :
    Option (ConnectionMultiplexer × Option Put) :=
  (s.channelResults channel).map fun q =>
    match s.queues.getD q [] with
    | [] => (s, none)
    | m :: rest => ({ s with queues := s.queues.set q rest }, some (q, m))

/-! ## The loop -/

/-- `Push` to a queue. -/
def push (s : ConnectionMultiplexer) (q : Nat) (messages : List Message) : ConnectionMultiplexer :=
  { s with queues := s.queues.set q (s.queues.getD q [] ++ messages) }

/-- Forward on any messages sent to this channel before it existed, to the queue
that is its own from now on. -/
def forward (s : ConnectionMultiplexer) (channel : ChannelName) (q : Nat) :
    ConnectionMultiplexer × List Put :=
  let messages := s.undeliveredMessages channel
  ({ s.push q messages with
      channelResults := update s.channelResults channel (some q)
      undeliveredMessages := update s.undeliveredMessages channel [] },
    messages.map fun m => (q, m))

/-- Create new channel. The loop returns if the channel exists. -/
def createChannel (s : ConnectionMultiplexer) : Option (ConnectionMultiplexer × List Put) :=
  match s.newChannelQueue with
  | [] => none
  | channel :: rest =>
      let s := { s with newChannelQueue := rest }
      match s.channelResults channel with
      | some _ => some ({ s with running := false }, [])
      | none => some (forward { s with queues := s.queues ++ [[]] } channel s.queues.length)

/-- Deliver a message to its channel, or keep it until there is one. -/
def deliver (s : ConnectionMultiplexer) (m : Message) : ConnectionMultiplexer × List Put :=
  match s.channelResults m.destinationChannel with
  | some q => (s.push q [m], [(q, m)])
  | none =>
      ({ s with
          undeliveredMessages := update s.undeliveredMessages m.destinationChannel
            (s.undeliveredMessages m.destinationChannel ++ [m]) }, [])

/-- Send message; the flag says that it is for this node. -/
def sendMessage (s : ConnectionMultiplexer) :
    Option (ConnectionMultiplexer × List Put × Message) :=
  match s.sendMessageQueue with
  | [] => none
  | m :: rest =>
      let s := { s with sendMessageQueue := rest }
      if m.destinationNode = s.localNodeId then
        let (s, puts) := s.deliver m
        some (s, puts, m)
      else some (s, [], m)

/-- Handle link/unlink request. The main channel has to exist. -/
def linkUnlink (s : ConnectionMultiplexer) : Option (ConnectionMultiplexer × List Put) :=
  match s.linkUnlinkQueue with
  | [] => none
  | .linkChannel channel mainChannel :: rest =>
      (s.channelResults mainChannel).map fun q =>
        forward { s with linkUnlinkQueue := rest } channel q
  | .unlinkChannel channel :: rest =>
      some ({ s with
          linkUnlinkQueue := rest
          channelResults := update s.channelResults channel none }, [])

/-! ## What the parts of the loop can do -/

variable {s mux : ConnectionMultiplexer} {puts : List Put}

theorem createChannel_cases {res : ConnectionMultiplexer × List Put}
    (h : s.createChannel = some res) : ∃ channel rest, s.newChannelQueue = channel :: rest ∧
      ((s.channelResults channel ≠ none ∧
          res = ({ s with newChannelQueue := rest, running := false }, [])) ∨
        (s.channelResults channel = none ∧ res =
          forward { s with newChannelQueue := rest, queues := s.queues ++ [[]] } channel
            s.queues.length)) := by
  unfold createChannel at h
  cases hnew : s.newChannelQueue with
  | nil =>
      rw [hnew] at h
      cases h
  | cons channel rest =>
      rw [hnew] at h
      dsimp only at h
      refine ⟨channel, rest, rfl, ?_⟩
      cases hc : s.channelResults channel with
      | some q =>
          rw [hc] at h
          exact .inl ⟨by simp, (Option.some.inj h).symm⟩
      | none =>
          rw [hc] at h
          exact .inr ⟨rfl, (Option.some.inj h).symm⟩

theorem sendMessage_cases {m : Message} (h : s.sendMessage = some (mux, puts, m)) :
    ∃ rest, s.sendMessageQueue = m :: rest ∧
      ((m.destinationNode = s.localNodeId ∧
          (mux, puts) = deliver { s with sendMessageQueue := rest } m) ∨
        (m.destinationNode ≠ s.localNodeId ∧ (mux, puts) =
          ({ s with sendMessageQueue := rest }, []))) := by
  unfold sendMessage at h
  cases hsend : s.sendMessageQueue with
  | nil =>
      rw [hsend] at h
      cases h
  | cons m' rest =>
      rw [hsend] at h
      dsimp only at h
      by_cases hm : m'.destinationNode = s.localNodeId
      · rw [if_pos hm, Option.some.injEq, Prod.mk.injEq, Prod.mk.injEq] at h
        obtain ⟨rfl, rfl, rfl⟩ := h
        exact ⟨rest, rfl, .inl ⟨hm, rfl⟩⟩
      · rw [if_neg hm, Option.some.injEq, Prod.mk.injEq, Prod.mk.injEq] at h
        obtain ⟨rfl, rfl, rfl⟩ := h
        exact ⟨rest, rfl, .inr ⟨hm, rfl⟩⟩

theorem linkUnlink_cases {res : ConnectionMultiplexer × List Put}
    (h : s.linkUnlink = some res) : ∃ rest,
      (∃ channel mainChannel q, s.linkUnlinkQueue = .linkChannel channel mainChannel :: rest ∧
        s.channelResults mainChannel = some q ∧
        res = forward { s with linkUnlinkQueue := rest } channel q) ∨
      ∃ channel, s.linkUnlinkQueue = .unlinkChannel channel :: rest ∧
        res = ({ s with
          linkUnlinkQueue := rest
          channelResults := update s.channelResults channel none }, []) := by
  unfold linkUnlink at h
  cases hlink : s.linkUnlinkQueue with
  | nil =>
      rw [hlink] at h
      cases h
  | cons r rest =>
      rw [hlink] at h
      refine ⟨rest, ?_⟩
      cases r with
      | linkChannel channel mainChannel =>
          obtain ⟨q, hq, heq⟩ := Option.map_eq_some_iff.mp h
          exact .inl ⟨channel, mainChannel, q, rfl, hq, heq.symm⟩
      | unlinkChannel channel => exact .inr ⟨channel, rfl, (Option.some.inj h).symm⟩

end ConnectionMultiplexer

end Calvin
