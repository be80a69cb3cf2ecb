import Calvin.Lib.Machine
import Calvin.Scheduler.ReadExchange

/-!
# Workers and their channels

The part of `RunWorkerThread` that waits for read results, with the multiplexer
of its node (`machine/connection.cc`). A worker that lacks objects links the
channel of the transaction to its own queue and keeps the manager in
`active_txns`; the multiplexer puts a message in the queue its channel is linked
to, or keeps it until there is one.

* `Worker`, `Multiplexer`, `Workers`: the threads of one replica;
* `machine`: their steps, in any interleaving.

A node gets each participant it has from `txns_queue_` once, in any order. What
execution does to the storage is left out; the records a manager reads come with
the event.
-/

namespace Calvin

open Function Lib ReadExchange

/-- A participant: the number of its transaction, its partition and its origin. -/
abbrev Part := Nat × Nat × Nat

/-- What a worker asks of the multiplexer. -/
inductive LinkRequest
  | link (channel : Channel) (thread : Nat)
  | unlink (channel : Channel)
deriving DecidableEq, Repr

structure Worker where
  /-- The queue of the worker's channel. -/
  messages : List ReadResult := []
  activeTxns : Channel → Option (Part × StorageManager) := fun _ => none

structure Multiplexer where
  linkUnlinkQueue : List LinkRequest := []
  /-- The worker whose queue a channel is linked to. -/
  channelResults : Channel → Option Nat := fun _ => none
  undeliveredMessages : Channel → List ReadResult := fun _ => []

/-- The nodes of a replica, by their partitions. -/
structure Workers where
  /-- By node and thread. -/
  workers : Nat × Nat → Worker := fun _ => {}
  multiplexers : Nat → Multiplexer := fun _ => {}
  network : List ReadResult := []
  /-- Popped from `txns_queue_`. -/
  started : List Part := []
  /-- Pushed to `done_queue_`. -/
  finished : List Part := []
  /-- History: the worker of a participant that waits. -/
  threadOf : Part → Nat := fun _ => 0
  /-- History: the messages its manager has handled. -/
  handled : Part → List ReadResult := fun _ => []

namespace Workers

inductive Event
  /-- A worker takes up a participant and creates its manager. -/
  | start (thread : Nat) (p : Part) (store : Key → Record)
  /-- The multiplexer of a node receives a message. -/
  | receive (m i : Nat)
  /-- It handles a link or unlink request. -/
  | linkUnlink (m : Nat)
  /-- A worker handles the next message of its queue. -/
  | gotMessage (m thread : Nat)

section

variable (cfg : ClusterConfig) (mode : Nat) (txns : Nat → TxnProto)

/-- The channel of a participant. -/
def channel (p : Part) : Channel := channelOf (txns p.1).txnId p.2.2

def setWorker (s : Workers) (a : Nat × Nat) (w : Worker) : Workers :=
  { s with workers := update s.workers a w }

def setMultiplexer (s : Workers) (m : Nat) (x : Multiplexer) : Workers :=
  { s with multiplexers := update s.multiplexers m x }

/-- `LinkChannel` and `UnlinkChannel`. -/
def request (s : Workers) (m : Nat) (r : LinkRequest) : Workers :=
  setMultiplexer s m
    { s.multiplexers m with
      linkUnlinkQueue := (s.multiplexers m).linkUnlinkQueue ++ [r] }

/-- Push messages to the queue of a worker. -/
def push (s : Workers) (a : Nat × Nat) (messages : List ReadResult) : Workers :=
  setWorker s a { s.workers a with messages := (s.workers a).messages ++ messages }

/-- Set or erase an entry of `active_txns`. -/
def setActive (s : Workers) (a : Nat × Nat) (c : Channel) (entry : Option (Part × StorageManager)) :
    Workers :=
  setWorker s a { s.workers a with activeTxns := update (s.workers a).activeTxns c entry }

def start (s : Workers) (thread : Nat) (p : Part) (store : Key → Record) : Option Workers :=
  if p.2 ∈ participants cfg mode (txns p.1) ∧ p ∉ s.started then
    let (manager, sent) := created cfg mode (txns p.1) (fun _ => store) p.2
    let s := { s with started := p :: s.started, network := s.network ++ sent }
    if manager.readyToExecute (txns p.1) then some { s with finished := p :: s.finished }
    else
      let s := request s p.2.1 (.link (channel txns p) thread)
      some { setActive s (p.2.1, thread) (channel txns p) (some (p, manager)) with
        threadOf := update s.threadOf p thread }
  else none

def receive (s : Workers) (m i : Nat) : Option Workers :=
  s.network[i]?.bind fun message =>
    if message.destinationNode = cfg.lookupMachineId m cfg.localReplicaId then
      let s := { s with network := s.network.eraseIdx i }
      let c := message.destinationChannel
      let x := s.multiplexers m
      match x.channelResults c with
      | some thread => some (push s (m, thread) [message])
      | none =>
          some (setMultiplexer s m
            { x with
              undeliveredMessages :=
                update x.undeliveredMessages c (x.undeliveredMessages c ++ [message]) })
    else none

def linkUnlink (s : Workers) (m : Nat) : Option Workers :=
  let x := s.multiplexers m
  match x.linkUnlinkQueue with
  | [] => none
  | .link c thread :: rest =>
      some (push
        (setMultiplexer s m
          { linkUnlinkQueue := rest
            channelResults := update x.channelResults c (some thread)
            undeliveredMessages := update x.undeliveredMessages c [] })
        (m, thread) (x.undeliveredMessages c))
  | .unlink c :: rest =>
      some (setMultiplexer s m
        { x with
          linkUnlinkQueue := rest
          channelResults := update x.channelResults c none })

/-- The worker whose `active_txns` lack the channel of the message fails its
`CHECK`: there is no next state. -/
def gotMessage (s : Workers) (m thread : Nat) : Option Workers :=
  let w := s.workers (m, thread)
  match w.messages with
  | [] => none
  | message :: rest =>
      let c := message.destinationChannel
      (w.activeTxns c).map fun (p, manager) =>
        let manager := manager.handleReadResult message.entries
        let s := { setWorker s (m, thread) { w with messages := rest } with
          handled := update s.handled p (s.handled p ++ [message]) }
        if manager.readyToExecute (txns p.1) then
          { request (setActive s (m, thread) c none) m (.unlink c) with
            finished := p :: s.finished }
        else setActive s (m, thread) c (some (p, manager))

def next (s : Workers) : Event → Option Workers
  | .start thread p store => start cfg mode txns s thread p store
  | .receive m i => receive cfg s m i
  | .linkUnlink m => linkUnlink s m
  | .gotMessage m thread => gotMessage txns s m thread

def machine : Machine Workers Event where
  init := {}
  next := next cfg mode txns

/-- Two participants of one node have different channels. A number whose
transaction has no entries has no participant. -/
def DistinctChannels : Prop :=
  ∀ p q : Part, p.2 ∈ participants cfg mode (txns p.1) → q.2 ∈ participants cfg mode (txns q.1) →
    p.2.1 = q.2.1 → channel txns p = channel txns q → p = q

/-- A message is for a participant. -/
def IsFor (p : Part) (message : ReadResult) : Prop :=
  message.destinationNode = cfg.lookupMachineId p.2.1 cfg.localReplicaId ∧
    message.destinationChannel = channel txns p

instance (p : Part) (message : ReadResult) : Decidable (IsFor cfg txns p message) :=
  inferInstanceAs (Decidable (_ ∧ _))

/-- The messages for a participant that have not been handled: in the network,
kept by its multiplexer, or in the queue of its worker. -/
def inFlight (s : Workers) (p : Part) : List ReadResult :=
  (s.network.filter fun message => IsFor cfg txns p message) ++
    (s.multiplexers p.2.1).undeliveredMessages (channel txns p) ++
    ((s.workers (p.2.1, s.threadOf p)).messages.filter fun message =>
      message.destinationChannel = channel txns p)

/-- The keys of the messages a participant has handled, and its own. -/
def held (s : Workers) (p : Part) : List Key :=
  resultKeys (s.handled p) ++ if p ∈ s.started then ownKeys cfg mode (txns p.1) p.2 else []

end

end Workers

end Calvin
