import Calvin.Lib.Machine
import Calvin.Machine.Connection

/-!
# Delivery to channels

What becomes of the messages for a node, whatever channels are created, linked and
unlinked in between, and in whatever order the parts of the loop and the calls of
other threads follow each other.

* `delivered_once`: a message waits to be sent, is kept under the name of its
  channel, stands in the queue its channel had when it was delivered, or was handed
  out; messages for one channel get to queues in the order they were received; and
  a channel that exists has no messages kept for it.
-/

namespace Calvin

open Function Lib ConnectionMultiplexer

/-- A multiplexer and what has happened to the messages for its node. -/
structure ChannelHistory extends ConnectionMultiplexer where
  /-- Sent by a thread of the node, or arrived from another one. -/
  entered : List Message := []
  /-- Received by the loop, in order. -/
  received : List Message := []
  /-- Put in queues, in order. -/
  delivered : List Put := []
  /-- Returned by `GotMessage`, with the queue they were in. -/
  handedOut : List Put := []

inductive ChannelEvent
  | newChannel (channel : ChannelName)
  | request (r : ChannelRequest)
  | send (m : Message)
  | gotMessage (channel : ChannelName)
  | createChannel
  /-- A message from another node is received. -/
  | remoteIn (m : Message)
  | sendMessage
  | linkUnlink
deriving DecidableEq, Repr

namespace ChannelHistory

/-- The part of the loop that is on goes on with the state and what it put. -/
def went (s : ChannelHistory) (res : ConnectionMultiplexer × List Put) : ChannelHistory :=
  { s with toConnectionMultiplexer := res.1, delivered := s.delivered ++ res.2 }

/-- A call of another thread, or a part of the loop while it runs. -/
def step (s : ChannelHistory) : ChannelEvent → Option ChannelHistory
  | .newChannel channel =>
      some { s with toConnectionMultiplexer := s.toConnectionMultiplexer.newChannel channel }
  | .request r => some { s with toConnectionMultiplexer := s.toConnectionMultiplexer.request r }
  | .send m =>
      some { s with
        toConnectionMultiplexer := s.toConnectionMultiplexer.send m
        entered := if m.destinationNode = s.localNodeId then s.entered ++ [m] else s.entered }
  | .gotMessage channel =>
      (s.toConnectionMultiplexer.gotMessage channel).map fun (mux, taken) =>
        { s with toConnectionMultiplexer := mux, handedOut := s.handedOut ++ taken.toList }
  | .createChannel => if s.running then s.createChannel.map s.went else none
  | .remoteIn m =>
      if s.running then
        some { s.went (s.deliver m) with
          entered := s.entered ++ [m]
          received := s.received ++ [m] }
      else none
  | .sendMessage =>
      if s.running then
        s.toConnectionMultiplexer.sendMessage.map fun (mux, puts, m) =>
          { s.went (mux, puts) with
            received :=
              if m.destinationNode = s.localNodeId then s.received ++ [m] else s.received }
      else none
  | .linkUnlink => if s.running then s.linkUnlink.map s.went else none

/-- A node's multiplexer from its construction on. -/
def machine (localNodeId : Nat) : Machine ChannelHistory ChannelEvent where
  init := { localNodeId }
  next := step

/-- The messages for a channel. -/
def forChannel (channel : ChannelName) (messages : List Message) : List Message :=
  messages.filter fun m => m.destinationChannel = channel

/-- The messages put in, or taken from, a queue. -/
def ofQueue (q : Nat) (puts : List Put) : List Message :=
  (puts.filter fun put => put.1 = q).map Prod.snd

/-- The messages for this node that wait to be sent. -/
def waiting (s : ConnectionMultiplexer) : List Message :=
  s.sendMessageQueue.filter fun m => m.destinationNode = s.localNodeId

theorem forChannel_append (channel : ChannelName) (a b : List Message) :
    forChannel channel (a ++ b) = forChannel channel a ++ forChannel channel b :=
  List.filter_append ..

theorem forChannel_singleton (channel : ChannelName) (m : Message) :
    forChannel channel [m] = if m.destinationChannel = channel then [m] else [] := by
  rw [forChannel, List.filter_singleton]
  by_cases h : m.destinationChannel = channel <;> simp [h]

theorem ofQueue_append (q : Nat) (a b : List Put) :
    ofQueue q (a ++ b) = ofQueue q a ++ ofQueue q b := by
  rw [ofQueue, List.filter_append, List.map_append]
  rfl

/-- The puts of some messages in one queue. -/
theorem ofQueue_map (q q' : Nat) (messages : List Message) :
    ofQueue q' (messages.map fun m => (q, m)) = if q = q' then messages else [] := by
  rw [ofQueue, List.filter_map, List.map_map]
  by_cases hq : q = q'
  · rw [if_pos hq]
    simp [hq, Function.comp_def]
  · rw [if_neg hq]
    simp [hq, Function.comp_def]

theorem map_snd_puts (q : Nat) (messages : List Message) :
    (messages.map fun m => ((q, m) : Put)).map Prod.snd = messages := by
  rw [List.map_map]
  exact List.map_id _

/-- Replacing one of many lists changes the count by that of the two lists. -/
theorem count_flatten_set {l : List (List Message)} {i : Nat} (hi : i < l.length)
    (x : List Message) (m : Message) :
    (l.set i x).flatten.count m + (l.getD i []).count m = l.flatten.count m + x.count m := by
  induction l generalizing i with
  | nil => exact absurd hi (Nat.not_lt_zero i)
  | cons a l ih =>
      cases i with
      | zero =>
          simp only [List.set_cons_zero, List.flatten_cons, List.count_append, List.getD_cons_zero]
          omega
      | succ i =>
          have hrest := ih (Nat.lt_of_succ_lt_succ hi)
          simp only [List.set_cons_succ, List.flatten_cons, List.count_append, List.getD_cons_succ]
          omega

theorem getD_set {l : List (List Message)} {q : Nat} (hq : q < l.length) (x : List Message)
    (q' : Nat) : (l.set q x).getD q' [] = if q = q' then x else l.getD q' [] := by
  simp only [List.getD_eq_getElem?_getD]
  by_cases h : q = q'
  · rw [if_pos h, ← h, List.getElem?_set_self hq, Option.getD_some]
  · rw [if_neg h, List.getElem?_set_ne h]

/-- Where the messages for the node are, and in which order. -/
structure Inv (s : ChannelHistory) : Prop where
  mapped : ∀ c q, s.channelResults c = some q → q < s.queues.length
  noneStored : ∀ c q, s.channelResults c = some q → s.undeliveredMessages c = []
  entered : ∀ m, s.entered.count m =
    (waiting s.toConnectionMultiplexer).count m + s.received.count m
  ordered : ∀ c, forChannel c s.received =
    forChannel c (s.delivered.map Prod.snd) ++ s.undeliveredMessages c
  queue : ∀ q, ofQueue q s.delivered = ofQueue q s.handedOut ++ s.queues.getD q []
  bound : ∀ put ∈ s.delivered, put.1 < s.queues.length
  placed : ∀ m, (s.delivered.map Prod.snd).count m =
    s.queues.flatten.count m + (s.handedOut.map Prod.snd).count m

theorem inv_init (localNodeId : Nat) : Inv { localNodeId } where
  mapped _ _ h := by cases h
  noneStored _ _ _ := rfl
  entered _ := rfl
  ordered _ := rfl
  queue _ := rfl
  bound _ h := (List.not_mem_nil h).elim
  placed _ := rfl

namespace Inv

variable {s s' : ChannelHistory} {mux : ConnectionMultiplexer}

/-- What is kept for a channel is for it. -/
theorem stored (hi : Inv s) {c : ChannelName} {m : Message} (hm : m ∈ s.undeliveredMessages c) :
    m.destinationChannel = c := by
  have hmem : m ∈ forChannel c s.received := by
    rw [hi.ordered c]
    exact List.mem_append_right _ hm
  exact of_decide_eq_true (List.mem_filter.mp hmem).2

/-- The queues and the counts after messages were put in one queue. -/
theorem push (hi : Inv s) {q : Nat} (hq : q < s.queues.length) (messages : List Message) :
    (∀ q', ofQueue q' (s.delivered ++ messages.map fun m => (q, m)) =
        ofQueue q' s.handedOut ++ (s.push q messages).queues.getD q' []) ∧
      (∀ put ∈ s.delivered ++ messages.map fun m => (q, m),
        put.1 < (s.push q messages).queues.length) ∧
      ∀ m, ((s.delivered ++ messages.map fun m => (q, m)).map Prod.snd).count m =
        (s.push q messages).queues.flatten.count m + (s.handedOut.map Prod.snd).count m := by
  have hqueues : (s.push q messages).queues =
      s.queues.set q (s.queues.getD q [] ++ messages) := rfl
  rw [hqueues]
  refine ⟨fun q' => ?_, fun put hput => ?_, fun m => ?_⟩
  · rw [ofQueue_append, ofQueue_map, hi.queue q', List.append_assoc, getD_set hq]
    by_cases h : q = q'
    · rw [if_pos h, if_pos h, h]
    · rw [if_neg h, if_neg h, List.append_nil]
  · rw [List.length_set]
    rcases List.mem_append.mp hput with hput | hput
    · exact hi.bound put hput
    · obtain ⟨m, -, rfl⟩ := List.mem_map.mp hput
      exact hq
  · have hset := count_flatten_set hq (s.queues.getD q [] ++ messages) m
    have hplaced := hi.placed m
    rw [List.count_append] at hset
    rw [List.map_append, map_snd_puts, List.count_append]
    omega

/-- A new queue is empty. -/
theorem newQueue (hi : Inv s) : Inv { s with queues := s.queues ++ [[]] } := by
  refine ⟨fun c q h => ?_, hi.noneStored, hi.entered, hi.ordered, fun q => ?_, fun put hput => ?_,
    fun m => ?_⟩
  · show q < (s.queues ++ [[]]).length
    rw [List.length_append]
    exact Nat.lt_add_right _ (hi.mapped c q h)
  · show ofQueue q s.delivered = ofQueue q s.handedOut ++ (s.queues ++ [[]]).getD q []
    have hsame : (s.queues ++ [[]]).getD q [] = s.queues.getD q [] := by
      simp only [List.getD_eq_getElem?_getD]
      rcases Nat.lt_trichotomy q s.queues.length with h | h | h
      · rw [List.getElem?_append_left h]
      · rw [h, List.getElem?_concat_length, List.getElem?_eq_none (Nat.le_refl _)]
        rfl
      · rw [List.getElem?_eq_none (by rw [List.length_append]; exact h),
          List.getElem?_eq_none (Nat.le_of_lt h)]
    rw [hsame]
    exact hi.queue q
  · show put.1 < (s.queues ++ [[]]).length
    rw [List.length_append]
    exact Nat.lt_add_right _ (hi.bound put hput)
  · show _ = (s.queues ++ [[]]).flatten.count m + _
    rw [List.flatten_append, List.count_append]
    exact hi.placed m

/-- A channel gets a queue, and the messages kept for it go there. -/
theorem forward (hi : Inv s) {q : Nat} (hq : q < s.queues.length) (c : ChannelName) :
    Inv (s.went (s.forward c q)) := by
  obtain ⟨hqueue, hbound, hplaced⟩ := hi.push hq (s.undeliveredMessages c)
  refine ⟨fun c' q' h => ?_, fun c' q' h => ?_, hi.entered, fun c' => ?_, hqueue, hbound, hplaced⟩
  · show q' < (s.queues.set q _).length
    rw [List.length_set]
    change update s.channelResults c (some q) c' = some q' at h
    by_cases hc : c' = c
    · rw [hc, update_self] at h
      rwa [← Option.some.inj h]
    · rw [update_of_ne hc] at h
      exact hi.mapped c' q' h
  · show update s.undeliveredMessages c [] c' = []
    change update s.channelResults c (some q) c' = some q' at h
    by_cases hc : c' = c
    · rw [hc, update_self]
    · rw [update_of_ne hc] at h ⊢
      exact hi.noneStored c' q' h
  · show forChannel c' s.received =
      forChannel c' ((s.delivered ++ (s.undeliveredMessages c).map fun m => (q, m)).map Prod.snd) ++
        update s.undeliveredMessages c [] c'
    rw [List.map_append, map_snd_puts, forChannel_append, hi.ordered c']
    by_cases hc : c' = c
    · -- all that was kept is for the channel
      have hall : forChannel c (s.undeliveredMessages c) = s.undeliveredMessages c :=
        List.filter_eq_self.mpr fun m hm => decide_eq_true (hi.stored hm)
      rw [hc, hall, update_self, List.append_nil]
    · have hnone : forChannel c' (s.undeliveredMessages c) = [] :=
        List.filter_eq_nil_iff.mpr fun m hm h =>
          hc ((of_decide_eq_true h).symm.trans (hi.stored hm))
      rw [hnone, update_of_ne hc, List.append_nil]

/-- A message is received for its channel. -/
theorem deliver (hi : Inv s) (m : Message) {entered : List Message}
    (hentered : ∀ m', entered.count m' =
      (waiting s.toConnectionMultiplexer).count m' + (s.received ++ [m]).count m') :
    Inv { s.went (s.deliver m) with entered, received := s.received ++ [m] } := by
  have hreceived : ∀ c, forChannel c (s.received ++ [m]) =
      forChannel c (s.delivered.map Prod.snd) ++ s.undeliveredMessages c ++
        if m.destinationChannel = c then [m] else [] := fun c => by
    rw [forChannel_append, hi.ordered c, forChannel_singleton]
  unfold ConnectionMultiplexer.deliver
  cases hc : s.channelResults m.destinationChannel with
  | some q =>
      obtain ⟨hqueue, hbound, hplaced⟩ := hi.push (hi.mapped _ q hc) [m]
      refine ⟨fun c' q' h => ?_, hi.noneStored, hentered, fun c' => ?_, hqueue, hbound, hplaced⟩
      · show q' < (s.queues.set q _).length
        rw [List.length_set]
        exact hi.mapped c' q' h
      · show forChannel c' (s.received ++ [m]) =
          forChannel c' ((s.delivered ++ [(q, m)]).map Prod.snd) ++ s.undeliveredMessages c'
        rw [hreceived, List.map_append, forChannel_append, List.map_singleton, forChannel_singleton]
        by_cases hm : m.destinationChannel = c'
        · -- nothing is kept for a channel that exists
          subst hm
          rw [hi.noneStored _ q hc, List.append_nil, List.append_nil]
        · rw [if_neg hm, List.append_nil, List.append_nil]
  | none =>
      refine ⟨hi.mapped, fun c' q' h => ?_, hentered, fun c' => ?_, fun q => ?_, fun put hput => ?_,
        fun m' => ?_⟩
      · show update s.undeliveredMessages m.destinationChannel _ c' = []
        have hne : c' ≠ m.destinationChannel := fun h' => by
          rw [h'] at h
          exact absurd (h.symm.trans hc) (by simp)
        rw [update_of_ne hne]
        exact hi.noneStored c' q' h
      · show forChannel c' (s.received ++ [m]) = forChannel c' ((s.delivered ++ []).map Prod.snd) ++
          update s.undeliveredMessages m.destinationChannel _ c'
        rw [hreceived, List.append_nil, List.append_assoc]
        by_cases hm : m.destinationChannel = c'
        · rw [if_pos hm, ← hm, update_self]
        · rw [if_neg hm, update_of_ne (Ne.symm hm), List.append_nil]
      · show ofQueue q (s.delivered ++ []) = _
        rw [List.append_nil]
        exact hi.queue q
      · change put ∈ s.delivered ++ [] at hput
        rw [List.append_nil] at hput
        exact hi.bound put hput
      · show ((s.delivered ++ []).map Prod.snd).count m' = _
        rw [List.append_nil]
        exact hi.placed m'

/-- A message is taken from the queue of a channel. -/
theorem gotMessage (hi : Inv s) {c : ChannelName}
    (h : step s (.gotMessage c) = some s') : Inv s' := by
  rw [step, Option.map_eq_some_iff] at h
  obtain ⟨⟨mux, taken⟩, h, rfl⟩ := h
  rw [ConnectionMultiplexer.gotMessage, Option.map_eq_some_iff] at h
  obtain ⟨q, hc, h⟩ := h
  have hq := hi.mapped c q hc
  cases hqueue : s.queues.getD q [] with
  | nil =>
      rw [hqueue] at h
      obtain ⟨rfl, rfl⟩ := Prod.mk.inj h
      dsimp only
      rwa [Option.toList_none, List.append_nil]
  | cons m rest =>
      rw [hqueue] at h
      obtain ⟨rfl, rfl⟩ := Prod.mk.inj h
      refine ⟨fun c' q' h' => ?_, hi.noneStored, hi.entered, hi.ordered, fun q' => ?_,
        fun put hput => ?_, fun m' => ?_⟩
      · show q' < (s.queues.set q rest).length
        rw [List.length_set]
        exact hi.mapped c' q' h'
      · show ofQueue q' s.delivered =
          ofQueue q' (s.handedOut ++ [(q, m)]) ++ (s.queues.set q rest).getD q' []
        have htaken := ofQueue_map q q' [m]
        rw [List.map_singleton] at htaken
        rw [hi.queue q', ofQueue_append, htaken, List.append_assoc, getD_set hq]
        by_cases h : q = q'
        · rw [if_pos h, if_pos h, ← h, hqueue]
          rfl
        · rw [if_neg h, if_neg h, List.nil_append]
      · show put.1 < (s.queues.set q rest).length
        rw [List.length_set]
        exact hi.bound put hput
      · show (s.delivered.map Prod.snd).count m' = (s.queues.set q rest).flatten.count m' +
          ((s.handedOut ++ [(q, m)]).map Prod.snd).count m'
        have hset := count_flatten_set hq rest m'
        have hplaced := hi.placed m'
        rw [hqueue, show m :: rest = [m] ++ rest from rfl, List.count_append] at hset
        have htaken : ([(q, m)] : List Put).map Prod.snd = [m] := rfl
        rw [List.map_append, List.count_append, htaken]
        omega

/-- A message is sent by a thread of the node. -/
theorem send (hi : Inv s) {m : Message} (h : step s (.send m) = some s') : Inv s' := by
  obtain rfl := Option.some.inj h
  refine ⟨hi.mapped, hi.noneStored, fun m' => ?_, hi.ordered, hi.queue, hi.bound, hi.placed⟩
  show (if m.destinationNode = s.localNodeId then s.entered ++ [m] else s.entered).count m' =
    (waiting (s.toConnectionMultiplexer.send m)).count m' + s.received.count m'
  have hwaiting : waiting (s.toConnectionMultiplexer.send m) =
      waiting s.toConnectionMultiplexer ++
        if m.destinationNode = s.localNodeId then [m] else [] := by
    show ((s.sendMessageQueue ++ [m]).filter fun m => m.destinationNode = s.localNodeId) = _
    rw [List.filter_append, List.filter_singleton]
    by_cases hm : m.destinationNode = s.localNodeId <;> simp [hm, waiting]
  have hold := hi.entered m'
  rw [hwaiting, List.count_append]
  by_cases hm : m.destinationNode = s.localNodeId
  · rw [if_pos hm, if_pos hm, List.count_append]
    omega
  · rw [if_neg hm, if_neg hm, List.count_nil]
    omega

/-- Nothing is put. -/
theorem quiet (hi : Inv { s with toConnectionMultiplexer := mux }) : Inv (s.went (mux, [])) := by
  unfold went
  rwa [List.append_nil]

theorem createChannel (hi : Inv s) {res : ConnectionMultiplexer × List Put}
    (h : s.createChannel = some res) : Inv (s.went res) := by
  obtain ⟨c, rest, -, ⟨-, rfl⟩ | ⟨-, rfl⟩⟩ := createChannel_cases h
  · exact quiet
      ⟨hi.mapped, hi.noneStored, hi.entered, hi.ordered, hi.queue, hi.bound, hi.placed⟩
  · have hi' : Inv { s with newChannelQueue := rest } :=
      ⟨hi.mapped, hi.noneStored, hi.entered, hi.ordered, hi.queue, hi.bound, hi.placed⟩
    refine hi'.newQueue.forward ?_ c
    show s.queues.length < (s.queues ++ [[]]).length
    rw [List.length_append]
    exact Nat.lt_succ_self _

/-- The messages for the node that wait are those behind the first, and the first
if it is for the node. -/
theorem waiting_cons {m : Message} {rest : List Message} (h : s.sendMessageQueue = m :: rest) :
    waiting s.toConnectionMultiplexer =
      (if m.destinationNode = s.localNodeId then [m] else []) ++
        waiting { s.toConnectionMultiplexer with sendMessageQueue := rest } := by
  unfold waiting
  rw [h, List.filter_cons]
  by_cases hm : m.destinationNode = s.localNodeId <;> simp [hm]

theorem sendMessage (hi : Inv s) (h : step s .sendMessage = some s') : Inv s' := by
  rw [step, Option.ite_none_right_eq_some, Option.map_eq_some_iff] at h
  obtain ⟨-, ⟨mux, puts, m⟩, h, rfl⟩ := h
  obtain ⟨rest, hsend, ⟨hm, heq⟩ | ⟨hm, heq⟩⟩ := sendMessage_cases h
  · dsimp only
    rw [heq, if_pos hm]
    -- without the message at the head it is as if it had come in just now
    have hi' : Inv
        { s with
          sendMessageQueue := rest
          entered := waiting { s.toConnectionMultiplexer with sendMessageQueue := rest } ++
            s.received } :=
      ⟨hi.mapped, hi.noneStored, fun m => List.count_append, hi.ordered, hi.queue, hi.bound,
        hi.placed⟩
    refine hi'.deliver m fun m' => ?_
    show s.entered.count m' =
      (waiting { s.toConnectionMultiplexer with sendMessageQueue := rest }).count m' +
        (s.received ++ [m]).count m'
    rw [hi.entered m', waiting_cons hsend, if_pos hm, List.count_append, List.count_append]
    omega
  · dsimp only
    rw [heq, if_neg hm]
    have hentered := hi.entered
    rw [waiting_cons hsend, if_neg hm, List.nil_append] at hentered
    have hi' : Inv { s with sendMessageQueue := rest } :=
      ⟨hi.mapped, hi.noneStored, hentered, hi.ordered, hi.queue, hi.bound, hi.placed⟩
    exact hi'.quiet

theorem linkUnlink (hi : Inv s) {res : ConnectionMultiplexer × List Put}
    (h : s.linkUnlink = some res) : Inv (s.went res) := by
  obtain ⟨rest, ⟨c, main, q, -, hq, rfl⟩ | ⟨c, -, rfl⟩⟩ := linkUnlink_cases h
  · have hi' : Inv { s with linkUnlinkQueue := rest } :=
      ⟨hi.mapped, hi.noneStored, hi.entered, hi.ordered, hi.queue, hi.bound, hi.placed⟩
    exact hi'.forward (hi.mapped main q hq) c
  · -- a channel less exists
    have hold : ∀ c' q, update s.channelResults c none c' = some q →
        s.channelResults c' = some q := fun c' q h => by
      by_cases hc : c' = c
      · rw [hc, update_self] at h
        cases h
      · rwa [update_of_ne hc] at h
    exact quiet ⟨fun c' q h => hi.mapped c' q (hold c' q h),
      fun c' q h => hi.noneStored c' q (hold c' q h), hi.entered, hi.ordered, hi.queue, hi.bound,
      hi.placed⟩

theorem step (hi : Inv s) {e : ChannelEvent} (h : ChannelHistory.step s e = some s') : Inv s' := by
  cases e with
  | newChannel c =>
      obtain rfl := Option.some.inj h
      exact ⟨hi.mapped, hi.noneStored, hi.entered, hi.ordered, hi.queue, hi.bound, hi.placed⟩
  | request r =>
      obtain rfl := Option.some.inj h
      exact ⟨hi.mapped, hi.noneStored, hi.entered, hi.ordered, hi.queue, hi.bound, hi.placed⟩
  | send m => exact hi.send h
  | gotMessage c => exact hi.gotMessage h
  | createChannel =>
      rw [ChannelHistory.step, Option.ite_none_right_eq_some, Option.map_eq_some_iff] at h
      obtain ⟨-, res, h, rfl⟩ := h
      exact hi.createChannel h
  | remoteIn m =>
      rw [ChannelHistory.step, Option.ite_none_right_eq_some] at h
      obtain rfl := Option.some.inj h.2
      refine hi.deliver m fun m' => ?_
      rw [List.count_append, List.count_append, hi.entered m', Nat.add_assoc]
  | sendMessage => exact hi.sendMessage h
  | linkUnlink =>
      rw [ChannelHistory.step, Option.ite_none_right_eq_some, Option.map_eq_some_iff] at h
      obtain ⟨-, res, h, rfl⟩ := h
      exact hi.linkUnlink h

theorem reachable {localNodeId : Nat} (h : (machine localNodeId).Reachable s) : Inv s :=
  h.invariant (inv_init localNodeId) fun _ _ _ _ _ hi hn => hi.step hn

end Inv

/-! ## Where a message is put -/

/-- What a part of the loop put goes to the queues the channels have after it. -/
def PutWhereMapped (res : ConnectionMultiplexer × List Put) : Prop :=
  ∀ put ∈ res.2, res.1.channelResults put.2.destinationChannel = some put.1

theorem putWhereMapped_forward (s : ConnectionMultiplexer) (c : ChannelName) (q : Nat)
    (hstored : ∀ m ∈ s.undeliveredMessages c, m.destinationChannel = c) :
    PutWhereMapped (s.forward c q) := by
  intro put hput
  obtain ⟨m, hm, rfl⟩ := List.mem_map.mp hput
  show update s.channelResults c (some q) m.destinationChannel = some q
  rw [hstored m hm, update_self]

theorem putWhereMapped_deliver (s : ConnectionMultiplexer) (m : Message) :
    PutWhereMapped (s.deliver m) := by
  unfold ConnectionMultiplexer.deliver
  cases hc : s.channelResults m.destinationChannel with
  | some q =>
      intro put hput
      rw [List.mem_singleton.mp hput]
      exact hc
  | none => exact fun put hput => (List.not_mem_nil hput).elim

/-- What a step delivers goes to the queue that the channel of the message has. -/
theorem step_puts {s s' : ChannelHistory} {e : ChannelEvent} (hi : Inv s)
    (h : step s e = some s') : ∃ puts, s'.delivered = s.delivered ++ puts ∧
      ∀ put ∈ puts, s'.channelResults put.2.destinationChannel = some put.1 := by
  have hnothing : s'.delivered = s.delivered → ∃ puts, s'.delivered = s.delivered ++ puts ∧
      ∀ put ∈ puts, s'.channelResults put.2.destinationChannel = some put.1 := fun heq =>
    ⟨[], by rw [heq, List.append_nil], fun put hput => (List.not_mem_nil hput).elim⟩
  cases e with
  | newChannel c =>
      obtain rfl := Option.some.inj h
      exact hnothing rfl
  | request r =>
      obtain rfl := Option.some.inj h
      exact hnothing rfl
  | send m =>
      obtain rfl := Option.some.inj h
      exact hnothing rfl
  | gotMessage c =>
      rw [step, Option.map_eq_some_iff] at h
      obtain ⟨_, -, rfl⟩ := h
      exact hnothing rfl
  | createChannel =>
      rw [step, Option.ite_none_right_eq_some, Option.map_eq_some_iff] at h
      obtain ⟨-, res, h, rfl⟩ := h
      refine ⟨res.2, rfl, ?_⟩
      obtain ⟨c, rest, -, ⟨-, rfl⟩ | ⟨-, rfl⟩⟩ := createChannel_cases h
      · exact fun put hput => (List.not_mem_nil hput).elim
      · exact putWhereMapped_forward _ _ _ fun m hm => hi.stored hm
  | remoteIn m =>
      rw [step, Option.ite_none_right_eq_some] at h
      obtain rfl := Option.some.inj h.2
      exact ⟨_, rfl, putWhereMapped_deliver _ m⟩
  | sendMessage =>
      rw [step, Option.ite_none_right_eq_some, Option.map_eq_some_iff] at h
      obtain ⟨-, ⟨mux, puts, m⟩, h, rfl⟩ := h
      refine ⟨puts, rfl, ?_⟩
      obtain ⟨rest, -, ⟨-, heq⟩ | ⟨-, heq⟩⟩ := sendMessage_cases h
      · obtain ⟨rfl, rfl⟩ := Prod.mk.inj heq
        exact putWhereMapped_deliver _ _
      · obtain ⟨rfl, rfl⟩ := Prod.mk.inj heq
        exact fun put hput => (List.not_mem_nil hput).elim
  | linkUnlink =>
      rw [step, Option.ite_none_right_eq_some, Option.map_eq_some_iff] at h
      obtain ⟨-, res, h, rfl⟩ := h
      refine ⟨res.2, rfl, ?_⟩
      obtain ⟨rest, ⟨c, main, q, -, -, rfl⟩ | ⟨c, -, rfl⟩⟩ := linkUnlink_cases h
      · exact putWhereMapped_forward _ _ _ fun m hm => hi.stored hm
      · exact fun put hput => (List.not_mem_nil hput).elim

/-- Whatever happens, each message that entered is in one place: it waits to be
sent, is kept under the name of its channel, stands in a queue, or was handed out.
A queue holds what was put in it and not handed out, in order; the messages for a
channel were put in queues in the order they were received, those that are kept
coming last, and none is kept for a channel that exists; and a message is put in
the queue that its channel has then. -/
theorem delivered_once {localNodeId : Nat} {s : ChannelHistory}
    (h : (machine localNodeId).Reachable s) :
    (∀ m, s.entered.count m = (waiting s.toConnectionMultiplexer).count m +
      (s.undeliveredMessages m.destinationChannel).count m + s.queues.flatten.count m +
      (s.handedOut.map Prod.snd).count m) ∧
    (∀ c, ∀ m ∈ s.undeliveredMessages c, m.destinationChannel = c) ∧
    (∀ q, ofQueue q s.delivered = ofQueue q s.handedOut ++ s.queues.getD q []) ∧
    (∀ c, forChannel c s.received =
      forChannel c (s.delivered.map Prod.snd) ++ s.undeliveredMessages c) ∧
    (∀ c, s.channelResults c ≠ none → s.undeliveredMessages c = []) ∧
    ∀ e s', step s e = some s' → ∃ puts, s'.delivered = s.delivered ++ puts ∧
      ∀ put ∈ puts, s'.channelResults put.2.destinationChannel = some put.1 := by
  have hi := Inv.reachable h
  refine ⟨fun m => ?_, fun c m hm => hi.stored hm, hi.queue, hi.ordered, fun c hc => ?_,
    fun e s' he => step_puts hi he⟩
  · have hcount : ∀ l : List Message, (forChannel m.destinationChannel l).count m = l.count m :=
      fun l => List.count_filter (decide_eq_true rfl)
    have hordered := congrArg (List.count m) (hi.ordered m.destinationChannel)
    rw [List.count_append, hcount, hcount] at hordered
    have hentered := hi.entered m
    have hplaced := hi.placed m
    omega
  · obtain ⟨q, hq⟩ := Option.ne_none_iff_exists'.mp hc
    exact hi.noneStored c q hq

/-- Messages for a channel before it is linked, while it is, and after it was
unlinked. -/
theorem delivered_once_linked : ∃ s : ChannelHistory,
    s.handedOut = [(0, ⟨1, "7_0", [1]⟩)] ∧ s.queues = [[⟨1, "7_0", [2]⟩, ⟨1, "7_0", [3]⟩]] ∧
      s.undeliveredMessages "7_0" = [⟨1, "7_0", [4]⟩] ∧
      (∀ m, s.entered.count m = (waiting s.toConnectionMultiplexer).count m +
        (s.undeliveredMessages m.destinationChannel).count m + s.queues.flatten.count m +
        (s.handedOut.map Prod.snd).count m) ∧
      forChannel "7_0" s.received =
        forChannel "7_0" (s.delivered.map Prod.snd) ++ s.undeliveredMessages "7_0" := by
  obtain ⟨s, hs, hhanded, hqueues, hkept⟩ := Machine.exists_of_trace (m := machine 1)
    (P := fun s => s.handedOut = [(0, ⟨1, "7_0", [1]⟩)] ∧
      s.queues = [[⟨1, "7_0", [2]⟩, ⟨1, "7_0", [3]⟩]] ∧
      s.undeliveredMessages "7_0" = [⟨1, "7_0", [4]⟩])
    [.send ⟨1, "7_0", [1]⟩, .sendMessage, .newChannel "worker", .createChannel,
      .request (.linkChannel "7_0" "worker"), .remoteIn ⟨1, "7_0", [2]⟩, .linkUnlink,
      .remoteIn ⟨1, "7_0", [3]⟩, .gotMessage "worker", .request (.unlinkChannel "7_0"),
      .linkUnlink, .remoteIn ⟨1, "7_0", [4]⟩] (by decide)
  obtain ⟨hplace, -, -, hordered, -⟩ := delivered_once hs
  exact ⟨s, hhanded, hqueues, hkept, hplace, hordered "7_0"⟩


end ChannelHistory

end Calvin
