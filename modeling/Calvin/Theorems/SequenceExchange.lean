import Calvin.Lib.Links
import Calvin.Log.LocalPaxosHandOver

/-!
# The exchange of local sequences between replicas

The leaders of all replicas with reliable FIFO links between them. Every
sequence a leader proposes reaches the order of every other replica once and in
proposal order, whether it travels by `NEW_SEQUENCE` or, to the closed replica
of a strong leader, by `SYNCHRONIZE`.

* `Inv.exchanged`: what an origin has handed over to a replica is ordered
  there, or pending there, or on the link, in this order;
* `streams_exchange`: the orders of a replica are numbered 1, 2, 3, ..., and
  those of each origin are a prefix of what the origin proposed.
-/

namespace Calvin.LocalPaxos.SequenceExchange

open Function Lib

/-- A deployment; `RunLeaderStrong` pairs the replicas of six. -/
structure Topology where
  replicas : Nat
  strong : Bool
  paired : strong = true → replicas = 6
  participants : Nat → Nat
  leaderNode : Nat → Nat
  allNodes : Nat

def Topology.config (top : Topology) (r : Nat) : Config where
  localReplica := r
  replicas := top.replicas
  participants := top.participants r
  strong := top.strong
  localNodeId := top.leaderNode r
  allNodes := top.allNodes

structure Cluster where
  leaders : Nat → Leader := fun _ => {}
  /-- Sent from one leader to another and not yet read. -/
  link : Nat → Nat → List LogMessage := fun _ _ => []
  /-- History: the `PAXOS_BATCH_ORDER`s of a replica. -/
  stream : Nat → List (Nat × Sequence × Nat) := fun _ => []
  /-- History: the local sequences a leader has proposed. -/
  proposed : Nat → List Sequence := fun _ => []

inductive Event
  /-- A step of a leader that reads no message. -/
  | step (r : Nat) (e : LocalPaxos.Event)
  /-- A `MR_TXNS_BATCH` from a sequencer. -/
  | batch (r batchNumber : Nat) (data : List TxnProto)
  /-- A leader reads the oldest message of another. -/
  | deliver (o r : Nat)
deriving DecidableEq, Repr

/-- A leader has moved, with the given links left. -/
def Cluster.move (s : Cluster) (link : Nat → Nat → List LogMessage) (r : Nat) (leader : Leader)
    (outs : List Output) : Cluster where
  leaders := update s.leaders r leader
  link := fun o t => if o = r then link o t ++ sentTo t outs else link o t
  stream := update s.stream r (s.stream r ++ orders outs)
  proposed := update s.proposed r (s.proposed r ++ ownProposals outs)

def machine (top : Topology) : Machine Cluster Event where
  init := {}
  next s
    | .step r e =>
        if r < top.replicas ∧ e.received = none then
          ((s.leaders r).step (top.config r) e).map fun (l, outs) => s.move s.link r l outs
        else none
    | .batch r batchNumber data =>
        if r < top.replicas then
          ((s.leaders r).step (top.config r) (.receive (.mrTxnsBatch batchNumber data))).map
            fun (l, outs) => s.move s.link r l outs
        else none
    | .deliver o r =>
        match s.link o r with
        | [] => none
        | message :: rest =>
            if r < top.replicas then
              ((s.leaders r).step (top.config r) (.receive message)).map fun (l, outs) =>
                s.move (update s.link o (update (s.link o) r rest)) r l outs
            else none

/-- The sequences of an origin among the orders of a replica. -/
def Cluster.from (s : Cluster) (o r : Nat) : List Sequence :=
  only o ((s.stream r).map Prod.snd)

/-! ## Invariant -/

/-- What the links carry. -/
def Carries (top : Topology) (s : Cluster) (o r : Nat) (message : LogMessage) : Prop :=
  o ≠ r ∧ o < top.replicas ∧ match message with
  | .newSequence fromReplica latest _ =>
      fromReplica = o ∧ (top.config o).Open r ∧
        latest ≤ ((s.leaders o).view.readers r).position
  | .newSequenceAck fromReplica acked =>
      fromReplica = o ∧ (top.config r).Open o ∧
        acked ≤ ((s.leaders r).view.readers o).position
  | .synchronize fromReplica _ => fromReplica = o ∧ (top.config o).Closed r
  | .mrTxnsBatch .. => False
  | .synchronizeAck | .paxosCommit _ => True

structure Inv (top : Topology) (s : Cluster) : Prop where
  wf : ∀ r, (s.leaders r).view.Wf (top.config r)
  numbered : ∀ r, Numbered (s.leaders r) ((s.stream r).map Prod.fst)
  /-- Own sequences: proposed, then ordered, then logged. -/
  own : ∀ r, s.from r r ++ (s.leaders r).view.own = s.proposed r
  logged : ∀ r, (s.leaders r).view.localLog.sequences ++ (s.leaders r).view.waiting = s.from r r
  carries : ∀ o r, ∀ m ∈ s.link o r, Carries top s o r m
  /-- Sequences of others: handed over, then ordered. -/
  handed : ∀ o r, (top.config o).Open r →
    s.from o r ++ only o (s.leaders r).view.pending ++ payload (s.link o r) =
      (s.leaders o).view.handed r
  closed : ∀ o r, (top.config o).Closed r →
    s.from o r ++ only o (s.leaders r).view.pending ++ payload (s.link o r) = s.from o o

theorem inv_init (top : Topology) : Inv top {} where
  wf r := View.Wf.init (top.config r)
  numbered _ := Numbered.init
  own _ := rfl
  logged _ := rfl
  carries _ _ _ h := (List.not_mem_nil h).elim
  handed _ _ _ := rfl
  closed _ _ _ := rfl

/-- Among the six replicas of a strong deployment being closed is mutual. -/
theorem open_symm {top : Topology} {o r : Nat} (ho : o < top.replicas) (hr : r < top.replicas)
    (h : (top.config o).Open r) : (top.config r).Open o := by
  refine ⟨fun heq => h.1 heq.symm, fun ⟨hstrong, hclosed⟩ => h.2 ⟨hstrong, ?_⟩⟩
  have hsix := top.paired hstrong
  change o = closedReplica r at hclosed
  change r = closedReplica o
  unfold closedReplica at hclosed ⊢
  split at hclosed <;> split <;> omega

/-- Messages on a link are acceptable to its reader. -/
theorem Carries.accepts {top : Topology} {s : Cluster} {o r : Nat} {m : LogMessage}
    (hr : r < top.replicas) (h : Carries top s o r m) :
    Accepts (top.config r) (s.leaders r).view m := by
  obtain ⟨hne, ho, h⟩ := h
  cases m with
  | newSequence fromReplica latest data =>
      obtain ⟨rfl, hopen, -⟩ := h
      exact open_symm ho hr hopen
  | newSequenceAck fromReplica acked =>
      obtain ⟨rfl, hopen, hle⟩ := h
      exact ⟨hopen, hle⟩
  | synchronize fromReplica data =>
      obtain ⟨rfl, -⟩ := h
      exact hne
  | mrTxnsBatch | synchronizeAck | paxosCommit => trivial

/-- Messages on a link hand over sequences of its origin. -/
theorem Carries.sequences {top : Topology} {s : Cluster} {o r : Nat} {m : LogMessage}
    (h : Carries top s o r m) (o' : Nat) :
    only o' m.sequences = if o' = o then m.sequences.map Prod.fst else [] := by
  obtain ⟨-, -, h⟩ := h
  cases m with
  | newSequence fromReplica latest data =>
      obtain ⟨rfl, -⟩ := h
      by_cases heq : o' = fromReplica
      · subst heq
        simp [LogMessage.sequences, only_map_same, Function.comp_def]
      · rw [if_neg heq]
        refine only_of_ne fun p hp => ?_
        obtain ⟨_, -, rfl⟩ := List.mem_map.mp hp
        exact fun h => heq h.symm
  | synchronize fromReplica data =>
      obtain ⟨rfl, -⟩ := h
      by_cases heq : o' = fromReplica <;> simp [LogMessage.sequences, heq, eq_comm]
  | mrTxnsBatch | newSequenceAck | synchronizeAck | paxosCommit =>
      simp [LogMessage.sequences]

/-- How the links stand after a leader has taken what it reads. -/
structure Taken (top : Topology) (s : Cluster) (r : Nat) (received : Option LogMessage)
    (link : Nat → Nat → List LogMessage) : Prop where
  sub : ∀ o t, ∀ m ∈ link o t, m ∈ s.link o t
  others : ∀ o t, t ≠ r → link o t = s.link o t
  payload : ∀ o, payload (s.link o r) =
    only o (received.elim [] LogMessage.sequences) ++ payload (link o r)
  from_link : ∀ t acked data, received = some (.newSequence t acked data) →
    Carries top s t r (.newSequence t acked data)

section

variable {top : Topology} {s : Cluster} {r : Nat} {l : Leader} {outs : List Output}
  {received : Option LogMessage} {link : Nat → Nat → List LogMessage}

theorem move_leaders_of_ne {o : Nat} (h : o ≠ r) :
    (s.move link r l outs).leaders o = s.leaders o := update_of_ne h ..

theorem move_leaders_self : (s.move link r l outs).leaders r = l := update_self ..

theorem move_from_of_ne {o t : Nat} (h : t ≠ r) :
    (s.move link r l outs).from o t = s.from o t := by
  simp [Cluster.from, Cluster.move, h]

theorem move_from_self {o : Nat} :
    (s.move link r l outs).from o r = s.from o r ++ only o (ordered outs) := by
  simp [Cluster.from, Cluster.move, ordered]

theorem move_link_of_ne {o t : Nat} (h : o ≠ r) : (s.move link r l outs).link o t = link o t :=
  if_neg h

theorem move_link_self {t : Nat} :
    (s.move link r l outs).link r t = link r t ++ sentTo t outs :=
  if_pos rfl

/-- A leader that meets its contract only moves its readers on. -/
theorem readers_move (he : Exchanges (top.config r) (s.leaders r).view received l.view outs)
    (o t : Nat) : ((s.leaders o).view.readers t).position ≤
      (((s.move link r l outs).leaders o).view.readers t).position := by
  by_cases h : o = r
  · subst h
    rw [move_leaders_self]
    exact he.position t
  · rw [move_leaders_of_ne h]

/-- What a link carries stays so when a leader moves. -/
theorem Carries.move {o t : Nat} {m : LogMessage} (h : Carries top s o t m)
    (he : Exchanges (top.config r) (s.leaders r).view received l.view outs) :
    Carries top (s.move link r l outs) o t m := by
  obtain ⟨hne, ho, h⟩ := h
  refine ⟨hne, ho, ?_⟩
  cases m with
  | newSequence fromReplica latest data =>
      exact ⟨h.1, h.2.1, h.2.2.trans (readers_move he o t)⟩
  | newSequenceAck fromReplica acked =>
      exact ⟨h.1, h.2.1, h.2.2.trans (readers_move he t o)⟩
  | synchronize fromReplica data => exact h
  | mrTxnsBatch | synchronizeAck | paxosCommit => trivial

/-- What a leader sends may travel. -/
theorem carries_sent (hr : r < top.replicas) (ht : Taken top s r received link)
    (he : Exchanges (top.config r) (s.leaders r).view received l.view outs) {t : Nat}
    {m : LogMessage} (hm : m ∈ sentTo t outs) :
    Carries top (s.move link r l outs) r t m := by
  obtain ⟨hne, hs⟩ := he.sends t m hm
  refine ⟨Ne.symm hne, hr, ?_⟩
  cases m with
  | newSequence fromReplica latest data =>
      rw [move_leaders_self]
      exact hs
  | newSequenceAck fromReplica acked =>
      -- the ack repeats the version of a message that came from there
      obtain ⟨hfrom, data, hreceived⟩ := hs
      obtain ⟨-, -, -, hopen, hle⟩ := ht.from_link t acked data hreceived
      exact ⟨hfrom, hopen, hle.trans (readers_move he t r)⟩
  | synchronize fromReplica data => exact hs
  | mrTxnsBatch | synchronizeAck | paxosCommit => trivial

/-- The left side of the exchange equations under a move of the reader. -/
theorem exchanged_reader (ht : Taken top s r received link)
    (he : Exchanges (top.config r) (s.leaders r).view received l.view outs) {o : Nat}
    (ho : o ≠ r) :
    (s.move link r l outs).from o r ++
        only o ((s.move link r l outs).leaders r).view.pending ++
        payload ((s.move link r l outs).link o r) =
      s.from o r ++ only o (s.leaders r).view.pending ++ payload (s.link o r) := by
  have hremote := he.remote o ho
  rw [move_from_self, move_leaders_self, move_link_of_ne ho, ht.payload o, List.append_assoc,
    List.append_assoc, ← List.append_assoc (only o (ordered outs)), hremote]
  simp only [List.append_assoc]

/-- The left side of the exchange equations under a move of the sender. -/
theorem exchanged_sender (ht : Taken top s r received link) {t : Nat} (hne : t ≠ r) :
    (s.move link r l outs).from r t ++
        only r ((s.move link r l outs).leaders t).view.pending ++
        payload ((s.move link r l outs).link r t) =
      s.from r t ++ only r (s.leaders t).view.pending ++ payload (s.link r t) ++
        payload (sentTo t outs) := by
  rw [move_from_of_ne hne, move_leaders_of_ne hne, move_link_self, ht.others r t hne,
    payload_append, List.append_assoc _ (payload _)]

/-- The left side of the exchange equations for two other leaders. -/
theorem exchanged_others (ht : Taken top s r received link) {o t : Nat} (ho : o ≠ r)
    (hne : t ≠ r) :
    (s.move link r l outs).from o t ++
        only o ((s.move link r l outs).leaders t).view.pending ++
        payload ((s.move link r l outs).link o t) =
      s.from o t ++ only o (s.leaders t).view.pending ++ payload (s.link o t) := by
  rw [move_from_of_ne hne, move_leaders_of_ne hne, move_link_of_ne ho, ht.others o t hne]

/-- A leader that meets its contract keeps the invariant of the cluster. -/
theorem Inv.move (hi : Inv top s) (hr : r < top.replicas) (ht : Taken top s r received link)
    (he : Exchanges (top.config r) (s.leaders r).view received l.view outs)
    (hn : Numbered l ((s.stream r).map Prod.fst ++ (orders outs).map Prod.fst)) :
    Inv top (s.move link r l outs) := by
  refine ⟨fun t => ?_, fun t => ?_, fun t => ?_, fun t => ?_, fun o t m hm => ?_,
    fun o t hopen => ?_, fun o t hclosed => ?_⟩
  · by_cases h : t = r
    · subst h
      rw [move_leaders_self]
      exact he.wf
    · rw [move_leaders_of_ne h]
      exact hi.wf t
  · by_cases h : t = r
    · subst h
      rw [move_leaders_self]
      simpa [Cluster.move] using hn
    · rw [move_leaders_of_ne h]
      simpa [Cluster.move, h] using hi.numbered t
  · by_cases h : t = r
    · subst h
      have hown : only t (ordered outs) ++ l.view.own =
          (s.leaders t).view.own ++ ownProposals outs := he.own
      rw [move_leaders_self, move_from_self, List.append_assoc, hown, ← List.append_assoc, hi.own]
      simp [Cluster.move]
    · rw [move_leaders_of_ne h, move_from_of_ne h, hi.own]
      simp [Cluster.move, h]
  · by_cases h : t = r
    · subst h
      have hlogged : l.view.localLog.sequences ++ l.view.waiting =
          (s.leaders t).view.localLog.sequences ++ (s.leaders t).view.waiting ++
            only t (ordered outs) := he.logged
      rw [move_leaders_self, move_from_self, hlogged, hi.logged]
    · rw [move_leaders_of_ne h, move_from_of_ne h, hi.logged]
  · by_cases h : o = r
    · subst h
      rw [move_link_self, List.mem_append] at hm
      rcases hm with hm | hm
      · exact (hi.carries o t m (ht.sub o t m hm)).move he
      · exact carries_sent hr ht he hm
    · rw [move_link_of_ne h] at hm
      exact (hi.carries o t m (ht.sub o t m hm)).move he
  · have hne : t ≠ o := hopen.1
    by_cases ho : o = r
    · subst ho
      rw [exchanged_sender ht hne, hi.handed o t hopen, move_leaders_self]
      exact (he.handed t hopen).symm
    · rw [move_leaders_of_ne ho]
      by_cases h : t = r
      · subst h
        rw [exchanged_reader ht he ho, hi.handed o t hopen]
      · rw [exchanged_others ht ho h, hi.handed o t hopen]
  · have hne : t ≠ o := hclosed.2 ▸ closedReplica_ne o
    by_cases ho : o = r
    · subst ho
      rw [exchanged_sender ht hne, hi.closed o t hclosed, move_from_self]
      exact congrArg _ (he.closed t hclosed)
    · rw [move_from_of_ne ho]
      by_cases h : t = r
      · subst h
        rw [exchanged_reader ht he ho, hi.closed o t hclosed]
      · rw [exchanged_others ht ho h, hi.closed o t hclosed]

end

/-- A leader's step from the links as they are left. -/
theorem Inv.step {top : Topology} {s : Cluster} {r : Nat} {e : LocalPaxos.Event} {l : Leader}
    {outs : List Output} {link : Nat → Nat → List LogMessage} (hi : Inv top s)
    (hr : r < top.replicas) (ht : Taken top s r e.received link)
    (ha : ∀ m ∈ e.received, Accepts (top.config r) (s.leaders r).view m)
    (h : (s.leaders r).step (top.config r) e = some (l, outs)) :
    Inv top (s.move link r l outs) :=
  hi.move hr ht ((Leader.effect h).exchanges (hi.wf r) ha) ((hi.numbered r).step h)

theorem inv_step {top : Topology} {s s' : Cluster} {e : Event} (hi : Inv top s)
    (h : (machine top).next s e = some s') : Inv top s' := by
  cases e with
  | step r e =>
      simp only [machine, Option.ite_none_right_eq_some, Option.map_eq_some_iff] at h
      obtain ⟨⟨hr, hnone⟩, ⟨l, outs⟩, hs, rfl⟩ := h
      refine hi.step hr ⟨fun _ _ _ hm => hm, fun _ _ _ => rfl, ?_, ?_⟩ ?_ hs
      · simp [hnone]
      · simp [hnone]
      · simp [hnone]
  | batch r batchNumber data =>
      simp only [machine, Option.ite_none_right_eq_some, Option.map_eq_some_iff] at h
      obtain ⟨hr, ⟨l, outs⟩, hs, rfl⟩ := h
      refine hi.step hr ⟨fun _ _ _ hm => hm, fun _ _ _ => rfl, ?_, ?_⟩ ?_ hs
      · intro o
        rfl
      · intro t acked d heq
        cases heq
      · rintro m ⟨⟩
        trivial
  | deliver o r =>
      simp only [machine] at h
      split at h
      · cases h
      · rename_i message rest hlink
        simp only [Option.ite_none_right_eq_some, Option.map_eq_some_iff] at h
        obtain ⟨hr, ⟨l, outs⟩, hs, rfl⟩ := h
        have hc : Carries top s o r message :=
          hi.carries o r message (by rw [hlink]; exact List.mem_cons_self)
        refine hi.step hr ⟨?_, ?_, ?_, ?_⟩ ?_ hs
        · intro o' t m hm
          by_cases hread : o' = o ∧ t = r
          · obtain ⟨rfl, rfl⟩ := hread
            rw [update_link_self] at hm
            rw [hlink]
            exact List.mem_cons_of_mem _ hm
          · rwa [update_link_of_ne hread] at hm
        · intro o' t ht
          rw [update_link_of_ne fun hread => ht hread.2]
        · intro o'
          show payload (s.link o' r) = only o' message.sequences ++ _
          rw [hc.sequences]
          by_cases ho : o' = o
          · subst ho
            rw [update_link_self, hlink, payload_cons, if_pos rfl]
          · rw [update_link_of_ne fun hread => ho hread.1, if_neg ho, List.nil_append]
        · intro t acked data heq
          cases heq
          rw [← hc.2.2.1] at hc
          exact hc
        · rintro m ⟨⟩
          exact hc.accepts hr

theorem inv_of_reachable {top : Topology} {s : Cluster} (h : (machine top).Reachable s) :
    Inv top s :=
  h.invariant (inv_init top) fun _ _ _ _ _ hi hn => inv_step hi hn

/-! ## Main results -/

/-- At every replica the orders are numbered 1, 2, 3, ..., and for each origin
the sequences among them are a prefix of what the origin proposed. -/
theorem streams_exchange (top : Topology) (s : Cluster) (h : (machine top).Reachable s) (r : Nat) :
    (s.stream r).map Prod.fst = List.range' 1 (s.stream r).length ∧
      ∀ o, s.from o r <+: s.proposed o := by
  have hi := inv_of_reachable h
  refine ⟨by simpa using (hi.numbered r).consecutive, fun o => ?_⟩
  have hown : s.from o o <+: s.proposed o := ⟨_, hi.own o⟩
  by_cases ho : r = o
  · subst ho
    exact hown
  · by_cases hc : (top.config o).Closed r
    · have hclosed := hi.closed o r hc
      rw [List.append_assoc] at hclosed
      exact List.IsPrefix.trans ⟨_, hclosed⟩ hown
    · have hhanded := hi.handed o r ⟨ho, hc⟩
      rw [List.append_assoc] at hhanded
      have hlog : (s.leaders o).view.handed r <+: (s.leaders o).view.localLog.sequences :=
        List.take_prefix ..
      have hlogged : (s.leaders o).view.localLog.sequences <+: s.from o o := ⟨_, hi.logged o⟩
      exact List.IsPrefix.trans ⟨_, hhanded⟩ (hlog.trans (hlogged.trans hown))

/-- Two replicas: a sequence of replica 0 is ordered at replica 1, once the
multi-replica transactions of its batch are there. -/
theorem streams_exchange_handed :
    ∃ s : Cluster, s.stream 1 = [(1, [1001], 0)] ∧ s.from 0 1 <+: s.proposed 0 := by
  let top : Topology :=
    { replicas := 2, strong := false, paired := nofun, participants := fun _ => 1
      leaderNode := id, allNodes := 2 }
  obtain ⟨s, hr, hs⟩ := Machine.exists_of_trace (m := machine top)
    (P := fun s => s.stream 1 = [(1, [1001], 0)])
    [.step 0 (.append 1001), .step 0 .pick, .step 0 .finish, .deliver 0 1, .step 1 .pick,
      .batch 1 1001 [], .step 1 .generate, .step 1 .generate, .step 1 .finish]
    (by decide)
  exact ⟨s, hs, (streams_exchange top s hr 1).2 0⟩

end Calvin.LocalPaxos.SequenceExchange
