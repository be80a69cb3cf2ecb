import Calvin.Lib.Links
import Calvin.Log.LocalPaxosSynchronize
import Calvin.Theorems.SequenceExchange

/-!
# Strong availability before propagation

The strong leaders of all replicas, with links that lose nothing but may reorder.
A local sequence is in the local log of its leader, and goes to other replicas,
only after the closed replica has it.

* `Inv.tokens`: a sequence waits exactly while its `SYNCHRONIZE`, the ack of it
  or the note of that ack is there;
* `available_before_logged`: what is logged has been received.
-/

namespace Calvin.LocalPaxos.StrongAvailability

open Function Lib

open SequenceExchange (Topology)

structure Cluster where
  leaders : Nat → Leader := fun _ => {}
  /-- Sent from one leader to another and not yet read. -/
  link : Nat → Nat → List LogMessage := fun _ _ => []
  /-- History: the `SYNCHRONIZE`s a leader has received from another. -/
  synchronized : Nat → Nat → List Sequence := fun _ _ => []

inductive Event
  /-- A step of a leader that reads no message. -/
  | step (r : Nat) (e : LocalPaxos.Event)
  /-- A `MR_TXNS_BATCH` from a sequencer. -/
  | batch (r batchNumber : Nat) (data : List TxnProto)
  /-- A leader reads any message of another. -/
  | deliver (o r i : Nat)
deriving DecidableEq, Repr

/-- A leader has moved, with the given links left. -/
def Cluster.move (s : Cluster) (link : Nat → Nat → List LogMessage)
    (synchronized : Nat → Nat → List Sequence) (r : Nat) (leader : Leader) (outs : List Output) :
    Cluster where
  leaders := update s.leaders r leader
  link := fun o t => if o = r then link o t ++ sentTo t outs else link o t
  synchronized

def machine (top : Topology) : Machine Cluster Event where
  init := {}
  next s
    | .step r e =>
        if r < top.replicas ∧ e.received = none then
          ((s.leaders r).step (top.config r) e).map fun (l, outs) =>
            s.move s.link s.synchronized r l outs
        else none
    | .batch r batchNumber data =>
        if r < top.replicas then
          ((s.leaders r).step (top.config r) (.receive (.mrTxnsBatch batchNumber data))).map
            fun (l, outs) => s.move s.link s.synchronized r l outs
        else none
    | .deliver o r i =>
        (s.link o r)[i]?.bind fun message =>
          if r < top.replicas then
            ((s.leaders r).step (top.config r) (.receive message)).map fun (l, outs) =>
              s.move (update s.link o (update (s.link o) r ((s.link o r).eraseIdx i)))
                (update s.synchronized o (update (s.synchronized o) r
                  (s.synchronized o r ++ synchronizes [message]))) r l outs
          else none

/-! ## Invariant -/

/-- What the links carry. -/
def Carries (top : Topology) (s : Cluster) (o r : Nat) : LogMessage → Prop
  | .newSequence _ _ data => ∀ encoded ∈ data, encoded ∈ (s.leaders o).localLog.sequences
  | .synchronize fromReplica _ => fromReplica = o ∧ r = closedReplica o ∧ o < top.replicas
  | .synchronizeAck => o = closedReplica r ∧ r < top.replicas
  | .mrTxnsBatch .. | .newSequenceAck .. | .paxosCommit _ => True

structure Inv (top : Topology) (s : Cluster) : Prop where
  carries : ∀ o r, ∀ m ∈ s.link o r, Carries top s o r m
  /-- What has gone to the closed replica is logged or waits. -/
  data : ∀ o < top.replicas, s.synchronized o (closedReplica o) ++
      synchronizes (s.link o (closedReplica o)) =
    (s.leaders o).localLog.sequences ++ (s.leaders o).pc.waiting.toList
  tokens : ∀ o < top.replicas, (synchronizes (s.link o (closedReplica o))).length +
      (s.link (closedReplica o) o).count .synchronizeAck +
      (s.leaders o).receivedSynchronizeAck.toNat =
    (s.leaders o).pc.waiting.toList.length

theorem inv_init (top : Topology) : Inv top {} where
  carries _ _ _ h := absurd h List.not_mem_nil
  data _ _ := rfl
  tokens _ _ := rfl

theorem waiting_le_one (o : Option Sequence) : o.toList.length ≤ 1 := by
  cases o with
  | none => exact Nat.zero_le 1
  | some encoded => exact Nat.le_refl 1

/-- How the links stand after a leader has taken what it reads. -/
structure Taken (top : Topology) (s : Cluster) (r : Nat) (received : Option LogMessage)
    (link : Nat → Nat → List LogMessage) (synchronized : Nat → Nat → List Sequence) : Prop where
  sub : ∀ o t, ∀ m ∈ link o t, m ∈ s.link o t
  data : ∀ o < top.replicas,
    synchronized o (closedReplica o) ++ synchronizes (link o (closedReplica o)) =
      s.synchronized o (closedReplica o) ++ synchronizes (s.link o (closedReplica o))
  syncs : ∀ o < top.replicas, (synchronizes (s.link o (closedReplica o))).length =
    (synchronizes (link o (closedReplica o))).length +
      if closedReplica o = r then acksTo o received else 0
  acks : ∀ o < top.replicas, (s.link (closedReplica o) o).count .synchronizeAck =
    (link (closedReplica o) o).count .synchronizeAck +
      if o = r then received.toList.count .synchronizeAck else 0
  from_link : ∀ t data, received = some (.synchronize t data) →
    r = closedReplica t ∧ t < top.replicas

section

variable {top : Topology} {s : Cluster} {r : Nat} {l : Leader} {outs : List Output}
  {received : Option LogMessage} {link : Nat → Nat → List LogMessage}
  {synchronized : Nat → Nat → List Sequence}

theorem move_leaders_of_ne {o : Nat} (h : o ≠ r) :
    (s.move link synchronized r l outs).leaders o = s.leaders o := update_of_ne h ..

theorem move_leaders_self : (s.move link synchronized r l outs).leaders r = l := update_self ..

theorem move_link_of_ne {o t : Nat} (h : o ≠ r) :
    (s.move link synchronized r l outs).link o t = link o t := if_neg h

theorem move_link_self {t : Nat} :
    (s.move link synchronized r l outs).link r t = link r t ++ sentTo t outs := if_pos rfl

theorem Carries.move {o t : Nat} {m : LogMessage} (h : Carries top s o t m)
    (hgrows : (s.leaders r).localLog.sequences <+: l.localLog.sequences) :
    Carries top (s.move link synchronized r l outs) o t m := by
  cases m with
  | newSequence fromReplica latest data =>
      intro encoded he
      by_cases ho : o = r
      · subst ho
        rw [move_leaders_self]
        exact hgrows.subset (h encoded he)
      · rw [move_leaders_of_ne ho]
        exact h encoded he
  | synchronize fromReplica data => exact h
  | synchronizeAck => exact h
  | mrTxnsBatch | newSequenceAck | paxosCommit => trivial

/-- A leader that keeps to its contract keeps the invariant of the cluster. -/
theorem Inv.move (hi : Inv top s) (hr : r < top.replicas)
    (ht : Taken top s r received link synchronized)
    (he : Synchronizes (top.config r) received (s.leaders r) l outs) :
    Inv top (s.move link synchronized r l outs) := by
  refine ⟨fun o t m hm => ?_, fun o ho => ?_, fun o ho => ?_⟩
  · by_cases h : o = r
    · subst h
      rw [move_link_self, List.mem_append] at hm
      rcases hm with hm | hm
      · exact (hi.carries o t m (ht.sub o t m hm)).move he.grows
      · have hreply := he.sends t m hm
        cases m with
        | newSequence fromReplica latest data =>
            intro encoded hencoded
            rw [move_leaders_self]
            exact hreply encoded hencoded
        | synchronize fromReplica data => exact ⟨hreply.1, hreply.2, hr⟩
        | synchronizeAck =>
            obtain ⟨data, hreceived⟩ := hreply
            exact ht.from_link t data hreceived
        | mrTxnsBatch | newSequenceAck | paxosCommit => trivial
    · rw [move_link_of_ne h] at hm
      exact (hi.carries o t m (ht.sub o t m hm)).move he.grows
  · by_cases h : o = r
    · subst h
      have hlogged : l.localLog.sequences ++ l.pc.waiting.toList =
          (s.leaders o).localLog.sequences ++ (s.leaders o).pc.waiting.toList ++
            synchronizes (sentTo (closedReplica o) outs) := he.logged
      rw [move_leaders_self, move_link_self, synchronizes_append, hlogged, ← hi.data o ho,
        ← ht.data o ho, List.append_assoc]
      rfl
    · rw [move_leaders_of_ne h, move_link_of_ne h, ← hi.data o ho, ← ht.data o ho]
      rfl
  · have htokens := hi.tokens o ho
    have hsyncs := ht.syncs o ho
    have hacks := ht.acks o ho
    by_cases h : o = r
    · subst h
      have hnoted : l.receivedSynchronizeAck.toNat + (s.leaders o).pc.waiting.toList.length +
            (synchronizes (sentTo (closedReplica o) outs)).length =
          (s.leaders o).receivedSynchronizeAck.toNat + received.toList.count .synchronizeAck +
            l.pc.waiting.toList.length := he.noted
      have hne : closedReplica o ≠ o := closedReplica_ne o
      rw [if_neg hne] at hsyncs
      rw [if_pos rfl] at hacks
      rw [move_leaders_self, move_link_self, move_link_of_ne hne, synchronizes_append,
        List.length_append]
      omega
    · rw [if_neg h] at hacks
      rw [move_leaders_of_ne h, move_link_of_ne h]
      by_cases hc : closedReplica o = r
      · -- it answers the leader that waits
        subst hc
        rw [if_pos rfl] at hsyncs
        rw [move_link_self, List.count_append, he.acks o]
        omega
      · rw [if_neg hc] at hsyncs
        rw [move_link_of_ne hc]
        omega

theorem Inv.step {e : LocalPaxos.Event} (hstrong : top.strong = true) (hi : Inv top s)
    (hr : r < top.replicas) (ht : Taken top s r e.received link synchronized)
    (h : (s.leaders r).step (top.config r) e = some (l, outs)) :
    Inv top (s.move link synchronized r l outs) := by
  refine hi.move hr ht (Leader.step_synchronizes hstrong h fun hreceived => ?_)
  -- a sequence waits for this ack, so none is noted
  have htokens := hi.tokens r hr
  have hacks := ht.acks r hr
  rw [if_pos rfl, hreceived] at hacks
  have hone : (some LogMessage.synchronizeAck).toList.count .synchronizeAck = 1 := rfl
  have hle := waiting_le_one (s.leaders r).pc.waiting
  cases hack : (s.leaders r).receivedSynchronizeAck with
  | false => rfl
  | true =>
      rw [hack, Bool.toNat_true] at htokens
      omega

/-- A leader that reads nothing from the others. -/
theorem taken_none (hnone : ∀ t, acksTo t received = 0)
    (hack : received.toList.count .synchronizeAck = 0)
    (hsync : ∀ t data, received ≠ some (.synchronize t data)) :
    Taken top s r received s.link s.synchronized where
  sub _ _ _ hm := hm
  data _ _ := rfl
  syncs o _ := by
    rw [hnone]
    split <;> rfl
  acks o _ := by
    rw [hack]
    split <;> rfl
  from_link t data h := absurd h (hsync t data)

end

/-! ## Reading a message -/

theorem length_synchronizes (m : LogMessage) (o : Nat)
    (h : ∀ fromReplica data, m = .synchronize fromReplica data → fromReplica = o) :
    (synchronizes [m]).length = acksTo o (some m) := by
  cases m with
  | synchronize fromReplica data =>
      rw [acksTo, if_pos (h fromReplica data rfl)]
      rfl
  | mrTxnsBatch | newSequence | newSequenceAck | synchronizeAck | paxosCommit => rfl

theorem taken_deliver {top : Topology} {s : Cluster} (hi : Inv top s) {o r i : Nat}
    {message : LogMessage} (hmessage : (s.link o r)[i]? = some message) :
    Taken top s r (some message)
      (update s.link o (update (s.link o) r ((s.link o r).eraseIdx i)))
      (update s.synchronized o (update (s.synchronized o) r
        (s.synchronized o r ++ synchronizes [message]))) := by
  have hperm := cons_eraseIdx_perm hmessage
  have hcarries : Carries top s o r message :=
    hi.carries o r message (List.mem_of_getElem? hmessage)
  have hsyncs : ((synchronizes [message]) ++ synchronizes ((s.link o r).eraseIdx i)).Perm
      (synchronizes (s.link o r)) := by
    rw [← synchronizes_append]
    exact hperm.filterMap _
  refine ⟨fun o' t m hm => ?_, fun o' ho' => ?_, fun o' ho' => ?_, fun o' ho' => ?_,
    fun t data heq => ?_⟩
  · by_cases h : o' = o ∧ t = r
    · obtain ⟨rfl, rfl⟩ := h
      rw [update_link_self] at hm
      exact (List.eraseIdx_sublist _ i).subset hm
    · rwa [update_link_of_ne h] at hm
  · by_cases h : o' = o ∧ closedReplica o' = r
    · -- at most one `SYNCHRONIZE` is on the link, so the order does not matter
      obtain ⟨rfl, rfl⟩ := h
      have hle : (synchronizes (s.link o' (closedReplica o'))).length ≤ 1 := by
        have htokens := hi.tokens o' ho'
        have hwaiting := waiting_le_one (s.leaders o').pc.waiting
        omega
      rw [update_link_self, update_link_self, List.append_assoc,
        eq_of_perm_of_length_le_one hsyncs hle]
    · rw [update_link_of_ne h, update_link_of_ne h]
  · by_cases hc : closedReplica o' = r
    · rw [if_pos hc]
      by_cases ho : o' = o
      · subst ho
        subst hc
        have hlength := hsyncs.length_eq
        rw [List.length_append, length_synchronizes message o' fun f data heq => by
          rw [heq] at hcarries
          exact hcarries.1] at hlength
        rw [update_link_self]
        omega
      · have hnone : acksTo o' (some message) = 0 := by
          cases message with
          | synchronize fromReplica data =>
              obtain ⟨rfl, -⟩ := hcarries
              exact if_neg (Ne.symm ho)
          | mrTxnsBatch | newSequence | newSequenceAck | synchronizeAck | paxosCommit => rfl
        rw [update_link_of_ne fun h => ho h.1, hnone]
        rfl
    · rw [if_neg hc, update_link_of_ne fun h => hc h.2]
      rfl
  · by_cases ho : o' = r
    · rw [if_pos ho]
      subst ho
      by_cases hc : closedReplica o' = o
      · subst hc
        rw [update_link_self, ← hperm.count_eq, List.count_cons]
        show _ = _ + [message].count .synchronizeAck
        rw [List.count_singleton]
      · have hne : message ≠ .synchronizeAck := by
          rintro rfl
          exact hc hcarries.1.symm
        rw [update_link_of_ne fun h => hc h.1]
        show _ = _ + [message].count .synchronizeAck
        rw [List.count_singleton, if_neg (by simpa using hne)]
        rfl
    · rw [if_neg ho, update_link_of_ne fun h => ho h.2]
      rfl
  · cases heq
    obtain ⟨rfl, hrest⟩ := hcarries
    exact hrest

theorem inv_step {top : Topology} {s s' : Cluster} {e : Event} (hstrong : top.strong = true)
    (hi : Inv top s) (h : (machine top).next s e = some s') : Inv top s' := by
  cases e with
  | step r e =>
      simp only [machine, Option.ite_none_right_eq_some, Option.map_eq_some_iff] at h
      obtain ⟨⟨hr, hnone⟩, ⟨l, outs⟩, hs, rfl⟩ := h
      refine hi.step hstrong hr ?_ hs
      rw [hnone]
      exact taken_none (fun t => rfl) rfl fun t data heq => by cases heq
  | batch r batchNumber data =>
      simp only [machine, Option.ite_none_right_eq_some, Option.map_eq_some_iff] at h
      obtain ⟨hr, ⟨l, outs⟩, hs, rfl⟩ := h
      exact hi.step hstrong hr (taken_none (fun t => rfl) rfl fun t data heq => by cases heq) hs
  | deliver o r i =>
      simp only [machine, Option.bind_eq_some_iff, Option.ite_none_right_eq_some,
        Option.map_eq_some_iff] at h
      obtain ⟨message, hmessage, hr, ⟨l, outs⟩, hs, rfl⟩ := h
      exact Inv.step (e := .receive message) hstrong hi hr (taken_deliver hi hmessage) hs

/-! ## Main result -/

/-- What is in the local log of a leader, and what it sends on in a
`NEW_SEQUENCE`, the closed replica has received; and of the `SYNCHRONIZE`s of the
leader at most one has an ack to come. -/
theorem available_before_logged (top : Topology) (hstrong : top.strong = true) (s : Cluster)
    (h : (machine top).Reachable s) {o : Nat} (ho : o < top.replicas) :
    (s.leaders o).localLog.sequences <+: s.synchronized o (closedReplica o) ∧
      (∀ r fromReplica latest data, .newSequence fromReplica latest data ∈ s.link o r →
        ∀ encoded ∈ data, encoded ∈ s.synchronized o (closedReplica o)) ∧
      (∀ r fromReplica data, .synchronize fromReplica data ∈ s.link o r → r = closedReplica o) ∧
      (synchronizes (s.link o (closedReplica o))).length +
        (s.link (closedReplica o) o).count .synchronizeAck ≤ 1 := by
  have hi : Inv top s := h.invariant (inv_init top) fun _ _ _ _ _ hi hn => inv_step hstrong hi hn
  have hdata := hi.data o ho
  have htokens := hi.tokens o ho
  have hwaiting := waiting_le_one (s.leaders o).pc.waiting
  have hlogged : (s.leaders o).localLog.sequences <+: s.synchronized o (closedReplica o) := by
    have hlength := congrArg List.length hdata
    rw [List.length_append, List.length_append] at hlength
    refine List.prefix_of_prefix_length_le ⟨_, hdata.symm⟩ ⟨_, rfl⟩ ?_
    omega
  refine ⟨hlogged, fun r fromReplica latest data hm encoded he => ?_,
    fun r fromReplica data hm => (hi.carries o r _ hm).2.1, by omega⟩
  exact hlogged.subset (hi.carries o r _ hm encoded he)

/-- Replica 0 of six sends its first sequence to replica 3 and, with the ack, to
the other four. -/
theorem available_before_logged_first :
    ∃ s : Cluster, (s.leaders 0).localLog.sequences = [[1001]] ∧
      s.link 0 1 = [.newSequence 0 1 [[1001]]] ∧ [1001] ∈ s.synchronized 0 3 := by
  let top : Topology :=
    { replicas := 6, strong := true, paired := fun _ => rfl, participants := fun _ => 1
      leaderNode := id, allNodes := 6 }
  obtain ⟨s, hs, hlog, hlink⟩ := Machine.exists_of_trace (m := machine top)
    (P := fun s => (s.leaders 0).localLog.sequences = [[1001]] ∧
      s.link 0 1 = [.newSequence 0 1 [[1001]]])
    [.step 0 (.append 1001), .step 0 .pick, .step 0 .finish, .deliver 0 3 0, .step 0 .syncTest,
      .deliver 3 0 0, .step 0 .syncReceived, .step 0 .syncTest] (by decide)
  refine ⟨s, hlog, hlink, ?_⟩
  refine (available_before_logged top rfl s hs (o := 0) (by decide)).2.1 1 0 1 [[1001]] ?_ [1001] ?_
  · rw [hlink]
    exact List.mem_cons_self
  · exact List.mem_cons_self

end Calvin.LocalPaxos.StrongAvailability
