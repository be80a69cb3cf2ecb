import Mathlib.Data.List.Nodup
import Calvin.Log.PaxosFollower

/-!
# Agreement of the mode-0 Paxos

Followers match a commit to a proposal by its place in their queue. Over links
that are FIFO this is the proposal of the commit: what a follower has logged,
what it holds and what is on its way are the proposals in order.

* `Inv`: the invariant of the group;
* `agreement`: orders of one version agree, the logs are in order, and an order
  stands on a majority.
-/

namespace Calvin.Paxos.Group

open Function Lib

/-- The proposals on a link. -/
def data (messages : List Message) : List (Nat × Sequence) :=
  messages.filterMap fun
    | .paxosData version encoded => some (version, encoded)
    | .paxosCommit _ => none

/-- How many commits are on a link. -/
def commits (messages : List Message) : Nat :=
  (messages.filter fun
    | .paxosData .. => false
    | .paxosCommit _ => true).length

/-- The proposals a follower has received. -/
def received (f : Follower) : List (Nat × Sequence) := f.log.entries ++ f.uncommitted

/-- A follower has received the data of a version. -/
def Received (s : Group) (version i : Nat) : Prop :=
  version ∈ (received (s.followers i)).map Prod.fst

instance (s : Group) (version i : Nat) : Decidable (Received s version i) :=
  inferInstanceAs (Decidable (_ ∈ _))

/-- The participants other than the leader. -/
def others (participants : Nat) : List Nat :=
  (List.range participants).filter fun i => 0 < i

/-- The participants with the data of a version, the leader included. -/
def holders (participants : Nat) (s : Group) (version : Nat) : Nat :=
  1 + (others participants).countP fun i => Received s version i

/-- The proposals that are committed: all but the one in hand. -/
def inHand : LeaderPc → List (Nat × Sequence)
  | .idle => []
  | .collect version encoded _ => [(version, encoded)]

structure Inv (participants : Nat) (s : Group) : Prop where
  next : s.leader.nextVersion = s.proposals.length
  numbered : s.proposals.map Prod.fst = List.range s.proposals.length
  committed : s.leader.log.entries ++ inHand s.leader.pc = s.proposals
  /-- What a follower holds and what is on its way. -/
  delivered : ∀ i, IsFollower participants i →
    received (s.followers i) ++ data (s.toFollower i) = s.proposals
  commits : ∀ i, IsFollower participants i →
    (s.followers i).log.entries.length + commits (s.toFollower i) = s.leader.log.entries.length
  /-- A follower acks what it has received. -/
  acks : ∀ i, s.acked i ++ s.toLeader i = (received (s.followers i)).map Prod.fst
  silent : ∀ i, ¬ IsFollower participants i → s.followers i = {} ∧ s.toFollower i = []
  counted : ∀ version encoded acks, s.leader.pc = .collect version encoded acks →
    acks ≤ 1 + (others participants).countP fun i => version ∈ s.acked i
  majority : ∀ p ∈ s.leader.log.entries, quorum participants ≤ holders participants s p.1
  orders : ∀ p ∈ s.orders, p ∈ s.leader.log.entries

theorem inv_init (participants : Nat) : Inv participants {} where
  next := rfl
  numbered := rfl
  committed := rfl
  delivered _ _ := rfl
  commits _ _ := rfl
  acks _ := rfl
  silent _ _ := ⟨rfl, rfl⟩
  counted _ _ _ h := by cases h
  majority _ h := (List.not_mem_nil h).elim
  orders _ h := (List.not_mem_nil h).elim

section

variable {participants : Nat} {s s' : Group}

/-- The versions a follower has received are all different. -/
theorem Inv.received_nodup (hi : Inv participants s) (i : Nat) :
    ((received (s.followers i)).map Prod.fst).Nodup := by
  by_cases h : IsFollower participants i
  · have hd := congrArg (List.map Prod.fst) (hi.delivered i h)
    rw [List.map_append, hi.numbered] at hd
    exact (List.nodup_append.mp (hd ▸ List.nodup_range)).1
  · rw [(hi.silent i h).1]
    exact List.nodup_nil

theorem mem_others {i : Nat} : i ∈ others participants ↔ IsFollower participants i := by
  simp [others, IsFollower, and_comm]

theorem others_nodup : (others participants).Nodup := List.nodup_range.filter _

/-- What is received stays received. -/
theorem holders_mono (h : ∀ version i, Received s version i → Received s' version i)
    (version : Nat) : holders participants s version ≤ holders participants s' version := by
  refine Nat.add_le_add_left (List.countP_mono_left fun i _ hr => ?_) 1
  exact decide_eq_true (h version i (of_decide_eq_true hr))

/-- One more element meets a condition. -/
theorem countP_succ {xs : List Nat} {p q : Nat → Bool} {i : Nat} (hn : xs.Nodup) (hi : i ∈ xs)
    (hp : p i = false) (hq : q i = true) (hsame : ∀ j ∈ xs, j ≠ i → q j = p j) :
    xs.countP p + 1 = xs.countP q := by
  induction xs with
  | nil => cases hi
  | cons x xs ih =>
      obtain ⟨hx, hxs⟩ := List.nodup_cons.mp hn
      rcases List.mem_cons.mp hi with rfl | hi
      · have hrest : xs.countP q = xs.countP p :=
          List.countP_congr fun j hj => by
            rw [hsame j (List.mem_cons_of_mem _ hj) fun h => hx (h ▸ hj)]
        rw [List.countP_cons_of_neg (by simp [hp]), List.countP_cons_of_pos hq, hrest]
      · have hne : x ≠ i := fun h => hx (h ▸ hi)
        have hrest := ih hxs hi fun j hj => hsame j (List.mem_cons_of_mem _ hj)
        rw [List.countP_cons, List.countP_cons, hsame x List.mem_cons_self hne, ← hrest]
        omega

theorem data_append (a b : List Message) : data (a ++ b) = data a ++ data b :=
  List.filterMap_append

theorem commits_append (a b : List Message) : commits (a ++ b) = commits a + commits b := by
  simp [commits]

theorem broadcast_of_follower {link : Nat → List Message} {message : Message} {i : Nat}
    (h : IsFollower participants i) : broadcast participants link message i = link i ++ [message] :=
  if_pos h

theorem broadcast_of_not {link : Nat → List Message} {message : Message} {i : Nat}
    (h : ¬ IsFollower participants i) : broadcast participants link message i = link i :=
  if_neg h

/-! ## Steps -/

theorem Inv.append (hi : Inv participants s) (blockid : Nat) :
    Inv participants { s with leader := s.leader.append blockid } :=
  ⟨hi.next, hi.numbered, hi.committed, hi.delivered, hi.commits, hi.acks, hi.silent, hi.counted,
    hi.majority, hi.orders⟩

theorem Inv.propose (hi : Inv participants s) {leader : Leader}
    (h : s.leader.propose = some leader) :
    Inv participants
      { s with
        leader
        toFollower := broadcast participants s.toFollower
          (.paxosData s.leader.nextVersion s.leader.sequence)
        proposals := s.proposals ++ [(s.leader.nextVersion, s.leader.sequence)] } := by
  unfold Leader.propose at h
  split at h
  · rename_i hpc
    have hcommitted := hi.committed
    rw [hpc] at hcommitted
    split at h
    · cases h
    · cases h
      refine ⟨?_, ?_, ?_, fun i hf => ?_, fun i hf => ?_, hi.acks, fun i hf => ?_,
        fun version encoded acks hcollect => ?_, hi.majority, hi.orders⟩
      · simp [hi.next]
      · simp [hi.numbered, hi.next, List.range_succ]
      · simp only [inHand, List.append_nil] at hcommitted ⊢
        rw [hcommitted]
      · dsimp only
        rw [broadcast_of_follower hf, data_append, ← List.append_assoc, hi.delivered i hf]
        rfl
      · dsimp only
        rw [broadcast_of_follower hf, commits_append]
        exact hi.commits i hf
      · dsimp only
        rw [broadcast_of_not hf]
        exact hi.silent i hf
      · cases hcollect
        omega
  · cases h

theorem Inv.gotAck (hi : Inv participants s) {i version : Nat} {rest : List Nat} {leader : Leader}
    (hlink : s.toLeader i = version :: rest)
    (h : s.leader.gotAck (quorum participants) version = some leader) :
    Inv participants
      { s with
        leader
        toLeader := update s.toLeader i rest
        acked := update s.acked i (s.acked i ++ [version]) } := by
  have hfollower : IsFollower participants i := by
    by_contra hno
    have hacks := hi.acks i
    rw [(hi.silent i hno).1, hlink] at hacks
    simp [received] at hacks
  -- the ack is new
  have hnew : version ∉ s.acked i := by
    have hnodup := hi.received_nodup i
    rw [← hi.acks i, hlink] at hnodup
    exact fun hmem => (List.nodup_append.mp hnodup).2.2 version hmem version
      List.mem_cons_self rfl
  unfold Leader.gotAck at h
  split at h
  · cases h
  · rename_i current encoded acks hpc
    have hcommitted := hi.committed
    rw [hpc] at hcommitted
    split at h
    · cases h
      refine ⟨hi.next, hi.numbered, hcommitted, hi.delivered, hi.commits, fun j => ?_, hi.silent,
        fun version' encoded' acks' hcollect => ?_, hi.majority, hi.orders⟩
      · by_cases hj : j = i
        · subst hj
          simp only [update_self]
          rw [List.append_assoc, List.singleton_append, ← hlink]
          exact hi.acks j
        · simp only [update_of_ne hj]
          exact hi.acks j
      · have hcounted := hi.counted current encoded acks hpc
        simp only [LeaderPc.collect.injEq] at hcollect
        obtain ⟨rfl, rfl, rfl⟩ := hcollect
        by_cases hversion : version = current
        · subst hversion
          have hsucc := countP_succ (p := fun j => decide (version ∈ s.acked j))
            (q := fun j => decide (version ∈ update s.acked i (s.acked i ++ [version]) j))
            others_nodup (mem_others.mpr hfollower) (by simpa using hnew) (by simp)
            fun j _ hj => by simp [update_of_ne hj]
          rw [if_pos rfl]
          dsimp only
          omega
        · rw [if_neg hversion]
          refine Nat.le_trans hcounted
            (Nat.add_le_add_left (List.countP_mono_left fun j _ hmem => ?_) 1)
          have hmem := of_decide_eq_true hmem
          refine decide_eq_true ?_
          show current ∈ update s.acked i (s.acked i ++ [version]) j
          by_cases hj : j = i
          · subst hj
            rw [update_self]
            exact List.mem_append_left _ hmem
          · rw [update_of_ne hj]
            exact hmem
    · cases h

theorem Inv.commit (hi : Inv participants s) {leader : Leader} {version : Nat}
    {encoded : Sequence}
    (h : s.leader.commit (quorum participants) =
      some (leader, .paxosBatchOrder version encoded)) :
    Inv participants
      { s with
        leader
        toFollower := broadcast participants s.toFollower (.paxosCommit version)
        orders := s.orders ++ [(version, encoded)] } := by
  unfold Leader.commit at h
  split at h
  · cases h
  · rename_i current sequence acks hpc
    have hcommitted := hi.committed
    rw [hpc] at hcommitted
    split at h
    · cases h
    · rename_i hacks
      simp only [Option.map_eq_some_iff, LocalMemLog.append_eq_some, Prod.mk.injEq,
        SchedulerMessage.paxosBatchOrder.injEq] at h
      obtain ⟨log, ⟨-, rfl⟩, rfl, rfl, rfl⟩ := h
      refine ⟨hi.next, hi.numbered, ?_, fun i hf => ?_, fun i hf => ?_, hi.acks, fun i hf => ?_,
        fun version encoded acks hcollect => ?_, fun p hp => ?_, fun p hp => ?_⟩
      · simpa [inHand] using hcommitted
      · dsimp only
        rw [broadcast_of_follower hf, data_append]
        simpa [data] using hi.delivered i hf
      · dsimp only
        rw [broadcast_of_follower hf, commits_append, ← Nat.add_assoc, hi.commits i hf,
          List.length_append]
        rfl
      · dsimp only
        rw [broadcast_of_not hf]
        exact hi.silent i hf
      · cases hcollect
      · rcases List.mem_append.mp hp with hp | hp
        · exact hi.majority p hp
        · -- the acks stand for followers with the data
          rw [List.mem_singleton.mp hp]
          have hcounted := hi.counted _ _ _ hpc
          have hle : (others participants).countP (fun i => current ∈ s.acked i) ≤
              (others participants).countP fun i => Received s current i := by
            refine List.countP_mono_left fun i _ hmem => decide_eq_true ?_
            show current ∈ (received (s.followers i)).map Prod.fst
            rw [← hi.acks i]
            exact List.mem_append_left _ (of_decide_eq_true hmem)
          show quorum participants ≤ 1 + (others participants).countP fun i => Received s current i
          omega
      · rcases List.mem_append.mp hp with hp | hp
        · exact List.mem_append_left _ (hi.orders p hp)
        · exact List.mem_append_right _ hp

/-- One follower has taken a message. -/
theorem Inv.setFollower (hi : Inv participants s) {i : Nat} (hf : IsFollower participants i)
    {follower : Follower} {acks : List Nat} {orders : List (Nat × Sequence)} {rest : List Message}
    (hdelivered : received follower ++ data rest = s.proposals)
    (hcommits : follower.log.entries.length + Group.commits rest = s.leader.log.entries.length)
    (hreceived : (received follower).map Prod.fst =
      (received (s.followers i)).map Prod.fst ++ acks)
    (horders : ∀ p ∈ orders, p ∈ s.leader.log.entries) :
    Inv participants
      { s with
        followers := update s.followers i follower
        toFollower := update s.toFollower i rest
        toLeader := update s.toLeader i (s.toLeader i ++ acks)
        orders := s.orders ++ orders } := by
  refine ⟨hi.next, hi.numbered, hi.committed, fun j hj => ?_, fun j hj => ?_, fun j => ?_,
    fun j hj => ?_, hi.counted, fun p hp => ?_, fun p hp => ?_⟩
  · by_cases hne : j = i
    · subst hne
      simp only [update_self]
      exact hdelivered
    · simp only [update_of_ne hne]
      exact hi.delivered j hj
  · by_cases hne : j = i
    · subst hne
      simp only [update_self]
      exact hcommits
    · simp only [update_of_ne hne]
      exact hi.commits j hj
  · by_cases hne : j = i
    · subst hne
      simp only [update_self]
      rw [hreceived, ← hi.acks j, List.append_assoc]
    · simp only [update_of_ne hne]
      exact hi.acks j
  · have hne : j ≠ i := fun heq => hj (heq ▸ hf)
    simp only [update_of_ne hne]
    exact hi.silent j hj
  · -- what is received stays received
    refine Nat.le_trans (hi.majority p hp) (holders_mono (fun v j hr => ?_) p.1)
    by_cases hne : j = i
    · subst hne
      show v ∈ (received (update s.followers j _ j)).map Prod.fst
      rw [update_self, hreceived]
      exact List.mem_append_left _ hr
    · show v ∈ (received (update s.followers i _ j)).map Prod.fst
      rw [update_of_ne hne]
      exact hr
  · rcases List.mem_append.mp hp with hp | hp
    · exact hi.orders p hp
    · exact horders p hp

theorem Inv.receive (hi : Inv participants s) {i : Nat} {message : Message} {rest : List Message}
    {follower : Follower} {acks : List Nat} {orders : List (Nat × Sequence)}
    (hlink : s.toFollower i = message :: rest)
    (h : (s.followers i).receive message = some (follower, acks, orders)) :
    Inv participants
      { s with
        followers := update s.followers i follower
        toFollower := update s.toFollower i rest
        toLeader := update s.toLeader i (s.toLeader i ++ acks)
        orders := s.orders ++ orders } := by
  have hfollower : IsFollower participants i := by
    by_contra hno
    rw [(hi.silent i hno).2] at hlink
    cases hlink
  have hdelivered := hi.delivered i hfollower
  have hcommits := hi.commits i hfollower
  rw [hlink] at hdelivered hcommits
  cases message with
  | paxosData version encoded =>
      cases h
      have hreceived : received { s.followers i with
          uncommitted := (s.followers i).uncommitted ++ [(version, encoded)] } =
            received (s.followers i) ++ [(version, encoded)] := (List.append_assoc ..).symm
      refine hi.setFollower hfollower ?_ hcommits ?_ fun p hp => absurd hp List.not_mem_nil
      · rw [hreceived, List.append_assoc]
        exact hdelivered
      · rw [hreceived, List.map_append]
        rfl
  | paxosCommit version =>
      simp only [Follower.receive] at h
      split at h
      · cases h
      · rename_i front data queue hqueue
        simp only [Option.map_eq_some_iff, LocalMemLog.append_eq_some, Prod.mk.injEq] at h
        obtain ⟨log, ⟨-, rfl⟩, rfl, rfl, rfl⟩ := h
        have hreceived : received
            { uncommitted := queue
              log := ⟨front, (s.followers i).log.entries ++ [(front, data)]⟩ } =
              received (s.followers i) := by
          rw [received, received, hqueue, List.append_assoc]
          rfl
        have hcount : Group.commits (.paxosCommit version :: rest) = Group.commits rest + 1 := rfl
        rw [hcount] at hcommits
        refine hi.setFollower hfollower ?_ ?_ ?_ fun p hp => ?_
        · rw [hreceived]
          exact hdelivered
        · simp only [List.length_append, List.length_singleton]
          omega
        · rw [hreceived, List.append_nil]
        · -- the front of the queue has been committed by the leader
          rw [List.mem_singleton.mp hp]
          have hfront : (s.followers i).log.entries ++ [(front, data)] <+: s.proposals := by
            rw [← hdelivered, received, hqueue]
            simp
          have hlog : s.leader.log.entries <+: s.proposals := ⟨_, hi.committed⟩
          have hle : ((s.followers i).log.entries ++ [(front, data)]).length ≤
              s.leader.log.entries.length := by
            rw [List.length_append, List.length_singleton]
            omega
          exact (List.prefix_of_prefix_length_le hfront hlog hle).subset
            (List.mem_append_right _ List.mem_cons_self)

theorem inv_step {e : Event} (hi : Inv participants s)
    (h : (machine participants).next s e = some s') : Inv participants s' := by
  change next participants s e = some s' at h
  cases e with
  | append blockid =>
      cases h
      exact hi.append blockid
  | propose =>
      simp only [next, Option.map_eq_some_iff] at h
      obtain ⟨leader, hp, rfl⟩ := h
      exact hi.propose hp
  | gotAck i =>
      simp only [next] at h
      split at h
      · cases h
      · rename_i version rest hlink
        simp only [Option.map_eq_some_iff] at h
        obtain ⟨leader, hack, rfl⟩ := h
        exact hi.gotAck hlink hack
  | commit =>
      simp only [next, Option.bind_eq_some_iff, Prod.exists] at h
      obtain ⟨leader, order, hc, h⟩ := h
      cases order with
      | paxosBatchOrder version encoded =>
          cases h
          exact hi.commit hc
      | txnSubbatch => cases h
  | receive i =>
      simp only [next] at h
      split at h
      · cases h
      · rename_i message rest hlink
        simp only [Option.map_eq_some_iff, Prod.exists] at h
        obtain ⟨follower, acks, orders, hr, rfl⟩ := h
        exact hi.receive hlink hr

theorem inv_of_reachable (h : (machine participants).Reachable s) : Inv participants s :=
  h.invariant (inv_init participants) fun _ _ _ _ _ hi hn => inv_step hi hn

end

/-! ## Main result -/

/-- In every reachable state: orders of one version carry one sequence, the log
of the leader is numbered 0, 1, 2, ..., the log of every follower is a prefix of
the proposals, and more than half of the participants have received the data of
every version that has been ordered. -/
theorem agreement (participants : Nat) (s : Group) (h : (machine participants).Reachable s) :
    (∀ version encoded encoded', (version, encoded) ∈ s.orders → (version, encoded') ∈ s.orders →
        encoded = encoded') ∧
      s.leader.log.entries.map Prod.fst = List.range s.leader.log.entries.length ∧
      (∀ i, (s.followers i).log.entries <+: s.proposals) ∧
      ∀ p ∈ s.orders, participants < 2 * holders participants s p.1 := by
  have hi := inv_of_reachable h
  have hlog : s.leader.log.entries <+: s.proposals := ⟨_, hi.committed⟩
  have hversions : s.leader.log.entries.map Prod.fst = List.range s.leader.log.entries.length := by
    have hp := hlog.map Prod.fst
    rw [hi.numbered] at hp
    have hlen := hlog.length_le
    have hr : List.range s.leader.log.entries.length <+: List.range s.proposals.length := by
      rw [← Nat.add_sub_of_le hlen, List.range_add]
      exact List.prefix_append _ _
    exact (List.prefix_of_prefix_length_le hp hr (by simp)).eq_of_length (by simp)
  refine ⟨fun version encoded encoded' ho ho' => ?_, hversions, fun i => ?_, fun p hp => ?_⟩
  · -- orders are entries of the leader's log, whose versions differ
    have hnodup : (s.leader.log.entries.map Prod.fst).Nodup := hversions ▸ List.nodup_range
    have hsame := List.inj_on_of_nodup_map hnodup (hi.orders _ ho) (hi.orders _ ho') rfl
    exact congrArg Prod.snd hsame
  · by_cases hf : IsFollower participants i
    · rw [← hi.delivered i hf, received, List.append_assoc]
      exact List.prefix_append _ _
    · rw [(hi.silent i hf).1]
      exact List.nil_prefix
  · have hmajority := hi.majority p (hi.orders p hp)
    unfold quorum at hmajority
    omega

/-- Three participants: version 0 is ordered with the ack of participant 1. -/
theorem agreement_three :
    ∃ s : Group, (0, [1001]) ∈ s.orders ∧ 3 < 2 * holders 3 s 0 := by
  obtain ⟨s, hr, hs⟩ := Machine.exists_of_trace (m := machine 3)
    (P := fun s => (0, [1001]) ∈ s.orders)
    [.append 1001, .propose, .receive 1, .gotAck 1, .commit, .receive 1] (by decide)
  exact ⟨s, hs, (agreement 3 s hr).2.2.2 _ hs⟩

end Calvin.Paxos.Group
