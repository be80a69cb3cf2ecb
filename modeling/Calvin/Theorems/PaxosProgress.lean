import Mathlib.Algebra.Order.BigOperators.Group.Finset
import Calvin.Theorems.PaxosAgreement

/-!
# The mode-0 Paxos comes to rest

When nothing more is appended, the group goes on until every sequence is in all
logs.

* `Live`: no `CHECK` fails, and no ack is forgotten;
* `exists_step`: as long as something is left to do, some participant has a step, and
  every such step leaves less to do.
-/

namespace Calvin.Paxos.Group

open Function Lib

variable {participants : Nat} {s s' : Group} {e : Event}

structure Live (participants : Nat) (s : Group) : Prop where
  leaderLog : s.leader.log.maxVersion ≤ s.leader.log.entries.length
  followerLogs : ∀ i, (s.followers i).log.maxVersion ≤ (s.followers i).log.entries.length
  /-- A commit comes behind its proposal. -/
  balanced : ∀ i, IsFollower participants i → ∀ a, a <+: s.toFollower i →
    commits a ≤ (s.followers i).uncommitted.length + (data a).length
  counted : ∀ version encoded acks, s.leader.pc = .collect version encoded acks →
    1 + (others participants).countP (fun i => version ∈ s.acked i) ≤ acks

theorem live_init (participants : Nat) : Live participants {} where
  leaderLog := Nat.le_refl 0
  followerLogs _ := Nat.le_refl 0
  balanced i _ a ha := by
    have hnil : a = [] := List.prefix_nil.mp ha
    subst hnil
    exact Nat.zero_le _
  counted _ _ _ h := by cases h

/-- A proposal is numbered by its place. -/
theorem Inv.version_eq (hi : Inv participants s) {a b : List (Nat × Sequence)}
    {p : Nat × Sequence} (h : a ++ p :: b = s.proposals) : p.1 = a.length := by
  have hnumbered := hi.numbered
  rw [← h] at hnumbered
  have hget := congrArg (fun l => l[a.length]?) hnumbered
  simpa using hget

/-- The proposals are those in the log of the leader, and one that is collecting acks. -/
theorem Inv.length_proposals (hi : Inv participants s) :
    s.leader.log.entries.length + (inHand s.leader.pc).length = s.proposals.length := by
  rw [← hi.committed, List.length_append]

/-- What a follower holds, and what is on its way to it. -/
theorem Inv.length_delivered (hi : Inv participants s) {i : Nat}
    (hf : IsFollower participants i) :
    (s.followers i).log.entries.length + (s.followers i).uncommitted.length +
      (data (s.toFollower i)).length = s.proposals.length := by
  rw [← hi.delivered i hf, received, List.length_append, List.length_append]

/-- A version that is not proposed yet has no acks. -/
theorem Inv.fresh (hi : Inv participants s) (i : Nat) : s.leader.nextVersion ∉ s.acked i := by
  intro hmem
  have hreceived : s.leader.nextVersion ∈ (received (s.followers i)).map Prod.fst := by
    rw [← hi.acks i]
    exact List.mem_append_left _ hmem
  by_cases hf : IsFollower participants i
  · have hproposed : s.leader.nextVersion ∈ s.proposals.map Prod.fst := by
      rw [← hi.delivered i hf, List.map_append]
      exact List.mem_append_left _ hreceived
    rw [hi.numbered, hi.next, List.mem_range] at hproposed
    exact Nat.lt_irrefl _ hproposed
  · rw [(hi.silent i hf).1] at hreceived
    exact absurd hreceived List.not_mem_nil

theorem Live.propose (hl : Live participants s) (hi : Inv participants s) {leader : Leader}
    (h : s.leader.propose = some leader) :
    Live participants
      { s with
        leader
        toFollower := broadcast participants s.toFollower
          (.paxosData s.leader.nextVersion s.leader.sequence)
        proposals := s.proposals ++ [(s.leader.nextVersion, s.leader.sequence)] } := by
  unfold Leader.propose at h
  split at h
  · split at h
    · cases h
    · cases h
      refine ⟨hl.leaderLog, hl.followerLogs, fun i hf a ha => ?_,
        fun version encoded acks hpc => ?_⟩
      · dsimp only at ha
        rw [broadcast_of_follower hf] at ha
        rcases List.prefix_concat_iff.mp ha with rfl | ha
        · have hold := hl.balanced i hf _ List.prefix_rfl
          rw [commits_append, data_append]
          simp [commits, data] at hold ⊢
          omega
        · exact hl.balanced i hf a ha
      · simp only [LeaderPc.collect.injEq] at hpc
        obtain ⟨rfl, rfl, rfl⟩ := hpc
        have hzero : (others participants).countP
            (fun i => s.leader.nextVersion ∈ s.acked i) = 0 :=
          List.countP_eq_zero.mpr fun i _ => by simpa using hi.fresh i
        dsimp only
        omega
  · cases h

theorem Live.gotAck (hl : Live participants s) (hi : Inv participants s) {i version : Nat}
    {rest : List Nat} {leader : Leader} (hlink : s.toLeader i = version :: rest)
    (h : s.leader.gotAck (quorum participants) version = some leader) :
    Live participants
      { s with
        leader
        toLeader := update s.toLeader i rest
        acked := update s.acked i (s.acked i ++ [version]) } := by
  have hfollower : IsFollower participants i := by
    by_contra hno
    have hacks := hi.acks i
    rw [(hi.silent i hno).1, hlink] at hacks
    simp [received] at hacks
  have hnew : version ∉ s.acked i := by
    have hnodup := hi.received_nodup i
    rw [← hi.acks i, hlink] at hnodup
    exact fun hmem => (List.nodup_append.mp hnodup).2.2 version hmem version
      List.mem_cons_self rfl
  unfold Leader.gotAck at h
  split at h
  · cases h
  · rename_i current encoded acks hpc
    have hcounted := hl.counted current encoded acks hpc
    split at h
    · cases h
      refine ⟨hl.leaderLog, hl.followerLogs, hl.balanced,
        fun version' encoded' acks' hcollect => ?_⟩
      simp only [LeaderPc.collect.injEq] at hcollect
      obtain ⟨rfl, rfl, rfl⟩ := hcollect
      dsimp only
      by_cases hversion : version = current
      · subst hversion
        have hsucc := countP_succ (p := fun j => decide (version ∈ s.acked j))
          (q := fun j => decide (version ∈ update s.acked i (s.acked i ++ [version]) j))
          others_nodup (mem_others.mpr hfollower) (by simpa using hnew) (by simp)
          fun j _ hj => by simp [update_of_ne hj]
        rw [if_pos rfl]
        omega
      · rw [if_neg hversion]
        refine Nat.le_trans (Nat.add_le_add_left (List.countP_mono_left fun j _ hmem => ?_) 1)
          hcounted
        have hmem := of_decide_eq_true hmem
        refine decide_eq_true ?_
        by_cases hj : j = i
        · subst hj
          rw [update_self] at hmem
          rcases List.mem_append.mp hmem with hmem | hmem
          · exact hmem
          · exact absurd (List.mem_singleton.mp hmem).symm hversion
        · rwa [update_of_ne hj] at hmem
    · cases h

theorem Live.commit (hl : Live participants s) (hi : Inv participants s) {leader : Leader}
    {version : Nat} {encoded : Sequence}
    (h : s.leader.commit (quorum participants) =
      some (leader, .paxosBatchOrder version encoded)) :
    Live participants
      { s with
        leader
        toFollower := broadcast participants s.toFollower (.paxosCommit version)
        orders := s.orders ++ [(version, encoded)] } := by
  unfold Leader.commit at h
  split at h
  · cases h
  · rename_i current sequence acks hpc
    have hlength := hi.length_proposals
    have hcommitted := hi.committed
    rw [hpc] at hlength hcommitted
    split at h
    · cases h
    · simp only [Option.map_eq_some_iff, LocalMemLog.append_eq_some, Prod.mk.injEq,
        SchedulerMessage.paxosBatchOrder.injEq] at h
      obtain ⟨log, ⟨-, rfl⟩, rfl, rfl, rfl⟩ := h
      refine ⟨?_, hl.followerLogs, fun i hf a ha => ?_, fun version encoded acks hcollect => ?_⟩
      · have hversion : current = s.leader.log.entries.length := hi.version_eq hcommitted
        simp [hversion]
      · dsimp only at ha
        rw [broadcast_of_follower hf] at ha
        rcases List.prefix_concat_iff.mp ha with rfl | ha
        · have hdelivered := hi.length_delivered hf
          have hcommits := hi.commits i hf
          rw [commits_append, data_append]
          simp [commits, data, inHand] at hdelivered hcommits hlength ⊢
          omega
        · exact hl.balanced i hf a ha
      · cases hcollect

/-- The number of a proposal that a follower commits is the length of its log. -/
theorem Inv.front_eq (hi : Inv participants s) {i : Nat} (hf : IsFollower participants i)
    {front : Nat} {sequence : Sequence} {queue : List (Nat × Sequence)}
    (hqueue : (s.followers i).uncommitted = (front, sequence) :: queue) :
    front = (s.followers i).log.entries.length := by
  have hdelivered := hi.delivered i hf
  rw [received, hqueue, List.append_assoc, List.cons_append] at hdelivered
  exact hi.version_eq hdelivered

theorem Inv.isFollower (hi : Inv participants s) {i : Nat} (h : s.toFollower i ≠ []) :
    IsFollower participants i := by
  by_contra hno
  exact h (hi.silent i hno).2

theorem Live.receive (hl : Live participants s) (hi : Inv participants s) {i : Nat}
    {message : Message} {rest : List Message} {follower : Follower} {acks : List Nat}
    {orders : List (Nat × Sequence)} (hlink : s.toFollower i = message :: rest)
    (h : (s.followers i).receive message = some (follower, acks, orders)) :
    Live participants
      { s with
        followers := update s.followers i follower
        toFollower := update s.toFollower i rest
        toLeader := update s.toLeader i (s.toLeader i ++ acks)
        orders := s.orders ++ orders } := by
  have hf : IsFollower participants i := hi.isFollower (by simp [hlink])
  have hfollower : follower.log.maxVersion ≤ follower.log.entries.length ∧
      ∀ a, a <+: rest → commits a ≤ follower.uncommitted.length + (data a).length := by
    cases message with
    | paxosData version encoded =>
        cases h
        refine ⟨hl.followerLogs i, fun a ha => ?_⟩
        have hold := hl.balanced i hf (.paxosData version encoded :: a)
          (hlink ▸ (List.prefix_cons_inj _).mpr ha)
        simp [commits, data] at hold ⊢
        omega
    | paxosCommit version =>
        simp only [Follower.receive] at h
        split at h
        · cases h
        · rename_i front sequence queue hqueue
          simp only [Option.map_eq_some_iff, LocalMemLog.append_eq_some, Prod.mk.injEq] at h
          obtain ⟨log, ⟨-, rfl⟩, rfl, rfl, rfl⟩ := h
          refine ⟨?_, fun a ha => ?_⟩
          · simp [hi.front_eq hf hqueue]
          · have hold := hl.balanced i hf (.paxosCommit version :: a)
              (hlink ▸ (List.prefix_cons_inj _).mpr ha)
            rw [hqueue] at hold
            simp [commits, data] at hold ⊢
            omega
  refine ⟨hl.leaderLog, fun j => ?_, fun j hj a ha => ?_, hl.counted⟩
  · by_cases hji : j = i
    · subst hji
      simpa using hfollower.1
    · simpa [update_of_ne hji] using hl.followerLogs j
  · by_cases hji : j = i
    · subst hji
      simp only [update_self] at ha ⊢
      exact hfollower.2 a ha
    · simp only [update_of_ne hji] at ha ⊢
      exact hl.balanced j hj a ha

theorem Live.step (hl : Live participants s) (hi : Inv participants s)
    (h : next participants s e = some s') : Live participants s' := by
  cases e with
  | append blockid =>
      cases h
      exact ⟨hl.leaderLog, hl.followerLogs, hl.balanced, hl.counted⟩
  | propose =>
      obtain ⟨leader, hp, rfl⟩ := Option.map_eq_some_iff.mp h
      exact hl.propose hi hp
  | gotAck i =>
      simp only [next] at h
      split at h
      · cases h
      · rename_i version rest hlink
        obtain ⟨leader, hack, rfl⟩ := Option.map_eq_some_iff.mp h
        exact hl.gotAck hi hlink hack
  | commit =>
      obtain ⟨⟨leader, order⟩, hc, h⟩ := Option.bind_eq_some_iff.mp h
      cases order with
      | paxosBatchOrder version encoded =>
          cases h
          exact hl.commit hi hc
      | txnSubbatch => cases h
  | receive i =>
      simp only [next] at h
      split at h
      · cases h
      · rename_i message rest hlink
        obtain ⟨⟨follower, acks, orders⟩, hr, rfl⟩ := Option.map_eq_some_iff.mp h
        exact hl.receive hi hlink hr

theorem live_of_reachable (h : (machine participants).Reachable s) : Live participants s :=
  h.invariant (live_init participants) fun _ _ _ hr _ hl hn => hl.step (inv_of_reachable hr) hn

/-! ## Steps that are left -/

/-- Nothing is under way to a participant, and the leader has nothing to propose. -/
structure AtRest (participants : Nat) (s : Group) : Prop where
  idle : s.leader.pc = .idle
  count : s.leader.count = 0
  links : ∀ i, IsFollower participants i → s.toFollower i = []

/-- The steps and messages that are left: a proposal leads to a message and an ack for
each participant, and to a commit. -/
def work (participants : Nat) (s : Group) : Nat :=
  (if s.leader.count = 0 then 0 else 4 * participants + 4) +
    (match s.leader.pc with
      | .idle => 0
      | .collect .. => 2 * participants + 1) +
    ∑ i ∈ Finset.range participants, (2 * (s.toFollower i).length + (s.toLeader i).length)

/-- A broadcast is at most one message more for each participant. -/
theorem sum_broadcast_le (participants : Nat) (link : Nat → List Message)
    (toLeader : Nat → List Nat)
    (message : Message) :
    ∑ i ∈ Finset.range participants,
        (2 * (broadcast participants link message i).length + (toLeader i).length) ≤
      ∑ i ∈ Finset.range participants, (2 * (link i).length + (toLeader i).length) +
        2 * participants := by
  have hle : ∀ i ∈ Finset.range participants,
      2 * (broadcast participants link message i).length + (toLeader i).length ≤
        (2 * (link i).length + (toLeader i).length) + 2 := by
    intro i _
    unfold broadcast
    split
    · rw [List.length_append, List.length_singleton]
      omega
    · omega
  refine Nat.le_trans (Finset.sum_le_sum hle) ?_
  rw [Finset.sum_add_distrib, Finset.sum_const, Finset.card_range]
  show _ + participants * 2 ≤ _
  omega

/-- A follower with a message has a step. -/
theorem exists_receive (hi : Inv participants s) (hl : Live participants s) {i : Nat}
    (hne : s.toFollower i ≠ []) :
    ∃ s', next participants s (.receive i) = some s' ∧
      work participants s' < work participants s := by
  have hf := hi.isFollower hne
  obtain ⟨message, rest, hlink⟩ := List.exists_cons_of_ne_nil hne
  obtain ⟨follower, acks, orders, hr, hacks⟩ : ∃ follower acks orders,
      (s.followers i).receive message = some (follower, acks, orders) ∧ acks.length ≤ 1 := by
    cases message with
    | paxosData version encoded => exact ⟨_, _, _, rfl, Nat.le_refl 1⟩
    | paxosCommit version =>
        have hbalanced := hl.balanced i hf [.paxosCommit version]
          (hlink ▸ List.prefix_append [_] rest)
        simp only [Follower.receive]
        cases hqueue : (s.followers i).uncommitted with
        | nil =>
            rw [hqueue] at hbalanced
            simp [commits, data] at hbalanced
        | cons p queue =>
            have hversion : (s.followers i).log.maxVersion ≤ p.1 := by
              rw [hi.front_eq hf hqueue]
              exact hl.followerLogs i
            dsimp only
            rw [LocalMemLog.append_eq_some.mpr ⟨hversion, rfl⟩]
            exact ⟨_, _, _, rfl, Nat.zero_le 1⟩
  refine ⟨_, by simp only [next, hlink, hr]; rfl, ?_⟩
  unfold work
  dsimp only
  refine Nat.add_lt_add_left
    (Finset.sum_lt_sum (fun j _ => ?_) ⟨i, Finset.mem_range.mpr hf.2, ?_⟩) _
  · by_cases hj : j = i
    · subst hj
      simp only [update_self, List.length_append, hlink, List.length_cons]
      omega
    · simp only [update_of_ne hj]
      exact Nat.le_refl _
  · simp only [update_self, List.length_append, hlink, List.length_cons]
    omega

/-- A leader that is short of acks has one to read, once the proposals have arrived. -/
theorem exists_gotAck (hi : Inv participants s) (hl : Live participants s)
    (hlinks : ∀ i, IsFollower participants i → s.toFollower i = []) {version acks : Nat}
    {encoded : Sequence} (hpc : s.leader.pc = .collect version encoded acks)
    (hacks : acks < quorum participants) :
    ∃ i s', next participants s (.gotAck i) = some s' ∧
      work participants s' < work participants s := by
  obtain ⟨i, hf, hne⟩ : ∃ i, IsFollower participants i ∧ s.toLeader i ≠ [] := by
    by_contra hnone
    have hall : ∀ i ∈ others participants, decide (version ∈ s.acked i) = true := by
      intro i hmem
      have hf := mem_others.mp hmem
      have hread : s.toLeader i = [] := by
        by_contra hne
        exact hnone ⟨i, hf, hne⟩
      have hacked := hi.acks i
      have hdelivered := hi.delivered i hf
      rw [hread, List.append_nil] at hacked
      rw [hlinks i hf] at hdelivered
      simp only [data, List.filterMap_nil, List.append_nil] at hdelivered
      rw [hacked, hdelivered, ← hi.committed, hpc]
      simp [inHand]
    have hcounted := hl.counted version encoded acks hpc
    rw [List.countP_eq_length.mpr hall] at hcounted
    have hlength : (others participants).length = participants - 1 := by
      cases participants with
      | zero => rfl
      | succ n =>
          rw [others, List.range_succ_eq_map, List.filter_cons_of_neg (by simp),
            List.filter_eq_self.mpr fun i hmem => ?_, List.length_map, List.length_range]
          · rfl
          · obtain ⟨j, -, rfl⟩ := List.mem_map.mp hmem
            simp
    unfold quorum at hacks
    omega
  obtain ⟨ackVersion, rest, hlink⟩ := List.exists_cons_of_ne_nil hne
  refine ⟨i, _, by simp only [next, hlink, Leader.gotAck, hpc, if_pos hacks]; rfl, ?_⟩
  unfold work
  simp only [hpc]
  refine Nat.add_lt_add_left
    (Finset.sum_lt_sum (fun j _ => ?_) ⟨i, Finset.mem_range.mpr hf.2, ?_⟩) _
  · by_cases hj : j = i
    · subst hj
      simp only [update_self, hlink, List.length_cons]
      omega
    · simp only [update_of_ne hj]
      exact Nat.le_refl _
  · simp only [update_self, hlink, List.length_cons]
    omega

/-- A leader with a quorum commits. -/
theorem exists_commit (hi : Inv participants s) (hl : Live participants s) {version acks : Nat}
    {encoded : Sequence} (hpc : s.leader.pc = .collect version encoded acks)
    (hacks : ¬ acks < quorum participants) :
    ∃ s', next participants s .commit = some s' ∧ work participants s' < work participants s := by
  have hversion : s.leader.log.maxVersion ≤ version := by
    have hcommitted := hi.committed
    rw [hpc] at hcommitted
    have heq : version = s.leader.log.entries.length := hi.version_eq hcommitted
    rw [heq]
    exact hl.leaderLog
  refine ⟨_, by
    simp only [next, Leader.commit, hpc, if_neg hacks]
    rw [LocalMemLog.append_eq_some.mpr ⟨hversion, rfl⟩]
    rfl, ?_⟩
  have hsum := sum_broadcast_le participants s.toFollower s.toLeader
    (.paxosCommit version)
  unfold work
  simp only [hpc]
  omega

theorem exists_propose (participants : Nat) (hpc : s.leader.pc = .idle)
    (hcount : s.leader.count ≠ 0) :
    ∃ s', next participants s .propose = some s' ∧ work participants s' < work participants s := by
  refine ⟨_, by simp only [next, Leader.propose, hpc, if_neg hcount]; rfl, ?_⟩
  have hsum := sum_broadcast_le participants s.toFollower s.toLeader
    (.paxosData s.leader.nextVersion s.leader.sequence)
  unfold work
  simp only [hpc, if_neg hcount, if_true]
  omega

/-- As long as the group is not at rest, some participant has a step, after which less
is left. -/
theorem exists_step (h : (machine participants).Reachable s) (hrest : ¬ AtRest participants s) :
    ∃ e s', (∀ blockid, e ≠ .append blockid) ∧ next participants s e = some s' ∧
      work participants s' < work participants s := by
  have hi := inv_of_reachable h
  have hl := live_of_reachable h
  by_cases hlinks : ∀ i, IsFollower participants i → s.toFollower i = []
  · cases hpc : s.leader.pc with
    | idle =>
        have hcount : s.leader.count ≠ 0 := fun hzero => hrest ⟨hpc, hzero, hlinks⟩
        obtain ⟨s', hs'⟩ := exists_propose participants hpc hcount
        exact ⟨.propose, s', by simp, hs'⟩
    | collect version encoded acks =>
        by_cases hacks : acks < quorum participants
        · obtain ⟨i, s', hs'⟩ := exists_gotAck hi hl hlinks hpc hacks
          exact ⟨.gotAck i, s', by simp, hs'⟩
        · obtain ⟨s', hs'⟩ := exists_commit hi hl hpc hacks
          exact ⟨.commit, s', by simp, hs'⟩
  · simp only [not_forall] at hlinks
    obtain ⟨i, -, hne⟩ := hlinks
    obtain ⟨s', hs'⟩ := exists_receive hi hl hne
    exact ⟨.receive i, s', by simp, hs'⟩

end Calvin.Paxos.Group
