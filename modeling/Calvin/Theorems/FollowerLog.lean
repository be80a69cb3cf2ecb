import Calvin.Log.LocalPaxosFollower
import Calvin.Log.LocalPaxosSteps

/-!
# Follower logs against the leader

A follower that has received the proposal and the commit of every version up to
`n` and has read its input should hold exactly those entries.

* `follows_leader_iff`: it does only for `n = 0`. The commits go to channel
  `paxos_log_`, and `RunFollower` reads `paxos_ack_` only, so that no follower
  ever appends anything;
* `commit_never_read`: a replica of three nodes with one committed proposal.
-/

namespace Calvin.LocalPaxos.FollowerLog

open Function Lib

inductive Event
  /-- A step of the leader that reads no ack. -/
  | leader (e : LocalPaxos.Event)
  /-- The leader reads the oldest ack of a follower. -/
  | ack (i : Nat)
  /-- The oldest message on the link to a follower reaches its channel. -/
  | deliver (i : Nat)
  | runFollower (i : Nat)
deriving DecidableEq, Repr

/-- The nodes after the leader in `participants_`. -/
def IsFollower (cfg : Config) (i : Nat) : Prop :=
  1 ≤ i ∧ i < cfg.participants

instance (cfg : Config) (i : Nat) : Decidable (IsFollower cfg i) :=
  inferInstanceAs (Decidable (_ ∧ _))

/-- The leader has moved: its messages go on the links of all followers. -/
def sent (cfg : Config) (s : Replica) (leader : Leader) (outs : List Output) : Replica :=
  { s with
    leader
    link := fun i =>
      if IsFollower cfg i then s.link i ++ outs.flatMap toFollowers else s.link i
    proposed := s.proposed ++ proposals outs }

def machine (cfg : Config) : Machine Replica Event where
  init := {}
  next s
    | .leader (.gotAck _) => none
    | .leader e => (s.leader.step cfg e).map fun (leader, outs) => sent cfg s leader outs
    | .ack i =>
        match s.acks i with
        | [] => none
        | message :: rest =>
            message.miscInt[0]?.bind fun version =>
              (s.leader.step cfg (.gotAck version)).map fun (leader, outs) =>
                sent cfg { s with acks := update s.acks i rest } leader outs
    | .deliver i =>
        match s.link i with
        | [] => none
        | (channel, message) :: rest =>
            some { s with
              link := update s.link i rest
              followers := update s.followers i ((s.followers i).receive channel message)
              delivered := update s.delivered i (s.delivered i ++ [message]) }
    | .runFollower i =>
        (s.followers i).runFollower.map fun (f, outs) =>
          { s with
            followers := update s.followers i f
            acks := update s.acks i (s.acks i ++ outs) }

/-! ## The property -/

/-- The proposals and the commits of versions 1 to `n`, and no later commit,
were delivered to a follower, and it has read its input. -/
structure Delivered (s : Replica) (i n : Nat) : Prop where
  proposals : ∀ v, 1 ≤ v → v ≤ n →
    ∃ m ∈ s.delivered i, m.type = .paxosData ∧ m.miscInt.head? = some v
  commits : ∀ v, 1 ≤ v → v ≤ n →
    ∃ m ∈ s.delivered i, m.type = .paxosCommit ∧ m.miscInt.head? = some v
  exact : ∀ m ∈ s.delivered i, m.type = .paxosCommit → ∀ v ∈ m.miscInt.head?, v ≤ n
  drained : (s.followers i).paxosAck = []

/-- What the leader proposed under the versions 1 to `n`. -/
def upTo (n : Nat) (proposed : List (Nat × Option Nat × Sequence)) :
    List (Nat × Option Nat × Sequence) :=
  proposed.filter fun p => 1 ≤ p.1 ∧ p.1 ≤ n

/-- The logs of a follower are the leader's versions 1 to `n`. -/
def FollowsLeader (s : Replica) (i n : Nat) : Prop :=
  (s.followers i).globalLog.entries = (upTo n s.proposed).map (fun p => (p.1, p.2.2)) ∧
    (s.followers i).localLog.entries =
      (upTo n s.proposed).filterMap fun p => p.2.1.map fun v => (v, p.2.2)

/-! ## Invariant -/

/-- The message is the proposal of something the leader proposed. -/
def IsProposal (proposed : List (Nat × Option Nat × Sequence)) (m : Message) : Prop :=
  ∃ p ∈ proposed, m = ⟨.paxosData, p.1 :: p.2.1.toList, [p.2.2]⟩

theorem IsProposal.mono {proposed more : List (Nat × Option Nat × Sequence)} {m : Message}
    (h : IsProposal proposed m) : IsProposal (proposed ++ more) m := by
  obtain ⟨p, hp, hm⟩ := h
  exact ⟨p, List.mem_append_left _ hp, hm⟩

/-- Proposals and commits travel on different channels. -/
def Sorted (proposed : List (Nat × Option Nat × Sequence)) (p : Channel × Message) : Prop :=
  (p.1 = .paxosAck ∧ IsProposal proposed p.2) ∨ (p.1 = .paxosLog ∧ p.2.type = .paxosCommit)

structure Inv (s : Replica) (i : Nat) : Prop where
  link : ∀ p ∈ s.link i, Sorted s.proposed p
  delivered : ∀ m ∈ s.delivered i, IsProposal s.proposed m ∨ m.type = .paxosCommit
  channel : ∀ m ∈ (s.followers i).paxosAck, IsProposal s.proposed m
  globalLog : (s.followers i).globalLog.entries = []
  localLog : (s.followers i).localLog.entries = []

theorem inv_init (i : Nat) : Inv {} i :=
  ⟨fun _ h => (List.not_mem_nil h).elim, fun _ h => (List.not_mem_nil h).elim,
    fun _ h => (List.not_mem_nil h).elim, rfl, rfl⟩

theorem sorted_toFollowers {outs : List Output} {p : Channel × Message}
    (h : p ∈ outs.flatMap toFollowers) : Sorted (proposals outs) p := by
  rw [List.mem_flatMap] at h
  obtain ⟨out, hout, hp⟩ := h
  cases out with
  | peer | order | batch => cases hp
  | data g v encoded =>
      rw [toFollowers, List.mem_singleton] at hp
      refine .inl ⟨by rw [hp], (g, v, encoded), ?_, by rw [hp]⟩
      exact List.mem_filterMap.mpr ⟨_, hout, rfl⟩
  | commit g =>
      rw [toFollowers, List.mem_singleton] at hp
      exact .inr ⟨by rw [hp], by rw [hp]⟩

/-- A step of the leader only sends and proposes. -/
theorem Inv.sent {cfg : Config} {s : Replica} {i : Nat} (hi : Inv s i) (leader : Leader)
    (outs : List Output) : Inv (sent cfg s leader outs) i := by
  refine ⟨?_, ?_, fun m hm => (hi.channel m hm).mono, hi.globalLog, hi.localLog⟩
  · intro p hp
    have hold : p ∈ s.link i → Sorted (s.proposed ++ proposals outs) p := fun h => by
      rcases hi.link p h with ⟨hc, hm⟩ | h
      · exact .inl ⟨hc, hm.mono⟩
      · exact .inr h
    simp only [FollowerLog.sent] at hp
    split at hp
    · rcases List.mem_append.mp hp with hp | hp
      · exact hold hp
      · rcases sorted_toFollowers hp with ⟨hc, q, hq, hm⟩ | h
        · exact .inl ⟨hc, q, List.mem_append_right _ hq, hm⟩
        · exact .inr h
    · exact hold hp
  · intro m hm
    rcases hi.delivered m hm with h | h
    · exact .inl h.mono
    · exact .inr h

/-- Delivering sorts the message into its channel. -/
theorem Inv.deliver {s : Replica} {i j : Nat} {channel : Channel} {message : Message}
    {rest : List (Channel × Message)} (hi : Inv s i)
    (hlink : s.link j = (channel, message) :: rest) :
    Inv { s with
      link := update s.link j rest
      followers := update s.followers j ((s.followers j).receive channel message)
      delivered := update s.delivered j (s.delivered j ++ [message]) } i := by
  by_cases hij : i = j
  · subst hij
    have hhead := hi.link (channel, message) (by rw [hlink]; exact List.mem_cons_self)
    refine ⟨?_, ?_, ?_, ?_, ?_⟩
    · intro p hp
      simp only [update_self] at hp
      exact hi.link p (by rw [hlink]; exact List.mem_cons_of_mem _ hp)
    · intro m hm
      simp only [update_self, List.mem_append, List.mem_singleton] at hm
      rcases hm with hm | rfl
      · exact hi.delivered m hm
      · rcases hhead with ⟨-, h⟩ | ⟨-, h⟩
        · exact .inl h
        · exact .inr h
    · intro m hm
      simp only [update_self] at hm
      cases channel with
      | paxosLog => exact hi.channel m hm
      | paxosAck =>
          rcases List.mem_append.mp hm with hm | hm
          · exact hi.channel m hm
          · rw [List.mem_singleton.mp hm]
            rcases hhead with ⟨-, h⟩ | ⟨h, -⟩
            · exact h
            · cases h
    · cases channel <;> simpa [Follower.receive] using hi.globalLog
    · cases channel <;> simpa [Follower.receive] using hi.localLog
  · refine ⟨?_, ?_, ?_, ?_, ?_⟩ <;> simp only [ne_eq, hij, not_false_eq_true, update_of_ne]
    · exact hi.link
    · exact hi.delivered
    · exact hi.channel
    · exact hi.globalLog
    · exact hi.localLog

/-- The branch for commits is never taken: all that is read are proposals. -/
theorem runFollower_proposals {proposed : List (Nat × Option Nat × Sequence)} {f f' : Follower}
    {outs : List Message} (hch : ∀ m ∈ f.paxosAck, IsProposal proposed m)
    (h : f.runFollower = some (f', outs)) :
    (∃ message, f.paxosAck = message :: f'.paxosAck) ∧ f'.globalLog = f.globalLog := by
  unfold Follower.runFollower at h
  split at h
  · cases h
  · rename_i message rest hq
    obtain ⟨p, -, rfl⟩ := hch message (by rw [hq]; exact List.mem_cons_self)
    cases h
    exact ⟨⟨_, hq⟩, rfl⟩

theorem Inv.runFollower {s : Replica} {i j : Nat} {f : Follower} {outs : List Message}
    (hi : Inv s i) (h : (s.followers j).runFollower = some (f, outs)) :
    Inv { s with
      followers := update s.followers j f
      acks := update s.acks j (s.acks j ++ outs) } i := by
  by_cases hij : i = j
  · subst hij
    obtain ⟨⟨message, hq⟩, hg⟩ := runFollower_proposals hi.channel h
    have hl := Follower.runFollower_localLog h
    refine ⟨hi.link, hi.delivered, ?_, ?_, ?_⟩ <;> simp only [update_self]
    · intro m hm
      exact hi.channel m (by rw [hq]; exact List.mem_cons_of_mem _ hm)
    · rw [hg]; exact hi.globalLog
    · rw [hl]; exact hi.localLog
  · refine ⟨hi.link, hi.delivered, ?_, ?_, ?_⟩ <;>
      simp only [ne_eq, hij, not_false_eq_true, update_of_ne]
    · exact hi.channel
    · exact hi.globalLog
    · exact hi.localLog

theorem inv_step {cfg : Config} {s s' : Replica} {e : Event} {i : Nat} (hi : Inv s i)
    (h : (machine cfg).next s e = some s') : Inv s' i := by
  cases e with
  | leader e =>
      have hsent : ∃ leader outs, s' = sent cfg s leader outs := by
        cases e with
        | gotAck => cases h
        | _ =>
            simp only [machine, Option.map_eq_some_iff] at h
            obtain ⟨⟨leader, outs⟩, -, rfl⟩ := h
            exact ⟨leader, outs, rfl⟩
      obtain ⟨leader, outs, rfl⟩ := hsent
      exact hi.sent leader outs
  | ack j =>
      simp only [machine] at h
      split at h
      · cases h
      · rename_i message rest hacks
        simp only [Option.bind_eq_some_iff, Option.map_eq_some_iff] at h
        obtain ⟨_, -, ⟨leader, outs⟩, -, rfl⟩ := h
        have hi' : Inv { s with acks := update s.acks j rest } i :=
          ⟨hi.link, hi.delivered, hi.channel, hi.globalLog, hi.localLog⟩
        exact hi'.sent leader outs
  | deliver j =>
      simp only [machine] at h
      split at h
      · cases h
      · rename_i channel message rest hlink
        cases h
        exact hi.deliver hlink
  | runFollower j =>
      simp only [machine, Option.map_eq_some_iff] at h
      obtain ⟨⟨f, outs⟩, hf, rfl⟩ := h
      exact hi.runFollower hf

theorem inv_of_reachable {cfg : Config} {s : Replica} (h : (machine cfg).Reachable s) (i : Nat) :
    Inv s i :=
  h.invariant (inv_init i) fun _ _ _ _ _ hi hn => inv_step hi hn

/-- A follower to which the first proposal and its commit have been delivered. -/
theorem delivered_one {s : Replica} (hd : s.delivered 1 =
      [⟨.paxosData, [1, 1], [[1001]]⟩, ⟨.paxosCommit, [1], []⟩])
    (hq : (s.followers 1).paxosAck = []) : Delivered s 1 1 := by
  refine ⟨fun v h1 h2 => ?_, fun v h1 h2 => ?_, fun m hm => ?_, hq⟩
  · rw [hd]
    exact ⟨_, List.mem_cons_self, rfl, by simp; omega⟩
  · rw [hd]
    exact ⟨_, List.mem_cons_of_mem _ List.mem_cons_self, rfl, by simp; omega⟩
  · simp only [hd, List.mem_cons, List.not_mem_nil, or_false] at hm
    rcases hm with rfl | rfl
    · exact fun h => by cases h
    · intro _ v hv
      cases hv
      exact le_rfl

/-! ## Main results -/

/-- A follower with the versions 1 to `n` delivered and its input read holds
them exactly if there are none. -/
theorem follows_leader_iff (cfg : Config) (s : Replica) (i n : Nat)
    (h : (machine cfg).Reachable s) (hd : Delivered s i n) : FollowsLeader s i n ↔ n = 0 := by
  have hi := inv_of_reachable h i
  constructor
  · rintro ⟨hg, -⟩
    by_contra hn
    -- version 1 was delivered, so the leader proposed it, but no log has it
    obtain ⟨m, hm, htype, hv⟩ := hd.proposals 1 le_rfl (by omega)
    rcases hi.delivered m hm with ⟨p, hp, rfl⟩ | hc
    · have hp1 : p.1 = 1 := by simpa using hv
      have hmem : p ∈ upTo n s.proposed :=
        List.mem_filter.mpr ⟨hp, by simp [hp1]; omega⟩
      rw [hi.globalLog] at hg
      rw [List.map_eq_nil_iff.mp hg.symm] at hmem
      cases hmem
    · rw [hc] at htype
      cases htype
  · rintro rfl
    have hnone : upTo 0 s.proposed = [] :=
      List.filter_eq_nil_iff.mpr fun p _ => by simp; omega
    exact ⟨by rw [hi.globalLog, hnone]; rfl, by rw [hi.localLog, hnone]; rfl⟩

/-- Three nodes; the first local sequence is committed, and its proposal and its commit
have been delivered to a follower. -/
theorem follows_leader_iff_committed :
    ∃ s : Replica, s.proposed = [(1, some 1, [1001])] ∧ (FollowsLeader s 1 1 ↔ 1 = 0) := by
  let cfg : Config := { localReplica := 0, replicas := 1, participants := 3, strong := false }
  obtain ⟨s, hr, hp, hd, hq⟩ := Machine.exists_of_trace (m := machine cfg)
    (P := fun s => s.proposed = [(1, some 1, [1001])] ∧
      s.delivered 1 = [⟨.paxosData, [1, 1], [[1001]]⟩, ⟨.paxosCommit, [1], []⟩] ∧
      (s.followers 1).paxosAck = [])
    [.leader (.append 1001), .leader .pick, .deliver 1, .runFollower 1, .ack 1, .leader .finish,
      .deliver 1]
    (by decide)
  exact ⟨s, hp, follows_leader_iff cfg s 1 1 hr (delivered_one hd hq)⟩

/-- Three nodes; proposal and commit of the first local sequence have been
delivered to a follower that has nothing left to read. It has no entry. -/
theorem commit_never_read :
    ∃ s,
      (machine { localReplica := 0, replicas := 1, participants := 3, strong := false }).Reachable
        s ∧
      Delivered s 1 1 ∧ (s.followers 1).runFollower = none ∧
      upTo 1 s.proposed = [(1, some 1, [1001])] ∧
      (s.followers 1).globalLog.entries = [] ∧ ¬ FollowsLeader s 1 1 := by
  obtain ⟨s, hr, hp, hd, hq, hg⟩ := Machine.exists_of_trace
    (m := machine { localReplica := 0, replicas := 1, participants := 3, strong := false })
    (P := fun s => upTo 1 s.proposed = [(1, some 1, [1001])] ∧
      s.delivered 1 = [⟨.paxosData, [1, 1], [[1001]]⟩, ⟨.paxosCommit, [1], []⟩] ∧
      (s.followers 1).paxosAck = [] ∧ (s.followers 1).globalLog.entries = [])
    [.leader (.append 1001), .leader .pick, .deliver 1, .runFollower 1, .ack 1, .leader .finish,
      .deliver 1]
    (by decide)
  refine ⟨s, hr, delivered_one hd hq, ?_, hp, hg, ?_⟩
  · simp [Follower.runFollower, hq]
  · rintro ⟨hlog, -⟩
    rw [hg, hp] at hlog
    cases hlog

end Calvin.LocalPaxos.FollowerLog
