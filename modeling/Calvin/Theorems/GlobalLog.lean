import Calvin.Log.LocalPaxosSteps

/-!
# The leader's global log against the order it announced

At the end of a leader iteration `global_log_` should hold exactly what went
out as `PAXOS_BATCH_ORDER`.

* `global_log_eq_announced`: it does, as long as the strong leader takes no
  remote sequence up while it waits for a `SYNCHRONIZE_ACK`;
* `global_log_reordered`: a remote sequence in that wait advances the member
  `global_next_version`, and the local sequence is appended behind it under the
  wrong version.
-/

namespace Calvin.LocalPaxos.GlobalLog

open Lib

/-- A leader with what it has announced so far. -/
structure Run where
  leader : Leader := {}
  announced : List (Nat × Sequence) := []

/-- The pairs sent as `PAXOS_BATCH_ORDER`. -/
def announcedBy (outs : List Output) : List (Nat × Sequence) :=
  (orders outs).map fun o => (o.1, o.2.1)

/-- A leader under any interleaving of appends, messages and its own steps. -/
def machine (cfg : Config) : Machine Run Event where
  init := {}
  next s e :=
    (s.leader.step cfg e).map fun (leader, outs) =>
      { leader, announced := s.announced ++ announcedBy outs }

/-- What should hold at the end of every iteration. -/
def LogsAnnounced (s : Run) : Prop :=
  s.leader.pc = .idle →
    s.leader.globalLog.entries = s.announced ∧ s.announced.Pairwise fun a b => a.1 < b.1

/-- No remote sequence waits when the strong leader looks for one in the
`SYNCHRONIZE_ACK` loop. -/
def Undisturbed (cfg : Config) (s : Run) (e : Event) : Prop :=
  cfg.strong = true → e = .syncReceived → s.leader.sequencesOtherReplicas = []

/-- A remote sequence is in hand inside the `SYNCHRONIZE_ACK` loop. -/
def Nested (l : Leader) : Prop :=
  l.pc.busy = 1 ∧ l.pc.waiting ≠ none

/-- The sequence that is announced and not yet appended, under the version it
will be appended with. -/
def unappended (l : Leader) : List (Nat × Sequence) :=
  l.pc.waiting.toList.map fun encoded => (l.globalNextVersion, encoded)

instance (cfg : Config) (s : Run) (e : Event) : Decidable (Undisturbed cfg s e) :=
  inferInstanceAs (Decidable (_ → _ → _))

structure Inv (cfg : Config) (s : Run) : Prop where
  numbered : Numbered s.leader (s.announced.map Prod.fst)
  logged : s.leader.globalLog.entries ++ unappended s.leader = s.announced
  flat : ¬ Nested s.leader
  weak : cfg.strong = false → s.leader.pc.waiting = none

theorem inv_init (cfg : Config) : Inv cfg {} :=
  ⟨Numbered.init, rfl, fun h => absurd h.1 (by decide), fun _ => rfl⟩

/-- Steps that announce nothing and leave the log, and either leave the waiting
sequence with its version or have none. -/
private theorem Inv.silent {cfg : Config} {s : Run} {l : Leader} {outs : List Output} {e : Event}
    (hi : Inv cfg s) (hs : s.leader.step cfg e = some (l, outs)) (ho : orders outs = [])
    (hlog : l.globalLog = s.leader.globalLog) (hw : l.pc.waiting = s.leader.pc.waiting)
    (hb : l.pc.busy = s.leader.pc.busy ∨ s.leader.pc.waiting = none) :
    Inv cfg { leader := l, announced := s.announced ++ announcedBy outs } := by
  have hnone : announcedBy outs = [] := by rw [announcedBy, ho]; rfl
  have hnum := hi.numbered.step hs
  rw [ho, List.map_nil, List.append_nil] at hnum
  have hu : unappended l = unappended s.leader := by
    unfold unappended
    rcases hb with hb | hb
    · have h1 := hnum.next
      have h2 := hi.numbered.next
      rw [hw, show l.globalNextVersion = s.leader.globalNextVersion by omega]
    · rw [hw, hb]; rfl
  refine ⟨?_, ?_, ?_, ?_⟩
  · simpa only [hnone, List.append_nil] using hnum
  · simpa only [hnone, List.append_nil, hlog, hu] using hi.logged
  · rintro ⟨h1, h2⟩
    rcases hb with hb | hb
    · exact hi.flat ⟨hb ▸ h1, hw ▸ h2⟩
    · exact h2 (hw.trans hb)
  · exact fun hweak => hw.trans (hi.weak hweak)

/-- The end of a local iteration appends the waiting sequence. -/
private theorem finishLocal_logged {cfg : Config} {l l' : Leader} {encoded : Sequence}
    {outs : List Output} (h : l.finishLocal cfg encoded = some (l', outs)) :
    l'.globalLog.entries ++ unappended l' =
      l.globalLog.entries ++ [(l.globalNextVersion, encoded)] := by
  obtain ⟨⟨_, _, rfl⟩, -, -⟩ := Leader.finishLocal_frame h
  simp [Leader.logged, unappended, Pc.waiting]

theorem inv_step {cfg : Config} {s s' : Run} {e : Event} (hgood : Undisturbed cfg s e)
    (hi : Inv cfg s) (h : (machine cfg).next s e = some s') : Inv cfg s' := by
  simp only [machine, Option.map_eq_some_iff] at h
  obtain ⟨⟨l, outs⟩, hs, rfl⟩ := h
  have hnum := hi.numbered.step hs
  have hlogged := hi.logged
  have hmap : (s.announced ++ announcedBy outs).map Prod.fst =
      s.announced.map Prod.fst ++ (orders outs).map Prod.fst := by
    simp [announcedBy, Function.comp_def]
  cases e with
  | append blockid => cases hs; exact hi.silent (e := .append blockid) rfl rfl rfl rfl (.inl rfl)
  | drawGuid => cases hs; exact hi.silent (e := .drawGuid) rfl rfl rfl rfl (.inl rfl)
  | receive message =>
      have hs' := hs
      simp only [Leader.step, Option.ite_none_right_eq_some, Option.some.injEq] at hs
      obtain ⟨⟨_, _, _, _, _, hl⟩, ho, -⟩ :=
        Leader.receiveMessage_frame cfg s.leader message
      rw [hs.2] at hl ho
      dsimp only at hl
      exact hi.silent hs' ho (by rw [hl]) (by rw [hl]) (.inl (by rw [hl]))
  | gotAck version =>
      have hs' := hs
      simp only [Leader.step, Option.map_eq_some_iff, Prod.mk.injEq] at hs
      obtain ⟨_, hg, rfl, rfl⟩ := hs
      obtain ⟨_, _, _, source, hpc, rfl⟩ := Leader.gotAck_cases hg
      refine hi.silent hs' rfl rfl ?_ (.inl ?_)
      · cases source <;> simp [hpc, Pc.waiting]
      · simp [hpc, Pc.busy]
  | pick =>
      have hs' := hs
      obtain ⟨hpc, _, ⟨hp, -⟩ | hr⟩ := Leader.pick_cases hs
      · have hw : s.leader.pc.waiting = none := by rw [hpc]; rfl
        cases hp
        exact hi.silent hs' rfl rfl hw.symm (.inr hw)
      · have hw : s.leader.pc.waiting = none := by rw [hpc]; rfl
        obtain ⟨_, _, _, -, ho, -, ⟨rfl, -⟩ | ⟨rfl, -⟩⟩ := Leader.handleRemoteBatch_eq hr <;>
          exact hi.silent hs' ho rfl hw.symm (.inr hw)
  | generate =>
      have hs' := hs
      obtain ⟨_, _, _, _, hpc, ho, -, ⟨_, _, _, _, rfl, -⟩ | ⟨rfl, -⟩⟩ :=
        Leader.generate_cases hs <;>
        exact hi.silent hs' ho rfl (by simp [hpc, Pc.waiting]) (.inl (by simp [hpc, Pc.busy]))
  | finish =>
      obtain ⟨encoded, acks, source, hpc, hc⟩ := Leader.finish_cases hs
      have hbusy : s.leader.pc.busy = 1 := by rw [hpc]; rfl
      have hw : s.leader.pc.waiting = none := by
        by_contra hne
        exact hi.flat ⟨hbusy, hne⟩
      have hu : unappended s.leader = [] := by simp [unappended, hw]
      rw [hu, List.append_nil] at hlogged
      rcases hc with ⟨replica, ret, rfl, rfl, rfl⟩ | ⟨rfl, hstrong, rfl, rfl⟩ |
        ⟨rfl, hweak, sent, hf, rfl⟩
      · -- a remote sequence: appended at once, and its wait is none
        have hret : ret.waiting = none := by rw [hpc] at hw; exact hw
        refine ⟨hmap ▸ hnum, ?_, ?_, ?_⟩
        · simp [unappended, hret, hlogged, announcedBy]
        · rintro ⟨h1, -⟩; simp at h1
        · intro _; simp [hret]
      · refine ⟨hmap ▸ hnum, ?_, ?_, ?_⟩
        · simp [unappended, hlogged, announcedBy, Pc.waiting]
        · rintro ⟨h1, -⟩; simp [Pc.busy] at h1
        · intro hno; rw [hstrong] at hno; cases hno
      · have hl := finishLocal_logged hf
        obtain ⟨⟨_, _, rfl⟩, ho, -⟩ := Leader.finishLocal_frame hf
        refine ⟨hmap ▸ hnum, ?_, ?_, fun _ => rfl⟩
        · simp only at hl
          rw [hl]
          simp [hlogged, announcedBy, ho]
        · rintro ⟨h1, -⟩; simp [Leader.logged, Pc.busy] at h1
  | syncTest =>
      have hs' := hs
      obtain ⟨encoded, hpc, ⟨-, hf⟩ | ⟨rfl, rfl⟩⟩ := Leader.syncTest_cases hs
      · -- no version was taken up since the order: the appended one is right
        have hl := finishLocal_logged hf
        obtain ⟨⟨_, _, rfl⟩, ho, -⟩ := Leader.finishLocal_frame hf
        refine ⟨hmap ▸ hnum, ?_, ?_, fun _ => rfl⟩
        · simp only at hl
          rw [hl]
          simpa [announcedBy, ho, unappended, hpc, Pc.waiting] using hlogged
        · rintro ⟨h1, -⟩; simp [Leader.logged, Pc.busy] at h1
      · exact hi.silent hs' rfl rfl (by simp [hpc, Pc.waiting]) (.inl (by simp [hpc, Pc.busy]))
  | syncReceived =>
      have hs' := hs
      obtain ⟨encoded, hpc, ⟨hq, -⟩ | ⟨-, rfl, rfl⟩⟩ := Leader.syncReceived_cases hs
      · -- excluded: the strong leader is undisturbed, the other one never waits
        cases hstrong : cfg.strong with
        | true => exact absurd (hgood hstrong rfl) hq
        | false =>
            have hw := hi.weak hstrong
            rw [hpc] at hw
            cases hw
      · exact hi.silent hs' rfl rfl (by simp [hpc, Pc.waiting]) (.inl (by simp [hpc, Pc.busy]))

theorem inv_of_reach {cfg : Config} {s : Run} (h : (machine cfg).Reach (Undisturbed cfg) s) :
    Inv cfg s :=
  h.invariant (inv_init cfg) fun _ _ _ _ hg hi hn => inv_step hg hi hn

/-- In every run in which the strong leader never finds a remote sequence while
it waits for its `SYNCHRONIZE_ACK`, the global log at the end of each iteration
is what was announced, with strictly increasing versions. For `RunLeader` these
are all runs. -/
theorem global_log_eq_announced (cfg : Config) (s : Run)
    (h : (machine cfg).Reach (Undisturbed cfg) s) : LogsAnnounced s := by
  intro hidle
  have hi := inv_of_reach h
  have hlogged := hi.logged
  rw [unappended, hidle] at hlogged
  refine ⟨by simpa [Pc.waiting] using hlogged, ?_⟩
  have hsorted : (s.announced.map Prod.fst).Pairwise (· < ·) := by
    rw [hi.numbered.consecutive]
    exact List.pairwise_lt_range'
  exact List.pairwise_map.mp hsorted

/-- One local sequence synchronized without a disturbance. -/
theorem global_log_eq_announced_synchronized :
    ∃ s : Run, (s.announced = [(1, [1001])] ∧ s.leader.pc = .idle) ∧ LogsAnnounced s := by
  let cfg : Config := { localReplica := 0, replicas := 6, participants := 1, strong := true }
  obtain ⟨s, hr, hs⟩ := (machine cfg).exists_of_runIf (Undisturbed cfg)
    (P := fun s => s.announced = [(1, [1001])] ∧ s.leader.pc = .idle)
    [.append 1001, .pick, .finish, .syncTest, .receive .synchronizeAck, .syncReceived, .syncTest]
    (by decide)
  exact ⟨s, hs, global_log_eq_announced cfg s hr⟩

/-- Replica 0 orders its own `[1001]` as version 1; the `SYNCHRONIZE` of
replica 3 arrives in the wait for the ack and is ordered as version 2. The log
then has `[7]` first and `[1001]` behind it, both under version 2. -/
theorem global_log_reordered :
    ∃ s, (machine { localReplica := 0, replicas := 6, participants := 1, strong := true }).Reachable
        s ∧
      s.announced = [(1, [1001]), (2, [7])] ∧
      s.leader.globalLog.entries = [(2, [7]), (2, [1001])] ∧ ¬ LogsAnnounced s := by
  obtain ⟨s, hr, hidle, ha, hg⟩ := Machine.exists_of_trace
    (m := machine { localReplica := 0, replicas := 6, participants := 1, strong := true })
    (P := fun s => s.leader.pc = .idle ∧ s.announced = [(1, [1001]), (2, [7])] ∧
      s.leader.globalLog.entries = [(2, [7]), (2, [1001])])
    [.append 1001, .pick, .finish, .syncTest, .receive (.synchronize 3 [7]), .syncReceived,
      .finish, .syncTest, .receive .synchronizeAck, .syncReceived, .syncTest]
    (by decide)
  refine ⟨s, hr, ha, hg, fun hlogs => ?_⟩
  have heq := (hlogs hidle).1
  rw [ha, hg] at heq
  exact absurd heq (by decide)

end Calvin.LocalPaxos.GlobalLog
