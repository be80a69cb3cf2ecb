import Calvin.Scheduler.Lifecycle
import Calvin.Scheduler.NodeSchedule

/-!
# Who holds locks in mode 2

A transaction that has started and is not marked holds all its locks until it is
deleted, whatever has been marked and put to wait.

* `Held`: the lock manager after the calls of `Lock` and `Release`;
* `Held.step`: every step keeps it;
* `Held.exclusive`: no two transactions that hold locks conflict.
-/

namespace Calvin.DeterministicScheduler

open Function Lib LockManager

variable {cfg : ClusterConfig} {txns : Ptr → TxnProto} {compute : Compute} {s s' : Node}
  {pushed : List Ptr} {freed : Ptr → List Key}

structure Held (cfg : ClusterConfig) (txns : Ptr → TxnProto) (s : Node) (pushed : List Ptr)
    (freed : Ptr → List Key) : Prop where
  lock : LockInv (asks cfg 2 txns) s.locked pushed freed s.lockManager
  unfreed : ∀ p, p ∉ s.deleted → freed p = []
  granted : ∀ p, Started s p → p ∈ pushed ∨ s.status p = .abortedWithoutLock

theorem held_init (store : Key → Record) :
    Held cfg txns (initial txns store) [] fun _ => [] where
  lock := lockInv_init _
  unfreed _ _ := rfl
  granted p hp := by simp [Started, initial] at hp

theorem started_delete {p q : Ptr} {s : Node}
    (h : Started { s with deleted := q :: s.deleted } p) : p = q ∨ Started s p := by
  rcases h with h | h | h | h | h
  · exact .inr (.inl h)
  · exact .inr (.inr (.inl h))
  · exact .inr (.inr (.inr (.inl h)))
  · exact .inr (.inr (.inr (.inr (.inl h))))
  · rcases List.mem_cons.mp h with rfl | h
    · exact .inl rfl
    · exact .inr (.inr (.inr (.inr (.inr h))))

namespace Held

/-- What conflicts with a transaction that has its locks, and was locked before
it, is deleted. -/
theorem earlier_deleted (h : Held cfg txns s pushed freed) {p q : Ptr} (hp : Started s p)
    (hs : s.status p ≠ .abortedWithoutLock) (hq : q ∈ s.locked) (hbefore : Before s.locked q p)
    {a b : Key × LockMode} (ha : a ∈ asks cfg 2 txns p) (hb : b ∈ asks cfg 2 txns q)
    (hkey : a.1 = b.1) (hc : LockQueue.Conflict a.2 b.2) : q ∈ s.deleted := by
  by_contra hnot
  have hheld := h.lock.held q hq b hb (by rw [h.unfreed q hnot]; exact List.not_mem_nil)
  -- its request is still in the queue
  refine h.lock.safe p ((h.granted p hp).resolve_right hs) q hbefore a ha b hb hkey hc ?_
  rw [hkey]
  exact mem_owners.mpr ⟨_, hheld, rfl⟩

theorem locked_of_started (h : Held cfg txns s pushed freed) {p : Ptr} (hp : Started s p)
    (hs : s.status p ≠ .abortedWithoutLock) : p ∈ s.locked :=
  h.lock.pushedLocked p ((h.granted p hp).resolve_right hs)

/-- No two transactions that hold locks conflict. -/
theorem exclusive (h : Held cfg txns s pushed freed) {p q : Ptr} (hne : p ≠ q)
    (hp : Started s p ∧ s.status p ≠ .abortedWithoutLock ∧ p ∉ s.deleted)
    (hq : Started s q ∧ s.status q ≠ .abortedWithoutLock ∧ q ∉ s.deleted)
    {a b : Key × LockMode} (ha : a ∈ asks cfg 2 txns p) (hb : b ∈ asks cfg 2 txns q)
    (hkey : a.1 = b.1) : ¬ LockQueue.Conflict a.2 b.2 := by
  intro hc
  have hpl := h.locked_of_started hp.1 hp.2.1
  have hql := h.locked_of_started hq.1 hq.2.1
  rcases Nat.lt_trichotomy (s.locked.idxOf p) (s.locked.idxOf q) with hlt | heq | hgt
  · exact hp.2.2 (h.earlier_deleted hq.1 hq.2.1 hpl hlt hb ha hkey.symm hc.symm)
  · exact hne ((List.idxOf_inj hpl).mp heq)
  · exact hq.2.2 (h.earlier_deleted hp.1 hp.2.1 hql hgt ha hb hkey hc)

/-- A step that touches no locks. -/
theorem frame (h : Held cfg txns s pushed freed) (hlm : s'.lockManager = s.lockManager)
    (hlocked : s'.locked = s.locked) (hdeleted : s'.deleted = s.deleted)
    (hstarted : ∀ p, Started s' p → Started s p ∨ s'.status p = .abortedWithoutLock)
    (hmarked : ∀ p, s.status p = .abortedWithoutLock → s'.status p = .abortedWithoutLock) :
    Held cfg txns s' pushed freed where
  lock := by
    rw [hlm, hlocked]
    exact h.lock
  unfreed := by
    rw [hdeleted]
    exact h.unfreed
  granted p hp := by
    rcases hstarted p hp with hp | hp
    · exact (h.granted p hp).imp_right (hmarked p)
    · exact .inr hp

theorem sameLocks (h : Held cfg txns s pushed freed) (hsame : SameLocks s s') :
    Held cfg txns s' pushed freed :=
  h.frame hsame.lockManager hsame.locked hsame.deleted (fun p hp => .inl (hsame.started p hp))
    fun p => (hsame.marked p).mpr

variable (hkeys : ∀ p, ((asks cfg 2 txns p).map Prod.fst).Nodup)

include hkeys

/-- A transaction is passed to `Lock`. -/
theorem lockNext (h : Held cfg txns s pushed freed) {q : Ptr} (hq : q ∉ s.locked) :
    Held cfg txns (DeterministicScheduler.lock cfg 2 txns s q)
      (pushed ++ (s.lockManager.lock cfg 2 q (txns q)).2) freed where
  lock := h.lock.lock hkeys rfl hq
  unfreed := h.unfreed
  granted p hp := by
    rcases hp with hp | hp
    · rcases List.mem_append.mp hp with hp | hp
      · exact (h.granted p (.inl hp)).imp_left (List.mem_append_left _)
      · exact .inl (List.mem_append_right _ hp)
    · exact (h.granted p (.inr hp)).imp_left (List.mem_append_left _)

theorem foldl_lock (ready : List Ptr) {s : Node} {pushed : List Ptr}
    (h : Held cfg txns s pushed freed) (hnodup : ready.Nodup)
    (hready : ∀ p ∈ ready, p ∉ s.locked) :
    ∃ pushed', pushed ⊆ pushed' ∧
      Held cfg txns (ready.foldl (DeterministicScheduler.lock cfg 2 txns) s) pushed' freed := by
  induction ready generalizing s pushed with
  | nil => exact ⟨pushed, List.Subset.refl _, h⟩
  | cons q ready ih =>
      obtain ⟨hq, hnodup⟩ := List.nodup_cons.mp hnodup
      obtain ⟨pushed', hsub, hfold⟩ := ih (h.lockNext hkeys (hready q List.mem_cons_self)) hnodup
        (by
          intro p hp hmem
          rcases List.mem_append.mp hmem with hmem | hmem
          · exact hready p (List.mem_cons_of_mem _ hp) hmem
          · exact hq (List.mem_singleton.mp hmem ▸ hp))
      exact ⟨pushed', fun p hp => hsub (List.mem_append_left _ hp), hfold⟩

theorem parse (h : Held cfg txns s pushed freed) (hl : Pipeline txns s)
    (hstep : parse cfg 2 txns s = some s') : ∃ pushed' freed', Held cfg txns s' pushed' freed' := by
  obtain ⟨-, ⟨-, -, rfl⟩ | rfl⟩ := parse_any hstep
  · exact ⟨_, _, h.frame rfl rfl rfl (fun p hp => .inl hp) fun p hp => hp⟩
  · exact ⟨_, _, (h.lockNext hkeys hl.next_not_locked).frame rfl rfl rfl (fun p hp => .inl hp)
      fun p hp => hp⟩

theorem route (h : Held cfg txns s pushed freed) (hl : Pipeline txns s)
    (hstep : route cfg 2 txns s = some s') : ∃ pushed' freed', Held cfg txns s' pushed' freed' := by
  obtain ⟨v, -, ⟨waits, rfl⟩ | ⟨hs, rfl⟩ | rfl⟩ := route_locks hstep
  · exact ⟨_, _, h.frame rfl rfl rfl (fun p hp => .inl hp) fun p hp =>
      (marks_iff s v p).mpr (.inl hp)⟩
  · refine ⟨_, _, h.frame rfl rfl rfl (fun p hp => ?_) fun p hp => (marks_iff s v p).mpr (.inl hp)⟩
    rcases hp with hp | hp
    · rcases List.mem_append.mp hp with hp | hp
      · exact .inl (.inl hp)
      · rw [List.mem_singleton.mp hp]
        exact .inr hs
    · exact .inl (.inr hp)
  · have hstatus : Held cfg txns { s with status := marks s v } pushed freed :=
      h.frame rfl rfl rfl (fun p hp => .inl hp) fun p hp => (marks_iff s v p).mpr (.inl hp)
    exact ⟨_, _, (hstatus.lockNext hkeys hl.next_not_locked).frame rfl rfl rfl
      (fun p hp => .inl hp) fun p hp => hp⟩

/-- A finished transaction that is not marked gives its locks back. -/
theorem handleDone (h : Held cfg txns s pushed freed) (hl : Lifecycle txns s)
    (hstep : handleDone cfg 2 txns s = some s') :
    ∃ pushed' freed', Held cfg txns s' pushed' freed' := by
  obtain ⟨-, q, rest, waits, ready, s₁, hq, hwake, hrel, rfl⟩ := handleDone_locks hstep
  obtain ⟨-, hpre⟩ := wakeUp_prefix hl.filed hwake
  have hqdone : q ∈ s.doneQueue := hq ▸ List.mem_cons_self
  have htaken : Held cfg txns { s with waits, doneQueue := rest } pushed freed := by
    refine h.frame rfl rfl rfl (fun p hp => .inl ?_) fun p hp => hp
    rcases hp with hp | hp | hp | hp | hp
    · exact .inl hp
    · exact .inr (.inl hp)
    · exact .inr (.inr (.inl hp))
    · exact .inr (.inr (.inr (.inl (hq ▸ List.mem_cons_of_mem _ hp))))
    · exact .inr (.inr (.inr (.inr hp)))
  obtain ⟨pushed', hsub, hfold⟩ := htaken.foldl_lock hkeys ready (hl.ready_nodup hpre)
    fun p hp => hl.disjoint _ p (Pipeline.ready_blocked hpre hp)
  have hqgranted : q ∈ pushed' ∨ s.status q = .abortedWithoutLock :=
    (h.granted q (.inr (.inr (.inr (.inl hqdone))))).imp_left (fun hp => hsub hp)
  obtain ⟨lockManager, readyTxns, heq⟩ := foldl_lock_eq cfg 2 txns ready
    { s with waits, doneQueue := rest }
  rw [heq] at hfold hrel
  rcases releaseDone_cases hrel with ⟨hs, rfl⟩ | ⟨hs, lm, out, hrelease, rfl⟩
  · refine ⟨pushed', freed, hfold.lock, fun p hp => ?_, fun p hp => ?_⟩
    · exact h.unfreed p fun hmem => hp (List.mem_cons_of_mem _ hmem)
    · rcases started_delete hp with rfl | hp
      · exact .inr hs
      · exact hfold.granted p hp
  · have hqpushed : q ∈ pushed' := hqgranted.resolve_right hs
    obtain ⟨lm', out', freed', hrelease', hlock, hothers, -⟩ :=
      hfold.lock.release hkeys rfl hqpushed (h.unfreed q (hl.of_done hqdone))
    obtain ⟨rfl, rfl⟩ := Prod.mk.inj (Option.some.inj (hrelease.symm.trans hrelease'))
    refine ⟨pushed' ++ out, freed', hlock, fun p hp => ?_, fun p hp => ?_⟩
    · rw [hothers p fun hpq => hp (hpq ▸ List.mem_cons_self)]
      exact h.unfreed p fun hmem => hp (List.mem_cons_of_mem _ hmem)
    · rcases started_delete hp with rfl | hp
      · exact .inl (List.mem_append_left _ hqpushed)
      · rcases hp with hp | hp
        · rcases List.mem_append.mp hp with hp | hp
          · exact (hfold.granted p (.inl hp)).imp_left (List.mem_append_left _)
          · exact .inl (List.mem_append_right _ hp)
        · exact (hfold.granted p (.inr hp)).imp_left (List.mem_append_left _)

theorem step {e : Event} (h : Held cfg txns s pushed freed) (hl : Lifecycle txns s)
    (hstep : step cfg 2 txns compute s e = some s') :
    ∃ pushed' freed', Held cfg txns s' pushed' freed' := by
  cases e with
  | parse => exact h.parse hkeys hl.toPipeline hstep
  | verify =>
      obtain ⟨entry, rest, v, -, rfl⟩ := verify_cases hstep
      exact ⟨_, _, h.frame rfl rfl rfl (fun p hp => .inl hp) fun p hp => hp⟩
  | route => exact h.route hkeys hl.toPipeline hstep
  | dispatch => exact ⟨_, _, h.sameLocks (dispatch_sameLocks hstep)⟩
  | handleDone => exact h.handleDone hkeys hl hstep
  | start =>
      obtain ⟨⟨s₁, sent⟩, hstart, rfl⟩ := Option.map_eq_some_iff.mp hstep
      exact ⟨_, _, h.sameLocks (start_sameLocks hstart)⟩
  | readResult p entries => exact ⟨_, _, h.sameLocks (readResult_sameLocks hstep)⟩
  | run p guid random =>
      obtain ⟨⟨s₁, forword⟩, hrun, rfl⟩ := Option.map_eq_some_iff.mp hstep
      exact ⟨_, _, h.sameLocks (run_sameLocks (fun _ => rfl) hrun)⟩

end Held

end Calvin.DeterministicScheduler
