import Calvin.Scheduler.LockTable
import Calvin.Scheduler.Pipeline

/-!
# Whose requests are in the lock table

In runs in which no transaction that `VerifyStorageCounters` has marked is put to
wait, the status of a transaction says whether `Lock` was called for it, and the
lock table holds requests of locked transactions that are not handled yet.

* `Table`: the lock table and the calls of `Lock`;
* `Paired`: the invariant, with `Paired.step`.
-/

namespace Calvin.DeterministicScheduler

open Function Lib RemasterWaits LockManager

variable {cfg : ClusterConfig} {mode : Nat} {txns : Ptr → TxnProto} {compute : Compute}

/-- A transaction is put to wait although it has been marked. -/
def waitsMarked (s : Node) : Event → Bool
  | .route =>
      match s.verifying with
      | some ([], v) => v.aborted && !v.canExecuteNow
      | _ => false
  | _ => false

/-- A transaction that is not marked is blocked or passed to `Lock`. -/
theorem routeVerified_unmarked (cfg : ClusterConfig) (mode : Nat) (txns : Ptr → TxnProto) {s : Node}
    {p : Ptr} (v : Verify) (hs : s.status p ≠ .abortedWithoutLock) :
    (∃ waits : RemasterWaits, waits.blockingTxns = (s.waits.block txns p).blockingTxns ∧
      routeVerified cfg mode txns s p v = { s with waits }) ∨
    routeVerified cfg mode txns s p v = lock cfg mode txns s p := by
  unfold routeVerified
  by_cases hv : v.canExecuteNow = false
  · exact .inl ⟨s.waits.putToWait txns p v.keys, rfl, if_pos hv⟩
  · simp only [if_neg hv, if_neg hs]
    by_cases hb : s.waits.blockingTxns (txns p).originReplica ≠ []
    · exact .inl ⟨_, rfl, if_pos hb⟩
    · exact .inr (if_neg hb)

/-- What `releaseDone` does with the locks. -/
theorem releaseDone_cases {s s' : Node} {p : Ptr} (h : releaseDone cfg mode txns s p = some s') :
    (s.status p = .abortedWithoutLock ∧ s' = s) ∨
    (s.status p ≠ .abortedWithoutLock ∧ ∃ lockManager pushed,
      s.lockManager.release cfg mode p (txns p) = some (lockManager, pushed) ∧
      s' = { s with lockManager, readyTxns := s.readyTxns ++ pushed }) := by
  unfold releaseDone at h
  split at h
  case isTrue hs => exact .inl ⟨hs, (Option.some.inj h).symm⟩
  case isFalse hs =>
      rw [Option.map_eq_some_iff] at h
      obtain ⟨⟨lockManager, pushed⟩, hrel, rfl⟩ := h
      exact .inr ⟨hs, lockManager, pushed, hrel, rfl⟩

/-- The statuses when the next transaction has been verified. -/
def marks (s : Node) (v : Verify) : Ptr → Status :=
  if v.aborted then update s.status s.next .abortedWithoutLock else s.status

theorem marks_of_ne {s : Node} (v : Verify) {p : Ptr} (hp : p ≠ s.next) :
    marks s v p = s.status p := by
  unfold marks
  split
  · exact update_of_ne hp ..
  · rfl

theorem marks_iff (s : Node) (v : Verify) (p : Ptr) :
    marks s v p = .abortedWithoutLock ↔
      s.status p = .abortedWithoutLock ∨ p = s.next ∧ v.aborted = true := by
  unfold marks
  cases ha : v.aborted with
  | false => simp
  | true =>
      by_cases hp : p = s.next
      · simp [hp]
      · simp [hp]

theorem route_eq {s s' : Node} (h : route cfg mode txns s = some s') :
    ∃ v, s.verifying = some ([], v) ∧
      s' = { routeVerified cfg mode txns { s with status := marks s v } s.next v with
        next := s.next + 1, verifying := none } := by
  unfold route at h
  split at h
  case h_2 => cases h
  case h_1 v hv =>
      refine ⟨v, hv, ?_⟩
      unfold marks
      cases ha : v.aborted with
      | true =>
          rw [ha, if_pos rfl] at h
          exact (Option.some.inj h).symm
      | false =>
          rw [ha, if_neg Bool.false_ne_true] at h
          exact (Option.some.inj h).symm

/-- A verified transaction is put to wait or blocked, goes on without locks if it
is marked, or is passed to `Lock`. -/
theorem route_locks {s s' : Node} (h : route cfg mode txns s = some s') :
    ∃ v, s.verifying = some ([], v) ∧
      ((∃ waits, s' =
          { s with status := marks s v, waits, next := s.next + 1, verifying := none }) ∨
        (marks s v s.next = .abortedWithoutLock ∧ s' =
          { s with
            status := marks s v, readyTxns := s.readyTxns ++ [s.next], next := s.next + 1
            verifying := none }) ∨
        s' = { lock cfg mode txns { s with status := marks s v } s.next with
          next := s.next + 1, verifying := none }) := by
  obtain ⟨v, hv, hs⟩ := route_eq h
  refine ⟨v, hv, ?_⟩
  by_cases hmarked : marks s v s.next = .abortedWithoutLock
  · rcases routeVerified_cases cfg mode txns { s with status := marks s v } s.next v with
      ⟨-, heq⟩ | ⟨-, -, heq⟩ | ⟨-, -, heq⟩ | ⟨-, -, heq⟩ <;> rw [heq] at hs
    · exact .inl ⟨_, hs⟩
    · exact .inr (.inl ⟨hmarked, hs⟩)
    · exact .inl ⟨_, hs⟩
    · exact .inr (.inr hs)
  · rcases routeVerified_unmarked (s := { s with status := marks s v }) cfg mode txns v hmarked
      with ⟨waits, -, heq⟩ | heq
    · rw [heq] at hs
      exact .inl ⟨waits, hs⟩
    · rw [heq] at hs
      exact .inr (.inr hs)

/-! ## The lock table -/

/-- The calls of `Lock` for the transactions that were woken. -/
theorem foldl_lock_table (ready : List Ptr) {s : Node}
    (ht : Table cfg mode txns s.lockManager s.locked s.deleted) (hnodup : ready.Nodup)
    (hready : ∀ p ∈ ready, p ∉ s.locked ∧ p ∉ s.deleted) :
    let s' := ready.foldl (lock cfg mode txns) s
    Table cfg mode txns s'.lockManager s'.locked s'.deleted ∧
      ∀ p ∈ s'.readyTxns, p ∈ s.readyTxns ∨ p ∈ ready := by
  induction ready generalizing s with
  | nil => exact ⟨ht, fun p hp => .inl hp⟩
  | cons q ready ih =>
      obtain ⟨hq, hnodup⟩ := List.nodup_cons.mp hnodup
      obtain ⟨hlocked, hdeleted⟩ := hready q List.mem_cons_self
      have hrest : ∀ p ∈ ready, p ∉ (lock cfg mode txns s q).locked ∧
          p ∉ (lock cfg mode txns s q).deleted := by
        intro p hp
        obtain ⟨hpl, hpd⟩ := hready p (List.mem_cons_of_mem _ hp)
        refine ⟨fun hmem => ?_, hpd⟩
        rcases List.mem_append.mp hmem with hmem | hmem
        · exact hpl hmem
        · exact hq (List.mem_singleton.mp hmem ▸ hp)
      obtain ⟨htable, hpushed⟩ := ih (ht.lock hlocked hdeleted) hnodup hrest
      refine ⟨htable, fun p hp => ?_⟩
      rcases hpushed p hp with hp | hp
      · rcases List.mem_append.mp hp with hp | hp
        · exact .inl hp
        · rw [(lock_asked cfg mode s.lockManager q (txns q)).2 p hp]
          exact .inr List.mem_cons_self
      · exact .inr (List.mem_cons_of_mem _ hp)

/-! ## The invariant -/

/-- A transaction that is past `Lock`, or goes without locks. -/
def Started (s : Node) (p : Ptr) : Prop :=
  p ∈ s.readyTxns ∨ p ∈ s.txnsQueue ∨ (s.managers p).isSome ∨ p ∈ s.doneQueue ∨ p ∈ s.deleted

/-- A step that touches neither the locks nor the marks, and starts nothing new. -/
structure SameLocks (s s' : Node) : Prop where
  lockManager : s'.lockManager = s.lockManager
  locked : s'.locked = s.locked
  deleted : s'.deleted = s.deleted
  started : ∀ p, Started s' p → Started s p
  marked : ∀ p, s'.status p = .abortedWithoutLock ↔ s.status p = .abortedWithoutLock

theorem dispatch_sameLocks {s s' : Node} (h : dispatch s = some s') : SameLocks s s' := by
  obtain ⟨-, q, rest, hq, rfl⟩ := dispatch_cases h
  refine ⟨rfl, rfl, rfl, fun p hp => ?_, fun _ => Iff.rfl⟩
  rcases hp with hp | hp | hp
  · exact .inl (hq ▸ List.mem_cons_of_mem _ hp)
  · rcases List.mem_append.mp hp with hp | hp
    · exact .inr (.inl hp)
    · exact .inl (hq ▸ List.mem_singleton.mp hp ▸ List.mem_cons_self)
  · exact .inr (.inr hp)

theorem start_sameLocks {s s' : Node} {sent : List ReadResult}
    (h : start cfg mode txns s = some (s', sent)) : SameLocks s s' := by
  obtain ⟨q, rest, hq, -, rfl⟩ := start_cases h
  refine ⟨rfl, rfl, rfl, fun p hp => ?_, fun _ => Iff.rfl⟩
  rcases hp with hp | hp | hp | hp
  · exact .inl hp
  · exact .inr (.inl (hq ▸ List.mem_cons_of_mem _ hp))
  · by_cases hpq : p = q
    · exact .inr (.inl (hq ▸ hpq ▸ List.mem_cons_self))
    · dsimp only at hp
      rw [update_of_ne hpq] at hp
      exact .inr (.inr (.inl hp))
  · exact .inr (.inr (.inr hp))

theorem readResult_sameLocks {s s' : Node} {q : Ptr} {entries : List (Key × Record)}
    (h : readResult txns s q entries = some s') : SameLocks s s' := by
  obtain ⟨sm, hsm, -, rfl⟩ := readResult_cases h
  refine ⟨rfl, rfl, rfl, fun p hp => ?_, fun _ => Iff.rfl⟩
  rcases hp with hp | hp | hp | hp
  · exact .inl hp
  · exact .inr (.inl hp)
  · by_cases hpq : p = q
    · subst hpq
      exact .inr (.inr (.inl (by rw [hsm]; rfl)))
    · dsimp only at hp
      rw [update_of_ne hpq] at hp
      exact .inr (.inr (.inl hp))
  · exact .inr (.inr (.inr hp))

/-- Only mode 2 leaves a marked transaction marked. -/
theorem run_sameLocks {s s' : Node} {q : Ptr} {guid random : Nat} {forword : Option TxnForword}
    (hmode : s.status q = .abortedWithoutLock → mode = 2)
    (h : run cfg mode txns compute s q guid random = some (s', forword)) : SameLocks s s' := by
  obtain ⟨sm, store, status, hsm, -, rfl, hstatus⟩ := run_any h
  -- the status of the transaction stays marked or unmarked
  have hmarked : status = .abortedWithoutLock ↔ s.status q = .abortedWithoutLock := by
    rcases hstatus with ⟨rfl, hnot⟩ | ⟨-, hiff⟩
    · exact ⟨fun h => (by cases h), fun h => absurd h (hnot (hmode h))⟩
    · exact hiff
  refine ⟨rfl, rfl, rfl, fun p hp => ?_, fun p => ?_⟩
  · by_cases hpq : p = q
    · subst hpq
      exact .inr (.inr (.inl (by rw [hsm]; rfl)))
    · rcases hp with hp | hp | hp | hp | hp
      · exact .inl hp
      · exact .inr (.inl hp)
      · change (update s.managers q none p).isSome at hp
        rw [update_of_ne hpq] at hp
        exact .inr (.inr (.inl hp))
      · rcases List.mem_append.mp hp with hp | hp
        · exact .inr (.inr (.inr (.inl hp)))
        · exact absurd (List.mem_singleton.mp hp) hpq
      · exact .inr (.inr (.inr (.inr hp)))
  · show update s.status q status p = .abortedWithoutLock ↔ _
    by_cases hpq : p = q
    · subst hpq
      rw [update_self]
      exact hmarked
    · rw [update_of_ne hpq]

structure Paired (cfg : ClusterConfig) (mode : Nat) (txns : Ptr → TxnProto) (s : Node) : Prop
    extends Pipeline txns s where
  table : Table cfg mode txns s.lockManager s.locked s.deleted
  /-- A marked transaction has no locks and never will. -/
  marked : ∀ p, s.status p = .abortedWithoutLock → mode = 2 ∧ p < s.next ∧ p ∉ s.locked ∧
    ∀ r, p ∉ s.waits.blockingTxns r
  started : ∀ p, Started s p → p ∈ s.locked ∨ s.status p = .abortedWithoutLock
  verifies : s.verifying.isSome → mode = 2

theorem paired_init (hnew : ∀ p, (txns p).status ≠ .abortedWithoutLock) (store : Key → Record) :
    Paired cfg mode txns (initial txns store) where
  toPipeline := pipeline_init store
  table := ⟨fun _ => List.nodup_nil, fun k r hr => absurd hr List.not_mem_nil⟩
  marked p hp := absurd hp (hnew p)
  started p hp := by simp [Started, initial] at hp
  verifies h := absurd h Bool.false_ne_true

namespace Paired

variable {s s' : Node}

/-- `Lock` was called for exactly those that have started and are not marked. -/
theorem locked_iff (hi : Paired cfg mode txns s) {p : Ptr} (hp : Started s p) :
    s.status p ≠ .abortedWithoutLock ↔ p ∈ s.locked := by
  constructor
  · exact fun h => (hi.started p hp).resolve_right h
  · exact fun h hs => (hi.marked p hs).2.2.1 h

theorem not_deleted (hi : Paired cfg mode txns s) {p : Ptr} (hl : p ∉ s.locked)
    (hs : s.status p ≠ .abortedWithoutLock) : p ∉ s.deleted := fun h =>
  (hi.started p (.inr (.inr (.inr (.inr h))))).elim hl hs

/-- The next transaction is passed to `Lock`. -/
theorem lockNext (hi : Paired cfg mode txns s) (hs : s.status s.next ≠ .abortedWithoutLock) :
    Paired cfg mode txns
      { lock cfg mode txns s s.next with next := s.next + 1, verifying := none } where
  toPipeline := hi.toPipeline.lockNext rfl rfl rfl
  table := hi.table.lock hi.next_not_locked (hi.not_deleted hi.next_not_locked hs)
  marked p hp := by
    obtain ⟨hmode, hlt, hl, hb⟩ := hi.marked p hp
    refine ⟨hmode, Nat.lt_succ_of_lt hlt, fun hmem => ?_, hb⟩
    rcases List.mem_append.mp hmem with hmem | hmem
    · exact hl hmem
    · exact hs (List.mem_singleton.mp hmem ▸ hp)
  started p hp := by
    rcases hp with hp | hp
    · rcases List.mem_append.mp hp with hp | hp
      · exact (hi.started p (.inl hp)).imp_left (List.mem_append_left _)
      · rw [(lock_asked cfg mode s.lockManager s.next (txns s.next)).2 p hp]
        exact .inl (List.mem_append_right _ List.mem_cons_self)
    · exact (hi.started p (.inr hp)).imp_left (List.mem_append_left _)
  verifies h := absurd h Bool.false_ne_true

/-- The next transaction is blocked. -/
theorem blockNext (hi : Paired cfg mode txns s) (hs : s.status s.next ≠ .abortedWithoutLock)
    {waits : RemasterWaits} (hw : waits.blockingTxns = (s.waits.block txns s.next).blockingTxns) :
    Paired cfg mode txns { s with waits, next := s.next + 1, verifying := none } where
  toPipeline := hi.toPipeline.blockNext hw rfl rfl
  table := hi.table
  marked p hp := by
    obtain ⟨hmode, hlt, hl, hb⟩ := hi.marked p hp
    refine ⟨hmode, Nat.lt_succ_of_lt hlt, hl, fun r hr => ?_⟩
    change p ∈ waits.blockingTxns r at hr
    rw [hw] at hr
    rcases mem_block.mp hr with hr | ⟨rfl, -⟩
    · exact hb r hr
    · exact hs hp
  started p hp := hi.started p hp
  verifies h := absurd h Bool.false_ne_true

/-- The next transaction is marked, and goes without locks. -/
theorem markNext (hi : Paired cfg mode txns s) (hmode : mode = 2) :
    Paired cfg mode txns
      { s with
        status := update s.status s.next .abortedWithoutLock
        readyTxns := s.readyTxns ++ [s.next], next := s.next + 1, verifying := none } where
  toPipeline := hi.toPipeline.skip rfl rfl rfl
  table := hi.table
  marked p hp := by
    by_cases hne : p = s.next
    · subst hne
      exact ⟨hmode, Nat.lt_succ_self _, hi.next_not_locked, hi.next_fresh⟩
    · obtain ⟨-, hlt, hl⟩ := hi.marked p (by
        change update s.status s.next .abortedWithoutLock p = .abortedWithoutLock at hp
        rwa [update_of_ne hne] at hp)
      exact ⟨hmode, Nat.lt_succ_of_lt hlt, hl⟩
  started p hp := by
    by_cases hne : p = s.next
    · subst hne
      exact .inr (update_self ..)
    · have hstarted : Started s p := by
        rcases hp with hp | hp
        · rcases List.mem_append.mp hp with hp | hp
          · exact .inl hp
          · exact absurd (List.mem_singleton.mp hp) hne
        · exact .inr hp
      refine (hi.started p hstarted).imp_right fun h => ?_
      change update s.status s.next .abortedWithoutLock p = .abortedWithoutLock
      rwa [update_of_ne hne]
  verifies h := absurd h Bool.false_ne_true

theorem next_unmarked (hi : Paired cfg mode txns s) : s.status s.next ≠ .abortedWithoutLock :=
  fun h => Nat.lt_irrefl _ (hi.marked _ h).2.1

theorem parse (hi : Paired cfg mode txns s) (h : parse cfg mode txns s = some s') :
    Paired cfg mode txns s' := by
  obtain ⟨hv, ⟨hmode, -, rfl⟩ | rfl⟩ := parse_any h
  · exact { hi with verifies := fun _ => hmode }
  · have hlock := hi.lockNext hi.next_unmarked
    exact { hlock with verifies := fun h => absurd h (by rw [lock, hv]; exact Bool.false_ne_true) }

theorem route (hi : Paired cfg mode txns s) (hgood : waitsMarked s .route = false)
    (h : route cfg mode txns s = some s') : Paired cfg mode txns s' := by
  unfold DeterministicScheduler.route at h
  split at h
  case h_2 => cases h
  case h_1 v hv =>
      obtain rfl := Option.some.inj h
      have hmode : mode = 2 := hi.verifies (by rw [hv]; rfl)
      have hs := hi.next_unmarked
      cases ha : v.aborted with
      | true =>
          -- a marked transaction does not wait, so it goes on without locks
          have hexec : v.canExecuteNow = true := by
            simpa [waitsMarked, hv, ha] using hgood
          simp only [routeVerified, hexec, if_true, update_self, Bool.true_eq_false, if_false]
          exact hi.markNext hmode
      | false =>
          simp only [Bool.false_eq_true, if_false]
          rcases routeVerified_unmarked cfg mode txns v hs with ⟨waits, hw, heq⟩ | heq
          · rw [heq]
            exact hi.blockNext hs hw
          · rw [heq]
            exact hi.lockNext hs

/-- The steps outside the lock manager. -/
theorem worker (hi : Paired cfg mode txns s) (hthread : SameThread s s') (h : SameLocks s s') :
    Paired cfg mode txns s' where
  toPipeline := hi.toPipeline.congr hthread
  table := by
    rw [h.lockManager, h.locked, h.deleted]
    exact hi.table
  marked p hp := by
    rw [hthread.next, hthread.waits, h.locked]
    exact hi.marked p ((h.marked p).mp hp)
  started p hp := by
    rw [h.locked, h.marked]
    exact hi.started p (h.started p hp)
  verifies := by
    rw [hthread.verifying]
    exact hi.verifies

/-- The woken transactions are locked, the finished one is deleted. -/
theorem wakeDelete {q : Ptr} {rest ready : List Ptr} {s₁ : Node} (hi : Paired cfg mode txns s)
    (hpipeline : Pipeline txns s₁) (hv : s.verifying = none) (hq : s.doneQueue = q :: rest)
    (hpre : ∀ r, s.waits.blockingTxns r =
      ready.filter (fun p => (txns p).originReplica = r) ++ s₁.waits.blockingTxns r)
    (htable : Table cfg mode txns s₁.lockManager (s.locked ++ ready) (q :: s.deleted))
    (hpushed : ∀ p ∈ s₁.readyTxns, p ∈ s.readyTxns ∨ p ∈ s.locked ++ ready)
    (hs₁ : s₁ = { s with
      waits := s₁.waits, lockManager := s₁.lockManager, readyTxns := s₁.readyTxns
      doneQueue := rest, locked := s.locked ++ ready, deleted := q :: s.deleted }) :
    Paired cfg mode txns s₁ := by
  have hlocked : s₁.locked = s.locked ++ ready := by rw [hs₁]
  have hdeleted : s₁.deleted = q :: s.deleted := by rw [hs₁]
  have hstatus : s₁.status = s.status := by rw [hs₁]
  refine
    { hpipeline with
      table := by rw [hlocked, hdeleted]; exact htable
      marked := fun p hp => ?_
      started := fun p hp => ?_
      verifies := fun h => by rw [hs₁, hv] at h; exact absurd h Bool.false_ne_true }
  · rw [hstatus] at hp
    obtain ⟨hmode, hlt, hl, hb⟩ := hi.marked p hp
    refine ⟨hmode, by rw [hs₁]; exact hlt, fun hmem => ?_, fun r hr => hb r ?_⟩
    · rw [hlocked] at hmem
      rcases List.mem_append.mp hmem with hmem | hmem
      · exact hl hmem
      · exact hb _ (Pipeline.ready_blocked hpre hmem)
    · exact Pipeline.rest_blocked hpre hr
  · rw [hlocked, hstatus]
    have hold : Started s p → p ∈ s.locked ++ ready ∨ s.status p = .abortedWithoutLock := fun h =>
      (hi.started p h).imp_left (List.mem_append_left _)
    rcases hp with hp | hp | hp | hp | hp
    · exact (hpushed p hp).elim (fun h => hold (.inl h)) .inl
    · exact hold (.inr (.inl (by rw [hs₁] at hp; exact hp)))
    · exact hold (.inr (.inr (.inl (by rw [hs₁] at hp; exact hp))))
    · refine hold (.inr (.inr (.inr (.inl ?_))))
      rw [hs₁] at hp
      exact hq ▸ List.mem_cons_of_mem _ hp
    · rw [hdeleted] at hp
      rcases List.mem_cons.mp hp with rfl | hp
      · exact hold (.inr (.inr (.inr (.inl (hq ▸ List.mem_cons_self)))))
      · exact hold (.inr (.inr (.inr (.inr hp))))

theorem handleDone (hi : Paired cfg mode txns s) (h : handleDone cfg mode txns s = some s') :
    Paired cfg mode txns s' := by
  have hpipeline : Pipeline txns s' := hi.toPipeline.handleDone h
  obtain ⟨hv, q, rest, waits, ready, s₁, hq, hwake, hrel, rfl⟩ := handleDone_locks h
  obtain ⟨-, hpre⟩ := wakeUp_prefix hi.filed hwake
  have hready : ∀ p ∈ ready, p ∉ s.locked ∧ p ∉ s.deleted := fun p hp =>
    have hblocked := Pipeline.ready_blocked hpre hp
    have hl := hi.disjoint _ p hblocked
    ⟨hl, hi.not_deleted hl fun hs => (hi.marked p hs).2.2.2 _ hblocked⟩
  obtain ⟨htable, hpushed⟩ := foldl_lock_table (s := { s with waits, doneQueue := rest }) ready
    hi.table (hi.ready_nodup hpre) hready
  obtain ⟨lockManager, readyTxns, hfold⟩ := foldl_lock_eq cfg mode txns ready
    { s with waits, doneQueue := rest }
  rw [hfold] at hrel htable hpushed
  dsimp only at htable hpushed
  have hpushed' : ∀ p ∈ readyTxns, p ∈ s.readyTxns ∨ p ∈ s.locked ++ ready := fun p hp =>
    (hpushed p hp).imp_right (List.mem_append_right _)
  rcases releaseDone_cases hrel with ⟨hs, rfl⟩ | ⟨-, lockManager', pushed, hrelease, rfl⟩
  · refine hi.wakeDelete hpipeline hv hq hpre (htable.skip fun hmem => ?_) hpushed' rfl
    obtain ⟨-, -, hl, hb⟩ := hi.marked q hs
    rcases List.mem_append.mp hmem with hmem | hmem
    · exact hl hmem
    · exact hb _ (Pipeline.ready_blocked hpre hmem)
  · obtain ⟨htable', hout⟩ := htable.release hrelease
    refine hi.wakeDelete hpipeline hv hq hpre htable' (fun p hp => ?_) rfl
    rcases List.mem_append.mp hp with hp | hp
    · exact hpushed' p hp
    · exact .inr (hout p hp)

theorem step {e : Event} (hi : Paired cfg mode txns s) (hgood : waitsMarked s e = false)
    (h : step cfg mode txns compute s e = some s') : Paired cfg mode txns s' := by
  cases e with
  | parse => exact hi.parse h
  | verify =>
      obtain ⟨entry, rest, v, hv, rfl⟩ := verify_cases h
      exact { hi with verifies := fun _ => hi.verifies (by rw [hv]; rfl) }
  | route => exact hi.route hgood h
  | dispatch => exact hi.worker (dispatch_frame h) (dispatch_sameLocks h)
  | handleDone => exact hi.handleDone h
  | start =>
      have hthread := start_frame h
      obtain ⟨⟨s₁, sent⟩, hstart, rfl⟩ := Option.map_eq_some_iff.mp h
      exact hi.worker hthread (start_sameLocks hstart)
  | readResult p entries => exact hi.worker (readResult_frame h) (readResult_sameLocks h)
  | run p guid random =>
      have hthread := run_same h
      obtain ⟨⟨s₁, forword⟩, hrun, rfl⟩ := Option.map_eq_some_iff.mp h
      exact hi.worker hthread (run_sameLocks (fun hs => (hi.marked p hs).1) hrun)

end Paired

end Calvin.DeterministicScheduler
