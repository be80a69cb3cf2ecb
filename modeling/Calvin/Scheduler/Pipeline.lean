import Calvin.Scheduler.DeterministicSchedulerSpec

/-!
# The way of a transaction through the scheduler

In every mode: a transaction that is blocked has not been passed to `Lock`, and
none is passed to it twice. Which transactions are woken and in which order the
blocking queues hold them is part of the same invariant.

* `Pipeline`: the invariant;
* `Pipeline.step`: every step keeps it.
-/

namespace Calvin.DeterministicScheduler

open Function Lib RemasterWaits

variable {cfg : ClusterConfig} {mode : Nat} {txns : Ptr → TxnProto} {compute : Compute}

/-! ## Steps in any mode -/

theorem parse_any {s s' : Node} (h : parse cfg mode txns s = some s') :
    s.verifying = none ∧
    ((mode = 2 ∧ (txns s.next).remasterTxn = false ∧
        s' = { s with
          verifying := some ((txns s.next).readSet ++ (txns s.next).readWriteSet, {}) }) ∨
      s' = { lock cfg mode txns s s.next with next := s.next + 1 }) := by
  unfold parse at h
  split at h
  case isFalse => cases h
  case isTrue hv =>
      refine ⟨Option.isNone_iff_eq_none.mp hv, ?_⟩
      dsimp only at h
      split at h
      case isTrue hr => exact .inl ⟨hr.1, hr.2, (Option.some.inj h).symm⟩
      case isFalse => exact .inr (Option.some.inj h).symm

/-- What is woken is taken from the fronts of the blocking queues. -/
theorem wakeUp_prefix {s : Node} {p : Ptr} {waits : RemasterWaits} {ready : List Ptr}
    (hfiled : Filed txns s.waits) (h : wakeUp mode txns s p = some (waits, ready)) :
    Filed txns waits ∧ ∀ r, s.waits.blockingTxns r =
      ready.filter (fun q => (txns q).originReplica = r) ++ waits.blockingTxns r := by
  by_cases hmode : mode = 2
  · subst hmode
    rcases wakeUp_cases h with ⟨-, rfl, rfl⟩ | ⟨-, entry, -, -, hwake⟩
    · exact ⟨hfiled, fun _ => rfl⟩
    · exact wake_prefix hfiled hwake
  · rw [wakeUp, if_neg fun h => hmode h.1] at h
    cases h
    exact ⟨hfiled, fun _ => rfl⟩

/-- A worker ends a transaction: it is executed, or its status stays with it
whether it was marked `ABORTED_WITHOUT_LOCK`. -/
theorem run_any {s s' : Node} {p : Ptr} {guid random : Nat} {forword : Option TxnForword}
    (h : run cfg mode txns compute s p guid random = some (s', forword)) :
    ∃ sm store status, s.managers p = some sm ∧ sm.readyToExecute (txns p) = true ∧
      s' = finish { s with store } p status ∧
      ((status = .committed ∧ (mode = 2 → s.status p ≠ .abortedWithoutLock)) ∨
        (mode = 2 ∧ (status = .abortedWithoutLock ↔ s.status p = .abortedWithoutLock))) := by
  rw [run, Option.bind_eq_some_iff] at h
  obtain ⟨sm, hsm, h⟩ := h
  split at h
  case isFalse => cases h
  case isTrue hready =>
      dsimp only at h
      split at h
      case isTrue hmode =>
          rw [Option.bind_eq_some_iff] at h
          obtain ⟨⟨decision, status, fwd⟩, hcheck, h⟩ := h
          obtain ⟨hstatus, hmarked⟩ := StorageManager.checkCommitOrAbort_status hcheck
          dsimp only at h
          split at h
          case isTrue hd =>
              cases h
              exact ⟨sm, s.store, status, hsm, hready, rfl, .inr ⟨hmode, hstatus⟩⟩
          case isFalse hd =>
              rw [Option.map_eq_some_iff] at h
              obtain ⟨store, -, heq⟩ := h
              cases heq
              exact ⟨sm, store, _, hsm, hready, rfl, .inl ⟨rfl, fun _ hs => hd (hmarked hs)⟩⟩
      case isFalse hmode =>
          rw [Option.map_eq_some_iff] at h
          obtain ⟨store, -, heq⟩ := h
          cases heq
          exact ⟨sm, store, _, hsm, hready, rfl, .inl ⟨rfl, fun h => absurd h hmode⟩⟩

theorem run_same {s s' : Node} {p : Ptr} {guid random : Nat}
    (h : (run cfg mode txns compute s p guid random).map Prod.fst = some s') : SameThread s s' := by
  rw [Option.map_eq_some_iff] at h
  obtain ⟨⟨s₁, forword⟩, hrun, rfl⟩ := h
  obtain ⟨sm, store, status, -, -, rfl, -⟩ := run_any hrun
  exact ⟨rfl, rfl, rfl, rfl⟩

/-- A finished transaction: those it wakes are passed to `Lock`, then it gives
its own locks back. -/
theorem handleDone_locks {s s' : Node} (h : handleDone cfg mode txns s = some s') :
    s.verifying = none ∧ ∃ p rest waits ready s₁, s.doneQueue = p :: rest ∧
      wakeUp mode txns s p = some (waits, ready) ∧
      releaseDone cfg mode txns
        (ready.foldl (lock cfg mode txns) { s with waits, doneQueue := rest }) p = some s₁ ∧
      s' = { s₁ with deleted := p :: s₁.deleted } := by
  unfold handleDone at h
  split at h
  case isFalse => cases h
  case isTrue hv =>
      refine ⟨Option.isNone_iff_eq_none.mp hv, ?_⟩
      cases hq : s.doneQueue with
      | nil => rw [hq] at h; cases h
      | cons p rest =>
          rw [hq, Option.bind_eq_some_iff] at h
          obtain ⟨⟨waits, ready⟩, hwake, h⟩ := h
          rw [Option.map_eq_some_iff] at h
          obtain ⟨s₁, hrel, rfl⟩ := h
          exact ⟨p, rest, waits, ready, s₁, rfl, hwake, hrel, rfl⟩

/-! ## The invariant -/

/-- The blocking queues and the calls of `Lock`. -/
structure Pipeline (txns : Ptr → TxnProto) (s : Node) : Prop where
  filed : Filed txns s.waits
  blockedOld : ∀ r, ∀ p ∈ s.waits.blockingTxns r, p < s.next
  lockedOld : ∀ p ∈ s.locked, p < s.next
  sorted : ∀ r, (s.waits.blockingTxns r).Pairwise (· < ·)
  disjoint : ∀ r, ∀ p ∈ s.waits.blockingTxns r, p ∉ s.locked
  nodup : s.locked.Nodup

theorem pipeline_init (store : Key → Record) : Pipeline txns (initial txns store) where
  filed := by intro r p hp; exact absurd hp List.not_mem_nil
  blockedOld := by intro r p hp; exact absurd hp List.not_mem_nil
  lockedOld := by intro p hp; exact absurd hp List.not_mem_nil
  sorted := by intro r; exact List.Pairwise.nil
  disjoint := by intro r p hp; exact absurd hp List.not_mem_nil
  nodup := List.nodup_nil

namespace Pipeline

theorem congr {s s' : Node} (hi : Pipeline txns s) (h : SameThread s s') : Pipeline txns s' where
  filed := by rw [h.waits]; exact hi.filed
  blockedOld := by rw [h.waits, h.next]; exact hi.blockedOld
  lockedOld := by rw [h.locked, h.next]; exact hi.lockedOld
  sorted := by rw [h.waits]; exact hi.sorted
  disjoint := by rw [h.waits, h.locked]; exact hi.disjoint
  nodup := by rw [h.locked]; exact hi.nodup

theorem next_not_locked {s : Node} (hi : Pipeline txns s) : s.next ∉ s.locked := fun h =>
  Nat.lt_irrefl _ (hi.lockedOld _ h)

theorem next_fresh {s : Node} (hi : Pipeline txns s) : Fresh s.waits s.next := fun r h =>
  Nat.lt_irrefl _ (hi.blockedOld r _ h)

/-- The next transaction is passed on without locks. -/
theorem skip {s s' : Node} (hi : Pipeline txns s) (hw : s'.waits = s.waits)
    (hl : s'.locked = s.locked) (hn : s'.next = s.next + 1) : Pipeline txns s' where
  filed := by rw [hw]; exact hi.filed
  blockedOld := by
    intro r p hp
    rw [hw] at hp
    rw [hn]
    exact Nat.lt_succ_of_lt (hi.blockedOld r p hp)
  lockedOld := by
    intro p hp
    rw [hl] at hp
    rw [hn]
    exact Nat.lt_succ_of_lt (hi.lockedOld p hp)
  sorted := by rw [hw]; exact hi.sorted
  disjoint := by rw [hw, hl]; exact hi.disjoint
  nodup := by rw [hl]; exact hi.nodup

/-- The next transaction is passed to `Lock`. -/
theorem lockNext {s s' : Node} (hi : Pipeline txns s) (hw : s'.waits = s.waits)
    (hl : s'.locked = s.locked ++ [s.next]) (hn : s'.next = s.next + 1) : Pipeline txns s' where
  filed := by rw [hw]; exact hi.filed
  blockedOld := by
    intro r p hp
    rw [hw] at hp
    rw [hn]
    exact Nat.lt_succ_of_lt (hi.blockedOld r p hp)
  lockedOld := by
    intro p hp
    rw [hl] at hp
    rw [hn]
    rcases List.mem_append.mp hp with hp | hp
    · exact Nat.lt_succ_of_lt (hi.lockedOld p hp)
    · rw [List.mem_singleton.mp hp]
      exact Nat.lt_succ_self _
  sorted := by rw [hw]; exact hi.sorted
  disjoint := by
    intro r p hp hlocked
    rw [hw] at hp
    rw [hl] at hlocked
    rcases List.mem_append.mp hlocked with h | h
    · exact hi.disjoint r p hp h
    · rw [List.mem_singleton.mp h] at hp
      exact hi.next_fresh r hp
  nodup := by
    rw [hl]
    exact hi.nodup.append (List.nodup_singleton _) fun p hp hp' =>
      hi.next_not_locked (List.mem_singleton.mp hp' ▸ hp)

/-- The next transaction is blocked. -/
theorem blockNext {s s' : Node} (hi : Pipeline txns s)
    (hw : s'.waits.blockingTxns = (s.waits.block txns s.next).blockingTxns)
    (hl : s'.locked = s.locked) (hn : s'.next = s.next + 1) : Pipeline txns s' where
  filed := by
    intro r p hp
    rw [hw] at hp
    exact filed_block hi.filed r p hp
  blockedOld := by
    intro r p hp
    rw [hw] at hp
    rw [hn]
    rcases mem_block.mp hp with hp | ⟨rfl, -⟩
    · exact Nat.lt_succ_of_lt (hi.blockedOld r p hp)
    · exact Nat.lt_succ_self _
  lockedOld := by
    intro p hp
    rw [hl] at hp
    rw [hn]
    exact Nat.lt_succ_of_lt (hi.lockedOld p hp)
  sorted := by
    intro r
    rw [hw]
    by_cases hr : r = (txns s.next).originReplica
    · subst hr
      simp only [block, update_self]
      refine List.pairwise_append.mpr ⟨hi.sorted _, List.pairwise_singleton _ _, ?_⟩
      intro p hp q hq
      rw [List.mem_singleton.mp hq]
      exact hi.blockedOld _ p hp
    · simp only [block, update_of_ne hr]
      exact hi.sorted r
  disjoint := by
    intro r p hp
    rw [hw] at hp
    rw [hl]
    rcases mem_block.mp hp with hp | ⟨rfl, -⟩
    · exact hi.disjoint r p hp
    · exact hi.next_not_locked
  nodup := by rw [hl]; exact hi.nodup

/-! ## What is woken -/

section

variable {s : Node} {ready : List Ptr} {waits : RemasterWaits}

theorem ready_blocked (hpre : ∀ r, s.waits.blockingTxns r =
      ready.filter (fun p => (txns p).originReplica = r) ++ waits.blockingTxns r)
    {p : Ptr} (hp : p ∈ ready) : p ∈ s.waits.blockingTxns (txns p).originReplica := by
  rw [hpre]
  exact List.mem_append_left _ (List.mem_filter.mpr ⟨hp, decide_eq_true rfl⟩)

theorem rest_blocked (hpre : ∀ r, s.waits.blockingTxns r =
      ready.filter (fun p => (txns p).originReplica = r) ++ waits.blockingTxns r)
    {r : Nat} {p : Ptr} (hp : p ∈ waits.blockingTxns r) : p ∈ s.waits.blockingTxns r := by
  rw [hpre]
  exact List.mem_append_right _ hp

/-- Within one origin, what is ready comes before what is still blocked. -/
theorem split (hi : Pipeline txns s) (hpre : ∀ r, s.waits.blockingTxns r =
      ready.filter (fun p => (txns p).originReplica = r) ++ waits.blockingTxns r) (r : Nat) :
    (ready.filter fun p => (txns p).originReplica = r).Pairwise (· < ·) ∧
      ∀ p ∈ ready, (txns p).originReplica = r → ∀ q ∈ waits.blockingTxns r, p < q := by
  have h := hi.sorted r
  rw [hpre] at h
  obtain ⟨hsorted, -, hlt⟩ := List.pairwise_append.mp h
  refine ⟨hsorted, fun p hp hr q hq => hlt p ?_ q hq⟩
  exact List.mem_filter.mpr ⟨hp, decide_eq_true hr⟩

theorem ready_nodup (hi : Pipeline txns s) (hpre : ∀ r, s.waits.blockingTxns r =
      ready.filter (fun p => (txns p).originReplica = r) ++ waits.blockingTxns r) :
    ready.Nodup := by
  refine List.nodup_iff_count_le_one.mpr fun p => ?_
  have hone := List.nodup_iff_count_le_one.mp
    ((hi.split hpre (txns p).originReplica).1.imp Nat.ne_of_lt) p
  have hself : decide ((txns p).originReplica = (txns p).originReplica) = true :=
    decide_eq_true rfl
  rwa [List.count_filter (p := fun q => decide ((txns q).originReplica = (txns p).originReplica))
    hself] at hone

/-- The first transactions of the queues are passed to `Lock`. -/
theorem wake {s' : Node} (hi : Pipeline txns s) (hfiled : Filed txns s'.waits)
    (hpre : ∀ r, s.waits.blockingTxns r =
      ready.filter (fun p => (txns p).originReplica = r) ++ s'.waits.blockingTxns r)
    (hl : s'.locked = s.locked ++ ready) (hn : s'.next = s.next) : Pipeline txns s' := by
  refine
    { filed := hfiled
      blockedOld := fun r p hp => by rw [hn]; exact hi.blockedOld r p (rest_blocked hpre hp)
      lockedOld := ?_
      sorted := ?_
      disjoint := ?_
      nodup := ?_ }
  · intro p hp
    rw [hl] at hp
    rw [hn]
    rcases List.mem_append.mp hp with hp | hp
    · exact hi.lockedOld p hp
    · exact hi.blockedOld _ p (ready_blocked hpre hp)
  · intro r
    have h := hi.sorted r
    rw [hpre] at h
    exact (List.pairwise_append.mp h).2.1
  · intro r p hp hlocked
    rw [hl] at hlocked
    rcases List.mem_append.mp hlocked with h | h
    · exact hi.disjoint r p (rest_blocked hpre hp) h
    · exact Nat.lt_irrefl _ ((hi.split hpre r).2 p h (hfiled r p hp) p hp)
  · rw [hl]
    exact hi.nodup.append (hi.ready_nodup hpre) fun p hp hp' =>
      hi.disjoint _ p (ready_blocked hpre hp') hp

end

theorem handleDone {s s' : Node} (hi : Pipeline txns s)
    (h : handleDone cfg mode txns s = some s') : Pipeline txns s' := by
  obtain ⟨-, p, rest, waits, ready, -, hwake, lockManager, readyTxns, rfl⟩ := handleDone_cases h
  obtain ⟨hfiled, hpre⟩ := wakeUp_prefix hi.filed hwake
  exact hi.wake hfiled hpre rfl rfl

theorem step {s s' : Node} {e : Event} (hi : Pipeline txns s)
    (h : step cfg mode txns compute s e = some s') : Pipeline txns s' := by
  cases e with
  | parse =>
      obtain ⟨-, ⟨-, -, rfl⟩ | rfl⟩ := parse_any h
      · exact ⟨hi.filed, hi.blockedOld, hi.lockedOld, hi.sorted, hi.disjoint, hi.nodup⟩
      · exact hi.lockNext rfl rfl rfl
  | verify =>
      obtain ⟨entry, rest, v, -, rfl⟩ := verify_cases h
      exact ⟨hi.filed, hi.blockedOld, hi.lockedOld, hi.sorted, hi.disjoint, hi.nodup⟩
  | route =>
      obtain ⟨v, status, -, -, rfl⟩ := route_cases h
      rcases routeVerified_cases cfg mode txns { s with status } s.next v with
        ⟨-, heq⟩ | ⟨-, -, heq⟩ | ⟨-, -, heq⟩ | ⟨-, -, heq⟩
      · rw [heq]
        exact hi.blockNext rfl rfl rfl
      · rw [heq]
        exact hi.skip rfl rfl rfl
      · rw [heq]
        exact hi.blockNext rfl rfl rfl
      · rw [heq]
        exact hi.lockNext rfl rfl rfl
  | dispatch => exact hi.congr (dispatch_frame h)
  | handleDone => exact hi.handleDone h
  | start => exact hi.congr (start_frame h)
  | readResult p entries => exact hi.congr (readResult_frame h)
  | run p guid random => exact hi.congr (run_same h)

end Pipeline

end Calvin.DeterministicScheduler
