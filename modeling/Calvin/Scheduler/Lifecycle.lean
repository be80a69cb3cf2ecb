import Calvin.Scheduler.LockOwners

/-!
# No transaction is started twice

A transaction is in at most one of the queues from `ready_txns_` on, whatever the
lock table looks like: a counter of missing locks passes zero once. This needs
no condition on the run, nor on the keys of a transaction.

* `stages`: how often a transaction waits for locks or is past them;
* `Lifecycle`: the invariant, with `Lifecycle.step`.
-/

namespace Calvin

open Function Lib

namespace LockManager

variable {cfg : ClusterConfig} {mode : Nat} {p q : Ptr} {lm lm' : LockManager} {out : List Ptr}

/-- One if the transaction still misses locks. A counter that is granted after
zero goes below and never comes back. -/
def missesLocks (waits : Ptr → Option Int) (p : Ptr) : Nat :=
  if 0 < (waits p).getD 0 then 1 else 0

theorem missesLocks_le (waits : Ptr → Option Int) (p : Ptr) : missesLocks waits p ≤ 1 := by
  unfold missesLocks
  split <;> omega

/-- What is pushed missed locks before, and does not any more. -/
theorem grant_once (ns : List Ptr) (waits : Ptr → Option Int) (p : Ptr) :
    (grant waits ns).2.count p + missesLocks (grant waits ns).1 p ≤ missesLocks waits p := by
  induction ns generalizing waits with
  | nil => exact Nat.le_of_eq (Nat.zero_add _)
  | cons n rest ih =>
      by_cases hz : (waits n).getD 0 - 1 = 0
      · have h := ih (update waits n none)
        simp only [grant, if_pos hz, List.count_cons]
        by_cases hp : p = n
        · subst hp
          have hnone : missesLocks (update waits p none) p = 0 := by simp [missesLocks]
          have hone : missesLocks waits p = 1 := if_pos (by omega)
          simp only [beq_self_eq_true, if_true]
          omega
        · have hsame : missesLocks (update waits n none) p = missesLocks waits p := by
            simp [missesLocks, hp]
          have hbeq : (n == p) = false := beq_false_of_ne (Ne.symm hp)
          simp only [hbeq, Bool.false_eq_true, if_false]
          omega
      · have h := ih (update waits n (some ((waits n).getD 0 - 1)))
        simp only [grant, if_neg hz]
        have hle : missesLocks (update waits n (some ((waits n).getD 0 - 1))) p ≤
            missesLocks waits p := by
          by_cases hp : p = n
          · subst hp
            simp only [missesLocks, update_self, Option.getD_some]
            split <;> split <;> omega
          · simp [missesLocks, hp]
        omega

theorem releaseKey_once {k : Key} (h : lm.releaseKey k q = some (lm', out)) (p : Ptr) :
    out.count p + missesLocks lm'.txnWaits p ≤ missesLocks lm.txnWaits p := by
  rw [releaseKey, Option.map_eq_some_iff] at h
  obtain ⟨requests, -, h⟩ := h
  dsimp only at h
  split at h
  case h_1 =>
      cases h
      exact Nat.le_of_eq (Nat.zero_add _)
  case h_2 target post _ =>
      obtain ⟨rfl, rfl⟩ := Prod.mk.inj h
      exact grant_once _ _ p

theorem releaseEntries_once {origin : Nat} (entries : List KeyEntry)
    (h : releaseEntries cfg mode origin q lm entries = some (lm', out)) (p : Ptr) :
    out.count p + missesLocks lm'.txnWaits p ≤ missesLocks lm.txnWaits p := by
  induction entries generalizing lm lm' out with
  | nil =>
      cases h
      exact Nat.le_of_eq (Nat.zero_add _)
  | cons e rest ih =>
      rw [releaseEntries] at h
      split at h
      case isTrue =>
          rw [Option.bind_eq_some_iff] at h
          obtain ⟨⟨lm₁, out₁⟩, hkey, h⟩ := h
          rw [Option.map_eq_some_iff] at h
          obtain ⟨⟨lm₂, out₂⟩, hrest, h⟩ := h
          cases h
          have h₁ := releaseKey_once hkey p
          have h₂ := ih hrest
          rw [List.count_append]
          omega
      case isFalse => exact ih h

theorem release_once {txn : TxnProto} (h : lm.release cfg mode q txn = some (lm', out)) (p : Ptr) :
    out.count p + missesLocks lm'.txnWaits p ≤ missesLocks lm.txnWaits p :=
  releaseEntries_once _ h p

theorem foldl_request_txnWaits (reqs : List (Key × LockMode)) (st : LockManager × Nat) :
    (reqs.foldl (request q) st).1.txnWaits = st.1.txnWaits := by
  induction reqs generalizing st with
  | nil => rfl
  | cons a rest ih =>
      rw [List.foldl_cons, ih]
      unfold request
      dsimp only
      split <;> rfl

/-- `Lock` pushes its transaction or lets it wait. -/
theorem lock_once (cfg : ClusterConfig) (mode : Nat) (lm : LockManager) (q : Ptr) (txn : TxnProto)
    (p : Ptr) :
    (lm.lock cfg mode q txn).2.count p + missesLocks (lm.lock cfg mode q txn).1.txnWaits p ≤
      missesLocks lm.txnWaits p + [q].count p := by
  have hwaits := foldl_request_txnWaits (q := q) (lockRequests cfg mode txn) (lm, 0)
  rw [lock_eq]
  dsimp only
  split
  · dsimp only
    rw [hwaits]
    by_cases hp : p = q
    · subst hp
      have h := missesLocks_le (update lm.txnWaits p
        (some (((lockRequests cfg mode txn).foldl (request p) (lm, 0)).2 : Int))) p
      simp only [List.count_nil, List.count_singleton_self]
      omega
    · simp [missesLocks, hp]
  · dsimp only at hwaits ⊢
    rw [hwaits]
    omega

end LockManager

namespace DeterministicScheduler

open RemasterWaits LockManager

variable {cfg : ClusterConfig} {mode : Nat} {txns : Ptr → TxnProto} {compute : Compute}

/-- How often a transaction waits for locks, is in a queue after that, has a
manager, or is deleted. -/
def stages (s : Node) (p : Ptr) : Nat :=
  missesLocks s.lockManager.txnWaits p + s.readyTxns.count p + s.txnsQueue.count p +
    (s.managers p).toList.length + s.doneQueue.count p + s.deleted.count p

structure Lifecycle (txns : Ptr → TxnProto) (s : Node) : Prop extends Pipeline txns s where
  once : ∀ p, stages s p ≤ 1
  fresh : ∀ p, 0 < stages s p → p < s.next ∧ ∀ r, p ∉ s.waits.blockingTxns r

theorem lifecycle_init (store : Key → Record) : Lifecycle txns (initial txns store) where
  toPipeline := pipeline_init store
  once _ := Nat.zero_le _
  fresh _ h := absurd h (Nat.lt_irrefl 0)

namespace Lifecycle

variable {s s' : Node} {p : Ptr}

theorem next_zero (hi : Lifecycle txns s) : stages s s.next = 0 := by
  by_contra h
  exact Nat.lt_irrefl _ (hi.fresh s.next (by omega)).1

theorem blocked_zero (hi : Lifecycle txns s) {r : Nat} (h : p ∈ s.waits.blockingTxns r) :
    stages s p = 0 := by
  by_contra hne
  exact (hi.fresh p (by omega)).2 r h

/-- A transaction whose manager exists is in no queue and not deleted. -/
theorem of_manager (hi : Lifecycle txns s) {sm : StorageManager} (h : s.managers p = some sm) :
    p ∉ s.txnsQueue ∧ p ∉ s.doneQueue ∧ p ∉ s.deleted := by
  have hone := hi.once p
  rw [stages, h, Option.toList_some, List.length_singleton] at hone
  refine ⟨fun hmem => ?_, fun hmem => ?_, fun hmem => ?_⟩
  all_goals
    have := List.count_pos_iff.mpr hmem
    omega

/-- A transaction in `txns_queue_` has no manager yet. -/
theorem of_queued (hi : Lifecycle txns s) (h : p ∈ s.txnsQueue) :
    s.managers p = none ∧ p ∉ s.doneQueue ∧ p ∉ s.deleted := by
  have hone := hi.once p
  have hpos := List.count_pos_iff.mpr h
  unfold stages at hone
  refine ⟨?_, fun hmem => ?_, fun hmem => ?_⟩
  · cases hsm : s.managers p with
    | none => rfl
    | some sm =>
        rw [hsm, Option.toList_some, List.length_singleton] at hone
        omega
  all_goals
    have := List.count_pos_iff.mpr hmem
    omega

/-- What is in `done_queue_` is not deleted. -/
theorem of_done (hi : Lifecycle txns s) (h : p ∈ s.doneQueue) : p ∉ s.deleted := by
  have hone := hi.once p
  have hpos := List.count_pos_iff.mpr h
  unfold stages at hone
  intro hmem
  have := List.count_pos_iff.mpr hmem
  omega

theorem lt_next (hi : Lifecycle txns s) (h : 0 < stages s p) : p < s.next := (hi.fresh p h).1

/-- The lock manager thread goes on to the next transaction: it may start, or it
is blocked. -/
theorem take (hi : Lifecycle txns s) (hpipeline : Pipeline txns s') (hn : s'.next = s.next + 1)
    (hstages : ∀ p, stages s' p ≤ stages s p + [s.next].count p)
    (hblocked : ∀ r, ∀ p ∈ s'.waits.blockingTxns r,
      p ∈ s.waits.blockingTxns r ∨ p = s.next ∧ stages s' p = 0) :
    Lifecycle txns s' := by
  have hne : ∀ p, p ≠ s.next → stages s' p ≤ stages s p := by
    intro p hp
    have h := hstages p
    rwa [List.count_singleton, if_neg (by simpa using Ne.symm hp)] at h
  refine { hpipeline with once := fun p => ?_, fresh := fun p hpos => ?_ }
  · by_cases hp : p = s.next
    · subst hp
      have h := hstages s.next
      rw [hi.next_zero, List.count_singleton_self] at h
      exact h
    · exact Nat.le_trans (hne p hp) (hi.once p)
  · by_cases hp : p = s.next
    · subst hp
      refine ⟨hn ▸ Nat.lt_succ_self _, fun r hr => ?_⟩
      rcases hblocked r _ hr with hr | ⟨-, hzero⟩
      · exact hi.next_fresh r hr
      · omega
    · obtain ⟨hlt, hb⟩ := hi.fresh p (Nat.lt_of_lt_of_le hpos (hne p hp))
      refine ⟨hn ▸ Nat.lt_succ_of_lt hlt, fun r hr => ?_⟩
      rcases hblocked r p hr with hr | ⟨hp', -⟩
      · exact hb r hr
      · exact hp hp'

/-- The next transaction is blocked. -/
theorem block (hi : Lifecycle txns s) {waits : RemasterWaits} {status : Ptr → Status}
    (hw : waits.blockingTxns = (s.waits.block txns s.next).blockingTxns)
    (hpipeline : Pipeline txns
      { s with waits, status, next := s.next + 1, verifying := none }) :
    Lifecycle txns { s with waits, status, next := s.next + 1, verifying := none } := by
  refine hi.take hpipeline rfl (fun p => Nat.le_add_right _ _) fun r p hr => ?_
  change p ∈ waits.blockingTxns r at hr
  rw [hw] at hr
  rcases mem_block.mp hr with hr | ⟨rfl, -⟩
  · exact .inl hr
  · exact .inr ⟨rfl, hi.next_zero⟩

/-- Steps in which nothing is locked. -/
theorem quiet (hi : Lifecycle txns s) (hsame : SameThread s s')
    (hstages : ∀ p, stages s' p ≤ stages s p) : Lifecycle txns s' where
  toPipeline := hi.toPipeline.congr hsame
  once p := Nat.le_trans (hstages p) (hi.once p)
  fresh p hpos := by
    rw [hsame.next, hsame.waits]
    exact hi.fresh p (Nat.lt_of_lt_of_le hpos (hstages p))

end Lifecycle

theorem stages_lock (cfg : ClusterConfig) (mode : Nat) (txns : Ptr → TxnProto) (s : Node)
    (q p : Ptr) :
    stages (lock cfg mode txns s q) p ≤ stages s p + [q].count p := by
  have h := lock_once cfg mode s.lockManager q (txns q) p
  show missesLocks (s.lockManager.lock cfg mode q (txns q)).1.txnWaits p +
      (s.readyTxns ++ (s.lockManager.lock cfg mode q (txns q)).2).count p + s.txnsQueue.count p +
      (s.managers p).toList.length + s.doneQueue.count p + s.deleted.count p ≤ _
  rw [List.count_append]
  unfold stages
  omega

theorem stages_foldl_lock (cfg : ClusterConfig) (mode : Nat) (txns : Ptr → TxnProto)
    (ready : List Ptr) (s : Node) (p : Ptr) :
    stages (ready.foldl (lock cfg mode txns) s) p ≤ stages s p + ready.count p := by
  induction ready generalizing s with
  | nil => exact Nat.le_refl _
  | cons q ready ih =>
      have h := ih (lock cfg mode txns s q)
      have hq := stages_lock cfg mode txns s q p
      have hcount : (q :: ready).count p = [q].count p + ready.count p := by
        rw [← List.count_append]
        rfl
      rw [List.foldl_cons, hcount]
      omega

theorem stages_releaseDone {s s' : Node} {q : Ptr} (h : releaseDone cfg mode txns s q = some s')
    (p : Ptr) : stages s' p ≤ stages s p := by
  rcases releaseDone_cases h with ⟨-, rfl⟩ | ⟨-, lockManager, pushed, hrelease, rfl⟩
  · exact Nat.le_refl _
  · have hout := release_once hrelease p
    unfold stages
    dsimp only
    rw [List.count_append]
    omega

namespace Lifecycle

variable {s s' : Node}

theorem parse (hi : Lifecycle txns s) (h : parse cfg mode txns s = some s') :
    Lifecycle txns s' := by
  obtain ⟨-, ⟨-, -, rfl⟩ | rfl⟩ := parse_any h
  · exact ⟨⟨hi.filed, hi.blockedOld, hi.lockedOld, hi.sorted, hi.disjoint, hi.nodup⟩, hi.once,
      hi.fresh⟩
  · refine hi.take (hi.toPipeline.lockNext rfl rfl rfl) rfl (fun p => ?_) fun r p hp => .inl hp
    exact stages_lock cfg mode txns s s.next p

theorem route (hi : Lifecycle txns s) (h : route cfg mode txns s = some s') :
    Lifecycle txns s' := by
  have hstep : step cfg mode txns (fun _ _ _ => []) s .route = some s' := h
  have hp := hi.toPipeline.step hstep
  obtain ⟨v, status, -, -, rfl⟩ := route_cases h
  rcases routeVerified_cases cfg mode txns { s with status } s.next v with
    ⟨-, heq⟩ | ⟨-, -, heq⟩ | ⟨-, -, heq⟩ | ⟨-, -, heq⟩
  · rw [heq] at hp ⊢
    exact hi.block rfl hp
  · rw [heq] at hp ⊢
    refine hi.take hp rfl (fun p => ?_) fun r p hr => .inl hr
    -- marked: it goes to `ready_txns_` without locks
    unfold stages
    dsimp only
    rw [List.count_append]
    omega
  · rw [heq] at hp ⊢
    exact hi.block rfl hp
  · rw [heq] at hp ⊢
    refine hi.take hp rfl (fun p => ?_) fun r p hr => .inl hr
    exact stages_lock cfg mode txns { s with status } s.next p

theorem handleDone (hi : Lifecycle txns s) (h : handleDone cfg mode txns s = some s') :
    Lifecycle txns s' := by
  have hpipeline : Pipeline txns s' := hi.toPipeline.handleDone h
  obtain ⟨-, q, rest, waits, ready, s₁, hq, hwake, hrel, rfl⟩ := handleDone_locks h
  obtain ⟨-, hpre⟩ := wakeUp_prefix hi.filed hwake
  obtain ⟨lockManager, readyTxns, hfold⟩ :=
    foldl_lock_eq cfg mode txns ready { s with waits, doneQueue := rest }
  have hstages : ∀ p, stages { s₁ with deleted := q :: s₁.deleted } p ≤
      stages s p + ready.count p := by
    intro p
    have h₁ := stages_releaseDone hrel p
    have h₂ := stages_foldl_lock cfg mode txns ready
      { s with waits, doneQueue := rest } p
    have h₃ : stages { s with waits, doneQueue := rest } p + [q].count p = stages s p := by
      unfold stages
      rw [hq]
      dsimp only
      simp only [List.count_cons, List.count_nil]
      omega
    have h₄ : stages { s₁ with deleted := q :: s₁.deleted } p = stages s₁ p + [q].count p := by
      unfold stages
      dsimp only
      simp only [List.count_cons, List.count_nil]
      omega
    omega
  have hframe : s₁.next = s.next ∧ s₁.waits = waits ∧ s₁.locked = s.locked ++ ready := by
    rw [hfold] at hrel
    rcases releaseDone_cases hrel with ⟨-, rfl⟩ | ⟨-, lockManager', pushed, -, rfl⟩
    · exact ⟨rfl, rfl, rfl⟩
    · exact ⟨rfl, rfl, rfl⟩
  refine { hpipeline with once := fun p => ?_, fresh := fun p hpos => ?_ }
  · have h := hstages p
    by_cases hp : p ∈ ready
    · have hzero := hi.blocked_zero (Pipeline.ready_blocked hpre hp)
      have hone := List.nodup_iff_count_le_one.mp (hi.ready_nodup hpre) p
      omega
    · rw [List.count_eq_zero.mpr hp] at h
      exact Nat.le_trans h (hi.once p)
  · show p < s₁.next ∧ ∀ r, p ∉ s₁.waits.blockingTxns r
    rw [hframe.1, hframe.2.1]
    by_cases hp : p ∈ ready
    · refine ⟨hi.blockedOld _ p (Pipeline.ready_blocked hpre hp), fun r hr => ?_⟩
      refine hpipeline.disjoint r p ?_ ?_
      · show p ∈ s₁.waits.blockingTxns r
        rwa [hframe.2.1]
      · show p ∈ s₁.locked
        rw [hframe.2.2]
        exact List.mem_append_right _ hp
    · have h := hstages p
      rw [List.count_eq_zero.mpr hp] at h
      obtain ⟨hlt, hb⟩ := hi.fresh p (Nat.lt_of_lt_of_le hpos h)
      exact ⟨hlt, fun r hr => hb r (Pipeline.rest_blocked hpre hr)⟩

theorem dispatch (hi : Lifecycle txns s) (h : dispatch s = some s') : Lifecycle txns s' := by
  refine hi.quiet (dispatch_frame h) fun p => ?_
  obtain ⟨-, q, rest, hq, rfl⟩ := dispatch_cases h
  unfold stages
  rw [hq, List.count_cons]
  dsimp only
  rw [List.count_append, List.count_singleton]
  omega

theorem start {sent : List ReadResult} (hi : Lifecycle txns s)
    (h : start cfg mode txns s = some (s', sent)) : Lifecycle txns s' := by
  refine hi.quiet (start_frame (Option.map_eq_some_iff.mpr ⟨_, h, rfl⟩)) fun p => ?_
  obtain ⟨q, rest, hq, -, rfl⟩ := start_cases h
  unfold stages
  rw [hq, List.count_cons]
  dsimp only
  by_cases hp : p = q
  · subst hp
    rw [update_self, Option.toList_some, List.length_singleton, beq_self_eq_true, if_pos rfl]
    omega
  · rw [update_of_ne hp]
    omega

theorem readResult {q : Ptr} {entries : List (Key × Record)} (hi : Lifecycle txns s)
    (h : readResult txns s q entries = some s') : Lifecycle txns s' := by
  refine hi.quiet (readResult_frame h) fun p => ?_
  obtain ⟨sm, hsm, -, rfl⟩ := readResult_cases h
  unfold stages
  dsimp only
  by_cases hp : p = q
  · subst hp
    rw [update_self, hsm, Option.toList_some, Option.toList_some]
    exact Nat.le_refl _
  · rw [update_of_ne hp]

theorem run {q : Ptr} {guid random : Nat} {forword : Option TxnForword} (hi : Lifecycle txns s)
    (h : run cfg mode txns compute s q guid random = some (s', forword)) : Lifecycle txns s' := by
  refine hi.quiet (run_same (Option.map_eq_some_iff.mpr ⟨_, h, rfl⟩)) fun p => ?_
  obtain ⟨sm, store, status, hsm, -, rfl, -⟩ := run_any h
  unfold stages finish
  dsimp only
  rw [List.count_append, List.count_singleton]
  by_cases hp : p = q
  · subst hp
    rw [update_self, hsm, Option.toList_some, Option.toList_none, List.length_singleton,
      beq_self_eq_true, if_pos rfl]
    exact Nat.le_of_eq (by rw [List.length_nil]; omega)
  · rw [update_of_ne hp, if_neg (by simpa using Ne.symm hp)]
    omega

theorem step {e : Event} (hi : Lifecycle txns s) (h : step cfg mode txns compute s e = some s') :
    Lifecycle txns s' := by
  cases e with
  | parse => exact hi.parse h
  | verify =>
      obtain ⟨entry, rest, v, -, rfl⟩ := verify_cases h
      exact ⟨⟨hi.filed, hi.blockedOld, hi.lockedOld, hi.sorted, hi.disjoint, hi.nodup⟩, hi.once,
        hi.fresh⟩
  | route => exact hi.route h
  | dispatch => exact hi.dispatch h
  | handleDone => exact hi.handleDone h
  | start =>
      obtain ⟨⟨s₁, sent⟩, hstart, rfl⟩ := Option.map_eq_some_iff.mp h
      exact hi.start hstart
  | readResult p entries => exact hi.readResult h
  | run p guid random =>
      obtain ⟨⟨s₁, forword⟩, hrun, rfl⟩ := Option.map_eq_some_iff.mp h
      exact hi.run hrun

end Lifecycle

end DeterministicScheduler

end Calvin
