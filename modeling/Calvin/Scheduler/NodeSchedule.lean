import Calvin.Scheduler.DeterministicSchedulerSpec
import Calvin.Scheduler.LockManagerSpec

/-!
# The transactions of a node without remasters

In modes 0 and 1 every transaction is passed to `Lock` when it is parsed, and
goes from one queue to the next until its locks are released.

* `Scheduled`: where each transaction stands, together with the invariant of the
  lock manager;
* `Scheduled.earlier_released`: what conflicts with a transaction that has its
  locks and comes before it is released.
-/

namespace Calvin.DeterministicScheduler

open Function Lib LockManager

/-- Where a transaction stands. -/
inductive Phase
  /-- Not parsed, or waiting for locks. -/
  | waiting
  | ready
  | queued
  | running
  | done
  | released
deriving DecidableEq

variable {cfg : ClusterConfig} {mode : Nat} {txns : Ptr → TxnProto} {compute : Compute}

/-- The locks a transaction requests at a node. -/
def asks (cfg : ClusterConfig) (mode : Nat) (txns : Ptr → TxnProto) (p : Ptr) :
    List (Key × LockMode) :=
  lockRequests cfg mode (txns p)

section

variable {p : Ptr} {entry : KeyEntry}

theorem locks_of_own {origin : Nat} (h : StorageManager.Own cfg origin entry) :
    locks cfg mode origin entry = true := by
  have hloc : cfg.isLocal entry.key = true := decide_eq_true h.2
  simp [locks, h.1, hloc]

/-- A transaction asks for a write lock on each record it writes itself. -/
theorem write_mem_asks (he : entry ∈ (txns p).readWriteSet)
    (hown : StorageManager.Own cfg (txns p).originReplica entry) :
    (entry.key, LockMode.write) ∈ asks cfg mode txns p :=
  List.mem_append_left _ (List.mem_map_of_mem
    (List.mem_filter.mpr ⟨he, locks_of_own hown⟩))

theorem exists_mem_asks (he : entry ∈ (txns p).client.entries)
    (hown : StorageManager.Own cfg (txns p).originReplica entry) :
    ∃ lockMode, (entry.key, lockMode) ∈ asks cfg mode txns p := by
  rcases List.mem_append.mp he with he | he
  · exact ⟨_, List.mem_append_right _ (List.mem_map_of_mem
      (List.mem_filter.mpr ⟨he, locks_of_own hown⟩))⟩
  · exact ⟨_, write_mem_asks he hown⟩

/-- With distinct keys no transaction asks for a key twice. -/
theorem asks_nodup (h : (txns p).client.keys.Nodup) :
    ((asks cfg mode txns p).map Prod.fst).Nodup :=
  lockRequests_nodup h

end

structure Scheduled (cfg : ClusterConfig) (mode : Nat) (txns : Ptr → TxnProto) (s : Node)
    (phase : Ptr → Phase) (pushed : List Ptr) (freed : Ptr → List Key) : Prop where
  lock : LockInv (asks cfg mode txns) (List.range s.next) pushed freed s.lockManager
  verifying : s.verifying = none
  ready : ∀ p, p ∈ s.readyTxns ↔ phase p = .ready
  readyNodup : s.readyTxns.Nodup
  queued : ∀ p, p ∈ s.txnsQueue ↔ phase p = .queued
  queuedNodup : s.txnsQueue.Nodup
  running : ∀ p, (s.managers p).isSome = true ↔ phase p = .running
  done : ∀ p, p ∈ s.doneQueue ↔ phase p = .done
  doneNodup : s.doneQueue.Nodup
  committed : ∀ p ∈ s.doneQueue, s.status p = .committed
  deleted : ∀ p, p ∈ s.deleted ↔ phase p = .released
  pushed : ∀ p, p ∈ pushed ↔ phase p ≠ .waiting
  unfreed : ∀ p, phase p ≠ .released → freed p = []

theorem scheduled_init (store : Key → Record) :
    Scheduled cfg mode txns (initial txns store) (fun _ => .waiting) [] fun _ => [] where
  lock := lockInv_init _
  verifying := rfl
  ready _ := by constructor <;> intro h <;> cases h
  readyNodup := List.nodup_nil
  queued _ := by constructor <;> intro h <;> cases h
  queuedNodup := List.nodup_nil
  running _ := by constructor <;> intro h <;> cases h
  done _ := by constructor <;> intro h <;> cases h
  doneNodup := List.nodup_nil
  committed _ h := absurd h List.not_mem_nil
  deleted _ := by constructor <;> intro h <;> cases h
  pushed p := by
    constructor
    · intro h
      exact absurd h List.not_mem_nil
    · intro h
      exact absurd rfl h
  unfreed _ _ := rfl

/-- The phases after some transactions got their locks. -/
def pushPhase (phase : Ptr → Phase) (out : List Ptr) : Ptr → Phase :=
  fun p => if p ∈ out then .ready else phase p

namespace Scheduled

variable {s s' : Node} {phase : Ptr → Phase} {pushed : List Ptr} {freed : Ptr → List Key}

theorem lt_next (hs : Scheduled cfg mode txns s phase pushed freed) {p : Ptr}
    (hp : phase p ≠ .waiting) : p < s.next :=
  List.mem_range.mp (hs.lock.pushedLocked p ((hs.pushed p).mpr hp))

/-- When a transaction has its locks, all that conflict with it and come before
it are released. -/
theorem earlier_released (hs : Scheduled cfg mode txns s phase pushed freed) {p q : Ptr}
    (hp : phase p ≠ .waiting) (hqp : q < p) {a b : Key × LockMode}
    (ha : a ∈ asks cfg mode txns p) (hb : b ∈ asks cfg mode txns q) (hkey : a.1 = b.1)
    (hc : LockQueue.Conflict a.2 b.2) : phase q = .released := by
  by_contra hne
  have hlt := hs.lt_next hp
  have hql : q < s.next := Nat.lt_trans hqp hlt
  have hheld := hs.lock.held q (List.mem_range.mpr hql) b hb (by
    rw [hs.unfreed q hne]
    exact List.not_mem_nil)
  refine hs.lock.safe p ((hs.pushed p).mpr hp) q ((before_range hql hlt).mpr hqp) a ha b hb
    hkey hc ?_
  rw [hkey]
  exact mem_owners.mpr ⟨_, hheld, rfl⟩

/-- What is pushed was waiting, and is ready now. -/
theorem push (hs : Scheduled cfg mode txns s phase pushed freed) {out : List Ptr}
    (hnodup : (pushed ++ out).Nodup) :
    (∀ p ∈ out, phase p = .waiting) ∧
    (∀ p, p ∈ s.readyTxns ++ out ↔ pushPhase phase out p = .ready) ∧
    (s.readyTxns ++ out).Nodup ∧ (∀ p, p ∈ pushed ++ out ↔ pushPhase phase out p ≠ .waiting) := by
  obtain ⟨-, hout, hdisjoint⟩ := List.nodup_append.mp hnodup
  have hwaiting : ∀ p ∈ out, phase p = .waiting := by
    intro p hp
    by_contra hne
    exact hdisjoint p ((hs.pushed p).mpr hne) p hp rfl
  refine ⟨hwaiting, fun p => ?_, ?_, fun p => ?_⟩
  · unfold pushPhase
    by_cases hp : p ∈ out
    · simp [hp]
    · simp [hp, hs.ready p]
  · refine List.nodup_append.mpr ⟨hs.readyNodup, hout, ?_⟩
    rintro a ha b hb rfl
    have h := (hs.ready a).mp ha
    rw [hwaiting a hb] at h
    cases h
  · unfold pushPhase
    by_cases hp : p ∈ out
    · simp [hp]
    · simp [hp, hs.pushed p]

theorem pushPhase_of_ne {out : List Ptr} (hwaiting : ∀ p ∈ out, phase p = .waiting) {x : Phase}
    (hw : x ≠ .waiting) (hr : x ≠ .ready) (p : Ptr) :
    pushPhase phase out p = x ↔ phase p = x := by
  unfold pushPhase
  by_cases hp : p ∈ out
  · rw [if_pos hp, hwaiting p hp]
    exact ⟨fun h => absurd h.symm hr, fun h => absurd h.symm hw⟩
  · rw [if_neg hp]

/-- A transaction is parsed and passed to `Lock`. -/
theorem parse (hmode : mode ≠ 2) (hkeys : ∀ p, ((asks cfg mode txns p).map Prod.fst).Nodup)
    (hs : Scheduled cfg mode txns s phase pushed freed) (h : parse cfg mode txns s = some s') :
    ∃ phase' pushed', Scheduled cfg mode txns s' phase' pushed' freed ∧
      (∀ p, phase' p = phase p ∨ phase p = .waiting ∧ phase' p = .ready) ∧
      s'.next = s.next + 1 ∧ s'.store = s.store ∧ s'.managers = s.managers ∧
      s'.doneQueue = s.doneQueue ∧ s'.deleted = s.deleted := by
  unfold DeterministicScheduler.parse at h
  rw [hs.verifying, Option.isNone_none, if_pos rfl, if_neg fun h => hmode h.1] at h
  cases h
  have hlock := hs.lock.lock hkeys rfl (fun hmem => Nat.lt_irrefl _ (List.mem_range.mp hmem))
  rw [← List.range_succ] at hlock
  obtain ⟨hwaiting, hready, hnodup, hpushed⟩ := hs.push hlock.pushedNodup
  have hkeep := fun {x} => pushPhase_of_ne hwaiting (x := x)
  refine ⟨_, _,
    { lock := hlock
      verifying := hs.verifying
      ready := hready
      readyNodup := hnodup
      queued := fun p => (hs.queued p).trans (hkeep (by decide) (by decide) p).symm
      queuedNodup := hs.queuedNodup
      running := fun p => (hs.running p).trans (hkeep (by decide) (by decide) p).symm
      done := fun p => (hs.done p).trans (hkeep (by decide) (by decide) p).symm
      doneNodup := hs.doneNodup
      committed := hs.committed
      deleted := fun p => (hs.deleted p).trans (hkeep (by decide) (by decide) p).symm
      pushed := hpushed
      unfreed := fun p hp => hs.unfreed p fun h =>
        hp ((hkeep (by decide) (by decide) p).mpr h) },
    fun p => ?_, rfl, rfl, rfl, rfl, rfl⟩
  unfold pushPhase
  by_cases hp : p ∈ (s.lockManager.lock cfg mode s.next (txns s.next)).2
  · exact .inr ⟨hwaiting p hp, if_pos hp⟩
  · exact .inl (if_neg hp)

/-- A phase that one transaction leaves for another. -/
theorem update_iff {p : Ptr} {x y z : Phase} (hp : phase p = x) (hxy : y ≠ x) (hyz : y ≠ z)
    (q : Ptr) : update phase p z q = y ↔ phase q = y := by
  by_cases hq : q = p
  · rw [hq, update_self, hp]
    exact ⟨fun h => absurd h.symm hyz, fun h => absurd h.symm hxy⟩
  · rw [update_of_ne hq]

/-- The queue a transaction goes to. -/
theorem mem_append_update {p : Ptr} {x z : Phase} {l : List Ptr} (hl : ∀ q, q ∈ l ↔ phase q = z)
    (hp : phase p = x) (hxz : x ≠ z) :
    (∀ q, q ∈ l ++ [p] ↔ update phase p z q = z) ∧ (l.Nodup → (l ++ [p]).Nodup) := by
  refine ⟨fun q => ?_, fun hn => ?_⟩
  · by_cases hq : q = p
    · simp [hq]
    · simp [hq, hl q]
  · refine hn.append (List.nodup_singleton p) fun q hq hq' => hxz ?_
    rw [← hp, ← (hl q).mp hq, List.mem_singleton.mp hq']

/-- The queue a transaction leaves. -/
theorem mem_tail_update {p : Ptr} {x z : Phase} {rest : List Ptr}
    (hl : ∀ q, q ∈ p :: rest ↔ phase q = x) (hn : (p :: rest).Nodup) (hxz : x ≠ z) (q : Ptr) :
    q ∈ rest ↔ update phase p z q = x := by
  by_cases hq : q = p
  · subst hq
    rw [update_self]
    exact ⟨fun h => absurd h (List.nodup_cons.mp hn).1, fun h => absurd h.symm hxz⟩
  · rw [update_of_ne hq, ← hl q, List.mem_cons]
    exact ⟨.inr, fun h => h.resolve_left hq⟩

theorem dispatch (hs : Scheduled cfg mode txns s phase pushed freed) (h : dispatch s = some s') :
    ∃ p, phase p = .ready ∧ Scheduled cfg mode txns s' (update phase p .queued) pushed freed := by
  obtain ⟨-, p, rest, hq, rfl⟩ := dispatch_cases h
  have hp : phase p = .ready := (hs.ready p).mp (hq ▸ List.mem_cons_self)
  have hnodup := hs.readyNodup
  rw [hq] at hnodup
  obtain ⟨hmem, happ⟩ := mem_append_update hs.queued hp (by decide)
  refine ⟨p, hp,
    { lock := hs.lock
      verifying := hs.verifying
      ready := mem_tail_update (fun q => hq ▸ hs.ready q) hnodup (by decide)
      readyNodup := (List.nodup_cons.mp hnodup).2
      queued := hmem
      queuedNodup := happ hs.queuedNodup
      running := fun q => (hs.running q).trans (update_iff hp (by decide) (by decide) q).symm
      done := fun q => (hs.done q).trans (update_iff hp (by decide) (by decide) q).symm
      doneNodup := hs.doneNodup
      committed := hs.committed
      deleted := fun q => (hs.deleted q).trans (update_iff hp (by decide) (by decide) q).symm
      pushed := fun q => (hs.pushed q).trans
        (not_congr (update_iff hp (by decide) (by decide) q)).symm
      unfreed := fun q hq => hs.unfreed q fun h =>
        hq ((update_iff hp (by decide) (by decide) q).mpr h) }⟩

theorem start {sent : List ReadResult} (hs : Scheduled cfg mode txns s phase pushed freed)
    (h : start cfg mode txns s = some (s', sent)) :
    ∃ p rest, s.txnsQueue = p :: rest ∧ phase p = .queued ∧
      Scheduled cfg mode txns s' (update phase p .running) pushed freed := by
  obtain ⟨p, rest, hq, -, rfl⟩ := start_cases h
  have hp : phase p = .queued := (hs.queued p).mp (hq ▸ List.mem_cons_self)
  have hnodup := hs.queuedNodup
  rw [hq] at hnodup
  refine ⟨p, rest, hq, hp,
    { lock := hs.lock
      verifying := hs.verifying
      ready := fun q => (hs.ready q).trans (update_iff hp (by decide) (by decide) q).symm
      readyNodup := hs.readyNodup
      queued := mem_tail_update (fun q => hq ▸ hs.queued q) hnodup (by decide)
      queuedNodup := (List.nodup_cons.mp hnodup).2
      running := fun q => ?_
      done := fun q => (hs.done q).trans (update_iff hp (by decide) (by decide) q).symm
      doneNodup := hs.doneNodup
      committed := hs.committed
      deleted := fun q => (hs.deleted q).trans (update_iff hp (by decide) (by decide) q).symm
      pushed := fun q => (hs.pushed q).trans
        (not_congr (update_iff hp (by decide) (by decide) q)).symm
      unfreed := fun q hq => hs.unfreed q fun h =>
        hq ((update_iff hp (by decide) (by decide) q).mpr h) }⟩
  by_cases hqp : q = p
  · simp [hqp]
  · simp only [update_of_ne hqp]
    exact hs.running q

theorem readResult {p : Ptr} {entries : List (Key × Record)}
    (hs : Scheduled cfg mode txns s phase pushed freed)
    (h : readResult txns s p entries = some s') :
    Scheduled cfg mode txns s' phase pushed freed := by
  obtain ⟨sm, hsm, -, rfl⟩ := readResult_cases h
  refine
    { lock := hs.lock
      verifying := hs.verifying
      ready := hs.ready
      readyNodup := hs.readyNodup
      queued := hs.queued
      queuedNodup := hs.queuedNodup
      running := fun q => ?_
      done := hs.done
      doneNodup := hs.doneNodup
      committed := hs.committed
      deleted := hs.deleted
      pushed := hs.pushed
      unfreed := hs.unfreed }
  rw [← hs.running q]
  by_cases hqp : q = p
  · simp [hqp, hsm]
  · simp only [update_of_ne hqp]

/-- A transaction is executed. -/
theorem finish {p : Ptr} {store : Key → Record}
    (hs : Scheduled cfg mode txns s phase pushed freed) (hp : phase p = .running) :
    Scheduled cfg mode txns (finish { s with store } p .committed) (update phase p .done) pushed
      freed := by
  obtain ⟨hmem, happ⟩ := mem_append_update hs.done hp (by decide)
  refine
    { lock := hs.lock
      verifying := hs.verifying
      ready := fun q => (hs.ready q).trans (update_iff hp (by decide) (by decide) q).symm
      readyNodup := hs.readyNodup
      queued := fun q => (hs.queued q).trans (update_iff hp (by decide) (by decide) q).symm
      queuedNodup := hs.queuedNodup
      running := fun q => ?_
      done := hmem
      doneNodup := happ hs.doneNodup
      committed := fun q hq => ?_
      deleted := fun q => (hs.deleted q).trans (update_iff hp (by decide) (by decide) q).symm
      pushed := fun q => (hs.pushed q).trans
        (not_congr (update_iff hp (by decide) (by decide) q)).symm
      unfreed := fun q hq => hs.unfreed q fun h =>
        hq ((update_iff hp (by decide) (by decide) q).mpr h) }
  · by_cases hqp : q = p
    · simp [DeterministicScheduler.finish, hqp]
    · simp only [DeterministicScheduler.finish, update_of_ne hqp]
      exact hs.running q
  · by_cases hqp : q = p
    · simp [DeterministicScheduler.finish, hqp]
    · simp only [DeterministicScheduler.finish, update_of_ne hqp]
      refine hs.committed q ((List.mem_append.mp hq).resolve_right fun h => hqp ?_)
      exact List.mem_singleton.mp h

theorem run (hmode : mode ≠ 2) {p : Ptr} {guid random : Nat} {forword : Option TxnForword}
    (hs : Scheduled cfg mode txns s phase pushed freed)
    (h : run cfg mode txns compute s p guid random = some (s', forword)) :
    phase p = .running ∧ Scheduled cfg mode txns s' (update phase p .done) pushed freed := by
  obtain ⟨sm, store, hsm, -, -, rfl⟩ := run_plain hmode h
  have hp : phase p = .running := (hs.running p).mp (by rw [hsm]; rfl)
  exact ⟨hp, hs.finish hp⟩

/-- A finished transaction gives its locks back; that is always defined. -/
theorem handleDone (hmode : mode ≠ 2) (hkeys : ∀ p, ((asks cfg mode txns p).map Prod.fst).Nodup)
    (hs : Scheduled cfg mode txns s phase pushed freed)
    (h : handleDone cfg mode txns s = some s') :
    ∃ p phase' pushed' freed', phase p = .done ∧ Scheduled cfg mode txns s' phase' pushed' freed' ∧
      (∀ q, phase' q = phase q ∨ (phase q = .waiting ∧ phase' q = .ready) ∨
        (q = p ∧ phase' q = .released)) ∧
      s'.next = s.next ∧ s'.store = s.store ∧ s'.managers = s.managers := by
  obtain ⟨p, rest, s₁, hq, hrel, rfl⟩ := handleDone_plain hmode h
  have hpq : p ∈ s.doneQueue := hq ▸ List.mem_cons_self
  have hp : phase p = .done := (hs.done p).mp hpq
  have hnodup := hs.doneNodup
  rw [hq] at hnodup
  have hpushed : p ∈ pushed := (hs.pushed p).mpr (by rw [hp]; decide)
  obtain ⟨lm, out, freed', hrelease, hlock, hsame, -⟩ :=
    hs.lock.release hkeys rfl hpushed (hs.unfreed p (by rw [hp]; decide))
  have hcommitted : ¬ s.status p = .abortedWithoutLock := by
    rw [hs.committed p hpq]
    decide
  unfold releaseDone at hrel
  rw [if_neg hcommitted, hrelease] at hrel
  cases hrel
  obtain ⟨hwaiting, hready, hreadyNodup, hpushed'⟩ := hs.push hlock.pushedNodup
  have hkeep := fun {x} => pushPhase_of_ne hwaiting (x := x)
  have hp' : pushPhase phase out p = .done := (hkeep (by decide) (by decide) p).mpr hp
  have hdone := fun q => (hs.done q).trans (hkeep (by decide) (by decide) q).symm
  refine ⟨p, update (pushPhase phase out) p .released, _, freed', hp,
    { lock := hlock
      verifying := hs.verifying
      ready := fun q => (hready q).trans (update_iff hp' (by decide) (by decide) q).symm
      readyNodup := hreadyNodup
      queued := fun q => ((hs.queued q).trans (hkeep (by decide) (by decide) q).symm).trans
        (update_iff hp' (by decide) (by decide) q).symm
      queuedNodup := hs.queuedNodup
      running := fun q => ((hs.running q).trans (hkeep (by decide) (by decide) q).symm).trans
        (update_iff hp' (by decide) (by decide) q).symm
      done := mem_tail_update (fun q => hq ▸ hdone q) hnodup (by decide)
      doneNodup := (List.nodup_cons.mp hnodup).2
      committed := fun q hq' => hs.committed q (hq ▸ List.mem_cons_of_mem _ hq')
      deleted := fun q => ?_
      pushed := fun q => (hpushed' q).trans
        (not_congr (update_iff hp' (by decide) (by decide) q)).symm
      unfreed := fun q hq' => ?_ },
    fun q => ?_, rfl, rfl, rfl⟩
  · by_cases hqp : q = p
    · simp [hqp]
    · simp only [List.mem_cons, hqp, false_or, update_of_ne hqp]
      exact (hs.deleted q).trans (hkeep (by decide) (by decide) q).symm
  · by_cases hqp : q = p
    · simp [hqp] at hq'
    · simp only [update_of_ne hqp] at hq'
      rw [hsame q hqp]
      exact hs.unfreed q fun h => hq' ((hkeep (by decide) (by decide) q).mpr h)
  · by_cases hqp : q = p
    · exact .inr (.inr ⟨hqp, by rw [hqp, update_self]⟩)
    · rw [update_of_ne hqp]
      unfold pushPhase
      by_cases hout : q ∈ out
      · exact .inr (.inl ⟨hwaiting q hout, if_pos hout⟩)
      · exact .inl (if_neg hout)

end Scheduled

end Calvin.DeterministicScheduler
