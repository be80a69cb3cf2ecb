import Calvin.Scheduler.Replicas
import Calvin.Scheduler.Lifecycle
import Calvin.Scheduler.Replica

/-!
# A node that executes remaster transactions

What holds of a node of the cluster by itself, while the merge of its replica
grows.

* `NodeOk`: the invariant; a remaster transaction of this replica that has a
  manager commits;
* one lemma for each step of a node.
-/

namespace Calvin.DeterministicScheduler

open Function Lib
open Replica (Executed)

variable {cfg : ClusterConfig} {txns txns' : Ptr → TxnProto} {compute : Compute} {len len' : Nat}
  {s s' : Node}

structure NodeOk (cfg : ClusterConfig) (txns : Ptr → TxnProto) (len : Nat) (s : Node) : Prop where
  life : Lifecycle txns s
  bounded : s.next ≤ len
  verifying : s.verifying.isSome → s.next < len ∧ (txns s.next).remasterTxn = false
  /-- `VerifyStorageCounters` marks no remaster transaction. -/
  unmarked : ∀ p < s.next, (txns p).remasterTxn = true → ¬ Executed s p →
    s.status p ≠ .abortedWithoutLock
  stored : ∀ p sm, s.managers p = some sm → ∀ k, sm.objects.lookup k = some .stored →
    cfg.isLocal k = true
  commits : ∀ p sm, s.managers p = some sm → (txns p).remasterTxn = true →
    (txns p).remasterFrom = cfg.localReplicaId →
    sm.localCommit = true ∧ sm.involvedMachines.length = 1

theorem nodeOk_init (store : Key → Record) :
    NodeOk cfg txns 0 (initial txns' store) where
  life :=
    { pipeline_init store with
      filed := fun r p hp => absurd hp List.not_mem_nil
      once := fun _ => Nat.zero_le _
      fresh := fun _ h => absurd h (Nat.lt_irrefl 0) }
  bounded := Nat.le_refl _
  verifying h := absurd h Bool.false_ne_true
  unmarked p hp := absurd hp (Nat.not_lt_zero p)
  stored p sm h := by cases h
  commits p sm h := by cases h

namespace NodeOk

theorem lt_len (hs : NodeOk cfg txns len s) {p : Ptr} (h : 0 < stages s p) : p < len :=
  Nat.lt_of_lt_of_le (hs.life.lt_next h) hs.bounded

theorem manager_lt (hs : NodeOk cfg txns len s) {p : Ptr} {sm : StorageManager}
    (h : s.managers p = some sm) : p < s.next := by
  refine hs.life.lt_next ?_
  rw [stages, h, Option.toList_some, List.length_singleton]
  omega

/-- The merge of the replica grows. -/
theorem extend (hs : NodeOk cfg txns len s) (hlen : len ≤ len')
    (htxns : ∀ p < len, txns' p = txns p) : NodeOk cfg txns' len' s where
  life :=
    { hs.life with
      filed := fun r p hp => by
        rw [htxns p (Nat.lt_of_lt_of_le (hs.life.blockedOld r p hp) hs.bounded)]
        exact hs.life.filed r p hp }
  bounded := Nat.le_trans hs.bounded hlen
  verifying h := by
    obtain ⟨hlt, hr⟩ := hs.verifying h
    exact ⟨Nat.lt_of_lt_of_le hlt hlen, by rw [htxns _ hlt]; exact hr⟩
  unmarked p hp := by
    rw [htxns p (Nat.lt_of_lt_of_le hp hs.bounded)]
    exact hs.unmarked p hp
  stored := hs.stored
  commits p sm h := by
    rw [htxns p (Nat.lt_of_lt_of_le (hs.manager_lt h) hs.bounded)]
    exact hs.commits p sm h

/-- A step of the lock manager thread. -/
theorem congr (hs : NodeOk cfg txns len s) (hlife : Lifecycle txns s') (hnext : s'.next = s.next)
    (hverifying : s'.verifying.isSome → s.verifying.isSome) (hmanagers : s'.managers = s.managers)
    (hstatus : s'.status = s.status) (hexecuted : ∀ p, Executed s' p ↔ Executed s p) :
    NodeOk cfg txns len s' where
  life := hlife
  bounded := by rw [hnext]; exact hs.bounded
  verifying h := by rw [hnext]; exact hs.verifying (hverifying h)
  unmarked p hp hr hne := by
    rw [hnext] at hp
    rw [hexecuted] at hne
    rw [hstatus]
    exact hs.unmarked p hp hr hne
  stored := by rw [hmanagers]; exact hs.stored
  commits := by rw [hmanagers]; exact hs.commits

/-- The lock manager thread goes on to the next transaction. -/
theorem take (hs : NodeOk cfg txns len s) (hlife : Lifecycle txns s') (hlt : s.next < len)
    (hnext : s'.next = s.next + 1) (hverifying : s'.verifying = none)
    (hmanagers : s'.managers = s.managers) (hstatus : ∀ p, p ≠ s.next → s'.status p = s.status p)
    (hnew : (txns s.next).remasterTxn = true → s'.status s.next ≠ .abortedWithoutLock)
    (hexecuted : ∀ p, Executed s' p ↔ Executed s p) : NodeOk cfg txns len s' where
  life := hlife
  bounded := by omega
  verifying h := by rw [hverifying] at h; exact absurd h Bool.false_ne_true
  unmarked p hp hr hne := by
    rw [hexecuted] at hne
    by_cases hp' : p = s.next
    · subst hp'
      exact hnew hr
    · rw [hstatus p hp']
      exact hs.unmarked p (by omega) hr hne
  stored := by rw [hmanagers]; exact hs.stored
  commits := by rw [hmanagers]; exact hs.commits

/-- The next transaction gets its object. -/
theorem load (hs : NodeOk cfg txns len s) : NodeOk cfg txns len (Replicas.load txns s) where
  life := { hs.life with }
  bounded := hs.bounded
  verifying := hs.verifying
  unmarked p hp hr hne := by
    show update s.status s.next (txns s.next).status p ≠ .abortedWithoutLock
    rw [update_of_ne (show p ≠ s.next from Nat.ne_of_lt hp)]
    exact hs.unmarked p hp hr hne
  stored := hs.stored
  commits := hs.commits

theorem parse (hs : NodeOk cfg txns len s) (hlt : s.next < len)
    (hnew : (txns s.next).remasterTxn = true → s.status s.next ≠ .abortedWithoutLock)
    (h : parse cfg 2 txns s = some s') :
    NodeOk cfg txns len s' ∧ s'.store = s.store ∧ ∀ p, Executed s' p ↔ Executed s p := by
  have hlife := hs.life.parse h
  obtain ⟨hv, ⟨hr, rfl⟩ | ⟨-, rfl⟩⟩ := parse_cases h
  · refine ⟨?_, rfl, fun p => Iff.rfl⟩
    exact ⟨hlife, hs.bounded, fun _ => ⟨hlt, hr⟩, hs.unmarked, hs.stored, hs.commits⟩
  · refine ⟨?_, rfl, fun p => Iff.rfl⟩
    exact hs.take hlife hlt rfl hv rfl (fun p _ => rfl) hnew fun p => Iff.rfl

theorem route (hs : NodeOk cfg txns len s) (h : route cfg 2 txns s = some s') :
    NodeOk cfg txns len s' ∧ s'.store = s.store ∧ ∀ p, Executed s' p ↔ Executed s p := by
  have hlife := hs.life.route h
  unfold DeterministicScheduler.route at h
  split at h
  case h_2 => cases h
  case h_1 v hv =>
      obtain ⟨hlt, hr⟩ := hs.verifying (by rw [hv]; rfl)
      obtain rfl := Option.some.inj h
      -- only the status of the transaction itself changes
      have hstatus : ∃ status, (∀ p, p ≠ s.next → status p = s.status p) ∧
          (if v.aborted then { s with status := update s.status s.next .abortedWithoutLock }
            else s) = { s with status } := by
        split
        · exact ⟨_, fun p hp => update_of_ne hp _ _, rfl⟩
        · exact ⟨s.status, fun p _ => rfl, rfl⟩
      obtain ⟨status, hsame, heq⟩ := hstatus
      rw [heq] at hlife ⊢
      have hnew : (txns s.next).remasterTxn = true → status s.next ≠ .abortedWithoutLock := by
        intro h
        rw [hr] at h
        cases h
      rcases routeVerified_cases cfg 2 txns { s with status } s.next v with
        ⟨-, heq⟩ | ⟨-, -, heq⟩ | ⟨-, -, heq⟩ | ⟨-, -, heq⟩
      all_goals
        rw [heq] at hlife ⊢
        exact ⟨hs.take hlife hlt rfl rfl rfl hsame hnew fun p => Iff.rfl, rfl, fun p => Iff.rfl⟩

theorem handleDone (hs : NodeOk cfg txns len s) (h : handleDone cfg 2 txns s = some s') :
    NodeOk cfg txns len s' ∧ s'.store = s.store ∧ ∀ p, Executed s' p ↔ Executed s p := by
  have hlife := hs.life.handleDone h
  obtain ⟨-, q, rest, waits, ready, hq, -, lockManager, readyTxns, rfl⟩ := handleDone_cases h
  have hexecuted : ∀ p, (p ∈ rest ∨ p ∈ q :: s.deleted) ↔ p ∈ s.doneQueue ∨ p ∈ s.deleted := by
    intro p
    rw [hq, List.mem_cons, List.mem_cons]
    tauto
  exact ⟨hs.congr hlife rfl id rfl rfl hexecuted, rfl, hexecuted⟩

/-- The steps of the lock manager thread after a transaction is parsed. -/
theorem step {e : Event} (hs : NodeOk cfg txns len s)
    (he : e = .verify ∨ e = .route ∨ e = .dispatch ∨ e = .handleDone)
    (h : step cfg 2 txns compute s e = some s') :
    NodeOk cfg txns len s' ∧ s'.store = s.store ∧ ∀ p, Executed s' p ↔ Executed s p := by
  rcases he with rfl | rfl | rfl | rfl
  · have hlife := hs.life.step h
    obtain ⟨entry, rest, v, hv, rfl⟩ := verify_cases h
    exact ⟨hs.congr hlife rfl (fun _ => by rw [hv]; rfl) rfl rfl fun p => Iff.rfl, rfl,
      fun p => Iff.rfl⟩
  · exact hs.route h
  · have hlife := hs.life.step h
    obtain ⟨-, q, rest, hq, rfl⟩ := dispatch_cases h
    exact ⟨hs.congr hlife rfl id rfl rfl fun p => Iff.rfl, rfl, fun p => Iff.rfl⟩
  · exact hs.handleDone h

/-- A manager is created; for a remaster transaction of this replica the record
has to be up to date. -/
theorem start {sent : List ReadResult} (hs : NodeOk cfg txns len s)
    (hreaders : ∀ p < len, cfg.relativeNodeId ∈ (txns p).readers)
    (hcommits : ∀ p ∈ s.txnsQueue, p < len → ¬ Executed s p → (txns p).remasterTxn = true →
      (txns p).remasterFrom = cfg.localReplicaId →
      (StorageManager.create cfg 2 s.store (txnOf txns s p)).1.localCommit = true ∧
        (StorageManager.create cfg 2 s.store (txnOf txns s p)).1.involvedMachines.length = 1)
    (h : start cfg 2 txns s = some (s', sent)) : NodeOk cfg txns len s' := by
  have hlife := hs.life.start h
  obtain ⟨q, rest, hq, -, rfl⟩ := start_cases h
  have hmem : q ∈ s.txnsQueue := hq ▸ List.mem_cons_self
  have hlt : q < len := by
    refine hs.lt_len ?_
    have := List.count_pos_iff.mpr hmem
    unfold stages
    omega
  have hnew : ¬ Executed s q := by
    obtain ⟨-, hdone, hdeleted⟩ := hs.life.of_queued hmem
    exact fun h => h.elim hdone hdeleted
  refine ⟨hlife, hs.bounded, hs.verifying, hs.unmarked, fun p sm hsm k hk => ?_,
    fun p sm hsm hr hfrom => ?_⟩
  · change update s.managers q _ p = some sm at hsm
    by_cases hp : p = q
    · subst hp
      rw [update_self] at hsm
      cases hsm
      exact StorageManager.stored_isLocal (by decide) (hreaders p hlt) hk
    · rw [update_of_ne hp] at hsm
      exact hs.stored p sm hsm k hk
  · change update s.managers q _ p = some sm at hsm
    by_cases hp : p = q
    · subst hp
      rw [update_self] at hsm
      cases hsm
      exact hcommits p hmem hlt hnew hr hfrom
    · rw [update_of_ne hp] at hsm
      exact hs.commits p sm hsm hr hfrom

theorem readResult {q : Ptr} {entries : List (Key × Record)} (hs : NodeOk cfg txns len s)
    (h : readResult txns s q entries = some s') : NodeOk cfg txns len s' := by
  have hlife := hs.life.readResult h
  obtain ⟨old, hold, -, rfl⟩ := readResult_cases h
  refine ⟨hlife, hs.bounded, hs.verifying, hs.unmarked, fun p sm hsm k hk => ?_,
    fun p sm hsm hr hfrom => ?_⟩
  · change update s.managers q _ p = some sm at hsm
    by_cases hp : p = q
    · subst hp
      rw [update_self] at hsm
      cases hsm
      rcases StorageManager.lookup_handleReadResult hk with ⟨e, -, -, heq⟩ | hk
      · cases heq
      · exact hs.stored p old hold k hk
    · rw [update_of_ne hp] at hsm
      exact hs.stored p sm hsm k hk
  · change update s.managers q _ p = some sm at hsm
    by_cases hp : p = q
    · subst hp
      rw [update_self] at hsm
      cases hsm
      exact hs.commits p old hold hr hfrom
    · rw [update_of_ne hp] at hsm
      exact hs.commits p sm hsm hr hfrom

/-- A worker ends a transaction, with any store. -/
theorem finish {q : Ptr} {status : Status} (store : Key → Record) (hs : NodeOk cfg txns len s)
    (hlife : Lifecycle txns (finish { s with store } q status)) :
    NodeOk cfg txns len (finish { s with store } q status) ∧
      ∀ p, Executed (DeterministicScheduler.finish { s with store } q status) p ↔
        p = q ∨ Executed s p := by
  have hexecuted : ∀ p, (p ∈ s.doneQueue ++ [q] ∨ p ∈ s.deleted) ↔
      p = q ∨ p ∈ s.doneQueue ∨ p ∈ s.deleted := by
    intro p
    rw [List.mem_append, List.mem_singleton]
    tauto
  refine ⟨⟨hlife, hs.bounded, hs.verifying, fun p hp hr hne => ?_, fun p sm hsm => ?_,
    fun p sm hsm => ?_⟩, hexecuted⟩
  · have hpq : p ≠ q := fun h => hne ((hexecuted p).mpr (.inl h))
    show update s.status q status p ≠ .abortedWithoutLock
    rw [update_of_ne hpq]
    exact hs.unmarked p hp hr fun h => hne ((hexecuted p).mpr (.inr h))
  · change update s.managers q none p = some sm at hsm
    by_cases hp : p = q
    · rw [hp, update_self] at hsm
      cases hsm
    · rw [update_of_ne hp] at hsm
      exact hs.stored p sm hsm
  · change update s.managers q none p = some sm at hsm
    by_cases hp : p = q
    · rw [hp, update_self] at hsm
      cases hsm
    · rw [update_of_ne hp] at hsm
      exact hs.commits p sm hsm

/-- A remaster transaction of this replica is not aborted here. -/
theorem not_aborted {p : Ptr} {guid random : Nat} {status : Status} {forword : Option TxnForword}
    {sm : StorageManager} (hs : NodeOk cfg txns len s) (hsm : s.managers p = some sm)
    (hr : (txns p).remasterTxn = true) (hfrom : (txns p).remasterFrom = cfg.localReplicaId) :
    sm.checkCommitOrAbort cfg s.store (txnOf txns s p) guid random ≠
      some (false, status, forword) := by
  intro hcheck
  obtain ⟨-, hdone, hdeleted⟩ := hs.life.of_manager hsm
  have hstatus : (txnOf txns s p).status ≠ .abortedWithoutLock :=
    hs.unmarked p (hs.manager_lt hsm) hr fun h => h.elim hdone hdeleted
  obtain ⟨hcommit, hinvolved⟩ := hs.commits p sm hsm hr hfrom
  have hdec := StorageManager.checkCommitOrAbort_decision hcheck
  rw [StorageManager.decision_single hstatus hcommit hinvolved] at hdec
  cases hdec

end NodeOk

end Calvin.DeterministicScheduler
