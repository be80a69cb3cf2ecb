import Calvin.Backend.StorageManagerSpec
import Calvin.Scheduler.DeterministicScheduler
import Calvin.Scheduler.RemasterWaitsSpec

/-!
# What a step of the scheduler does

One lemma per step of the lock manager thread in mode 2, for what concerns the
waiting transactions and the calls of `Lock`, and a frame lemma for the other
steps.
-/

namespace Calvin.DeterministicScheduler

open Function Lib

variable {cfg : ClusterConfig} {mode : Nat} {txns : Ptr → TxnProto} {compute : Compute}

/-! ## Calls of `Lock` -/

/-- A call of `Lock` is recorded, and touches the lock table and `ready_txns_`
only. -/
theorem lock_eq (cfg : ClusterConfig) (mode : Nat) (txns : Ptr → TxnProto) (s : Node) (p : Ptr) :
    ∃ lockManager pushed, lock cfg mode txns s p =
      { s with
        lockManager, readyTxns := s.readyTxns ++ pushed, locked := s.locked ++ [p] } :=
  ⟨_, _, rfl⟩

theorem foldl_lock_eq (cfg : ClusterConfig) (mode : Nat) (txns : Ptr → TxnProto) (ps : List Ptr)
    (s : Node) :
    ∃ lockManager readyTxns, ps.foldl (lock cfg mode txns) s =
      { s with lockManager, readyTxns, locked := s.locked ++ ps } := by
  induction ps generalizing s with
  | nil => exact ⟨s.lockManager, s.readyTxns, by rw [List.append_nil]; rfl⟩
  | cons p ps ih =>
      obtain ⟨lockManager, pushed, hlock⟩ := lock_eq cfg mode txns s p
      obtain ⟨lockManager', readyTxns, hfold⟩ := ih (lock cfg mode txns s p)
      refine ⟨lockManager', readyTxns, ?_⟩
      rw [List.foldl_cons, hfold, hlock]
      simp only [List.append_assoc, List.singleton_append]

/-! ## The lock manager thread in mode 2 -/

theorem parse_cases {s s' : Node} (h : parse cfg 2 txns s = some s') :
    s.verifying = none ∧
    (((txns s.next).remasterTxn = false ∧
        s' = { s with
          verifying := some ((txns s.next).readSet ++ (txns s.next).readWriteSet, {}) }) ∨
      ((txns s.next).remasterTxn = true ∧
        s' = { lock cfg 2 txns s s.next with next := s.next + 1 })) := by
  unfold parse at h
  split at h
  case isTrue hv =>
      refine ⟨Option.isNone_iff_eq_none.mp hv, ?_⟩
      cases hr : (txns s.next).remasterTxn with
      | false =>
          simp only [hr, true_and, if_true, Option.some.injEq] at h
          exact .inl ⟨rfl, h.symm⟩
      | true =>
          simp only [hr, Bool.true_eq_false, and_false, if_false, Option.some.injEq] at h
          exact .inr ⟨rfl, h.symm⟩
  case isFalse => cases h

theorem verify_cases {s s' : Node} (h : verify cfg txns s = some s') :
    ∃ entry rest v, s.verifying = some (entry :: rest, v) ∧
      s' = { s with
        verifying :=
          some (rest, verifyEntry cfg s.store (txns s.next).originReplica entry v) } := by
  unfold verify at h
  split at h
  case h_1 entry rest v hv => exact ⟨entry, rest, v, hv, (Option.some.inj h).symm⟩
  case h_2 => cases h

theorem route_cases {s s' : Node} (h : route cfg mode txns s = some s') :
    ∃ v status, s.verifying = some ([], v) ∧
      (∀ p, status p = .committed → s.status p = .committed) ∧
      s' = { routeVerified cfg mode txns { s with status } s.next v with
        next := s.next + 1, verifying := none } := by
  unfold route at h
  split at h
  case h_1 v hv =>
      cases ha : v.aborted with
      | true =>
          refine ⟨v, update s.status s.next .abortedWithoutLock, hv, ?_, ?_⟩
          · intro p hp
            by_cases hne : p = s.next
            · rw [hne, update_self] at hp
              cases hp
            · rwa [update_of_ne hne] at hp
          · rw [ha, if_pos rfl] at h
            exact (Option.some.inj h).symm
      | false =>
          refine ⟨v, s.status, hv, fun _ hp => hp, ?_⟩
          rw [ha, if_neg Bool.false_ne_true] at h
          exact (Option.some.inj h).symm
  case h_2 => cases h

/-- The four ways of a verified transaction. -/
theorem routeVerified_cases (cfg : ClusterConfig) (mode : Nat) (txns : Ptr → TxnProto) (s : Node)
    (p : Ptr) (v : Verify) :
    (v.canExecuteNow = false ∧
      routeVerified cfg mode txns s p v = { s with waits := s.waits.putToWait txns p v.keys }) ∨
    (v.canExecuteNow = true ∧ s.status p = .abortedWithoutLock ∧
      routeVerified cfg mode txns s p v = { s with readyTxns := s.readyTxns ++ [p] }) ∨
    (v.canExecuteNow = true ∧ s.waits.blockingTxns (txns p).originReplica ≠ [] ∧
      routeVerified cfg mode txns s p v = { s with waits := s.waits.block txns p }) ∨
    (v.canExecuteNow = true ∧ s.waits.blockingTxns (txns p).originReplica = [] ∧
      routeVerified cfg mode txns s p v = lock cfg mode txns s p) := by
  unfold routeVerified
  cases hv : v.canExecuteNow with
  | false => exact .inl ⟨rfl, if_pos rfl⟩
  | true =>
      simp only [Bool.true_eq_false, if_false]
      by_cases hs : s.status p = .abortedWithoutLock
      · exact .inr (.inl ⟨trivial, hs, if_pos hs⟩)
      · rw [if_neg hs]
        by_cases hb : s.waits.blockingTxns (txns p).originReplica ≠ []
        · exact .inr (.inr (.inl ⟨trivial, hb, if_pos hb⟩))
        · exact .inr (.inr (.inr ⟨trivial, not_not.mp hb, if_neg hb⟩))

/-- A finished transaction wakes others, which are passed to `Lock`, and gives
its own locks back. -/
theorem handleDone_cases {s s' : Node} (h : handleDone cfg mode txns s = some s') :
    s.verifying = none ∧ ∃ p rest waits ready, s.doneQueue = p :: rest ∧
      wakeUp mode txns s p = some (waits, ready) ∧
      ∃ lockManager readyTxns, s' =
        { s with
          waits, lockManager, readyTxns
          doneQueue := rest, locked := s.locked ++ ready, deleted := p :: s.deleted } := by
  unfold handleDone at h
  split at h
  case isFalse => cases h
  case isTrue hv =>
      refine ⟨Option.isNone_iff_eq_none.mp hv, ?_⟩
      cases hq : s.doneQueue with
      | nil => rw [hq] at h; cases h
      | cons p rest =>
          rw [hq, Option.bind_eq_some_iff] at h
          obtain ⟨⟨waits, ready⟩, hwake, h⟩ := h
          rw [Option.map_eq_some_iff] at h
          obtain ⟨s₁, hrel, rfl⟩ := h
          obtain ⟨lockManager, readyTxns, hfold⟩ :=
            foldl_lock_eq cfg mode txns ready
              { s with waits, doneQueue := rest }
          refine ⟨p, rest, waits, ready, rfl, hwake, ?_⟩
          rw [hfold] at hrel
          unfold releaseDone at hrel
          split at hrel
          case isTrue =>
              cases hrel
              exact ⟨_, _, rfl⟩
          case isFalse =>
              rw [Option.map_eq_some_iff] at hrel
              obtain ⟨⟨lockManager', pushed⟩, -, rfl⟩ := hrel
              exact ⟨_, _, rfl⟩

/-- In mode 2 a finished remaster transaction wakes those that wait for its key
and its counter plus one. -/
theorem wakeUp_cases {s : Node} {p : Ptr} {waits : RemasterWaits} {ready : List Ptr}
    (h : wakeUp 2 txns s p = some (waits, ready)) :
    ((txns p).remasterTxn = false ∧ waits = s.waits ∧ ready = []) ∨
    ((txns p).remasterTxn = true ∧ ∃ entry, (txns p).readWriteSet.head? = some entry ∧
      (∀ a ∈ s.waits.waitingTxnsByKey (entry.key, entry.counter + 1), a ∉ s.deleted) ∧
      s.waits.wake txns (entry.key, entry.counter + 1) = some (waits, ready)) := by
  unfold wakeUp at h
  cases hr : (txns p).remasterTxn with
  | false =>
      simp only [hr, Bool.false_eq_true, and_false, if_false, Option.some.injEq] at h
      obtain ⟨rfl, rfl⟩ := Prod.mk.inj h
      exact .inl ⟨rfl, rfl, rfl⟩
  | true =>
      simp only [hr, and_self, if_true] at h
      rw [Option.bind_eq_some_iff] at h
      obtain ⟨entry, he, h⟩ := h
      split at h
      case isTrue => cases h
      case isFalse hd =>
          refine .inr ⟨rfl, entry, he, ?_, h⟩
          intro a ha hdel
          exact hd ⟨a, ha, hdel⟩

/-! ## Transactions of one id -/

/-- The next transaction is put to wait while another one with its id waits. -/
def sharesId (txns : Ptr → TxnProto) (s : Node) : Event → Bool
  | .route =>
      match s.verifying with
      | some ([], v) =>
          v.canExecuteNow = false ∧ s.waits.waitingTxnsByTxnid (txns s.next).txnId ≠ []
      | _ => false
  | _ => false

/-- A step that does not put two transactions of one id to wait. -/
def DistinctIds (txns : Ptr → TxnProto) (s : Node) (e : Event) : Prop := sharesId txns s e = false

instance (txns : Ptr → TxnProto) (s : Node) (e : Event) : Decidable (DistinctIds txns s e) :=
  inferInstanceAs (Decidable (_ = _))

theorem DistinctIds.route {s : Node} (h : DistinctIds txns s .route) {v : Verify}
    (hv : s.verifying = some ([], v)) (hexec : v.canExecuteNow = false) :
    s.waits.waitingTxnsByTxnid (txns s.next).txnId = [] := by
  by_contra hne
  simp [DistinctIds, sharesId, hv, hexec, hne] at h

/-! ## The other steps -/

/-- The fields that only the lock manager thread changes. -/
structure SameThread (s s' : Node) : Prop where
  next : s'.next = s.next
  verifying : s'.verifying = s.verifying
  waits : s'.waits = s.waits
  locked : s'.locked = s.locked

theorem dispatch_cases {s s' : Node} (h : dispatch s = some s') :
    s.verifying = none ∧ ∃ p rest, s.readyTxns = p :: rest ∧
      s' = { s with readyTxns := rest, txnsQueue := s.txnsQueue ++ [p] } := by
  unfold dispatch at h
  split at h
  case isFalse => cases h
  case isTrue hv =>
      cases hq : s.readyTxns with
      | nil => rw [hq] at h; cases h
      | cons p rest =>
          rw [hq] at h
          exact ⟨Option.isNone_iff_eq_none.mp hv, p, rest, rfl, (Option.some.inj h).symm⟩

theorem dispatch_frame {s s' : Node} (h : dispatch s = some s') : SameThread s s' := by
  obtain ⟨-, p, rest, -, rfl⟩ := dispatch_cases h
  exact ⟨rfl, rfl, rfl, rfl⟩

theorem start_cases {s s' : Node} {sent : List ReadResult}
    (h : start cfg mode txns s = some (s', sent)) :
    ∃ p rest, s.txnsQueue = p :: rest ∧
      sent = (StorageManager.create cfg mode s.store (txnOf txns s p)).2 ∧
      s' = { s with
        txnsQueue := rest
        managers :=
          update s.managers p
            (some (StorageManager.create cfg mode s.store (txnOf txns s p)).1) } := by
  unfold start at h
  cases hq : s.txnsQueue with
  | nil => rw [hq] at h; cases h
  | cons p rest =>
      rw [hq] at h
      cases h
      exact ⟨p, rest, rfl, rfl, rfl⟩

theorem readResult_cases {s s' : Node} {p : Ptr} {entries : List (Key × Record)}
    (h : readResult txns s p entries = some s') :
    ∃ sm, s.managers p = some sm ∧ sm.readyToExecute (txns p) = false ∧
      s' = { s with managers := update s.managers p (some (sm.handleReadResult entries)) } := by
  rw [readResult, Option.bind_eq_some_iff] at h
  obtain ⟨sm, hsm, h⟩ := h
  split at h
  case isTrue => cases h
  case isFalse hready =>
      cases h
      exact ⟨sm, hsm, Bool.eq_false_iff.mpr hready, rfl⟩

theorem start_frame {s s' : Node} (h : (start cfg mode txns s).map Prod.fst = some s') :
    SameThread s s' := by
  rw [Option.map_eq_some_iff] at h
  obtain ⟨⟨s₁, sent⟩, hstart, rfl⟩ := h
  obtain ⟨p, rest, -, -, rfl⟩ := start_cases hstart
  exact ⟨rfl, rfl, rfl, rfl⟩

theorem readResult_frame {s s' : Node} {p : Ptr} {entries : List (Key × Record)}
    (h : readResult txns s p entries = some s') : SameThread s s' := by
  obtain ⟨sm, -, -, rfl⟩ := readResult_cases h
  exact ⟨rfl, rfl, rfl, rfl⟩

/-- A worker ends a transaction as `CheckCommitOrAbort` says: it executes it, or
leaves the store as it is and sends the answer of the check. -/
theorem run_check {s s' : Node} {p : Ptr} {guid random : Nat} {forword : Option TxnForword}
    (h : run cfg 2 txns compute s p guid random = some (s', forword)) :
    ∃ sm, s.managers p = some sm ∧ sm.readyToExecute (txns p) = true ∧
      ((∃ store, Microbenchmark.execute compute (txnOf txns s p) sm s.store = some store ∧
          forword = none ∧ s' = finish { s with store } p .committed ∧
          ∃ status, sm.decision s.store (txnOf txns s p) = some (true, status)) ∨
        ∃ status, sm.checkCommitOrAbort cfg s.store (txnOf txns s p) guid random =
          some (false, status, forword) ∧ s' = finish s p status) := by
  rw [run, Option.bind_eq_some_iff] at h
  obtain ⟨sm, hsm, h⟩ := h
  refine ⟨sm, hsm, ?_⟩
  cases hready : sm.readyToExecute (txns p) with
  | false => simp only [hready, Bool.false_eq_true, if_false] at h; cases h
  | true =>
      refine ⟨rfl, ?_⟩
      simp only [hready, if_true] at h
      rw [Option.bind_eq_some_iff] at h
      obtain ⟨⟨decision, status, fwd⟩, hcheck, h⟩ := h
      simp only at h
      split at h
      case isTrue hd =>
          cases h
          rw [hd] at hcheck
          exact .inr ⟨status, hcheck, rfl⟩
      case isFalse hd =>
          rw [Option.map_eq_some_iff] at h
          obtain ⟨store, hstore, heq⟩ := h
          cases heq
          have hdec := StorageManager.checkCommitOrAbort_decision hcheck
          rw [Bool.eq_true_of_not_eq_false hd] at hdec
          exact .inl ⟨store, hstore, rfl, rfl, status, hdec⟩

/-- A worker that ends a transaction either has executed it, or leaves the store
as it is and reports another status than `COMMITTED`. -/
theorem run_cases {s s' : Node} {p : Ptr} {guid random : Nat} {forword : Option TxnForword}
    (h : run cfg 2 txns compute s p guid random = some (s', forword)) :
    ∃ sm, s.managers p = some sm ∧ sm.readyToExecute (txns p) = true ∧
      ((∃ store, Microbenchmark.execute compute (txnOf txns s p) sm s.store = some store ∧
          s' = finish { s with store } p .committed) ∨
        ∃ status, status ≠ .committed ∧ s' = finish s p status) := by
  obtain ⟨sm, hsm, hready, ⟨store, hstore, -, rfl, -⟩ | ⟨status, hcheck, rfl⟩⟩ := run_check h
  · exact ⟨sm, hsm, hready, .inl ⟨store, hstore, rfl⟩⟩
  · exact ⟨sm, hsm, hready, .inr ⟨status, StorageManager.checkCommitOrAbort_abort hcheck, rfl⟩⟩

/-- In the modes without remasters a complete transaction is executed. -/
theorem run_plain (hmode : mode ≠ 2) {s s' : Node} {p : Ptr} {guid random : Nat}
    {forword : Option TxnForword}
    (h : run cfg mode txns compute s p guid random = some (s', forword)) :
    ∃ sm store, s.managers p = some sm ∧ sm.readyToExecute (txns p) = true ∧
      Microbenchmark.execute compute (txnOf txns s p) sm s.store = some store ∧
      s' = finish { s with store } p .committed := by
  rw [run, Option.bind_eq_some_iff] at h
  obtain ⟨sm, hsm, h⟩ := h
  cases hready : sm.readyToExecute (txns p) with
  | false => simp only [hready, Bool.false_eq_true, if_false] at h; cases h
  | true =>
      simp only [hready, if_true, if_neg hmode] at h
      rw [Option.map_eq_some_iff] at h
      obtain ⟨store, hstore, heq⟩ := h
      cases heq
      exact ⟨sm, store, hsm, hready, hstore, rfl⟩

/-- In the modes without remasters a finished transaction gives its locks
back. -/
theorem handleDone_plain (hmode : mode ≠ 2) {s s' : Node}
    (h : handleDone cfg mode txns s = some s') :
    ∃ p rest s₁, s.doneQueue = p :: rest ∧
      releaseDone cfg mode txns { s with doneQueue := rest } p = some s₁ ∧
      s' = { s₁ with deleted := p :: s₁.deleted } := by
  unfold handleDone at h
  split at h
  case isFalse => cases h
  case isTrue =>
      cases hq : s.doneQueue with
      | nil => rw [hq] at h; cases h
      | cons p rest =>
          have hwake : wakeUp mode txns s p = some (s.waits, []) :=
            if_neg fun h => hmode h.1
          rw [hq] at h
          simp only [hwake, Option.bind_some, List.foldl_nil] at h
          obtain ⟨s₁, hrel, rfl⟩ := Option.map_eq_some_iff.mp h
          exact ⟨p, rest, s₁, rfl, hrel, rfl⟩

theorem run_frame {s s' : Node} {p : Ptr} {guid random : Nat}
    (h : (run cfg 2 txns compute s p guid random).map Prod.fst = some s') : SameThread s s' := by
  rw [Option.map_eq_some_iff] at h
  obtain ⟨⟨s₁, forword⟩, hrun, rfl⟩ := h
  obtain ⟨sm, -, -, ⟨store, -, rfl⟩ | ⟨status, -, rfl⟩⟩ := run_cases hrun
  · exact ⟨rfl, rfl, rfl, rfl⟩
  · exact ⟨rfl, rfl, rfl, rfl⟩

end Calvin.DeterministicScheduler
