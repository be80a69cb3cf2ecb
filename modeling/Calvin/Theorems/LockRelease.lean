import Calvin.Machine.LowlatencySequencer
import Calvin.Scheduler.LockOwners

/-!
# Locks are given back

The lock manager thread calls `Release` for a finished transaction unless its
status is `ABORTED_WITHOUT_LOCK`. The status fits the calls of `Lock` as long as
no transaction that `VerifyStorageCounters` has marked is put to wait for a
remaster: it is passed to `Lock` when it is woken, and stays marked.

* `release_iff_locked`: `Release` is called for those that were passed to
  `Lock`, and nothing of a finished transaction stays in the lock table;
* `marked_keeps_locks`: without the condition it fails.
-/

namespace Calvin.DeterministicScheduler

open Function Lib Machine RemasterWaits LockManager

variable {cfg : ClusterConfig} {mode : Nat} {txns : Ptr → TxnProto} {compute : Compute}

/-- The transaction that a step calls `Release` for. -/
def released (s : Node) : Event → Option Ptr
  | .handleDone => s.doneQueue.head?.filter fun p => s.status p ≠ .abortedWithoutLock
  | _ => none

/-- The call of `Release` in `handleDone`, after the calls of `Lock`. -/
theorem handleDone_released {s s' : Node} (h : handleDone cfg mode txns s = some s') :
    ∃ (waits : RemasterWaits) (ready rest : List Ptr),
      let s₁ := ready.foldl (lock cfg mode txns) { s with waits, doneQueue := rest }
      match released s .handleDone with
      | some p => ∃ pushed, s₁.lockManager.release cfg mode p (txns p) =
        some (s'.lockManager, pushed)
      | none => s'.lockManager = s₁.lockManager := by
  obtain ⟨-, q, rest, waits, ready, s₁, hq, -, hrel, rfl⟩ := handleDone_locks h
  obtain ⟨lockManager, readyTxns, hfold⟩ := foldl_lock_eq cfg mode txns ready
    { s with waits, doneQueue := rest }
  refine ⟨waits, ready, rest, ?_⟩
  rw [hfold] at hrel ⊢
  rcases releaseDone_cases hrel with ⟨hs, rfl⟩ | ⟨hs, lockManager', pushed, hrelease, rfl⟩
  · have hnone : released s .handleDone = none := by simpa [released, hq] using hs
    rw [hnone]
  · have hsome : released s .handleDone = some q := by simpa [released, hq] using hs
    rw [hsome]
    exact ⟨pushed, hrelease⟩

/-- In every mode and every run in which no marked transaction is put to wait:
`Release` is called for a finished transaction exactly if `Lock` was called for
it before, and no request of a transaction that has been handled is in the lock
table. -/
theorem release_iff_locked (hnew : ∀ p, (txns p).status ≠ .abortedWithoutLock)
    {store : Key → Record} {s : Node}
    (h : (machine cfg mode txns compute store).Reach (fun s e => waitsMarked s e = false) s) :
    (∀ p rest, s.doneQueue = p :: rest → (released s .handleDone = some p ↔ p ∈ s.locked)) ∧
      ∀ p ∈ s.deleted, ∀ k requests, s.lockManager.lockTable.find? k = some requests →
        ∀ r ∈ requests, r.owner ≠ p := by
  have hi : Paired cfg mode txns s :=
    h.invariant (paired_init hnew store) fun _ _ _ _ hgood hi hn => hi.step hgood hn
  refine ⟨fun p rest hq => ?_, fun p hp k requests hfind r hr howner => ?_⟩
  · have hstarted : Started s p := .inr (.inr (.inr (.inl (hq ▸ List.mem_cons_self))))
    rw [← hi.locked_iff hstarted]
    simp [released, hq]
  · have hmem : r ∈ s.lockManager.queue k := by rw [queue, hfind]; exact hr
    exact (hi.table.owner k r hmem).2.1 (howner ▸ hp)

/-! ## A marked transaction that waits -/

/-- A transaction that is stale on key `0` and ahead on key `1`, the remaster it
waits for, and a transaction on key `2` only. -/
def staleAndAhead (p : Ptr) : TxnProto :=
  LowlatencySequencer.withReaders {} <| match p with
    | 0 => { txnId := 0, readWriteSet := [⟨[48], 0, 0⟩, ⟨[49], 0, 1⟩] }
    | 1 =>
        { txnId := 1, readWriteSet := [⟨[49], 1, 0⟩], originReplica := 1
          remasterTxn := true, remasterFrom := 1, remasterTo := 0 }
    | p => { txnId := p, readWriteSet := [⟨[50], 0, 0⟩] }

/-- Key `0` has been remastered to replica 1 once; key `1` still has its master
there. -/
def remastered : Key → Record := fun k =>
  if k = [48] then ⟨[], 1, 1⟩ else if k = [49] then ⟨[], 1, 0⟩ else ⟨[], 0, 0⟩

/-- Stale on key `0` only: the transaction goes without locks. -/
def staleOnly (p : Ptr) : TxnProto :=
  if p = 0 then
    LowlatencySequencer.withReaders {} { txnId := 0, readWriteSet := [⟨[48], 0, 0⟩] }
  else staleAndAhead 2

/-- Transaction 1 was locked and has been handled, transaction 0 comes back
without locks. -/
theorem release_iff_locked_stale :
    ∃ s : Node, s.doneQueue = [0] ∧ s.locked = [1] ∧ s.deleted = [1] ∧
      (released s .handleDone = some 0 ↔ 0 ∈ s.locked) := by
  obtain ⟨s, hs, hdone, hlocked, hdeleted⟩ := exists_of_runIf
    (m := machine {} 2 staleOnly (fun _ _ _ => []) remastered)
    (fun s e => waitsMarked s e = false)
    (P := fun s => s.doneQueue = [0] ∧ s.locked = [1] ∧ s.deleted = [1])
    [.parse, .verify, .route, .parse, .verify, .route, .dispatch, .dispatch, .start, .start,
      .run 1 0 0, .run 0 0 0, .handleDone] (by decide)
  have hnew : ∀ p, (staleOnly p).status ≠ .abortedWithoutLock := by
    intro p
    unfold staleOnly
    split <;> decide
  exact ⟨s, hdone, hlocked, hdeleted, (release_iff_locked hnew hs).1 0 [] hdone⟩

/-- Transaction 0 is marked and waits; it is locked when it is woken, and not
released when it comes back. -/
theorem marked_keeps_locks :
    ¬ ∀ (cfg : ClusterConfig) (mode : Nat) (txns : Ptr → TxnProto) (compute : Compute)
        (store : Key → Record) (s : Node), (∀ p, (txns p).status ≠ .abortedWithoutLock) →
        (machine cfg mode txns compute store).Reachable s →
        (∀ p rest, s.doneQueue = p :: rest → (released s .handleDone = some p ↔ p ∈ s.locked)) ∧
          ∀ p ∈ s.deleted, ∀ k requests, s.lockManager.lockTable.find? k = some requests →
            ∀ r ∈ requests, r.owner ≠ p := by
  intro hclaim
  obtain ⟨s, hs, hdone, hlocked, hmarked⟩ := exists_of_trace
    (m := machine {} 2 staleAndAhead (fun _ _ _ => []) remastered)
    (P := fun s => s.doneQueue = [0] ∧ 0 ∈ s.locked ∧ s.status 0 = .abortedWithoutLock)
    [.parse, .verify, .verify, .route, .parse, .dispatch, .start, .run 1 0 0, .handleDone,
      .dispatch, .start, .run 0 0 0] (by decide)
  have hnew : ∀ p, (staleAndAhead p).status ≠ .abortedWithoutLock := by
    intro p
    unfold staleAndAhead
    split <;> exact fun h => by cases h
  have hcall := ((hclaim _ _ _ _ _ s hnew hs).1 0 [] hdone).mpr hlocked
  simp [released, hdone, hmarked] at hcall

end Calvin.DeterministicScheduler
