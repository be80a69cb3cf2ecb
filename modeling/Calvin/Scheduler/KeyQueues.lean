import Calvin.Scheduler.LockTable

/-!
# A lock manager with one queue for each key

What the lock manager does, without its table: a map from keys to queues, from
which locks are asked for and given back in the terms of `LockQueue`. A queue that
nobody stands in is empty, and to give back a lock that was not asked for does
nothing.

* `keyQueues_lock`, `keyQueues_releaseEntries`: `Lock` and `Release` do to the
  queues of the table what they do here, push the same transactions and return the
  same number.
-/

namespace Calvin

open Function Lib Lib.LockQueue LockManager

structure KeyQueues where
  queues : Key → List LockRequest := fun _ => []
  txnWaits : Ptr → Option Int := fun _ => none

namespace KeyQueues

/-- Ask for a lock, unless the last request is the transaction's own; the count is
that of the locks that are not granted. -/
def request (p : Ptr) (st : KeyQueues × Nat) (a : Key × LockMode) : KeyQueues × Nat :=
  let requests := st.1.queues a.1
  if requests.getLast?.map Request.owner = some p then st
  else
    ({ st.1 with queues := update st.1.queues a.1 (requests ++ [⟨a.2, p⟩]) },
      if Grantable requests ⟨a.2, p⟩ then st.2 else st.2 + 1)

/-- Ask for locks; the transaction is pushed if all are granted. -/
def lock (m : KeyQueues) (p : Ptr) (reqs : List (Key × LockMode)) : KeyQueues × List Ptr × Nat :=
  let (m, notAcquired) := reqs.foldl (request p) (m, 0)
  if 0 < notAcquired then
    ({ m with txnWaits := update m.txnWaits p (some notAcquired) }, [], notAcquired)
  else (m, [p], notAcquired)

/-- Give back a lock. -/
def releaseKey (m : KeyQueues) (p : Ptr) (k : Key) : KeyQueues × List Ptr :=
  let pre := (m.queues k).takeWhile fun r => r.owner ≠ p
  match (m.queues k).dropWhile fun r => r.owner ≠ p with
  | [] => (m, [])
  | target :: post =>
      let (txnWaits, pushed) := grant m.txnWaits (owners (inherit pre target post))
      ({ queues := update m.queues k (pre ++ post), txnWaits }, pushed)

/-- Give back locks. -/
def release (m : KeyQueues) (p : Ptr) : List Key → KeyQueues × List Ptr
  | [] => (m, [])
  | k :: ks =>
      let (m, pushed) := m.releaseKey p k
      let (m, more) := release m p ks
      (m, pushed ++ more)

end KeyQueues

namespace LockManager

/-- The queues that the lock table stands for. -/
def keyQueues (lm : LockManager) : KeyQueues where
  queues := lm.queue
  txnWaits := lm.txnWaits

theorem queue_insert (lm : LockManager) (k : Key) (requests : List LockRequest)
    (txnWaits : Ptr → Option Int) :
    queue { lockTable := lm.lockTable.insert k requests, txnWaits } =
      update lm.queue k requests := by
  funext k'
  unfold queue
  rw [BucketTable.find?_insert]
  by_cases hk : k = k'
  · rw [if_pos hk, ← hk, update_self]
    rfl
  · rw [if_neg hk, update_of_ne (Ne.symm hk)]

theorem queue_erase (lm : LockManager) (k : Key) (txnWaits : Ptr → Option Int) :
    queue { lockTable := lm.lockTable.erase k, txnWaits } = update lm.queue k [] := by
  funext k'
  unfold queue
  rw [BucketTable.find?_erase]
  by_cases hk : k = k'
  · rw [if_pos hk, ← hk, update_self]
    rfl
  · rw [if_neg hk, update_of_ne (Ne.symm hk)]

/-- One request. -/
theorem keyQueues_request (p : Ptr) (st : LockManager × Nat) (a : Key × LockMode) :
    ((request p st a).1.keyQueues, (request p st a).2) =
      KeyQueues.request p (st.1.keyQueues, st.2) a := by
  have hqueue : (st.1.lockTable.find? a.1).getD [] = st.1.queue a.1 := rfl
  have hqueues : st.1.keyQueues.queues a.1 = st.1.queue a.1 := rfl
  unfold request KeyQueues.request
  dsimp only
  rw [hqueue, hqueues]
  by_cases hlast : (st.1.queue a.1).getLast?.map Request.owner = some p
  · have hne : st.1.queue a.1 ≠ [] := fun h => by
      rw [h] at hlast
      cases hlast
    rw [if_pos hlast, if_neg (not_or.mpr ⟨hne, not_not.mpr hlast⟩)]
  · rw [if_neg hlast, if_pos (.inr hlast)]
    have hcount :
        (if notGranted a.2 (st.1.queue a.1 ++ [⟨a.2, p⟩]) = true then st.2 + 1 else st.2) =
        if Grantable (st.1.queue a.1) ⟨a.2, p⟩ then st.2 else st.2 + 1 := by
      by_cases hg : Grantable (st.1.queue a.1) ⟨a.2, p⟩
      · rw [if_pos hg, if_neg fun h => (notGranted_iff _ _ _).mp h hg]
      · rw [if_neg hg, if_pos ((notGranted_iff _ _ _).mpr hg)]
    rw [hcount]
    unfold keyQueues
    rw [queue_insert]

theorem keyQueues_requests (p : Ptr) (reqs : List (Key × LockMode)) (st : LockManager × Nat) :
    ((reqs.foldl (request p) st).1.keyQueues, (reqs.foldl (request p) st).2) =
      reqs.foldl (KeyQueues.request p) (st.1.keyQueues, st.2) := by
  induction reqs generalizing st with
  | nil => rfl
  | cons a reqs ih => rw [List.foldl_cons, List.foldl_cons, ih, keyQueues_request]

/-- `Lock` does to the queues what it does there. -/
theorem keyQueues_lock (cfg : ClusterConfig) (mode : Nat) (lm : LockManager) (p : Ptr)
    (txn : TxnProto) :
    ((lm.lock cfg mode p txn).1.keyQueues, (lm.lock cfg mode p txn).2,
        lm.notAcquired cfg mode p txn) =
      lm.keyQueues.lock p (lockRequests cfg mode txn) := by
  have hreqs := keyQueues_requests p (lockRequests cfg mode txn) (lm, 0)
  rw [lock_eq, notAcquired_eq, KeyQueues.lock, ← hreqs]
  dsimp only
  split
  · rfl
  · rfl

/-- So does the release of a key that is in the table. -/
theorem keyQueues_releaseKey {lm lm' : LockManager} {k : Key} {p : Ptr} {out : List Ptr}
    (h : lm.releaseKey k p = some (lm', out)) :
    (lm'.keyQueues, out) = lm.keyQueues.releaseKey p k := by
  rw [releaseKey, Option.map_eq_some_iff] at h
  obtain ⟨requests, hfind, h⟩ := h
  have hqueue : lm.keyQueues.queues k = requests := by
    show (lm.lockTable.find? k).getD [] = requests
    rw [hfind]
    rfl
  unfold KeyQueues.releaseKey
  rw [hqueue]
  dsimp only at h ⊢
  cases hdrop : requests.dropWhile fun r => decide (r.owner ≠ p) with
  | nil =>
      rw [hdrop] at h
      cases h
      rfl
  | cons target post =>
      rw [hdrop] at h
      obtain ⟨rfl, rfl⟩ := Prod.mk.inj h
      generalize hpre : requests.takeWhile (fun r => decide (r.owner ≠ p)) = pre
      dsimp only
      rw [newOwners_eq]
      unfold keyQueues
      -- a queue that has become empty is a list that is deleted
      by_cases hnil : pre ++ post = []
      · rw [if_pos hnil, hnil, queue_erase]
      · rw [if_neg hnil, queue_insert]

/-- So do the loops of `Release`. -/
theorem keyQueues_releaseEntries {cfg : ClusterConfig} {mode origin : Nat} {p : Ptr}
    (entries : List KeyEntry) {lm lm' : LockManager} {out : List Ptr}
    (h : releaseEntries cfg mode origin p lm entries = some (lm', out)) :
    (lm'.keyQueues, out) = lm.keyQueues.release p (visited cfg mode origin entries) := by
  induction entries generalizing lm out with
  | nil =>
      cases h
      rfl
  | cons e rest ih =>
      rw [releaseEntries] at h
      split at h
      case isTrue hl =>
          rw [Option.bind_eq_some_iff] at h
          obtain ⟨⟨lm₁, out₁⟩, hkey, h⟩ := h
          rw [Option.map_eq_some_iff] at h
          obtain ⟨⟨lm₂, out₂⟩, hrest, h⟩ := h
          cases h
          rw [visited, List.filter_cons_of_pos hl, List.map_cons, KeyQueues.release,
            ← keyQueues_releaseKey hkey]
          dsimp only
          rw [← visited, ← ih hrest]
      case isFalse hl =>
          rw [visited, List.filter_cons_of_neg hl, ← visited]
          exact ih h

end LockManager

end Calvin
