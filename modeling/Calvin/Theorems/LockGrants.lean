import Calvin.Scheduler.LockCalls
import Calvin.Scheduler.LockManagerSpec

/-!
# What the wait counts count

`txn_waits_` holds, for every transaction that has not been released, the number
of its keys on which it is not granted, and a transaction is pushed to
`ready_txns_` in the call that takes this number to 0. This holds for any order
of the calls of `Lock` and `Release`, also if a transaction is released while it
still waits.

* `Granting`: the invariant of the lock manager about those not released;
* `pushed_iff`: which call pushes a transaction;
* `grants`: wait counts and pushes in every reachable state, and what two pushed
  transactions can have in common.
-/

namespace Calvin.LockCalls

open Function Lib LockManager LockQueue

variable {cfg : ClusterConfig} {mode : Nat} {txns : Ptr → TxnProto}

/-- The request of a transaction is granted: it is the first of the key, or it
and all before it are read requests. -/
def granted (requests : List LockRequest) (p : Ptr) : Bool :=
  match requests.dropWhile fun r => r.owner ≠ p with
  | [] => false
  | r :: _ => Grantable (requests.takeWhile fun r => r.owner ≠ p) r

/-- The number of keys on which a transaction's request is not granted. -/
def waiting (cfg : ClusterConfig) (mode : Nat) (txns : Ptr → TxnProto) (s : LockCalls) (p : Ptr) :
    Nat :=
  (lockRequests cfg mode (txns p)).countP fun a => ¬ granted (s.lockManager.queue a.1) p

/-- The invariant of the lock manager about the transactions not released; those
that are have left the lock table. -/
structure Granting (cfg : ClusterConfig) (mode : Nat) (txns : Ptr → TxnProto)
    (freed : Ptr → List Key) (s : LockCalls) : Prop where
  grant : GrantInv (fun p => lockRequests cfg mode (txns p)) (fun p => p ∉ s.released) s.locked
    s.readyTxns freed s.lockManager
  unfreed : ∀ p, p ∉ s.released → freed p = []
  left : ∀ p ∈ s.released, ∀ k, p ∉ owners (s.lockManager.queue k)
  releasedLocked : ∀ p ∈ s.released, p ∈ s.locked

theorem granting_init : Granting cfg mode txns (fun _ => []) {} where
  grant := (LockInv.iff_grantInv.mp (lockInv_init _)).mono fun _ _ => trivial
  unfreed _ _ := rfl
  left _ h := (List.not_mem_nil h).elim
  releasedLocked _ h := (List.not_mem_nil h).elim

namespace Granting

variable {freed : Ptr → List Key} {s s' : LockCalls} {p : Ptr}

/-- `Lock` pushes the transaction itself or nothing. -/
theorem lock (hi : Granting cfg mode txns freed s) (hkeys : ∀ p, (txns p).client.keys.Nodup)
    (h : LockCalls.lock cfg mode txns s p = some s') :
    ∃ out, Granting cfg mode txns freed s' ∧ s'.readyTxns = s.readyTxns ++ out ∧
      ∀ q ∈ out, q ∉ s'.released := by
  obtain ⟨hp, rfl⟩ := lock_cases h
  have hrequests : ∀ p, ((lockRequests cfg mode (txns p)).map Prod.fst).Nodup := fun p =>
    lockRequests_nodup (hkeys p)
  have hcall : s.lockManager.lock cfg mode p (txns p) =
      ((s.lockManager.lock cfg mode p (txns p)).1, (s.lockManager.lock cfg mode p (txns p)).2) :=
    rfl
  obtain ⟨hreq, -, hout⟩ := hi.grant.toQueueInv.lock (hrequests p) rfl hp hcall
  have hpr : p ∉ s.released := fun h => hp (hi.releasedLocked p h)
  refine ⟨_, ⟨hi.grant.lock hrequests rfl hp, hi.unfreed, fun q hq k hmem => ?_, fun q hq => ?_⟩,
    rfl, fun q hq => ?_⟩
  · have hqp : q ≠ p := fun h => hpr (h ▸ hq)
    exact hi.left q hq k (hreq.others k q hqp hmem)
  · exact List.mem_append_left _ (hi.releasedLocked q hq)
  · rw [hout] at hq
    split at hq
    · rw [List.mem_singleton.mp hq]
      exact hpr
    · exact (List.not_mem_nil hq).elim

/-- Any transaction that was locked can be released once, granted or not. -/
theorem release_defined (hi : Granting cfg mode txns freed s)
    (hkeys : ∀ p, (txns p).client.keys.Nodup) (hp : p ∈ s.locked) (hr : p ∉ s.released) :
    ∃ s' freed' out, LockCalls.release cfg mode txns s p = some s' ∧
      Granting cfg mode txns freed' s' ∧ s'.readyTxns = s.readyTxns ++ out ∧
      ∀ q ∈ out, q ∉ s'.released := by
  -- from here on nothing is said about the wait count of `p`
  have hlive : GrantInv (fun p => lockRequests cfg mode (txns p)) (fun q => q ∉ p :: s.released)
      s.locked s.readyTxns freed s.lockManager :=
    hi.grant.mono fun q h hq => h (List.mem_cons_of_mem _ hq)
  have hrequests : ∀ p, ((lockRequests cfg mode (txns p)).map Prod.fst).Nodup := fun p =>
    lockRequests_nodup (hkeys p)
  have hother : ∀ q, q ≠ p → ¬ q ∉ p :: s.released → q ∈ s.released := fun q hqp hnot =>
    (List.mem_cons.mp (not_not.mp hnot)).resolve_left hqp
  obtain ⟨lm, out, freed', hrel, hgrant, hsame, hout, hsub, hgone⟩ :=
    hlive.release hrequests rfl hp
      (fun h => absurd List.mem_cons_self h) (fun q hqp hnot => hi.left q (hother q hqp hnot))
      (hi.unfreed p hr)
  have hcall : LockCalls.release cfg mode txns s p =
      some { s with
        lockManager := lm, released := p :: s.released, readyTxns := s.readyTxns ++ out } := by
    rw [LockCalls.release, if_pos ⟨hp, hr⟩, hrel]
    rfl
  refine ⟨_, freed', out, hcall, ⟨hgrant, fun q hq => ?_, fun q hq k => ?_, fun q hq => ?_⟩,
    rfl, hout⟩
  · obtain ⟨hqp, hq⟩ := not_or.mp fun h => hq (List.mem_cons.mpr h)
    rw [hsame q hqp]
    exact hi.unfreed q hq
  · rcases List.mem_cons.mp hq with rfl | hq
    · exact hgone k
    · exact fun h => hi.left q hq k (hsub k q h)
  · rcases List.mem_cons.mp hq with rfl | hq
    · exact hp
    · exact hi.releasedLocked q hq

/-- One call keeps the invariant, and pushes only what it leaves unreleased. -/
theorem call (hi : Granting cfg mode txns freed s) (hkeys : ∀ p, (txns p).client.keys.Nodup)
    {c : LockCall} (h : LockCalls.call cfg mode txns s c = some s') :
    ∃ freed' out, Granting cfg mode txns freed' s' ∧ s'.readyTxns = s.readyTxns ++ out ∧
      ∀ q ∈ out, q ∉ s'.released := by
  cases c with
  | lock p =>
      obtain ⟨out, hi', hout⟩ := hi.lock hkeys h
      exact ⟨freed, out, hi', hout⟩
  | release p =>
      obtain ⟨hp, hr, -⟩ := release_cases h
      obtain ⟨s'', freed', out, hrel, hi'⟩ := hi.release_defined hkeys hp hr
      rw [show LockCalls.release cfg mode txns s p = some s' from h] at hrel
      cases hrel
      exact ⟨freed', out, hi'⟩

/-- Every reachable state has the invariant. -/
theorem reachable (hkeys : ∀ p, (txns p).client.keys.Nodup)
    (h : (machine cfg mode txns).Reachable s) : ∃ freed, Granting cfg mode txns freed s := by
  refine h.invariant (P := fun s => ∃ freed, Granting cfg mode txns freed s) ⟨_, granting_init⟩ ?_
  intro s c s' _ _ ⟨freed, hi⟩ hn
  obtain ⟨freed', -, hi', -⟩ := hi.call hkeys hn
  exact ⟨freed', hi'⟩

/-- The request of a transaction that was locked and not released stands in the
queue of each of its keys. -/
theorem held (hi : Granting cfg mode txns freed s) (hp : p ∈ s.locked) (hr : p ∉ s.released)
    {a : Key × LockMode} (ha : a ∈ lockRequests cfg mode (txns p)) :
    ⟨a.2, p⟩ ∈ s.lockManager.queue a.1 :=
  hi.grant.held p hp a ha (by rw [hi.unfreed p hr]; exact List.not_mem_nil)

end Granting

/-- Granted are those not among `ungranted`. -/
theorem granted_iff {requests : List LockRequest} {r : LockRequest}
    (hn : (owners requests).Nodup) (hr : r ∈ requests) :
    granted requests r.owner = true ↔ r.owner ∉ owners (ungranted requests) := by
  obtain ⟨pre, post, rfl⟩ := List.append_of_mem hr
  rw [owners_append, owners_cons, List.nodup_append, List.nodup_cons] at hn
  obtain ⟨-, ⟨hpost, -⟩, hpre⟩ := hn
  have hne : ∀ x ∈ pre, decide (x.owner ≠ r.owner) = true := fun x hx =>
    decide_eq_true (hpre x.owner (mem_owners.mpr ⟨x, hx, rfl⟩) r.owner List.mem_cons_self)
  have hdrop : (pre ++ r :: post).dropWhile (fun x => x.owner ≠ r.owner) = r :: post := by
    rw [List.dropWhile_append_of_pos hne, List.dropWhile_cons_of_neg (by simp)]
  have htake : (pre ++ r :: post).takeWhile (fun x => x.owner ≠ r.owner) = pre := by
    rw [List.takeWhile_append_of_pos hne, List.takeWhile_cons_of_neg (by simp), List.append_nil]
  have hrpost : r ∉ post := fun h => hpost (mem_owners.mpr ⟨r, h, rfl⟩)
  rw [granted, hdrop, htake, decide_eq_true_eq, ← notMem_ungranted hrpost]
  constructor
  · -- nothing else of the queue has the owner of `r`
    intro h hmem
    obtain ⟨x, hx, hxr⟩ := mem_owners.mp hmem
    have hin := mem_of_mem_ungranted hx
    rw [List.mem_append, List.mem_cons] at hin
    rcases hin with hin | rfl | hin
    · exact of_decide_eq_true (hne x hin) hxr
    · exact h hx
    · exact hpost (mem_owners.mpr ⟨x, hin, hxr⟩)
  · exact fun h hmem => h (mem_owners.mpr ⟨r, hmem, rfl⟩)

/-- The keys not granted are the locks missing. -/
theorem waiting_eq {freed : Ptr → List Key} {s : LockCalls} {p : Ptr}
    (hi : Granting cfg mode txns freed s) (hp : p ∈ s.locked) (hr : p ∉ s.released) :
    waiting cfg mode txns s p =
      s.lockManager.missing (fun p => lockRequests cfg mode (txns p)) p := by
  refine List.countP_congr fun a ha => ?_
  have h := granted_iff (hi.grant.nodup a.1) (hi.held hp hr ha)
  rw [decide_eq_true_eq, decide_eq_true_eq, h, not_not]

section

variable {freed : Ptr → List Key} {s s' : LockCalls} {p : Ptr}

/-- The wait count of a transaction that has not been released. -/
theorem waits_eq (hi : Granting cfg mode txns freed s) (hp : p ∈ s.locked) (hr : p ∉ s.released) :
    (s.lockManager.txnWaits p).getD 0 = waiting cfg mode txns s p := by
  rw [waiting_eq hi hp hr, hi.grant.waits p hr]
  split
  case isTrue h => rw [h]; rfl
  case isFalse h => rfl

/-- It has been pushed exactly if it waits for no key. -/
theorem ready_iff (hi : Granting cfg mode txns freed s) (hp : p ∈ s.locked) (hr : p ∉ s.released) :
    p ∈ s.readyTxns ↔ waiting cfg mode txns s p = 0 := by
  rw [waiting_eq hi hp hr]
  exact hi.grant.pushedIff p hp hr

/-- A call takes back neither a `Lock` nor a `Release`. -/
theorem call_mono {c : LockCall} (h : call cfg mode txns s c = some s') :
    (∀ q ∈ s.locked, q ∈ s'.locked) ∧ ∀ q ∈ s.released, q ∈ s'.released := by
  cases c with
  | lock p =>
      obtain ⟨-, rfl⟩ := lock_cases h
      exact ⟨fun q hq => List.mem_append_left _ hq, fun q hq => hq⟩
  | release p =>
      obtain ⟨-, -, lm, out, -, rfl⟩ := release_cases h
      exact ⟨fun q hq => hq, fun q hq => List.mem_cons_of_mem _ hq⟩

/-- A call pushes those that are not released and come to wait for no key by
it. -/
theorem pushed_iff (hi : Granting cfg mode txns freed s) (hkeys : ∀ p, (txns p).client.keys.Nodup)
    {c : LockCall} (h : call cfg mode txns s c = some s') :
    ∃ out, s'.readyTxns = s.readyTxns ++ out ∧ ∀ p, p ∈ out ↔ p ∈ s'.locked ∧ p ∉ s'.released ∧
      waiting cfg mode txns s' p = 0 ∧ (p ∈ s.locked → waiting cfg mode txns s p ≠ 0) := by
  obtain ⟨freed', out, hi', hready, hout⟩ := hi.call hkeys h
  obtain ⟨hlocked, hreleased⟩ := call_mono h
  refine ⟨out, hready, fun p => ⟨fun hp => ?_, fun ⟨hp, hr, hzero, hold⟩ => ?_⟩⟩
  · have hnew : p ∈ s'.readyTxns := by
      rw [hready]
      exact List.mem_append_right _ hp
    have hpl := hi'.grant.pushedLocked p hnew
    have hpr := hout p hp
    refine ⟨hpl, hpr, (ready_iff hi' hpl hpr).mp hnew, fun hl hzero => ?_⟩
    -- it would have been pushed before
    have hready' := (ready_iff hi hl fun h => hpr (hreleased p h)).mpr hzero
    have hnodup := hi'.grant.pushedNodup
    rw [hready, List.nodup_append] at hnodup
    exact hnodup.2.2 p hready' p hp rfl
  · have hnew := (ready_iff hi' hp hr).mpr hzero
    rw [hready, List.mem_append] at hnew
    rcases hnew with hready' | hnew
    · have hl := hi.grant.pushedLocked p hready'
      exact absurd ((ready_iff hi hl fun h => hr (hreleased p h)).mp hready') (hold hl)
    · exact hnew

/-- Two transactions that have been pushed and not released do not conflict. -/
theorem no_conflict (hi : Granting cfg mode txns freed s) {q : Ptr} (hp : p ∈ s.readyTxns)
    (hq : q ∈ s.readyTxns) (hne : p ≠ q) (hpr : p ∉ s.released) (hqr : q ∉ s.released)
    {a b : Key × LockMode} (ha : a ∈ lockRequests cfg mode (txns p))
    (hb : b ∈ lockRequests cfg mode (txns q)) (hab : a.1 = b.1) : ¬ Conflict a.2 b.2 := by
  intro hc
  have hpl := hi.grant.pushedLocked p hp
  have hql := hi.grant.pushedLocked q hq
  have hpheld := mem_owners.mpr ⟨_, hi.held hpl hpr ha, rfl⟩
  have hqheld := mem_owners.mpr ⟨_, hi.held hql hqr hb, rfl⟩
  -- the one locked later would not have been pushed
  rcases Nat.lt_trichotomy (s.locked.idxOf p) (s.locked.idxOf q) with hlt | heq | hlt
  · refine hi.grant.safe q hq p hlt b hb a ha hab.symm hc.symm ?_
    rw [← hab]
    exact hpheld
  · exact hne ((List.idxOf_inj hpl).mp heq)
  · refine hi.grant.safe p hp q hlt a ha b hb hab hc ?_
    rw [hab]
    exact hqheld

end

/-- In every reachable state the wait counts of the transactions not released are
the numbers of their keys that are not granted; each transaction is pushed once,
by the call that takes its number to 0; no two pushed ones conflict. -/
theorem grants (hkeys : ∀ p, (txns p).client.keys.Nodup) {s : LockCalls}
    (h : (machine cfg mode txns).Reachable s) :
    (∀ p ∈ s.locked, p ∉ s.released →
      (s.lockManager.txnWaits p).getD 0 = waiting cfg mode txns s p ∧
        (p ∈ s.readyTxns ↔ waiting cfg mode txns s p = 0) ∧
        (release cfg mode txns s p).isSome) ∧
      s.readyTxns.Nodup ∧
      (∀ c s', call cfg mode txns s c = some s' →
        ∃ out, s'.readyTxns = s.readyTxns ++ out ∧ ∀ p, p ∈ out ↔ p ∈ s'.locked ∧
          p ∉ s'.released ∧ waiting cfg mode txns s' p = 0 ∧
          (p ∈ s.locked → waiting cfg mode txns s p ≠ 0)) ∧
      ∀ p ∈ s.readyTxns, ∀ q ∈ s.readyTxns, p ≠ q → p ∉ s.released → q ∉ s.released →
        ∀ a ∈ lockRequests cfg mode (txns p), ∀ b ∈ lockRequests cfg mode (txns q),
          a.1 = b.1 → ¬ Conflict a.2 b.2 := by
  obtain ⟨freed, hi⟩ := Granting.reachable hkeys h
  refine ⟨fun p hp hr => ⟨waits_eq hi hp hr, ready_iff hi hp hr, ?_⟩, hi.grant.pushedNodup,
    fun c s' hc => pushed_iff hi hkeys hc,
    fun p hp q hq hne hpr hqr a ha b hb hab => no_conflict hi hp hq hne hpr hqr ha hb hab⟩
  obtain ⟨s', -, -, hrel, -⟩ := hi.release_defined hkeys hp hr
  rw [hrel]
  rfl

/-- Two writers and a reader of one key. -/
def writersAndReader (p : Ptr) : TxnProto :=
  if p = 2 then { txnId := 2, readSet := [⟨[48], 0, 0⟩] }
  else { txnId := p, readWriteSet := [⟨[48], 0, 0⟩] }

theorem writersAndReader_keys (p : Ptr) : (writersAndReader p).client.keys.Nodup := by
  unfold writersAndReader
  split
  · decide
  · exact List.nodup_singleton _

/-- The second writer is released while it waits, and the reader waits on. -/
theorem grants_waiting : ∃ s : LockCalls, s.locked = [0, 1, 2] ∧ s.released = [1] ∧
    (s.lockManager.txnWaits 2).getD 0 = waiting {} 0 writersAndReader s 2 ∧
    waiting {} 0 writersAndReader s 2 = 1 := by
  obtain ⟨s, hs, hlocked, hreleased, hwaiting⟩ := Machine.exists_of_trace
    (m := machine {} 0 writersAndReader)
    (P := fun s => s.locked = [0, 1, 2] ∧ s.released = [1] ∧ waiting {} 0 writersAndReader s 2 = 1)
    [.lock 0, .lock 1, .lock 2, .release 1] (by decide)
  refine ⟨s, hlocked, hreleased, ((grants writersAndReader_keys hs).1 2 ?_ ?_).1, hwaiting⟩
  · rw [hlocked]
    decide
  · rw [hreleased]
    decide

end Calvin.LockCalls
