import Calvin.Scheduler.KeyQueues
import Calvin.Theorems.RepeatedKeys

/-!
# The lock table refines a map of queues

Calls of `Lock` and `Release` in any order, as often as one likes: as long as every
list that is looked up is there, the lock manager answers like one that keeps a
queue for each key, however the keys hash, and its table is in order. If each
transaction is locked while it is not, and released while it is, every list is
there.

* `table_refines`: all of this, for every series of calls.
-/

namespace Calvin.LockCalls

open Function Lib LockManager

variable {cfg : ClusterConfig} {mode : Nat} {txns : Ptr → TxnProto}

/-- What a call pushes to `ready_txns_`, and what `Lock` returns. -/
structure Answer where
  pushed : List Ptr
  returned : Option Nat
deriving DecidableEq, Repr

/-- One call of the lock manager; `none` where a list that is looked up is gone. -/
def answer (cfg : ClusterConfig) (mode : Nat) (txns : Ptr → TxnProto) (lm : LockManager) :
    LockCall → Option (LockManager × Answer)
  | .lock p =>
      let (lm', pushed) := lm.lock cfg mode p (txns p)
      some (lm', ⟨pushed, some (lm.notAcquired cfg mode p (txns p))⟩)
  | .release p =>
      (lm.release cfg mode p (txns p)).map fun (lm', pushed) => (lm', ⟨pushed, none⟩)

/-- A series of calls. -/
def answers (cfg : ClusterConfig) (mode : Nat) (txns : Ptr → TxnProto) :
    LockManager → List LockCall → Option (LockManager × List Answer)
  | lm, [] => some (lm, [])
  | lm, c :: cs =>
      (answer cfg mode txns lm c).bind fun (lm, a) =>
        (answers cfg mode txns lm cs).map fun (lm, rest) => (lm, a :: rest)

/-- The same call of a manager with a queue for each key. -/
def queueAnswer (cfg : ClusterConfig) (mode : Nat) (txns : Ptr → TxnProto) (m : KeyQueues) :
    LockCall → KeyQueues × Answer
  | .lock p =>
      let (m, pushed, notAcquired) := m.lock p (lockRequests cfg mode (txns p))
      (m, ⟨pushed, some notAcquired⟩)
  | .release p =>
      let (m, pushed) := m.release p (releasedKeys cfg mode (txns p))
      (m, ⟨pushed, none⟩)

def queueAnswers (cfg : ClusterConfig) (mode : Nat) (txns : Ptr → TxnProto) :
    KeyQueues → List LockCall → KeyQueues × List Answer
  | m, [] => (m, [])
  | m, c :: cs =>
      let (m, a) := queueAnswer cfg mode txns m c
      let (m, rest) := queueAnswers cfg mode txns m cs
      (m, a :: rest)

/-- Each transaction is locked while it is not, and released while it is. -/
def InTurn : List Ptr → List LockCall → Prop
  | _, [] => True
  | standing, .lock p :: cs => p ∉ standing ∧ InTurn (p :: standing) cs
  | standing, .release p :: cs => p ∈ standing ∧ InTurn (standing.filter (· ≠ p)) cs

instance decidableInTurn : (standing : List Ptr) → (cs : List LockCall) →
    Decidable (InTurn standing cs)
  | _, [] => .isTrue trivial
  | standing, .lock p :: cs =>
      have := decidableInTurn (p :: standing) cs
      inferInstanceAs (Decidable (p ∉ standing ∧ InTurn (p :: standing) cs))
  | standing, .release p :: cs =>
      have := decidableInTurn (standing.filter (· ≠ p)) cs
      inferInstanceAs (Decidable (p ∈ standing ∧ InTurn (standing.filter (· ≠ p)) cs))

/-! ## The answers -/

/-- `Lock` always answers. -/
theorem answer_lock (lm : LockManager) (p : Ptr) :
    answer cfg mode txns lm (.lock p) = some ((lm.lock cfg mode p (txns p)).1,
      ⟨(lm.lock cfg mode p (txns p)).2, some (lm.notAcquired cfg mode p (txns p))⟩) := rfl

/-- One call answers as on the queues. -/
theorem answer_eq {lm lm' : LockManager} {c : LockCall} {a : Answer}
    (h : answer cfg mode txns lm c = some (lm', a)) :
    queueAnswer cfg mode txns lm.keyQueues c = (lm'.keyQueues, a) := by
  cases c with
  | lock p =>
      rw [answer_lock, Option.some.injEq, Prod.mk.injEq] at h
      obtain ⟨rfl, rfl⟩ := h
      rw [queueAnswer, ← keyQueues_lock]
  | release p =>
      rw [answer, Option.map_eq_some_iff] at h
      obtain ⟨⟨lm₁, pushed⟩, hrel, h⟩ := h
      obtain ⟨rfl, rfl⟩ := Prod.mk.inj h
      rw [queueAnswer, releasedKeys, ← keyQueues_releaseEntries _ hrel]

theorem answers_eq {lm lm' : LockManager} {cs : List LockCall} {as : List Answer}
    (h : answers cfg mode txns lm cs = some (lm', as)) :
    queueAnswers cfg mode txns lm.keyQueues cs = (lm'.keyQueues, as) := by
  induction cs generalizing lm as with
  | nil =>
      cases h
      rfl
  | cons c cs ih =>
      rw [answers, Option.bind_eq_some_iff] at h
      obtain ⟨⟨lm₁, a⟩, hc, h⟩ := h
      rw [Option.map_eq_some_iff] at h
      obtain ⟨⟨lm₂, rest⟩, hrest, h⟩ := h
      obtain ⟨rfl, rfl⟩ := Prod.mk.inj h
      rw [queueAnswers, answer_eq hc]
      dsimp only
      rw [ih hrest]

/-! ## The table -/

/-- What holds of the empty table and survives storing and erasing holds after any
calls. -/
theorem answers_stable {P : BucketTable hashKey (List LockRequest) → Prop} (hs : Stable P)
    {lm lm' : LockManager} {cs : List LockCall} {as : List Answer} (hP : P lm.lockTable)
    (h : answers cfg mode txns lm cs = some (lm', as)) : P lm'.lockTable := by
  induction cs generalizing lm as with
  | nil =>
      cases h
      exact hP
  | cons c cs ih =>
      rw [answers, Option.bind_eq_some_iff] at h
      obtain ⟨⟨lm₁, a⟩, hc, h⟩ := h
      rw [Option.map_eq_some_iff] at h
      obtain ⟨⟨lm₂, rest⟩, hrest, h⟩ := h
      obtain ⟨rfl, -⟩ := Prod.mk.inj h
      refine ih ?_ hrest
      cases c with
      | lock p =>
          rw [answer_lock, Option.some.injEq, Prod.mk.injEq] at hc
          obtain ⟨rfl, -⟩ := hc
          exact hs.lock _ hP
      | release p =>
          rw [answer, Option.map_eq_some_iff] at hc
          obtain ⟨⟨lm₂, pushed⟩, hrel, hc⟩ := hc
          obtain ⟨rfl, -⟩ := Prod.mk.inj hc
          exact hs.releaseEntries _ hP hrel

theorem stable_keyed : Stable BucketTable.Keyed where
  insert _ k requests h _ := h.insert k requests
  erase _ k h := h.erase k

/-- Each key at most once, in its own bucket, and with requests. -/
structure Ordered (lm : LockManager) : Prop where
  once : ∀ b, ((lm.lockTable.buckets b).map Prod.fst).Nodup
  keyed : ∀ b, ∀ e ∈ lm.lockTable.buckets b, hashKey e.1 = b
  filled : ∀ b, ∀ e ∈ lm.lockTable.buckets b, e.2 ≠ []

theorem answers_ordered {lm : LockManager} {cs : List LockCall} {as : List Answer}
    (h : answers cfg mode txns {} cs = some (lm, as)) : Ordered lm := by
  have hkeyed := answers_stable stable_keyed BucketTable.keyed_empty h
  have hfilled : Filled lm := answers_stable stable_filled (fun k hk => by cases hk) h
  refine ⟨lm.lockTable.nodup, hkeyed, fun b e he hnil => ?_⟩
  have hfind := hkeyed.find?_of_mem he
  rw [hnil] at hfind
  exact hfilled e.1 hfind

/-! ## Calls in turn -/

/-- The requests of the table are those of the transactions that stand in it, one
for each key. -/
structure Stands (cfg : ClusterConfig) (mode : Nat) (txns : Ptr → TxnProto) (standing : List Ptr)
    (lm : LockManager) : Prop where
  table : Table cfg mode txns lm standing []
  filled : Filled lm
  stands : ∀ p ∈ standing, ∀ k ∈ releasedKeys cfg mode (txns p), p ∈ owners (lm.queue k)

theorem stands_init : Stands cfg mode txns [] {} where
  table := ⟨fun _ => List.nodup_nil, fun _ _ h => (List.not_mem_nil h).elim⟩
  filled _ h := by cases h
  stands _ h := (List.not_mem_nil h).elim

/-- With distinct keys `Release` visits no key twice. -/
theorem releasedKeys_nodup {txn : TxnProto} (h : txn.client.keys.Nodup) :
    (releasedKeys cfg mode txn).Nodup := by
  rw [ClientTxn.keys, ClientTxn.entries] at h
  exact h.sublist (List.filter_sublist.map _)

namespace Stands

variable {standing : List Ptr} {lm : LockManager} {p : Ptr}

theorem lock (hi : Stands cfg mode txns standing lm) (hp : p ∉ standing) :
    Stands cfg mode txns (p :: standing) (lm.lock cfg mode p (txns p)).1 := by
  have htable := hi.table.lock hp List.not_mem_nil
  refine ⟨⟨htable.once, fun k r hr => ?_⟩, stable_filled.lock _ hi.filled, fun q hq k hk => ?_⟩
  · obtain ⟨howner, hrest⟩ := htable.owner k r hr
    refine ⟨?_, hrest⟩
    rcases List.mem_append.mp howner with h | h
    · exact List.mem_cons_of_mem _ h
    · exact List.mem_cons.mpr (.inl (List.mem_singleton.mp h))
  · rcases List.mem_cons.mp hq with rfl | hq
    · obtain ⟨m, hm⟩ := mem_visited.mp hk
      exact lock_stands cfg mode lm q (txns q) hm
    · have hold := hi.stands q hq k hk
      rcases (lock_asked cfg mode lm p (txns p)).1 k with heq | ⟨m, -, heq⟩
      · rwa [heq]
      · rw [heq, owners_append]
        exact List.mem_append_left _ hold

/-- A transaction that stands in the table can be released, and leaves it. -/
theorem release (hi : Stands cfg mode txns standing lm) (hkeys : (txns p).client.keys.Nodup)
    (hp : p ∈ standing) :
    ∃ lm' out, lm.release cfg mode p (txns p) = some (lm', out) ∧
      Stands cfg mode txns (standing.filter (· ≠ p)) lm' := by
  have hnodup : (releasedKeys cfg mode (txns p)).Nodup := releasedKeys_nodup hkeys
  have hsome : (lm.release cfg mode p (txns p)).isSome := by
    refine (releaseEntries_isSome _ hi.filled hi.table.once).mpr fun k hk => ⟨fun hnil => ?_, ?_⟩
    · have hstands := hi.stands p hp k hk
      rw [hnil] at hstands
      exact List.not_mem_nil hstands
    · intro hcount
      have := List.nodup_iff_count_le_one.mp hnodup k
      unfold releasedKeys at this
      omega
  obtain ⟨⟨lm', out⟩, hrel⟩ := Option.isSome_iff_exists.mp hsome
  obtain ⟨hqueue, -⟩ := releaseEntries_left _ hi.table.once hrel
  have htable := (hi.table.release hrel).1
  have hfilled : Filled lm' := stable_filled.releaseEntries _ hi.filled hrel
  refine ⟨lm', out, hrel, ⟨htable.once, fun k r hr => ?_⟩, hfilled, fun q hq k hk => ?_⟩
  · obtain ⟨howner, hgone, hasked⟩ := htable.owner k r hr
    refine ⟨List.mem_filter.mpr ⟨howner, decide_eq_true fun h => hgone ?_⟩,
      List.not_mem_nil, hasked⟩
    rw [h]
    exact List.mem_singleton_self p
  · obtain ⟨hq, hqp⟩ := List.mem_filter.mp hq
    obtain ⟨r, hr, rfl⟩ := mem_owners.mp (hi.stands q hq k hk)
    rw [hqueue]
    split
    · exact mem_owners.mpr ⟨r, List.mem_filter.mpr ⟨hr, hqp⟩, rfl⟩
    · exact mem_owners.mpr ⟨r, hr, rfl⟩

end Stands

theorem answers_inTurn {standing : List Ptr} {lm : LockManager} {cs : List LockCall}
    (hkeys : ∀ p, (txns p).client.keys.Nodup) (hi : Stands cfg mode txns standing lm)
    (h : InTurn standing cs) :
    ∃ lm' as standing', answers cfg mode txns lm cs = some (lm', as) ∧
      Stands cfg mode txns standing' lm' := by
  induction cs generalizing standing lm with
  | nil => exact ⟨lm, [], standing, rfl, hi⟩
  | cons c cs ih =>
      cases c with
      | lock p =>
          obtain ⟨hp, hrest⟩ := h
          obtain ⟨lm', as, standing', heq, hi'⟩ := ih (hi.lock hp) hrest
          let a : Answer :=
            ⟨(lm.lock cfg mode p (txns p)).2, some (lm.notAcquired cfg mode p (txns p))⟩
          refine ⟨lm', a :: as, standing', ?_, hi'⟩
          rw [answers, answer_lock, Option.bind_some]
          dsimp only
          rw [heq, Option.map_some]
      | release p =>
          obtain ⟨hp, hrest⟩ := h
          obtain ⟨lm₁, out, hrel, hi₁⟩ := hi.release (hkeys p) hp
          obtain ⟨lm', as, standing', heq, hi'⟩ := ih hi₁ hrest
          refine ⟨lm', ⟨out, none⟩ :: as, standing', ?_, hi'⟩
          rw [answers, answer, hrel, Option.map_some, Option.bind_some]
          dsimp only
          rw [heq, Option.map_some]

/-- After any calls that find the lists they look up, each key occurs in the table
at most once, in the bucket of its hash and with a list that is not empty, and the
calls pushed, counted and returned what they do on a map of queues. Calls that lock
a transaction while it is not locked, and release it while it is, find every list,
and leave each transaction at most one request for a key. -/
theorem table_refines (hkeys : ∀ p, (txns p).client.keys.Nodup) (cs : List LockCall) :
    (∀ lm as, answers cfg mode txns {} cs = some (lm, as) →
      Ordered lm ∧ queueAnswers cfg mode txns {} cs = (lm.keyQueues, as)) ∧
    (InTurn [] cs → ∃ lm as, answers cfg mode txns {} cs = some (lm, as) ∧
      ∀ b, ∀ e ∈ lm.lockTable.buckets b, (owners e.2).Nodup) := by
  refine ⟨fun lm as h => ⟨answers_ordered h, ?_⟩, fun hturn => ?_⟩
  · exact answers_eq h
  · obtain ⟨lm, as, standing, h, hi⟩ := answers_inTurn hkeys stands_init hturn
    refine ⟨lm, as, h, fun b e he => ?_⟩
    have hkeyed := answers_stable stable_keyed BucketTable.keyed_empty h
    have hqueue : lm.queue e.1 = e.2 := by
      rw [queue, hkeyed.find?_of_mem he]
      rfl
    rw [← hqueue]
    exact hi.table.once e.1

/-- Transactions 0 and 1 write key "3989", the others key "9352", which has the
same hash. -/
def colliding (p : Ptr) : TxnProto :=
  { txnId := p, readWriteSet := [⟨if p < 2 then [51, 57, 56, 57] else [57, 51, 53, 50], 0, 0⟩] }

/-- Two keys share a bucket; the list of one is handed on and then deleted, the
other's is left. -/
theorem table_refines_colliding :
    hashKey [51, 57, 56, 57] = hashKey [57, 51, 53, 50] ∧
      ∃ lm as, answers {} 0 colliding {} [.lock 0, .lock 2, .lock 1, .release 0, .release 1] =
          some (lm, as) ∧ Ordered lm ∧
        queueAnswers {} 0 colliding {} [.lock 0, .lock 2, .lock 1, .release 0, .release 1] =
          (lm.keyQueues, as) ∧
        as = [⟨[0], some 0⟩, ⟨[2], some 0⟩, ⟨[], some 1⟩, ⟨[1], none⟩, ⟨[], none⟩] ∧
        ∀ b, ∀ e ∈ lm.lockTable.buckets b, (owners e.2).Nodup := by
  obtain ⟨hall, hturn⟩ := @table_refines {} 0 colliding (fun p => List.nodup_singleton _)
    [.lock 0, .lock 2, .lock 1, .release 0, .release 1]
  obtain ⟨lm, as, h, honce⟩ := hturn (by decide)
  obtain ⟨hordered, hqueues⟩ := hall lm as h
  have has : (queueAnswers {} 0 colliding {}
      [.lock 0, .lock 2, .lock 1, .release 0, .release 1]).2 =
      [⟨[0], some 0⟩, ⟨[2], some 0⟩, ⟨[], some 1⟩, ⟨[1], none⟩, ⟨[], none⟩] := by
    decide
  rw [hqueues] at has
  exact ⟨by decide, lm, as, h, hordered, hqueues, has, honce⟩

end Calvin.LockCalls
