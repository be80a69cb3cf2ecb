import Calvin.Machine.LowlatencySequencer
import Calvin.Scheduler.DeterministicSchedulerSpec

/-!
# The remaster wait queues

The front of every blocking queue waits for remasters that list it. The
original and the copies of one transaction share an id; if two of them are put
to wait at one node, the outstanding pairs of the second replace those of the
first, which is stranded.

* `front_listed`: the front is listed, as long as no transaction is put to wait
  while one of the same id waits;
* `front_stranded`: without the condition it need not be.
-/

namespace Calvin.DeterministicScheduler

open Function Lib Machine RemasterWaits

variable {cfg : ClusterConfig} {txns : Ptr → TxnProto} {compute : Compute}

/-- The front of a queue waits, has outstanding pairs, and each of them lists
it. -/
def FrontListed (txns : Ptr → TxnProto) (w : RemasterWaits) : Prop :=
  ∀ r p, (w.blockingTxns r).head? = some p →
    w.waitForRemasterPros p = true ∧ w.waitingTxnsByTxnid (txns p).txnId ≠ [] ∧
      ∀ kc ∈ w.waitingTxnsByTxnid (txns p).txnId, p ∈ w.waitingTxnsByKey kc

/-! ## The invariant of the node -/

/-- The pairs `VerifyStorageCounters` has collected. -/
structure VerifyInv (v : Verify) : Prop where
  nodup : v.keys.Nodup
  nonempty : v.canExecuteNow = false → v.keys ≠ []

theorem verifyInv_init : VerifyInv {} where
  nodup := List.nodup_nil
  nonempty := by intro h; cases h

theorem VerifyInv.verifyEntry {v : Verify} (hi : VerifyInv v) (store : Key → Record)
    (origin : Nat) (entry : KeyEntry) : VerifyInv (verifyEntry cfg store origin entry v) := by
  unfold DeterministicScheduler.verifyEntry
  split
  · split
    · refine ⟨hi.nodup.insert, fun _ => ?_⟩
      exact List.ne_nil_of_mem List.mem_insert_self
    · split
      · exact ⟨hi.nodup, hi.nonempty⟩
      · exact hi
  · exact hi

structure QueuesInv (txns : Ptr → TxnProto) (s : Node) : Prop where
  waits : WaitsInv txns s.waits
  /-- Only parsed transactions are blocked. -/
  old : ∀ r, ∀ p ∈ s.waits.blockingTxns r, p < s.next
  /-- The flags of the others are unset. -/
  flags : ∀ p, s.next ≤ p → s.waits.waitForRemasterPros p = false
  verified : ∀ rest v, s.verifying = some (rest, v) → VerifyInv v

theorem queuesInv_init (hflags : ∀ p, (txns p).waitForRemasterPros = false)
    (store : Key → Record) : QueuesInv txns (initial txns store) where
  waits := waitsInv_init _
  old := by intro r p hp; exact absurd hp List.not_mem_nil
  flags := by intro p _; exact hflags p
  verified := by intro rest v h; cases h

namespace QueuesInv

/-- The invariant is about fields of the lock manager thread only. -/
theorem congr {s s' : Node} (hi : QueuesInv txns s) (h : SameThread s s') : QueuesInv txns s' where
  waits := by rw [h.waits]; exact hi.waits
  old := by rw [h.waits, h.next]; exact hi.old
  flags := by rw [h.waits, h.next]; exact hi.flags
  verified := by rw [h.verifying]; exact hi.verified

theorem fresh {s : Node} (hi : QueuesInv txns s) : Fresh s.waits s.next := fun r hp =>
  Nat.lt_irrefl _ (hi.old r s.next hp)

/-- The next transaction is taken, and the queues are as they were. -/
theorem take {s s' : Node} (hi : QueuesInv txns s) (hw : s'.waits = s.waits)
    (hn : s'.next = s.next + 1) (hv : s'.verifying = none) : QueuesInv txns s' where
  waits := by rw [hw]; exact hi.waits
  old := by
    intro r p hp
    rw [hw] at hp
    rw [hn]
    exact Nat.lt_succ_of_lt (hi.old r p hp)
  flags := by
    intro p hp
    rw [hn] at hp
    rw [hw]
    exact hi.flags p (Nat.le_of_succ_le hp)
  verified := by intro rest v h; rw [hv] at h; cases h

theorem parse {s s' : Node} (hi : QueuesInv txns s) (h : parse cfg 2 txns s = some s') :
    QueuesInv txns s' := by
  obtain ⟨hv, ⟨-, rfl⟩ | ⟨-, rfl⟩⟩ := parse_cases h
  · refine ⟨hi.waits, hi.old, hi.flags, ?_⟩
    intro rest v heq
    cases heq
    exact verifyInv_init
  · exact hi.take rfl rfl hv

theorem verify {s s' : Node} (hi : QueuesInv txns s) (h : verify cfg txns s = some s') :
    QueuesInv txns s' := by
  obtain ⟨entry, rest, v, hv, rfl⟩ := verify_cases h
  refine ⟨hi.waits, hi.old, hi.flags, ?_⟩
  intro rest' v' heq
  cases heq
  exact (hi.verified _ v hv).verifyEntry s.store _ entry

theorem route {s s' : Node} (hi : QueuesInv txns s) (hgood : DistinctIds txns s .route)
    (h : route cfg 2 txns s = some s') : QueuesInv txns s' := by
  obtain ⟨v, status, hv, -, rfl⟩ := route_cases h
  have hverify := hi.verified _ v hv
  have hnew : ∀ {q}, q = s.next → q < s.next + 1 := by
    rintro q rfl
    exact Nat.lt_succ_self _
  rcases routeVerified_cases cfg 2 txns { s with status } s.next v with
    ⟨hexec, heq⟩ | ⟨-, -, heq⟩ | ⟨-, hbehind, heq⟩ | ⟨-, -, heq⟩
  · -- put to wait
    rw [heq]
    refine ⟨hi.waits.putToWait hi.fresh (hgood.route hv hexec) (hverify.nonempty hexec)
      hverify.nodup, ?_, ?_, fun rest v h => by cases h⟩
    · intro r q hq
      rcases mem_block.mp hq with hq | ⟨hq, -⟩
      · exact Nat.lt_succ_of_lt (hi.old r q hq)
      · exact hnew hq
    · intro q hq
      have hne : q ≠ s.next := fun h => Nat.lt_irrefl _ (h ▸ hq)
      simp only [RemasterWaits.putToWait, update_of_ne hne]
      exact hi.flags q (Nat.le_of_succ_le hq)
  · rw [heq]
    exact hi.take rfl rfl rfl
  · -- behind a blocked transaction
    rw [heq]
    refine ⟨hi.waits.block hi.fresh (hi.flags _ (Nat.le_refl _)) hbehind, ?_, ?_,
      fun rest v h => by cases h⟩
    · intro r q hq
      rcases mem_block.mp hq with hq | ⟨hq, -⟩
      · exact Nat.lt_succ_of_lt (hi.old r q hq)
      · exact hnew hq
    · intro q hq
      exact hi.flags q (Nat.le_of_succ_le hq)
  · rw [heq]
    exact hi.take rfl rfl rfl

theorem handleDone {s s' : Node} (hi : QueuesInv txns s)
    (h : handleDone cfg 2 txns s = some s') : QueuesInv txns s' := by
  obtain ⟨hv, p, rest, waits, ready, -, hwake, lockManager, readyTxns, rfl⟩ := handleDone_cases h
  rcases wakeUp_cases hwake with ⟨-, rfl, -⟩ | ⟨-, entry, -, -, hwake⟩
  · exact ⟨hi.waits, hi.old, hi.flags, hi.verified⟩
  · obtain ⟨-, hpre⟩ := wake_prefix hi.waits.maps.filed hwake
    refine ⟨hi.waits.wake hwake, ?_, ?_, hi.verified⟩
    · intro r q hq
      refine hi.old r q ?_
      rw [hpre r]
      exact List.mem_append_right _ hq
    · intro q hq
      rw [flag_wake hwake fun hmem => ?_]
      · exact hi.flags q hq
      · -- those listed are blocked, so they were parsed
        have hblocked := (hi.waits.maps.ofListed _ q hmem).1.1
        exact absurd (hi.old _ q hblocked) (Nat.not_lt.mpr hq)

theorem step {s s' : Node} {e : Event} (hi : QueuesInv txns s) (hgood : DistinctIds txns s e)
    (h : step cfg 2 txns compute s e = some s') : QueuesInv txns s' := by
  cases e with
  | parse => exact hi.parse h
  | verify => exact hi.verify h
  | route => exact hi.route hgood h
  | dispatch => exact hi.congr (dispatch_frame h)
  | handleDone => exact hi.handleDone h
  | start => exact hi.congr (start_frame h)
  | readResult p entries => exact hi.congr (readResult_frame h)
  | run p guid random => exact hi.congr (run_frame h)

end QueuesInv

theorem queuesInv (hflags : ∀ p, (txns p).waitForRemasterPros = false) {store : Key → Record}
    {s : Node} (h : (machine cfg 2 txns compute store).Reach (DistinctIds txns) s) :
    QueuesInv txns s :=
  h.invariant (queuesInv_init hflags store) fun _ _ _ _ hgood hi hn => hi.step hgood hn

theorem frontListed_of_inv {s : Node} (hi : QueuesInv txns s) : FrontListed txns s.waits := by
  intro r p hp
  have hflag := hi.waits.front r p hp
  have hwait : Waiting txns s.waits p := by
    have hr := hi.waits.maps.filed r p (List.mem_of_mem_head? hp)
    exact ⟨hr ▸ List.mem_of_mem_head? hp, hflag⟩
  exact ⟨hflag, hi.waits.maps.pairs p hwait, hi.waits.maps.listed p hwait⟩

/-- As long as no two transactions of one id wait at a time, the front of every
queue is listed, and each remaster it waits for is crossed off when it comes;
the last one takes it out of the queue. -/
theorem front_listed (hflags : ∀ p, (txns p).waitForRemasterPros = false) {store : Key → Record}
    {s : Node} (h : (machine cfg 2 txns compute store).Reach (DistinctIds txns) s) :
    FrontListed txns s.waits ∧
      ∀ r p, (s.waits.blockingTxns r).head? = some p →
        ∀ kc ∈ s.waits.waitingTxnsByTxnid (txns p).txnId,
          ∃ w ready, s.waits.wake txns kc = some (w, ready) ∧
            (left txns s.waits kc p = [] → p ∈ ready) ∧
            (left txns s.waits kc p ≠ [] → (w.blockingTxns r).head? = some p ∧
              w.waitingTxnsByTxnid (txns p).txnId = left txns s.waits kc p) := by
  have hi := queuesInv hflags h
  refine ⟨frontListed_of_inv hi, ?_⟩
  intro r p hp kc hkc
  exact hi.waits.wake_front hp hkc

/-! ## Two transactions with one id -/

/-- The original and the copy of a transaction of two replicas, on the keys `0`
and `1` after one remaster each. -/
def sharedId (p : Ptr) : TxnProto :=
  LowlatencySequencer.withReaders {}
    { txnId := p / 2, originReplica := p % 2, readWriteSet := [⟨[48], 0, 1⟩, ⟨[49], 1, 1⟩] }

/-- The lock manager thread takes a transaction with two keys. -/
def takeTwo : List Event := [.parse, .verify, .verify, .route]

/-- The remasters have not come yet. -/
def unmastered : Key → Record := fun _ => ⟨[], 0, 0⟩

theorem front_listed_waits :
    ∃ s : Node, s.waits.blockingTxns 0 = [0] ∧ FrontListed sharedId s.waits := by
  obtain ⟨s, hs, hblocked⟩ := exists_of_runIf
    (m := machine {} 2 sharedId (fun _ _ _ => []) unmastered) (DistinctIds sharedId)
    (P := fun s => s.waits.blockingTxns 0 = [0]) takeTwo (by decide)
  exact ⟨s, hblocked, (front_listed (fun _ => rfl) hs).1⟩

/-- The outstanding pairs of the original are replaced by those of the copy,
which do not list the original. -/
theorem front_stranded :
    ¬ ∀ (cfg : ClusterConfig) (txns : Ptr → TxnProto) (compute : Compute) (store : Key → Record)
        (s : Node), (∀ p, (txns p).waitForRemasterPros = false) →
        (machine cfg 2 txns compute store).Reachable s → FrontListed txns s.waits := by
  intro hclaim
  obtain ⟨s, hs, hfront, hpair, hlist⟩ := exists_of_trace
    (m := machine {} 2 sharedId (fun _ _ _ => []) unmastered)
    (P := fun s => (s.waits.blockingTxns 0).head? = some 0 ∧
      ([49], 1) ∈ s.waits.waitingTxnsByTxnid 0 ∧ 0 ∉ s.waits.waitingTxnsByKey ([49], 1))
    (takeTwo ++ takeTwo) (by decide)
  exact hlist ((hclaim _ _ _ _ s (fun _ => rfl) hs 0 0 hfront).2.2 _ hpair)

end Calvin.DeterministicScheduler
