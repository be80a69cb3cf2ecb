import Calvin.Scheduler.Replica
import Calvin.Scheduler.Snapshots
import Calvin.Theorems.Turns

/-!
# The epochs of a record

The counter of a record counts its epochs. In each of them it has one master, and
all that reads or writes it comes from the log of this master, up to the remaster
transaction that ends the epoch: the first one of the log that names it. Whether a
transaction finds a record in the epoch of its entry is therefore a matter of the
logs, as long as every transaction comes in its turn.

* `EndsEpoch`, `Masters`: the remaster transactions, and the masters they make;
* `InEpoch`: an entry is met by its record;
* `Epochs`: the invariant, with `Epochs.step`;
* `Turns.executed_iff`: what has been executed when a transaction holds a lock.
-/

namespace Calvin.DeterministicScheduler

open Function Lib LockManager StorageManager
open Replica (Executed)

/-- A remaster transaction of a record in one epoch. -/
def EndsEpoch (k : Key) (r c : Nat) (txn : TxnProto) : Prop :=
  txn.remasterTxn = true ∧ txn.readWriteSet.head? = some ⟨k, r, c⟩

instance (k : Key) (r c : Nat) (txn : TxnProto) : Decidable (EndsEpoch k r c txn) :=
  inferInstanceAs (Decidable (_ ∧ _))

/-- The masters of the records in their epochs, as the first remaster transaction
of each makes them. -/
structure Masters (cfg : ClusterConfig) (txns : Ptr → TxnProto) (init : Key → Record)
    (masterAt : Key → Nat → Option Nat) : Prop where
  first : ∀ k, masterAt k (init k).counter = some (init k).master
  early : ∀ k c, c < (init k).counter → masterAt k c = none
  next : ∀ k c r p, cfg.isLocal k = true → masterAt k c = some r → EndsEpoch k r c (txns p) →
    (∀ q < p, ¬ EndsEpoch k r c (txns q)) → masterAt k (c + 1) = some (txns p).remasterTo

/-- The entry names an epoch of its record that nothing before the transaction
ends. -/
def InEpoch (masterAt : Key → Nat → Option Nat) (txns : Ptr → TxnProto) (p : Ptr)
    (entry : KeyEntry) : Prop :=
  masterAt entry.key entry.counter = some entry.master ∧
    ∀ q < p, ¬ EndsEpoch entry.key entry.master entry.counter (txns q)

variable {cfg : ClusterConfig} {txns : Ptr → TxnProto} {compute : Compute} {s s' : Node}
  {init : Key → Record} {masterAt : Key → Nat → Option Nat} {seen : Ptr → Key → Record}
  {p q : Ptr} {entry entry' : KeyEntry}

/-! ## Conflicts and their order -/

/-- Entries of two transactions name one epoch of a local record, and one of the
transactions writes it. -/
theorem logConflict (hp : entry ∈ (txns p).client.entries)
    (hq : entry' ∈ (txns q).client.entries) (hkey : entry.key = entry'.key)
    (hmaster : entry.master = entry'.master) (hownp : Own cfg (txns p).originReplica entry)
    (hownq : Own cfg (txns q).originReplica entry')
    (hw : entry ∈ (txns p).readWriteSet ∨ entry' ∈ (txns q).readWriteSet) :
    LogConflict cfg (txns p) (txns q) := by
  refine ⟨?_, entry, hp, entry', hq, hkey, decide_eq_true hownp.2, hownp.1, hownq.1, hw⟩
  rw [← hownp.1, ← hownq.1, hmaster]

theorem LogConflict.asks (h : LogConflict cfg (txns p) (txns q)) :
    ∃ a ∈ asks cfg 2 txns p, ∃ b ∈ asks cfg 2 txns q, a.1 = b.1 ∧ LockQueue.Conflict a.2 b.2 := by
  obtain ⟨-, ea, ha, eb, hb, hkey, hlocal, hma, hmb, hw⟩ := h
  have howna : Own cfg (txns p).originReplica ea := ⟨hma, of_decide_eq_true hlocal⟩
  have hownb : Own cfg (txns q).originReplica eb :=
    ⟨hmb, of_decide_eq_true (p := cfg.lookupPartition eb.key = cfg.relativeNodeId) (hkey ▸ hlocal)⟩
  rcases hw with hw | hw
  · obtain ⟨lockMode, hask⟩ := @exists_mem_asks cfg 2 txns q _ hb hownb
    exact ⟨_, write_mem_asks hw howna, _, hask, hkey, .inl rfl⟩
  · obtain ⟨lockMode, hask⟩ := @exists_mem_asks cfg 2 txns p _ ha howna
    exact ⟨_, hask, _, write_mem_asks hw hownb, hkey, .inr rfl⟩

/-- What conflicts with a transaction that has its locks, and comes before it, is
deleted. -/
theorem Turns.earlier_deleted (hi : Turns cfg txns s) (hs : Snapshots cfg txns seen s)
    (hp : Started s p) (hpm : s.status p ≠ .abortedWithoutLock) (hqp : q < p)
    (hqm : s.status q ≠ .abortedWithoutLock) (hc : LogConflict cfg (txns q) (txns p)) :
    q ∈ s.deleted := by
  obtain ⟨pushed, freed, hheld⟩ := hs.held
  have hlocked := hheld.locked_of_started hp hpm
  obtain ⟨hfree, hbefore⟩ := hi.order.order q p hqp hc hlocked
  have hq : q ∈ s.locked := by
    rcases hi.taken q (Nat.lt_trans hqp (hi.order.lockedOld p hlocked)) with hq | ⟨-, hq | hq⟩
    · exact hq
    · exact absurd hq hfree
    · exact absurd hq hqm
  obtain ⟨a, ha, b, hb, hkey, hconflict⟩ := hc.asks
  exact hheld.earlier_deleted hp hpm hq (idxOf_lt_of_pair_sublist hi.order.nodup (hbefore hq)) hb ha
    hkey.symm hconflict.symm

theorem started_of_executed (h : Executed s p) : Started s p :=
  .inr (.inr (.inr h))

/-- What has been executed of the conflicting transactions when one has its locks:
those before it. -/
theorem Turns.executed_iff (hi : Turns cfg txns s) (hs : Snapshots cfg txns seen s)
    (hp : Started s p) (hpm : s.status p ≠ .abortedWithoutLock) (hnot : ¬ Executed s p)
    (hqp : q ≠ p) (hqm : s.status q ≠ .abortedWithoutLock) (hc : LogConflict cfg (txns q) (txns p))
    (hc' : LogConflict cfg (txns p) (txns q)) : Executed s q ↔ q < p := by
  constructor
  · intro hq
    have hle : ¬ p < q := fun hpq =>
      hnot (.inr (hi.earlier_deleted hs (started_of_executed hq) hqm hpq hpm hc'))
    exact Nat.lt_of_le_of_ne (Nat.le_of_not_lt hle) hqp
  · intro hlt
    exact .inr (hi.earlier_deleted hs hp hpm hlt hqm hc)

/-- The entry of a remaster transaction. -/
theorem EndsEpoch.own {k : Key} {r c : Nat} (h : EndsEpoch k r c (txns p))
    (hform : ∀ p, (txns p).remasterTxn = true → RemasterForm cfg (txns p)) :
    (⟨k, r, c⟩ : KeyEntry) ∈ (txns p).readWriteSet ∧
      Own cfg (txns p).originReplica ⟨k, r, c⟩ := by
  obtain ⟨e, hset, hmaster, hlocal⟩ := (hform p h.1).entry
  have hhead := h.2
  rw [hset] at hhead
  obtain rfl := Option.some.inj hhead
  exact ⟨by rw [hset]; exact List.mem_cons_self, hmaster, of_decide_eq_true hlocal⟩

/-- It has no other. -/
theorem RemasterForm.endsEpoch (h : RemasterForm cfg (txns p)) (hr : (txns p).remasterTxn = true)
    (he : entry ∈ (txns p).client.entries) :
    EndsEpoch entry.key entry.master entry.counter (txns p) := by
  obtain ⟨e, hset, -, -⟩ := h.entry
  rw [ClientTxn.entries, TxnProto.client, h.readSet, hset] at he
  obtain rfl := List.mem_singleton.mp he
  exact ⟨hr, by rw [hset]; rfl⟩

/-! ## The invariant -/

structure Epochs (cfg : ClusterConfig) (txns : Ptr → TxnProto)
    (masterAt : Key → Nat → Option Nat) (seen : Ptr → Key → Record) (s : Node) : Prop where
  now : ∀ k, cfg.isLocal k = true → masterAt k (s.store k).counter = some (s.store k).master
  /-- What is over has been ended. -/
  past : ∀ k r c, cfg.isLocal k = true → c < (s.store k).counter → masterAt k c = some r →
    ∃ q, Executed s q ∧ EndsEpoch k r c (txns q)
  ended : ∀ q k r c, Executed s q → EndsEpoch k r c (txns q) → masterAt k c = some r →
    c < (s.store k).counter
  /-- Remaster transactions are started in their turn. -/
  opened : ∀ q k r c, Opened s q → EndsEpoch k r c (txns q) → c ≤ (s.store k).counter
  stale : ∀ p, s.status p = .abortedWithoutLock → ∃ entry ∈ (txns p).client.entries,
    Own cfg (txns p).originReplica entry ∧ ¬ InEpoch masterAt txns p entry
  verifying : ∀ rest v, s.verifying = some (rest, v) → v.aborted = true →
    ∃ entry ∈ (txns s.next).client.entries,
      Own cfg (txns s.next).originReplica entry ∧ ¬ InEpoch masterAt txns s.next entry
  seen : ∀ p, Opened s p → s.status p ≠ .abortedWithoutLock → ∀ entry ∈ (txns p).client.entries,
    Own cfg (txns p).originReplica entry →
      (upToDate (seen p entry.key) entry = true ↔ InEpoch masterAt txns p entry)

theorem epochs_init (hmasters : Masters cfg txns init masterAt)
    (hnew : ∀ p, (txns p).status ≠ .abortedWithoutLock) (seen : Ptr → Key → Record) :
    Epochs cfg txns masterAt seen (initial txns init) where
  now k _ := hmasters.first k
  past k r c _ hlt hm := by
    rw [hmasters.early k c hlt] at hm
    cases hm
  ended q k r c hq := by
    rcases hq with hq | hq
    · exact absurd hq List.not_mem_nil
    · exact absurd hq List.not_mem_nil
  opened q k r c hq := by simp [Opened, initial] at hq
  stale p hp := absurd hp (hnew p)
  verifying rest v hv := by cases hv
  seen p hp := by simp [Opened, initial] at hp

theorem upToDate_iff {val : Record} :
    upToDate val entry = true ↔ entry.master = val.master ∧ entry.counter = val.counter := by
  simp [upToDate]

namespace Epochs

variable (hform : ∀ p, (txns p).remasterTxn = true → RemasterForm cfg (txns p))

include hform

/-- A transaction that has its locks finds a record in the epoch of its entry
exactly if the logs say so. -/
theorem upToDate_store (hi : Epochs cfg txns masterAt seen s) (ht : Turns cfg txns s)
    (hs : Snapshots cfg txns seen s) (hp : Started s p) (hpm : s.status p ≠ .abortedWithoutLock)
    (hnot : ¬ Executed s p) (he : entry ∈ (txns p).client.entries)
    (hown : Own cfg (txns p).originReplica entry)
    (hreached : (txns p).remasterTxn = true → entry.counter ≤ (s.store entry.key).counter) :
    upToDate (s.store entry.key) entry = true ↔ InEpoch masterAt txns p entry := by
  have hlocal : cfg.isLocal entry.key = true := decide_eq_true hown.2
  rw [upToDate_iff]
  obtain ⟨pushed, freed, hheld⟩ := hs.held
  have hlocked := hheld.locked_of_started hp hpm
  constructor
  · rintro ⟨hmaster, hcounter⟩
    have hnow : masterAt entry.key entry.counter = some entry.master := by
      rw [hmaster, hcounter]
      exact hi.now _ hlocal
    refine ⟨hnow, fun q hqp hends => ?_⟩
    -- the remaster transaction has been executed, so that the epoch is over
    obtain ⟨hmem, hownq⟩ := hends.own hform
    have hdeleted := ht.earlier_deleted hs hp hpm hqp (ht.unmarked q hends.1)
      (logConflict (List.mem_append_right _ hmem) he rfl rfl hownq hown (.inl hmem))
    have hlt := hi.ended q _ _ _ (.inr hdeleted) hends hnow
    rw [hcounter] at hlt
    exact Nat.lt_irrefl _ hlt
  · rintro ⟨hnow, hfirst⟩
    have hle : entry.counter ≤ (s.store entry.key).counter := by
      cases hr : (txns p).remasterTxn with
      | true => exact hreached hr
      | false =>
          by_contra hlt
          exact ht.reached p hlocked hr entry ⟨he, hlocal, hown.1, Nat.lt_of_not_le hlt⟩
    have hcounter : entry.counter = (s.store entry.key).counter := by
      refine Nat.le_antisymm hle (Nat.le_of_not_lt fun hlt => ?_)
      obtain ⟨q, hq, hends⟩ := hi.past _ _ _ hlocal hlt hnow
      have hpq : p < q := by
        rcases Nat.lt_trichotomy p q with hpq | rfl | hqp
        · exact hpq
        · exact absurd hq hnot
        · exact absurd hends (hfirst q hqp)
      -- the epoch cannot end before the transaction is executed
      obtain ⟨hmem, hownq⟩ := hends.own hform
      exact hnot (.inr (ht.earlier_deleted hs (started_of_executed hq)
        (ht.unmarked q hends.1) hpq hpm
        (logConflict he (List.mem_append_right _ hmem) rfl rfl hown hownq (.inr hmem))))
    refine ⟨?_, hcounter⟩
    have hmaster := hi.now _ hlocal
    rw [← hcounter, hnow] at hmaster
    exact Option.some.inj hmaster

/-- What has been executed is not ahead of the records. -/
theorem executed_le (hi : Epochs cfg txns masterAt seen s) (ht : Turns cfg txns s)
    (hs : Snapshots cfg txns seen s) (hq : Executed s q) (hqm : s.status q ≠ .abortedWithoutLock)
    (he : entry ∈ (txns q).client.entries) (hown : Own cfg (txns q).originReplica entry) :
    entry.counter ≤ (s.store entry.key).counter := by
  cases hr : (txns q).remasterTxn with
  | true => exact hi.opened q _ _ _ (.inr hq) ((hform q hr).endsEpoch hr he)
  | false =>
      obtain ⟨pushed, freed, hheld⟩ := hs.held
      by_contra hlt
      exact ht.reached q (hheld.locked_of_started (started_of_executed hq) hqm) hr entry
        ⟨he, decide_eq_true hown.2, hown.1, Nat.lt_of_not_le hlt⟩

/-! ## Steps -/

omit hform in
/-- A step that leaves the records alone, and executes and starts nothing. -/
theorem frame (hi : Epochs cfg txns masterAt seen s) (hstore : s'.store = s.store)
    (hexecuted : ∀ q, Executed s' q ↔ Executed s q) (hopened : ∀ q, Opened s' q → Opened s q)
    (hmarked : ∀ p, s'.status p = .abortedWithoutLock → s.status p = .abortedWithoutLock ∨
      ∃ entry ∈ (txns p).client.entries,
        Own cfg (txns p).originReplica entry ∧ ¬ InEpoch masterAt txns p entry)
    (hstays : ∀ p, s.status p = .abortedWithoutLock → s'.status p = .abortedWithoutLock)
    (hverifying : ∀ rest v, s'.verifying = some (rest, v) → v.aborted = true →
      ∃ entry ∈ (txns s'.next).client.entries,
        Own cfg (txns s'.next).originReplica entry ∧ ¬ InEpoch masterAt txns s'.next entry) :
    Epochs cfg txns masterAt seen s' where
  now := by
    rw [hstore]
    exact hi.now
  past k r c hlocal hlt hm := by
    rw [hstore] at hlt
    obtain ⟨q, hq, hends⟩ := hi.past k r c hlocal hlt hm
    exact ⟨q, (hexecuted q).mpr hq, hends⟩
  ended q k r c hq := by
    rw [hstore]
    exact hi.ended q k r c ((hexecuted q).mp hq)
  opened q k r c hq := by
    rw [hstore]
    exact hi.opened q k r c (hopened q hq)
  stale p hp := (hmarked p hp).elim (hi.stale p) id
  verifying := hverifying
  seen p hp hs := hi.seen p (hopened p hp) fun h => hs (hstays p h)

omit hform in
/-- What `VerifyStorageCounters` finds ahead of an entry ended its epoch before the
transaction. -/
theorem verify (hi : Epochs cfg txns masterAt seen s) (hs : Snapshots cfg txns seen s)
    (h : verify cfg txns s = some s') : Epochs cfg txns masterAt seen s' := by
  obtain ⟨entry, rest, v, hv, rfl⟩ := verify_cases h
  refine hi.frame rfl (fun _ => Iff.rfl) (fun _ h => h) (fun p hp => .inl hp) (fun _ h => h) ?_
  intro rest' v' hverify habort
  obtain ⟨rfl, rfl⟩ := Prod.mk.inj (Option.some.inj hverify)
  rcases verifyEntry_aborted habort with hold | ⟨hown, hlt⟩
  · exact hi.verifying _ v hv hold
  · refine ⟨entry, (hs.verifying _ v hv).1 entry List.mem_cons_self, hown, ?_⟩
    rintro ⟨hnow, hfirst⟩
    obtain ⟨q, hq, hends⟩ := hi.past _ _ _ (decide_eq_true hown.2) hlt hnow
    have hlast : q < s.next := Opened.lt_next (.inr hq) hs.life
    exact hfirst q hlast hends

omit hform in
theorem route (hi : Epochs cfg txns masterAt seen s) (h : route cfg 2 txns s = some s') :
    Epochs cfg txns masterAt seen s' := by
  obtain ⟨v, hv, hcases⟩ := route_locks h
  have hframe : s'.store = s.store ∧ s'.managers = s.managers ∧ s'.doneQueue = s.doneQueue ∧
      s'.deleted = s.deleted ∧ s'.status = marks s v ∧ s'.verifying = none := by
    rcases hcases with ⟨waits, rfl⟩ | ⟨-, rfl⟩ | rfl
    all_goals exact ⟨rfl, rfl, rfl, rfl, rfl, rfl⟩
  obtain ⟨hstore, hmanagers, hdone, hdeleted, hstatus, hverifying⟩ := hframe
  refine hi.frame hstore (fun q => ?_) (fun q hq => ?_) (fun p hp => ?_) (fun p hp => ?_)
    fun rest v' hv' => ?_
  · rw [Executed, hdone, hdeleted]
    rfl
  · rw [Opened, hmanagers, hdone, hdeleted] at hq
    exact hq
  · rw [hstatus] at hp
    rcases (marks_iff s v p).mp hp with hp | ⟨rfl, habort⟩
    · exact .inl hp
    · exact .inr (hi.verifying _ v hv habort)
  · rw [hstatus]
    exact (marks_iff s v p).mpr (.inl hp)
  · rw [hverifying] at hv'
    cases hv'

/-- A manager is created over the records of the epoch. -/
theorem start {sent : List ReadResult} (hi : Epochs cfg txns masterAt seen s)
    (ht : Turns cfg txns s) (hs : Snapshots cfg txns seen s)
    (hgood : remasterAhead txns s .start = false)
    (h : start cfg 2 txns s = some (s', sent)) :
    Epochs cfg txns masterAt (taken seen s .start) s' := by
  obtain ⟨p, rest, hq, -, rfl⟩ := start_cases h
  have htaken : taken seen s .start = update seen p s.store := by simp only [taken, hq]
  obtain ⟨-, hdone, hdeleted⟩ := hs.life.of_queued (hq ▸ List.mem_cons_self : p ∈ s.txnsQueue)
  have hopened : ∀ q, Opened { s with
      txnsQueue := rest
      managers := update s.managers p (some (create cfg 2 s.store (txnOf txns s p)).1) } q →
      q = p ∨ Opened s q := by
    intro q hq
    by_cases hqp : q = p
    · exact .inl hqp
    · refine .inr (hq.imp_left fun h => ?_)
      change (update s.managers p _ q).isSome at h
      rwa [update_of_ne hqp] at h
  have hahead : ∀ k r c, EndsEpoch k r c (txns p) → c ≤ (s.store k).counter := by
    intro k r c hends
    rw [remasterAhead, hq] at hgood
    simpa [hends.1, hends.2] using hgood
  rw [htaken]
  refine ⟨hi.now, hi.past, hi.ended, fun q k r c hopen hends => ?_, hi.stale, hi.verifying, ?_⟩
  · rcases hopened q hopen with rfl | hopen
    · exact hahead k r c hends
    · exact hi.opened q k r c hopen hends
  · intro q hopen hqm entry he hown
    by_cases hqp : q = p
    · subst hqp
      rw [update_self]
      exact hi.upToDate_store hform ht hs (.inr (.inl (hq ▸ List.mem_cons_self))) hqm
        (fun h => h.elim hdone hdeleted) he hown fun hr =>
          hahead _ _ _ ((hform q hr).endsEpoch hr he)
    · rw [update_of_ne hqp]
      exact hi.seen q ((hopened q hopen).resolve_left hqp) hqm entry he hown

end Epochs

/-- The records after the remaster of one of them. -/
def remasteredTo (store : Key → Record) (e : KeyEntry) (remasterTo : Nat) : Key → Record :=
  update store e.key { store e.key with master := remasterTo, counter := e.counter + 1 }

/-- A worker ends a transaction: it moves a record on, writes values, or aborts. -/
theorem run_ways (hform : ∀ p, (txns p).remasterTxn = true → RemasterForm cfg (txns p))
    (ht : Turns cfg txns s) {guid random : Nat} {forword : Option TxnForword}
    (h : run cfg 2 txns compute s p guid random = some (s', forword)) :
    ∃ sm, s.managers p = some sm ∧ sm.readyToExecute (txns p) = true ∧
      ((∃ e, EndsEpoch e.key e.master e.counter (txns p) ∧
          upToDate (s.store e.key) e = true ∧
          s' = finish { s with store := remasteredTo s.store e (txns p).remasterTo } p
            .committed) ∨
        ((txns p).remasterTxn = false ∧
          (∃ status, sm.decision s.store (txnOf txns s p) = some (true, status)) ∧
          s' = finish { s with
            store := Microbenchmark.writeValues compute (txnOf txns s p) sm s.store } p
              .committed) ∨
        ∃ status, status ≠ .committed ∧
          sm.decision s.store (txnOf txns s p) = some (false, status) ∧
          s' = finish s p status) := by
  obtain ⟨sm, hsm, hready, ⟨store, hexec, -, rfl, hdec⟩ | ⟨status, hcheck, rfl⟩⟩ := run_check h
  · refine ⟨sm, hsm, hready, ?_⟩
    cases hr : (txns p).remasterTxn with
    | true =>
        obtain ⟨e, hset, -, -⟩ := (hform p hr).entry
        have hhead : (txns p).readWriteSet.head? = some e := by
          rw [hset]
          rfl
        obtain ⟨hstored, -⟩ := ht.counters.managed p sm hsm hr e hhead
        obtain ⟨hsame, rfl⟩ :=
          Microbenchmark.execute_remaster (txnOf txns s p) hr hhead hstored hexec
        exact .inl ⟨e, ⟨hr, hhead⟩, upToDate_iff.mpr hsame, rfl⟩
    | false =>
        have hnot : (txnOf txns s p).remasterTxn = false := hr
        rw [Microbenchmark.execute, if_neg (by rw [hnot]; decide)] at hexec
        cases hexec
        exact .inr (.inl ⟨rfl, hdec, rfl⟩)
  · exact ⟨sm, hsm, hready, .inr (.inr ⟨status, checkCommitOrAbort_abort hcheck,
      checkCommitOrAbort_decision hcheck, rfl⟩)⟩

namespace Epochs

variable (hform : ∀ p, (txns p).remasterTxn = true → RemasterForm cfg (txns p))

include hform

/-- A remaster transaction that comes in its turn and aborts is too late. -/
theorem aborted_late (hi : Epochs cfg txns masterAt seen s) (ht : Turns cfg txns s)
    (hs : Snapshots cfg txns seen s) {sm : StorageManager} (hsm : s.managers p = some sm)
    {status : Status} (hdec : sm.decision s.store (txnOf txns s p) = some (false, status))
    {k : Key} {r c : Nat} (hends : EndsEpoch k r c (txns p)) (hm : masterAt k c = some r) :
    c < (s.store k).counter := by
  have hpart := hs.participant p sm hsm
  have hunmarked := ht.unmarked p hends.1
  obtain ⟨hmem, hown⟩ := hends.own hform
  have hle := hi.opened p k r c (.inl (by rw [hsm]; rfl)) hends
  refine Nat.lt_of_le_of_ne hle fun heq => ?_
  have hnow := hi.now k (decide_eq_true hown.2)
  rw [← heq, hm] at hnow
  have hup : upToDate (s.store k) ⟨k, r, c⟩ = true :=
    upToDate_iff.mpr ⟨Option.some.inj hnow, heq⟩
  have honly : ∀ e ∈ (txns p).client.entries, e = ⟨k, r, c⟩ := by
    intro e he
    have h := ((hform p hends.1).endsEpoch hends.1 he).2
    rw [hends.2] at h
    exact (Option.some.inj h).symm
  rcases decision_cases hdec with ⟨hmarked, -⟩ | ⟨hcommit, -⟩ | ⟨-, -, ⟨-, hfalse⟩ | hcheck⟩
  · exact hunmarked hmarked
  · have htrue : sm.localCommit = true := by
      refine hpart.commit.mpr fun e he _ => ?_
      obtain rfl := honly e he
      obtain ⟨hmaster, hcounter⟩ := hpart.kept hunmarked _ he hown
      rw [upToDate_iff, ← hmaster, ← hcounter]
      exact upToDate_iff.mp hup
    rw [hcommit] at htrue
    cases htrue
  · cases hfalse
  · obtain ⟨e, he, val, hval, hstale⟩ := checkEntries_spec _ hcheck
    obtain rfl := honly e he
    obtain ⟨hstored, -⟩ := ht.counters.managed p sm hsm hends.1 _ hends.2
    rw [readObject, hstored] at hval
    obtain rfl := Option.some.inj hval
    exact absurd (hup.symm.trans hstale) (by decide)

omit hform in
/-- A worker has ended a transaction over records that have not gone back. -/
theorem finish (hi : Epochs cfg txns masterAt seen s) {store : Key → Record} {status : Status}
    (hmanager : (s.managers p).isSome)
    (hstatus : status = .abortedWithoutLock ↔ s.status p = .abortedWithoutLock)
    (hle : ∀ k, (s.store k).counter ≤ (store k).counter)
    (hnow : ∀ k, cfg.isLocal k = true → masterAt k (store k).counter = some (store k).master)
    (hpast : ∀ k r c, cfg.isLocal k = true → c < (store k).counter → masterAt k c = some r →
      c < (s.store k).counter ∨ EndsEpoch k r c (txns p))
    (hended : ∀ k r c, EndsEpoch k r c (txns p) → masterAt k c = some r → c < (store k).counter) :
    Epochs cfg txns masterAt seen (finish { s with store } p status) := by
  have hexecuted : ∀ q, Executed (DeterministicScheduler.finish { s with store } p status) q ↔
      Executed s q ∨ q = p := by
    intro q
    simp only [Executed, DeterministicScheduler.finish, List.mem_append, List.mem_singleton]
    exact or_right_comm
  have hopened : ∀ q, Opened (DeterministicScheduler.finish { s with store } p status) q →
      Opened s q := by
    intro q hq
    rcases hq with hq | hq
    · change (update s.managers p none q).isSome at hq
      by_cases hqp : q = p
      · rw [hqp, update_self] at hq
        exact absurd hq Bool.false_ne_true
      · rw [update_of_ne hqp] at hq
        exact .inl hq
    · rcases (hexecuted q).mp hq with hq | rfl
      · exact .inr hq
      · exact .inl hmanager
  have hmarked : ∀ q, (DeterministicScheduler.finish { s with store } p status).status q =
      .abortedWithoutLock ↔ s.status q = .abortedWithoutLock := by
    intro q
    show update s.status p status q = .abortedWithoutLock ↔ _
    by_cases hqp : q = p
    · subst hqp
      rw [update_self]
      exact hstatus
    · rw [update_of_ne hqp]
  refine ⟨hnow, fun k r c hlocal hlt hm => ?_, fun q k r c hq hends hm => ?_,
    fun q k r c hq hends => ?_, fun q hq => hi.stale q ((hmarked q).mp hq), hi.verifying,
    fun q hq hs => hi.seen q (hopened q hq) fun h => hs ((hmarked q).mpr h)⟩
  · rcases hpast k r c hlocal hlt hm with hlt | hends
    · obtain ⟨q, hq, hends⟩ := hi.past k r c hlocal hlt hm
      exact ⟨q, (hexecuted q).mpr (.inl hq), hends⟩
    · exact ⟨p, (hexecuted p).mpr (.inr rfl), hends⟩
  · rcases (hexecuted q).mp hq with hq | rfl
    · exact Nat.lt_of_lt_of_le (hi.ended q k r c hq hends hm) (hle k)
    · exact hended k r c hends hm
  · exact Nat.le_trans (hi.opened q k r c (hopened q hq) hends) (hle k)

/-- The first remaster transaction of the epoch ends it. -/
theorem run {guid random : Nat} {forword : Option TxnForword}
    (hmasters : Masters cfg txns init masterAt) (hi : Epochs cfg txns masterAt seen s)
    (ht : Turns cfg txns s) (hs : Snapshots cfg txns seen s)
    (h : run cfg 2 txns compute s p guid random = some (s', forword)) :
    Epochs cfg txns masterAt seen s' := by
  have hsame := run_sameLocks (fun _ => rfl) h
  obtain ⟨sm, hsm, -, ⟨e, hends, hup, rfl⟩ | ⟨hr, ⟨status, hdec⟩, rfl⟩ |
    ⟨status, -, hdec, rfl⟩⟩ := run_ways hform ht h
  all_goals
    have hmanager : (s.managers p).isSome := by rw [hsm]; rfl
    have hstatus := hsame.marked p
    simp only [DeterministicScheduler.finish, update_self] at hstatus
  · obtain ⟨hmaster, hcounter⟩ := upToDate_iff.mp hup
    obtain ⟨hmem, hown⟩ := hends.own hform
    have hlocal : cfg.isLocal e.key = true := decide_eq_true hown.2
    have hnow : masterAt e.key e.counter = some e.master := by
      rw [hmaster, hcounter]
      exact hi.now _ hlocal
    have hin : InEpoch masterAt txns p e := by
      obtain ⟨-, hdone, hdeleted⟩ := hs.life.of_manager hsm
      exact (hi.upToDate_store hform ht hs (.inr (.inr (.inl hmanager))) (ht.unmarked p hends.1)
        (fun h => h.elim hdone hdeleted) (List.mem_append_right _ hmem) hown
        fun _ => Nat.le_of_eq hcounter).mp hup
    have hself : remasteredTo s.store e (txns p).remasterTo e.key =
        { s.store e.key with master := (txns p).remasterTo, counter := e.counter + 1 } :=
      update_self ..
    have hother : ∀ k, k ≠ e.key → remasteredTo s.store e (txns p).remasterTo k = s.store k :=
      fun k hk => update_of_ne hk ..
    refine hi.finish hmanager hstatus (fun k => ?_) (fun k hk => ?_) (fun k r c hk hlt hm => ?_)
      fun k r c hends' hm => ?_
    · by_cases hk : k = e.key
      · rw [hk, hself, ← hcounter]
        exact Nat.le_succ _
      · rw [hother k hk]
    · by_cases hke : k = e.key
      · subst hke
        rw [hself]
        exact hmasters.next _ _ _ p hlocal hnow hends hin.2
      · rw [hother k hke]
        exact hi.now k hk
    · by_cases hke : k = e.key
      · subst hke
        rw [hself] at hlt
        rcases Nat.lt_or_eq_of_le (Nat.lt_succ_iff.mp hlt) with hlt | rfl
        · exact .inl (by rwa [← hcounter])
        · rw [hnow] at hm
          obtain rfl := Option.some.inj hm
          exact .inr hends
      · rw [hother k hke] at hlt
        exact .inl hlt
    · have heq : e = ⟨k, r, c⟩ := Option.some.inj (hends.2.symm.trans hends'.2)
      subst heq
      rw [hself]
      exact Nat.lt_succ_self _
  · have hrecords : ∀ k, (Microbenchmark.writeValues compute (txnOf txns s p) sm s.store k).master =
        (s.store k).master ∧
        (Microbenchmark.writeValues compute (txnOf txns s p) sm s.store k).counter =
          (s.store k).counter := by
      intro k
      unfold Microbenchmark.writeValues
      split <;> exact ⟨rfl, rfl⟩
    refine hi.finish hmanager hstatus (fun k => ?_) (fun k hk => ?_) (fun k r c hk hlt hm => ?_)
      fun k r c hends hm => ?_
    · rw [(hrecords k).2]
    · rw [(hrecords k).1, (hrecords k).2]
      exact hi.now k hk
    · rw [(hrecords k).2] at hlt
      exact .inl hlt
    · rw [hends.1] at hr
      cases hr
  · exact hi.finish hmanager hstatus (fun _ => Nat.le_refl _) hi.now
      (fun k r c hk hlt hm => .inl hlt) fun k r c hends hm =>
        hi.aborted_late hform ht hs hsm hdec hends hm

/-- Every step keeps the epochs, if it comes in its turn. -/
theorem step {e : Event} (hmasters : Masters cfg txns init masterAt)
    (hi : Epochs cfg txns masterAt seen s) (ht : Turns cfg txns s) (hs : Snapshots cfg txns seen s)
    (hgood : InTurn cfg txns s e) (h : step cfg 2 txns compute s e = some s') :
    Epochs cfg txns masterAt (taken seen s e) s' := by
  cases e with
  | parse =>
      obtain ⟨hv, ⟨-, -, rfl⟩ | rfl⟩ := parse_any h
      · refine hi.frame rfl (fun _ => Iff.rfl) (fun _ h => h) (fun p hp => .inl hp)
          (fun _ h => h) ?_
        intro rest v hverify habort
        obtain ⟨rfl, rfl⟩ := Prod.mk.inj (Option.some.inj hverify)
        exact absurd habort Bool.false_ne_true
      · refine hi.frame rfl (fun _ => Iff.rfl) (fun _ h => h) (fun p hp => .inl hp)
          (fun _ h => h) ?_
        intro rest v hverify
        change s.verifying = _ at hverify
        rw [hv] at hverify
        cases hverify
  | verify => exact hi.verify hs h
  | route => exact hi.route h
  | dispatch =>
      obtain ⟨-, q, rest, -, rfl⟩ := dispatch_cases h
      exact hi.frame rfl (fun _ => Iff.rfl) (fun _ h => h) (fun p hp => .inl hp) (fun _ h => h)
        hi.verifying
  | handleDone =>
      obtain ⟨-, q, rest, waits, ready, hq, -, lockManager, readyTxns, rfl⟩ := handleDone_cases h
      have hmoved : ∀ p, (p ∈ rest ∨ p ∈ q :: s.deleted) ↔ p ∈ s.doneQueue ∨ p ∈ s.deleted := by
        intro p
        rw [hq, List.mem_cons, List.mem_cons]
        exact ⟨fun h => h.elim (fun h => .inl (.inr h)) fun h =>
          h.elim (fun h => .inl (.inl h)) .inr,
          fun h => h.elim (fun h => h.elim (fun h => .inr (.inl h)) .inl) fun h => .inr (.inr h)⟩
      exact hi.frame rfl hmoved (fun p hp => hp.imp_right (hmoved p).mp) (fun p hp => .inl hp)
        (fun _ h => h) hi.verifying
  | start =>
      obtain ⟨⟨s₁, sent⟩, hstart, rfl⟩ := Option.map_eq_some_iff.mp h
      exact hi.start hform ht hs hgood.2.2 hstart
  | readResult q entries =>
      obtain ⟨sm, hsm, -, rfl⟩ := readResult_cases h
      refine hi.frame rfl (fun _ => Iff.rfl) (fun p hp => hp.imp_left fun h => ?_)
        (fun p hp => .inl hp) (fun _ h => h) hi.verifying
      change (update s.managers q _ p).isSome at h
      by_cases hpq : p = q
      · rw [hpq, hsm]
        rfl
      · rwa [update_of_ne hpq] at h
  | run q guid random =>
      obtain ⟨⟨s₁, forword⟩, hrun, rfl⟩ := Option.map_eq_some_iff.mp h
      exact hi.run hform hmasters ht hs hrun

end Epochs

end Calvin.DeterministicScheduler
