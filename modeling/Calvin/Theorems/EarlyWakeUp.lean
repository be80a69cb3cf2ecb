import Calvin.Machine.LowlatencySequencer
import Calvin.Scheduler.DeterministicSchedulerSpec

/-!
# When a blocked transaction is passed to `Lock`

A finished remaster transaction wakes those that wait for the counter after its
own, whether it has committed or aborted. If it has aborted before the counter
got there, they are woken too early; so are transactions whose outstanding pairs
were replaced by those of another transaction with their id.

* `woken_in_time`: a blocked transaction is passed to `Lock` only when the
  stored counters have reached those of its entries, in runs in which neither
  happens;
* `aborted_remaster_wakes`: without the condition it is not so.
-/

namespace Calvin.DeterministicScheduler

open Function Lib Machine RemasterWaits

variable {cfg : ClusterConfig} {txns : Ptr → TxnProto} {compute : Compute}

/-- A local entry of the origin of the transaction whose counter the stored
record has not reached. -/
def Ahead (cfg : ClusterConfig) (store : Key → Record) (txn : TxnProto) (entry : KeyEntry) : Prop :=
  entry ∈ txn.readSet ++ txn.readWriteSet ∧ cfg.isLocal entry.key = true ∧
    entry.master = txn.originReplica ∧ (store entry.key).counter < entry.counter

/-- How the application sends remaster transactions: for one record, from its
master, and they arrive where the record is. -/
structure RemasterForm (cfg : ClusterConfig) (txn : TxnProto) : Prop where
  readSet : txn.readSet = []
  entry : ∃ entry, txn.readWriteSet = [entry] ∧ entry.master = txn.originReplica ∧
    cfg.isLocal entry.key = true
  reader : cfg.relativeNodeId ∈ txn.readers

/-- A finished remaster transaction is handled that was not committed, while
others wait for the counter after its own, which the record has not reached. -/
def wakesInVain (txns : Ptr → TxnProto) (s : Node) : Event → Bool
  | .handleDone =>
      match s.doneQueue with
      | p :: _ =>
          (txns p).remasterTxn && (txns p).readWriteSet.head?.any fun entry =>
            s.waits.waitingTxnsByKey (entry.key, entry.counter + 1) ≠ [] ∧
              s.status p ≠ .committed ∧ (s.store entry.key).counter ≤ entry.counter
      | [] => false
  | _ => false

/-- A step after which nothing is woken that still has to wait. -/
def WakesInTime (txns : Ptr → TxnProto) (s : Node) (e : Event) : Prop :=
  DistinctIds txns s e ∧ wakesInVain txns s e = false

instance (s : Node) (e : Event) : Decidable (WakesInTime txns s e) :=
  inferInstanceAs (Decidable (_ ∧ _))

/-! ## The invariant -/

/-- What a blocked transaction still has to wait for is outstanding. -/
structure WaitsFor (cfg : ClusterConfig) (txns : Ptr → TxnProto) (store : Key → Record)
    (w : RemasterWaits) : Prop where
  filed : Filed txns w
  outstanding : ∀ r, ∀ p ∈ w.blockingTxns r, ∀ entry, Ahead cfg store (txns p) entry →
    (entry.key, entry.counter) ∈ w.waitingTxnsByTxnid (txns p).txnId
  /-- One that does not wait has nothing to wait for. -/
  settled : ∀ r, ∀ p ∈ w.blockingTxns r, w.waitForRemasterPros p = false → ∀ entry,
    ¬ Ahead cfg store (txns p) entry

namespace WaitsFor

variable {store store' : Key → Record} {w w' : RemasterWaits}

/-- Counters only grow, and then there is less to wait for. -/
theorem mono (hi : WaitsFor cfg txns store w)
    (hle : ∀ k, (store k).counter ≤ (store' k).counter) : WaitsFor cfg txns store' w where
  filed := hi.filed
  outstanding := fun r p hp entry ⟨he, hl, hm, hlt⟩ =>
    hi.outstanding r p hp entry ⟨he, hl, hm, Nat.lt_of_le_of_lt (hle _) hlt⟩
  settled := fun r p hp hflag entry ⟨he, hl, hm, hlt⟩ =>
    hi.settled r p hp hflag entry ⟨he, hl, hm, Nat.lt_of_le_of_lt (hle _) hlt⟩

/-- The pairs of a new transaction take the place of none. -/
theorem putToWait (hi : WaitsFor cfg txns store w) {p : Ptr} {keys : List (Key × Nat)}
    (hid : w.waitingTxnsByTxnid (txns p).txnId = [])
    (hkeys : ∀ entry, Ahead cfg store (txns p) entry → (entry.key, entry.counter) ∈ keys) :
    WaitsFor cfg txns store (w.putToWait txns p keys) where
  filed := filed_block hi.filed
  outstanding := by
    intro r q hq entry hahead
    by_cases ht : (txns q).txnId = (txns p).txnId
    · simp only [RemasterWaits.putToWait, ht, update_self]
      rcases mem_block.mp hq with hq | ⟨rfl, -⟩
      · -- the older one has nothing to wait for: its pairs are gone
        have hmem := hi.outstanding r q hq entry hahead
        rw [ht, hid] at hmem
        exact absurd hmem List.not_mem_nil
      · exact hkeys entry hahead
    · simp only [RemasterWaits.putToWait, update_of_ne ht]
      rcases mem_block.mp hq with hq | ⟨rfl, -⟩
      · exact hi.outstanding r q hq entry hahead
      · exact absurd rfl ht
  settled := by
    intro r q hq hflag entry hahead
    by_cases hqp : q = p
    · simp only [RemasterWaits.putToWait, hqp, update_self] at hflag
      exact Bool.false_ne_true hflag.symm
    · simp only [RemasterWaits.putToWait, update_of_ne hqp] at hflag
      have hq' := (mem_block.mp hq).resolve_right fun h => hqp h.1
      exact hi.settled r q hq' hflag entry hahead

/-- A new transaction that can execute goes behind the blocked ones. -/
theorem block (hi : WaitsFor cfg txns store w) {p : Ptr}
    (hnone : ∀ entry, ¬ Ahead cfg store (txns p) entry) :
    WaitsFor cfg txns store (w.block txns p) where
  filed := filed_block hi.filed
  outstanding := by
    intro r q hq entry hahead
    rcases mem_block.mp hq with hq | ⟨rfl, -⟩
    · exact hi.outstanding r q hq entry hahead
    · exact absurd hahead (hnone entry)
  settled := by
    intro r q hq hflag entry hahead
    rcases mem_block.mp hq with hq | ⟨rfl, -⟩
    · exact hi.settled r q hq hflag entry hahead
    · exact hnone entry hahead

/-- Crossing off a pair that the store has reached. -/
theorem crossOff (hi : WaitsFor cfg txns store w) {kc : Key × Nat} {a : Ptr}
    (hkc : kc.2 ≤ (store kc.1).counter) : WaitsFor cfg txns store (crossOff txns w kc a) := by
  have hleft : ∀ r, ∀ p ∈ w.blockingTxns r, (txns p).txnId = (txns a).txnId → ∀ entry,
      Ahead cfg store (txns p) entry → (entry.key, entry.counter) ∈ left txns w kc a := by
    intro r p hp hid entry hahead
    have hmem := hi.outstanding r p hp entry hahead
    rw [hid] at hmem
    refine (List.mem_erase_of_ne ?_).mpr hmem
    rintro rfl
    exact Nat.not_lt.mpr hkc hahead.2.2.2
  refine ⟨hi.filed, ?_, ?_⟩
  · intro r p hp entry hahead
    by_cases ht : (txns p).txnId = (txns a).txnId
    · simp only [RemasterWaits.crossOff, ht, update_self]
      exact hleft r p hp ht entry hahead
    · simp only [RemasterWaits.crossOff, update_of_ne ht]
      exact hi.outstanding r p hp entry hahead
  · intro r p hp hflag entry hahead
    by_cases hl : left txns w kc a = []
    · by_cases hpa : p = a
      · -- `a` stops waiting when nothing is left
        have hmem := hleft r p hp (by rw [hpa]) entry hahead
        rw [hl] at hmem
        exact List.not_mem_nil hmem
      · simp only [RemasterWaits.crossOff, hl, if_true, update_of_ne hpa] at hflag
        exact hi.settled r p hp hflag entry hahead
    · simp only [RemasterWaits.crossOff, hl, if_false] at hflag
      exact hi.settled r p hp hflag entry hahead

theorem mem_popReady {w : RemasterWaits} {origin r : Nat} {p : Ptr}
    (hp : p ∈ (popReady w origin).1.blockingTxns r) : p ∈ w.blockingTxns r := by
  by_cases hr : r = origin
  · subst hr
    rw [← popReady_append]
    exact List.mem_append_right _ hp
  · rw [popReady_other w hr] at hp
    exact hp

theorem popReady (hi : WaitsFor cfg txns store w) (origin : Nat) :
    WaitsFor cfg txns store (popReady w origin).1 ∧
      ∀ p ∈ (RemasterWaits.popReady w origin).2, ∀ entry, ¬ Ahead cfg store (txns p) entry := by
  refine ⟨⟨?_, ?_, ?_⟩, ?_⟩
  · exact fun r p hp => hi.filed r p (mem_popReady hp)
  · exact fun r p hp => hi.outstanding r p (mem_popReady hp)
  · exact fun r p hp => hi.settled r p (mem_popReady hp)
  · intro p hp
    have hflag := List.mem_takeWhile_imp hp
    refine hi.settled origin p ?_ (by simpa using hflag)
    rw [← popReady_append w origin]
    exact List.mem_append_left _ hp

theorem wakeOne {kc : Key × Nat} {ready ready' : List Ptr} {a : Ptr}
    (hi : WaitsFor cfg txns store w) (hkc : kc.2 ≤ (store kc.1).counter)
    (hready : ∀ p ∈ ready, ∀ entry, ¬ Ahead cfg store (txns p) entry)
    (h : wakeOne txns kc (w, ready) a = some (w', ready')) :
    WaitsFor cfg txns store w' ∧ ∀ p ∈ ready', ∀ entry, ¬ Ahead cfg store (txns p) entry := by
  have hcross := hi.crossOff (a := a) hkc
  rcases wakeOne_cases h with ⟨rfl, rfl, -⟩ | ⟨-, -, rfl, rfl⟩
  · exact ⟨hcross, hready⟩
  · obtain ⟨hpop, hpopped⟩ := hcross.popReady (txns a).originReplica
    refine ⟨hpop, fun p hp => ?_⟩
    rcases List.mem_append.mp hp with hp | hp
    · exact hready p hp
    · exact hpopped p hp

theorem foldlM_wakeOne {kc : Key × Nat} (as : List Ptr) {ready ready' : List Ptr}
    (hi : WaitsFor cfg txns store w) (hkc : kc.2 ≤ (store kc.1).counter)
    (hready : ∀ p ∈ ready, ∀ entry, ¬ Ahead cfg store (txns p) entry)
    (h : as.foldlM (RemasterWaits.wakeOne txns kc) (w, ready) = some (w', ready')) :
    WaitsFor cfg txns store w' ∧ ∀ p ∈ ready', ∀ entry, ¬ Ahead cfg store (txns p) entry := by
  induction as generalizing w ready with
  | nil =>
      cases h
      exact ⟨hi, hready⟩
  | cons a as ih =>
      rw [List.foldlM_cons, Option.bind_eq_bind, Option.bind_eq_some_iff] at h
      obtain ⟨⟨w₁, ready₁⟩, hone, hrest⟩ := h
      obtain ⟨hi₁, hready₁⟩ := hi.wakeOne hkc hready hone
      exact ih hi₁ hready₁ hrest

/-- The wake-up when the stored counter has got there: all that are ready have
nothing to wait for. -/
theorem wake {kc : Key × Nat} {ready : List Ptr} (hi : WaitsFor cfg txns store w)
    (hkc : w.waitingTxnsByKey kc ≠ [] → kc.2 ≤ (store kc.1).counter)
    (h : w.wake txns kc = some (w', ready)) :
    WaitsFor cfg txns store w' ∧ ∀ p ∈ ready, ∀ entry, ¬ Ahead cfg store (txns p) entry := by
  rw [RemasterWaits.wake, Option.map_eq_some_iff] at h
  obtain ⟨⟨w₁, ready₁⟩, hfold, heq⟩ := h
  obtain ⟨rfl, rfl⟩ := Prod.mk.inj heq
  have hend : WaitsFor cfg txns store w₁ ∧
      ∀ p ∈ ready₁, ∀ entry, ¬ Ahead cfg store (txns p) entry := by
    by_cases hnone : w.waitingTxnsByKey kc = []
    · rw [hnone] at hfold
      cases hfold
      exact ⟨hi, fun p hp => absurd hp List.not_mem_nil⟩
    · exact foldlM_wakeOne _ hi (hkc hnone) (fun p hp => absurd hp List.not_mem_nil) hfold
  exact ⟨⟨hend.1.filed, hend.1.outstanding, hend.1.settled⟩, hend.2⟩

end WaitsFor

/-- What `VerifyStorageCounters` has found: every entry ahead of the store is
collected or still to be looked up. -/
structure Verified (cfg : ClusterConfig) (store : Key → Record) (txn : TxnProto)
    (rest : List KeyEntry) (v : Verify) : Prop where
  seen : ∀ entry, Ahead cfg store txn entry → entry ∈ rest ∨ (entry.key, entry.counter) ∈ v.keys
  none : v.canExecuteNow = true → v.keys = []

theorem verified_init (store : Key → Record) (txn : TxnProto) :
    Verified cfg store txn (txn.readSet ++ txn.readWriteSet) {} where
  seen := fun _ h => .inl h.1
  none := fun _ => rfl

theorem Verified.mono {store store' : Key → Record} {txn : TxnProto} {rest : List KeyEntry}
    {v : Verify} (h : Verified cfg store txn rest v)
    (hle : ∀ k, (store k).counter ≤ (store' k).counter) : Verified cfg store' txn rest v where
  seen := fun entry ⟨he, hl, hm, hlt⟩ =>
    h.seen entry ⟨he, hl, hm, Nat.lt_of_le_of_lt (hle _) hlt⟩
  none := h.none

theorem Verified.verifyEntry {store : Key → Record} {txn : TxnProto} {entry : KeyEntry}
    {rest : List KeyEntry} {v : Verify} (h : Verified cfg store txn (entry :: rest) v) :
    Verified cfg store txn rest (verifyEntry cfg store txn.originReplica entry v) := by
  have hkeys : ∀ kc ∈ v.keys,
      kc ∈ (DeterministicScheduler.verifyEntry cfg store txn.originReplica entry v).keys := by
    intro kc hkc
    unfold DeterministicScheduler.verifyEntry
    split
    · split
      · exact List.mem_insert_of_mem hkc
      · split <;> exact hkc
    · exact hkc
  refine ⟨fun e hahead => ?_, fun hexec => ?_⟩
  · rcases h.seen e hahead with hin | hin
    · rcases List.mem_cons.mp hin with rfl | hin
      · -- the entry that is looked up now is collected
        refine .inr ?_
        obtain ⟨-, hlocal, hmaster, hlt⟩ := hahead
        unfold DeterministicScheduler.verifyEntry
        rw [if_pos ⟨hlocal, hmaster⟩, if_pos hlt]
        exact List.mem_insert_self
      · exact .inl hin
    · exact .inr (hkeys _ hin)
  · unfold DeterministicScheduler.verifyEntry at hexec ⊢
    split at hexec
    case isTrue hown =>
        rw [if_pos hown]
        split at hexec
        case isTrue => cases hexec
        case isFalse hlt =>
            rw [if_neg hlt]
            split at hexec
            case isTrue habort => rw [if_pos habort]; exact h.none hexec
            case isFalse habort => rw [if_neg habort]; exact h.none hexec
    case isFalse hown =>
        rw [if_neg hown]
        exact h.none hexec

/-- All entries have been looked up: those ahead of the store are collected. -/
theorem Verified.collected {store : Key → Record} {txn : TxnProto} {v : Verify}
    (h : Verified cfg store txn [] v) {entry : KeyEntry} (hahead : Ahead cfg store txn entry) :
    (entry.key, entry.counter) ∈ v.keys :=
  (h.seen entry hahead).resolve_left List.not_mem_nil

theorem Verified.not_ahead {store : Key → Record} {txn : TxnProto} {v : Verify}
    (h : Verified cfg store txn [] v) (hexec : v.canExecuteNow = true) (entry : KeyEntry) :
    ¬ Ahead cfg store txn entry := by
  intro hahead
  have hmem := h.collected hahead
  rw [h.none hexec] at hmem
  exact List.not_mem_nil hmem

structure CountersInv (cfg : ClusterConfig) (txns : Ptr → TxnProto) (s : Node) : Prop where
  waits : WaitsFor cfg txns s.store s.waits
  old : ∀ r, ∀ p ∈ s.waits.blockingTxns r, p < s.next
  verified : ∀ rest v, s.verifying = some (rest, v) →
    Verified cfg s.store (txns s.next) rest v
  /-- A worker with a remaster transaction holds the stored record. -/
  managed : ∀ p sm, s.managers p = some sm → (txns p).remasterTxn = true →
    ∀ entry, (txns p).readWriteSet.head? = some entry →
      sm.objects.lookup entry.key = some .stored ∧ sm.readyToExecute (txns p) = true
  /-- After a committed remaster transaction the counter is past its own. -/
  committed : ∀ p ∈ s.doneQueue, (txns p).remasterTxn = true → s.status p = .committed →
    ∀ entry, (txns p).readWriteSet.head? = some entry →
      entry.counter < (s.store entry.key).counter

theorem countersInv_init (store : Key → Record) :
    CountersInv cfg txns (initial txns store) where
  waits :=
    { filed := by intro r p hp; exact absurd hp List.not_mem_nil
      outstanding := by intro r p hp; exact absurd hp List.not_mem_nil
      settled := by intro r p hp; exact absurd hp List.not_mem_nil }
  old := by intro r p hp; exact absurd hp List.not_mem_nil
  verified := by intro rest v h; cases h
  managed := by intro p sm h; cases h
  committed := by intro p hp; exact absurd hp List.not_mem_nil

namespace CountersInv

variable {s s' : Node}

/-- The next transaction is taken; it is not blocked. -/
theorem take (hi : CountersInv cfg txns s) (hw : s'.waits = s.waits) (hn : s'.next = s.next + 1)
    (hv : s'.verifying = none) (hstore : s'.store = s.store) (hm : s'.managers = s.managers)
    (hq : s'.doneQueue = s.doneQueue)
    (hstatus : ∀ p, s'.status p = .committed → s.status p = .committed) :
    CountersInv cfg txns s' where
  waits := by rw [hw, hstore]; exact hi.waits
  old := by
    intro r p hp
    rw [hw] at hp
    rw [hn]
    exact Nat.lt_succ_of_lt (hi.old r p hp)
  verified := by intro rest v h; rw [hv] at h; cases h
  managed := by rw [hm]; exact hi.managed
  committed := by
    intro p hp hr hst
    rw [hq] at hp
    rw [hstore]
    exact hi.committed p hp hr (hstatus p hst)

theorem parse (hi : CountersInv cfg txns s) (h : parse cfg 2 txns s = some s') :
    CountersInv cfg txns s' := by
  obtain ⟨hv, ⟨-, rfl⟩ | ⟨-, rfl⟩⟩ := parse_cases h
  · refine ⟨hi.waits, hi.old, ?_, hi.managed, hi.committed⟩
    intro rest v heq
    cases heq
    exact verified_init _ _
  · exact hi.take rfl rfl hv rfl rfl rfl fun _ h => h

theorem verify (hi : CountersInv cfg txns s) (h : verify cfg txns s = some s') :
    CountersInv cfg txns s' := by
  obtain ⟨entry, rest, v, hv, rfl⟩ := verify_cases h
  refine ⟨hi.waits, hi.old, ?_, hi.managed, hi.committed⟩
  intro rest' v' heq
  cases heq
  exact (hi.verified _ v hv).verifyEntry

/-- The transaction that is blocked next. -/
theorem blockNext (hi : CountersInv cfg txns s) {w : RemasterWaits} {status : Ptr → Status}
    (hw : WaitsFor cfg txns s.store w)
    (hb : w.blockingTxns = (s.waits.block txns s.next).blockingTxns)
    (hstatus : ∀ p, status p = .committed → s.status p = .committed) :
    CountersInv cfg txns
      { s with waits := w, status, next := s.next + 1, verifying := none } where
  waits := hw
  old := by
    intro r p hp
    change p ∈ w.blockingTxns r at hp
    rw [hb] at hp
    rcases mem_block.mp hp with hp | ⟨rfl, -⟩
    · exact Nat.lt_succ_of_lt (hi.old r p hp)
    · exact Nat.lt_succ_self _
  verified := by intro rest v h; cases h
  managed := hi.managed
  committed := fun p hp hr hst => hi.committed p hp hr (hstatus p hst)

theorem route (hi : CountersInv cfg txns s) (hgood : DistinctIds txns s .route)
    (h : route cfg 2 txns s = some s') : CountersInv cfg txns s' := by
  obtain ⟨v, status, hv, hstatus, rfl⟩ := route_cases h
  have hverified := hi.verified _ v hv
  rcases routeVerified_cases cfg 2 txns { s with status } s.next v with
    ⟨hexec, heq⟩ | ⟨-, -, heq⟩ | ⟨hexec, -, heq⟩ | ⟨-, -, heq⟩
  · rw [heq]
    exact hi.blockNext (hi.waits.putToWait (hgood.route hv hexec) fun _ => hverified.collected)
      rfl hstatus
  · rw [heq]
    exact hi.take rfl rfl rfl rfl rfl rfl hstatus
  · rw [heq]
    exact hi.blockNext (hi.waits.block (hverified.not_ahead hexec)) rfl hstatus
  · rw [heq]
    exact hi.take rfl rfl rfl rfl rfl rfl hstatus

theorem handleDone (hi : CountersInv cfg txns s)
    (hgood : wakesInVain txns s .handleDone = false) (h : handleDone cfg 2 txns s = some s') :
    CountersInv cfg txns s' ∧ ∃ ready, s'.locked = s.locked ++ ready ∧ s'.store = s.store ∧
      ∀ p ∈ ready, ∀ entry, ¬ Ahead cfg s.store (txns p) entry := by
  obtain ⟨hv, p, rest, waits, ready, hq, hwake, lockManager, readyTxns, rfl⟩ := handleDone_cases h
  have hcommitted : ∀ q ∈ rest, (txns q).remasterTxn = true → s.status q = .committed →
      ∀ entry, (txns q).readWriteSet.head? = some entry →
        entry.counter < (s.store entry.key).counter := fun q hq' =>
    hi.committed q (hq ▸ List.mem_cons_of_mem _ hq')
  rcases wakeUp_cases hwake with ⟨-, rfl, rfl⟩ | ⟨hr, entry, he, -, hwake⟩
  · exact ⟨⟨hi.waits, hi.old, hi.verified, hi.managed, hcommitted⟩, [], rfl, rfl,
      fun p hp => absurd hp List.not_mem_nil⟩
  · -- if others wait for it, the counter of the record is past that of the entry
    have hreached : s.waits.waitingTxnsByKey (entry.key, entry.counter + 1) ≠ [] →
        entry.counter + 1 ≤ (s.store entry.key).counter := by
      intro hne
      by_cases hst : s.status p = .committed
      · exact hi.committed p (hq ▸ List.mem_cons_self) hr hst entry he
      · by_contra hlt
        have hle : (s.store entry.key).counter ≤ entry.counter :=
          Nat.lt_succ_iff.mp (Nat.lt_of_not_le hlt)
        simp [wakesInVain, hq, hr, he, hne, hst, hle] at hgood
    obtain ⟨hwaits, hready⟩ := hi.waits.wake hreached hwake
    obtain ⟨-, hpre⟩ := wake_prefix hi.waits.filed hwake
    refine ⟨⟨hwaits, ?_, hi.verified, hi.managed, hcommitted⟩, ready, rfl, rfl, hready⟩
    intro r q hq'
    refine hi.old r q ?_
    rw [hpre r]
    exact List.mem_append_right _ hq'

theorem start (hform : ∀ p, (txns p).remasterTxn = true → RemasterForm cfg (txns p))
    {sent : List ReadResult} (hi : CountersInv cfg txns s)
    (h : start cfg 2 txns s = some (s', sent)) : CountersInv cfg txns s' := by
  obtain ⟨p, rest, -, -, rfl⟩ := start_cases h
  refine ⟨hi.waits, hi.old, hi.verified, ?_, hi.committed⟩
  intro q sm hsm hr entry he
  by_cases hqp : q = p
  · subst hqp
    simp only [update_self] at hsm
    obtain ⟨entry', hwrite, hmaster, hlocal⟩ := (hform q hr).entry
    rw [hwrite] at he
    cases he
    rw [← Option.some.inj hsm]
    exact StorageManager.create_single 2 s.store (txnOf txns s q) (hform q hr).reader
      (hform q hr).readSet hwrite hmaster hlocal
  · simp only [update_of_ne hqp] at hsm
    exact hi.managed q sm hsm hr entry he

theorem readResult {p : Ptr} {entries : List (Key × Record)} (hi : CountersInv cfg txns s)
    (h : readResult txns s p entries = some s') :
    CountersInv cfg txns s' := by
  obtain ⟨sm₀, hsm₀, hnot, rfl⟩ := readResult_cases h
  refine ⟨hi.waits, hi.old, hi.verified, ?_, hi.committed⟩
  intro q sm hsm hr entry he
  by_cases hqp : q = p
  · -- a remaster transaction is complete from the start and gets no messages
    subst hqp
    have hready := (hi.managed q sm₀ hsm₀ hr entry he).2
    rw [hnot] at hready
    exact absurd hready Bool.false_ne_true
  · simp only [update_of_ne hqp] at hsm
    exact hi.managed q sm hsm hr entry he

/-- A transaction is finished over a store whose counters have not gone down. -/
theorem finish (hi : CountersInv cfg txns s) (store : Key → Record) {p : Ptr} {status : Status}
    (hle : ∀ k, (s.store k).counter ≤ (store k).counter)
    (hp : (txns p).remasterTxn = true → status = .committed →
      ∀ entry, (txns p).readWriteSet.head? = some entry →
        entry.counter < (store entry.key).counter) :
    CountersInv cfg txns (finish { s with store } p status) where
  waits := hi.waits.mono hle
  old := hi.old
  verified := fun rest v hv => (hi.verified rest v hv).mono hle
  managed := by
    intro q sm hsm hr entry he
    by_cases hqp : q = p
    · simp only [DeterministicScheduler.finish, hqp, update_self] at hsm
      cases hsm
    · simp only [DeterministicScheduler.finish, update_of_ne hqp] at hsm
      exact hi.managed q sm hsm hr entry he
  committed := by
    intro q hq hr hst entry he
    change entry.counter < (store entry.key).counter
    by_cases hqp : q = p
    · subst hqp
      simp only [DeterministicScheduler.finish, update_self] at hst
      exact hp hr hst entry he
    · simp only [DeterministicScheduler.finish, update_of_ne hqp] at hst
      have hq' : q ∈ s.doneQueue := by
        refine (List.mem_append.mp hq).resolve_right fun h => ?_
        exact hqp (List.mem_singleton.mp h)
      exact Nat.lt_of_lt_of_le (hi.committed q hq' hr hst entry he) (hle _)

theorem run (hi : CountersInv cfg txns s) {p : Ptr} {guid random : Nat}
    {forword : Option TxnForword}
    (h : run cfg 2 txns compute s p guid random = some (s', forword)) :
    CountersInv cfg txns s' := by
  obtain ⟨sm, hsm, -, ⟨store, hexec, rfl⟩ | ⟨status, hstatus, rfl⟩⟩ := run_cases h
  · refine hi.finish store (Microbenchmark.execute_counter hexec) fun hr _ entry he => ?_
    obtain ⟨hstored, -⟩ := hi.managed p sm hsm hr entry he
    obtain ⟨-, rfl⟩ :=
      Microbenchmark.execute_remaster (txnOf txns s p) hr he hstored hexec
    rw [update_self]
    exact Nat.lt_succ_self _
  · exact hi.finish s.store (fun _ => Nat.le_refl _) fun _ hst => absurd hst hstatus

theorem step (hform : ∀ p, (txns p).remasterTxn = true → RemasterForm cfg (txns p)) {e : Event}
    (hi : CountersInv cfg txns s) (hgood : WakesInTime txns s e)
    (h : step cfg 2 txns compute s e = some s') : CountersInv cfg txns s' := by
  cases e with
  | parse => exact hi.parse h
  | verify => exact hi.verify h
  | route => exact hi.route hgood.1 h
  | dispatch =>
      obtain ⟨-, p, rest, -, rfl⟩ := dispatch_cases h
      exact ⟨hi.waits, hi.old, hi.verified, hi.managed, hi.committed⟩
  | handleDone => exact (hi.handleDone hgood.2 h).1
  | start =>
      obtain ⟨⟨s₁, sent⟩, hstart, rfl⟩ := Option.map_eq_some_iff.mp h
      exact hi.start hform hstart
  | readResult p entries => exact hi.readResult h
  | run p guid random =>
      obtain ⟨⟨s₁, forword⟩, hrun, rfl⟩ := Option.map_eq_some_iff.mp h
      exact hi.run hrun

end CountersInv

/-- The calls of `Lock` in one step. -/
def lockedIn (s s' : Node) : List Ptr := s'.locked.drop s.locked.length

theorem lockedIn_append {s s' : Node} {ps : List Ptr} (h : s'.locked = s.locked ++ ps) :
    lockedIn s s' = ps := by
  rw [lockedIn, h, List.drop_left]

/-- Apart from the wake-up only the transaction just taken is passed to
`Lock`. -/
theorem lockedIn_next {s s' : Node} {e : Event} (he : e ≠ .handleDone)
    (h : step cfg 2 txns compute s e = some s') :
    lockedIn s s' = [] ∨ lockedIn s s' = [s.next] := by
  have hsame : SameThread s s' → lockedIn s s' = [] ∨ lockedIn s s' = [s.next] := fun hs =>
    .inl (lockedIn_append (by rw [hs.locked, List.append_nil]))
  cases e with
  | parse =>
      obtain ⟨-, ⟨-, rfl⟩ | ⟨-, rfl⟩⟩ := parse_cases h
      · exact .inl (lockedIn_append (List.append_nil _).symm)
      · exact .inr (lockedIn_append rfl)
  | verify =>
      obtain ⟨entry, rest, v, -, rfl⟩ := verify_cases h
      exact .inl (lockedIn_append (List.append_nil _).symm)
  | route =>
      obtain ⟨v, status, -, -, rfl⟩ := route_cases h
      rcases routeVerified_cases cfg 2 txns { s with status } s.next v
        with ⟨-, heq⟩ | ⟨-, -, heq⟩ | ⟨-, -, heq⟩ | ⟨-, -, heq⟩
      · rw [heq]
        exact .inl (lockedIn_append (List.append_nil _).symm)
      · rw [heq]
        exact .inl (lockedIn_append (List.append_nil _).symm)
      · rw [heq]
        exact .inl (lockedIn_append (List.append_nil _).symm)
      · rw [heq]
        exact .inr (lockedIn_append rfl)
  | dispatch => exact hsame (dispatch_frame h)
  | handleDone => exact absurd rfl he
  | start => exact hsame (start_frame h)
  | readResult p entries => exact hsame (readResult_frame h)
  | run p guid random => exact hsame (run_frame h)

/-- A blocked transaction that a step passes to `Lock` finds the counters of its
entries reached, in runs in which no two transactions of one id wait at a time
and no aborted remaster transaction wakes others in vain. -/
theorem woken_in_time (hform : ∀ p, (txns p).remasterTxn = true → RemasterForm cfg (txns p))
    {store : Key → Record} {s s' : Node} {e : Event}
    (h : (machine cfg 2 txns compute store).Reach (WakesInTime txns) s)
    (hgood : WakesInTime txns s e) (hstep : (machine cfg 2 txns compute store).next s e = some s') :
    ∀ r, ∀ p ∈ s.waits.blockingTxns r, p ∈ lockedIn s s' →
      ∀ entry ∈ (txns p).readSet ++ (txns p).readWriteSet, cfg.isLocal entry.key = true →
        entry.master = (txns p).originReplica →
          entry.counter ≤ (s'.store entry.key).counter := by
  have hi : CountersInv cfg txns s :=
    h.invariant (countersInv_init store) fun _ _ _ _ hgood hi hn => hi.step hform hgood hn
  intro r p hp hlocked entry hentry hlocal hmaster
  by_cases he : e = .handleDone
  · subst he
    obtain ⟨-, ready, hready, hstore, hnone⟩ := hi.handleDone hgood.2 hstep
    rw [lockedIn_append hready] at hlocked
    rw [hstore]
    by_contra hlt
    exact hnone p hlocked entry ⟨hentry, hlocal, hmaster, Nat.lt_of_not_le hlt⟩
  · -- the transaction just taken was not blocked
    rcases lockedIn_next he hstep with hnil | hnext
    · rw [hnil] at hlocked
      exact absurd hlocked List.not_mem_nil
    · rw [hnext, List.mem_singleton] at hlocked
      exact absurd (hi.old r p hp) (by rw [hlocked]; exact Nat.lt_irrefl _)

/-- A remaster transaction of key `0`, and a transaction that waits for it. -/
def remasteredFirst (p : Ptr) : TxnProto :=
  LowlatencySequencer.withReaders {} <| match p with
    | 0 =>
        { txnId := 0, readWriteSet := [⟨[48], 0, 0⟩]
          remasterTxn := true, remasterFrom := 0, remasterTo := 1 }
    | p => { txnId := p, readWriteSet := [⟨[48], 1, 1⟩], originReplica := 1 }

theorem woken_in_time_remaster :
    ∃ s s' : Node, 1 ∈ lockedIn s s' ∧ 1 ≤ (s'.store [48]).counter := by
  let m := machine {} 2 remasteredFirst (fun _ _ _ => []) fun _ => ⟨[], 0, 0⟩
  obtain ⟨s, hs, hblocked, hgood, hlast⟩ := exists_of_runIf (m := m) (WakesInTime remasteredFirst)
    (P := fun s => 1 ∈ s.waits.blockingTxns 1 ∧ WakesInTime remasteredFirst s .handleDone ∧
      (m.next s .handleDone).any fun s' => 1 ∈ lockedIn s s')
    [.parse, .parse, .verify, .route, .dispatch, .start, .run 0 0 0] (by decide)
  rw [Option.any_eq_true] at hlast
  obtain ⟨s', hnext, hlocked⟩ := hlast
  have hform : ∀ p, (remasteredFirst p).remasterTxn = true →
      RemasterForm {} (remasteredFirst p) := by
    intro p hr
    match p with
    | 0 => exact ⟨rfl, ⟨_, rfl, rfl, by decide⟩, by decide⟩
    | p + 1 => cases hr
  refine ⟨s, s', of_decide_eq_true hlocked, ?_⟩
  exact woken_in_time hform hs hgood hnext 1 1 hblocked (of_decide_eq_true hlocked)
    ⟨[48], 1, 1⟩ (by decide) (by decide) (by decide)

/-! ## A remaster transaction that aborts -/

/-- Two remaster transactions of key `0`, the second one first, and a
transaction that waits for the second. -/
def reordered (p : Ptr) : TxnProto :=
  LowlatencySequencer.withReaders {} <| match p with
    | 0 =>
        { txnId := 0, readWriteSet := [⟨[48], 1, 1⟩], originReplica := 1
          remasterTxn := true, remasterFrom := 1, remasterTo := 0 }
    | 1 =>
        { txnId := 1, readWriteSet := [⟨[48], 0, 0⟩]
          remasterTxn := true, remasterFrom := 0, remasterTo := 1 }
    | 2 => { txnId := 2, readWriteSet := [⟨[48], 0, 2⟩] }
    | p => { txnId := p }

/-- All three are taken, then the first is executed. -/
def wakingRun : List Event :=
  [.parse, .parse, .parse, .verify, .route, .dispatch, .start, .run 0 0 0]

/-- The first remaster transaction aborts, since the other one comes later, and
wakes the transaction that waits for it. -/
theorem aborted_remaster_wakes :
    ¬ ∀ (cfg : ClusterConfig) (txns : Ptr → TxnProto) (compute : Compute) (store : Key → Record)
        (s s' : Node) (e : Event),
        (∀ p, (txns p).remasterTxn = true → RemasterForm cfg (txns p)) →
        (machine cfg 2 txns compute store).Reachable s →
        (machine cfg 2 txns compute store).next s e = some s' →
        ∀ r, ∀ p ∈ s.waits.blockingTxns r, p ∈ lockedIn s s' →
          ∀ entry ∈ (txns p).readSet ++ (txns p).readWriteSet, cfg.isLocal entry.key = true →
            entry.master = (txns p).originReplica →
              entry.counter ≤ (s'.store entry.key).counter := by
  intro hclaim
  let m := machine {} 2 reordered (fun _ _ _ => []) fun _ => ⟨[], 0, 0⟩
  obtain ⟨s, hs, hblocked, hlast⟩ := exists_of_trace (m := m)
    (P := fun s => 2 ∈ s.waits.blockingTxns 0 ∧
      (m.next s .handleDone).any fun s' =>
        2 ∈ lockedIn s s' ∧ (s'.store [48]).counter = 0) wakingRun (by decide)
  rw [Option.any_eq_true] at hlast
  obtain ⟨s', hnext, hlast⟩ := hlast
  obtain ⟨hlocked, hcounter⟩ := of_decide_eq_true hlast
  have hform : ∀ p, (reordered p).remasterTxn = true → RemasterForm {} (reordered p) := by
    intro p hr
    match p with
    | 0 => exact ⟨rfl, ⟨_, rfl, rfl, by decide⟩, by decide⟩
    | 1 => exact ⟨rfl, ⟨_, rfl, rfl, by decide⟩, by decide⟩
    | 2 => cases hr
    | p + 3 => cases hr
  have hle := hclaim {} reordered _ _ s s' .handleDone hform hs hnext 0 2 hblocked hlocked
    ⟨[48], 0, 2⟩ (by decide) (by decide) (by decide)
  rw [hcounter] at hle
  exact absurd hle (by decide)

end Calvin.DeterministicScheduler
