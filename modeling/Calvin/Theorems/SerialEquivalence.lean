import Calvin.Lib.Serial
import Calvin.Scheduler.LockManagerSpec
import Calvin.Scheduler.SingleNode

/-!
# Serial equivalence on one node

However the workers overlap, once every transaction is released the store is
what executing them one after another leaves.

* `LockInv` of the lock manager gives that a running transaction meets, on each
  of its keys, exactly the writes of the conflicting ones before it;
* `store_eq_serial`: the result, and that `Release` is always defined.
-/

namespace Calvin.SingleNode

open Function Lib Lib.LockQueue LockManager

/-- All keys are local, and no key occurs twice in a transaction. -/
structure WellFormed (cfg : ClusterConfig) (txn : TxnProto) : Prop where
  isLocal : ∀ k ∈ keys txn, cfg.isLocal k = true
  distinct : (keys txn).Nodup

/-- The locks of the transaction with a number. -/
def asks (cfg : ClusterConfig) (txns : List TxnProto) (p : Ptr) : List (Key × LockMode) :=
  match txns[p]? with
  | some txn => lockRequests cfg 0 txn
  | none => []

/-- Transaction `p` writes the key. -/
abbrev WritesKey (txns : List TxnProto) (p : Ptr) (k : Key) : Prop :=
  Serial.Writes (fun txn k => k ∈ writeKeys txn) txns p k

section

variable {V : Type} {cfg : ClusterConfig} {txns : List TxnProto}
  {execute : TxnProto → (Key → Option V) → Key → V} {init : Key → V}

theorem mem_keys_of_mem_writeKeys {txn : TxnProto} {k : Key} (h : k ∈ writeKeys txn) :
    k ∈ keys txn := by
  obtain ⟨e, he, rfl⟩ := List.mem_map.mp h
  exact List.mem_map_of_mem (List.mem_append_right _ he)

theorem asks_eq {p : Ptr} {txn : TxnProto} (h : txns[p]? = some txn) :
    asks cfg txns p = lockRequests cfg 0 txn := by
  simp only [asks, h]

/-- In mode 0 the locks are exactly the local keys. -/
theorem lockRequests_keys {txn : TxnProto} (hwf : WellFormed cfg txn) :
    (lockRequests cfg 0 txn).map Prod.fst =
      writeKeys txn ++ txn.readSet.map KeyEntry.key := by
  have hall : ∀ l : List KeyEntry, (∀ e ∈ l, e.key ∈ keys txn) →
      l.filter (locks cfg 0 txn.originReplica) = l := fun l hl =>
    List.filter_eq_self.mpr fun e he => by simp [locks, hwf.isLocal e.key (hl e he)]
  rw [lockRequests, hall _ fun e he => List.mem_map_of_mem (List.mem_append_right _ he),
    hall _ fun e he => List.mem_map_of_mem (List.mem_append_left _ he), List.map_append,
    List.map_map, List.map_map]
  rfl

theorem asks_nodup (hwf : ∀ txn ∈ txns, WellFormed cfg txn) (p : Ptr) :
    ((asks cfg txns p).map Prod.fst).Nodup := by
  unfold asks
  cases hp : txns[p]? with
  | none => exact List.nodup_nil
  | some txn =>
      have hw := hwf txn (List.mem_of_getElem? hp)
      have hd := hw.distinct
      rw [keys, List.map_append] at hd
      simp only [lockRequests_keys hw]
      exact List.nodup_append_comm.mp hd

/-- Every key of a transaction is locked. -/
theorem exists_asks {p : Ptr} {txn : TxnProto} (hwf : WellFormed cfg txn)
    (hp : txns[p]? = some txn) {k : Key} (hk : k ∈ keys txn) :
    ∃ a ∈ asks cfg txns p, a.1 = k := by
  have hmem : k ∈ (lockRequests cfg 0 txn).map Prod.fst := by
    rw [lockRequests_keys hwf, List.mem_append]
    rw [keys, List.map_append, List.mem_append] at hk
    exact hk.symm
  rw [asks_eq hp]
  exact List.mem_map.mp hmem

/-- Every key a transaction writes is locked for writing. -/
theorem write_mem_asks {p : Ptr} {txn : TxnProto} (hwf : WellFormed cfg txn)
    (hp : txns[p]? = some txn) {k : Key} (hk : k ∈ writeKeys txn) :
    (k, LockMode.write) ∈ asks cfg txns p := by
  obtain ⟨e, he, rfl⟩ := List.mem_map.mp hk
  have hl : locks cfg 0 txn.originReplica e = true := by
    simp [locks, hwf.isLocal e.key (mem_keys_of_mem_writeKeys hk)]
  rw [asks_eq hp]
  exact List.mem_append_left _ (List.mem_map.mpr ⟨e, List.mem_filter.mpr ⟨he, hl⟩, rfl⟩)

/-! ## Invariant -/

/-- The lock manager and the phases of the transactions. -/
structure Scheduled (cfg : ClusterConfig) (txns : List TxnProto) (s : Node V) (pushed : List Ptr)
    (freed : Ptr → List Key) : Prop where
  lock : LockInv (asks cfg txns) (List.range s.next) pushed freed s.lockManager
  next : s.next ≤ txns.length
  ready : ∀ p ∈ s.readyTxns, p ∈ pushed ∧ s.phase p = .waiting
  readyNodup : s.readyTxns.Nodup
  started : ∀ p, s.phase p ≠ .waiting → p ∈ pushed
  unfreed : ∀ p, s.phase p ≠ .released → freed p = []

/-- What the workers have read and written agrees with the serial execution. -/
structure Executed (cfg : ClusterConfig) (txns : List TxnProto)
    (execute : TxnProto → (Key → Option V) → Key → V) (init : Key → V) (s : Node V) : Prop where
  view : ∀ p k v, s.view p k = some v →
    v = Serial.serialAt (runAlone execute) init txns p k ∧
      ∃ txn, txns[p]? = some txn ∧ k ∈ keys txn
  written : ∀ p, ∀ k ∈ s.written p, WritesKey txns p k ∧ s.phase p ≠ .waiting
  complete : ∀ p, s.phase p = .done ∨ s.phase p = .released → ∀ k, WritesKey txns p k →
    k ∈ s.written p
  agrees : Serial.Agrees (runAlone execute) (fun txn k => k ∈ writeKeys txn) init txns
    (fun p k => k ∈ s.written p) s.store

theorem runAlone_frame (execute : TxnProto → (Key → Option V) → Key → V) (s : Key → V)
    (txn : TxnProto) (k : Key) (h : ¬ k ∈ writeKeys txn) : runAlone execute s txn k = s k :=
  if_neg h

/-! ## What a running transaction meets -/

namespace Scheduled

variable {s : Node V} {pushed : List Ptr} {freed : Ptr → List Key}

theorem lt_next (hs : Scheduled cfg txns s pushed freed) {p : Ptr} (hp : p ∈ pushed) :
    p < s.next :=
  List.mem_range.mp (hs.lock.pushedLocked p hp)

/-- When a transaction was pushed, all that conflict with it and come before it
are released. -/
theorem earlier_released (hs : Scheduled cfg txns s pushed freed)
    (hwf : ∀ txn ∈ txns, WellFormed cfg txn) {p q : Ptr} {txn : TxnProto} {k : Key}
    (hp : p ∈ pushed) (hqp : q < p) (htxn : txns[p]? = some txn) (hk : k ∈ keys txn)
    (hw : WritesKey txns q k) : s.phase q = .released := by
  by_contra hne
  obtain ⟨txn', htxn', hk'⟩ := hw
  obtain ⟨a, ha, rfl⟩ := exists_asks (hwf txn (List.mem_of_getElem? htxn)) htxn hk
  have hb := write_mem_asks (hwf txn' (List.mem_of_getElem? htxn')) htxn' hk'
  have hlt := hs.lt_next hp
  have hql : q < s.next := Nat.lt_trans hqp hlt
  have hheld := hs.lock.held q (List.mem_range.mpr hql) _ hb (by
    rw [hs.unfreed q hne]
    exact List.not_mem_nil)
  exact hs.lock.safe p hp q ((before_range hql hlt).mpr hqp) a ha _ hb rfl (.inr rfl)
    (mem_owners.mpr ⟨_, hheld, rfl⟩)

/-- No later transaction has written a key of one that is not released. -/
theorem later_not_written (hs : Scheduled cfg txns s pushed freed)
    (hwf : ∀ txn ∈ txns, WellFormed cfg txn) (he : Executed cfg txns execute init s) {p q : Ptr}
    {k : Key} {txn : TxnProto} (htxn : txns[p]? = some txn) (hk : k ∈ writeKeys txn ∨ k ∈ keys txn)
    (hne : s.phase p ≠ .released) (hpq : p < q) : k ∉ s.written q := by
  intro hmem
  obtain ⟨⟨txn', htxn', hk'⟩, hstart⟩ := he.written q k hmem
  have hq := hs.started q hstart
  have hk : k ∈ keys txn := hk.elim mem_keys_of_mem_writeKeys id
  obtain ⟨a, ha, rfl⟩ := exists_asks (hwf txn (List.mem_of_getElem? htxn)) htxn hk
  have hb := write_mem_asks (hwf txn' (List.mem_of_getElem? htxn')) htxn' hk'
  have hlt := hs.lt_next hq
  have hpl : p < s.next := Nat.lt_trans hpq hlt
  have hheld := hs.lock.held p (List.mem_range.mpr hpl) _ ha (by
    rw [hs.unfreed p hne]
    exact List.not_mem_nil)
  exact hs.lock.safe q hq p ((before_range hpl hlt).mpr hpq) _ hb a ha rfl (.inl rfl)
    (mem_owners.mpr ⟨_, hheld, rfl⟩)

/-- A running transaction that has written nothing finds on its keys what the
serial execution shows it. -/
theorem store_eq (hs : Scheduled cfg txns s pushed freed)
    (hwf : ∀ txn ∈ txns, WellFormed cfg txn) (he : Executed cfg txns execute init s) {p : Ptr}
    {k : Key} {txn : TxnProto} (htxn : txns[p]? = some txn) (hk : k ∈ keys txn)
    (hrun : s.phase p = .running) (hnone : s.written p = []) :
    s.store k = Serial.serialAt (runAlone execute) init txns p k := by
  refine he.agrees k p (fun j hj hw => ?_) fun j hj hmem => ?_
  · have hrel := hs.earlier_released hwf (hs.started p (by rw [hrun]; nofun)) hj htxn hk hw
    exact he.complete j (.inr hrel) k hw
  · rcases Nat.lt_or_eq_of_le hj with hlt | rfl
    · exact hs.later_not_written hwf he htxn (.inr hk) (by rw [hrun]; nofun) hlt hmem
    · rw [hnone] at hmem
      cases hmem

end Scheduled

/-! ## Steps -/

variable {s : Node V} {pushed : List Ptr} {freed : Ptr → List Key}

theorem scheduled_init (init : Key → V) :
    Scheduled cfg txns ({ store := init } : Node V) [] fun _ => [] where
  lock := lockInv_init _
  next := Nat.zero_le _
  ready _ h := (List.not_mem_nil h).elim
  readyNodup := List.nodup_nil
  started _ h := absurd rfl h
  unfreed _ _ := rfl

theorem executed_init : Executed cfg txns execute init ({ store := init } : Node V) where
  view _ _ _ h := by cases h
  written _ _ h := (List.not_mem_nil h).elim
  complete _ h := by rcases h with h | h <;> cases h
  agrees := (Serial.agrees_init (runAlone_frame execute)).congr fun _ _ => by simp

/-- The transactions a call pushes are behind the ready ones, and wait. -/
theorem ready_push {phase : Ptr → Phase} {out : List Ptr}
    (hready : ∀ p ∈ s.readyTxns, p ∈ pushed ∧ s.phase p = .waiting) (hnodup : s.readyTxns.Nodup)
    (hstarted : ∀ p, s.phase p ≠ .waiting → p ∈ pushed) (hpushed : (pushed ++ out).Nodup)
    (hphase : ∀ p, s.phase p = .waiting → phase p = .waiting) :
    (∀ p ∈ s.readyTxns ++ out, p ∈ pushed ++ out ∧ phase p = .waiting) ∧
      (s.readyTxns ++ out).Nodup := by
  obtain ⟨-, hout, hdisjoint⟩ := List.nodup_append.mp hpushed
  refine ⟨fun p hp => ?_, List.nodup_append.mpr ⟨hnodup, hout, fun a ha b hb => ?_⟩⟩
  · rcases List.mem_append.mp hp with hp | hp
    · exact ⟨List.mem_append_left _ (hready p hp).1, hphase p (hready p hp).2⟩
    · refine ⟨List.mem_append_right _ hp, hphase p ?_⟩
      by_contra hne
      exact hdisjoint p (hstarted p hne) p hp rfl
  · exact hdisjoint a (hready a ha).1 b hb

theorem scheduled_lock (hwf : ∀ txn ∈ txns, WellFormed cfg txn) {s' : Node V}
    (hs : Scheduled cfg txns s pushed freed) (h : lockNext cfg txns s = some s') :
    ∃ pushed', Scheduled cfg txns s' pushed' freed := by
  simp only [lockNext, Option.map_eq_some_iff] at h
  obtain ⟨txn, htxn, rfl⟩ := h
  have hlock := hs.lock.lock (asks_nodup hwf) (asks_eq htxn)
    (fun hmem => Nat.lt_irrefl _ (List.mem_range.mp hmem))
  rw [← List.range_succ] at hlock
  obtain ⟨hready, hnodup⟩ := ready_push hs.ready hs.readyNodup hs.started hlock.pushedNodup
    fun _ hp => hp
  refine ⟨_, hlock, ?_, hready, hnodup, ?_, hs.unfreed⟩
  · exact (List.getElem?_eq_some_iff.mp htxn).1
  · exact fun p hp => List.mem_append_left _ (hs.started p hp)

theorem scheduled_release (hwf : ∀ txn ∈ txns, WellFormed cfg txn) {p : Ptr} {txn : TxnProto}
    (htxn : txns[p]? = some txn) (hdone : s.phase p = .done)
    (hs : Scheduled cfg txns s pushed freed) :
    ∃ lm out freed', s.lockManager.release cfg 0 p txn = some (lm, out) ∧
      Scheduled cfg txns
        { s with
          lockManager := lm
          readyTxns := s.readyTxns ++ out
          phase := update s.phase p .released } (pushed ++ out) freed' := by
  have hp := hs.started p (by rw [hdone]; nofun)
  obtain ⟨lm, out, freed', hrel, hlock, hsame, -⟩ := hs.lock.release (asks_nodup hwf) (asks_eq htxn)
    hp (hs.unfreed p (by rw [hdone]; nofun))
  have hphase : ∀ q, s.phase q = .waiting → update s.phase p Phase.released q = .waiting := by
    intro q hq
    rw [update_of_ne fun h => by rw [h, hdone] at hq; cases hq]
    exact hq
  obtain ⟨hready, hnodup⟩ := ready_push hs.ready hs.readyNodup hs.started hlock.pushedNodup hphase
  refine ⟨lm, out, freed', hrel, hlock, hs.next, hready, hnodup, fun q hq => ?_, fun q hq => ?_⟩
  · by_cases hqp : q = p
    · exact List.mem_append_left _ (hqp ▸ hp)
    · simp only [update_of_ne hqp] at hq
      exact List.mem_append_left _ (hs.started q hq)
  · by_cases hqp : q = p
    · simp [hqp] at hq
    · simp only [update_of_ne hqp] at hq
      rw [hsame q hqp]
      exact hs.unfreed q hq

theorem scheduled_pop {s' : Node V} (hs : Scheduled cfg txns s pushed freed)
    (h : pop s = some s') : Scheduled cfg txns s' pushed freed := by
  unfold pop at h
  split at h
  · cases h
  · rename_i p rest hready
    cases h
    have hnodup := hs.readyNodup
    rw [hready, List.nodup_cons] at hnodup
    have hp := hs.ready p (by rw [hready]; exact List.mem_cons_self)
    refine ⟨hs.lock, hs.next, fun q hq => ?_, hnodup.2, fun q hq => ?_, fun q hq => ?_⟩
    · have hqp : q ≠ p := fun heq => hnodup.1 (heq ▸ hq)
      simp only [update_of_ne hqp]
      exact hs.ready q (by rw [hready]; exact List.mem_cons_of_mem _ hq)
    · by_cases hqp : q = p
      · exact hqp ▸ hp.1
      · simp only [update_of_ne hqp] at hq
        exact hs.started q hq
    · by_cases hqp : q = p
      · rw [hqp]
        exact hs.unfreed p (by rw [hp.2]; nofun)
      · simp only [update_of_ne hqp] at hq
        exact hs.unfreed q hq

/-- A change of phases that starts, finishes or releases transactions keeps what
the workers know. -/
theorem executed_phase {s' : Node V} (he : Executed cfg txns execute init s)
    (hview : s'.view = s.view) (hwritten : s'.written = s.written) (hstore : s'.store = s.store)
    (hwaiting : ∀ p, s.phase p ≠ .waiting → s'.phase p ≠ .waiting)
    (hdone : ∀ p, s'.phase p = .done ∨ s'.phase p = .released →
      (s.phase p = .done ∨ s.phase p = .released) ∨ ∀ k, WritesKey txns p k → k ∈ s.written p) :
    Executed cfg txns execute init s' := by
  refine ⟨?_, ?_, ?_, ?_⟩
  · rw [hview]
    exact he.view
  · rw [hwritten]
    exact fun p k hk => ⟨(he.written p k hk).1, hwaiting p (he.written p k hk).2⟩
  · rw [hwritten]
    exact fun p hp k hk => (hdone p hp).elim (fun h => he.complete p h k hk) fun h => h k hk
  · rw [hwritten, hstore]
    exact he.agrees

theorem executed_read (hwf : ∀ txn ∈ txns, WellFormed cfg txn) {s' : Node V} {p : Ptr} {k : Key}
    (hs : Scheduled cfg txns s pushed freed) (he : Executed cfg txns execute init s)
    (h : readRecord txns s p k = some s') :
    Executed cfg txns execute init s' ∧ Scheduled cfg txns s' pushed freed := by
  simp only [readRecord, Option.bind_eq_some_iff, Option.ite_none_right_eq_some,
    Option.some.injEq] at h
  obtain ⟨txn, htxn, ⟨hrun, hk, hnone⟩, rfl⟩ := h
  refine ⟨⟨fun q k' v hv => ?_, he.written, he.complete, he.agrees⟩,
    ⟨hs.lock, hs.next, hs.ready, hs.readyNodup, hs.started, hs.unfreed⟩⟩
  by_cases hqp : q = p
  · subst hqp
    by_cases hkk : k' = k
    · subst hkk
      simp only [update_self, Option.some.injEq] at hv
      exact ⟨hv.symm.trans (hs.store_eq hwf he htxn hk hrun hnone), txn, htxn, hk⟩
    · simp only [update_self, update_of_ne hkk] at hv
      exact he.view q k' v hv
  · simp only [update_of_ne hqp] at hv
    exact he.view q k' v hv

theorem executed_write (hwf : ∀ txn ∈ txns, WellFormed cfg txn) {s' : Node V} {p : Ptr} {k : Key}
    (hs : Scheduled cfg txns s pushed freed) (he : Executed cfg txns execute init s)
    (h : writeRecord txns execute s p k = some s') :
    Executed cfg txns execute init s' ∧ Scheduled cfg txns s' pushed freed := by
  simp only [writeRecord, Option.bind_eq_some_iff, Option.ite_none_right_eq_some,
    Option.some.injEq] at h
  obtain ⟨txn, htxn, ⟨hrun, hk, hall⟩, rfl⟩ := h
  -- the worker has seen what the serial execution shows the transaction
  have hview : s.view p = fun k' =>
      if k' ∈ keys txn then some (Serial.serialAt (runAlone execute) init txns p k') else none := by
    funext k'
    by_cases hk' : k' ∈ keys txn
    · obtain ⟨v, hv⟩ := Option.isSome_iff_exists.mp (List.all_eq_true.mp hall k' hk')
      rw [hv, if_pos hk', (he.view p k' v hv).1]
    · rw [if_neg hk']
      cases hv : s.view p k' with
      | none => rfl
      | some v =>
          obtain ⟨-, txn', htxn', hmem⟩ := he.view p k' v hv
          rw [htxn] at htxn'
          cases htxn'
          exact absurd hmem hk'
  have hv : execute txn (s.view p) k =
      Serial.serialAt (runAlone execute) init txns (p + 1) k := by
    rw [Serial.serialAt_succ _ htxn, runAlone, if_pos hk, hview]
  have hrun' : s.phase p ≠ .released := by rw [hrun]; nofun
  refine ⟨⟨he.view, fun q k' hk' => ?_, fun q hq k' hw => ?_, ?_⟩,
    ⟨hs.lock, hs.next, hs.ready, hs.readyNodup, hs.started, hs.unfreed⟩⟩
  · by_cases hqp : q = p
    · subst hqp
      simp only [update_self, List.mem_cons] at hk'
      rcases hk' with rfl | hk'
      · exact ⟨⟨txn, htxn, hk⟩, by rw [hrun]; nofun⟩
      · exact he.written q k' hk'
    · simp only [update_of_ne hqp] at hk'
      exact he.written q k' hk'
  · have hmem := he.complete q hq k' hw
    by_cases hqp : q = p
    · subst hqp
      simp only [update_self]
      exact List.mem_cons_of_mem _ hmem
    · simpa only [update_of_ne hqp] using hmem
  · refine (he.agrees.write (runAlone_frame execute) hv fun q hq =>
      hs.later_not_written hwf he htxn (.inl hk) hrun' hq).congr fun q k' => ?_
    by_cases hqp : q = p
    · subst hqp
      simp [or_comm]
    · simp [hqp]

/-- Every step keeps the invariant. -/
theorem inv_step (hwf : ∀ txn ∈ txns, WellFormed cfg txn) {s' : Node V} {e : Event}
    (hs : Scheduled cfg txns s pushed freed) (he : Executed cfg txns execute init s)
    (h : (machine cfg txns execute init).next s e = some s') :
    (∃ pushed freed, Scheduled cfg txns s' pushed freed) ∧ Executed cfg txns execute init s' := by
  cases e with
  | lock =>
      obtain ⟨pushed', hs'⟩ := scheduled_lock hwf hs h
      refine ⟨⟨pushed', freed, hs'⟩, ?_⟩
      simp only [machine, lockNext, Option.map_eq_some_iff] at h
      obtain ⟨txn, -, rfl⟩ := h
      exact executed_phase he rfl rfl rfl (fun _ hp => hp) fun _ hp => .inl hp
  | pop =>
      refine ⟨⟨pushed, freed, scheduled_pop hs h⟩, ?_⟩
      simp only [machine, pop] at h
      split at h
      · cases h
      · rename_i p rest hready
        cases h
        refine executed_phase he rfl rfl rfl (fun q hq => ?_) fun q hq => .inl ?_
        · by_cases hqp : q = p
          · simp [hqp]
          · simpa [hqp] using hq
        · by_cases hqp : q = p
          · simp [hqp] at hq
          · simpa [hqp] using hq
  | read p k =>
      obtain ⟨he', hs'⟩ := executed_read hwf hs he h
      exact ⟨⟨pushed, freed, hs'⟩, he'⟩
  | write p k =>
      obtain ⟨he', hs'⟩ := executed_write hwf hs he h
      exact ⟨⟨pushed, freed, hs'⟩, he'⟩
  | finish p =>
      simp only [machine, finish, Option.bind_eq_some_iff, Option.ite_none_right_eq_some,
        Option.some.injEq] at h
      obtain ⟨txn, htxn, ⟨hrun, hall⟩, rfl⟩ := h
      have hwaiting : ∀ q, s.phase q = .waiting → update s.phase p Phase.done q = .waiting := by
        intro q hq
        rw [update_of_ne fun heq => by rw [heq, hrun] at hq; cases hq]
        exact hq
      refine ⟨⟨pushed, freed, hs.lock, hs.next, fun q hq => ⟨(hs.ready q hq).1,
        hwaiting q (hs.ready q hq).2⟩, hs.readyNodup, fun q hq => ?_, fun q hq => ?_⟩,
        executed_phase he rfl rfl rfl (fun q hq => ?_) fun q hq => ?_⟩
      · exact hs.started q fun heq => hq (hwaiting q heq)
      · refine hs.unfreed q fun heq => hq ?_
        have hqp : q ≠ p := fun h => by rw [h, hrun] at heq; cases heq
        simpa only [update_of_ne hqp] using heq
      · by_cases hqp : q = p
        · simp [hqp]
        · simpa [hqp] using hq
      · by_cases hqp : q = p
        · subst hqp
          refine .inr fun k ⟨txn', htxn', hk⟩ => hall k ?_
          rw [htxn] at htxn'
          cases htxn'
          exact hk
        · exact .inl (by simpa [hqp] using hq)
  | release p =>
      simp only [machine, release, Option.bind_eq_some_iff, Option.ite_none_right_eq_some,
        Option.map_eq_some_iff] at h
      obtain ⟨txn, htxn, hdone, ⟨lm, out⟩, hrel, rfl⟩ := h
      obtain ⟨lm', out', freed', hrel', hs'⟩ := scheduled_release hwf htxn hdone hs
      rw [hrel] at hrel'
      cases hrel'
      refine ⟨⟨_, freed', hs'⟩, executed_phase he rfl rfl rfl (fun q hq => ?_) fun q hq => ?_⟩
      · by_cases hqp : q = p
        · simp [hqp]
        · simpa [hqp] using hq
      · by_cases hqp : q = p
        · exact .inl (.inl (hqp ▸ hdone))
        · exact .inl (by simpa [hqp] using hq)

theorem inv_of_reachable (hwf : ∀ txn ∈ txns, WellFormed cfg txn)
    (h : (machine cfg txns execute init).Reachable s) :
    (∃ pushed freed, Scheduled cfg txns s pushed freed) ∧ Executed cfg txns execute init s :=
  h.invariant (P := fun s => (∃ pushed freed, Scheduled cfg txns s pushed freed) ∧
      Executed cfg txns execute init s) ⟨⟨[], fun _ => [], scheduled_init init⟩, executed_init⟩
    fun _ _ _ _ _ ⟨⟨_, _, hs⟩, he⟩ hn => inv_step hwf hs he hn

end

/-! ## Main results -/

/-- Once every transaction is released, the store is what executing them one
after another leaves; and `Release` is defined for every finished transaction. -/
theorem store_eq_serial {V : Type} (cfg : ClusterConfig) (txns : List TxnProto)
    (execute : TxnProto → (Key → Option V) → Key → V) (init : Key → V)
    (hwf : ∀ txn ∈ txns, WellFormed cfg txn) (s : Node V)
    (h : (machine cfg txns execute init).Reachable s) :
    ((∀ p, p < txns.length → s.phase p = .released) →
        s.store = txns.foldl (runAlone execute) init) ∧
      ∀ p txn, txns[p]? = some txn → s.phase p = .done →
        (s.lockManager.release cfg 0 p txn).isSome = true := by
  obtain ⟨⟨pushed, freed, hs⟩, he⟩ := inv_of_reachable hwf h
  refine ⟨fun hall => ?_, fun p txn htxn hdone => ?_⟩
  · rw [← Serial.serialAt_length]
    funext k
    refine he.agrees k txns.length (fun p hp hw => ?_) fun p hp hmem => ?_
    · exact he.complete p (.inr (hall p hp)) k hw
    · obtain ⟨⟨txn, htxn, -⟩, -⟩ := he.written p k hmem
      rw [List.getElem?_eq_none_iff.mpr hp] at htxn
      cases htxn
  · obtain ⟨lm, out, freed', hrel, -⟩ := scheduled_release hwf htxn hdone hs
    rw [hrel]
    rfl

/-- Two transactions that conflict on a key, passed to `Lock` before the first
one runs. -/
theorem store_eq_serial_conflict :
    ∃ s : Node Nat, (∀ p, p < 2 → s.phase p = .released) ∧ s.store [48] = 1 ∧ s.store [49] = 2 ∧
      s.store = [({ txnId := 1, readWriteSet := [⟨[48], 0, 0⟩] } : TxnProto),
        { txnId := 2, readSet := [⟨[48], 0, 0⟩], readWriteSet := [⟨[49], 0, 0⟩] }].foldl
          (runAlone fun _ view _ => ((view [48]).getD 0) + 1) fun _ => 0 := by
  let execute : TxnProto → (Key → Option Nat) → Key → Nat := fun _ view _ =>
    ((view [48]).getD 0) + 1
  let txns : List TxnProto := [{ txnId := 1, readWriteSet := [⟨[48], 0, 0⟩] },
    { txnId := 2, readSet := [⟨[48], 0, 0⟩], readWriteSet := [⟨[49], 0, 0⟩] }]
  have hwf : ∀ txn ∈ txns, WellFormed {} txn := by
    have hall : ∀ txn ∈ txns, (∀ k ∈ keys txn, ClusterConfig.isLocal {} k = true) ∧
        (keys txn).Nodup := by decide
    exact fun txn h => ⟨(hall txn h).1, (hall txn h).2⟩
  obtain ⟨s, hr, h0, h1, hs0, hs1⟩ := Machine.exists_of_trace
    (m := machine {} txns execute fun _ => 0)
    (P := fun s => s.phase 0 = .released ∧ s.phase 1 = .released ∧ s.store [48] = 1 ∧
      s.store [49] = 2)
    [.lock, .lock, .pop, .read 0 [48], .write 0 [48], .finish 0, .release 0, .pop, .read 1 [48],
      .read 1 [49], .write 1 [49], .finish 1, .release 1]
    (by decide)
  have hall : ∀ p, p < 2 → s.phase p = .released := by
    intro p hp
    match p, hp with
    | 0, _ => exact h0
    | 1, _ => exact h1
  exact ⟨s, hall, hs0, hs1, (store_eq_serial {} txns execute (fun _ => 0) hwf s hr).1 hall⟩

end Calvin.SingleNode
