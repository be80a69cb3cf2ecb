import Calvin.Scheduler.GrantedLocks

/-!
# What the participants of a node have seen

A participant compares the records of its own entries when its manager is
created. As long as it is not marked it holds their locks, so that no remaster
transaction moves them before it decides; and what it was marked for is still so
when its manager is created.

* `taken`: the records a participant has found, as a history of the run;
* `Snapshots`: the invariant, with `Snapshots.step`.
-/

namespace Calvin.DeterministicScheduler

open Function Lib LockManager StorageManager

variable {cfg : ClusterConfig} {txns : Ptr → TxnProto} {compute : Compute} {s s' : Node}
  {seen : Ptr → Key → Record}

/-- History: a manager is created over the records as they are. -/
def taken (seen : Ptr → Key → Record) (s : Node) : Event → Ptr → Key → Record
  | .start =>
      match s.txnsQueue with
      | [] => seen
      | p :: _ => update seen p s.store
  | _ => seen

/-- A transaction whose manager has been created. -/
def Opened (s : Node) (p : Ptr) : Prop :=
  (s.managers p).isSome ∨ p ∈ s.doneQueue ∨ p ∈ s.deleted

theorem Opened.lt_next {p : Ptr} (h : Opened s p) (hl : Lifecycle txns s) : p < s.next := by
  refine hl.lt_next ?_
  unfold stages
  rcases h with h | h | h
  · obtain ⟨sm, hsm⟩ := Option.isSome_iff_exists.mp h
    rw [hsm, Option.toList_some, List.length_singleton]
    omega
  · have := List.count_pos_iff.mpr h
    omega
  · have := List.count_pos_iff.mpr h
    omega

/-- It stays so, and keeps what it has found. -/
theorem Opened.step {p : Ptr} {e : Event} {mode : Nat} (h : Opened s p) (hl : Lifecycle txns s)
    (hstep : step cfg mode txns compute s e = some s') :
    Opened s' p ∧ taken seen s e p = seen p := by
  cases e with
  | parse =>
      obtain ⟨-, ⟨-, -, rfl⟩ | rfl⟩ := parse_any hstep
      · exact ⟨h, rfl⟩
      · exact ⟨h, rfl⟩
  | verify =>
      obtain ⟨entry, rest, v, -, rfl⟩ := verify_cases hstep
      exact ⟨h, rfl⟩
  | route =>
      obtain ⟨v, -, ⟨waits, rfl⟩ | ⟨-, rfl⟩ | rfl⟩ := route_locks hstep
      all_goals exact ⟨h, rfl⟩
  | dispatch =>
      obtain ⟨-, q, rest, -, rfl⟩ := dispatch_cases hstep
      exact ⟨h, rfl⟩
  | handleDone =>
      obtain ⟨-, q, rest, waits, ready, hq, -, lockManager, readyTxns, rfl⟩ :=
        handleDone_cases hstep
      refine ⟨?_, rfl⟩
      rcases h with h | h | h
      · exact .inl h
      · rw [hq] at h
        rcases List.mem_cons.mp h with rfl | h
        · exact .inr (.inr List.mem_cons_self)
        · exact .inr (.inl h)
      · exact .inr (.inr (List.mem_cons_of_mem _ h))
  | start =>
      obtain ⟨⟨s₁, sent⟩, hstart, rfl⟩ := Option.map_eq_some_iff.mp hstep
      obtain ⟨q, rest, hq, -, rfl⟩ := start_cases hstart
      -- a manager is created for a transaction that has none
      have hne : p ≠ q := by
        rintro rfl
        obtain ⟨hnone, hdone, hdeleted⟩ := hl.of_queued (hq ▸ List.mem_cons_self)
        rcases h with h | h | h
        · rw [hnone] at h
          exact absurd h Bool.false_ne_true
        · exact hdone h
        · exact hdeleted h
      refine ⟨h.imp_left fun h => ?_, ?_⟩
      · show (update s.managers q _ p).isSome
        rwa [update_of_ne hne]
      · simp only [taken, hq, update_of_ne hne]
  | readResult q entries =>
      obtain ⟨sm, hsm, -, rfl⟩ := readResult_cases hstep
      refine ⟨h.imp_left fun h => ?_, rfl⟩
      show (update s.managers q _ p).isSome
      by_cases hp : p = q
      · rw [hp, update_self]
        rfl
      · rwa [update_of_ne hp]
  | run q guid random =>
      obtain ⟨⟨s₁, forword⟩, hrun, rfl⟩ := Option.map_eq_some_iff.mp hstep
      obtain ⟨sm, store, status, -, -, rfl, -⟩ := run_any hrun
      refine ⟨?_, rfl⟩
      rcases h with h | h | h
      · by_cases hp : p = q
        · exact .inr (.inl (List.mem_append_right _ (List.mem_singleton.mpr hp)))
        · refine .inl ?_
          show (update s.managers q none p).isSome
          rwa [update_of_ne hp]
      · exact .inr (.inl (List.mem_append_left _ h))
      · exact .inr (.inr h)

/-- A step opens the transaction whose manager it creates, if any. -/
theorem Opened.of_step {p : Ptr} {e : Event} {mode : Nat}
    (hstep : Calvin.DeterministicScheduler.step cfg mode txns compute s e = some s')
    (h : Opened s' p) :
    Opened s p ∨ e = .start ∧ s.txnsQueue.head? = some p ∧ taken seen s e p = s.store := by
  cases e with
  | parse =>
      obtain ⟨-, ⟨-, -, rfl⟩ | rfl⟩ := parse_any hstep
      · exact .inl h
      · exact .inl h
  | verify =>
      obtain ⟨entry, rest, v, -, rfl⟩ := verify_cases hstep
      exact .inl h
  | route =>
      obtain ⟨v, -, ⟨waits, rfl⟩ | ⟨-, rfl⟩ | rfl⟩ := route_locks hstep
      all_goals exact .inl h
  | dispatch =>
      obtain ⟨-, q, rest, -, rfl⟩ := dispatch_cases hstep
      exact .inl h
  | handleDone =>
      obtain ⟨-, q, rest, waits, ready, hq, -, lockManager, readyTxns, rfl⟩ :=
        handleDone_cases hstep
      refine .inl ?_
      rcases h with h | h | h
      · exact .inl h
      · exact .inr (.inl (hq ▸ List.mem_cons_of_mem _ h))
      · rcases List.mem_cons.mp h with rfl | h
        · exact .inr (.inl (hq ▸ List.mem_cons_self))
        · exact .inr (.inr h)
  | start =>
      obtain ⟨⟨s₁, sent⟩, hstart, rfl⟩ := Option.map_eq_some_iff.mp hstep
      obtain ⟨q, rest, hq, -, rfl⟩ := start_cases hstart
      by_cases hp : p = q
      · subst hp
        exact .inr ⟨rfl, by rw [hq, List.head?_cons], by simp only [taken, hq, update_self]⟩
      · refine .inl (h.imp_left fun h => ?_)
        change (update s.managers q _ p).isSome at h
        rwa [update_of_ne hp] at h
  | readResult q entries =>
      obtain ⟨sm, hsm, -, rfl⟩ := readResult_cases hstep
      refine .inl (h.imp_left fun h => ?_)
      change (update s.managers q _ p).isSome at h
      by_cases hp : p = q
      · rw [hp, hsm]
        rfl
      · rwa [update_of_ne hp] at h
  | run q guid random =>
      obtain ⟨⟨s₁, forword⟩, hrun, rfl⟩ := Option.map_eq_some_iff.mp hstep
      obtain ⟨sm, store, status, hsm, -, rfl, -⟩ := run_any hrun
      refine .inl ?_
      rcases h with h | h | h
      · change (update s.managers q none p).isSome at h
        by_cases hp : p = q
        · rw [hp, update_self] at h
          exact absurd h Bool.false_ne_true
        · rw [update_of_ne hp] at h
          exact .inl h
      · rcases List.mem_append.mp h with h | h
        · exact .inr (.inl h)
        · rw [List.mem_singleton.mp h]
          exact .inl (by rw [hsm]; rfl)
      · exact .inr (.inr h)

/-- The transactions that are parsed are among the first `len`. -/
def Bounded (len : Nat) (s : Node) : Prop :=
  s.next ≤ len ∧ (s.verifying.isSome → s.next < len)

theorem Bounded.step {len : Nat} {e : Event} {mode : Nat} (h : Bounded len s)
    (hparse : e = .parse → s.next < len)
    (hstep : step cfg mode txns compute s e = some s') : Bounded len s' := by
  have hsame : SameThread s s' → Bounded len s' := by
    intro hthread
    unfold Bounded
    rw [hthread.next, hthread.verifying]
    exact h
  cases e with
  | parse =>
      obtain ⟨hv, ⟨-, -, rfl⟩ | rfl⟩ := parse_any hstep
      · exact ⟨h.1, fun _ => hparse rfl⟩
      · refine ⟨hparse rfl, fun hsome => ?_⟩
        change s.verifying.isSome at hsome
        rw [hv] at hsome
        exact absurd hsome Bool.false_ne_true
  | verify =>
      obtain ⟨entry, rest, v, hv, rfl⟩ := verify_cases hstep
      exact ⟨h.1, fun _ => h.2 (by rw [hv]; rfl)⟩
  | route =>
      obtain ⟨v, hv, hcases⟩ := route_locks hstep
      have hlt : s.next < len := h.2 (by rw [hv]; rfl)
      rcases hcases with ⟨waits, rfl⟩ | ⟨-, rfl⟩ | rfl
      all_goals exact ⟨hlt, fun hsome => absurd hsome Bool.false_ne_true⟩
  | dispatch => exact hsame (dispatch_frame hstep)
  | handleDone =>
      obtain ⟨-, q, rest, waits, ready, -, -, lockManager, readyTxns, rfl⟩ :=
        handleDone_cases hstep
      exact h
  | start => exact hsame (start_frame hstep)
  | readResult q entries => exact hsame (readResult_frame hstep)
  | run q guid random => exact hsame (run_same hstep)

/-- An entry that the participant reads itself is behind the records. -/
def Behind (cfg : ClusterConfig) (txn : TxnProto) (records : Key → Record) : Prop :=
  ∃ entry ∈ txn.client.entries, Own cfg txn.originReplica entry ∧
    entry.counter < (records entry.key).counter

theorem Behind.mono {txn : TxnProto} {store store' : Key → Record} (h : Behind cfg txn store)
    (hle : ∀ k, (store k).counter ≤ (store' k).counter) : Behind cfg txn store' := by
  obtain ⟨entry, he, hown, hlt⟩ := h
  exact ⟨entry, he, hown, Nat.lt_of_lt_of_le hlt (hle _)⟩

/-- A manager that was created over the records `seen`. -/
structure Participant (cfg : ClusterConfig) (txn : TxnProto) (status : Status)
    (store seen : Key → Record) (sm : StorageManager) : Prop where
  commit : sm.localCommit = true ↔ ∀ entry ∈ txn.client.entries,
    Own cfg txn.originReplica entry → upToDate (seen entry.key) entry = true
  involved : ∀ x, x ∈ sm.involvedMachines ↔
    ∃ entry ∈ txn.client.entries, home cfg 2 txn.originReplica entry = x
  stored : ∀ k, sm.objects.lookup k = some .stored →
    ∃ entry ∈ txn.client.entries, entry.key = k ∧ Own cfg txn.originReplica entry
  marked : status = .abortedWithoutLock → Behind cfg txn seen
  /-- The locks keep the records as they were found. -/
  kept : status ≠ .abortedWithoutLock → ∀ entry ∈ txn.client.entries,
    Own cfg txn.originReplica entry → (store entry.key).master = (seen entry.key).master ∧
      (store entry.key).counter = (seen entry.key).counter

/-- The constructor makes such a manager. -/
theorem participant_create {txn : TxnProto} {store : Key → Record}
    (hreader : cfg.relativeNodeId ∈ txn.readers)
    (hmarked : txn.status = .abortedWithoutLock → Behind cfg txn store) :
    Participant cfg txn txn.status store store (create cfg 2 store txn).1 := by
  obtain ⟨hobjects, hcommit, hinvolved, -⟩ := create_eq 2 store hreader
  have hcreated := created_readAll cfg 2 store txn
  have hown : ∀ entry, home cfg 2 txn.originReplica entry = here cfg txn ↔
      Own cfg txn.originReplica entry := fun entry => home_eq_here_iff_own (by decide)
  refine ⟨?_, fun x => ?_, fun k hk => ?_, hmarked, fun _ entry _ _ => ⟨rfl, rfl⟩⟩
  · rw [hcommit, hcreated.localCommit]
    simp only [hown]
  · rw [hinvolved]
    exact hcreated.involved rfl x
  · rw [hobjects] at hk
    obtain ⟨-, entry, he, hkey, hhome⟩ := (hcreated.objects k _).mp hk
    exact ⟨entry, he, hkey, (hown entry).mp hhome⟩

structure Snapshots (cfg : ClusterConfig) (txns : Ptr → TxnProto) (seen : Ptr → Key → Record)
    (s : Node) : Prop where
  life : Lifecycle txns s
  held : ∃ pushed freed, Held cfg txns s pushed freed
  participant : ∀ p sm, s.managers p = some sm →
    Participant cfg (txns p) (s.status p) s.store (seen p) sm
  marked : ∀ p, s.status p = .abortedWithoutLock → Behind cfg (txns p) s.store
  verifying : ∀ rest v, s.verifying = some (rest, v) →
    (∀ entry ∈ rest, entry ∈ (txns s.next).client.entries) ∧
      (v.aborted = true → Behind cfg (txns s.next) s.store)

theorem snapshots_init (hnew : ∀ p, (txns p).status ≠ .abortedWithoutLock) (store : Key → Record)
    (seen : Ptr → Key → Record) : Snapshots cfg txns seen (initial txns store) where
  life := lifecycle_init store
  held := ⟨_, _, held_init store⟩
  participant p sm h := by cases h
  marked p h := absurd h (hnew p)
  verifying rest v h := by cases h

theorem verifyEntry_aborted {store : Key → Record} {origin : Nat} {entry : KeyEntry} {v : Verify}
    (h : (verifyEntry cfg store origin entry v).aborted = true) :
    v.aborted = true ∨ Own cfg origin entry ∧ entry.counter < (store entry.key).counter := by
  unfold verifyEntry at h
  split at h
  case isFalse => exact .inl h
  case isTrue hown =>
      split at h
      · exact .inl h
      · split at h
        case isTrue hlt => exact .inr ⟨⟨hown.2, of_decide_eq_true hown.1⟩, hlt⟩
        case isFalse => exact .inl h

namespace Snapshots

/-- A step that leaves managers, records and marks alone. -/
theorem frame (h : Snapshots cfg txns seen s) (hlife : Lifecycle txns s')
    (hheld : ∃ pushed freed, Held cfg txns s' pushed freed) (hmanagers : s'.managers = s.managers)
    (hstore : s'.store = s.store) (hstatus : s'.status = s.status)
    (hverifying : s'.verifying = none ∨ s'.verifying = s.verifying ∧ s'.next = s.next) :
    Snapshots cfg txns seen s' where
  life := hlife
  held := hheld
  participant p sm hsm := by
    rw [hmanagers] at hsm
    rw [hstatus, hstore]
    exact h.participant p sm hsm
  marked p hp := by
    rw [hstatus] at hp
    rw [hstore]
    exact h.marked p hp
  verifying rest v hv := by
    rcases hverifying with hnone | ⟨hsame, hnext⟩
    · rw [hnone] at hv
      cases hv
    · rw [hsame] at hv
      rw [hnext, hstore]
      exact h.verifying rest v hv

theorem parse (h : Snapshots cfg txns seen s) (hlife : Lifecycle txns s')
    (hheld : ∃ pushed freed, Held cfg txns s' pushed freed)
    (hstep : parse cfg 2 txns s = some s') : Snapshots cfg txns seen s' := by
  obtain ⟨hv, ⟨-, -, rfl⟩ | rfl⟩ := parse_any hstep
  · refine ⟨hlife, hheld, h.participant, h.marked, fun rest v hverify => ?_⟩
    obtain ⟨rfl, rfl⟩ := Prod.mk.inj (Option.some.inj hverify)
    exact ⟨fun entry he => he, fun habort => absurd habort Bool.false_ne_true⟩
  · exact h.frame hlife hheld rfl rfl rfl (.inl hv)

theorem verify (h : Snapshots cfg txns seen s) (hlife : Lifecycle txns s')
    (hheld : ∃ pushed freed, Held cfg txns s' pushed freed)
    (hstep : verify cfg txns s = some s') : Snapshots cfg txns seen s' := by
  obtain ⟨entry, rest, v, hv, rfl⟩ := verify_cases hstep
  obtain ⟨hentries, habort⟩ := h.verifying _ _ hv
  refine ⟨hlife, hheld, h.participant, h.marked, fun rest' v' hverify => ?_⟩
  obtain ⟨rfl, rfl⟩ := Prod.mk.inj (Option.some.inj hverify)
  refine ⟨fun e he => hentries e (List.mem_cons_of_mem _ he), fun haborted => ?_⟩
  rcases verifyEntry_aborted haborted with hold | ⟨hown, hlt⟩
  · exact habort hold
  · exact ⟨entry, hentries entry List.mem_cons_self, hown, hlt⟩

/-- What is marked is behind, and has no manager yet. -/
theorem route (h : Snapshots cfg txns seen s) (hlife : Lifecycle txns s')
    (hheld : ∃ pushed freed, Held cfg txns s' pushed freed)
    (hstep : route cfg 2 txns s = some s') : Snapshots cfg txns seen s' := by
  obtain ⟨v, hv, hcases⟩ := route_locks hstep
  have hnone : s.managers s.next = none := by
    have hzero := h.life.next_zero
    unfold stages at hzero
    cases hsm : s.managers s.next with
    | none => rfl
    | some sm =>
        rw [hsm, Option.toList_some, List.length_singleton] at hzero
        omega
  have hframe : s'.managers = s.managers ∧ s'.store = s.store ∧ s'.status = marks s v ∧
      s'.verifying = none := by
    rcases hcases with ⟨waits, rfl⟩ | ⟨-, rfl⟩ | rfl
    all_goals exact ⟨rfl, rfl, rfl, rfl⟩
  obtain ⟨hmanagers, hstore, hstatus, hverifying⟩ := hframe
  refine ⟨hlife, hheld, fun p sm hsm => ?_, fun p hp => ?_, fun rest v hv => ?_⟩
  · rw [hmanagers] at hsm
    have hp := h.participant p sm hsm
    have hiff : s'.status p = .abortedWithoutLock ↔ s.status p = .abortedWithoutLock := by
      rw [hstatus, marks_iff, or_iff_left]
      rintro ⟨rfl, -⟩
      rw [hnone] at hsm
      cases hsm
    rw [hstore]
    exact { hp with
      marked := fun hs => hp.marked (hiff.mp hs)
      kept := fun hs => hp.kept (fun h => hs (hiff.mpr h)) }
  · rw [hstatus] at hp
    rw [hstore]
    rcases (marks_iff s v p).mp hp with hp | ⟨rfl, habort⟩
    · exact h.marked p hp
    · exact (h.verifying _ v hv).2 habort
  · rw [hverifying] at hv
    cases hv

/-- A worker creates the manager of a transaction that has none. -/
theorem start {sent : List ReadResult} (h : Snapshots cfg txns seen s) (hlife : Lifecycle txns s')
    (hheld : ∃ pushed freed, Held cfg txns s' pushed freed)
    (hreader : ∀ p ∈ s.txnsQueue, cfg.relativeNodeId ∈ (txns p).readers)
    (hstep : start cfg 2 txns s = some (s', sent)) :
    Snapshots cfg txns (taken seen s .start) s' := by
  obtain ⟨q, rest, hq, -, rfl⟩ := start_cases hstep
  have htaken : taken seen s .start = update seen q s.store := by simp only [taken, hq]
  rw [htaken]
  refine ⟨hlife, hheld, fun p sm hsm => ?_, h.marked, h.verifying⟩
  by_cases hp : p = q
  · subst hp
    dsimp only at hsm ⊢
    rw [update_self] at hsm ⊢
    obtain rfl := Option.some.inj hsm
    have hnew : Participant cfg (txnOf txns s p) (s.status p) s.store s.store
        (create cfg 2 s.store (txnOf txns s p)).1 :=
      participant_create (hreader p (hq ▸ List.mem_cons_self)) (h.marked p)
    exact ⟨hnew.commit, hnew.involved, hnew.stored, hnew.marked, hnew.kept⟩
  · dsimp only at hsm ⊢
    rw [update_of_ne hp] at hsm ⊢
    exact h.participant p sm hsm

theorem readResult {q : Ptr} {entries : List (Key × Record)} (h : Snapshots cfg txns seen s)
    (hlife : Lifecycle txns s') (hheld : ∃ pushed freed, Held cfg txns s' pushed freed)
    (hstep : readResult txns s q entries = some s') : Snapshots cfg txns seen s' := by
  obtain ⟨sm, hsm, -, rfl⟩ := readResult_cases hstep
  refine ⟨hlife, hheld, fun p sm' hsm' => ?_, h.marked, h.verifying⟩
  by_cases hp : p = q
  · subst hp
    dsimp only at hsm'
    rw [update_self] at hsm'
    obtain rfl := Option.some.inj hsm'
    have hpart := h.participant p sm hsm
    -- the results are copies, so what is stored was there before
    refine ⟨hpart.commit, hpart.involved, fun k hk => ?_, hpart.marked, hpart.kept⟩
    rcases lookup_handleReadResult hk with ⟨e, -, -, hcopied⟩ | hold
    · cases hcopied
    · exact hpart.stored k hold
  · dsimp only at hsm'
    rw [update_of_ne hp] at hsm'
    exact h.participant p sm' hsm'

/-- The transaction that moves a record holds its lock, so no other participant
that reads the record itself has found it. -/
theorem run {q : Ptr} {guid random : Nat} {forword : Option TxnForword}
    (hkeys : ∀ p, (txns p).client.keys.Nodup) (h : Snapshots cfg txns seen s)
    (hlife : Lifecycle txns s') (hheld : ∃ pushed freed, Held cfg txns s' pushed freed)
    (hstep : run cfg 2 txns compute s q guid random = some (s', forword)) :
    Snapshots cfg txns seen s' := by
  have hsame := run_sameLocks (fun _ => rfl) hstep
  obtain ⟨sm, hsm, -, hcases⟩ := run_check hstep
  -- what changes in the records
  have hstore : (∀ k, (s.store k).counter ≤ (s'.store k).counter) ∧
      ∀ k, ((s'.store k).master = (s.store k).master ∧
          (s'.store k).counter = (s.store k).counter) ∨
        s.status q ≠ .abortedWithoutLock ∧ (k, LockMode.write) ∈ asks cfg 2 txns q := by
    rcases hcases with ⟨store, hexec, -, rfl, status, hdec⟩ | ⟨status, -, rfl⟩
    · refine ⟨Microbenchmark.execute_counter hexec, fun k => ?_⟩
      refine (Microbenchmark.execute_moved hexec k).imp_right ?_
      rintro ⟨hstored, entry, he, rfl⟩
      refine ⟨fun hs => absurd ((decision_status hdec).2 hs) (by decide), ?_⟩
      obtain ⟨e, hmem, hkey, hown⟩ := (h.participant q sm hsm).stored _ hstored
      obtain rfl := List.inj_on_of_nodup_map (hkeys q) hmem (List.mem_append_right _ he) hkey
      exact write_mem_asks he hown
    · exact ⟨fun _ => Nat.le_refl _, fun _ => .inl ⟨rfl, rfl⟩⟩
  have hframe : s'.managers = update s.managers q none ∧ s'.verifying = s.verifying ∧
      s'.next = s.next := by
    rcases hcases with ⟨store, -, -, rfl, -⟩ | ⟨status, -, rfl⟩
    all_goals exact ⟨rfl, rfl, rfl⟩
  obtain ⟨hmanagers, hverifying, hnext⟩ := hframe
  refine ⟨hlife, hheld, fun p smp hsmp => ?_, fun p hp => ?_, fun rest v hv => ?_⟩
  · rw [hmanagers] at hsmp
    have hne : p ≠ q := by
      rintro rfl
      rw [update_self] at hsmp
      cases hsmp
    rw [update_of_ne hne] at hsmp
    have hpart := h.participant p smp hsmp
    refine ⟨hpart.commit, hpart.involved, hpart.stored,
      fun hs => hpart.marked ((hsame.marked p).mp hs), fun hs entry he hown => ?_⟩
    have hs' : s.status p ≠ .abortedWithoutLock := fun hs' => hs ((hsame.marked p).mpr hs')
    obtain ⟨hmaster, hcounter⟩ := hpart.kept hs' entry he hown
    rcases hstore.2 entry.key with ⟨hm, hc⟩ | ⟨hsq, hwrite⟩
    · exact ⟨hm.trans hmaster, hc.trans hcounter⟩
    · exfalso
      obtain ⟨pushed, freed, hheld⟩ := h.held
      have hasks : ∃ lockMode, (entry.key, lockMode) ∈ asks cfg 2 txns p := exists_mem_asks he hown
      obtain ⟨lockMode, hask⟩ := hasks
      refine hheld.exclusive hne ⟨.inr (.inr (.inl (by rw [hsmp]; rfl))), hs',
        (h.life.of_manager hsmp).2.2⟩ ⟨.inr (.inr (.inl (by rw [hsm]; rfl))), hsq,
        (h.life.of_manager hsm).2.2⟩ hask hwrite rfl (.inr rfl)
  · exact (h.marked p ((hsame.marked p).mp hp)).mono hstore.1
  · rw [hverifying] at hv
    rw [hnext]
    obtain ⟨hentries, habort⟩ := h.verifying rest v hv
    exact ⟨hentries, fun ha => (habort ha).mono hstore.1⟩

/-- Every step keeps the invariant, with what it adds to the history. -/
theorem step {e : Event} (hkeys : ∀ p, (txns p).client.keys.Nodup)
    (hreader : ∀ p < s.next, cfg.relativeNodeId ∈ (txns p).readers)
    (h : Snapshots cfg txns seen s) (hstep : step cfg 2 txns compute s e = some s') :
    Snapshots cfg txns (taken seen s e) s' := by
  have hlife := h.life.step hstep
  obtain ⟨pushed, freed, hheld⟩ := h.held
  have hheld' := hheld.step (fun p => asks_nodup (hkeys p)) h.life hstep
  cases e with
  | parse => exact h.parse hlife hheld' hstep
  | verify => exact h.verify hlife hheld' hstep
  | route => exact h.route hlife hheld' hstep
  | dispatch =>
      obtain ⟨-, q, rest, -, rfl⟩ := dispatch_cases hstep
      exact h.frame hlife hheld' rfl rfl rfl (.inr ⟨rfl, rfl⟩)
  | handleDone =>
      obtain ⟨hv, q, rest, waits, ready, -, -, lockManager, readyTxns, rfl⟩ :=
        handleDone_cases hstep
      exact h.frame hlife hheld' rfl rfl rfl (.inl hv)
  | start =>
      obtain ⟨⟨s₁, sent⟩, hstart, rfl⟩ := Option.map_eq_some_iff.mp hstep
      refine h.start hlife hheld' (fun p hp => hreader p (h.life.lt_next ?_)) hstart
      have := List.count_pos_iff.mpr hp
      unfold stages
      omega
  | readResult p entries => exact h.readResult hlife hheld' hstep
  | run p guid random =>
      obtain ⟨⟨s₁, forword⟩, hrun, rfl⟩ := Option.map_eq_some_iff.mp hstep
      exact h.run hkeys hlife hheld' hrun

end Snapshots

end Calvin.DeterministicScheduler
