import Calvin.Scheduler.LockCalls
import Calvin.Scheduler.LockTable

/-!
# Releasing a key twice

`Lock` skips the second request for a key that a transaction names more than
once; `Release` visits the key again, and says of that visit "no need to do
anything otherwise". But the list of a key is deleted with its last request, and
the second visit looks the key up without asking whether it is there.

* `release_isSome`: when no visit meets a deleted list, for any set of keys;
* `undone_iff`: `Release` undoes `Lock` exactly if on each repeated key a request
  of another transaction is left.
-/

namespace Calvin.LockCalls

open Function Lib LockManager LockQueue

variable {cfg : ClusterConfig} {mode : Nat} {txns : Ptr → TxnProto}

/-- `Release` takes the transaction out of the lock table: no list it looks up is
gone, and the other requests stay in their order. -/
def Undone (cfg : ClusterConfig) (mode : Nat) (lm : LockManager) (p : Ptr) (txn : TxnProto) :
    Prop :=
  ∃ lm' out, lm.release cfg mode p txn = some (lm', out) ∧
    ∀ k, lm'.queue k = (lm.queue k).filter fun r => r.owner ≠ p

/-- The keys that `Release` visits. -/
def releasedKeys (cfg : ClusterConfig) (mode : Nat) (txn : TxnProto) : List Key :=
  visited cfg mode txn.originReplica (txn.readSet ++ txn.readWriteSet)

/-! ## The lists of the table -/

/-- No list of the table is empty. -/
def Filled (lm : LockManager) : Prop := ∀ k, lm.lockTable.find? k ≠ some []

theorem Filled.find?_eq_none {lm : LockManager} (h : Filled lm) (k : Key) :
    lm.lockTable.find? k = none ↔ lm.queue k = [] := by
  unfold queue
  cases hf : lm.lockTable.find? k with
  | none => simp
  | some requests =>
      have hne : requests ≠ [] := fun h' => h k (by rw [hf, h'])
      simpa using hne

theorem stable_filled : Stable fun t => ∀ k, t.find? k ≠ some [] where
  insert t k requests h hne k' := by
    rw [BucketTable.find?_insert]
    split
    · exact fun h => hne (Option.some.inj h)
    · exact h k'
  erase t k h k' := by
    rw [BucketTable.find?_erase]
    split
    · exact fun h => by cases h
    · exact h k'

/-! ## When Release is defined -/

/-- One visit needs the list of the key. -/
theorem releaseKey_isSome {lm : LockManager} (hf : Filled lm) (k : Key) (p : Ptr) :
    (lm.releaseKey k p).isSome ↔ lm.queue k ≠ [] := by
  rw [LockManager.releaseKey, Option.isSome_map, ne_eq, ← hf.find?_eq_none, ← ne_eq,
    Option.ne_none_iff_isSome]

/-- The loops need it at each visit: the first one may leave none for the
second. -/
theorem releaseEntries_isSome {origin : Nat} {p : Ptr} (entries : List KeyEntry)
    {lm : LockManager} (hf : Filled lm) (hnodup : ∀ k, (owners (lm.queue k)).Nodup) :
    (lm.releaseEntries cfg mode origin p entries).isSome ↔
      ∀ k ∈ visited cfg mode origin entries, lm.queue k ≠ [] ∧
        (2 ≤ (visited cfg mode origin entries).count k →
          (lm.queue k).filter (fun r => r.owner ≠ p) ≠ []) := by
  induction entries generalizing lm with
  | nil => simp [LockManager.releaseEntries, visited]
  | cons e rest ih =>
      rw [LockManager.releaseEntries]
      by_cases hl : locks cfg mode origin e = true
      · have hvisited : visited cfg mode origin (e :: rest) =
            e.key :: visited cfg mode origin rest := by
          rw [visited, List.filter_cons_of_pos hl]
          rfl
        rw [if_pos hl, hvisited]
        cases hkey : lm.releaseKey e.key p with
        | none =>
            have hnil : ¬ lm.queue e.key ≠ [] := by
              rw [← releaseKey_isSome hf e.key p, hkey]
              simp
            constructor
            · intro h
              cases h
            · exact fun h => absurd (h e.key List.mem_cons_self).1 hnil
        | some res =>
            obtain ⟨lm₁, out₁⟩ := res
            have hne : lm.queue e.key ≠ [] := by
              rw [← releaseKey_isSome hf e.key p, hkey]
              rfl
            obtain ⟨hqueue, -⟩ := releaseKey_left (hnodup e.key) hkey
            have hnodup₁ : ∀ k, (owners (lm₁.queue k)).Nodup := fun k => by
              rw [hqueue]
              split
              · exact (List.filter_sublist.map _).nodup (hnodup k)
              · exact hnodup k
            show (((releaseEntries cfg mode origin p lm₁ rest).map _).isSome = true) ↔ _
            rw [Option.isSome_map, ih (stable_filled.releaseKey hf hkey) hnodup₁]
            constructor
            · intro h k hk
              by_cases hek : e.key = k
              · subst hek
                refine ⟨hne, fun hcount => ?_⟩
                rw [List.count_cons_self] at hcount
                have hmem : e.key ∈ visited cfg mode origin rest :=
                  List.count_pos_iff.mp (by omega)
                have := (h e.key hmem).1
                rwa [hqueue, if_pos rfl] at this
              · have hmem := (List.mem_cons.mp hk).resolve_left (Ne.symm hek)
                have := h k hmem
                rwa [hqueue, if_neg hek, ← List.count_cons_of_ne hek] at this
            · intro h k hk
              rw [hqueue]
              by_cases hek : e.key = k
              · subst hek
                have hcount : 0 < (visited cfg mode origin rest).count e.key :=
                  List.count_pos_iff.mpr hk
                have hleft := (h e.key List.mem_cons_self).2 (by
                  rw [List.count_cons_self]
                  omega)
                rw [if_pos rfl, List.filter_filter]
                simp only [Bool.and_self]
                exact ⟨hleft, fun _ => hleft⟩
              · have := h k (List.mem_cons_of_mem _ hk)
                rwa [if_neg hek, ← List.count_cons_of_ne hek]
      · have hvisited : visited cfg mode origin (e :: rest) = visited cfg mode origin rest := by
          rw [visited, List.filter_cons_of_neg hl]
          rfl
        rw [if_neg hl, hvisited]
        exact ih hf hnodup

/-! ## Over any calls -/

/-- The lock table holds the requests of the transactions that are locked and not
released, in lists that are not empty. -/
structure Standing (cfg : ClusterConfig) (mode : Nat) (txns : Ptr → TxnProto) (s : LockCalls) :
    Prop where
  table : Table cfg mode txns s.lockManager s.locked s.released
  filled : Filled s.lockManager
  stands : ∀ p ∈ s.locked, p ∉ s.released → ∀ k ∈ releasedKeys cfg mode (txns p),
    p ∈ owners (s.lockManager.queue k)
  releasedLocked : ∀ p ∈ s.released, p ∈ s.locked

theorem standing_init : Standing cfg mode txns {} where
  table := ⟨fun _ => List.nodup_nil, fun _ _ h => (List.not_mem_nil h).elim⟩
  filled _ h := by cases h
  stands _ h := (List.not_mem_nil h).elim
  releasedLocked _ h := (List.not_mem_nil h).elim

namespace Standing

variable {s s' : LockCalls} {p : Ptr}

theorem lock (hi : Standing cfg mode txns s) (h : LockCalls.lock cfg mode txns s p = some s') :
    Standing cfg mode txns s' := by
  obtain ⟨hp, rfl⟩ := lock_cases h
  have hpr : p ∉ s.released := fun h => hp (hi.releasedLocked p h)
  refine ⟨hi.table.lock hp hpr, stable_filled.lock _ hi.filled, fun q hq hqr k hk => ?_,
    fun q hq => ?_⟩
  · rcases List.mem_append.mp hq with hq | hq
    · have hold := hi.stands q hq hqr k hk
      rcases (lock_asked cfg mode s.lockManager p (txns p)).1 k with heq | ⟨m, -, heq⟩
      · rwa [heq]
      · rw [heq, owners_append]
        exact List.mem_append_left _ hold
    · rw [List.mem_singleton.mp hq] at hk ⊢
      obtain ⟨m, hm⟩ := mem_visited.mp hk
      exact lock_stands cfg mode s.lockManager p (txns p) hm
  · exact List.mem_append_left _ (hi.releasedLocked q hq)

/-- Where `Release` is defined it undoes `Lock`. -/
theorem queue_release {lm : LockManager} {out : List Ptr} (hi : Standing cfg mode txns s)
    (h : s.lockManager.release cfg mode p (txns p) = some (lm, out)) (k : Key) :
    lm.queue k = (s.lockManager.queue k).filter fun r => r.owner ≠ p := by
  obtain ⟨hqueue, -⟩ := releaseEntries_left _ hi.table.once h
  rw [hqueue]
  split
  case isTrue => rfl
  case isFalse hk =>
      -- the transaction is in the queues of its own keys only
      refine (List.filter_eq_self.mpr fun r hr => ?_).symm
      obtain ⟨-, -, hkey⟩ := hi.table.owner k r hr
      rw [decide_eq_true_eq]
      intro hrp
      rw [hrp] at hkey
      exact hk (mem_visited.mpr ⟨r.mode, hkey⟩)

theorem release (hi : Standing cfg mode txns s)
    (h : LockCalls.release cfg mode txns s p = some s') : Standing cfg mode txns s' := by
  obtain ⟨hp, hr, lm, out, hrel, rfl⟩ := release_cases h
  refine ⟨(hi.table.release hrel).1, stable_filled.releaseEntries _ hi.filled hrel,
    fun q hq hqr k hk => ?_, fun q hq => ?_⟩
  · obtain ⟨hqp, hqr⟩ := not_or.mp fun h => hqr (List.mem_cons.mpr h)
    obtain ⟨r, hr, hrq⟩ := mem_owners.mp (hi.stands q hq hqr k hk)
    show q ∈ owners (lm.queue k)
    rw [hi.queue_release hrel k]
    exact mem_owners.mpr ⟨r, List.mem_filter.mpr ⟨hr, decide_eq_true (hrq ▸ hqp)⟩, hrq⟩
  · rcases List.mem_cons.mp hq with rfl | hq
    · exact hp
    · exact hi.releasedLocked q hq

theorem reachable (h : (machine cfg mode txns).Reachable s) : Standing cfg mode txns s := by
  refine h.invariant standing_init ?_
  intro s c s' _ _ hi hn
  cases c with
  | lock p => exact hi.lock hn
  | release p => exact hi.release hn

end Standing

/-- After any calls, for a transaction that is locked and not released: `Release`
undoes `Lock` exactly if each key that its locked entries name more than once has
a request of another transaction. -/
theorem undone_iff {s : LockCalls} (h : (machine cfg mode txns).Reachable s) {p : Ptr}
    (hp : p ∈ s.locked) (hr : p ∉ s.released) :
    Undone cfg mode s.lockManager p (txns p) ↔
      ∀ k, 2 ≤ (releasedKeys cfg mode (txns p)).count k →
        ∃ r ∈ s.lockManager.queue k, r.owner ≠ p := by
  have hi := Standing.reachable h
  have hdefined : (s.lockManager.release cfg mode p (txns p)).isSome ↔
      ∀ k ∈ releasedKeys cfg mode (txns p), s.lockManager.queue k ≠ [] ∧
        (2 ≤ (releasedKeys cfg mode (txns p)).count k →
          (s.lockManager.queue k).filter (fun r => r.owner ≠ p) ≠ []) :=
    releaseEntries_isSome _ hi.filled hi.table.once
  have hother : ∀ k, (s.lockManager.queue k).filter (fun r => r.owner ≠ p) ≠ [] ↔
      ∃ r ∈ s.lockManager.queue k, r.owner ≠ p := fun k => by
    rw [ne_eq, List.filter_eq_nil_iff]
    simp
  constructor
  · rintro ⟨lm, out, hrel, -⟩ k hcount
    have hk : k ∈ releasedKeys cfg mode (txns p) := List.count_pos_iff.mp (by omega)
    rw [hrel] at hdefined
    exact (hother k).mp ((hdefined.mp rfl k hk).2 hcount)
  · intro hall
    have hsome : (s.lockManager.release cfg mode p (txns p)).isSome := by
      refine hdefined.mpr fun k hk => ⟨fun hnil => ?_, fun hcount => ?_⟩
      · have hstands := hi.stands p hp hr k hk
        rw [hnil] at hstands
        exact List.not_mem_nil hstands
      · exact (hother k).mpr (hall k hcount)
    obtain ⟨⟨lm, out⟩, hrel⟩ := Option.isSome_iff_exists.mp hsome
    exact ⟨lm, out, hrel, hi.queue_release hrel⟩

/-- A transaction that names one key twice. -/
def twice (p : Ptr) : TxnProto :=
  { txnId := p, readSet := [⟨[48], 0, 0⟩], readWriteSet := [⟨[48], 0, 0⟩] }

/-- With another transaction behind it on the key it can be released. -/
theorem undone_iff_two : ∃ s : LockCalls, s.locked = [0, 1] ∧
    Undone {} 0 s.lockManager 0 (twice 0) := by
  obtain ⟨s, hs, hlocked, hreleased, hqueue⟩ := Machine.exists_of_trace
    (m := machine {} 0 twice)
    (P := fun s => s.locked = [0, 1] ∧ s.released = [] ∧
      s.lockManager.queue [48] = [⟨.write, 0⟩, ⟨.write, 1⟩]) [.lock 0, .lock 1] (by decide)
  refine ⟨s, hlocked, (undone_iff hs ?_ ?_).mpr fun k hk => ?_⟩
  · rw [hlocked]
    decide
  · rw [hreleased]
    exact List.not_mem_nil
  · have hkey : k = [48] := by
      by_contra hne
      have hzero : (releasedKeys {} 0 (twice 0)).count k = 0 := by
        rw [List.count_eq_zero]
        intro hmem
        have hkeys : releasedKeys {} 0 (twice 0) = [[48], [48]] := by decide
        rw [hkeys] at hmem
        simp at hmem
        exact hne hmem
      omega
    rw [hkey, hqueue]
    exact ⟨⟨.write, 1⟩, by decide, by decide⟩

/-- Alone on the key it deletes the list at the first visit, and looks it up again
at the second. -/
theorem alone_not_undone : ∃ s : LockCalls, (machine {} 0 twice).Reachable s ∧ s.locked = [0] ∧
    s.released = [] ∧ s.lockManager.release {} 0 0 (twice 0) = none ∧
    ¬ Undone {} 0 s.lockManager 0 (twice 0) := by
  obtain ⟨s, hs, hlocked, hreleased, hrel⟩ := Machine.exists_of_trace
    (m := machine {} 0 twice)
    (P := fun s => s.locked = [0] ∧ s.released = [] ∧
      (s.lockManager.release {} 0 0 (twice 0)).isNone = true) [.lock 0] (by decide)
  rw [Option.isNone_iff_eq_none] at hrel
  refine ⟨s, hs, hlocked, hreleased, hrel, ?_⟩
  rintro ⟨lm, out, h, -⟩
  rw [hrel] at h
  cases h

end Calvin.LockCalls
