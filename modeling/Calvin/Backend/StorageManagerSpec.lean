import Mathlib.Data.List.Dedup
import Calvin.Backend.StorageManager

/-!
# What the storage manager computes

Facts about the constructor and the decision of a `StorageManager` that the
proofs about the scheduler use.
-/

namespace Calvin.StorageManager

variable {cfg : ClusterConfig} {mode : Nat} {store : Key → Record} {txn : TxnProto}

/-- A transaction that is not to commit is not `COMMITTED`. -/
theorem decision_abort {sm : StorageManager} {status : Status}
    (h : decision store txn sm = some (false, status)) : status ≠ .committed := by
  unfold decision at h
  split at h
  case isTrue hs =>
      cases h
      rw [hs]
      decide
  case isFalse =>
      split at h
      case isTrue =>
          cases h
          decide
      case isFalse =>
          split at h
          case isTrue => cases h
          case isFalse =>
              rw [Option.map_eq_some_iff] at h
              obtain ⟨checks, -, heq⟩ := h
              cases checks with
              | true => cases heq
              | false => cases heq; decide

/-- The check marks no transaction `ABORTED_WITHOUT_LOCK`, and aborts those that
are. -/
theorem decision_status {sm : StorageManager} {commit : Bool} {status : Status}
    (h : decision store txn sm = some (commit, status)) :
    (status = .abortedWithoutLock ↔ txn.status = .abortedWithoutLock) ∧
      (txn.status = .abortedWithoutLock → commit = false) := by
  unfold decision at h
  split at h
  case isTrue hs =>
      cases h
      exact ⟨Iff.rfl, fun _ => rfl⟩
  case isFalse hs =>
      refine ⟨?_, fun h => absurd h hs⟩
      split at h
      case isTrue =>
          cases h
          simp [hs]
      case isFalse =>
          split at h
          case isTrue =>
              cases h
              exact Iff.rfl
          case isFalse =>
              rw [Option.map_eq_some_iff] at h
              obtain ⟨checks, -, heq⟩ := h
              cases checks with
              | true => cases heq; exact Iff.rfl
              | false => cases heq; simp [hs]

theorem checkCommitOrAbort_decision {sm : StorageManager} {guid random : Nat} {commit : Bool}
    {status : Status} {forword : Option TxnForword}
    (h : checkCommitOrAbort cfg store txn sm guid random = some (commit, status, forword)) :
    decision store txn sm = some (commit, status) := by
  rw [checkCommitOrAbort, Option.bind_eq_some_iff] at h
  obtain ⟨⟨commit', status'⟩, hdec, h⟩ := h
  dsimp only at h
  split at h
  case isTrue =>
      rw [Option.map_eq_some_iff] at h
      obtain ⟨fwd, -, heq⟩ := h
      cases heq
      exact hdec
  case isFalse =>
      cases h
      exact hdec

theorem checkCommitOrAbort_abort {sm : StorageManager} {guid random : Nat} {status : Status}
    {forword : Option TxnForword}
    (h : checkCommitOrAbort cfg store txn sm guid random = some (false, status, forword)) :
    status ≠ .committed :=
  decision_abort (checkCommitOrAbort_decision h)

theorem checkCommitOrAbort_status {sm : StorageManager} {guid random : Nat} {commit : Bool}
    {status : Status} {forword : Option TxnForword}
    (h : checkCommitOrAbort cfg store txn sm guid random = some (commit, status, forword)) :
    (status = .abortedWithoutLock ↔ txn.status = .abortedWithoutLock) ∧
      (txn.status = .abortedWithoutLock → commit = false) :=
  decision_status (checkCommitOrAbort_decision h)

/-- What a participant that aborts sends again: a new transaction of the same
kind. -/
theorem checkCommitOrAbort_forword {sm : StorageManager} {guid random : Nat} {commit : Bool}
    {status : Status} {forword : TxnForword}
    (h : checkCommitOrAbort cfg store txn sm guid random = some (commit, status, some forword)) :
    retries cfg txn sm = true ∧ forword.data.txnId = guid ∧
      forword.data.newGenerated = txn.newGenerated ∧
      forword.data.remasterTxn = txn.remasterTxn ∧ forword.data.involvedReplicas.Nodup := by
  simp only [checkCommitOrAbort, Option.bind_eq_some_iff, Prod.exists] at h
  obtain ⟨commit', status', -, h⟩ := h
  split at h
  case isTrue hretries =>
      simp only [Option.map_eq_some_iff, Prod.mk.injEq, Option.some.injEq] at h
      obtain ⟨forword', hretry, -, -, rfl⟩ := h
      simp only [retry, Option.bind_eq_some_iff, Option.map_eq_some_iff] at hretry
      obtain ⟨readSet, -, readWriteSet, -, rfl⟩ := hretry
      exact ⟨hretries.2, rfl, rfl, rfl,
        (List.perm_insertionSort _ _).nodup_iff.mpr (List.nodup_dedup _)⟩
  case isFalse => simp at h

/-- A participant alone that has found nothing out of date commits. -/
theorem decision_single {sm : StorageManager} (hstatus : txn.status ≠ .abortedWithoutLock)
    (hcommit : sm.localCommit = true) (hinvolved : sm.involvedMachines.length = 1) :
    decision store txn sm = some (true, txn.status) := by
  rw [decision, if_neg hstatus, hcommit, if_neg (by decide), if_pos hinvolved]

/-- The ways to decide: the mark, the own records, being alone, or the check of
all entries. -/
theorem decision_cases {sm : StorageManager} {commit : Bool} {status : Status}
    (h : decision store txn sm = some (commit, status)) :
    (txn.status = .abortedWithoutLock ∧ commit = false) ∨
    (sm.localCommit = false ∧ commit = false) ∨
    (txn.status ≠ .abortedWithoutLock ∧ sm.localCommit = true ∧
      ((sm.involvedMachines.length = 1 ∧ commit = true) ∨
        checkEntries store sm txn.client.entries = some commit)) := by
  unfold decision at h
  split at h
  case isTrue hs =>
      cases h
      exact .inl ⟨hs, rfl⟩
  case isFalse hs =>
      refine .inr ?_
      split at h
      case isTrue hcommit =>
          cases h
          exact .inl ⟨hcommit, rfl⟩
      case isFalse hcommit =>
          refine .inr ⟨hs, Bool.eq_true_of_not_eq_false hcommit, ?_⟩
          split at h
          case isTrue halone =>
              cases h
              exact .inl ⟨halone, rfl⟩
          case isFalse =>
              obtain ⟨checks, hchecks, heq⟩ := Option.map_eq_some_iff.mp h
              refine .inr ?_
              cases checks with
              | true => cases heq; exact hchecks
              | false => cases heq; exact hchecks

/-- All entries hold, or one does not. -/
theorem checkEntries_spec {sm : StorageManager} (entries : List KeyEntry) {commit : Bool}
    (h : checkEntries store sm entries = some commit) :
    if commit then
      ∀ entry ∈ entries, ∃ val, sm.readObject store entry.key = some val ∧
        upToDate val entry = true
    else
      ∃ entry ∈ entries, ∃ val, sm.readObject store entry.key = some val ∧
        upToDate val entry = false := by
  induction entries with
  | nil =>
      cases h
      exact fun entry he => absurd he List.not_mem_nil
  | cons entry rest ih =>
      rw [checkEntries, Option.bind_eq_some_iff] at h
      obtain ⟨val, hval, h⟩ := h
      split at h
      case isTrue hup =>
          have hrest := ih h
          cases commit with
          | true => exact List.forall_mem_cons.mpr ⟨⟨val, hval, hup⟩, hrest⟩
          | false =>
              obtain ⟨e, he, hstale⟩ := hrest
              exact ⟨e, List.mem_cons_of_mem _ he, hstale⟩
      case isFalse hup =>
          cases h
          exact ⟨entry, List.mem_cons_self, val, hval, Bool.eq_false_of_not_eq_true hup⟩

@[simp] theorem addInvolvedMachine_objects (sm : StorageManager) (entry : KeyEntry) :
    (addInvolvedMachine cfg mode sm entry).objects = sm.objects := by
  unfold addInvolvedMachine
  split <;> rfl

@[simp] theorem addInvolvedMachine_localEntries (sm : StorageManager) (entry : KeyEntry) :
    (addInvolvedMachine cfg mode sm entry).localEntries = sm.localEntries := by
  unfold addInvolvedMachine
  split <;> rfl

@[simp] theorem addInvolvedMachine_localCommit (sm : StorageManager) (entry : KeyEntry) :
    (addInvolvedMachine cfg mode sm entry).localCommit = sm.localCommit := by
  unfold addInvolvedMachine
  split <;> rfl

@[simp] theorem addInvolvedMachine_writers (sm : StorageManager) (entry : KeyEntry) :
    (addInvolvedMachine cfg mode sm entry).remoteReplicaWriters = sm.remoteReplicaWriters := by
  unfold addInvolvedMachine
  split <;> rfl

/-- An entry that the participant reads itself. -/
def Own (cfg : ClusterConfig) (origin : Nat) (entry : KeyEntry) : Prop :=
  entry.master = origin ∧ cfg.lookupPartition entry.key = cfg.relativeNodeId

/-- The participant, by its partition and its origin, that reads the record of
an entry. -/
def home (cfg : ClusterConfig) (mode origin : Nat) (entry : KeyEntry) : Nat × Nat :=
  (cfg.lookupPartition entry.key, if mode = 0 then origin else entry.master)

/-- The participant that a manager is created at. -/
abbrev here (cfg : ClusterConfig) (txn : TxnProto) : Nat × Nat :=
  (cfg.relativeNodeId, txn.originReplica)

theorem home_eq_here {entry : KeyEntry} :
    home cfg mode txn.originReplica entry = here cfg txn ↔
      cfg.lookupPartition entry.key = cfg.relativeNodeId ∧
        (mode = 0 ∨ entry.master = txn.originReplica) := by
  unfold home here
  rw [Prod.mk.injEq]
  by_cases hmode : mode = 0
  · simp [hmode]
  · simp [hmode]

theorem home_eq_here_iff_own (hmode : mode ≠ 0) {entry : KeyEntry} :
    home cfg mode txn.originReplica entry = here cfg txn ↔ Own cfg txn.originReplica entry := by
  rw [home_eq_here, Own, and_comm]
  simp [hmode]

/-- A local record is read; all others are left to their homes. -/
theorem readEntry_eq (sm : StorageManager) (entry : KeyEntry) :
    readEntry cfg mode store txn sm entry =
      if home cfg mode txn.originReplica entry = here cfg txn then
        readLocal store (addInvolvedMachine cfg mode sm entry) entry
      else addInvolvedMachine cfg mode sm entry := by
  unfold readEntry
  by_cases hm : mode ≠ 0 ∧ entry.master ≠ txn.originReplica
  · rw [if_pos hm, if_neg]
    rw [home_eq_here]
    rintro ⟨-, h | h⟩
    · exact hm.1 h
    · exact hm.2 h
  · rw [if_neg hm]
    refine if_congr ?_ rfl rfl
    rw [home_eq_here]
    refine ⟨fun h => ⟨h, ?_⟩, And.left⟩
    by_contra hne
    exact hm (not_or.mp hne)

/-- The homes of the records to write are recorded, unless the mode is 0. -/
theorem readWriteEntry_eq (sm : StorageManager) (entry : KeyEntry) :
    readWriteEntry cfg mode store txn sm entry =
      if home cfg mode txn.originReplica entry = here cfg txn then
        readLocal store (addInvolvedMachine cfg mode sm entry) entry
      else
        let sm := addInvolvedMachine cfg mode sm entry
        { sm with
          remoteReplicaWriters :=
            if mode = 0 then sm.remoteReplicaWriters
            else sm.remoteReplicaWriters.insert (home cfg mode txn.originReplica entry) } := by
  unfold readWriteEntry
  by_cases hmode : mode = 0
  · by_cases hpart : cfg.lookupPartition entry.key = cfg.relativeNodeId
    · simp [hmode, hpart, home]
    · simp [hmode, hpart, home, addInvolvedMachine]
  · by_cases hm : entry.master = txn.originReplica
    · by_cases hpart : cfg.lookupPartition entry.key = cfg.relativeNodeId
      · simp [hmode, hpart, hm, home]
      · simp [hmode, hpart, hm, home]
    · simp [hmode, hm, home]

/-- What the constructor has done with the entries `done`. -/
structure Created (cfg : ClusterConfig) (mode : Nat) (store : Key → Record) (txn : TxnProto)
    (done : List KeyEntry) (sm : StorageManager) : Prop where
  objects : ∀ k o, sm.objects.lookup k = some o ↔ o = .stored ∧
    ∃ entry ∈ done, entry.key = k ∧ home cfg mode txn.originReplica entry = here cfg txn
  results : sm.localEntries = (done.filter fun entry =>
    home cfg mode txn.originReplica entry = here cfg txn).map fun entry =>
      (entry.key, store entry.key)
  localCommit : sm.localCommit = true ↔ ∀ entry ∈ done,
    home cfg mode txn.originReplica entry = here cfg txn → upToDate (store entry.key) entry = true
  involved : mode = 2 → ∀ x, x ∈ sm.involvedMachines ↔
    ∃ entry ∈ done, home cfg mode txn.originReplica entry = x
  involvedNodup : sm.involvedMachines.Nodup

theorem created_init (cfg : ClusterConfig) (mode : Nat) (store : Key → Record) (txn : TxnProto) :
    Created cfg mode store txn [] {} where
  objects := by intro k o; simp
  results := rfl
  localCommit := by simp
  involved := by intro _ x; simp
  involvedNodup := List.nodup_nil

namespace Created

variable {done : List KeyEntry} {sm : StorageManager} {entry : KeyEntry}

theorem mem_addInvolvedMachine (txn : TxnProto) (hmode : mode = 2) (x : Nat × Nat) :
    x ∈ (addInvolvedMachine cfg mode sm entry).involvedMachines ↔
      x ∈ sm.involvedMachines ∨ home cfg mode txn.originReplica entry = x := by
  subst hmode
  unfold addInvolvedMachine home
  rw [if_pos rfl, List.mem_insert_iff, or_comm]
  exact or_congr_right eq_comm

theorem nodup_addInvolvedMachine (h : sm.involvedMachines.Nodup) :
    (addInvolvedMachine cfg mode sm entry).involvedMachines.Nodup := by
  unfold addInvolvedMachine
  split
  · exact h.insert
  · exact h

/-- The machine of the next entry is recorded, and the record read at its
home. -/
theorem concat {sm' : StorageManager} (h : Created cfg mode store txn done sm)
    (hinvolved : sm'.involvedMachines = (addInvolvedMachine cfg mode sm entry).involvedMachines)
    (hsm : if home cfg mode txn.originReplica entry = here cfg txn then
        sm'.objects = sm.objects.insert entry.key .stored ∧
        sm'.localEntries = sm.localEntries ++ [(entry.key, store entry.key)] ∧
        sm'.localCommit = (sm.localCommit && upToDate (store entry.key) entry)
      else
        sm'.objects = sm.objects ∧ sm'.localEntries = sm.localEntries ∧
          sm'.localCommit = sm.localCommit) :
    Created cfg mode store txn (done ++ [entry]) sm' := by
  have hin : mode = 2 → ∀ x, x ∈ sm'.involvedMachines ↔
      ∃ e ∈ done ++ [entry], home cfg mode txn.originReplica e = x := by
    intro hmode x
    rw [hinvolved, mem_addInvolvedMachine txn hmode, h.involved hmode]
    simp [or_and_right, exists_or]
  have hnodup : sm'.involvedMachines.Nodup := by
    rw [hinvolved]
    exact nodup_addInvolvedMachine h.involvedNodup
  by_cases hhome : home cfg mode txn.originReplica entry = here cfg txn
  · rw [if_pos hhome] at hsm
    obtain ⟨hobjects, hresults, hcommit⟩ := hsm
    refine ⟨fun k o => ?_, ?_, ?_, hin, hnodup⟩
    · rw [hobjects]
      by_cases hk : k = entry.key
      · subst hk
        rw [AList.lookup_insert]
        constructor
        · intro ho
          exact ⟨(Option.some.inj ho).symm, entry, List.mem_append_right _ List.mem_cons_self, rfl,
            hhome⟩
        · rintro ⟨rfl, -⟩
          rfl
      · rw [AList.lookup_insert_ne hk, h.objects k o]
        refine and_congr_right fun _ => ⟨?_, ?_⟩
        · rintro ⟨e, he, heq⟩
          exact ⟨e, List.mem_append_left _ he, heq⟩
        · rintro ⟨e, he, heq, ho⟩
          rcases List.mem_append.mp he with he | he
          · exact ⟨e, he, heq, ho⟩
          · exact absurd (List.mem_singleton.mp he ▸ heq.symm) hk
    · rw [hresults, h.results, List.filter_append, List.map_append,
        List.filter_cons_of_pos (by exact decide_eq_true hhome)]
      rfl
    · rw [hcommit, Bool.and_eq_true, h.localCommit, List.forall_mem_append,
        List.forall_mem_singleton]
      exact and_congr_right fun _ => ⟨fun hu _ => hu, fun hu => hu hhome⟩
  · rw [if_neg hhome] at hsm
    obtain ⟨hobjects, hresults, hcommit⟩ := hsm
    refine ⟨fun k o => ?_, ?_, ?_, hin, hnodup⟩
    · rw [hobjects, h.objects k o]
      refine and_congr_right fun _ => ⟨?_, ?_⟩
      · rintro ⟨e, he, heq⟩
        exact ⟨e, List.mem_append_left _ he, heq⟩
      · rintro ⟨e, he, heq, ho⟩
        rcases List.mem_append.mp he with he | he
        · exact ⟨e, he, heq, ho⟩
        · exact absurd (List.mem_singleton.mp he ▸ ho) hhome
    · rw [hresults, h.results, List.filter_append,
        List.filter_cons_of_neg (by exact fun hd => hhome (of_decide_eq_true hd)), List.filter_nil,
        List.append_nil]
    · rw [hcommit, h.localCommit, List.forall_mem_append, List.forall_mem_singleton]
      exact ⟨fun hall => ⟨hall, fun heq => absurd heq hhome⟩, And.left⟩

theorem readEntry (h : Created cfg mode store txn done sm) :
    Created cfg mode store txn (done ++ [entry]) (readEntry cfg mode store txn sm entry) := by
  rw [readEntry_eq]
  split
  case isTrue hhome =>
      exact h.concat rfl (by rw [if_pos hhome]; simp [readLocal])
  case isFalse hhome =>
      exact h.concat rfl (by rw [if_neg hhome]; simp)

theorem readWriteEntry (h : Created cfg mode store txn done sm) :
    Created cfg mode store txn (done ++ [entry]) (readWriteEntry cfg mode store txn sm entry) := by
  rw [readWriteEntry_eq]
  split
  case isTrue hhome =>
      exact h.concat rfl (by rw [if_pos hhome]; simp [readLocal])
  case isFalse hhome =>
      exact h.concat rfl (by rw [if_neg hhome]; simp)

theorem foldl {f : StorageManager → KeyEntry → StorageManager}
    (hf : ∀ done sm entry, Created cfg mode store txn done sm →
      Created cfg mode store txn (done ++ [entry]) (f sm entry))
    (entries : List KeyEntry) (h : Created cfg mode store txn done sm) :
    Created cfg mode store txn (done ++ entries) (entries.foldl f sm) := by
  induction entries generalizing done sm with
  | nil => rwa [List.append_nil]
  | cons entry rest ih =>
      have h' := ih (hf done sm entry h)
      rwa [List.append_assoc, List.singleton_append] at h'

end Created

/-- The manager when both loops of the constructor are through. -/
def readAll (cfg : ClusterConfig) (mode : Nat) (store : Key → Record) (txn : TxnProto) :
    StorageManager :=
  txn.readWriteSet.foldl (readWriteEntry cfg mode store txn)
    (txn.readSet.foldl (readEntry cfg mode store txn) {})

theorem created_readAll (cfg : ClusterConfig) (mode : Nat) (store : Key → Record) (txn : TxnProto) :
    Created cfg mode store txn txn.client.entries (readAll cfg mode store txn) := by
  have h := Created.foldl (fun _ _ _ h => h.readWriteEntry) txn.readWriteSet
    (Created.foldl (fun _ _ _ h => h.readEntry) txn.readSet
      (created_init cfg mode store txn))
  rwa [List.nil_append] at h

/-- The writers are recorded by the loop over `read_write_set` only. -/
theorem readEntry_writers (sm : StorageManager) (entry : KeyEntry) :
    (readEntry cfg mode store txn sm entry).remoteReplicaWriters = sm.remoteReplicaWriters := by
  rw [readEntry_eq]
  split <;> simp [readLocal]

theorem readEntries_writers (entries : List KeyEntry) (sm : StorageManager) :
    (entries.foldl (readEntry cfg mode store txn) sm).remoteReplicaWriters =
      sm.remoteReplicaWriters := by
  induction entries generalizing sm with
  | nil => rfl
  | cons entry rest ih => rw [List.foldl_cons, ih, readEntry_writers]

theorem mem_writers_foldl (hmode : mode ≠ 0) {w : Nat × Nat} (entries : List KeyEntry)
    (sm : StorageManager) :
    w ∈ (entries.foldl (readWriteEntry cfg mode store txn) sm).remoteReplicaWriters ↔
      w ∈ sm.remoteReplicaWriters ∨ w ≠ here cfg txn ∧
        ∃ entry ∈ entries, home cfg mode txn.originReplica entry = w := by
  induction entries generalizing sm with
  | nil => simp
  | cons entry rest ih =>
      rw [List.foldl_cons, ih, readWriteEntry_eq]
      by_cases hhome : home cfg mode txn.originReplica entry = here cfg txn
      · rw [if_pos hhome]
        simp only [readLocal, addInvolvedMachine_writers, List.exists_mem_cons_iff]
        refine or_congr_right (and_congr_right fun hne => ?_)
        refine ⟨.inr, fun h => h.resolve_left fun heq => hne ?_⟩
        rw [← heq, hhome]
      · rw [if_neg hhome]
        simp only [if_neg hmode, addInvolvedMachine_writers, List.mem_insert_iff,
          List.exists_mem_cons_iff]
        constructor
        · rintro ((rfl | h) | ⟨hne, h⟩)
          · exact .inr ⟨hhome, .inl rfl⟩
          · exact .inl h
          · exact .inr ⟨hne, .inr h⟩
        · rintro (h | ⟨hne, rfl | h⟩)
          · exact .inl (.inr h)
          · exact .inl (.inl rfl)
          · exact .inr ⟨hne, h⟩

/-- The other participants with a record to write. -/
theorem mem_destinations {w : Nat × Nat} :
    w ∈ destinations cfg mode txn (readAll cfg mode store txn) ↔
      w ≠ here cfg txn ∧ ∃ entry ∈ txn.readWriteSet, home cfg mode txn.originReplica entry = w := by
  unfold destinations
  by_cases hmode : mode = 0
  · subst hmode
    rw [if_pos rfl]
    simp only [List.mem_map, List.mem_filter, List.mem_dedup, home, if_true]
    constructor
    · rintro ⟨mds, ⟨⟨entry, he, rfl⟩, hne⟩, rfl⟩
      refine ⟨fun heq => of_decide_eq_true hne (Prod.mk.inj heq).1, entry, he, rfl⟩
    · rintro ⟨hne, entry, he, rfl⟩
      refine ⟨_, ⟨⟨entry, he, rfl⟩, decide_eq_true fun heq => hne ?_⟩, rfl⟩
      rw [heq]
  · have hnil : (txn.readSet.foldl (readEntry cfg mode store txn) {}).remoteReplicaWriters = [] :=
      readEntries_writers _ _
    rw [if_neg hmode, readAll, mem_writers_foldl hmode, hnil]
    exact or_iff_right List.not_mem_nil

/-- Every writer is sent to once. -/
theorem destinations_nodup : (destinations cfg mode txn (readAll cfg mode store txn)).Nodup := by
  unfold destinations
  split
  case isTrue =>
      have hwriters := (List.nodup_dedup
        (txn.readWriteSet.map fun entry => cfg.lookupPartition entry.key)).filter
          fun mds => mds ≠ cfg.relativeNodeId
      exact hwriters.map fun a b h => (Prod.mk.inj h).1
  case isFalse =>
      have hwrite : ∀ (entries : List KeyEntry) (sm : StorageManager),
          sm.remoteReplicaWriters.Nodup →
          (entries.foldl (readWriteEntry cfg mode store txn) sm).remoteReplicaWriters.Nodup := by
        intro entries
        induction entries with
        | nil => exact fun sm h => h
        | cons entry rest ih =>
            intro sm h
            refine ih _ ?_
            rw [readWriteEntry_eq]
            split
            · simpa [readLocal] using h
            · simp only [addInvolvedMachine_writers]
              exact h.insert
      refine hwrite _ _ ?_
      rw [readEntries_writers]
      exact List.nodup_nil

/-- The constructor at a reader: it holds the records it is the home of, and
sends them to the other participants that write. -/
theorem create_eq (mode : Nat) (store : Key → Record) (hreader : cfg.relativeNodeId ∈ txn.readers) :
    (create cfg mode store txn).1.objects = (readAll cfg mode store txn).objects ∧
    (create cfg mode store txn).1.localCommit = (readAll cfg mode store txn).localCommit ∧
    (create cfg mode store txn).1.involvedMachines =
      (readAll cfg mode store txn).involvedMachines ∧
    (create cfg mode store txn).2 =
      (destinations cfg mode txn (readAll cfg mode store txn)).map
        (resultFor cfg txn (readAll cfg mode store txn).localEntries) := by
  unfold create
  rw [if_pos hreader]
  exact ⟨rfl, rfl, rfl, rfl⟩

/-- What the constructor sends: its own records, to every writer elsewhere. -/
theorem mem_create_sent (mode : Nat) (store : Key → Record)
    (hreader : cfg.relativeNodeId ∈ txn.readers) {entry : KeyEntry}
    (he : entry ∈ txn.readWriteSet)
    (hne : home cfg mode txn.originReplica entry ≠ here cfg txn) :
    ∃ msg ∈ (create cfg mode store txn).2,
      msg.destinationChannel = channelOf txn.txnId (home cfg mode txn.originReplica entry).2 ∧
      msg.destinationNode =
        cfg.lookupMachineId (cfg.lookupPartition entry.key) cfg.localReplicaId ∧
      ∀ e ∈ txn.client.entries, home cfg mode txn.originReplica e = here cfg txn →
        (e.key, store e.key) ∈ msg.entries := by
  obtain ⟨-, -, -, hsent⟩ := create_eq mode store hreader
  have hcreated := created_readAll cfg mode store txn
  refine ⟨resultFor cfg txn (readAll cfg mode store txn).localEntries
    (home cfg mode txn.originReplica entry), ?_, rfl, rfl, fun e hmem hhome => ?_⟩
  · rw [hsent]
    exact List.mem_map_of_mem (mem_destinations.mpr ⟨hne, entry, he, rfl⟩)
  · show _ ∈ (readAll cfg mode store txn).localEntries
    rw [hcreated.results]
    exact List.mem_map.mpr ⟨e, List.mem_filter.mpr ⟨hmem, decide_eq_true hhome⟩, rfl⟩

/-- The constructor at a reader, unless the mode is 0: it holds its own records,
and what it sends are these, to other participants. -/
theorem create_spec (hmode : mode ≠ 0) (hreader : cfg.relativeNodeId ∈ txn.readers) :
    (∀ k o, (create cfg mode store txn).1.objects.lookup k = some o ↔ o = .stored ∧
      ∃ entry ∈ txn.readSet ++ txn.readWriteSet, entry.key = k ∧ Own cfg txn.originReplica entry) ∧
    ∀ msg ∈ (create cfg mode store txn).2,
      (∀ x ∈ msg.entries, ∃ entry ∈ txn.readSet ++ txn.readWriteSet,
        Own cfg txn.originReplica entry ∧ x = (entry.key, store entry.key)) ∧
      ∃ entry ∈ txn.readSet ++ txn.readWriteSet, ¬ Own cfg txn.originReplica entry ∧
        msg.destinationChannel = channelOf txn.txnId entry.master ∧
        msg.destinationNode =
          cfg.lookupMachineId (cfg.lookupPartition entry.key) cfg.localReplicaId := by
  have hcreated := created_readAll cfg mode store txn
  obtain ⟨hobjects, -, -, hsent⟩ := create_eq mode store hreader
  simp only [← home_eq_here_iff_own hmode]
  rw [hobjects, hsent]
  refine ⟨hcreated.objects, fun msg hmsg => ?_⟩
  obtain ⟨w, hw, rfl⟩ := List.mem_map.mp hmsg
  obtain ⟨hne, entry, he, rfl⟩ := mem_destinations.mp hw
  refine ⟨fun x hx => ?_, entry, List.mem_append_right _ he, hne, ?_, rfl⟩
  · rw [resultFor, hcreated.results] at hx
    obtain ⟨e, he, rfl⟩ := List.mem_map.mp hx
    obtain ⟨he, hhome⟩ := List.mem_filter.mp he
    exact ⟨e, he, of_decide_eq_true hhome, rfl⟩
  · simp only [resultFor, home, if_neg hmode]

/-- A handled `READ_RESULT` adds copies of its entries and leaves the other
objects. -/
theorem lookup_handleReadResult {sm : StorageManager} {results : List (Key × Record)} {k : Key}
    {o : Object} (h : (sm.handleReadResult results).objects.lookup k = some o) :
    (∃ e ∈ results, e.1 = k ∧ o = .copied e.2) ∨ sm.objects.lookup k = some o := by
  have hfold : ∀ (results : List (Key × Record)) (objects : AList fun _ : Key => Object),
      (results.foldl (fun objects e => objects.insert e.1 (.copied e.2)) objects).lookup k =
        some o →
      (∃ e ∈ results, e.1 = k ∧ o = .copied e.2) ∨ objects.lookup k = some o := by
    intro results
    induction results with
    | nil => intro objects h; exact .inr h
    | cons e rest ih =>
        intro objects h
        rcases ih _ h with ⟨e', he', heq⟩ | h
        · exact .inl ⟨e', List.mem_cons_of_mem _ he', heq⟩
        · by_cases hk : k = e.1
          · subst hk
            rw [AList.lookup_insert] at h
            exact .inl ⟨e, List.mem_cons_self, rfl, (Option.some.inj h).symm⟩
          · rw [AList.lookup_insert_ne hk] at h
            exact .inr h
  exact hfold results sm.objects h

/-- A complete manager has an object for every key, if its objects are keys of
the transaction. -/
theorem lookup_of_ready {sm : StorageManager} (hready : sm.readyToExecute txn = true)
    (hsub : ∀ k o, sm.objects.lookup k = some o → k ∈ txn.client.keys) {k : Key}
    (hk : k ∈ txn.client.keys) : ∃ o, sm.objects.lookup k = some o := by
  have hlen : sm.objects.keys.length = txn.client.keys.length := by
    have h := of_decide_eq_true hready
    rw [AList.keys, List.keys, List.length_map, h, ClientTxn.keys, List.length_map,
      ClientTxn.entries, List.length_append]
    rfl
  have hsubset : sm.objects.keys ⊆ txn.client.keys := by
    intro k' hk'
    obtain ⟨o, ho⟩ := Option.isSome_iff_exists.mp (AList.lookup_isSome.mpr hk')
    exact hsub k' o ho
  have hperm := (List.subperm_of_subset sm.objects.keys_nodup hsubset).perm_of_length_le
    (Nat.le_of_eq hlen.symm)
  exact Option.isSome_iff_exists.mp (AList.lookup_isSome.mpr (hperm.mem_iff.mpr hk))

theorem mem_handleReadResult {sm : StorageManager} {entries : List (Key × Record)} {k : Key} :
    k ∈ (sm.handleReadResult entries).objects ↔ (∃ e ∈ entries, e.1 = k) ∨ k ∈ sm.objects := by
  have hfold : ∀ (entries : List (Key × Record)) (objects : AList fun _ : Key => Object),
      k ∈ entries.foldl (fun objects e => objects.insert e.1 (.copied e.2)) objects ↔
        (∃ e ∈ entries, e.1 = k) ∨ k ∈ objects := by
    intro entries
    induction entries with
    | nil => simp
    | cons e rest ih =>
        intro objects
        rw [List.foldl_cons, ih, AList.mem_insert, List.exists_mem_cons_iff, or_assoc, or_left_comm]
        exact or_congr_left eq_comm
  exact hfold entries sm.objects

/-- The objects are complete when there is one for each key. -/
theorem ready_iff {sm : StorageManager} (hkeys : txn.client.keys.Nodup)
    (hsub : ∀ k ∈ sm.objects, k ∈ txn.client.keys) :
    sm.readyToExecute txn = true ↔ ∀ k ∈ txn.client.keys, k ∈ sm.objects := by
  constructor
  · intro hready k hk
    have hkeysOf : ∀ k o, sm.objects.lookup k = some o → k ∈ txn.client.keys := by
      intro k o ho
      refine hsub k ?_
      rw [← AList.lookup_isSome, ho]
      rfl
    obtain ⟨o, ho⟩ := lookup_of_ready hready hkeysOf hk
    · rw [← AList.lookup_isSome, ho]
      rfl
  · intro hall
    have hperm : sm.objects.keys.Perm txn.client.keys :=
      (List.perm_ext_iff_of_nodup sm.objects.keys_nodup hkeys).mpr fun k =>
        ⟨fun hk => hsub k hk, fun hk => hall k hk⟩
    have hlen := hperm.length_eq
    rw [AList.keys, List.keys, List.length_map, ClientTxn.keys, List.length_map, ClientTxn.entries,
      List.length_append] at hlen
    exact decide_eq_true hlen

/-- A reader of one record, its own, has it at once. -/
theorem create_single (mode : Nat) (store : Key → Record) (txn : TxnProto) {entry : KeyEntry}
    (hreader : cfg.relativeNodeId ∈ txn.readers)
    (hread : txn.readSet = []) (hwrite : txn.readWriteSet = [entry])
    (hmaster : entry.master = txn.originReplica) (hlocal : cfg.isLocal entry.key = true) :
    (create cfg mode store txn).1.objects.lookup entry.key = some .stored ∧
      (create cfg mode store txn).1.readyToExecute txn = true := by
  have hmds : cfg.lookupPartition entry.key = cfg.relativeNodeId := of_decide_eq_true hlocal
  have hobjects : (create cfg mode store txn).1.objects =
      (∅ : AList fun _ : Key => Object).insert entry.key .stored := by
    unfold create
    rw [if_pos hreader, hread, hwrite]
    simp only [List.foldl_nil, List.foldl_cons, readWriteEntry, readLocal, hmaster, hmds,
      ne_eq, not_true_eq_false, and_false, if_false, if_true, addInvolvedMachine_objects]
  refine ⟨?_, ?_⟩
  · rw [hobjects, AList.lookup_insert]
  · unfold readyToExecute
    rw [hobjects, hread, hwrite]
    simp [AList.insert, List.kinsert]

/-- A reader of one record, its own, checks this record, and is involved
alone. -/
theorem create_single_check (store : Key → Record) (txn : TxnProto) {entry : KeyEntry}
    (hreader : cfg.relativeNodeId ∈ txn.readers)
    (hread : txn.readSet = []) (hwrite : txn.readWriteSet = [entry])
    (hmaster : entry.master = txn.originReplica) (hlocal : cfg.isLocal entry.key = true) :
    (create cfg 2 store txn).1.localCommit = upToDate (store entry.key) entry ∧
      (create cfg 2 store txn).1.involvedMachines.length = 1 := by
  have hmds : cfg.lookupPartition entry.key = cfg.relativeNodeId := of_decide_eq_true hlocal
  unfold create
  rw [if_pos hreader, hread, hwrite]
  simp only [List.foldl_nil, List.foldl_cons, readWriteEntry, readLocal, hmaster, hmds,
    ne_eq, not_true_eq_false, and_false, if_false, if_true, addInvolvedMachine_localCommit]
  exact ⟨Bool.true_and _, rfl⟩

/-- What a manager at a reader holds of the storage is local. -/
theorem stored_isLocal (hmode : mode ≠ 0) (hreader : cfg.relativeNodeId ∈ txn.readers) {k : Key}
    (h : (create cfg mode store txn).1.objects.lookup k = some .stored) :
    cfg.isLocal k = true := by
  have hobjects : ∀ o, (create cfg mode store txn).1.objects.lookup k = some o ↔ _ :=
    (create_spec hmode hreader).1 k
  obtain ⟨-, entry, -, rfl, hown⟩ := (hobjects _).mp h
  exact decide_eq_true hown.2

end Calvin.StorageManager
