import Mathlib.Data.Nat.Pairing
import Calvin.Backend.StorageManagerSpec
import Calvin.Scheduler.OriginalReplica

/-!
# Mode 0 as mode 1 with one master

In mode 0 a node does with a transaction what it does in mode 1 with a copy of
replica 0 whose entries all name replica 0 as their master.

* `oneMaster`: this copy; the masters and counters of the transaction are kept in
  its counters;
* `SameNode`: nodes that only differ in what the mode decides about a manager;
* `step_oneMaster`: both take the same steps.
-/

namespace Calvin.OriginalReplica

open Function Lib

/-- Results that are related stay so when functions that keep the relation are
applied. -/
theorem optionRel_map {α β γ δ : Type} {R : α → β → Prop} {S : γ → δ → Prop} {f : α → γ}
    {g : β → δ} {a : Option α} {b : Option β} (h : Option.Rel R a b)
    (hfg : ∀ x y, R x y → S (f x) (g y)) : Option.Rel S (a.map f) (b.map g) := by
  cases h with
  | none => exact .none
  | some hab => exact .some (hfg _ _ hab)

theorem exists_of_optionRel {α β : Type} {R : α → β → Prop} {x : Option α} {y : Option β} {a : α}
    (h : Option.Rel R x y) (hx : x = some a) : ∃ b, y = some b ∧ R a b := by
  cases h with
  | none => cases hx
  | some hab => cases hx; exact ⟨_, rfl, hab⟩

theorem exists_of_optionRel_right {α β : Type} {R : α → β → Prop} {x : Option α} {y : Option β}
    {b : β} (h : Option.Rel R x y) (hy : y = some b) : ∃ a, x = some a ∧ R a b := by
  cases h with
  | none => cases hy
  | some hab => cases hy; exact ⟨_, rfl, hab⟩

/-! ## The copies -/

/-- The entry under replica 0. -/
def oneMasterEntry (entry : KeyEntry) : KeyEntry where
  key := entry.key
  master := 0
  counter := Nat.pair entry.master entry.counter

/-- The copy of a transaction at replica 0. -/
def oneMaster (txn : TxnProto) : TxnProto :=
  { txn with
    readSet := txn.readSet.map oneMasterEntry
    readWriteSet := txn.readWriteSet.map oneMasterEntry
    originReplica := 0
    fakeTxn := false }

/-- The entry that `oneMasterEntry` was made of. -/
def restoreEntry (entry : KeyEntry) : KeyEntry where
  key := entry.key
  master := entry.counter.unpair.1
  counter := entry.counter.unpair.2

/-- The request that a copy was made of. -/
def restore (txn : ClientTxn) : ClientTxn :=
  { txn with
    readSet := txn.readSet.map restoreEntry
    readWriteSet := txn.readWriteSet.map restoreEntry }

/-- What the copies compute. -/
def restored (compute : Compute) : Compute := fun txn => compute (restore txn)

/-- A message as the copies send it. -/
def oneMasterResult (msg : ReadResult) : ReadResult :=
  { msg with destinationChannel := (msg.destinationChannel.1, 0) }

variable {cfg : ClusterConfig} {store : Key → Record} {txn : TxnProto}

@[simp] theorem restoreEntry_oneMasterEntry (entry : KeyEntry) :
    restoreEntry (oneMasterEntry entry) = entry := by
  simp [restoreEntry, oneMasterEntry]

@[simp] theorem restore_oneMaster (txn : TxnProto) :
    restore (oneMaster txn).client = txn.client := by
  have hid : restoreEntry ∘ oneMasterEntry = id := funext restoreEntry_oneMasterEntry
  simp [restore, oneMaster, TxnProto.client, hid]

@[simp] theorem oneMaster_remasterTxn (txn : TxnProto) :
    (oneMaster txn).remasterTxn = txn.remasterTxn := rfl

theorem oneMaster_entries (txn : TxnProto) :
    (oneMaster txn).client.entries = txn.client.entries.map oneMasterEntry := by
  simp [oneMaster, TxnProto.client, ClientTxn.entries]

@[simp] theorem oneMaster_keys (txn : TxnProto) :
    (oneMaster txn).client.keys = txn.client.keys := by
  rw [ClientTxn.keys, ClientTxn.keys, oneMaster_entries, List.map_map]
  rfl

@[simp] theorem oneMaster_writeKeys (txn : TxnProto) :
    (oneMaster txn).client.writeKeys = txn.client.writeKeys := by
  simp only [ClientTxn.writeKeys, oneMaster, TxnProto.client, List.map_map]
  rfl

/-! ## Locks -/

theorem locks_oneMasterEntry (cfg : ClusterConfig) (origin : Nat) (entry : KeyEntry) :
    LockManager.locks cfg 1 0 (oneMasterEntry entry) = LockManager.locks cfg 0 origin entry := by
  simp [LockManager.locks, oneMasterEntry]

theorem lockEntries_oneMaster (cfg : ClusterConfig) (origin : Nat) (p : Ptr) (lockMode : LockMode)
    (entries : List KeyEntry) (st : LockManager × Nat) :
    (entries.map oneMasterEntry).foldl (LockManager.lockEntry cfg 1 0 p lockMode) st =
      entries.foldl (LockManager.lockEntry cfg 0 origin p lockMode) st := by
  rw [List.foldl_map]
  congr 1
  funext st entry
  rw [LockManager.lockEntry, LockManager.lockEntry, locks_oneMasterEntry cfg origin]
  rfl

/-- Both request the same locks. -/
theorem lock_oneMaster (cfg : ClusterConfig) (lm : LockManager) (p : Ptr) (txn : TxnProto) :
    lm.lock cfg 1 p (oneMaster txn) = lm.lock cfg 0 p txn := by
  unfold LockManager.lock
  rw [show (oneMaster txn).readWriteSet = txn.readWriteSet.map oneMasterEntry from rfl,
    show (oneMaster txn).readSet = txn.readSet.map oneMasterEntry from rfl,
    show (oneMaster txn).originReplica = 0 from rfl]
  simp only [lockEntries_oneMaster cfg txn.originReplica]

theorem releaseEntries_oneMaster (cfg : ClusterConfig) (origin : Nat) (p : Ptr)
    (entries : List KeyEntry) (lm : LockManager) :
    LockManager.releaseEntries cfg 1 0 p lm (entries.map oneMasterEntry) =
      LockManager.releaseEntries cfg 0 origin p lm entries := by
  induction entries generalizing lm with
  | nil => rfl
  | cons entry rest ih =>
      rw [List.map_cons, LockManager.releaseEntries, LockManager.releaseEntries,
        locks_oneMasterEntry cfg origin, ih]
      simp only [ih]
      rfl

/-- Both give them back. -/
theorem release_oneMaster (cfg : ClusterConfig) (lm : LockManager) (p : Ptr) (txn : TxnProto) :
    lm.release cfg 1 p (oneMaster txn) = lm.release cfg 0 p txn := by
  unfold LockManager.release
  rw [show (oneMaster txn).readSet ++ (oneMaster txn).readWriteSet =
      (txn.readSet ++ txn.readWriteSet).map oneMasterEntry from List.map_append.symm]
  exact releaseEntries_oneMaster cfg txn.originReplica p _ lm

/-! ## Managers -/

open StorageManager

theorem home_eq_here_oneMaster (entry : KeyEntry) :
    home cfg 1 0 (oneMasterEntry entry) = here cfg (oneMaster txn) ↔
      home cfg 0 txn.originReplica entry = here cfg txn := by
  simp [home, here, oneMaster, oneMasterEntry]

/-- The objects after one round of a loop of the constructor. -/
theorem readEntry_objects (mode : Nat) (sm : StorageManager) (entry : KeyEntry) :
    (StorageManager.readEntry cfg mode store txn sm entry).objects =
      if home cfg mode txn.originReplica entry = here cfg txn then
        sm.objects.insert entry.key .stored
      else sm.objects := by
  rw [readEntry_eq]
  split <;> simp [readLocal]

theorem readWriteEntry_objects (mode : Nat) (sm : StorageManager) (entry : KeyEntry) :
    (readWriteEntry cfg mode store txn sm entry).objects =
      if home cfg mode txn.originReplica entry = here cfg txn then
        sm.objects.insert entry.key .stored
      else sm.objects := by
  rw [readWriteEntry_eq]
  split <;> simp [readLocal]

/-- A loop whose rounds depend on the objects only. -/
theorem foldl_objects {f g : StorageManager → KeyEntry → StorageManager}
    (h : ∀ sm sm' entry, sm.objects = sm'.objects →
      (f sm entry).objects = (g sm' (oneMasterEntry entry)).objects)
    (entries : List KeyEntry) {sm sm' : StorageManager} (hsm : sm.objects = sm'.objects) :
    (entries.foldl f sm).objects = ((entries.map oneMasterEntry).foldl g sm').objects := by
  induction entries generalizing sm sm' with
  | nil => exact hsm
  | cons entry rest ih => exact ih (h _ _ _ hsm)

theorem readAll_objects (cfg : ClusterConfig) (store : Key → Record) (txn : TxnProto) :
    (readAll cfg 0 store txn).objects = (readAll cfg 1 store (oneMaster txn)).objects := by
  refine foldl_objects (fun sm sm' entry hsm => ?_) _
    (foldl_objects (fun sm sm' entry hsm => ?_) _ rfl)
  · rw [readWriteEntry_objects, readWriteEntry_objects, hsm]
    exact if_congr (home_eq_here_oneMaster entry).symm rfl rfl
  · rw [readEntry_objects, readEntry_objects, hsm]
    exact if_congr (home_eq_here_oneMaster entry).symm rfl rfl

theorem readAll_localEntries (cfg : ClusterConfig) (store : Key → Record) (txn : TxnProto) :
    (readAll cfg 1 store (oneMaster txn)).localEntries =
      (readAll cfg 0 store txn).localEntries := by
  rw [(created_readAll cfg 1 store (oneMaster txn)).results,
    (created_readAll cfg 0 store txn).results,
    oneMaster_entries, List.filter_map, List.map_map]
  congr 1
  refine List.filter_congr fun entry _ => ?_
  exact decide_eq_decide.mpr (home_eq_here_oneMaster entry)

/-- The local reads go to the same participants. -/
theorem destinations_oneMaster (cfg : ClusterConfig) (store : Key → Record) (txn : TxnProto) :
    ((destinations cfg 0 txn (readAll cfg 0 store txn)).map fun w => (w.1, 0)).Perm
      (destinations cfg 1 (oneMaster txn) (readAll cfg 1 store (oneMaster txn))) := by
  have hzero : (destinations cfg 0 txn (readAll cfg 0 store txn)).map (fun w => (w.1, 0)) =
      destinations cfg 0 (oneMaster txn) (readAll cfg 0 store (oneMaster txn)) := by
    simp only [destinations, if_pos, List.map_map, oneMaster]
    rfl
  rw [hzero]
  refine (List.perm_ext_iff_of_nodup destinations_nodup destinations_nodup).mpr fun w => ?_
  rw [mem_destinations, mem_destinations]
  refine and_congr_right fun _ => exists_congr fun entry => and_congr_right fun he => ?_
  obtain ⟨entry, -, rfl⟩ := List.mem_map.mp he
  rfl

/-- The manager of the copy has the same objects. -/
theorem create_objects (cfg : ClusterConfig) (store : Key → Record) (txn : TxnProto) :
    (create cfg 0 store txn).1.objects = (create cfg 1 store (oneMaster txn)).1.objects := by
  by_cases hreader : cfg.relativeNodeId ∈ txn.readers
  · have hreader' : cfg.relativeNodeId ∈ (oneMaster txn).readers := hreader
    rw [(create_eq 0 store hreader).1, (create_eq 1 store hreader').1]
    exact readAll_objects cfg store txn
  · unfold create
    rw [if_neg hreader, if_neg (by exact hreader)]

/-- It sends the same messages, but for the order. -/
theorem create_sent (cfg : ClusterConfig) (store : Key → Record) (txn : TxnProto) :
    ((create cfg 0 store txn).2.map oneMasterResult).Perm
      (create cfg 1 store (oneMaster txn)).2 := by
  by_cases hreader : cfg.relativeNodeId ∈ txn.readers
  · have hreader' : cfg.relativeNodeId ∈ (oneMaster txn).readers := hreader
    obtain ⟨-, -, -, hsent⟩ := create_eq 0 store hreader
    obtain ⟨-, -, -, hsent'⟩ := create_eq 1 store hreader'
    rw [hsent, hsent', readAll_localEntries, List.map_map]
    have h := (destinations_oneMaster cfg store txn).map
      (resultFor cfg (oneMaster txn) (readAll cfg 0 store txn).localEntries)
    rwa [List.map_map] at h
  · unfold create
    rw [if_neg hreader, if_neg (by exact hreader)]
    exact List.Perm.refl _

/-! ## Nodes -/

/-- Nodes with the same objects and otherwise equal; neither looks up counters. -/
structure SameNode (n n' : Node) : Prop where
  rest : n' = { n with managers := n'.managers }
  objects : ∀ p, (n.managers p).map StorageManager.objects =
    (n'.managers p).map StorageManager.objects
  verifying : n.verifying = none

section

open DeterministicScheduler

variable {txns : Ptr → TxnProto} {compute : Compute} {n n' : Node}

theorem sameNode_initial (store : Key → Record) :
    SameNode (initial txns store) (initial (oneMaster ∘ txns) store) where
  rest := rfl
  objects _ := rfl
  verifying := rfl

/-- Steps that leave the managers alone and do the same with the rest. -/
theorem SameNode.of_managers {m m' : Node} (h : SameNode n n') (hm : m.managers = n.managers)
    (hm' : m' = { m with managers := n'.managers }) (hv : m.verifying = none) : SameNode m m' where
  rest := by rw [hm']
  objects p := by rw [hm', hm]; exact h.objects p
  verifying := hv

theorem lockNode_oneMaster (s : Node) (p : Ptr) :
    lock cfg 1 (oneMaster ∘ txns) s p = lock cfg 0 txns s p := by
  unfold lock
  rw [comp_apply, lock_oneMaster]

theorem parse_oneMaster (h : SameNode n n') :
    Option.Rel SameNode (parse cfg 0 txns n) (parse cfg 1 (oneMaster ∘ txns) n') := by
  obtain ⟨f, rfl⟩ : ∃ f, n' = { n with managers := f } := ⟨_, h.rest⟩
  have hv : n.verifying.isNone = true := by rw [h.verifying]; rfl
  have hparse : ∀ (mode : Nat) (txns : Ptr → TxnProto) (managers : Ptr → Option StorageManager),
      mode ≠ 2 → parse cfg mode txns { n with managers } =
        some { lock cfg mode txns { n with managers } n.next with next := n.next + 1 } := by
    intro mode txns managers hmode
    unfold parse
    rw [if_pos hv]
    exact if_neg fun hm => hmode hm.1
  rw [show n = { n with managers := n.managers } from rfl, hparse 0 txns _ (by decide),
    hparse 1 _ f (by decide), lockNode_oneMaster]
  exact .some (h.of_managers rfl rfl h.verifying)

theorem dispatch_oneMaster (h : SameNode n n') :
    Option.Rel SameNode (dispatch n) (dispatch n') := by
  obtain ⟨f, rfl⟩ : ∃ f, n' = { n with managers := f } := ⟨_, h.rest⟩
  have hv : n.verifying.isNone = true := by rw [h.verifying]; rfl
  unfold dispatch
  rw [if_pos hv, if_pos (by exact hv)]
  cases n.readyTxns with
  | nil => exact .none
  | cons p rest => exact .some (h.of_managers rfl rfl h.verifying)

/-- Nothing waits for a remaster: `handleDone` pops and releases. -/
theorem handleDone_eq {mode : Nat} (hmode : mode ≠ 2) (hv : n.verifying = none) :
    handleDone cfg mode txns n = match n.doneQueue with
      | [] => none
      | p :: rest => (releaseDone cfg mode txns { n with doneQueue := rest } p).map fun s =>
          { s with deleted := p :: s.deleted } := by
  unfold handleDone
  rw [if_pos (by rw [hv]; rfl)]
  cases n.doneQueue with
  | nil => rfl
  | cons p rest =>
      have hwake : wakeUp mode txns n p = some (n.waits, []) := by
        unfold wakeUp
        rw [if_neg fun h => hmode h.1]
      simp only [hwake, Option.bind_some, List.foldl_nil]

theorem releaseDone_oneMaster (h : SameNode n n') (p : Ptr) :
    Option.Rel SameNode (releaseDone cfg 0 txns n p)
      (releaseDone cfg 1 (oneMaster ∘ txns) n' p) := by
  obtain ⟨f, rfl⟩ : ∃ f, n' = { n with managers := f } := ⟨_, h.rest⟩
  unfold releaseDone
  rw [comp_apply, release_oneMaster]
  by_cases hstatus : n.status p = .abortedWithoutLock
  · rw [if_pos hstatus, if_pos (by exact hstatus)]
    exact .some h
  · rw [if_neg hstatus, if_neg (by exact hstatus)]
    cases n.lockManager.release cfg 0 p (txns p) with
    | none => exact .none
    | some r => exact .some (h.of_managers rfl rfl h.verifying)

theorem handleDone_oneMaster (h : SameNode n n') :
    Option.Rel SameNode (handleDone cfg 0 txns n) (handleDone cfg 1 (oneMaster ∘ txns) n') := by
  obtain ⟨f, rfl⟩ : ∃ f, n' = { n with managers := f } := ⟨_, h.rest⟩
  rw [handleDone_eq (by decide) h.verifying, handleDone_eq (by decide) (by exact h.verifying)]
  cases n.doneQueue with
  | nil => exact .none
  | cons p rest =>
      have hpop : SameNode { n with doneQueue := rest }
          { n with doneQueue := rest, managers := f } :=
        h.of_managers rfl rfl h.verifying
      exact optionRel_map (releaseDone_oneMaster hpop p) fun a b hab =>
        ⟨by rw [hab.rest], hab.objects, hab.verifying⟩

theorem start_oneMaster (h : SameNode n n') :
    Option.Rel (fun (a b : Node × List ReadResult) =>
        SameNode a.1 b.1 ∧ (a.2.map oneMasterResult).Perm b.2)
      (DeterministicScheduler.start cfg 0 txns n)
      (DeterministicScheduler.start cfg 1 (oneMaster ∘ txns) n') := by
  obtain ⟨f, rfl⟩ : ∃ f, n' = { n with managers := f } := ⟨_, h.rest⟩
  unfold DeterministicScheduler.start
  cases n.txnsQueue with
  | nil => exact .none
  | cons p rest =>
      refine .some ⟨⟨rfl, fun q => ?_, h.verifying⟩, create_sent cfg n.store (txnOf txns n p)⟩
      by_cases hq : q = p
      · subst hq
        simp only [update_self, Option.map_some]
        exact congrArg some (create_objects cfg n.store (txnOf txns n q))
      · simp only [update_of_ne hq]
        exact h.objects q

/-- Whether a manager is complete depends on its objects. -/
theorem readyToExecute_oneMaster {sm sm' : StorageManager} (h : sm.objects = sm'.objects) :
    sm'.readyToExecute (oneMaster txn) = sm.readyToExecute txn := by
  simp [readyToExecute, oneMaster, h]

theorem readResult_oneMaster (h : SameNode n n') (p : Ptr) (entries : List (Key × Record)) :
    Option.Rel SameNode (readResult txns n p entries)
      (readResult (oneMaster ∘ txns) n' p entries) := by
  obtain ⟨f, rfl⟩ : ∃ f, n' = { n with managers := f } := ⟨_, h.rest⟩
  have hp := h.objects p
  unfold readResult
  dsimp only at hp ⊢
  cases hsm : n.managers p with
  | none =>
      rw [hsm] at hp
      rw [Option.map_eq_none_iff.mp hp.symm]
      exact .none
  | some sm =>
      rw [hsm] at hp
      obtain ⟨sm', hsm', hobjects⟩ := Option.map_eq_some_iff.mp hp.symm
      rw [hsm']
      simp only [Option.bind_some, comp_apply, readyToExecute_oneMaster hobjects.symm]
      cases sm.readyToExecute (txns p) with
      | true => exact .none
      | false =>
          refine .some ⟨rfl, fun q => ?_, h.verifying⟩
          by_cases hq : q = p
          · subst hq
            simp only [update_self, Option.map_some, handleReadResult, hobjects]
          · simp only [update_of_ne hq]
            exact h.objects q

theorem execute_oneMaster {sm sm' : StorageManager} (txn : TxnProto)
    (h : sm.objects = sm'.objects) (hnormal : txn.remasterTxn = false) :
    Microbenchmark.execute (restored compute) (oneMaster txn) sm' store =
      Microbenchmark.execute compute txn sm store := by
  have hread : sm'.readObject store = sm.readObject store := by
    funext k
    rw [readObject, readObject, h]
  unfold Microbenchmark.execute
  rw [if_neg (by simp [hnormal]), if_neg (by simp [hnormal])]
  unfold Microbenchmark.writeValues
  rw [oneMaster_writeKeys, hread, restored, restore_oneMaster, h]

theorem run_oneMaster (h : SameNode n n') (p : Ptr) (guid random : Nat)
    (hnormal : (txns p).remasterTxn = false) :
    Option.Rel SameNode ((run cfg 0 txns compute n p guid random).map Prod.fst)
      ((run cfg 1 (oneMaster ∘ txns) (restored compute) n' p guid random).map Prod.fst) := by
  obtain ⟨f, rfl⟩ : ∃ f, n' = { n with managers := f } := ⟨_, h.rest⟩
  have hp := h.objects p
  unfold run
  dsimp only at hp ⊢
  cases hsm : n.managers p with
  | none =>
      rw [hsm] at hp
      rw [Option.map_eq_none_iff.mp hp.symm]
      exact .none
  | some sm =>
      rw [hsm] at hp
      obtain ⟨sm', hsm', hobjects⟩ := Option.map_eq_some_iff.mp hp.symm
      rw [hsm']
      have hexec : Microbenchmark.execute (restored compute)
          (txnOf (oneMaster ∘ txns) { n with managers := f } p) sm' n.store =
          Microbenchmark.execute compute (txnOf txns n p) sm n.store :=
        execute_oneMaster (txnOf txns n p) hobjects.symm hnormal
      simp only [Option.bind_some, comp_apply, readyToExecute_oneMaster hobjects.symm, hexec]
      cases sm.readyToExecute (txns p) with
      | false => exact .none
      | true =>
          cases Microbenchmark.execute compute (txnOf txns n p) sm n.store with
          | none => exact .none
          | some store =>
              refine .some ⟨rfl, fun q => ?_, h.verifying⟩
              by_cases hq : q = p
              · subst hq
                simp only [finish, update_self, Option.map_none]
              · simp only [finish, update_of_ne hq]
                exact h.objects q

/-- Every step of one node is one of the other. -/
theorem step_oneMaster (h : SameNode n n') (hnormal : ∀ p, (txns p).remasterTxn = false)
    (e : DeterministicScheduler.Event) :
    Option.Rel SameNode (step cfg 0 txns compute n e)
      (step cfg 1 (oneMaster ∘ txns) (restored compute) n' e) := by
  have hv : n'.verifying = none := by rw [h.rest]; exact h.verifying
  cases e with
  | parse => exact parse_oneMaster h
  | verify =>
      rw [step, step, verify, verify, h.verifying, hv]
      exact .none
  | route =>
      rw [step, step, route, route, h.verifying, hv]
      exact .none
  | dispatch => exact dispatch_oneMaster h
  | handleDone => exact handleDone_oneMaster h
  | start =>
      exact optionRel_map (start_oneMaster h) fun a b hab => hab.1
  | readResult p entries => exact readResult_oneMaster h p entries
  | run p guid random => exact run_oneMaster h p guid random (hnormal p)

end

end Calvin.OriginalReplica
