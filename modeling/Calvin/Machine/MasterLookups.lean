import Calvin.Lib.Links
import Calvin.Machine.LowlatencySequencerWriter

/-!
# Transactions that wait for masters

A transaction waits for the masters of its entries; the keys that no master is
known of yet are under way, in a request that is not sent, in a request or in an
answer.

* `Waiting`: a transaction that waits, against its keys under way;
* `lookupResults_spec`: what a message of answers does to those that wait;
* `counted_step`: every step of the nodes keeps the count of entries that wait.
-/

namespace Calvin.SequencerWriter

open Function Lib

/-- No transaction waits for lookups under the id of a new one. `GetTxn` cuts
the ids to an `int`. -/
def FreshId (s : Sequencers) : Event → Prop
  | .getTxn n txn _ _ => (s.writers n).expectedMasterLookups txn.txnId = none
  | _ => True

instance (s : Sequencers) (e : Event) : Decidable (FreshId s e) :=
  match e with
  | .getTxn _ _ _ _ => inferInstanceAs (Decidable (_ = none))
  | .sendLookups _ _ | .answer _ _ | .gotResult _ _ | .schedulerForword _ _ | .gotForword _
  | .sendBatch _ => isTrue trivial

/-- The keys that requests ask for a transaction. -/
def asked (txnId : Nat) (requests : List LookupMasterEntry) : List Key :=
  requests.flatMap fun request => if request.txnId = txnId then request.keys else []

/-- The keys that answers are for. -/
def answered (txnId : Nat) (results : List LookupMasterResultEntry) : List Key :=
  results.flatMap fun result =>
    if result.txnId = txnId then result.keyEntries.map KeyEntry.key else []

/-- A transaction that waits: the entries without master are those whose keys
are under way. -/
structure Waiting (replica expected : Nat) (txn : TxnProto) (involved : List Nat)
    (out : List Key) : Prop where
  origin : txn.originReplica = replica
  nodup : out.Nodup
  known : ∀ key ∈ out, ∃ entry ∈ entries txn, entry.key = key
  expected : expected = ((entries txn).filter fun entry => entry.key ∈ out).length
  involved : ∀ entry ∈ entries txn, entry.key ∉ out → entry.master ∈ involved

/-- The lookups of a node, against the keys under way for each id. -/
def WriterInv (replica : Nat) (w : Writer) (out : Nat → List Key) : Prop :=
  ∀ id, match w.expectedMasterLookups id with
    | none => out id = []
    | some (expected, txn) => Waiting replica expected txn (w.involvedReplicas id) (out id)

/-- A completed transaction of a replica names all masters. -/
structure Complete (replica : Nat) (txn : TxnProto) : Prop where
  origin : txn.originReplica = replica
  involved : ∀ entry ∈ entries txn, entry.master ∈ txn.involvedReplicas

section

variable {replica expected : Nat} {txn : TxnProto} {involved : List Nat} {w w' : Writer}

theorem Waiting.perm {keys keys' : List Key} (h : Waiting replica expected txn involved keys)
    (hp : keys'.Perm keys) : Waiting replica expected txn involved keys' where
  origin := h.origin
  nodup := hp.nodup_iff.mpr h.nodup
  known key hkey := h.known key (hp.mem_iff.mp hkey)
  expected := by
    rw [h.expected]
    simp only [hp.mem_iff]
  involved entry he hout := h.involved entry he fun hmem => hout (hp.mem_iff.mpr hmem)

theorem WriterInv.perm {out out' : Nat → List Key} (h : WriterInv replica w out)
    (hp : ∀ id, (out' id).Perm (out id)) : WriterInv replica w out' := by
  intro id
  have hid := h id
  split
  · rename_i heq
    rw [heq] at hid
    have := hp id
    rw [hid] at this
    exact this.eq_nil
  · rename_i heq
    rw [heq] at hid
    exact Waiting.perm hid (hp id)

/-- A transaction that is completed has all its masters in the set. -/
theorem Complete.addInvolved (horigin : txn.originReplica = replica)
    (h : ∀ entry ∈ entries txn, entry.master ∈ involved) :
    Complete replica (addInvolved txn involved) where
  origin := horigin
  involved entry he :=
    List.mem_append_right _ ((List.mem_insertionSort (· ≤ ·)).mpr (h entry he))

/-! ### Asking -/

variable {cfg : ClusterConfig} {remote : List KeyEntry}

theorem asked_append (id : Nat) (a b : List LookupMasterEntry) :
    asked id (a ++ b) = asked id a ++ asked id b :=
  List.flatMap_append

theorem asked_lookupRequests_of_ne {id txnId : Nat} (h : id ≠ txnId) :
    asked id ((lookupRequests cfg txnId remote).map Prod.snd) = [] := by
  rw [asked, List.flatMap_eq_nil_iff]
  intro request hmem
  obtain ⟨p, hp, rfl⟩ := List.mem_map.mp hmem
  obtain ⟨mds, -, rfl⟩ := List.mem_map.mp hp
  exact if_neg h.symm

theorem nodup_remoteKeys (mds : Nat) : (remoteKeys cfg remote mds).Nodup :=
  (List.perm_insertionSort _ _).nodup_iff.mpr (List.nodup_dedup _)

theorem mem_remoteKeys {mds : Nat} {key : Key} :
    key ∈ remoteKeys cfg remote mds ↔
      cfg.lookupPartition key = mds ∧ key ∈ remote.map KeyEntry.key := by
  simp only [remoteKeys, List.mem_insertionSort, List.mem_dedup, List.mem_map, List.mem_filter,
    decide_eq_true_eq]
  constructor
  · rintro ⟨entry, ⟨he, hmds⟩, rfl⟩
    exact ⟨hmds, entry, he, rfl⟩
  · rintro ⟨hmds, entry, he, rfl⟩
    exact ⟨entry, ⟨he, hmds⟩, rfl⟩

theorem asked_lookupRequests (txnId : Nat) :
    asked txnId ((lookupRequests cfg txnId remote).map Prod.snd) =
      ((remote.map fun entry => cfg.lookupPartition entry.key).dedup.insertionSort
        (· ≤ ·)).flatMap (remoteKeys cfg remote) := by
  rw [asked, lookupRequests, List.map_map, List.flatMap_map]
  refine List.flatMap_congr fun mds _ => ?_
  exact if_pos rfl

theorem mem_asked_lookupRequests {txnId : Nat} {key : Key} :
    key ∈ asked txnId ((lookupRequests cfg txnId remote).map Prod.snd) ↔
      key ∈ remote.map KeyEntry.key := by
  simp only [asked_lookupRequests, List.mem_flatMap, List.mem_insertionSort, List.mem_dedup,
    mem_remoteKeys]
  constructor
  · rintro ⟨mds, -, -, hkey⟩
    exact hkey
  · intro hkey
    obtain ⟨entry, he, rfl⟩ := List.mem_map.mp hkey
    exact ⟨_, List.mem_map_of_mem he, rfl, hkey⟩

/-- Asked for are the entries that are not local. -/
theorem mem_asked_remote {txnId : Nat} {es : List KeyEntry} {entry : KeyEntry} (he : entry ∈ es) :
    entry.key ∈ asked txnId ((lookupRequests cfg txnId
      (es.filter fun entry => ¬ cfg.isLocal entry.key)).map Prod.snd) ↔
      ¬ cfg.isLocal entry.key := by
  rw [mem_asked_lookupRequests, List.mem_map]
  constructor
  · rintro ⟨other, hother, hkey⟩
    rw [← hkey]
    simpa using (List.mem_filter.mp hother).2
  · intro hl
    exact ⟨entry, List.mem_filter.mpr ⟨he, by simpa using hl⟩, rfl⟩

theorem nodup_asked_lookupRequests (txnId : Nat) :
    (asked txnId ((lookupRequests cfg txnId remote).map Prod.snd)).Nodup := by
  rw [asked_lookupRequests, List.nodup_flatMap]
  have hsorted : ((remote.map fun entry => cfg.lookupPartition entry.key).dedup.insertionSort
      (· ≤ ·)).Nodup :=
    (List.perm_insertionSort _ _).nodup_iff.mpr (List.nodup_dedup _)
  refine ⟨fun mds _ => nodup_remoteKeys mds, hsorted.imp fun {a b} hne => ?_⟩
  -- keys at different partitions differ
  refine List.disjoint_left.mpr ?_
  intro key ha hb
  exact hne ((mem_remoteKeys.mp ha).1.symm.trans (mem_remoteKeys.mp hb).1)

/-- What taking a transaction from the client asks for, and what it completes. -/
theorem getTxn_spec (cfg : ClusterConfig) {out : Nat → List Key}
    (hw : WriterInv cfg.localReplicaId w out)
    (hnew : w.expectedMasterLookups txn.txnId = none) (answers : Nat → Nat × Nat) :
    ∃ requests, (getTxn cfg w txn answers).1.lookupMasterBatch = w.lookupMasterBatch ++ requests ∧
      (getTxn cfg w txn answers).1.batchMessage = w.batchMessage ∧
      WriterInv cfg.localReplicaId (getTxn cfg w txn answers).1
        (fun id => out id ++ asked id (requests.map Prod.snd)) ∧
      ∀ t ∈ (getTxn cfg w txn answers).2, Complete cfg.localReplicaId t := by
  have hid : (localMasters cfg answers txn).txnId = txn.txnId := rfl
  have horigin : (localMasters cfg answers txn).originReplica = cfg.localReplicaId := rfl
  have hout : out txn.txnId = [] := by
    have h := hw txn.txnId
    rw [hnew] at h
    exact h
  unfold getTxn
  generalize localMasters cfg answers txn = t at hid horigin ⊢
  have hlocal : ∀ entry ∈ entries t, cfg.isLocal entry.key = true →
      entry.master ∈ w.involvedReplicas t.txnId ∪
        (((entries t).filter fun entry => cfg.isLocal entry.key).map KeyEntry.master).dedup := by
    intro entry he hl
    refine List.mem_union_iff.mpr (.inr (List.mem_dedup.mpr (List.mem_map_of_mem ?_)))
    exact List.mem_filter.mpr ⟨he, hl⟩
  rw [← hid] at hnew hout
  dsimp only
  split
  · rename_i hnone
    refine ⟨[], (List.append_nil _).symm, rfl, fun id => ?_, fun t' ht' => ?_⟩
    · by_cases h : id = t.txnId
      · subst h
        simp [hnew, hout, asked]
      · simpa [h, asked] using hw id
    · rw [List.mem_singleton.mp ht']
      refine Complete.addInvolved horigin fun entry he => hlocal entry he ?_
      by_contra hl
      have hmem : entry ∈ (entries t).filter fun entry => ¬ cfg.isLocal entry.key :=
        List.mem_filter.mpr ⟨he, by simpa using hl⟩
      rw [List.length_eq_zero_iff.mp hnone] at hmem
      cases hmem
  · refine ⟨_, rfl, rfl, fun id => ?_, fun _ h => (List.not_mem_nil h).elim⟩
    by_cases h : id = t.txnId
    · subst h
      simp only [update_self, hout, List.nil_append]
      refine ⟨horigin, nodup_asked_lookupRequests _, fun key hkey => ?_, ?_,
        fun entry he hout => ?_⟩
      · obtain ⟨entry, he, rfl⟩ := List.mem_map.mp (mem_asked_lookupRequests.mp hkey)
        exact ⟨entry, List.mem_of_mem_filter he, rfl⟩
      · congr 1
        refine List.filter_congr fun entry he => ?_
        rw [decide_eq_decide.mpr (mem_asked_remote he)]
      · refine hlocal entry he ?_
        by_contra hl
        exact hout ((mem_asked_remote he).mpr hl)
    · simp only [update_of_ne h, asked_lookupRequests_of_ne h, List.append_nil]
      exact hw id

/-! ### Answers -/

/-- Every key of an answer has an entry in it. -/
theorem remoteEntry_isSome {keyEntries : List KeyEntry} {key : Key} :
    (remoteEntry keyEntries key).isSome = true ↔ key ∈ keyEntries.map KeyEntry.key := by
  simp only [remoteEntry, List.find?_isSome, List.mem_reverse, decide_eq_true_eq, List.mem_map]

theorem setMaster_key (keyEntries : List KeyEntry) (entry : KeyEntry) :
    (setMaster keyEntries entry).key = entry.key := by
  unfold setMaster
  split <;> rfl

/-- An entry whose key is not answered stays as it is. -/
theorem setMaster_of_not_mem {keyEntries : List KeyEntry} {entry : KeyEntry}
    (h : entry.key ∉ keyEntries.map KeyEntry.key) : setMaster keyEntries entry = entry := by
  unfold setMaster
  split
  · rename_i heq
    exact (h (remoteEntry_isSome.mp (by rw [heq]; rfl))).elim
  · rfl

/-- The entries with one of two sets of keys that have no key in common. -/
theorem length_filter_append {keys rest : List Key} (h : (keys ++ rest).Nodup)
    (es : List KeyEntry) :
    (es.filter fun entry => entry.key ∈ keys ++ rest).length =
      (es.filter fun entry => entry.key ∈ keys).length +
        (es.filter fun entry => entry.key ∈ rest).length := by
  induction es with
  | nil => rfl
  | cons entry es ih =>
      have hdisjoint : entry.key ∈ keys → entry.key ∉ rest := fun hk hr =>
        (List.nodup_append.mp h).2.2 _ hk _ hr rfl
      simp only [List.filter_cons, List.mem_append] at ih ⊢
      by_cases hk : entry.key ∈ keys
      · simp only [hk, hdisjoint hk, true_or, decide_true, decide_false, if_true,
          Bool.false_eq_true, if_false, List.length_cons]
        omega
      · by_cases hr : entry.key ∈ rest
        · simp only [hk, hr, or_true, decide_true, decide_false, if_true, Bool.false_eq_true,
            if_false, List.length_cons]
          omega
        · simp only [hk, hr, or_self, decide_false, Bool.false_eq_true, if_false]
          exact ih

/-- The answered entries have their masters; the others wait on. -/
theorem Waiting.answer {keyEntries : List KeyEntry} {rest : List Key}
    (h : Waiting replica expected txn involved (keyEntries.map KeyEntry.key ++ rest)) :
    Waiting replica
      (expected -
        ((entries txn).filter fun entry => (remoteEntry keyEntries entry.key).isSome).length)
      { txn with
        readSet := txn.readSet.map (setMaster keyEntries)
        readWriteSet := txn.readWriteSet.map (setMaster keyEntries) }
      (involved ∪ (((entries txn).filter fun entry => (remoteEntry keyEntries entry.key).isSome).map
        fun entry => (setMaster keyEntries entry).master).dedup)
      rest := by
  have hentries : entries
      { txn with
        readSet := txn.readSet.map (setMaster keyEntries)
        readWriteSet := txn.readWriteSet.map (setMaster keyEntries) } =
      (entries txn).map (setMaster keyEntries) := List.map_append.symm
  have hfound : ((entries txn).filter fun entry => (remoteEntry keyEntries entry.key).isSome) =
      (entries txn).filter fun entry => entry.key ∈ keyEntries.map KeyEntry.key :=
    List.filter_congr fun entry _ => by
      rw [Bool.eq_iff_iff, remoteEntry_isSome, decide_eq_true_eq]
  refine ⟨h.origin, (List.nodup_append.mp h.nodup).2.1, fun key hkey => ?_, ?_, ?_⟩
  · obtain ⟨entry, he, rfl⟩ := h.known key (List.mem_append_right _ hkey)
    rw [hentries]
    exact ⟨_, List.mem_map_of_mem he, setMaster_key keyEntries entry⟩
  · have hsplit := length_filter_append h.nodup (entries txn)
    rw [hentries, List.filter_map, List.length_map, hfound, h.expected, hsplit]
    simp only [Function.comp_def, setMaster_key]
    omega
  · intro entry he hrest
    rw [hentries] at he
    obtain ⟨old, hold, rfl⟩ := List.mem_map.mp he
    rw [setMaster_key] at hrest
    by_cases hkey : old.key ∈ keyEntries.map KeyEntry.key
    · refine List.mem_union_iff.mpr (.inr (List.mem_dedup.mpr ?_))
      exact List.mem_map_of_mem (List.mem_filter.mpr ⟨hold, remoteEntry_isSome.mpr hkey⟩)
    · rw [setMaster_of_not_mem hkey]
      refine List.mem_union_iff.mpr (.inl (h.involved old hold fun hmem => ?_))
      rcases List.mem_append.mp hmem with hmem | hmem
      · exact hkey hmem
      · exact hrest hmem

/-- With no entry that waits, no key is under way. -/
theorem Waiting.notMem {keys : List Key} (h : Waiting replica 0 txn involved keys) (key : Key) :
    key ∉ keys := by
  intro hkey
  obtain ⟨entry, he, rfl⟩ := h.known key hkey
  have hnil := List.length_eq_zero_iff.mp h.expected.symm
  exact List.filter_eq_nil_iff.mp hnil entry he (decide_eq_true hkey)

/-- An answer takes its keys from those under way; if none is left the
transaction is complete. -/
theorem lookupResult_spec {out : Nat → List Key} {result : LookupMasterResultEntry}
    {completed : List TxnProto}
    (hw : WriterInv replica w fun id => answered id [result] ++ out id)
    (h : lookupResult w result = some (w', completed)) :
    WriterInv replica w' out ∧ w'.batchMessage = w.batchMessage ∧
      w'.lookupMasterBatch = w.lookupMasterBatch ∧ ∀ t ∈ completed, Complete replica t := by
  simp only [lookupResult, Option.map_eq_some_iff, Prod.exists] at h
  obtain ⟨expected, txn, hpending, h⟩ := h
  have hself := hw result.txnId
  rw [hpending] at hself
  have hkeys : answered result.txnId [result] = result.keyEntries.map KeyEntry.key := by
    simp [answered]
  simp only [hkeys] at hself
  have hrest := hself.answer
  have hothers : ∀ id, id ≠ result.txnId →
      match w.expectedMasterLookups id with
      | none => out id = []
      | some (expected, txn) => Waiting replica expected txn (w.involvedReplicas id) (out id) := by
    intro id hid
    have := hw id
    simpa [answered, Ne.symm hid] using this
  split at h
  · rename_i hzero
    simp only [Prod.mk.injEq] at h
    obtain ⟨rfl, rfl⟩ := h
    rw [hzero] at hrest
    have hnone : ∀ key, key ∉ out result.txnId := hrest.notMem
    refine ⟨fun id => ?_, rfl, rfl, fun t ht => ?_⟩
    · by_cases hid : id = result.txnId
      · subst hid
        simpa using List.eq_nil_iff_forall_not_mem.mpr hnone
      · simpa [hid] using hothers id hid
    · rw [List.mem_singleton.mp ht]
      exact Complete.addInvolved hrest.origin fun entry he =>
        hrest.involved entry he (hnone entry.key)
  · simp only [Prod.mk.injEq] at h
    obtain ⟨rfl, rfl⟩ := h
    refine ⟨fun id => ?_, rfl, rfl, fun _ ht => (List.not_mem_nil ht).elim⟩
    by_cases hid : id = result.txnId
    · subst hid
      simpa using hrest
    · simpa [hid] using hothers id hid

/-- The same for a message of answers. -/
theorem lookupResults_spec {out : Nat → List Key} {results : List LookupMasterResultEntry}
    {completed : List TxnProto}
    (hw : WriterInv replica w fun id => answered id results ++ out id)
    (h : lookupResults w results = some (w', completed)) :
    WriterInv replica w' out ∧ w'.batchMessage = w.batchMessage ∧
      w'.lookupMasterBatch = w.lookupMasterBatch ∧ ∀ t ∈ completed, Complete replica t := by
  induction results generalizing w completed with
  | nil =>
      cases h
      exact ⟨hw, rfl, rfl, fun _ h => (List.not_mem_nil h).elim⟩
  | cons result rest ih =>
      simp only [lookupResults, Option.bind_eq_some_iff, Option.map_eq_some_iff, Prod.exists,
        Prod.mk.injEq] at h
      obtain ⟨w₁, first, h₁, w₂, more, h₂, rfl, rfl⟩ := h
      have hfirst : WriterInv replica w fun id =>
          answered id [result] ++ (answered id rest ++ out id) := by
        simpa [answered] using hw
      obtain ⟨hw₁, hb₁, hl₁, hc₁⟩ := lookupResult_spec hfirst h₁
      obtain ⟨hw₂, hb₂, hl₂, hc₂⟩ := ih hw₁ h₂
      refine ⟨hw₂, hb₂.trans hb₁, hl₂.trans hl₁, fun t ht => ?_⟩
      rcases List.mem_append.mp ht with ht | ht
      · exact hc₁ t ht
      · exact hc₂ t ht

end

/-! ## All nodes -/

/-- The keys a node has asked for a transaction and has no master of. -/
def underWay (s : Sequencers) (n id : Nat) : List Key :=
  asked id ((s.writers n).lookupMasterBatch.map Prod.snd) ++
    (s.lookups.flatMap fun m => if m.sourceNode = n then asked id m.data else []) ++
    s.results.flatMap fun m => if m.destinationNode = n then answered id m.data else []

/-- Two states with the same lookups. -/
structure SameLookups (s s' : Sequencers) : Prop where
  lookups : s'.lookups = s.lookups
  results : s'.results = s.results
  expected : ∀ n, (s'.writers n).expectedMasterLookups = (s.writers n).expectedMasterLookups
  involved : ∀ n, (s'.writers n).involvedReplicas = (s.writers n).involvedReplicas
  requests : ∀ n, (s'.writers n).lookupMasterBatch = (s.writers n).lookupMasterBatch

section

variable {cfg : ClusterConfig} {s s' : Sequencers} {n : Nat}

theorem SameLookups.trans {t : Sequencers} (h : SameLookups s s') (h' : SameLookups s' t) :
    SameLookups s t where
  lookups := h'.lookups.trans h.lookups
  results := h'.results.trans h.results
  expected m := (h'.expected m).trans (h.expected m)
  involved m := (h'.involved m).trans (h.involved m)
  requests m := (h'.requests m).trans (h.requests m)

theorem SameLookups.underWay (h : SameLookups s s') (n : Nat) : underWay s' n = underWay s n := by
  funext id
  rw [SequencerWriter.underWay, SequencerWriter.underWay, h.requests n, h.lookups, h.results]

theorem SameLookups.writers (h : SameLookups s s')
    (hw : ∀ n, WriterInv (n / cfg.nodesPerReplica) (s.writers n) (SequencerWriter.underWay s n))
    (n : Nat) :
    WriterInv (n / cfg.nodesPerReplica) (s'.writers n) (SequencerWriter.underWay s' n) := by
  intro id
  rw [h.underWay n, h.expected n, h.involved n]
  exact hw n id

theorem sameLookups_addToBatch (txn : TxnProto) : SameLookups s (addToBatch s n txn) := by
  refine ⟨rfl, rfl, fun m => ?_, fun m => ?_, fun m => ?_⟩ <;>
    · by_cases hm : m = n
      · subst hm
        simp [addToBatch, setWriter]
      · simp [addToBatch, setWriter, hm]

theorem sameLookups_forword (destination : Nat) (txn : TxnProto) :
    SameLookups s (forword s destination txn) :=
  ⟨rfl, rfl, fun _ => rfl, fun _ => rfl, fun _ => rfl⟩

@[simp] theorem setWriter_writers_self (w : Writer) : (setWriter s n w).writers n = w :=
  update_self ..

theorem setWriter_writers_of_ne {m : Nat} (w : Writer) (h : m ≠ n) :
    (setWriter s n w).writers m = s.writers m :=
  update_of_ne h ..

/-- An answer is for the keys of its request. -/
theorem answered_answerLookup (id : Nat) (getMasterCounter : Nat → Key → Nat × Nat)
    (lookup : MasterLookup) :
    answered id (answerLookup getMasterCounter lookup).data = asked id lookup.data := by
  rw [answerLookup]
  generalize lookup.data = data
  induction data generalizing getMasterCounter with
  | nil => rfl
  | cons request rest ih =>
      have hrest := ih fun j => getMasterCounter (j + 1)
      rw [List.mapIdx_cons]
      show _ ++ answered id _ = _ ++ asked id rest
      rw [hrest]
      congr 1
      dsimp only
      split
      · rw [List.map_map]
        exact List.map_id' _
      · rfl

/-- The lookups are what they were when a transaction has been batched or sent
on. -/
theorem sameLookups_dispatch (random : Nat → Nat) (completed : List TxnProto) :
    SameLookups s (dispatch cfg s n random completed) := by
  induction completed generalizing s with
  | nil => exact ⟨rfl, rfl, fun _ => rfl, fun _ => rfl, fun _ => rfl⟩
  | cons txn rest ih =>
      rw [dispatch]
      cases route (nodeConfig cfg n) (random rest.length) txn with
      | none => exact (sameLookups_addToBatch txn).trans ih
      | some destination => exact (sameLookups_forword destination txn).trans ih

/-! ## Steps -/

theorem underWay_setWriter_of_ne {m : Nat} (hm : m ≠ n) (w : Writer) :
    underWay (setWriter s n w) m = underWay s m := by
  funext id
  rw [underWay, setWriter_writers_of_ne _ hm]
  rfl

/-- More requests to be sent. -/
theorem underWay_requests {w : Writer} {requests : List (Nat × LookupMasterEntry)}
    (h : w.lookupMasterBatch = (s.writers n).lookupMasterBatch ++ requests) (id : Nat) :
    (underWay (setWriter s n w) n id).Perm
      (underWay s n id ++ asked id (requests.map Prod.snd)) := by
  simp only [underWay, setWriter_writers_self, h, List.map_append, asked_append]
  refine List.perm_iff_count.mpr fun key => ?_
  simp only [List.count_append, setWriter]
  omega

/-- The requests of an epoch to one partition. -/
def sendLookups (cfg : ClusterConfig) (s : Sequencers) (n mds : Nat) : Sequencers :=
  { setWriter s n { s.writers n with
      lookupMasterBatch := (s.writers n).lookupMasterBatch.filter fun p => p.1 ≠ mds } with
    lookups := s.lookups ++
      [{ sourceNode := n
         destinationNode := cfg.lookupMachineId mds (nodeConfig cfg n).localReplicaId
         data := ((s.writers n).lookupMasterBatch.filter fun p => p.1 = mds).map Prod.snd }] }

/-- The requests to a partition go from the batch into the network. -/
theorem underWay_sendLookups (mds m id : Nat) :
    (underWay (sendLookups cfg s n mds) m id).Perm (underWay s m id) := by
  by_cases hm : m = n
  · subst hm
    refine List.perm_iff_count.mpr fun key => ?_
    have hsplit : (asked id ((s.writers m).lookupMasterBatch.map Prod.snd)).Perm
        (asked id (((s.writers m).lookupMasterBatch.filter fun p => p.1 = mds).map Prod.snd) ++
          asked id (((s.writers m).lookupMasterBatch.filter fun p => p.1 ≠ mds).map Prod.snd)) := by
      rw [← asked_append, ← List.map_append]
      have hp := List.filter_append_perm (fun p : Nat × LookupMasterEntry => decide (p.1 = mds))
        (s.writers m).lookupMasterBatch
      have hasked := ((hp.map Prod.snd).flatMap_right
        fun request => if request.txnId = id then request.keys else []).symm
      simpa [asked] using hasked
    have hcount := List.perm_iff_count.mp hsplit key
    simp only [sendLookups, underWay, setWriter, update_self, List.flatMap_append,
      List.flatMap_singleton, if_true, List.count_append] at hcount ⊢
    omega
  · have hother : n ≠ m := fun h => hm h.symm
    simp only [sendLookups, underWay, setWriter, update_of_ne hm, List.flatMap_append,
      List.flatMap_singleton, if_neg hother, List.append_nil]
    exact List.Perm.refl _

/-- A request becomes an answer for the same keys. -/
theorem underWay_answer {i : Nat} {lookup : MasterLookup} (hlookup : s.lookups[i]? = some lookup)
    (getMasterCounter : Nat → Key → Nat × Nat) (m id : Nat) :
    (underWay { s with
      lookups := s.lookups.eraseIdx i
      results := s.results ++ [answerLookup getMasterCounter lookup] } m id).Perm
      (underWay s m id) := by
  have herase := flatMap_eraseIdx_perm hlookup
    fun msg => if msg.sourceNode = m then asked id msg.data else []
  have hanswer : ([answerLookup getMasterCounter lookup].flatMap fun msg =>
      if msg.destinationNode = m then answered id msg.data else []) =
        if lookup.sourceNode = m then asked id lookup.data else [] := by
    rw [List.flatMap_singleton, answered_answerLookup]
    rfl
  simp only [underWay, List.flatMap_append, hanswer]
  refine List.perm_iff_count.mpr fun key => ?_
  have hcount := List.perm_iff_count.mp herase key
  simp only [List.count_append] at hcount ⊢
  omega

/-- The answers of a message are for keys under way, next to those that stay so. -/
theorem underWay_result {i : Nat} {m : MasterLookupResult} (hm : s.results[i]? = some m)
    (k id : Nat) : (underWay s k id).Perm
      ((if m.destinationNode = k then answered id m.data else []) ++
        underWay { s with results := s.results.eraseIdx i } k id) := by
  refine List.perm_iff_count.mpr fun key => ?_
  have herase := flatMap_eraseIdx_perm hm fun msg =>
    if msg.destinationNode = k then answered id msg.data else []
  have hcount := List.perm_iff_count.mp herase key
  simp only [underWay, List.count_append] at hcount ⊢
  omega

/-- What every node waits for is under way. -/
def Counted (cfg : ClusterConfig) (s : Sequencers) : Prop :=
  ∀ n, WriterInv (n / cfg.nodesPerReplica) (s.writers n) (underWay s n)

theorem counted_getTxn (hi : Counted cfg s) {txn : TxnProto} {answers : Nat → Nat × Nat}
    (hnew : (s.writers n).expectedMasterLookups txn.txnId = none) :
    Counted cfg (setWriter s n (getTxn (nodeConfig cfg n) (s.writers n) txn answers).1) := by
  obtain ⟨requests, hrequests, -, hw, -⟩ := getTxn_spec (nodeConfig cfg n) (hi n) hnew answers
  intro m
  by_cases hm : m = n
  · subst hm
    rw [setWriter_writers_self]
    exact WriterInv.perm hw (underWay_requests hrequests)
  · rw [setWriter_writers_of_ne _ hm, underWay_setWriter_of_ne hm]
    exact hi m

theorem counted_sendLookups (hi : Counted cfg s) (mds : Nat) :
    Counted cfg (sendLookups cfg s n mds) := by
  intro m
  refine WriterInv.perm ?_ (underWay_sendLookups mds m)
  by_cases hm : m = n
  · subst hm
    show WriterInv _ (update s.writers m _ m) _
    rw [update_self]
    exact hi m
  · show WriterInv _ (update s.writers n _ m) _
    rw [update_of_ne hm]
    exact hi m

theorem counted_result (hi : Counted cfg s) {i : Nat} {m : MasterLookupResult}
    (hm : s.results[i]? = some m) :
    WriterInv (m.destinationNode / cfg.nodesPerReplica) (s.writers m.destinationNode) fun id =>
      answered id m.data ++
        underWay { s with results := s.results.eraseIdx i } m.destinationNode id := by
  refine WriterInv.perm (hi m.destinationNode) fun id => ?_
  have hp := underWay_result hm m.destinationNode id
  rw [if_pos rfl] at hp
  exact hp.symm

theorem counted_gotResult (hi : Counted cfg s) {i : Nat} {m : MasterLookupResult} {w : Writer}
    {completed : List TxnProto} (hm : s.results[i]? = some m)
    (h : lookupResults (s.writers m.destinationNode) m.data = some (w, completed)) :
    Counted cfg (setWriter { s with results := s.results.eraseIdx i } m.destinationNode w) := by
  obtain ⟨hw, -, hrequests, -⟩ := lookupResults_spec (counted_result hi hm) h
  intro n
  by_cases hn : n = m.destinationNode
  · subst hn
    rw [setWriter_writers_self]
    refine WriterInv.perm hw fun id => ?_
    simp only [underWay, setWriter_writers_self, hrequests]
    exact List.Perm.refl _
  · rw [setWriter_writers_of_ne _ hn, underWay_setWriter_of_ne hn]
    refine WriterInv.perm (hi n) fun id => ?_
    have hp := underWay_result hm n id
    rw [if_neg (Ne.symm hn)] at hp
    exact hp.symm

theorem sameLookups_sendBatch : SameLookups s
    (setWriter s n { s.writers n with batchMessage := [], txnIdOffset := 0 }) := by
  refine ⟨rfl, rfl, fun m => ?_, fun m => ?_, fun m => ?_⟩ <;>
    · by_cases hm : m = n
      · subst hm
        simp
      · simp [setWriter_writers_of_ne _ hm]

/-- Every step with a fresh id keeps the counts. -/
theorem counted_step {e : Event} {maxBatchSize : Nat} (hi : Counted cfg s) (hfresh : FreshId s e)
    (h : next cfg maxBatchSize s e = some s') : Counted cfg s' := by
  cases e with
  | getTxn n txn answers random =>
      simp only [next, Option.ite_none_right_eq_some, Option.some.injEq] at h
      obtain ⟨-, rfl⟩ := h
      exact (sameLookups_dispatch _ _).writers (counted_getTxn hi hfresh)
  | sendLookups n mds =>
      simp only [next, Option.ite_none_right_eq_some, Option.some.injEq] at h
      obtain ⟨-, rfl⟩ := h
      exact counted_sendLookups hi mds
  | answer i getMasterCounter =>
      simp only [next, Option.map_eq_some_iff] at h
      obtain ⟨lookup, hlookup, rfl⟩ := h
      exact fun n => WriterInv.perm (hi n) (underWay_answer hlookup getMasterCounter n)
  | gotResult i random =>
      simp only [next, Option.bind_eq_some_iff, Option.map_eq_some_iff, Prod.exists] at h
      obtain ⟨m, hm, w, done, hw, rfl⟩ := h
      exact (sameLookups_dispatch _ _).writers (counted_gotResult hi hm hw)
  | schedulerForword destination txn =>
      simp only [next, Option.ite_none_right_eq_some, Option.some.injEq] at h
      obtain ⟨-, rfl⟩ := h
      exact (sameLookups_forword destination txn).writers hi
  | gotForword i =>
      simp only [next, Option.map_eq_some_iff, Prod.exists] at h
      obtain ⟨n, txn, -, rfl⟩ := h
      exact (sameLookups_addToBatch _).writers hi
  | sendBatch n =>
      simp only [next, Option.some.injEq] at h
      have hw : Counted cfg
          (setWriter s n { s.writers n with batchMessage := [], txnIdOffset := 0 }) :=
        sameLookups_sendBatch.writers hi
      split at h
      · subst h
        exact hw
      · subst h
        exact hw

end

end Calvin.SequencerWriter
