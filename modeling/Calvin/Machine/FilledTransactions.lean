import Calvin.Machine.MasterLookups

/-!
# Filling the masters of a transaction in

What a waiting transaction has of the masters looked up for it.

* `Filling`, `Filled`: a transaction whose masters are partly, or all, filled in;
* `Held`: the transactions that wait at a node, and those answers complete.
-/

namespace Calvin.SequencerWriter

open Function Lib

/-! ## Filling a transaction -/

/-- The transaction of a client, filled with the masters known so far. -/
structure Filling (looked : List (Nat × KeyEntry)) (client txn : TxnProto) (involved : List Nat)
    (out : List Key) : Prop where
  txnId : txn.txnId = client.txnId
  readKeys : txn.readSet.map KeyEntry.key = client.readSet.map KeyEntry.key
  readWriteKeys : txn.readWriteSet.map KeyEntry.key = client.readWriteSet.map KeyEntry.key
  fresh : txn.involvedReplicas = []
  looked : ∀ entry ∈ entries txn, entry.key ∉ out → (client.txnId, entry) ∈ looked
  nodup : involved.Nodup
  only : ∀ r ∈ involved, ∃ entry ∈ entries txn, entry.key ∉ out ∧ entry.master = r

/-- The transaction of a client with all masters, and the replicas they are. -/
structure Filled (looked : List (Nat × KeyEntry)) (client txn : TxnProto) : Prop where
  txnId : txn.txnId = client.txnId
  readKeys : txn.readSet.map KeyEntry.key = client.readSet.map KeyEntry.key
  readWriteKeys : txn.readWriteSet.map KeyEntry.key = client.readWriteSet.map KeyEntry.key
  looked : ∀ entry ∈ entries txn, (client.txnId, entry) ∈ looked
  nodup : txn.involvedReplicas.Nodup
  involved : ∀ r, r ∈ txn.involvedReplicas ↔ ∃ entry ∈ entries txn, entry.master = r

section

variable {looked looked' : List (Nat × KeyEntry)} {client txn : TxnProto} {involved : List Nat}
  {out out' : List Key}

theorem Filling.mono (h : Filling looked client txn involved out) (hl : looked ⊆ looked')
    (hout : ∀ key, key ∈ out' ↔ key ∈ out) : Filling looked' client txn involved out' := by
  refine ⟨h.txnId, h.readKeys, h.readWriteKeys, h.fresh, fun entry he hkey => ?_, h.nodup,
    fun r hr => ?_⟩
  · exact hl (h.looked entry he fun hmem => hkey ((hout _).mpr hmem))
  · obtain ⟨entry, he, hkey, hmaster⟩ := h.only r hr
    exact ⟨entry, he, fun hmem => hkey ((hout _).mp hmem), hmaster⟩

theorem Filled.mono (h : Filled looked client txn) (hl : looked ⊆ looked') :
    Filled looked' client txn :=
  { h with looked := fun entry he => hl (h.looked entry he) }

/-- With no entry to come, the transaction is what is routed. -/
theorem Filling.complete (h : Filling looked client txn involved out)
    (hnone : ∀ entry ∈ entries txn, entry.key ∉ out)
    (hall : ∀ entry ∈ entries txn, entry.master ∈ involved) :
    Filled looked client (addInvolved txn involved) := by
  have hmem : ∀ r, r ∈ (addInvolved txn involved).involvedReplicas ↔ r ∈ involved := by
    intro r
    show r ∈ txn.involvedReplicas ++ involved.insertionSort (· ≤ ·) ↔ _
    rw [h.fresh, List.nil_append, List.mem_insertionSort]
  refine ⟨h.txnId, h.readKeys, h.readWriteKeys, fun entry he => ?_, ?_, fun r => ?_⟩
  · exact h.looked entry he (hnone entry he)
  · show (txn.involvedReplicas ++ involved.insertionSort (· ≤ ·)).Nodup
    rw [h.fresh, List.nil_append]
    exact (List.perm_insertionSort _ _).nodup_iff.mpr h.nodup
  · rw [hmem]
    constructor
    · intro hr
      obtain ⟨entry, he, -, hmaster⟩ := h.only r hr
      exact ⟨entry, he, hmaster⟩
    · rintro ⟨entry, he, rfl⟩
      exact hall entry he

/-- The last answer for a key is one of the answers. -/
theorem setMaster_mem {keyEntries : List KeyEntry} {entry : KeyEntry}
    (h : entry.key ∈ keyEntries.map KeyEntry.key) : setMaster keyEntries entry ∈ keyEntries := by
  obtain ⟨found, hfound⟩ := Option.isSome_iff_exists.mp (remoteEntry_isSome.mpr h)
  have hmem : found ∈ keyEntries := List.mem_reverse.mp (List.mem_of_find?_eq_some hfound)
  have hkey : found.key = entry.key := by simpa using List.find?_some hfound
  have heq : setMaster keyEntries entry = found := by
    rw [setMaster, hfound]
    show { entry with master := found.master, counter := found.counter } = found
    rw [← hkey]
  rw [heq]
  exact hmem

theorem map_setMaster_key (keyEntries es : List KeyEntry) :
    (es.map (setMaster keyEntries)).map KeyEntry.key = es.map KeyEntry.key := by
  rw [List.map_map]
  exact List.map_congr_left fun entry _ => setMaster_key keyEntries entry

/-- An answer fills in the entries of its keys. -/
theorem Filling.answer {keyEntries : List KeyEntry} {rest : List Key}
    (h : Filling looked client txn involved (keyEntries.map KeyEntry.key ++ rest))
    (hrest : ∀ key ∈ keyEntries.map KeyEntry.key, key ∉ rest)
    (hk : ∀ entry ∈ keyEntries, (client.txnId, entry) ∈ looked) :
    Filling looked client
      { txn with
        readSet := txn.readSet.map (setMaster keyEntries)
        readWriteSet := txn.readWriteSet.map (setMaster keyEntries) }
      (involved ∪ (((entries txn).filter fun entry => (remoteEntry keyEntries entry.key).isSome).map
        fun entry => (setMaster keyEntries entry).master).dedup)
      rest := by
  have hentries : entries
      { txn with
        readSet := txn.readSet.map (setMaster keyEntries)
        readWriteSet := txn.readWriteSet.map (setMaster keyEntries) } =
      (entries txn).map (setMaster keyEntries) := List.map_append.symm
  refine ⟨h.txnId, ?_, ?_, h.fresh, fun entry he hkey => ?_, ?_, fun r hr => ?_⟩
  · rw [← h.readKeys]
    exact map_setMaster_key keyEntries _
  · rw [← h.readWriteKeys]
    exact map_setMaster_key keyEntries _
  · rw [hentries] at he
    obtain ⟨old, hold, rfl⟩ := List.mem_map.mp he
    rw [setMaster_key] at hkey
    by_cases hans : old.key ∈ keyEntries.map KeyEntry.key
    · exact hk _ (setMaster_mem hans)
    · rw [setMaster_of_not_mem hans]
      refine h.looked old hold fun hmem => ?_
      exact (List.mem_append.mp hmem).elim hans hkey
  · exact (List.nodup_dedup _).union _
  · rw [hentries]
    rcases List.mem_union_iff.mp hr with hr | hr
    · -- a replica from before: its entry is not among those that are answered
      obtain ⟨entry, he, hkey, hmaster⟩ := h.only r hr
      have hans : entry.key ∉ keyEntries.map KeyEntry.key := fun hmem =>
        hkey (List.mem_append_left _ hmem)
      refine ⟨entry, ?_, fun hmem => hkey (List.mem_append_right _ hmem), hmaster⟩
      have hmem := List.mem_map_of_mem (f := setMaster keyEntries) he
      rwa [setMaster_of_not_mem hans] at hmem
    · obtain ⟨entry, he, rfl⟩ := List.mem_map.mp (List.mem_dedup.mp hr)
      obtain ⟨he, hans⟩ := List.mem_filter.mp he
      refine ⟨_, List.mem_map_of_mem he, ?_, rfl⟩
      rw [setMaster_key]
      exact hrest _ (remoteEntry_isSome.mp hans)

end

/-! ## The transactions that wait at a node -/

/-- What waits at a node is filled but for the keys under way, and has one. -/
structure Held (looked : List (Nat × KeyEntry)) (clients : List TxnProto) (w : Writer)
    (out : Nat → List Key) : Prop where
  waiting : ∀ id expected txn, w.expectedMasterLookups id = some (expected, txn) → 0 < expected ∧
    ∃ client ∈ clients, client.txnId = id ∧
      Filling looked client txn (w.involvedReplicas id) (out id)
  idle : ∀ id, w.expectedMasterLookups id = none → w.involvedReplicas id = []

/-- What a node completes: transactions that have waited, each once. -/
structure Completes (looked : List (Nat × KeyEntry)) (clients : List TxnProto) (w w' : Writer)
    (completed : List TxnProto) : Prop where
  filled : ∀ txn ∈ completed, w.expectedMasterLookups txn.txnId ≠ none ∧
    ∃ client ∈ clients, Filled looked client txn
  nodup : (completed.map TxnProto.txnId).Nodup
  gone : ∀ id, w'.expectedMasterLookups id = none ↔
    w.expectedMasterLookups id = none ∨ id ∈ completed.map TxnProto.txnId

section

variable {looked looked' : List (Nat × KeyEntry)} {clients clients' : List TxnProto}
  {w w' : Writer} {out out' : Nat → List Key} {replica : Nat}

theorem Held.mono (h : Held looked clients w out) (hl : looked ⊆ looked')
    (hc : clients ⊆ clients') (hexpected : w'.expectedMasterLookups = w.expectedMasterLookups)
    (hinvolved : w'.involvedReplicas = w.involvedReplicas)
    (hout : ∀ id key, key ∈ out' id ↔ key ∈ out id) : Held looked' clients' w' out' := by
  constructor
  · intro id expected txn he
    rw [hexpected] at he
    rw [hinvolved]
    obtain ⟨hpos, client, hclient, hid, hf⟩ := h.waiting id expected txn he
    exact ⟨hpos, client, hc hclient, hid, hf.mono hl (hout id)⟩
  · intro id he
    rw [hexpected] at he
    rw [hinvolved]
    exact h.idle id he

/-- Only what waits under one id changes. -/
theorem Held.set {id : Nat} {waits : Option (Nat × TxnProto)} {involved : List Nat}
    (h : Held looked clients w out)
    (hexpected : w'.expectedMasterLookups = update w.expectedMasterLookups id waits)
    (hinvolved : w'.involvedReplicas = update w.involvedReplicas id involved)
    (hothers : ∀ other, other ≠ id → out' other = out other)
    (hnone : waits = none → involved = [])
    (hsome : ∀ expected txn, waits = some (expected, txn) → 0 < expected ∧
      ∃ client ∈ clients, client.txnId = id ∧ Filling looked client txn involved (out' id)) :
    Held looked clients w' out' := by
  constructor
  · intro other expected txn he
    rw [hexpected] at he
    rw [hinvolved]
    by_cases hne : other = id
    · subst hne
      rw [update_self] at he ⊢
      exact hsome expected txn he
    · rw [update_of_ne hne] at he ⊢
      rw [hothers other hne]
      exact h.waiting other expected txn he
  · intro other he
    rw [hexpected] at he
    rw [hinvolved]
    by_cases hne : other = id
    · subst hne
      rw [update_self] at he ⊢
      exact hnone he
    · rw [update_of_ne hne] at he ⊢
      exact h.idle other he

/-- An answer finds its transaction, and never more entries than are expected. -/
theorem lookupResult_exact {result : LookupMasterResultEntry}
    (hw : WriterInv replica w fun id => answered id [result] ++ out id)
    (hne : result.keyEntries ≠ []) :
    ∃ expected txn, w.expectedMasterLookups result.txnId = some (expected, txn) ∧
      ((entries txn).filter fun entry =>
        (remoteEntry result.keyEntries entry.key).isSome).length ≤ expected := by
  have hself := hw result.txnId
  have hkeys : answered result.txnId [result] = result.keyEntries.map KeyEntry.key := by
    simp [answered]
  simp only [hkeys] at hself
  cases hw : w.expectedMasterLookups result.txnId with
  | none =>
      rw [hw] at hself
      have hnil := List.map_eq_nil_iff.mp (List.append_eq_nil_iff.mp hself).1
      exact (hne hnil).elim
  | some p =>
      obtain ⟨expected, txn⟩ := p
      rw [hw] at hself
      refine ⟨expected, txn, rfl, ?_⟩
      have hfound : ((entries txn).filter fun entry =>
          (remoteEntry result.keyEntries entry.key).isSome) =
            (entries txn).filter fun entry => entry.key ∈ result.keyEntries.map KeyEntry.key :=
        List.filter_congr fun entry _ => by
          rw [Bool.eq_iff_iff, remoteEntry_isSome, decide_eq_true_eq]
      rw [hfound, hself.expected, length_filter_append hself.nodup]
      omega

/-- What an answer does to the transactions that wait. -/
theorem Held.lookupResult {result : LookupMasterResultEntry} {completed : List TxnProto}
    (hheld : Held looked clients w fun id => answered id [result] ++ out id)
    (hw : WriterInv replica w fun id => answered id [result] ++ out id)
    (hk : ∀ entry ∈ result.keyEntries, (result.txnId, entry) ∈ looked)
    (h : lookupResult w result = some (w', completed)) :
    Held looked clients w' out ∧ Completes looked clients w w' completed := by
  simp only [SequencerWriter.lookupResult, Option.map_eq_some_iff, Prod.exists] at h
  obtain ⟨expected, txn, hpending, h⟩ := h
  have hself := hw result.txnId
  rw [hpending] at hself
  obtain ⟨-, client, hclient, hid, hfilling⟩ := hheld.waiting _ _ _ hpending
  have hkeys : answered result.txnId [result] = result.keyEntries.map KeyEntry.key := by
    simp [answered]
  simp only [hkeys] at hself hfilling
  have hdisjoint : ∀ key ∈ result.keyEntries.map KeyEntry.key, key ∉ out result.txnId :=
    fun key hkey hout => (List.nodup_append.mp hself.nodup).2.2 key hkey key hout rfl
  have hfill := hfilling.answer hdisjoint fun entry he => hid ▸ hk entry he
  have hwait := hself.answer
  have hothers : ∀ id, id ≠ result.txnId → (answered id [result] ++ out id) = out id := by
    intro id hne
    simp [answered, Ne.symm hne]
  have htid : txn.txnId = result.txnId := hfilling.txnId.trans hid
  split at h
  · rename_i hzero
    simp only [Prod.mk.injEq] at h
    obtain ⟨rfl, rfl⟩ := h
    rw [hzero] at hwait
    refine ⟨hheld.set rfl rfl (fun id hne => (hothers id hne).symm) (fun _ => rfl)
        (fun _ _ h => by cases h),
      fun t ht => ?_, List.nodup_singleton _, fun id => ?_⟩
    · rw [List.mem_singleton.mp ht]
      refine ⟨?_, client, hclient, hfill.complete (fun entry _ => hwait.notMem entry.key)
        fun entry he => hwait.involved entry he (hwait.notMem entry.key)⟩
      show w.expectedMasterLookups txn.txnId ≠ none
      rw [htid, hpending]
      exact Option.some_ne_none _
    · show update w.expectedMasterLookups _ _ id = none ↔ _ ∨ id ∈ [txn.txnId]
      rw [List.mem_singleton, htid]
      by_cases hne : id = result.txnId
      · subst hne
        simp
      · simp [hne]
  · rename_i hpos
    simp only [Prod.mk.injEq] at h
    obtain ⟨rfl, rfl⟩ := h
    refine ⟨hheld.set rfl rfl (fun id hne => (hothers id hne).symm) (fun h => by cases h) ?_,
      fun _ ht => (List.not_mem_nil ht).elim, List.nodup_nil, fun id => ?_⟩
    · intro expected' txn' h
      cases h
      exact ⟨Nat.pos_of_ne_zero hpos, client, hclient, hid, hfill⟩
    · show update w.expectedMasterLookups _ _ id = none ↔ _ ∨ id ∈ []
      by_cases hne : id = result.txnId
      · subst hne
        simp [hpending]
      · simp [hne]

/-- A message of answers: every one finds its transaction. -/
theorem Held.lookupResults {results : List LookupMasterResultEntry}
    (hheld : Held looked clients w fun id => answered id results ++ out id)
    (hw : WriterInv replica w fun id => answered id results ++ out id)
    (hne : ∀ result ∈ results, result.keyEntries ≠ [])
    (hk : ∀ result ∈ results, ∀ entry ∈ result.keyEntries, (result.txnId, entry) ∈ looked) :
    ∃ w' completed, lookupResults w results = some (w', completed) ∧
      Held looked clients w' out ∧ Completes looked clients w w' completed := by
  induction results generalizing w with
  | nil =>
      refine ⟨w, [], rfl, hheld, fun _ ht => (List.not_mem_nil ht).elim, List.nodup_nil, ?_⟩
      intro id
      simp
  | cons result rest ih =>
      have hcons : ∀ id, answered id (result :: rest) ++ out id =
          answered id [result] ++ (answered id rest ++ out id) := by
        intro id
        simp [answered]
      simp only [hcons] at hheld hw
      obtain ⟨expected, txn, hpending, -⟩ := lookupResult_exact hw (hne _ List.mem_cons_self)
      obtain ⟨⟨w₁, first⟩, h₁⟩ : ∃ p, SequencerWriter.lookupResult w result = some p := by
        rw [SequencerWriter.lookupResult, hpending]
        exact ⟨_, rfl⟩
      obtain ⟨hheld₁, hc₁⟩ := hheld.lookupResult hw (hk _ List.mem_cons_self) h₁
      obtain ⟨hw₁, -⟩ := lookupResult_spec hw h₁
      obtain ⟨w₂, more, h₂, hheld₂, hc₂⟩ := ih hheld₁ hw₁
        (fun r hr => hne r (List.mem_cons_of_mem _ hr))
        fun r hr => hk r (List.mem_cons_of_mem _ hr)
      refine ⟨w₂, first ++ more, ?_, hheld₂, fun t ht => ?_, ?_, fun id => ?_⟩
      · simp only [SequencerWriter.lookupResults, h₁, h₂, Option.bind_some, Option.map_some]
      · rcases List.mem_append.mp ht with ht | ht
        · exact hc₁.filled t ht
        · obtain ⟨hwaits, hfilled⟩ := hc₂.filled t ht
          exact ⟨fun hnone => hwaits ((hc₁.gone _).mpr (.inl hnone)), hfilled⟩
      · rw [List.map_append]
        refine List.nodup_append.mpr ⟨hc₁.nodup, hc₂.nodup, fun id h1 id' h2 heq => ?_⟩
        -- what is completed once no longer waits
        subst heq
        obtain ⟨t, ht, rfl⟩ := List.mem_map.mp h2
        exact (hc₂.filled t ht).1 ((hc₁.gone _).mpr (.inr h1))
      · rw [hc₂.gone, hc₁.gone, List.map_append, List.mem_append, or_assoc]

/-! ### A new transaction -/

variable {cfg : ClusterConfig} {txn : TxnProto} {answers : Nat → Nat × Nat}

theorem map_readMasters_key (es : List KeyEntry) :
    (readMasters cfg answers es).map KeyEntry.key = es.map KeyEntry.key := by
  refine List.ext_getElem? fun i => ?_
  rw [readMasters, List.getElem?_map, List.getElem?_mapIdx, List.getElem?_map, Option.map_map]
  cases es[i]? with
  | none => rfl
  | some entry =>
      show some (KeyEntry.key (if cfg.isLocal entry.key then _ else entry)) = some entry.key
      split <;> rfl

/-- The entries of a new transaction whose masters are looked up elsewhere. -/
def remoteEntries (cfg : ClusterConfig) (answers : Nat → Nat × Nat) (txn : TxnProto) :
    List KeyEntry :=
  (entries (localMasters cfg answers txn)).filter fun entry => ¬ cfg.isLocal entry.key

theorem getTxn_requests (w : Writer) (answers : Nat → Nat × Nat) :
    (getTxn cfg w txn answers).1.lookupMasterBatch = w.lookupMasterBatch ++
      lookupRequests cfg txn.txnId (remoteEntries cfg answers txn) := by
  unfold getTxn
  dsimp only
  split
  · rename_i hnil
    show w.lookupMasterBatch = _
    rw [remoteEntries, List.length_eq_zero_iff.mp hnil]
    exact (List.append_nil _).symm
  · rfl

/-- A new transaction waits for the keys it asks for, or is complete. -/
theorem Held.getTxn (h : Held looked clients w out) (hw : WriterInv cfg.localReplicaId w out)
    (hnew : w.expectedMasterLookups txn.txnId = none) (hfresh : txn.involvedReplicas = [])
    (hlooked : ∀ entry ∈ entries (localMasters cfg answers txn), cfg.isLocal entry.key = true →
      (txn.txnId, entry) ∈ looked) :
    Held looked (clients ++ [txn]) (getTxn cfg w txn answers).1
        (fun id => out id ++
          asked id ((lookupRequests cfg txn.txnId (remoteEntries cfg answers txn)).map Prod.snd)) ∧
      (∀ t ∈ (getTxn cfg w txn answers).2, Filled looked txn t) ∧
      ((getTxn cfg w txn answers).2.map TxnProto.txnId).Nodup ∧
      ∀ id, (getTxn cfg w txn answers).1.expectedMasterLookups id = none ↔
        w.expectedMasterLookups id = none ∧
          (id = txn.txnId → id ∈ (getTxn cfg w txn answers).2.map TxnProto.txnId) := by
  have hempty : w.involvedReplicas txn.txnId = [] := h.idle _ hnew
  have hout : out txn.txnId = [] := by
    have hself := hw txn.txnId
    rw [hnew] at hself
    exact hself
  -- the local entries are filled in, the others are asked for
  have hfill : Filling looked txn (localMasters cfg answers txn)
      (w.involvedReplicas txn.txnId ∪
        (((entries (localMasters cfg answers txn)).filter fun entry =>
          cfg.isLocal entry.key).map KeyEntry.master).dedup)
      (out txn.txnId ++ asked txn.txnId
        ((lookupRequests cfg txn.txnId (remoteEntries cfg answers txn)).map Prod.snd)) := by
    have hmem : ∀ entry ∈ entries (localMasters cfg answers txn), entry.key ∉ out txn.txnId ++
        asked txn.txnId ((lookupRequests cfg txn.txnId (remoteEntries cfg answers txn)).map
          Prod.snd) ↔ cfg.isLocal entry.key = true := by
      intro entry he
      rw [hout, List.nil_append, remoteEntries, mem_asked_remote he, not_not]
    refine ⟨rfl, map_readMasters_key _, map_readMasters_key _, hfresh, fun entry he hkey => ?_,
      (List.nodup_dedup _).union _, fun r hr => ?_⟩
    · exact hlooked entry he ((hmem entry he).mp hkey)
    · rw [hempty, List.nil_union] at hr
      obtain ⟨entry, he, rfl⟩ := List.mem_map.mp (List.mem_dedup.mp hr)
      obtain ⟨he, hlocal⟩ := List.mem_filter.mp he
      exact ⟨entry, he, (hmem entry he).mpr hlocal, rfl⟩
  obtain ⟨requests, hrequests, -, hwriter, -⟩ := getTxn_spec cfg hw hnew answers
  have hsame := List.append_cancel_left (hrequests.symm.trans (getTxn_requests w answers))
  subst hsame
  have hothers : ∀ id, id ≠ txn.txnId → out id ++ asked id
      ((lookupRequests cfg txn.txnId (remoteEntries cfg answers txn)).map Prod.snd) = out id := by
    intro id hne
    rw [asked_lookupRequests_of_ne hne, List.append_nil]
  have hheld := h.mono (fun _ h => h) (List.subset_append_left clients [txn]) rfl rfl
    fun _ _ => Iff.rfl
  have hclient : txn ∈ clients ++ [txn] := List.mem_append_right _ List.mem_cons_self
  unfold SequencerWriter.getTxn
  dsimp only
  split
  · rename_i hnil
    have hlocal : ∀ entry ∈ entries (localMasters cfg answers txn), entry.key ∉ out txn.txnId ++
        asked txn.txnId ((lookupRequests cfg txn.txnId (remoteEntries cfg answers txn)).map
          Prod.snd) := by
      intro entry he
      rw [hout, remoteEntries, List.length_eq_zero_iff.mp hnil]
      exact List.not_mem_nil
    have hdone := hfill.complete hlocal fun entry he => by
      refine List.mem_union_iff.mpr (.inr (List.mem_dedup.mpr (List.mem_map_of_mem ?_)))
      refine List.mem_filter.mpr ⟨he, ?_⟩
      by_contra hl
      have hmem : entry ∈ remoteEntries cfg answers txn :=
        List.mem_filter.mpr ⟨he, by simpa using hl⟩
      rw [remoteEntries, List.length_eq_zero_iff.mp hnil] at hmem
      cases hmem
    have hsame : w.expectedMasterLookups = update w.expectedMasterLookups txn.txnId none :=
      (update_eq_self_iff.mpr hnew.symm).symm
    refine ⟨hheld.set hsame rfl hothers (fun _ => rfl) (fun _ _ h => by cases h),
      fun t ht => ?_, List.nodup_singleton _, fun id => ?_⟩
    · rw [List.mem_singleton.mp ht]
      exact hdone
    · show w.expectedMasterLookups id = none ↔ w.expectedMasterLookups id = none ∧
        (id = txn.txnId → id ∈ [txn.txnId])
      simp
  · rename_i hsome
    refine ⟨hheld.set rfl rfl hothers (fun h => by cases h) ?_,
      fun _ ht => (List.not_mem_nil ht).elim, List.nodup_nil, fun id => ?_⟩
    · intro expected txn' h
      cases h
      exact ⟨Nat.pos_of_ne_zero hsome, txn, hclient, rfl, hfill⟩
    · show update w.expectedMasterLookups txn.txnId _ id = none ↔
        w.expectedMasterLookups id = none ∧ (id = txn.txnId → id ∈ [])
      by_cases hne : id = txn.txnId
      · subst hne
        simp
      · simp [hne]

end

end Calvin.SequencerWriter
