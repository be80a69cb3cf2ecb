import Calvin.Machine.FilledTransactions

/-!
# Every client transaction is routed once

`RunWriter` counts the entries of a transaction down while the masters of its
keys come in, message by message, and routes it when none is left.

* `Tracked`: the nodes with what has been accepted, looked up, asked and routed;
* `Routing`: what has been accepted waits or has been routed;
* `routed_once`: for clients with distinct ids the countdown is exact, and what
  is routed is complete.
-/

namespace Calvin.SequencerWriter

open Function Lib

/-! ## What has happened -/

/-- All nodes, and what they have done for the transactions of clients. -/
structure Tracked where
  seq : Sequencers := {}
  /-- The transactions `GetTxn` has returned, with the nodes. -/
  accepted : List (Nat × TxnProto) := []
  /-- The answers of `GetMasterCounter`, with the ids of the transactions. -/
  looked : List (Nat × KeyEntry) := []
  /-- The partitions that have been asked, with the ids of the transactions. -/
  asks : List (Nat × Nat) := []
  /-- The transactions in a batch or sent on. -/
  routed : List TxnProto := []

/-- The partitions to be asked in the next requests of a node. -/
def requested (s : Sequencers) (n : Nat) : List (Nat × Nat) :=
  (s.writers n).lookupMasterBatch.map fun p => (p.2.txnId, p.1)

/-- What a node adds to its batch and sends on. -/
def routedBy (n : Nat) (s s' : Sequencers) : List TxnProto :=
  (s'.writers n).batchMessage.drop (s.writers n).batchMessage.length ++
    (s'.forwords.drop s.forwords.length).map Prod.snd

section

variable (cfg : ClusterConfig) (maxBatchSize : Nat)

def accepts : Event → List (Nat × TxnProto)
  | .getTxn n txn _ _ => [(n, txn)]
  | _ => []

def looks (s : Sequencers) : Event → List (Nat × KeyEntry)
  | .getTxn n txn answers _ =>
      ((entries (localMasters (nodeConfig cfg n) answers txn)).filter fun entry =>
        (nodeConfig cfg n).isLocal entry.key).map fun entry => (txn.txnId, entry)
  | .answer i getMasterCounter =>
      (s.lookups[i]?.map fun lookup =>
        (answerLookup getMasterCounter lookup).data.flatMap fun result =>
          result.keyEntries.map fun entry => (result.txnId, entry)).getD []
  | _ => []

def asksFor (s : Sequencers) : Event → List (Nat × Nat)
  | .sendLookups n mds => (requested s n).filter fun p => p.2 = mds
  | _ => []

def routes (s s' : Sequencers) : Event → List TxnProto
  | .getTxn n _ _ _ => routedBy n s s'
  | .gotResult i _ => (s.results[i]?.map fun m => routedBy m.destinationNode s s').getD []
  | _ => []

def track (t : Tracked) (e : Event) (s' : Sequencers) : Tracked where
  seq := s'
  accepted := t.accepted ++ accepts e
  looked := t.looked ++ looks cfg t.seq e
  asks := t.asks ++ asksFor t.seq e
  routed := t.routed ++ routes t.seq s' e

def tracked : Machine Tracked Event where
  init := {}
  next t e := (next cfg maxBatchSize t.seq e).map (track cfg t e)

end

/-- `GetTxn` returns a transaction with an id of its own and no replicas. -/
def NewClient (t : Tracked) : Event → Prop
  | .getTxn _ txn _ _ => txn.involvedReplicas = [] ∧ ∀ p ∈ t.accepted, p.2.txnId ≠ txn.txnId
  | _ => True

instance (t : Tracked) (e : Event) : Decidable (NewClient t e) :=
  match e with
  | .getTxn _ _ _ _ => inferInstanceAs (Decidable (_ ∧ _))
  | .sendLookups _ _ | .answer _ _ | .gotResult _ _ | .schedulerForword _ _ | .gotForword _
  | .sendBatch _ => isTrue trivial

/-! ## Routing -/

/-- The transactions a node has taken from its client. -/
def clientsOf (accepted : List (Nat × TxnProto)) (n : Nat) : List TxnProto :=
  (accepted.filter fun p => p.1 = n).map Prod.snd

/-- What is routed has been accepted and filled, and no longer waits; everything
else accepted waits. -/
structure Routing (looked : List (Nat × KeyEntry)) (accepted : List (Nat × TxnProto))
    (routed : List TxnProto) (s : Sequencers) : Prop where
  distinct : (accepted.map fun p => p.2.txnId).Nodup
  held : ∀ n, Held looked (clientsOf accepted n) (s.writers n) (underWay s n)
  once : (routed.map TxnProto.txnId).Nodup
  filled : ∀ txn ∈ routed, ∃ p ∈ accepted, Filled looked p.2 txn ∧
    (s.writers p.1).expectedMasterLookups txn.txnId = none
  done : ∀ p ∈ accepted, (s.writers p.1).expectedMasterLookups p.2.txnId = none →
    p.2.txnId ∈ routed.map TxnProto.txnId

section

variable {looked looked' : List (Nat × KeyEntry)} {accepted : List (Nat × TxnProto)}
  {routed completed added new : List TxnProto} {s s' : Sequencers} {n : Nat} {cfg : ClusterConfig}

theorem mem_clientsOf {client : TxnProto} :
    client ∈ clientsOf accepted n ↔ (n, client) ∈ accepted := by
  simp [clientsOf]

/-- A node takes transactions from its client, and completes some. -/
theorem Routing.at_node (h : Routing looked accepted routed s) (hl : looked ⊆ looked')
    (hothers : ∀ m, m ≠ n →
      (s'.writers m).expectedMasterLookups = (s.writers m).expectedMasterLookups ∧
      (s'.writers m).involvedReplicas = (s.writers m).involvedReplicas ∧
      ∀ id key, key ∈ underWay s' m id ↔ key ∈ underWay s m id)
    (hdistinct : ((accepted ++ new.map fun txn => (n, txn)).map fun p => p.2.txnId).Nodup)
    (hheld : Held looked' (clientsOf (accepted ++ new.map fun txn => (n, txn)) n) (s'.writers n)
      (underWay s' n))
    (hfilled : ∀ txn ∈ completed,
      ∃ client, (n, client) ∈ accepted ++ new.map (fun txn => (n, txn)) ∧ Filled looked' client txn)
    (hwaits : ∀ txn ∈ completed, (s.writers n).expectedMasterLookups txn.txnId = none →
      txn.txnId ∈ new.map TxnProto.txnId)
    (hnodup : (completed.map TxnProto.txnId).Nodup)
    (hgone : ∀ id, (s'.writers n).expectedMasterLookups id = none ↔
      ((s.writers n).expectedMasterLookups id = none ∨ id ∈ completed.map TxnProto.txnId) ∧
        (id ∈ new.map TxnProto.txnId → id ∈ completed.map TxnProto.txnId))
    (hadded : added.Perm completed) :
    Routing looked' (accepted ++ new.map fun txn => (n, txn)) (routed ++ added) s' := by
  have hids : ∀ id, id ∈ added.map TxnProto.txnId ↔ id ∈ completed.map TxnProto.txnId :=
    fun id => (hadded.map _).mem_iff
  -- an accepted id is not new
  have hold : ∀ p ∈ accepted, p.2.txnId ∉ new.map TxnProto.txnId := by
    intro p hp hmem
    obtain ⟨txn, htxn, heq⟩ := List.mem_map.mp hmem
    rw [List.map_append] at hdistinct
    refine (List.nodup_append.mp hdistinct).2.2 p.2.txnId (List.mem_map_of_mem hp) txn.txnId
      ?_ heq.symm
    exact List.mem_map_of_mem (f := fun p : Nat × TxnProto => p.2.txnId)
      (List.mem_map_of_mem (f := fun txn => (n, txn)) htxn)
  refine ⟨hdistinct, fun m => ?_, ?_, fun txn htxn => ?_, fun p hp hnone => ?_⟩
  · by_cases hm : m = n
    · subst hm
      exact hheld
    · obtain ⟨hexpected, hinvolved, hout⟩ := hothers m hm
      refine (h.held m).mono hl (fun client hc => ?_) hexpected hinvolved hout
      exact mem_clientsOf.mpr (List.mem_append_left _ (mem_clientsOf.mp hc))
  · rw [List.map_append]
    refine List.nodup_append.mpr ⟨h.once, (hadded.map _).nodup_iff.mpr hnodup, ?_⟩
    intro id hrouted id' hcompleted heq
    subst heq
    obtain ⟨txn, htxn, rfl⟩ := List.mem_map.mp hrouted
    obtain ⟨other, hother, hsame⟩ := List.mem_map.mp ((hids _).mp hcompleted)
    obtain ⟨p, hp, hf, hnone⟩ := h.filled txn htxn
    obtain ⟨client, hclient, hf'⟩ := hfilled other hother
    -- the two are one transaction of this node, and it is not new
    have hpeq : p = (n, client) := by
      refine List.inj_on_of_nodup_map hdistinct (List.mem_append_left _ hp) hclient ?_
      show p.2.txnId = client.txnId
      rw [← hf.txnId, ← hf'.txnId, hsame]
    rw [hpeq, ← hsame] at hnone
    refine hold p hp ?_
    rw [← hf.txnId, ← hsame]
    exact hwaits other hother hnone
  · rcases List.mem_append.mp htxn with htxn | htxn
    · obtain ⟨p, hp, hf, hnone⟩ := h.filled txn htxn
      refine ⟨p, List.mem_append_left _ hp, hf.mono hl, ?_⟩
      by_cases hm : p.1 = n
      · rw [hm, hgone]
        rw [hm] at hnone
        refine ⟨.inl hnone, fun hmem => (hold p hp ?_).elim⟩
        rwa [← hf.txnId]
      · rw [(hothers p.1 hm).1]
        exact hnone
    · have hmem := hadded.mem_iff.mp htxn
      obtain ⟨client, hclient, hf⟩ := hfilled txn hmem
      have hid := List.mem_map_of_mem (f := TxnProto.txnId) hmem
      exact ⟨_, hclient, hf, (hgone _).mpr ⟨.inr hid, fun _ => hid⟩⟩
  · rw [List.map_append, List.mem_append, hids]
    rcases List.mem_append.mp hp with hp | hp
    · by_cases hm : p.1 = n
      · rw [hm, hgone] at hnone
        rcases hnone.1 with hnone | hmem
        · exact .inl (h.done p hp (hm ▸ hnone))
        · exact .inr hmem
      · rw [(hothers p.1 hm).1] at hnone
        exact .inl (h.done p hp hnone)
    · obtain ⟨txn, htxn, rfl⟩ := List.mem_map.mp hp
      exact .inr (((hgone _).mp hnone).2 (List.mem_map_of_mem htxn))

/-- A step that completes nothing and keeps the keys under way. -/
theorem Routing.frame (h : Routing looked accepted routed s) (hl : looked ⊆ looked')
    (hexpected : ∀ m, (s'.writers m).expectedMasterLookups = (s.writers m).expectedMasterLookups)
    (hinvolved : ∀ m, (s'.writers m).involvedReplicas = (s.writers m).involvedReplicas)
    (hout : ∀ m id key, key ∈ underWay s' m id ↔ key ∈ underWay s m id) :
    Routing looked' accepted routed s' := by
  have hnil : accepted ++ ([] : List TxnProto).map (fun txn => (0, txn)) = accepted :=
    List.append_nil _
  have hstep : Routing looked' (accepted ++ ([] : List TxnProto).map fun txn => (0, txn))
      (routed ++ []) s' := by
    refine h.at_node hl (fun m _ => ⟨hexpected m, hinvolved m, hout m⟩) ?_ ?_ ?_ ?_ ?_ ?_
      (List.Perm.refl [])
    · rw [hnil]
      exact h.distinct
    · rw [hnil]
      exact (h.held 0).mono hl (fun _ hc => hc) (hexpected 0) (hinvolved 0) (hout 0)
    · exact fun _ ht => (List.not_mem_nil ht).elim
    · exact fun _ ht => (List.not_mem_nil ht).elim
    · exact List.nodup_nil
    · intro id
      rw [hexpected 0]
      simp
  rwa [hnil, List.append_nil] at hstep

end

/-! ## Messages -/

/-- Every request is for some key, and every answer has been looked up. -/
structure Asked (looked : List (Nat × KeyEntry)) (s : Sequencers) : Prop where
  requests : ∀ n, ∀ p ∈ (s.writers n).lookupMasterBatch, p.2.keys ≠ []
  lookups : ∀ m ∈ s.lookups, ∀ request ∈ m.data, request.keys ≠ []
  results : ∀ m ∈ s.results, ∀ result ∈ m.data, result.keyEntries ≠ [] ∧
    ∀ entry ∈ result.keyEntries, (result.txnId, entry) ∈ looked

/-- Every partition is asked, or about to be asked, once for a transaction. -/
structure AskedOnce (accepted : List (Nat × TxnProto)) (asks : List (Nat × Nat))
    (s : Sequencers) : Prop where
  once : ∀ n, (asks ++ requested s n).Nodup
  sent : ∀ p ∈ asks, ∃ q ∈ accepted, q.2.txnId = p.1
  unsent : ∀ n, ∀ p ∈ requested s n, ∃ client, (n, client) ∈ accepted ∧ client.txnId = p.1

section

variable {looked looked' : List (Nat × KeyEntry)} {accepted : List (Nat × TxnProto)}
  {asks : List (Nat × Nat)} {s s' : Sequencers} {n : Nat} {cfg : ClusterConfig} {txn : TxnProto}

theorem Asked.same (h : Asked looked s) (hs : SameLookups s s') : Asked looked s' where
  requests m := by
    rw [hs.requests m]
    exact h.requests m
  lookups := by
    rw [hs.lookups]
    exact h.lookups
  results := by
    rw [hs.results]
    exact h.results

theorem Asked.mono (h : Asked looked s) (hl : looked ⊆ looked') : Asked looked' s :=
  { h with
    results := fun m hm result hr =>
      ⟨(h.results m hm result hr).1, fun entry he => hl ((h.results m hm result hr).2 entry he)⟩ }

theorem requested_same (hs : SameLookups s s') (n : Nat) : requested s' n = requested s n := by
  rw [requested, requested, hs.requests n]

theorem AskedOnce.same (h : AskedOnce accepted asks s)
    (hr : ∀ n, requested s' n = requested s n) : AskedOnce accepted asks s' where
  once m := by
    rw [hr]
    exact h.once m
  sent := h.sent
  unsent m := by
    rw [hr]
    exact h.unsent m

/-- The requests for a transaction are for different partitions, each for some key. -/
theorem lookupRequests_keys {id : Nat} {remote : List KeyEntry} :
    ((lookupRequests cfg id remote).map fun p => (p.2.txnId, p.1)).Nodup ∧
      ∀ p ∈ lookupRequests cfg id remote, p.2.txnId = id ∧ p.2.keys ≠ [] := by
  have hsorted : ((remote.map fun entry => cfg.lookupPartition entry.key).dedup.insertionSort
      (· ≤ ·)).Nodup :=
    (List.perm_insertionSort _ _).nodup_iff.mpr (List.nodup_dedup _)
  constructor
  · rw [lookupRequests, List.map_map]
    exact hsorted.map fun a b heq => (Prod.mk.inj heq).2
  · intro p hp
    obtain ⟨mds, hmds, rfl⟩ := List.mem_map.mp hp
    refine ⟨rfl, fun hnil => ?_⟩
    rw [List.mem_insertionSort, List.mem_dedup, List.mem_map] at hmds
    obtain ⟨entry, he, hmds⟩ := hmds
    have hmem : entry.key ∈ remoteKeys cfg remote mds :=
      mem_remoteKeys.mpr ⟨hmds, List.mem_map_of_mem he⟩
    rw [show remoteKeys cfg remote mds = [] from hnil] at hmem
    cases hmem

theorem Asked.newTxn (h : Asked looked s) (answers : Nat → Nat × Nat) :
    Asked looked (setWriter s n (getTxn (nodeConfig cfg n) (s.writers n) txn answers).1) := by
  refine ⟨fun m p hp => ?_, h.lookups, h.results⟩
  by_cases hm : m = n
  · subst hm
    rw [setWriter_writers_self, getTxn_requests, List.mem_append] at hp
    rcases hp with hp | hp
    · exact h.requests m p hp
    · exact (lookupRequests_keys.2 p hp).2
  · rw [setWriter_writers_of_ne _ hm] at hp
    exact h.requests m p hp

theorem AskedOnce.newTxn (h : AskedOnce accepted asks s) (answers : Nat → Nat × Nat)
    (hnew : ∀ p ∈ accepted, p.2.txnId ≠ txn.txnId) :
    AskedOnce (accepted ++ [(n, txn)]) asks
      (setWriter s n (getTxn (nodeConfig cfg n) (s.writers n) txn answers).1) := by
  have hmore : requested (setWriter s n (getTxn (nodeConfig cfg n) (s.writers n) txn answers).1) n =
      requested s n ++ (lookupRequests (nodeConfig cfg n) txn.txnId
        (remoteEntries (nodeConfig cfg n) answers txn)).map fun p => (p.2.txnId, p.1) := by
    rw [requested, setWriter_writers_self, getTxn_requests, List.map_append]
    rfl
  have hother : ∀ m, m ≠ n → requested
        (setWriter s n (getTxn (nodeConfig cfg n) (s.writers n) txn answers).1) m =
      requested s m := by
    intro m hm
    rw [requested, setWriter_writers_of_ne _ hm]
    rfl
  refine ⟨fun m => ?_, fun p hp => ?_, fun m p hp => ?_⟩
  · by_cases hm : m = n
    · subst hm
      rw [hmore, ← List.append_assoc]
      refine List.nodup_append.mpr ⟨h.once m, lookupRequests_keys.1, ?_⟩
      -- what has been asked is for other transactions
      intro p hp q hq heq
      subst heq
      obtain ⟨request, hrequest, rfl⟩ := List.mem_map.mp hq
      have hid := (lookupRequests_keys.2 request hrequest).1
      rcases List.mem_append.mp hp with hp | hp
      · obtain ⟨old, hold, heq⟩ := h.sent _ hp
        exact hnew old hold (heq.trans hid)
      · obtain ⟨client, hclient, heq⟩ := h.unsent m _ hp
        exact hnew _ hclient (heq.trans hid)
    · rw [hother m hm]
      exact h.once m
  · obtain ⟨q, hq, heq⟩ := h.sent p hp
    exact ⟨q, List.mem_append_left _ hq, heq⟩
  · by_cases hm : m = n
    · subst hm
      rw [hmore] at hp
      rcases List.mem_append.mp hp with hp | hp
      · obtain ⟨client, hclient, heq⟩ := h.unsent m p hp
        exact ⟨client, List.mem_append_left _ hclient, heq⟩
      · obtain ⟨request, hrequest, rfl⟩ := List.mem_map.mp hp
        exact ⟨txn, List.mem_append_right _ List.mem_cons_self,
          (lookupRequests_keys.2 request hrequest).1.symm⟩
    · rw [hother m hm] at hp
      obtain ⟨client, hclient, heq⟩ := h.unsent m p hp
      exact ⟨client, List.mem_append_left _ hclient, heq⟩

theorem Asked.send (h : Asked looked s) (mds : Nat) :
    Asked looked (sendLookups cfg s n mds) := by
  refine ⟨fun m p hp => ?_, fun m hm request hr => ?_, h.results⟩
  · by_cases hm : m = n
    · subst hm
      change p ∈ (update s.writers m _ m).lookupMasterBatch at hp
      rw [update_self] at hp
      exact h.requests m p (List.mem_of_mem_filter hp)
    · change p ∈ (update s.writers n _ m).lookupMasterBatch at hp
      rw [update_of_ne hm] at hp
      exact h.requests m p hp
  · rcases List.mem_append.mp hm with hm | hm
    · exact h.lookups m hm request hr
    · rw [List.mem_singleton.mp hm] at hr
      obtain ⟨p, hp, rfl⟩ := List.mem_map.mp hr
      exact h.requests n p (List.mem_of_mem_filter hp)

/-- The requests to a partition are no longer to be sent. -/
theorem requested_sendLookups (mds : Nat) :
    requested (sendLookups cfg s n mds) n = (requested s n).filter fun p => p.2 ≠ mds := by
  show ((update s.writers n _ n).lookupMasterBatch).map _ = _
  rw [update_self, requested, List.filter_map]
  rfl

theorem AskedOnce.send (h : AskedOnce accepted asks s)
    (hdistinct : (accepted.map fun p => p.2.txnId).Nodup) (mds : Nat) :
    AskedOnce accepted (asks ++ (requested s n).filter fun p => p.2 = mds)
      (sendLookups cfg s n mds) := by
  have hother : ∀ m, m ≠ n → requested (sendLookups cfg s n mds) m =
      requested s m := by
    intro m hm
    show ((update s.writers n _ m).lookupMasterBatch).map _ = _
    rw [update_of_ne hm]
    rfl
  have hpart : ((requested s n).filter fun p => p.2 = mds) ⊆ requested s n :=
    List.filter_sublist.subset
  refine ⟨fun m => ?_, fun p hp => ?_, fun m p hp => ?_⟩
  · by_cases hm : m = n
    · subst hm
      rw [requested_sendLookups, List.append_assoc]
      refine (List.Perm.append_left asks ?_).nodup_iff.mpr (h.once m)
      have hp := List.filter_append_perm (fun p : Nat × Nat => decide (p.2 = mds)) (requested s m)
      simpa using hp
    · -- requests of two nodes are for different transactions
      rw [hother m hm]
      obtain ⟨hasks, hrequested, hne⟩ := List.nodup_append.mp (h.once m)
      have hsent := (h.once n).sublist
        (List.Sublist.append_left (List.filter_sublist (p := fun p => decide (p.2 = mds))) asks)
      refine List.nodup_append.mpr ⟨hsent, hrequested, fun p hp q hq heq => ?_⟩
      rcases List.mem_append.mp hp with hp | hp
      · exact hne p hp q hq heq
      · subst heq
        obtain ⟨client, hclient, hid⟩ := h.unsent n p (hpart hp)
        obtain ⟨client', hclient', hid'⟩ := h.unsent m p hq
        have heq := List.inj_on_of_nodup_map hdistinct hclient hclient' (hid.trans hid'.symm)
        exact hm (Prod.mk.inj heq).1.symm
  · rcases List.mem_append.mp hp with hp | hp
    · exact h.sent p hp
    · obtain ⟨client, hclient, hid⟩ := h.unsent n p (hpart hp)
      exact ⟨_, hclient, hid⟩
  · by_cases hm : m = n
    · subst hm
      rw [requested_sendLookups] at hp
      exact h.unsent m p (List.mem_of_mem_filter hp)
    · rw [hother m hm] at hp
      exact h.unsent m p hp

/-- An answer to a request: for the same keys. -/
theorem Asked.answer (h : Asked looked s) {i : Nat} {lookup : MasterLookup}
    (hlookup : s.lookups[i]? = some lookup) (getMasterCounter : Nat → Key → Nat × Nat) :
    Asked (looked ++ (answerLookup getMasterCounter lookup).data.flatMap fun result =>
        result.keyEntries.map fun entry => (result.txnId, entry))
      { s with
        lookups := s.lookups.eraseIdx i
        results := s.results ++ [answerLookup getMasterCounter lookup] } := by
  refine ⟨h.requests, fun m hm => h.lookups m (List.mem_of_mem_eraseIdx hm),
    fun m hm result hr => ?_⟩
  rcases List.mem_append.mp hm with hm | hm
  · obtain ⟨hne, hlooked⟩ := h.results m hm result hr
    exact ⟨hne, fun entry he => List.mem_append_left _ (hlooked entry he)⟩
  · rw [List.mem_singleton] at hm
    subst hm
    constructor
    · obtain ⟨j, hj, rfl⟩ := List.mem_mapIdx.mp hr
      intro hnil
      exact h.lookups lookup (List.mem_of_getElem? hlookup) _ (List.getElem_mem hj)
        (List.map_eq_nil_iff.mp hnil)
    · intro entry he
      refine List.mem_append_right _ (List.mem_flatMap.mpr ⟨result, hr, ?_⟩)
      exact List.mem_map_of_mem he

end

/-! ## Steps -/

section

variable {cfg : ClusterConfig} {maxBatchSize : Nat} {s s₀ s' : Sequencers} {n : Nat}

/-- Every completed transaction goes to the batch or is sent on. -/
theorem dispatch_adds (cfg : ClusterConfig) (n : Nat) (random : Nat → Nat)
    (completed : List TxnProto) (s : Sequencers) :
    ∃ batched sent,
      ((dispatch cfg s n random completed).writers n).batchMessage =
        (s.writers n).batchMessage ++ batched ∧
      (dispatch cfg s n random completed).forwords = s.forwords ++ sent ∧
      (batched ++ sent.map Prod.snd).Perm completed := by
  induction completed generalizing s with
  | nil => exact ⟨[], [], (List.append_nil _).symm, (List.append_nil _).symm, List.Perm.refl _⟩
  | cons txn rest ih =>
      rw [dispatch]
      cases route (nodeConfig cfg n) (random rest.length) txn with
      | none =>
          obtain ⟨batched, sent, hb, hs, hp⟩ := ih (addToBatch s n txn)
          refine ⟨txn :: batched, sent, ?_, hs, hp.cons txn⟩
          refine hb.trans ?_
          rw [addToBatch, setWriter_writers_self, List.append_assoc, List.singleton_append]
      | some destination =>
          obtain ⟨batched, sent, hb, hs, hp⟩ := ih (forword s destination txn)
          refine ⟨batched, (destination, txn) :: sent, hb, ?_, ?_⟩
          · refine hs.trans ?_
            rw [forword, List.append_assoc, List.singleton_append]
          · exact List.perm_middle.trans (hp.cons txn)

theorem routedBy_dispatch {random : Nat → Nat} {completed : List TxnProto}
    (hb : (s.writers n).batchMessage = (s₀.writers n).batchMessage)
    (hf : s.forwords = s₀.forwords) :
    (routedBy n s₀ (dispatch cfg s n random completed)).Perm completed := by
  obtain ⟨batched, sent, hbatched, hsent, hp⟩ := dispatch_adds cfg n random completed s
  rw [routedBy, hbatched, hsent, hb, hf, List.drop_left, List.drop_left]
  exact hp

/-- The nodes, as they are related to what has happened. -/
structure Tracking (cfg : ClusterConfig) (t : Tracked) : Prop where
  counted : Counted cfg t.seq
  asked : Asked t.looked t.seq
  once : AskedOnce t.accepted t.asks t.seq
  routing : Routing t.looked t.accepted t.routed t.seq

theorem tracking_init (cfg : ClusterConfig) : Tracking cfg {} where
  counted _ _ := rfl
  asked := ⟨fun _ _ h => (List.not_mem_nil h).elim, fun _ h => (List.not_mem_nil h).elim,
    fun _ h => (List.not_mem_nil h).elim⟩
  once := ⟨fun _ => List.nodup_nil, fun _ h => (List.not_mem_nil h).elim,
    fun _ _ h => (List.not_mem_nil h).elim⟩
  routing :=
    ⟨List.nodup_nil, fun _ => ⟨fun _ _ _ h => (by cases h), fun _ _ => rfl⟩, List.nodup_nil,
    fun _ h => (List.not_mem_nil h).elim, fun _ h => (List.not_mem_nil h).elim⟩

/-- A new id is not waited under. -/
theorem Routing.notWaiting {looked : List (Nat × KeyEntry)} {accepted : List (Nat × TxnProto)}
    {routed : List TxnProto} {id : Nat} (h : Routing looked accepted routed s)
    (hnew : ∀ p ∈ accepted, p.2.txnId ≠ id) : (s.writers n).expectedMasterLookups id = none := by
  cases hw : (s.writers n).expectedMasterLookups id with
  | none => rfl
  | some p =>
      obtain ⟨-, client, hclient, hid, -⟩ := (h.held n).waiting id p.1 p.2 hw
      exact (hnew _ (mem_clientsOf.mp hclient) hid).elim

theorem Routing.newTxn {looked looked' : List (Nat × KeyEntry)} {accepted : List (Nat × TxnProto)}
    {routed added : List TxnProto} {txn : TxnProto} {answers : Nat → Nat × Nat}
    (h : Routing looked accepted routed s) (hcounted : Counted cfg s) (hl : looked ⊆ looked')
    (hfresh : txn.involvedReplicas = []) (hnew : ∀ p ∈ accepted, p.2.txnId ≠ txn.txnId)
    (hlooked : ∀ entry ∈ entries (localMasters (nodeConfig cfg n) answers txn),
      (nodeConfig cfg n).isLocal entry.key = true → (txn.txnId, entry) ∈ looked')
    (hs : SameLookups (setWriter s n (getTxn (nodeConfig cfg n) (s.writers n) txn answers).1) s')
    (hadded : added.Perm (getTxn (nodeConfig cfg n) (s.writers n) txn answers).2) :
    Routing looked' (accepted ++ [(n, txn)]) (routed ++ added) s' := by
  have hnone := h.notWaiting (n := n) hnew
  have hheld₀ : Held looked' (clientsOf accepted n) (s.writers n) (underWay s n) :=
    (h.held n).mono hl (fun _ hc => hc) rfl rfl fun _ _ => Iff.rfl
  obtain ⟨hheld, hfilled, hnodup, hgone⟩ := hheld₀.getTxn (hcounted n) hnone hfresh hlooked
  have hids : ∀ id ∈ (getTxn (nodeConfig cfg n) (s.writers n) txn answers).2.map TxnProto.txnId,
      id = txn.txnId := by
    intro id hid
    obtain ⟨t, ht, rfl⟩ := List.mem_map.mp hid
    exact (hfilled t ht).txnId
  show Routing looked' (accepted ++ [txn].map fun txn => (n, txn)) (routed ++ added) s'
  refine h.at_node hl (fun m hm => ⟨?_, ?_, fun id key => ?_⟩) ?_ ?_
    (fun t ht => ?_) (fun t ht _ => ?_) hnodup (fun id => ?_) hadded
  · rw [hs.expected m, setWriter_writers_of_ne _ hm]
  · rw [hs.involved m, setWriter_writers_of_ne _ hm]
  · rw [hs.underWay m, underWay_setWriter_of_ne hm]
  · show ((accepted ++ [(n, txn)]).map fun p => p.2.txnId).Nodup
    rw [List.map_append]
    refine List.nodup_append.mpr ⟨h.distinct, List.nodup_singleton _, fun id hid id' hid' heq => ?_⟩
    obtain ⟨p, hp, rfl⟩ := List.mem_map.mp hid
    exact hnew p hp (heq.trans (List.mem_singleton.mp hid'))
  · refine hheld.mono (fun _ h => h) (fun client hc => ?_) ?_ ?_ fun id key => ?_
    · rcases List.mem_append.mp hc with hc | hc
      · exact mem_clientsOf.mpr (List.mem_append_left _ (mem_clientsOf.mp hc))
      · rw [List.mem_singleton.mp hc]
        exact mem_clientsOf.mpr (List.mem_append_right _ List.mem_cons_self)
    · rw [hs.expected n, setWriter_writers_self]
    · rw [hs.involved n, setWriter_writers_self]
    · rw [hs.underWay n]
      exact (underWay_requests (getTxn_requests _ _) id).mem_iff
  · exact ⟨txn, List.mem_append_right _ List.mem_cons_self, hfilled t ht⟩
  · exact List.mem_singleton.mpr (hids _ (List.mem_map_of_mem ht))
  · rw [hs.expected n, setWriter_writers_self, hgone, List.map_singleton, List.mem_singleton]
    constructor
    · rintro ⟨hnone, himp⟩
      exact ⟨.inl hnone, himp⟩
    · rintro ⟨hnone' | hmem, himp⟩
      · exact ⟨hnone', himp⟩
      · refine ⟨?_, himp⟩
        rw [hids id hmem]
        exact hnone

/-- The answers of a message are for transactions that wait. -/
theorem Tracking.result {t : Tracked} (h : Tracking cfg t) {m : MasterLookupResult} {i : Nat}
    (hm : t.seq.results[i]? = some m) :
    Held t.looked (clientsOf t.accepted m.destinationNode) (t.seq.writers m.destinationNode)
      (fun id => answered id m.data ++
        underWay { t.seq with results := t.seq.results.eraseIdx i } m.destinationNode id) := by
  refine (h.routing.held m.destinationNode).mono (fun _ h => h) (fun _ hc => hc) rfl rfl
    fun id key => ?_
  have hp := underWay_result hm m.destinationNode id
  rw [if_pos rfl] at hp
  exact hp.mem_iff.symm

theorem Tracking.gotResult {t : Tracked} (h : Tracking cfg t) {m : MasterLookupResult} {i : Nat}
    {w : Writer} {completed added : List TxnProto} (hm : t.seq.results[i]? = some m)
    (hw : lookupResults (t.seq.writers m.destinationNode) m.data = some (w, completed))
    (hs : SameLookups
      (setWriter { t.seq with results := t.seq.results.eraseIdx i } m.destinationNode w) s')
    (hadded : added.Perm completed) : Routing t.looked t.accepted (t.routed ++ added) s' := by
  have hmem := h.asked.results m (List.mem_of_getElem? hm)
  obtain ⟨w', completed', hw', hheld, hc⟩ :=
    (h.result hm).lookupResults (counted_result h.counted hm)
    (fun result hr => (hmem result hr).1) fun result hr => (hmem result hr).2
  rw [hw] at hw'
  cases hw'
  obtain ⟨-, -, hrequests, -⟩ := lookupResults_spec (counted_result h.counted hm) hw
  have hnil : t.accepted ++ ([] : List TxnProto).map (fun txn => (m.destinationNode, txn)) =
      t.accepted := List.append_nil _
  rw [← hnil]
  refine h.routing.at_node (fun _ h => h) (fun k hk => ⟨?_, ?_, fun id key => ?_⟩) ?_ ?_
    (fun txn ht => ?_) (fun txn ht hnone => ?_) hc.nodup (fun id => ?_) hadded
  · rw [hs.expected k, setWriter_writers_of_ne _ hk]
  · rw [hs.involved k, setWriter_writers_of_ne _ hk]
  · rw [hs.underWay k, underWay_setWriter_of_ne hk]
    have hp := underWay_result hm k id
    rw [if_neg (Ne.symm hk)] at hp
    exact hp.mem_iff.symm
  · rw [hnil]
    exact h.routing.distinct
  · rw [hnil]
    refine hheld.mono (fun _ h => h) (fun _ hc => hc) ?_ ?_ fun id key => ?_
    · rw [hs.expected, setWriter_writers_self]
    · rw [hs.involved, setWriter_writers_self]
    · rw [hs.underWay, underWay, underWay, setWriter_writers_self, hrequests]
      exact Iff.rfl
  · obtain ⟨-, client, hclient, hf⟩ := hc.filled txn ht
    exact ⟨client, List.mem_append_left _ (mem_clientsOf.mp hclient), hf⟩
  · exact ((hc.filled txn ht).1 hnone).elim
  · rw [hs.expected, setWriter_writers_self, hc.gone]
    simp

/-- A step that looks nothing up and routes nothing. -/
theorem Tracking.quiet {t : Tracked} (h : Tracking cfg t) (hc : Counted cfg s')
    (hs : SameLookups t.seq s') :
    Tracking cfg ⟨s', t.accepted ++ [], t.looked ++ [], t.asks ++ [], t.routed ++ []⟩ := by
  simp only [List.append_nil]
  refine ⟨hc, h.asked.same hs, h.once.same (requested_same hs), ?_⟩
  exact h.routing.frame (fun _ h => h) hs.expected hs.involved fun m _ _ => by rw [hs.underWay m]

/-- A message of answers is taken, and no request changes. -/
theorem Tracking.taken {t : Tracked} (h : Tracking cfg t) (i : Nat) {n : Nat} {w : Writer}
    (hrequests : w.lookupMasterBatch = (t.seq.writers n).lookupMasterBatch) :
    Asked t.looked (setWriter { t.seq with results := t.seq.results.eraseIdx i } n w) ∧
      AskedOnce t.accepted t.asks
        (setWriter { t.seq with results := t.seq.results.eraseIdx i } n w) := by
  have hsame : ∀ k, ((setWriter { t.seq with results := t.seq.results.eraseIdx i }
      n w).writers k).lookupMasterBatch = (t.seq.writers k).lookupMasterBatch :=
    apply_update_of_eq Writer.lookupMasterBatch hrequests
  refine ⟨⟨fun k => ?_, h.asked.lookups, fun msg hmsg => ?_⟩, h.once.same fun k =>
    congrArg _ (hsame k)⟩
  · rw [hsame k]
    exact h.asked.requests k
  · exact h.asked.results msg (List.mem_of_mem_eraseIdx hmsg)

theorem tracking_step {t t' : Tracked} {e : Event} (h : Tracking cfg t) (hnew : NewClient t e)
    (hn : (tracked cfg maxBatchSize).next t e = some t') : Tracking cfg t' := by
  obtain ⟨s', hs', rfl⟩ := Option.map_eq_some_iff.mp hn
  have hfresh : FreshId t.seq e := by
    cases e with
    | getTxn n txn answers random => exact h.routing.notWaiting hnew.2
    | _ => trivial
  have hcounted := counted_step h.counted hfresh hs'
  cases e with
  | getTxn n txn answers random =>
      simp only [next, Option.ite_none_right_eq_some, Option.some.injEq] at hs'
      obtain ⟨-, rfl⟩ := hs'
      have hmono : t.looked ⊆ t.looked ++ looks cfg t.seq (.getTxn n txn answers random) :=
        List.subset_append_left _ _
      refine ⟨hcounted, ((h.asked.newTxn answers).same (sameLookups_dispatch _ _)).mono hmono,
        ?_, ?_⟩
      · show AskedOnce (t.accepted ++ [(n, txn)]) (t.asks ++ []) _
        rw [List.append_nil]
        exact (h.once.newTxn answers hnew.2).same (requested_same (sameLookups_dispatch _ _))
      · refine h.routing.newTxn h.counted hmono hnew.1 hnew.2 (fun entry he hlocal => ?_)
          (sameLookups_dispatch _ _) (routedBy_dispatch ?_ rfl)
        · refine List.mem_append_right _ ?_
          exact List.mem_map_of_mem (List.mem_filter.mpr ⟨he, hlocal⟩)
        · rw [setWriter_writers_self]
          exact (getTxn_spec _ (h.counted n) (h.routing.notWaiting hnew.2) answers).choose_spec.2.1
  | sendLookups n mds =>
      simp only [next, Option.ite_none_right_eq_some, Option.some.injEq] at hs'
      obtain ⟨-, rfl⟩ := hs'
      show Tracking cfg ⟨sendLookups cfg t.seq n mds, t.accepted ++ [], t.looked ++ [],
        t.asks ++ (requested t.seq n).filter fun p => p.2 = mds, t.routed ++ []⟩
      simp only [List.append_nil]
      refine ⟨hcounted, h.asked.send mds, h.once.send h.routing.distinct mds, ?_⟩
      refine h.routing.frame (fun _ h => h) (fun m => ?_) (fun m => ?_) fun m id key =>
        (underWay_sendLookups mds m id).mem_iff
      · refine apply_update_of_eq Writer.expectedMasterLookups ?_ m
        rfl
      · refine apply_update_of_eq Writer.involvedReplicas ?_ m
        rfl
  | answer i getMasterCounter =>
      simp only [next, Option.map_eq_some_iff] at hs'
      obtain ⟨lookup, hlookup, rfl⟩ := hs'
      have hlooks : looks cfg t.seq (.answer i getMasterCounter) =
          (answerLookup getMasterCounter lookup).data.flatMap fun result =>
            result.keyEntries.map fun entry => (result.txnId, entry) := by
        rw [looks, hlookup]
        rfl
      show Tracking cfg ⟨_, t.accepted ++ [], t.looked ++ looks cfg t.seq _, t.asks ++ [],
        t.routed ++ []⟩
      rw [hlooks]
      simp only [List.append_nil]
      refine ⟨hcounted, h.asked.answer hlookup getMasterCounter, h.once.same fun _ => rfl, ?_⟩
      exact h.routing.frame (List.subset_append_left _ _) (fun _ => rfl) (fun _ => rfl)
        fun m id key => (underWay_answer hlookup getMasterCounter m id).mem_iff
  | gotResult i random =>
      simp only [next, Option.bind_eq_some_iff, Option.map_eq_some_iff, Prod.exists] at hs'
      obtain ⟨m, hm, w, done, hw, rfl⟩ := hs'
      obtain ⟨-, hb, hrequests, -⟩ := lookupResults_spec (counted_result h.counted hm) hw
      obtain ⟨hasked, honce⟩ := h.taken i hrequests
      have hroutes : ∀ s', routes t.seq s' (.gotResult i random) =
          routedBy m.destinationNode t.seq s' := by
        intro s'
        rw [routes, hm]
        rfl
      show Tracking cfg ⟨_, t.accepted ++ [], t.looked ++ [], t.asks ++ [], t.routed ++ routes ..⟩
      rw [hroutes]
      simp only [List.append_nil]
      refine ⟨hcounted, hasked.same (sameLookups_dispatch _ _),
        honce.same (requested_same (sameLookups_dispatch _ _)), ?_⟩
      refine h.gotResult hm hw (sameLookups_dispatch _ _) (routedBy_dispatch ?_ rfl)
      rw [setWriter_writers_self, hb]
  | schedulerForword destination txn =>
      simp only [next, Option.ite_none_right_eq_some, Option.some.injEq] at hs'
      obtain ⟨-, rfl⟩ := hs'
      exact h.quiet hcounted (sameLookups_forword destination txn)
  | gotForword i =>
      simp only [next, Option.map_eq_some_iff, Prod.exists] at hs'
      obtain ⟨n, txn, -, rfl⟩ := hs'
      have hgone : SameLookups t.seq { t.seq with forwords := t.seq.forwords.eraseIdx i } :=
        ⟨rfl, rfl, fun _ => rfl, fun _ => rfl, fun _ => rfl⟩
      exact h.quiet hcounted (hgone.trans (sameLookups_addToBatch _))
  | sendBatch n =>
      simp only [next, Option.some.injEq] at hs'
      have hbatch : SameLookups t.seq s' := by
        have hsame := sameLookups_sendBatch (s := t.seq) (n := n)
        rw [← hs']
        split
        · exact hsame
        · exact ⟨hsame.lookups, hsame.results, hsame.expected, hsame.involved, hsame.requests⟩
      exact h.quiet hcounted hbatch

end

/-! ## Main results -/

/-- In every run whose clients have ids of their own: an answer finds its
transaction and no more entries than are expected; what is routed has all
masters, names the replicas they are, and is routed once, as soon as no key is
under way; and no partition is asked twice for a transaction. -/
theorem routed_once (cfg : ClusterConfig) (maxBatchSize : Nat) (t : Tracked)
    (h : (tracked cfg maxBatchSize).Reach NewClient t) :
    (∀ m ∈ t.seq.results, ∀ before result after, m.data = before ++ result :: after →
      ∃ w completed, lookupResults (t.seq.writers m.destinationNode) before = some (w, completed) ∧
        ∃ expected txn, w.expectedMasterLookups result.txnId = some (expected, txn) ∧
          ((entries txn).filter fun entry =>
            (remoteEntry result.keyEntries entry.key).isSome).length ≤ expected) ∧
      (t.routed.map TxnProto.txnId).Nodup ∧
      (∀ p ∈ t.accepted, p.2.txnId ∈ t.routed.map TxnProto.txnId ↔
        underWay t.seq p.1 p.2.txnId = []) ∧
      (∀ txn ∈ t.routed, ∃ p ∈ t.accepted, Filled t.looked p.2 txn) ∧
      t.asks.Nodup := by
  have hi : Tracking cfg t := h.invariant (tracking_init cfg) fun _ _ _ _ hg hi hn =>
    tracking_step hi hg hn
  refine ⟨fun m hm before result after hdata => ?_, hi.routing.once, fun p hp => ?_,
    fun txn htxn => ?_, (List.nodup_append.mp (hi.once.once 0)).1⟩
  · obtain ⟨i, hi', hget⟩ := List.getElem_of_mem hm
    have hm' : t.seq.results[i]? = some m := List.getElem?_eq_some_iff.mpr ⟨hi', hget⟩
    have hheld := hi.result hm'
    have hw := counted_result hi.counted hm'
    have hsplit : ∀ id, answered id m.data = answered id before ++
        (answered id [result] ++ answered id after) := by
      intro id
      rw [hdata]
      simp [answered]
    simp only [hsplit, List.append_assoc] at hheld hw
    have hmem := hi.asked.results m hm
    rw [hdata] at hmem
    obtain ⟨w, completed, heq, -, -⟩ := hheld.lookupResults hw
      (fun r hr => (hmem r (List.mem_append_left _ hr)).1)
      fun r hr => (hmem r (List.mem_append_left _ hr)).2
    refine ⟨w, completed, heq, ?_⟩
    exact lookupResult_exact (lookupResults_spec hw heq).1 (hmem result (by simp)).1
  · have hcount := hi.counted p.1 p.2.txnId
    cases hw : (t.seq.writers p.1).expectedMasterLookups p.2.txnId with
    | none =>
        rw [hw] at hcount
        exact ⟨fun _ => hcount, fun _ => hi.routing.done p hp hw⟩
    | some q =>
        obtain ⟨hpos, -⟩ := (hi.routing.held p.1).waiting _ q.1 q.2 hw
        rw [hw] at hcount
        constructor
        · intro hmem
          obtain ⟨txn, htxn, hid⟩ := List.mem_map.mp hmem
          obtain ⟨p', hp', hf, hnone⟩ := hi.routing.filled txn htxn
          have hpp := List.inj_on_of_nodup_map hi.routing.distinct hp' hp (hf.txnId.symm.trans hid)
          rw [hpp, hid, hw] at hnone
          cases hnone
        · intro hnil
          have hexpected := hcount.expected
          rw [hnil] at hexpected
          simp only [List.not_mem_nil, decide_false, List.filter_false,
            List.length_nil] at hexpected
          omega
  · obtain ⟨p, hp, hf, -⟩ := hi.routing.filled txn htxn
    exact ⟨p, hp, hf⟩

/-- Two replicas of two nodes. -/
def twoByTwo : ClusterConfig := { replicasSize := 2, nodesPerReplica := 2 }

/-- A transaction that reads and writes one key elsewhere, and one here. -/
def readAndWrite : TxnProto where
  txnId := 7
  readSet := [⟨[49], 0, 0⟩]
  readWriteSet := [⟨[50], 0, 0⟩, ⟨[49], 0, 0⟩]

/-- It shares a request with a transaction that has no key here; both are routed
when the answer comes. -/
theorem routed_once_shared : ∃ t : Tracked, t.routed.map TxnProto.txnId = [7, 8] ∧
    t.asks = [(7, 1), (8, 1)] ∧ ∀ txn ∈ t.routed, ∃ p ∈ t.accepted, Filled t.looked p.2 txn := by
  obtain ⟨t, ht, hrouted, hasks⟩ := Machine.exists_of_runIf (m := tracked twoByTwo 2) NewClient
    (P := fun t => t.routed.map TxnProto.txnId = [7, 8] ∧ t.asks = [(7, 1), (8, 1)])
    [.getTxn 0 readAndWrite (fun _ => (0, 3)) 0,
      .getTxn 0 { txnId := 8, readWriteSet := [⟨[51], 0, 0⟩] } (fun _ => (0, 3)) 0,
      .sendLookups 0 1, .answer 0 (fun _ _ => (1, 5)), .gotResult 0 (fun _ => 0)]
    (by decide)
  exact ⟨t, hrouted, hasks, (routed_once twoByTwo 2 t ht).2.2.2.1⟩

end Calvin.SequencerWriter
