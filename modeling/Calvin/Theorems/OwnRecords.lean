import Calvin.Theorems.CommitAgreement

/-!
# Own records

The records of its own entries a participant reads itself: nobody sends them to it.

* `step_records`, `step_managers`: which steps of a node change what;
* `OwnStored`: the invariant, with `OwnStored.next`.
-/

namespace Calvin.Replica

open Function Lib DeterministicScheduler StorageManager

variable {cfg : ClusterConfig} {merge : List TxnProto} {compute : Compute} {init : Key → Record}
  {seen : Nat → Ptr → Key → Record} {s s' : Replica} {m : Nat} {p : Ptr} {k : Key}

/-! ## Steps of a node -/

/-- Only a worker that ends a transaction changes records. -/
theorem step_records {cfg : ClusterConfig} {txns : Ptr → TxnProto} {s s' : Node}
    {e : DeterministicScheduler.Event} (hrun : ∀ p guid random, e ≠ .run p guid random)
    (h : DeterministicScheduler.step cfg 2 txns compute s e = some s') :
    s'.store = s.store ∧ ∀ q, Executed s' q ↔ Executed s q := by
  cases e with
  | parse =>
      obtain ⟨-, ⟨-, -, rfl⟩ | rfl⟩ := parse_any h
      all_goals exact ⟨rfl, fun q => Iff.rfl⟩
  | verify =>
      obtain ⟨entry, rest, v, -, rfl⟩ := verify_cases h
      exact ⟨rfl, fun q => Iff.rfl⟩
  | route =>
      obtain ⟨v, -, ⟨waits, rfl⟩ | ⟨-, rfl⟩ | rfl⟩ := route_locks h
      all_goals exact ⟨rfl, fun q => Iff.rfl⟩
  | dispatch =>
      obtain ⟨-, p, rest, -, rfl⟩ := dispatch_cases h
      exact ⟨rfl, fun q => Iff.rfl⟩
  | handleDone =>
      obtain ⟨-, p, rest, waits, ready, hp, -, lockManager, readyTxns, rfl⟩ := handleDone_cases h
      refine ⟨rfl, fun q => ?_⟩
      show q ∈ rest ∨ q ∈ p :: s.deleted ↔ q ∈ s.doneQueue ∨ q ∈ s.deleted
      rw [hp, List.mem_cons, List.mem_cons]
      exact ⟨fun h => h.elim (fun h => .inl (.inr h)) fun h => h.elim (fun h => .inl (.inl h)) .inr,
        fun h => h.elim (fun h => h.elim (fun h => .inr (.inl h)) .inl) fun h => .inr (.inr h)⟩
  | start =>
      obtain ⟨⟨s₁, sent⟩, hstart, rfl⟩ := Option.map_eq_some_iff.mp h
      obtain ⟨p, rest, -, -, rfl⟩ := start_cases hstart
      exact ⟨rfl, fun q => Iff.rfl⟩
  | readResult p entries =>
      obtain ⟨sm, -, -, rfl⟩ := readResult_cases h
      exact ⟨rfl, fun q => Iff.rfl⟩
  | run p guid random => exact absurd rfl (hrun p guid random)

/-- Managers are created by `start` and filled by messages. -/
theorem step_managers {cfg : ClusterConfig} {txns : Ptr → TxnProto} {s s' : Node}
    {e : DeterministicScheduler.Event} (hstart : e ≠ .start)
    (hread : ∀ p entries, e ≠ .readResult p entries)
    (h : DeterministicScheduler.step cfg 2 txns compute s e = some s') {sm : StorageManager}
    (hsm : s'.managers p = some sm) : s.managers p = some sm := by
  cases e with
  | parse =>
      obtain ⟨-, ⟨-, -, rfl⟩ | rfl⟩ := parse_any h
      all_goals exact hsm
  | verify =>
      obtain ⟨entry, rest, v, -, rfl⟩ := verify_cases h
      exact hsm
  | route =>
      obtain ⟨v, -, ⟨waits, rfl⟩ | ⟨-, rfl⟩ | rfl⟩ := route_locks h
      all_goals exact hsm
  | dispatch =>
      obtain ⟨-, q, rest, -, rfl⟩ := dispatch_cases h
      exact hsm
  | handleDone =>
      obtain ⟨-, q, rest, waits, ready, -, -, lockManager, readyTxns, rfl⟩ := handleDone_cases h
      exact hsm
  | start => exact absurd rfl hstart
  | readResult q entries => exact absurd rfl (hread q entries)
  | run q guid random =>
      obtain ⟨⟨s₁, forword⟩, hrun, rfl⟩ := Option.map_eq_some_iff.mp h
      obtain ⟨sm', store, status, -, -, rfl, -⟩ := run_any hrun
      change update s.managers q none p = some sm at hsm
      by_cases hp : p = q
      · rw [hp, update_self] at hsm
        cases hsm
      · rwa [update_of_ne hp] at hsm

/-! ## Own entries -/

/-- Only others send the record of an entry, so that a participant keeps its own. -/
structure OwnStored (cfg : ClusterConfig) (merge : List TxnProto) (s : Replica) : Prop where
  network : ∀ msg ∈ s.network, ∃ m, ∃ p < (stream cfg merge m).length,
    (∀ x ∈ msg.entries, ∃ e ∈ (txnAt cfg merge m p).client.entries, e.key = x.1 ∧
      Own (nodeConfig cfg m) (txnAt cfg merge m p).originReplica e) ∧
    ∃ entry ∈ (txnAt cfg merge m p).client.entries,
      ¬ Own (nodeConfig cfg m) (txnAt cfg merge m p).originReplica entry ∧
      msg.destinationChannel = channelOf (txnAt cfg merge m p).txnId entry.master ∧
      msg.destinationNode =
        cfg.lookupMachineId (cfg.lookupPartition entry.key) cfg.localReplicaId
  stored : ∀ m p sm, (s.nodes m).managers p = some sm → ∀ e ∈ (txnAt cfg merge m p).client.entries,
    Own (nodeConfig cfg m) (txnAt cfg merge m p).originReplica e →
      sm.objects.lookup e.key = some .stored

theorem ownStored_init : OwnStored cfg merge (machine cfg 2 merge compute init).init where
  network msg h := absurd h List.not_mem_nil
  stored m p sm h := by cases h

/-- What is not among the results stays as it was. -/
theorem lookup_handleReadResult_of_not_mem {sm : StorageManager} {results : List (Key × Record)}
    (h : ∀ x ∈ results, x.1 ≠ k) :
    (sm.handleReadResult results).objects.lookup k = sm.objects.lookup k := by
  have hfold : ∀ (results : List (Key × Record)) (objects : AList fun _ : Key => Object),
      (∀ x ∈ results, x.1 ≠ k) →
      (results.foldl (fun objects e => objects.insert e.1 (.copied e.2)) objects).lookup k =
        objects.lookup k := by
    intro results
    induction results with
    | nil =>
        intro objects _
        rfl
    | cons x rest ih =>
        intro objects h
        rw [List.foldl_cons, ih _ fun y hy => h y (List.mem_cons_of_mem _ hy)]
        exact AList.lookup_insert_ne (h x List.mem_cons_self).symm
  exact hfold results sm.objects h

/-- What waits for a worker is a transaction of the node. -/
theorem Exchanged.queued_lt (hi : Exchanged cfg merge seen s) (h : p ∈ (s.nodes m).txnsQueue) :
    p < (stream cfg merge m).length := by
  refine Nat.lt_of_lt_of_le ((hi.node m).life.lt_next ?_) (hi.bounded m).1
  have := List.count_pos_iff.mpr h
  unfold stages
  omega

namespace OwnStored

/-- A step that neither sends nor changes what a manager holds. -/
theorem frame {node : Node} (hi : OwnStored cfg merge s)
    (hmanagers : ∀ p sm, node.managers p = some sm → (s.nodes m).managers p = some sm) :
    OwnStored cfg merge (setNode s m node) where
  network := hi.network
  stored m' p sm hsm := by
    change (update s.nodes m node m').managers p = some sm at hsm
    by_cases hm' : m' = m
    · subst hm'
      rw [update_self] at hsm
      exact hi.stored m' p sm (hmanagers p sm hsm)
    · rw [update_of_ne hm'] at hsm
      exact hi.stored m' p sm hsm

theorem start {node : Node} {sent : List ReadResult} (hi : OwnStored cfg merge s)
    (hex : Exchanged cfg merge seen s)
    (h : DeterministicScheduler.start (nodeConfig cfg m) 2 (txnAt cfg merge m) (s.nodes m) =
      some (node, sent)) :
    OwnStored cfg merge { setNode s m node with network := s.network ++ sent } := by
  obtain ⟨q, rest, hq, rfl, rfl⟩ := start_cases h
  have hlen : q < (stream cfg merge m).length := hex.queued_lt (hq ▸ List.mem_cons_self)
  obtain ⟨hobjects, hsent⟩ := @StorageManager.create_spec (nodeConfig cfg m) 2
    (s.nodes m).store (txnOf (txnAt cfg merge m) (s.nodes m) q) (by decide) (txnAt_readers hlen)
  refine ⟨fun msg hmsg => ?_, fun m' p sm hsm e he hown => ?_⟩
  · rcases List.mem_append.mp hmsg with hmsg | hmsg
    · exact hi.network msg hmsg
    · obtain ⟨hentries, hdestination⟩ := hsent msg hmsg
      refine ⟨m, q, hlen, fun x hx => ?_, hdestination⟩
      obtain ⟨e, hmem, hown, rfl⟩ := hentries x hx
      exact ⟨e, hmem, rfl, hown⟩
  · change (update s.nodes m _ m').managers p = some sm at hsm
    by_cases hm' : m' = m
    · subst hm'
      rw [update_self] at hsm
      dsimp only at hsm
      by_cases hp : p = q
      · subst hp
        rw [update_self] at hsm
        obtain rfl := Option.some.inj hsm
        exact (hobjects e.key _).mpr ⟨rfl, e, he, rfl, hown⟩
      · rw [update_of_ne hp] at hsm
        exact hi.stored m' p sm hsm e he hown
    · rw [update_of_ne hm'] at hsm
      exact hi.stored m' p sm hsm e he hown

/-- A message that reaches another participant holds none of its own records. -/
theorem deliver {i : Nat} (hc : Copies merge) (hi : OwnStored cfg merge s)
    (hex : Exchanged cfg merge seen s) (hone : OneId cfg merge s (.deliver m p i))
    (h : deliver cfg merge s m p i = some s') : OwnStored cfg merge s' := by
  rw [Replica.deliver, Option.bind_eq_some_iff] at h
  obtain ⟨msg, hmsg, h⟩ := h
  obtain ⟨⟨hdestination, hchannel⟩, h⟩ := Option.ite_none_right_eq_some.mp h
  obtain ⟨node, hread, rfl⟩ := Option.map_eq_some_iff.mp h
  obtain ⟨sm, hsm, -, rfl⟩ := readResult_cases hread
  have hlen : p < (stream cfg merge m).length := hex.opened_lt (.inl (by rw [hsm]; rfl))
  obtain ⟨m₁, q, hq, hentries, entry, he, hnot, hchannel', hdestination'⟩ :=
    hi.network msg (List.mem_of_getElem? hmsg)
  have hpart : cfg.lookupPartition entry.key = m :=
    Nat.add_left_cancel (hdestination'.symm.trans hdestination)
  obtain ⟨hname, horigin⟩ := Prod.mk.inj (hchannel'.symm.trans hchannel)
  obtain ⟨txn, htxn, hfake, -, heq⟩ := txnAt_mem hq
  have hid : (txnAt cfg merge m₁ q).txnId = (txnAt cfg merge m p).txnId := by
    rw [heq] at he hname ⊢
    exact hone txn htxn hfake ⟨entry, he, hpart, horigin⟩ hname
  have hclient := hc.ptr_client hq hlen hid
  refine ⟨fun msg' hmsg' => hi.network msg' (List.mem_of_mem_eraseIdx hmsg'),
    fun m' p' sm' hsm' e' he' hown' => ?_⟩
  change (update s.nodes m _ m').managers p' = some sm' at hsm'
  by_cases hm' : m' = m
  · subst hm'
    rw [update_self] at hsm'
    dsimp only at hsm'
    by_cases hp : p' = p
    · subst hp
      rw [update_self] at hsm'
      obtain rfl := Option.some.inj hsm'
      rw [lookup_handleReadResult_of_not_mem fun x hx hkey => ?_]
      · exact hi.stored m' p' sm hsm e' he' hown'
      -- otherwise it would have gone from a participant to itself
      obtain ⟨e, hmem, hkey', hown⟩ := hentries x hx
      rw [hclient] at hmem
      obtain rfl := List.inj_on_of_nodup_map (hc.txnAt_keys cfg m' p') hmem he' (hkey'.trans hkey)
      exact hnot ⟨horigin.trans (hown'.1.symm.trans hown.1),
        hpart.trans (hown'.2.symm.trans hown.2)⟩
    · rw [update_of_ne hp] at hsm'
      exact hi.stored m' p' sm' hsm' e' he' hown'
  · rw [update_of_ne hm'] at hsm'
    exact hi.stored m' p' sm' hsm' e' he' hown'

theorem nodeStep {e : DeterministicScheduler.Event} (hi : OwnStored cfg merge s)
    (h : nodeStep cfg 2 merge compute s m e = some s') : OwnStored cfg merge s' := by
  have hframe : e ≠ .start → (∀ p entries, e ≠ .readResult p entries) →
      (DeterministicScheduler.step (nodeConfig cfg m) 2 (txnAt cfg merge m) compute
        (s.nodes m) e).map (setNode s m) = some s' → OwnStored cfg merge s' := by
    intro hstart hread hnode
    obtain ⟨node, hstep, rfl⟩ := Option.map_eq_some_iff.mp hnode
    exact hi.frame fun p sm hsm => step_managers hstart hread hstep hsm
  unfold Replica.nodeStep at h
  split at h
  case h_1 =>
      exact hframe (fun h => by cases h) (fun _ _ h => by cases h)
        (Option.ite_none_right_eq_some.mp h).2
  case h_2 => cases h
  case h_3 => cases h
  case h_4 hstart hread => exact hframe hstart hread h

theorem next {e : Event} (hc : Copies merge) (hi : OwnStored cfg merge s)
    (hex : Exchanged cfg merge seen s) (hone : OneId cfg merge s e)
    (h : (machine cfg 2 merge compute init).next s e = some s') : OwnStored cfg merge s' := by
  cases e with
  | node m e => exact hi.nodeStep h
  | start m =>
      obtain ⟨⟨node, sent⟩, hstart, rfl⟩ := Option.map_eq_some_iff.mp h
      exact hi.start hex hstart
  | deliver m p i => exact hi.deliver hc hex hone h

end OwnStored

end Calvin.Replica
