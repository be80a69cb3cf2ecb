import Calvin.Scheduler.OriginalSystemSpec
import Calvin.Theorems.AgreedOrder

/-!
# The records of the original system

* `follows`: what the nodes of a replica do is a run of `OriginalReplica.machine` over
  every order that begins with what they have parsed;
* `records_eq_agreed`: a replica that has executed the first transactions of the agreed
  order has the records of their serial execution.
-/

namespace Calvin

open Function Lib

namespace Ordering

variable {cfg : ClusterConfig} {maxBatchSize : Nat} {s s' : Ordering} {e : Event}

/-- Only the writer threads make batches. -/
theorem next_batches (h : next cfg maxBatchSize s e = some s') :
    s'.batches = s.batches ∨ ∃ n txns, e = .epoch n txns ∧ txns.length ≤ maxBatchSize ∧
      s'.batches = s.batches ++
        [(TxnIds.getGUID cfg.allNodesSize n (s.nextGuid n),
          Sequencer.collect (SequencerWriter.nodeConfig cfg n).localReplicaId maxBatchSize
            (TxnIds.getGUID cfg.allNodesSize n (s.nextGuid n)) txns)] := by
  cases e with
  | epoch n txns =>
      obtain ⟨⟨-, hlen⟩, h⟩ := Option.ite_none_right_eq_some.mp h
      obtain rfl := Option.some.inj h
      exact .inr ⟨n, txns, rfl, hlen, rfl⟩
  | gotBatch i =>
      obtain ⟨message, -, rfl⟩ := Option.map_eq_some_iff.mp h
      exact .inl rfl
  | gotVote i =>
      obtain ⟨vote, -, rfl⟩ := Option.map_eq_some_iff.mp h
      exact .inl rfl
  | propose | gotAck _ | commit | receive _ =>
      obtain ⟨paxos, -, rfl⟩ := Option.map_eq_some_iff.mp h
      exact .inl rfl
  | deliver n index =>
      obtain ⟨stream, -, rfl⟩ := Option.map_eq_some_iff.mp h
      exact .inl rfl
  | round n room =>
      obtain ⟨loop, -, rfl⟩ := Option.map_eq_some_iff.mp h
      exact .inl rfl

/-- A round parses more, or leaves what is parsed. -/
theorem round_parsed {loop loop' : BatchStream.Loop} {room : Bool}
    (h : loop.round room = some loop') : loop.parsed <+: loop'.parsed := by
  unfold BatchStream.Loop.round at h
  split at h
  · obtain ⟨x, -, rfl⟩ := Option.map_eq_some_iff.mp h
    exact List.prefix_rfl
  · split at h
    · obtain ⟨x, -, rfl⟩ := Option.map_eq_some_iff.mp h
      exact List.prefix_rfl
    · split at h
      · cases h
        exact List.prefix_append _ _
      · cases h
        exact List.prefix_rfl

theorem parsed_sendSchedulers (s : Ordering) (r n : Nat) (messages : Nat → List SchedulerMessage) :
    ((sendSchedulers cfg s r messages).loops n).parsed = (s.loops n).parsed := by
  unfold sendSchedulers
  dsimp only
  split <;> rfl

/-- What is parsed stays parsed. -/
theorem next_parsed (h : next cfg maxBatchSize s e = some s') (n : Nat) :
    (s.loops n).parsed <+: (s'.loops n).parsed := by
  cases e with
  | epoch m txns =>
      obtain ⟨-, h⟩ := Option.ite_none_right_eq_some.mp h
      obtain rfl := Option.some.inj h
      exact List.prefix_rfl
  | gotBatch i =>
      obtain ⟨message, -, rfl⟩ := Option.map_eq_some_iff.mp h
      rw [parsed_sendSchedulers]
  | gotVote i =>
      obtain ⟨vote, -, rfl⟩ := Option.map_eq_some_iff.mp h
      exact List.prefix_rfl
  | propose | gotAck _ | commit | receive _ =>
      obtain ⟨paxos, -, rfl⟩ := Option.map_eq_some_iff.mp h
      rw [parsed_sendSchedulers]
  | deliver m index =>
      obtain ⟨stream, -, rfl⟩ := Option.map_eq_some_iff.mp h
      by_cases hm : n = m
      · simp [setLoop, hm]
      · simp [setLoop, hm]
  | round m room =>
      obtain ⟨loop, hround, rfl⟩ := Option.map_eq_some_iff.mp h
      by_cases hm : n = m
      · subst hm
        simpa [setLoop] using round_parsed hround
      · simp [setLoop, hm]

end Ordering

namespace OriginalSystem

open OriginalReplica (Order)
open Replica (runAlone records)

variable {cfg : ClusterConfig} {maxBatchSize : Nat} {compute : Compute} {init : Key → Record}
  {s s' : OriginalSystem}

/-! ## The batches of the clients -/

/-- A batch as a writer thread makes it. -/
structure Collected (maxBatchSize : Nat) (b : Nat × List TxnProto) : Prop where
  data : ∃ localReplica txns, b.2 = Sequencer.collect localReplica maxBatchSize b.1 txns ∧
    txns.length ≤ maxBatchSize ∧ ∀ txn ∈ txns, txn.keys.Nodup
  fits : (b.1 + 1) * maxBatchSize ≤ 2147483648

/-- What holds of every new batch holds of all batches of a run. -/
theorem batches_of_reach {good : OriginalSystem → Event → Prop} {P : Nat × List TxnProto → Prop}
    (hnew : ∀ s n txns, good s (.ordering (.epoch n txns)) → txns.length ≤ maxBatchSize →
      let batchNumber := TxnIds.getGUID cfg.allNodesSize n (s.ordering.nextGuid n)
      P (batchNumber, Sequencer.collect (SequencerWriter.nodeConfig cfg n).localReplicaId
        maxBatchSize
        batchNumber txns))
    (h : (machine cfg maxBatchSize compute init).Reach good s) : ∀ b ∈ s.ordering.batches, P b := by
  refine h.invariant (P := fun s => ∀ b ∈ s.ordering.batches, P b)
    (fun b hb => absurd hb List.not_mem_nil) ?_
  intro s e s' _ hgood hi hn
  cases e with
  | replica r e =>
      obtain ⟨-, hn⟩ := Option.ite_none_right_eq_some.mp hn
      obtain ⟨replica, -, rfl⟩ := Option.map_eq_some_iff.mp hn
      exact hi
  | ordering e =>
      obtain ⟨ordering, hnext, rfl⟩ := Option.map_eq_some_iff.mp hn
      intro b hb
      rcases Ordering.next_batches hnext with hsame | ⟨n, txns, rfl, hlen, hbatches⟩
      · exact hi b (hsame ▸ hb)
      · rw [hbatches] at hb
        rcases List.mem_append.mp hb with hb | hb
        · exact hi b hb
        · rw [List.mem_singleton.mp hb]
          exact hnew s n txns hgood hlen

/-- The ordering of a run is one of its own, and the batches are those of clients. -/
theorem ordering_of_reach
    (h : (machine cfg maxBatchSize compute init).Reach (Fits cfg maxBatchSize) s) :
    (Ordering.machine cfg maxBatchSize).Reach (Ordering.Fits cfg) s.ordering ∧
      ∀ b ∈ s.ordering.batches, Collected maxBatchSize b := by
  refine ⟨?_, batches_of_reach ?_ h⟩
  · refine h.invariant (P := fun s =>
      (Ordering.machine cfg maxBatchSize).Reach (Ordering.Fits cfg) s.ordering) .init ?_
    intro s e s' _ hfits hi hn
    cases e with
    | replica r e =>
        obtain ⟨-, hn⟩ := Option.ite_none_right_eq_some.mp hn
        obtain ⟨replica, -, rfl⟩ := Option.map_eq_some_iff.mp hn
        exact hi
    | ordering e =>
        obtain ⟨ordering, hnext, rfl⟩ := Option.map_eq_some_iff.mp hn
        refine hi.step ?_ hnext
        cases e with
        | epoch n txns => exact hfits.1
        | _ => trivial
  · rintro s n txns ⟨hguid, hids, hkeys⟩ hlen batchNumber
    have hnumber : batchNumber = 1 + n + cfg.allNodesSize * s.ordering.nextGuid n :=
      Nat.mod_eq_of_lt hguid
    exact ⟨⟨_, txns, rfl, hlen, hkeys⟩, by rw [hnumber]; exact hids⟩

namespace Collected

variable {b : Nat × List TxnProto} {txn : TxnProto}

theorem mem (h : Collected maxBatchSize b) (htxn : txn ∈ b.2) :
    ∃ localReplica offset client, txn = Sequencer.collectTxn localReplica maxBatchSize b.1 offset
      client ∧ offset < maxBatchSize ∧ txn.txnId = b.1 * maxBatchSize + offset ∧
      client.keys.Nodup := by
  obtain ⟨⟨localReplica, txns, hdata, hlen, hkeys⟩, hfits⟩ := h
  rw [hdata, Sequencer.collect, List.mem_mapIdx] at htxn
  obtain ⟨offset, hlt, rfl⟩ := htxn
  have hoffset : offset < maxBatchSize := Nat.lt_of_lt_of_le hlt hlen
  refine ⟨localReplica, offset, txns[offset], rfl, hoffset, ?_, hkeys _ (List.getElem_mem hlt)⟩
  exact TxnIds.clientTxnId_eq (by rw [Nat.add_mul, Nat.one_mul] at hfits; omega)

theorem txnId_lt (h : Collected maxBatchSize b) (htxn : txn ∈ b.2) : txn.txnId < 2147483648 := by
  obtain ⟨localReplica, offset, client, -, hoffset, hid, -⟩ := h.mem htxn
  have hfits := h.fits
  rw [Nat.add_mul, Nat.one_mul] at hfits
  omega

/-- The ids of a batch, divided by its size, are its number. -/
theorem txnId_div (h : Collected maxBatchSize b) (htxn : txn ∈ b.2) :
    txn.txnId / maxBatchSize = b.1 := by
  obtain ⟨localReplica, offset, client, -, hoffset, hid, -⟩ := h.mem htxn
  rw [hid, Nat.mul_comm, Nat.mul_add_div (by omega), Nat.div_eq_of_lt hoffset, Nat.add_zero]

theorem nodup_txnIds (h : Collected maxBatchSize b) : (b.2.map TxnProto.txnId).Nodup := by
  have hpos : ∀ i (hi : i < b.2.length), b.2[i].txnId = b.1 * maxBatchSize + i := by
    obtain ⟨⟨localReplica, txns, hdata, hlen, -⟩, hfits⟩ := h
    intro i hi
    have hlt : i < maxBatchSize := by
      have : b.2.length = txns.length := by rw [hdata, Sequencer.collect, List.length_mapIdx]
      omega
    simp only [hdata, Sequencer.collect, List.getElem_mapIdx]
    exact TxnIds.clientTxnId_eq (by rw [Nat.add_mul, Nat.one_mul] at hfits; omega)
  rw [List.Nodup, List.pairwise_map, List.pairwise_iff_getElem]
  intro i j hi hj hij heq
  rw [hpos i hi, hpos j hj] at heq
  omega

end Collected

/-! ## The agreed order -/

/-- What is known of an order of transactions of clients. -/
structure Agreed (order : List TxnProto) : Prop extends Order order where
  names : (order.map fun txn => txn.txnId % UInt32.size).Nodup
  fresh : Fresh order

theorem Agreed.mono {order order' : List TxnProto} (h : Agreed order') (hp : order <+: order') :
    Agreed order where
  distinctKeys txn htxn := h.distinctKeys txn (hp.subset htxn)
  ids := h.ids.sublist (hp.sublist.map _)
  normal txn htxn := h.normal txn (hp.subset htxn)
  names := h.names.sublist (hp.sublist.map _)
  fresh txn htxn := h.fresh txn (hp.subset htxn)

/-- A transaction that is agreed on is one of a batch. -/
theorem mem_agreed {ordering : Ordering} {txn : TxnProto} (h : txn ∈ ordering.agreed) :
    ∃ b ∈ ordering.batches, txn ∈ b.2 := by
  obtain ⟨batchId, -, htxn⟩ := List.mem_flatMap.mp h
  rw [Ordering.contentOf] at htxn
  cases hl : ordering.batches.lookup batchId with
  | none =>
      rw [hl] at htxn
      exact absurd htxn List.not_mem_nil
  | some data =>
      rw [hl] at htxn
      obtain ⟨before, after, hsplit, -⟩ := List.lookup_eq_some_iff.mp hl
      exact ⟨(batchId, data), by rw [hsplit]; simp, htxn⟩

theorem agreed_of_reach (hn : 0 < cfg.nodesPerReplica)
    (h : (machine cfg maxBatchSize compute init).Reach (Fits cfg maxBatchSize) s) :
    Agreed s.ordering.agreed := by
  obtain ⟨hr, hcollected⟩ := ordering_of_reach h
  have hi := Ordering.Inv.reach hn hr
  have hcontent : ∀ batchId, s.ordering.contentOf batchId = [] ∨
      Collected maxBatchSize (batchId, s.ordering.contentOf batchId) := by
    intro batchId
    rw [Ordering.contentOf]
    cases hl : s.ordering.batches.lookup batchId with
    | none => exact .inl rfl
    | some data =>
        obtain ⟨before, after, hsplit, -⟩ := List.lookup_eq_some_iff.mp hl
        exact .inr (hcollected (batchId, data) (by rw [hsplit]; simp))
  have hids : (s.ordering.agreed.map TxnProto.txnId).Nodup := by
    rw [Ordering.agreed, List.map_flatMap, List.nodup_flatMap]
    refine ⟨fun batchId _ => ?_, hi.nodup_order.imp fun {b b'} hne => ?_⟩
    · rcases hcontent batchId with hnil | hc
      · rw [hnil]
        exact List.nodup_nil
      · exact hc.nodup_txnIds
    · intro id hid hid'
      obtain ⟨txn, htxn, rfl⟩ := List.mem_map.mp hid
      obtain ⟨txn', htxn', heq⟩ := List.mem_map.mp hid'
      have hc := (hcontent b).resolve_left (List.ne_nil_of_mem htxn)
      have hc' := (hcontent b').resolve_left (List.ne_nil_of_mem htxn')
      have hb : txn.txnId / maxBatchSize = b := hc.txnId_div htxn
      have hb' : txn'.txnId / maxBatchSize = b' := hc'.txnId_div htxn'
      exact hne (by rw [← hb, ← hb', heq])
  have hsmall : ∀ txn ∈ s.ordering.agreed, txn.txnId % UInt32.size = txn.txnId := by
    intro txn htxn
    obtain ⟨b, hb, hmem⟩ := mem_agreed htxn
    have hlt := (hcollected b hb).txnId_lt hmem
    exact Nat.mod_eq_of_lt (by simp only [UInt32.size]; omega)
  have hclient : ∀ txn ∈ s.ordering.agreed, ∃ localReplica batchNumber offset client,
      txn = Sequencer.collectTxn localReplica maxBatchSize batchNumber offset client ∧
        client.keys.Nodup := by
    intro txn htxn
    obtain ⟨b, hb, hmem⟩ := mem_agreed htxn
    obtain ⟨localReplica, offset, client, heq, -, -, hkeys⟩ := (hcollected b hb).mem hmem
    exact ⟨localReplica, b.1, offset, client, heq, hkeys⟩
  refine ⟨⟨fun txn htxn => ?_, hids, fun txn htxn => ?_⟩, ?_, fun txn htxn => ?_⟩
  · obtain ⟨localReplica, batchNumber, offset, client, rfl, hkeys⟩ := hclient txn htxn
    exact hkeys
  · obtain ⟨localReplica, batchNumber, offset, client, rfl, -⟩ := hclient txn htxn
    rfl
  · rw [List.map_congr_left hsmall]
    exact hids
  · obtain ⟨localReplica, batchNumber, offset, client, rfl, -⟩ := hclient txn htxn
    exact ⟨rfl, rfl⟩

/-! ## Runs -/

theorem parsed_grows {e : Event} (h : (machine cfg maxBatchSize compute init).next s e = some s')
    (r m : Nat) : parsed cfg s r m <+: parsed cfg s' r m := by
  cases e with
  | ordering e =>
      obtain ⟨ordering, hnext, rfl⟩ := Option.map_eq_some_iff.mp h
      exact Ordering.next_parsed hnext _
  | replica r' e =>
      obtain ⟨-, h⟩ := Option.ite_none_right_eq_some.mp h
      obtain ⟨replica, -, rfl⟩ := Option.map_eq_some_iff.mp h
      exact List.prefix_rfl

/-- The nodes look up no counters, and lock no more than what has been parsed. -/
theorem plain_of_reach
    (h : (machine cfg maxBatchSize compute init).Reach (Fits cfg maxBatchSize) s) (r m : Nat) :
    ((s.replicas r).nodes m).verifying = none ∧
      ((s.replicas r).nodes m).next ≤ (parsed cfg s r m).length := by
  revert r m
  refine h.invariant (P := fun s => ∀ r m, ((s.replicas r).nodes m).verifying = none ∧
    ((s.replicas r).nodes m).next ≤ (parsed cfg s r m).length)
    (fun r m => ⟨rfl, Nat.zero_le _⟩) ?_
  intro s e s' _ _ hi hn r m
  cases e with
  | ordering e =>
      have hgrows := parsed_grows hn r m
      obtain ⟨ordering, hnext, rfl⟩ := Option.map_eq_some_iff.mp hn
      exact ⟨(hi r m).1, Nat.le_trans (hi r m).2 hgrows.length_le⟩
  | replica r' e =>
      obtain ⟨-, hn⟩ := Option.ite_none_right_eq_some.mp hn
      obtain ⟨replica, hnext, rfl⟩ := Option.map_eq_some_iff.mp hn
      dsimp only
      by_cases hr : r = r'
      · subst hr
        rw [update_self]
        exact replicaNext_plain hnext (hi r m)
      · rw [update_of_ne hr]
        exact hi r m

/-- What a replica does is a run over every order that begins with what its nodes have
parsed. -/
theorem follows (h : (machine cfg maxBatchSize compute init).Reach (Fits cfg maxBatchSize) s)
    {r : Nat} {order : List TxnProto} (hf : Fresh order)
    (hp : ∀ m < cfg.nodesPerReplica,
      parsed cfg s r m <+: OriginalReplica.stream (replicaConfig cfg r) order m) :
    (OriginalReplica.machine (replicaConfig cfg r) order compute init).Reachable
      (s.replicas r) := by
  revert hp
  refine h.invariant (P := fun s => (∀ m < cfg.nodesPerReplica,
      parsed cfg s r m <+: OriginalReplica.stream (replicaConfig cfg r) order m) →
    (OriginalReplica.machine (replicaConfig cfg r) order compute init).Reachable (s.replicas r))
    (fun _ => ?_) ?_
  · have hinit : (OriginalReplica.machine (replicaConfig cfg r) order compute init).init =
        (machine cfg maxBatchSize compute init).init.replicas r :=
      congrArg (fun nodes => ({ nodes } : Replica)) (funext fun m => initial_eq hf init m)
    rw [← hinit]
    exact .init
  · intro s e s' hr _ hi hn hp
    have hbefore : ∀ m < cfg.nodesPerReplica,
        parsed cfg s r m <+: OriginalReplica.stream (replicaConfig cfg r) order m := fun m hm =>
      (parsed_grows hn r m).trans (hp m hm)
    have hs := hi hbefore
    cases e with
    | ordering e =>
        obtain ⟨ordering, -, rfl⟩ := Option.map_eq_some_iff.mp hn
        exact hs
    | replica r' e =>
        obtain ⟨⟨-, hm⟩, hn⟩ := Option.ite_none_right_eq_some.mp hn
        obtain ⟨replica, hnext, rfl⟩ := Option.map_eq_some_iff.mp hn
        dsimp only
        by_cases hr' : r = r'
        · subst hr'
          rw [update_self]
          obtain ⟨hv, hlen⟩ := plain_of_reach hr r (nodeOf e)
          refine hs.step (e := e) trivial ?_
          rw [next_stream]
          exact replicaNext_congr (hbefore _ hm) hlen hv (lifecycle hs _) hnext
        · rw [update_of_ne hr']
          exact hs

/-! ## Main result -/

/-- What the nodes of a replica have parsed is a prefix of their part of the order. -/
theorem parsed_of_agreed (hn : 0 < cfg.nodesPerReplica)
    (h : (machine cfg maxBatchSize compute init).Reach (Fits cfg maxBatchSize) s)
    (hlen : s.ordering.paxos.leader.log.entries.length < UInt32.size) (r : Nat) {m : Nat}
    (hm : m < cfg.nodesPerReplica) :
    parsed cfg s r m <+: OriginalReplica.stream cfg s.ordering.agreed m := by
  obtain ⟨hr, -⟩ := ordering_of_reach h
  have hi := Ordering.Inv.reach hn hr
  have hparsed := (Ordering.parsed_of_reach hn hi.taken_nonempty (Ordering.Inv.taken_length hlen)
    hi.nodup_order hr hi.future (cfg.lookupMachineId m r)).parsed_eq
  rw [Ordering.txns_taken] at hparsed
  have hmod : cfg.lookupMachineId m r % cfg.nodesPerReplica = m := by
    rw [ClusterConfig.lookupMachineId, Nat.add_comm, Nat.add_mul_mod_self_right,
      Nat.mod_eq_of_lt hm]
  rw [hmod] at hparsed
  exact hparsed

theorem stream_mono {order order' : List TxnProto} (h : order <+: order') (m : Nat) :
    OriginalReplica.stream cfg order m <+: OriginalReplica.stream cfg order' m :=
  (h.filter _).map _

/-- What a replica has after the first transactions of the agreed order. -/
theorem records_of_hasDone (hn : 0 < cfg.nodesPerReplica)
    (h : (machine cfg maxBatchSize compute init).Reach (Fits cfg maxBatchSize) s)
    (hlen : s.ordering.paxos.leader.log.entries.length < UInt32.size) {k r : Nat}
    (hdone : HasDone cfg s r (s.ordering.agreed.take k)) :
    records (replicaConfig cfg r) (s.replicas r) =
      ((s.ordering.agreed.take k).map TxnProto.client).foldl (runAlone compute) init := by
  have hagreed := (agreed_of_reach hn h).mono (List.take_prefix k _)
  have hparsed : ∀ m < cfg.nodesPerReplica,
      parsed cfg s r m = OriginalReplica.stream cfg (s.ordering.agreed.take k) m := by
    intro m hm
    refine List.IsPrefix.eq_of_length ?_ (hdone m hm).1
    exact List.prefix_of_prefix_length_le (parsed_of_agreed hn h hlen r hm)
      (stream_mono (List.take_prefix k _) m) (Nat.le_of_eq (hdone m hm).1)
  have hs := follows h hagreed.fresh fun m hm => by
    rw [hparsed m hm]
    exact List.prefix_rfl
  refine OriginalReplica.records_eq hagreed.toOrder (reach_of_names hagreed.names hs) ?_
  refine OriginalReplica.complete_of_lt hn fun m hm p hp => (hdone m hm).2 p ?_
  rw [hparsed m hm]
  exact hp

/-- A replica that has executed the first transactions of the agreed order has the
records of their serial execution. So replicas that are equally far agree. -/
theorem records_eq_agreed (cfg : ClusterConfig) (maxBatchSize : Nat) (compute : Compute)
    (init : Key → Record) (hn : 0 < cfg.nodesPerReplica) (s : OriginalSystem)
    (h : (machine cfg maxBatchSize compute init).Reach (Fits cfg maxBatchSize) s)
    (hlen : s.ordering.paxos.leader.log.entries.length < UInt32.size) (k r : Nat)
    (hdone : HasDone cfg s r (s.ordering.agreed.take k)) :
    records (replicaConfig cfg r) (s.replicas r) =
        ((s.ordering.agreed.take k).map TxnProto.client).foldl (runAlone compute) init ∧
      ∀ r', HasDone cfg s r' (s.ordering.agreed.take k) →
        records (replicaConfig cfg r) (s.replicas r) =
          records (replicaConfig cfg r') (s.replicas r') := by
  have hrecords := records_of_hasDone hn h hlen hdone
  exact ⟨hrecords, fun r' hdone' => hrecords.trans (records_of_hasDone hn h hlen hdone').symm⟩

/-- Two replicas of one machine; the second batch has two transactions. -/
theorem records_eq_agreed_twoReplicas :
    let cfg : ClusterConfig := { replicasSize := 2 }
    let compute : Compute := fun _ view _ => 48 :: ((view [48]).map Record.value).getD []
    let init : Key → Record := fun _ => ⟨[], 0, 0⟩
    ∃ s, (machine cfg 10 compute init).Reach (Fits cfg 10) s ∧
      (records (replicaConfig cfg 0) (s.replicas 0) =
          ((s.ordering.agreed.take 2).map TxnProto.client).foldl (runAlone compute) init ∧
        records (replicaConfig cfg 0) (s.replicas 0) =
          records (replicaConfig cfg 1) (s.replicas 1)) ∧
      (records (replicaConfig cfg 0) (s.replicas 0) [48]).value = [48, 48] := by
  intro cfg compute init
  obtain ⟨s, hs, ⟨hlen, hval⟩, hdone⟩ := Machine.exists_of_runIf (m := machine cfg 10 compute init)
    (Fits cfg 10) (P := fun s => (s.ordering.paxos.leader.log.entries.length < UInt32.size ∧
        (records (replicaConfig cfg 0) (s.replicas 0) [48]).value = [48, 48]) ∧
      ∀ r : Nat, r < 2 → ∀ m < cfg.nodesPerReplica, (parsed cfg s r m).length =
          (OriginalReplica.stream cfg (s.ordering.agreed.take 2) m).length ∧
        ∀ p < (parsed cfg s r m).length, Replica.Executed ((s.replicas r).nodes m) p)
    (let txn : ClientTxn := { txnId := 0, readWriteSet := [⟨[48], 0, 0⟩] }
      let ordering : List Ordering.Event := [.epoch 0 [txn], .epoch 1 [txn, txn], .gotBatch 1,
        .gotBatch 0, .gotVote 0, .gotVote 0, .propose, .receive 1, .gotAck 1, .commit, .receive 1,
        .gotBatch 1, .gotBatch 0, .gotVote 1, .gotVote 0, .propose, .receive 1, .gotAck 1, .commit,
        .receive 1, .deliver 0 0, .deliver 0 0, .deliver 0 0, .deliver 0 0, .deliver 1 3,
        .deliver 1 2, .deliver 1 1, .deliver 1 0, .round 0 true, .round 0 true, .round 1 true,
        .round 1 true]
      let replica : List Replica.Event := [.node 0 .parse, .node 0 .parse, .node 0 .dispatch,
        .start 0, .node 0 (.run 0 0 0), .node 0 .handleDone, .node 0 .dispatch, .start 0,
        .node 0 (.run 1 0 0)]
      ordering.map .ordering ++ replica.map (.replica 0) ++ replica.map (.replica 1))
    (by decide)
  have hone := records_eq_agreed cfg 10 compute init (by decide) s hs hlen 2 0 (hdone 0 (by decide))
  exact ⟨s, hs, ⟨hone.1, hone.2 1 (hdone 1 (by decide))⟩, hval⟩

end OriginalSystem

end Calvin
