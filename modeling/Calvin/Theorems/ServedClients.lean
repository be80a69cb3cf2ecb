import Calvin.Applications.Execution
import Calvin.Theorems.AgreedRuns
import Calvin.Theorems.OriginalClients

/-!
# The original system serves its clients

`calvindb_server` in mode 0, from the random numbers of the clients to the values of the
records. What the clients return is what the conditions on the system's runs ask for, so
nothing is left to assume of the transactions.

* `Flags`: the client and the application that the server creates;
* `Offers`: runs whose batches are those of these clients;
* `runAlone_bump`: the values after an order of transactions;
* `served_clients`: the result.
-/

namespace Calvin

open Function Lib Lib.Draw

/-! ## The server -/

/-- The flags of `calvindb_server` that concern the transactions. -/
structure Flags where
  experiment : Nat := 0
  percentMp : Nat := 0
  hotRecords : Nat := 10000
  maxBatchSize : Nat := 100

namespace Flags

variable (flags : Flags) (conf : ClusterConfig)

/-- `GetTxn` of the client that the server creates; `hot_records` is the number of
warehouses of a node for TPC-C. -/
def getTxn (txnId : Nat) : Draw TxnProto :=
  if flags.experiment = 0 then
    MClient.getTxn { config := conf, percentMp := flags.percentMp } >>=
      Microbenchmark.generate { config := conf, hotRecords := flags.hotRecords } txnId
  else
    TClient.getTxn { config := conf, percentMp := flags.percentMp } >>=
      Tpcc.generate { config := conf, warehousesPerNode := flags.hotRecords } txnId

/-- The application has the records for its transactions. -/
def FitsParts : Prop :=
  if flags.experiment = 0 then
    Microbenchmark.FitsParts { config := conf, hotRecords := flags.hotRecords }
  else Tpcc.FitsParts { config := conf, warehousesPerNode := flags.hotRecords }

/-- Some numbers make the client return the transaction. -/
def Returns (txn : ClientTxn) : Prop :=
  ∃ txnId rs proto rest, (flags.getTxn conf txnId).run rs = .returned proto rest ∧
    proto.client = txn

variable {flags conf}

theorem getTxn_yields (hnode : conf.relativeNodeId < conf.nodesPerReplica)
    (h : flags.FitsParts conf) (txnId : Nat) :
    Yields randMax (flags.getTxn conf txnId) fun txn =>
      ∃ size parts, Suits conf size parts txn := by
  unfold FitsParts at h
  unfold getTxn
  split at h
  case isTrue hexperiment =>
      rw [if_pos hexperiment]
      refine (mClient_yields hnode h txnId).mono ?_
      rintro txn ⟨parts, -, hsuits, -⟩
      exact ⟨_, parts, hsuits.2.2⟩
  case isFalse hexperiment =>
      rw [if_neg hexperiment]
      refine (tClient_yields hnode h txnId).mono ?_
      rintro txn ⟨parts, -, hsuits, -⟩
      exact ⟨_, parts, hsuits.2⟩

/-- The applications depend on the number of partitions only. -/
theorem FitsParts.node {cfg : ClusterConfig} (h : flags.FitsParts cfg)
    (hnodes : conf.nodesPerReplica = cfg.nodesPerReplica) : flags.FitsParts conf := by
  unfold FitsParts at h ⊢
  split at h
  case isTrue hexperiment =>
      rw [if_pos hexperiment]
      exact ⟨h.hot, h.cold, by rw [hnodes]; exact h.int⟩
  case isFalse hexperiment =>
      rw [if_neg hexperiment]
      exact ⟨by rw [hnodes]; exact h.nodes, h.one, by rw [hnodes]; exact h.int⟩

theorem Returns.suits (hnode : conf.relativeNodeId < conf.nodesPerReplica)
    (h : flags.FitsParts conf) {txn : ClientTxn} (hreturns : flags.Returns conf txn) :
    ∃ size parts proto, proto.client = txn ∧ Suits conf size parts proto := by
  obtain ⟨txnId, rs, proto, rest, hrun, hclient⟩ := hreturns
  obtain ⟨size, parts, hsuits⟩ := ((getTxn_yields hnode h txnId).runs rs).2 proto rest hrun
  exact ⟨size, parts, proto, hclient, hsuits⟩

end Flags

/-! ## What an order of transactions leaves -/

/-- How many transactions write a record. -/
def updates (order : List TxnProto) (k : Key) : Nat :=
  order.countP fun txn => decide (k ∈ txn.client.writeKeys)

theorem ClientTxn.writeKeys_subset (txn : ClientTxn) : txn.writeKeys ⊆ txn.keys := by
  intro k hk
  rw [ClientTxn.keys, ClientTxn.entries, List.map_append]
  exact List.mem_append_right _ hk

/-- One after the other, each transaction changes the value of each record it writes
once. -/
theorem runAlone_bump (order : List TxnProto) (init : Key → Record) (k : Key) :
    (order.map TxnProto.client).foldl (Replica.runAlone bumpCompute) init k =
      { init k with value := bump^[updates order k] (init k).value } := by
  induction order using List.reverseRecOn with
  | nil => rfl
  | append_singleton order txn ih =>
      rw [List.map_append, List.foldl_append, List.map_singleton, List.foldl_cons, List.foldl_nil,
        Replica.runAlone, updates, List.countP_append, List.countP_singleton]
      by_cases hk : k ∈ txn.client.writeKeys
      · have hread := txn.client.writeKeys_subset hk
        simp only [hk, hread, bumpCompute, if_true, decide_true, Option.map_some,
          Option.getD_some, iterate_succ_apply', ih, updates]
      · simp only [hk, if_false, decide_false, Bool.false_eq_true, Nat.add_zero, ih, updates]

/-! ## Runs with the clients -/

namespace OriginalSystem

open Replica (records)

/-- No batch number is cut and the ids of the transactions fit `int32`; the
transactions of a batch are those that the client of the node has returned. -/
def Offers (cfg : ClusterConfig) (flags : Flags) (s : OriginalSystem) : Event → Prop
  | .ordering (.epoch n txns) =>
      let batchNumber := 1 + n + cfg.allNodesSize * s.ordering.nextGuid n
      batchNumber < UInt64.size ∧ (batchNumber + 1) * flags.maxBatchSize ≤ 2147483648 ∧
        ∀ txn ∈ txns, flags.Returns (SequencerWriter.nodeConfig cfg n) txn
  | _ => True

section

variable {cfg : ClusterConfig} {flags : Flags} {compute : Compute} {init : Key → Record}
  {s : OriginalSystem}

theorem suits_of_returns (hn : 0 < cfg.nodesPerReplica) (hfits : flags.FitsParts cfg) {n : Nat}
    {txn : ClientTxn} (h : flags.Returns (SequencerWriter.nodeConfig cfg n) txn) :
    ∃ size parts proto, proto.client = txn ∧ Suits cfg size parts proto := by
  have hnode : flags.FitsParts (SequencerWriter.nodeConfig cfg n) := hfits.node rfl
  obtain ⟨size, parts, proto, hclient, hsuits⟩ := h.suits (Nat.mod_lt n hn) hnode
  exact ⟨size, parts, proto, hclient, hsuits.distinct, hsuits.below, hsuits.inParts, hsuits.writes⟩

theorem offers_of_inner (s : OriginalSystem) (e : Event) (he : Inner e) : Offers cfg flags s e := by
  cases e with
  | ordering e =>
      cases e with
      | epoch n txns => exact he.elim
      | _ => trivial
  | replica r e => trivial

/-- The runs are among those the system is right in. -/
theorem fits_of_offers (hn : 0 < cfg.nodesPerReplica) (hfits : flags.FitsParts cfg) {e : Event}
    (h : Offers cfg flags s e) : Fits cfg flags.maxBatchSize s e := by
  cases e with
  | replica r e => trivial
  | ordering e =>
      cases e with
      | epoch n txns =>
          obtain ⟨hguid, hids, hreturns⟩ := h
          refine ⟨hguid, hids, fun txn htxn => ?_⟩
          obtain ⟨size, parts, proto, rfl, hsuits⟩ := suits_of_returns hn hfits (hreturns txn htxn)
          exact hsuits.distinct
      | _ => trivial

/-- Every transaction of a batch has a record to write at each participant. -/
theorem writes_of_offers (hn : 0 < cfg.nodesPerReplica) (hfits : flags.FitsParts cfg)
    (h : (machine cfg flags.maxBatchSize compute init).Reach (Offers cfg flags) s) :
    ∀ b ∈ s.ordering.batches, ∀ txn ∈ b.2, ∀ entry ∈ txn.client.entries,
      ∃ w ∈ txn.readWriteSet, cfg.lookupPartition w.key = cfg.lookupPartition entry.key := by
  refine batches_of_reach (fun s n txns hoffers _ => ?_) h
  -- the new batch has the keys that the client has returned
  intro batchNumber txn htxn entry hentry
  obtain ⟨offset, hlt, rfl⟩ := List.mem_mapIdx.mp htxn
  obtain ⟨size, parts, proto, hclient, hsuits⟩ :=
    suits_of_returns hn hfits (hoffers.2.2 _ (List.getElem_mem hlt))
  rw [← hclient] at hentry ⊢
  exact hsuits.writes _ (hsuits.inParts entry hentry)

end

/-- In mode 0, whatever the clients draw and in whatever order things happen. A replica
that has executed the first transactions of the agreed order has changed each record
once for each of them that writes it. And what has been submitted can be finished:
every batch is in the agreed order, or in the first sequence of the log, and every
replica has executed the agreed order, with these values, and released all locks. -/
theorem served_clients (cfg : ClusterConfig) (flags : Flags) (init : Key → Record)
    (hn : 0 < cfg.nodesPerReplica) (hr : 0 < cfg.replicasSize) (hfits : flags.FitsParts cfg)
    (s : OriginalSystem)
    (h : (machine cfg flags.maxBatchSize bumpCompute init).Reach (Offers cfg flags) s)
    (hbatches : s.ordering.batches.length < UInt32.size) :
    (∀ k r, HasDone cfg s r (s.ordering.agreed.take k) → ∀ key,
      records (replicaConfig cfg r) (s.replicas r) key = { init key with
        value := bump^[updates (s.ordering.agreed.take k) key] (init key).value }) ∧
    ∃ es t, (machine cfg flags.maxBatchSize bumpCompute init).run s es = some t ∧
      (∀ e ∈ es, Inner e) ∧ t.ordering.batches = s.ordering.batches ∧
      (∀ b ∈ s.ordering.batches,
        b.1 ∈ (t.ordering.paxos.leader.log.sequences.take 1).flatten ∨ b.1 ∈ t.ordering.order) ∧
      ∀ r < cfg.replicasSize,
        (∀ m < cfg.nodesPerReplica, ∀ p < (OriginalReplica.stream cfg t.ordering.agreed m).length,
          p ∈ ((t.replicas r).nodes m).deleted) ∧
        ∀ key, records (replicaConfig cfg r) (t.replicas r) key = { init key with
          value := bump^[updates t.ordering.agreed key] (init key).value } := by
  have hreach := h.mono fun _ _ => fits_of_offers hn hfits
  have hinv := Ordering.Inv.reach hn (ordering_of_reach hreach).1
  refine ⟨fun k r hdone key => ?_, ?_⟩
  · rw [records_of_hasDone hn hreach (hinv.log_length_le.trans_lt hbatches) hdone, runAlone_bump]
  · obtain ⟨es, t, hes, hrun, hsame, hlogged, hfinished⟩ :=
      leads_all hn hr hreach hbatches (writes_of_offers hn hfits h)
    refine ⟨es, t, hrun, hes, hsame, hlogged, fun r hr => ⟨(hfinished r hr).deleted, fun key => ?_⟩⟩
    rw [(hfinished r hr).records, runAlone_bump]

/-- The second node has sent an empty batch, which is committed, and a batch with a
transaction of its client over both partitions. -/
theorem served_clients_secondNode :
    let cfg : ClusterConfig := { nodesPerReplica := 2, replicasSize := 2 }
    let flags : Flags := { percentMp := 10, hotRecords := 3 }
    let init : Key → Record := fun _ => ⟨[97, 98, 99, 120, 121, 122, 97, 97, 97], 0, 0⟩
    ∃ s, s.ordering.paxos.leader.log.sequences = [[4002]] ∧
      s.ordering.batches.map Prod.fst = [4002, 4006] ∧
      (∀ k r, HasDone cfg s r (s.ordering.agreed.take k) → ∀ key,
        records (replicaConfig cfg r) (s.replicas r) key = { init key with
          value := bump^[updates (s.ordering.agreed.take k) key] (init key).value }) ∧
      ∃ es t, (machine cfg flags.maxBatchSize bumpCompute init).run s es = some t ∧
        (∀ e ∈ es, Inner e) ∧ t.ordering.batches = s.ordering.batches ∧
        (∀ b ∈ s.ordering.batches,
          b.1 ∈ (t.ordering.paxos.leader.log.sequences.take 1).flatten ∨ b.1 ∈ t.ordering.order) ∧
        ∀ r < cfg.replicasSize,
          (∀ m < cfg.nodesPerReplica, ∀ p < (OriginalReplica.stream cfg t.ordering.agreed m).length,
            p ∈ ((t.replicas r).nodes m).deleted) ∧
          ∀ key, records (replicaConfig cfg r) (t.replicas r) key = { init key with
            value := bump^[updates t.ordering.agreed key] (init key).value } := by
  intro cfg flags init
  obtain ⟨proto, rest, hrun⟩ : ∃ proto rest, (Flags.getTxn { percentMp := 10, hotRecords := 3 }
      (SequencerWriter.nodeConfig { nodesPerReplica := 2, replicasSize := 2 } 1) 7).run
        [5, 0, 3, 4, 1, 2, 3, 3, 4, 5, 6, 7, 8] = .returned proto rest := by
    have hnode : SequencerWriter.nodeConfig { nodesPerReplica := 2, replicasSize := 2 } 1 =
      { nodesPerReplica := 2, replicasSize := 2, relativeNodeId := 1 } := rfl
    rw [hnode, Flags.getTxn, if_pos rfl]
    exact ⟨_, _, rfl⟩
  have hreturns : flags.Returns (SequencerWriter.nodeConfig cfg 1) proto.client :=
    ⟨7, _, proto, rest, hrun, rfl⟩
  -- the empty batch is committed
  obtain ⟨s₁, hs₁, hlogged, hbatches, hguid⟩ := Machine.exists_of_runIf
    (m := machine cfg flags.maxBatchSize bumpCompute init)
    (fun s e => e = .ordering (.epoch 1 []) ∧ s.ordering.nextGuid 1 = 1000 ∨ Inner e)
    (P := fun s => s.ordering.paxos.leader.log.sequences = [[4002]] ∧
      s.ordering.batches.map Prod.fst = [4002] ∧ s.ordering.nextGuid 1 = 1001)
    (let ordering : List Ordering.Event := [.epoch 1 [], .gotBatch 0, .gotBatch 0, .gotVote 0,
      .gotVote 0, .propose, .receive 1, .gotAck 1, .commit, .receive 1]
    ordering.map .ordering)
    (by decide)
  have hoffers : (machine cfg flags.maxBatchSize bumpCompute init).Reach (Offers cfg flags) s₁ :=
    hs₁.mono fun s e hgood => by
      rcases hgood with ⟨rfl, h1000⟩ | hinner
      · simp only [Offers, h1000]
        exact ⟨by decide, by decide, fun txn htxn => absurd htxn List.not_mem_nil⟩
      · exact offers_of_inner s e hinner
  -- a batch with the transaction
  obtain ⟨s, hs, hlogged, hnumbers⟩ : ∃ s,
      (machine cfg flags.maxBatchSize bumpCompute init).Reach (Offers cfg flags) s ∧
      s.ordering.paxos.leader.log.sequences = [[4002]] ∧
      s.ordering.batches.map Prod.fst = [4002, 4006] := by
    have hnumber : TxnIds.getGUID cfg.allNodesSize 1 1001 = 4006 := by decide
    refine ⟨_, hoffers.step (e := .ordering (.epoch 1 [proto.client])) ?_ rfl, hlogged, ?_⟩
    · simp only [Offers, hguid]
      refine ⟨by decide, by decide, fun txn htxn => ?_⟩
      rw [List.mem_singleton.mp htxn]
      exact hreturns
    · rw [List.map_append, hbatches, List.map_singleton, hguid, hnumber]
      rfl
  have hlen : s.ordering.batches.length = 2 := by
    rw [← List.length_map, hnumbers]
    rfl
  exact ⟨s, hlogged, hnumbers, served_clients cfg flags init (by decide) (by decide)
    ⟨by decide, by decide, by decide⟩ s hs (by rw [hlen]; decide)⟩

end OriginalSystem

end Calvin
