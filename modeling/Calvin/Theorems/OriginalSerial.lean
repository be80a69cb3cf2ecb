import Calvin.Scheduler.OneMaster
import Calvin.Theorems.RequestChopping

/-!
# The original system is serializable

In mode 0 all nodes of a replica schedule one global order.

* `follows`: a run of mode 0 is followed by a run of mode 1 in which replica 0 is
  the master of everything;
* `records_eq_order`: a replica that has executed everything has the records of the
  serial execution in the global order, however many partitions it has.
-/

namespace Calvin.OriginalReplica

open Function Lib
open Replica (Event nodeConfig setNode Executed Involves IsMerge OneChannel records runAlone)

/-- A global order: the clients number their requests, and no request has a key
twice. There are no remasters. -/
structure Order (order : List TxnProto) : Prop where
  distinctKeys : ∀ txn ∈ order, txn.client.keys.Nodup
  ids : (order.map TxnProto.txnId).Nodup
  normal : ∀ txn ∈ order, txn.remasterTxn = false

/-- The log of replica 0; the transactions without a key are scheduled nowhere. -/
def copies (order : List TxnProto) : List TxnProto :=
  (order.filter fun txn => txn.client.entries ≠ []).map oneMaster

/-- The logs of the origins: only replica 0 has one. -/
def copyLogs (order : List TxnProto) (r : Nat) : List TxnProto :=
  if r = 0 then copies order else []

variable {cfg : ClusterConfig} {order : List TxnProto} {compute : Compute} {init : Key → Record}
  {s s' t : Replica}

theorem mem_copies {c : TxnProto} (h : c ∈ copies order) :
    ∃ txn ∈ order, txn.client.entries ≠ [] ∧ oneMaster txn = c := by
  obtain ⟨txn, htxn, rfl⟩ := List.mem_map.mp h
  obtain ⟨hmem, hne⟩ := List.mem_filter.mp htxn
  exact ⟨txn, hmem, of_decide_eq_true hne, rfl⟩

theorem involves_oneMaster {r : Nat} {txn : TxnProto} (h : txn.client.entries ≠ []) :
    Involves r (oneMaster txn).client ↔ r = 0 := by
  rw [Involves, oneMaster_entries]
  constructor
  · rintro ⟨entry, he, rfl⟩
    obtain ⟨e, -, rfl⟩ := List.mem_map.mp he
    rfl
  · rintro rfl
    obtain ⟨e, he⟩ := List.exists_mem_of_ne_nil _ h
    exact ⟨oneMasterEntry e, List.mem_map_of_mem he, rfl⟩

theorem logs_copies (ho : Order order) :
    Replica.Logs (copyLogs order) (fun _ => 0) ((copies order).map TxnProto.client) where
  origin r txn h := by
    unfold copyLogs at h
    split at h
    case isTrue hr =>
        obtain ⟨t, -, -, rfl⟩ := mem_copies h
        exact hr.symm
    case isFalse => cases h
  copies r := by
    have hall : ∀ c ∈ copies order, c.fakeTxn = false ∧ (Involves r c.client ↔ r = 0) := by
      intro c hc
      obtain ⟨t, -, hne, rfl⟩ := mem_copies hc
      exact ⟨rfl, involves_oneMaster hne⟩
    unfold copyLogs
    split
    case isTrue hr =>
        rw [List.filter_eq_self.mpr fun c hc => decide_eq_true (hall c hc).1,
          List.filter_eq_self.mpr fun t ht => ?_]
        obtain ⟨c, hc, rfl⟩ := List.mem_map.mp ht
        exact decide_eq_true ((hall c hc).2.mpr hr)
    case isFalse hr =>
        refine (List.filter_eq_nil_iff.mpr fun t ht hd => ?_).symm
        obtain ⟨c, hc, rfl⟩ := List.mem_map.mp ht
        exact hr ((hall c hc).2.mp (of_decide_eq_true hd))
  normal r txn h := by
    unfold copyLogs at h
    split at h
    case isTrue =>
        obtain ⟨t, ht, -, rfl⟩ := mem_copies h
        exact ho.normal t ht
    case isFalse => cases h
  distinctKeys txn h := by
    obtain ⟨c, hc, rfl⟩ := List.mem_map.mp h
    obtain ⟨t, ht, -, rfl⟩ := mem_copies hc
    rw [oneMaster_keys]
    exact ho.distinctKeys t ht
  masters txn h entry he := by
    obtain ⟨c, hc, rfl⟩ := List.mem_map.mp h
    obtain ⟨t, ht, -, rfl⟩ := mem_copies hc
    rw [oneMaster_entries] at he
    obtain ⟨e, -, rfl⟩ := List.mem_map.mp he
    rfl
  ids := by
    have hids : ((copies order).map TxnProto.client).map ClientTxn.txnId =
        (order.filter fun txn => txn.client.entries ≠ []).map TxnProto.txnId := by
      simp only [copies, List.map_map]
      rfl
    rw [hids]
    exact ho.ids.sublist (List.filter_sublist.map _)

theorem isMerge_copies (order : List TxnProto) : IsMerge (copyLogs order) (copies order) := by
  intro r
  unfold copyLogs
  split
  case isTrue hr =>
      refine List.filter_eq_self.mpr fun c hc => ?_
      obtain ⟨t, -, -, rfl⟩ := mem_copies hc
      exact decide_eq_true hr.symm
  case isFalse hr =>
      refine List.filter_eq_nil_iff.mpr fun c hc hd => hr ?_
      obtain ⟨t, -, -, rfl⟩ := mem_copies hc
      exact (of_decide_eq_true hd).symm

/-! ## The streams -/

theorem partitions_oneMaster (cfg : ClusterConfig) (txn : TxnProto) (entries : List KeyEntry) :
    LowlatencySequencer.partitions cfg (oneMaster txn) (entries.map oneMasterEntry) =
      Sequencer.partitions cfg entries := by
  have hall : (entries.map oneMasterEntry).filter
      (fun entry => entry.master = (oneMaster txn).originReplica) = entries.map oneMasterEntry := by
    refine List.filter_eq_self.mpr fun e he => ?_
    obtain ⟨e, -, rfl⟩ := List.mem_map.mp he
    exact decide_eq_true rfl
  rw [LowlatencySequencer.partitions, hall, List.map_map]
  rfl

theorem readers_oneMaster (cfg : ClusterConfig) (txn : TxnProto) :
    LowlatencySequencer.readers cfg (oneMaster txn) = Sequencer.readers cfg txn := by
  rw [LowlatencySequencer.readers, Sequencer.readers,
    ← partitions_oneMaster cfg txn (txn.readSet ++ txn.readWriteSet), List.map_append]
  rfl

theorem withReaders_oneMaster (cfg : ClusterConfig) (txn : TxnProto) :
    LowlatencySequencer.withReaders cfg (oneMaster txn) =
      oneMaster (Sequencer.withReaders cfg txn) := by
  have hwriters : LowlatencySequencer.writers cfg (oneMaster txn) = Sequencer.writers cfg txn :=
    partitions_oneMaster cfg txn txn.readWriteSet
  rw [LowlatencySequencer.withReaders, readers_oneMaster, hwriters]
  rfl

/-- The nodes schedule the copies of the same transactions. -/
theorem stream_copies (cfg : ClusterConfig) (order : List TxnProto) (m : Nat) :
    Replica.stream cfg (copies order) m = (stream cfg order m).map oneMaster := by
  have hfilter : (order.filter fun txn => txn.client.entries ≠ []).filter (fun txn =>
      (oneMaster txn).fakeTxn = false ∧
        m ∈ LowlatencySequencer.readers cfg (oneMaster txn)) =
      order.filter fun txn => m ∈ Sequencer.readers cfg txn := by
    rw [List.filter_filter]
    refine List.filter_congr fun txn _ => ?_
    rw [readers_oneMaster, ← Bool.decide_and]
    refine decide_eq_decide.mpr ⟨fun h => h.1.2, fun h => ⟨⟨rfl, h⟩, ?_⟩⟩
    obtain ⟨entry, he, -⟩ := Sequencer.mem_partitions.mp h
    exact List.ne_nil_of_mem he
  rw [Replica.stream, LowlatencySequencer.subbatch, copies, List.filter_map, List.map_map, stream,
    Sequencer.subbatch, List.map_map, ← hfilter]
  exact List.map_congr_left fun txn _ => withReaders_oneMaster cfg txn

theorem length_stream_copies (cfg : ClusterConfig) (order : List TxnProto) (m : Nat) :
    (Replica.stream cfg (copies order) m).length = (stream cfg order m).length := by
  rw [stream_copies, List.length_map]

theorem txnAt_copies (cfg : ClusterConfig) (order : List TxnProto) (m : Nat) :
    Replica.txnAt cfg (copies order) m = oneMaster ∘ txnAt cfg order m := by
  funext p
  rw [Replica.txnAt, stream_copies, List.getElem?_map, comp_apply, txnAt]
  cases (stream cfg order m)[p]? with
  | none => rfl
  | some txn => rfl

theorem txnAt_normal (ho : Order order) (m : Nat) (p : Ptr) :
    (txnAt cfg order m p).remasterTxn = false := by
  unfold txnAt
  cases h : (stream cfg order m)[p]? with
  | none => rfl
  | some txn =>
      obtain ⟨t, ht, rfl⟩ := List.mem_map.mp (List.mem_of_getElem? h)
      exact ho.normal t (List.mem_filter.mp ht).1

/-! ## Runs -/

/-- Replicas whose nodes have the same objects; the messages under way are the same,
but for the order. -/
structure SameReplica (s s' : Replica) : Prop where
  nodes : ∀ m, SameNode (s.nodes m) (s'.nodes m)
  network : (s.network.map oneMasterResult).Perm s'.network

namespace SameReplica

theorem setNode {network network' : List ReadResult} (h : SameReplica s s') (m : Nat)
    {node node' : Node} (hnode : SameNode node node')
    (hnet : (network.map oneMasterResult).Perm network') :
    SameReplica { setNode s m node with network }
      { setNode s' m node' with network := network' } where
  nodes m' := by
    by_cases hm : m' = m
    · subst hm
      simpa [Replica.setNode] using hnode
    · simpa [Replica.setNode, update_of_ne hm] using h.nodes m'
  network := hnet

/-- A step of a node by itself. -/
theorem nodeStep (ho : Order order) (h : SameReplica s s') (m : Nat)
    (e : DeterministicScheduler.Event) :
    Option.Rel SameReplica (nodeStep cfg order compute s m e)
      (Replica.nodeStep cfg 1 (copies order) (restored compute) s' m e) := by
  have hnext : Option.Rel SameReplica
      ((DeterministicScheduler.step (nodeConfig cfg m) 0 (txnAt cfg order m) compute
        (s.nodes m) e).map (Replica.setNode s m))
      ((DeterministicScheduler.step (nodeConfig cfg m) 1 (Replica.txnAt cfg (copies order) m)
        (restored compute) (s'.nodes m) e).map (Replica.setNode s' m)) := by
    rw [txnAt_copies]
    exact optionRel_map (step_oneMaster (h.nodes m) (txnAt_normal ho m) e)
      fun node node' hnode => h.setNode m hnode h.network
  have hlen : (s'.nodes m).next = (s.nodes m).next := by rw [(h.nodes m).rest]
  unfold OriginalReplica.nodeStep Replica.nodeStep
  cases e with
  | parse =>
      dsimp only
      rw [hlen, length_stream_copies]
      split
      · exact hnext
      · exact .none
  | start => exact .none
  | readResult => exact .none
  | _ => exact hnext

theorem start (h : SameReplica s s') (m : Nat) :
    Option.Rel SameReplica (start cfg order s m) (Replica.start cfg 1 (copies order) s' m) := by
  unfold OriginalReplica.start Replica.start
  rw [txnAt_copies]
  refine optionRel_map (start_oneMaster (h.nodes m)) fun a b hab => h.setNode m hab.1 ?_
  rw [List.map_append]
  exact h.network.append hab.2

/-- A message that is delivered is under way on the other side too. -/
theorem deliver (h : SameReplica s s') {m i : Nat} {p : Ptr}
    (hn : deliver cfg order s m p i = some t) :
    ∃ j t', Replica.deliver cfg (copies order) s' m p j = some t' ∧ SameReplica t t' := by
  obtain ⟨msg, hmsg, hn⟩ := Option.bind_eq_some_iff.mp hn
  obtain ⟨⟨hdest, hchannel⟩, hn⟩ := Option.ite_none_right_eq_some.mp hn
  obtain ⟨node, hread, rfl⟩ := Option.map_eq_some_iff.mp hn
  have hi : i < s.network.length := (List.getElem?_eq_some_iff.mp hmsg).1
  have hmem : oneMasterResult msg ∈ s'.network :=
    h.network.subset (List.mem_map_of_mem (List.mem_of_getElem? hmsg))
  obtain ⟨j, hj, hjmsg⟩ := List.mem_iff_getElem.mp hmem
  obtain ⟨node', hnode', hsame⟩ :=
    exists_of_optionRel (readResult_oneMaster (h.nodes m) p msg.entries) hread
  have hnet : ((s.network.eraseIdx i).map oneMasterResult).Perm (s'.network.eraseIdx j) := by
    have hi' := (List.getElem_cons_eraseIdx_perm hi).map oneMasterResult
    have hj' := List.getElem_cons_eraseIdx_perm hj
    rw [(List.getElem?_eq_some_iff.mp hmsg).2, List.map_cons] at hi'
    rw [hjmsg] at hj'
    exact (hi'.trans (h.network.trans hj'.symm)).cons_inv
  refine ⟨j, _, ?_, h.setNode m hsame hnet⟩
  unfold Replica.deliver
  rw [List.getElem?_eq_getElem hj, hjmsg, Option.bind_some, txnAt_copies]
  have hto : (oneMasterResult msg).destinationChannel =
      channelOf ((oneMaster ∘ txnAt cfg order m) p).txnId
        ((oneMaster ∘ txnAt cfg order m) p).originReplica := by
    show (msg.destinationChannel.1, 0) = _
    rw [hchannel]
    rfl
  dsimp only
  rw [if_pos ⟨hdest, hto⟩]
  exact Option.map_eq_some_iff.mpr ⟨node', hnode', rfl⟩

end SameReplica

theorem sameReplica_init : SameReplica (machine cfg order compute init).init
    (Replica.machine cfg 1 (copies order) (restored compute) init).init where
  nodes m := by
    show SameNode (DeterministicScheduler.initial (txnAt cfg order m) init)
      (DeterministicScheduler.initial (Replica.txnAt cfg (copies order) m) init)
    rw [txnAt_copies]
    exact sameNode_initial init
  network := List.Perm.refl _

/-- Every step is followed by one of the copies, which hands a message to the only
copy with its channel if it was handed to the only transaction with its name. -/
theorem follow (ho : Order order) {e : Event} (h : SameReplica s s')
    (hn : (machine cfg order compute init).next s e = some t) :
    ∃ e' t', (Replica.machine cfg 1 (copies order) (restored compute) init).next s' e' = some t' ∧
      SameReplica t t' ∧ (OneName cfg order s e → OneChannel cfg (copies order) s' e') := by
  cases e with
  | node m e =>
      obtain ⟨t', hn', hsame⟩ := exists_of_optionRel (h.nodeStep ho m e) hn
      exact ⟨.node m e, t', hn', hsame, fun _ => trivial⟩
  | start m =>
      obtain ⟨t', hn', hsame⟩ := exists_of_optionRel (h.start m) hn
      exact ⟨.start m, t', hn', hsame, fun _ => trivial⟩
  | deliver m p i =>
      obtain ⟨j, t', hn', hsame⟩ := h.deliver hn
      refine ⟨.deliver m p j, t', hn', hsame, fun hone q hq hchannel => ?_⟩
      rw [length_stream_copies] at hq
      rw [txnAt_copies] at hchannel
      exact hone q hq (Prod.mk.inj hchannel).1

theorem follows (ho : Order order)
    (h : (machine cfg order compute init).Reach (OneName cfg order) s) :
    ∃ s', (Replica.machine cfg 1 (copies order) (restored compute) init).Reach
      (OneChannel cfg (copies order)) s' ∧ SameReplica s s' :=
  h.simulate sameReplica_init fun s e t s' hone hsame hn hr => by
    obtain ⟨e', t', hn', hsame', hone'⟩ := follow ho hsame hn
    exact ⟨t', hr.step (hone' hone) hn', hsame'⟩

/-! ## Serial executions -/

theorem runAlone_oneMaster (compute : Compute) (store : Key → Record) (txn : TxnProto) :
    runAlone (restored compute) store (oneMaster txn).client =
      runAlone compute store txn.client := by
  funext k
  simp only [runAlone, oneMaster_writeKeys, oneMaster_keys, restored, restore_oneMaster]

/-- The copies do what the transactions of the order do. -/
theorem foldl_copies (compute : Compute) (order : List TxnProto) (store : Key → Record) :
    ((copies order).map TxnProto.client).foldl (runAlone (restored compute)) store =
      (order.map TxnProto.client).foldl (runAlone compute) store := by
  induction order generalizing store with
  | nil => rfl
  | cons txn rest ih =>
      by_cases hne : txn.client.entries ≠ []
      · have hcopies : copies (txn :: rest) = oneMaster txn :: copies rest := by
          rw [copies, List.filter_cons_of_pos (by exact decide_eq_true hne)]
          rfl
        rw [hcopies, List.map_cons, List.map_cons, List.foldl_cons, List.foldl_cons, ih,
          runAlone_oneMaster]
      · have hcopies : copies (txn :: rest) = copies rest := by
          rw [copies, List.filter_cons_of_neg (by exact fun hd => hne (of_decide_eq_true hd))]
          rfl
        have hnone : runAlone compute store txn.client = store := by
          funext k
          refine if_neg fun hk => ?_
          obtain ⟨entry, he, -⟩ := List.mem_map.mp hk
          exact hne (List.ne_nil_of_mem (List.mem_append_right _ he))
        rw [hcopies, List.map_cons, List.foldl_cons, ih, hnone]

theorem executed_oneMaster {n n' : Node} (h : SameNode n n') (p : Ptr) :
    Executed n' p ↔ Executed n p := by
  rw [h.rest]
  rfl

theorem records_oneMaster (cfg : ClusterConfig) (h : SameReplica s s') :
    records cfg s' = records cfg s := by
  funext k
  rw [records, (h.nodes _).rest]
  rfl

/-- The records of a replica that has executed everything. -/
theorem records_eq (ho : Order order)
    (h : (machine cfg order compute init).Reach (OneName cfg order) s)
    (hc : Complete cfg order s) :
    records cfg s = (order.map TxnProto.client).foldl (runAlone compute) init := by
  obtain ⟨s', hr, hsame⟩ := follows ho h
  have hl := logs_copies ho
  have hm := isMerge_copies order
  have hc' : Replica.Complete cfg (copies order) s' := by
    intro m p hp
    rw [length_stream_copies] at hp
    exact (executed_oneMaster (hsame.nodes m) p).mpr (hc m p hp)
  rw [← records_oneMaster cfg hsame, Replica.records_eq hl hm (Replica.inv_of_reach hl hm hr) hc',
    foldl_copies]

/-! ## Main result -/

/-- A replica that has executed everything has the records of the serial execution
in the global order; so two replicas agree, whatever their partitions. -/
theorem records_eq_order (order : List TxnProto) (ho : Order order) (compute : Compute)
    (init : Key → Record) (cfg cfg' : ClusterConfig) (s s' : Replica)
    (hs : (machine cfg order compute init).Reach (OneName cfg order) s)
    (hs' : (machine cfg' order compute init).Reach (OneName cfg' order) s')
    (hc : Complete cfg order s) (hc' : Complete cfg' order s') :
    records cfg s = (order.map TxnProto.client).foldl (runAlone compute) init ∧
      records cfg s = records cfg' s' := by
  have h := records_eq ho hs hc
  have h' := records_eq ho hs' hc'
  exact ⟨h, h.trans h'.symm⟩

theorem complete_of_lt (hn : 0 < cfg.nodesPerReplica)
    (h : ∀ m < cfg.nodesPerReplica, ∀ p < (stream cfg order m).length, Executed (s.nodes m) p) :
    Complete cfg order s := by
  intro m p hp
  by_cases hm : m < cfg.nodesPerReplica
  · exact h m hm p hp
  · rw [← length_stream_copies, Replica.stream_eq_nil hn (Nat.le_of_not_lt hm)] at hp
    exact absurd hp (Nat.not_lt_zero p)

/-- A replica of one partition and one of two. -/
theorem records_eq_order_partitions :
    let order : List TxnProto := [{ txnId := 1, readWriteSet := [⟨[48], 0, 0⟩, ⟨[49], 1, 0⟩] },
      { txnId := 2, readWriteSet := [⟨[48], 0, 0⟩], originReplica := 1 }]
    let compute : Compute := fun _ view _ => 48 :: ((view [48]).map Record.value).getD []
    let init : Key → Record := fun _ => ⟨[], 0, 0⟩
    let cfg : ClusterConfig := { nodesPerReplica := 2 }
    ∃ s s' : Replica, Complete {} order s ∧ Complete cfg order s' ∧
      ((records {} s = (order.map TxnProto.client).foldl (runAlone compute) init ∧
        records {} s = records cfg s') ∧ (records {} s [48]).value = [48, 48]) := by
  intro order compute init cfg
  have ho : Order order := ⟨by decide, by decide, by decide⟩
  obtain ⟨s, hs, hc, hval⟩ := Machine.exists_of_runIf (m := machine {} order compute init)
    (OneName {} order)
    (P := fun s : Replica =>
      (∀ m : Nat, m < 1 → ∀ p < (stream {} order m).length, Executed (s.nodes m) p) ∧
      (records {} s [48]).value = [48, 48])
    [.node 0 .parse, .node 0 .parse, .node 0 .dispatch, .start 0, .node 0 (.run 0 0 0),
      .node 0 .handleDone, .node 0 .dispatch, .start 0, .node 0 (.run 1 0 0)]
    (by decide)
  obtain ⟨s', hs', hc'⟩ := Machine.exists_of_runIf (m := machine cfg order compute init)
    (OneName cfg order)
    (P := fun s : Replica =>
      ∀ m : Nat, m < 2 → ∀ p < (stream cfg order m).length, Executed (s.nodes m) p)
    [.node 0 .parse, .node 0 .parse, .node 1 .parse, .node 0 .dispatch, .start 0,
      .node 1 .dispatch, .start 1, .deliver 1 0 0, .deliver 0 0 0, .node 1 (.run 0 0 0),
      .node 0 (.run 0 0 0), .node 0 .handleDone, .node 0 .dispatch, .start 0,
      .node 0 (.run 1 0 0)]
    (by decide)
  have hc : Complete {} order s := complete_of_lt Nat.one_pos hc
  have hc' : Complete cfg order s' := complete_of_lt (by decide) hc'
  exact ⟨s, s', hc, hc', records_eq_order order ho compute init {} cfg s s' hs hs' hc hc', hval⟩

end Calvin.OriginalReplica
