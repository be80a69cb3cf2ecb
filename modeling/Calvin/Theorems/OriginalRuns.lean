import Calvin.Theorems.OriginalSerial
import Calvin.Theorems.Termination

/-!
# The runs of the original system

In mode 0 read results go to the partitions with a record to write, and every
participant waits for the records it does not have.

* `Sent`: whose results the messages under way are, and where they go;
* `runs_end`: if all participants write, every run ends, with everything executed;
* `readers_wait`: a participant that does not write waits for ever, and so does what
  waits for its locks.
-/

namespace Calvin.OriginalReplica

open Function Lib
open Replica (Event nodeConfig setNode Executed records runAlone maxSteps)

variable {cfg : ClusterConfig} {order : List TxnProto} {compute : Compute} {init : Key → Record}
  {s s' t : Replica} {m : Nat} {p q : Ptr}

/-! ## The messages under way -/

theorem txnAt_mem (hp : p < (stream cfg order m).length) :
    ∃ txn ∈ order, txnAt cfg order m p = Sequencer.withReaders cfg txn := by
  have hmem : txnAt cfg order m p ∈ stream cfg order m := by
    rw [txnAt, List.getElem?_eq_getElem hp, Option.getD_some]
    exact List.getElem_mem hp
  obtain ⟨txn, htxn, heq⟩ := List.mem_map.mp hmem
  exact ⟨txn, (List.mem_filter.mp htxn).1, heq.symm⟩

theorem txnAt_of_ge (hp : ¬ p < (stream cfg order m).length) :
    txnAt cfg order m p = { txnId := 0 } := by
  rw [txnAt, List.getElem?_eq_none_iff.mpr (Nat.le_of_not_lt hp), Option.getD_none]

/-- A partition of a transaction schedules it. -/
theorem exists_ptr {txn : TxnProto} (htxn : txn ∈ order) (hm : m ∈ Sequencer.readers cfg txn) :
    ∃ q < (stream cfg order m).length, txnAt cfg order m q = Sequencer.withReaders cfg txn := by
  have hmem : Sequencer.withReaders cfg txn ∈ stream cfg order m :=
    List.mem_map_of_mem (List.mem_filter.mpr ⟨htxn, decide_eq_true hm⟩)
  obtain ⟨q, hq, heq⟩ := List.mem_iff_getElem.mp hmem
  refine ⟨q, hq, ?_⟩
  rw [txnAt, List.getElem?_eq_getElem hq, Option.getD_some, heq]

/-- A message brings read results of a transaction to a partition that it writes. -/
structure Sent (cfg : ClusterConfig) (order : List TxnProto) (msg : ReadResult) (txn : TxnProto) :
    Prop where
  mem : txn ∈ order
  channel : msg.destinationChannel = channelOf txn.txnId txn.originReplica
  node : ∃ w ∈ txn.readWriteSet,
    msg.destinationNode = cfg.lookupMachineId (cfg.lookupPartition w.key) cfg.localReplicaId

/-- What the constructor of a manager sends. -/
theorem sent_create {store : Key → Record} {node : Node} {msg : ReadResult}
    (h : msg ∈ (StorageManager.create (nodeConfig cfg m) 0 store
      (DeterministicScheduler.txnOf (txnAt cfg order m) node p)).2) :
    ∃ txn, Sent cfg order msg txn := by
  by_cases hp : p < (stream cfg order m).length
  · obtain ⟨txn, htxn, heq⟩ := txnAt_mem hp
    unfold StorageManager.create at h
    split at h
    case isTrue =>
        obtain ⟨w, hw, rfl⟩ := List.mem_map.mp h
        obtain ⟨-, entry, he, rfl⟩ := StorageManager.mem_destinations.mp hw
        have he' : entry ∈ (txnAt cfg order m p).readWriteSet := he
        rw [heq] at he'
        refine ⟨txn, htxn, ?_, entry, he', rfl⟩
        show channelOf (txnAt cfg order m p).txnId (txnAt cfg order m p).originReplica = _
        rw [heq]
        rfl
    case isFalse => exact absurd h List.not_mem_nil
  · unfold StorageManager.create at h
    have hnone : (DeterministicScheduler.txnOf (txnAt cfg order m) node p).readers = [] := by
      show (txnAt cfg order m p).readers = []
      rw [txnAt_of_ge hp]
    rw [hnone, if_neg List.not_mem_nil] at h
    exact absurd h List.not_mem_nil

/-- A step of a node by itself. -/
theorem nodeStep_cases {e : DeterministicScheduler.Event}
    (h : nodeStep cfg order compute s m e = some s') :
    e ≠ .start ∧ (∀ p entries, e ≠ .readResult p entries) ∧
      ∃ node, DeterministicScheduler.step (nodeConfig cfg m) 0 (txnAt cfg order m) compute
        (s.nodes m) e = some node ∧ s' = setNode s m node := by
  unfold nodeStep at h
  split at h
  case h_1 =>
      obtain ⟨node, hnode, rfl⟩ := Option.map_eq_some_iff.mp (Option.ite_none_right_eq_some.mp h).2
      exact ⟨by simp, by simp, node, hnode, rfl⟩
  case h_2 => cases h
  case h_3 => cases h
  case h_4 hstart hread =>
      obtain ⟨node, hnode, rfl⟩ := Option.map_eq_some_iff.mp h
      exact ⟨hstart, hread, node, hnode, rfl⟩

theorem sent_of_reachable (h : (machine cfg order compute init).Reachable s) :
    ∀ msg ∈ s.network, ∃ txn, Sent cfg order msg txn := by
  refine h.invariant (P := fun s => ∀ msg ∈ s.network, ∃ txn, Sent cfg order msg txn)
    (fun msg hmsg => absurd hmsg List.not_mem_nil) fun s e s' _ _ hi hn => ?_
  cases e with
  | node m e =>
      obtain ⟨-, -, node, -, rfl⟩ := nodeStep_cases hn
      exact hi
  | start m =>
      obtain ⟨⟨node, sent⟩, hstart, rfl⟩ := Option.map_eq_some_iff.mp hn
      obtain ⟨p, rest, -, rfl, rfl⟩ := DeterministicScheduler.start_cases hstart
      intro msg hmsg
      rcases List.mem_append.mp hmsg with hmsg | hmsg
      · exact hi msg hmsg
      · exact sent_create hmsg
  | deliver m p i =>
      obtain ⟨msg₀, -, hn⟩ := Option.bind_eq_some_iff.mp hn
      obtain ⟨-, hn⟩ := Option.ite_none_right_eq_some.mp hn
      obtain ⟨node, -, rfl⟩ := Option.map_eq_some_iff.mp hn
      exact fun msg hmsg => hi msg (List.mem_of_mem_eraseIdx hmsg)

/-! ## Runs that end -/

/-- Two transactions of the order with one name are the same. -/
theorem eq_of_name (hnames : (order.map fun txn => txn.txnId % UInt32.size).Nodup)
    {txn txn' : TxnProto} (h : txn ∈ order) (h' : txn' ∈ order)
    (heq : txn.txnId % UInt32.size = txn'.txnId % UInt32.size) : txn = txn' :=
  List.inj_on_of_nodup_map hnames h h' heq

/-- A message that a copy is handed is one for the transaction itself. -/
theorem deliver_of_copies (h : SameReplica s s')
    (hnames : (order.map fun txn => txn.txnId % UInt32.size).Nodup)
    (hsent : ∀ msg ∈ s.network, ∃ txn, Sent cfg order msg txn)
    (hp : p < (stream cfg order m).length) {j : Nat} {t' : Replica}
    (hn : Replica.deliver cfg (copies order) s' m p j = some t') :
    ∃ i t, deliver cfg order s m p i = some t := by
  obtain ⟨msg', hmsg', hn⟩ := Option.bind_eq_some_iff.mp hn
  obtain ⟨⟨hdest, hchannel⟩, hn⟩ := Option.ite_none_right_eq_some.mp hn
  obtain ⟨node', hread, -⟩ := Option.map_eq_some_iff.mp hn
  obtain ⟨msg, hmem, rfl⟩ := List.mem_map.mp
    (h.network.symm.subset (List.mem_of_getElem? hmsg'))
  obtain ⟨i, hi, rfl⟩ := List.mem_iff_getElem.mp hmem
  rw [txnAt_copies] at hchannel hread
  -- the origin in its channel is that of the transaction with its name
  obtain ⟨txn, hsent⟩ := hsent _ hmem
  obtain ⟨txn', htxn', heq⟩ := txnAt_mem hp
  have hname : (s.network[i]).destinationChannel.1 = (txnAt cfg order m p).txnId % UInt32.size :=
    (Prod.mk.inj hchannel).1
  rw [hsent.channel, heq] at hname
  have htxn : txn = txn' := eq_of_name hnames hsent.mem htxn' hname
  subst htxn
  obtain ⟨node, hnode, -⟩ := exists_of_optionRel_right
    (readResult_oneMaster (h.nodes m) p (s.network[i]).entries) hread
  refine ⟨i, { setNode s m node with network := s.network.eraseIdx i }, ?_⟩
  unfold deliver
  rw [List.getElem?_eq_getElem hi, Option.bind_some]
  dsimp only
  rw [if_pos ⟨hdest, by rw [hsent.channel, heq]; rfl⟩]
  exact Option.map_eq_some_iff.mpr ⟨node, hnode, rfl⟩

theorem follows_reachable (ho : Order order) (h : (machine cfg order compute init).Reachable s) :
    ∃ s', (Replica.machine cfg 1 (copies order) (restored compute) init).Reachable s' ∧
      SameReplica s s' :=
  h.simulate sameReplica_init fun s e t s' _ hsame hn hr => by
    obtain ⟨e', t', hn', hsame', -⟩ := follow ho hsame hn
    exact ⟨t', hr.step trivial hn', hsame'⟩

/-- The copies take no step where the transactions take none. -/
theorem no_step_copies (ho : Order order)
    (hnames : (order.map fun txn => txn.txnId % UInt32.size).Nodup)
    (hs : (machine cfg order compute init).Reachable s) (h : SameReplica s s')
    (hlen : ∀ m p sm, (s'.nodes m).managers p = some sm → p < (stream cfg order m).length)
    (hend : ∀ e, (machine cfg order compute init).next s e = none) (e : Event) :
    (Replica.machine cfg 1 (copies order) (restored compute) init).next s' e = none := by
  by_contra hne
  obtain ⟨t', hn⟩ := Option.ne_none_iff_exists'.mp hne
  cases e with
  | node m e =>
      obtain ⟨t, ht, -⟩ := exists_of_optionRel_right (h.nodeStep ho m e) hn
      exact Option.some_ne_none t (ht.symm.trans (hend (.node m e)))
  | start m =>
      obtain ⟨t, ht, -⟩ := exists_of_optionRel_right (h.start m) hn
      exact Option.some_ne_none t (ht.symm.trans (hend (.start m)))
  | deliver m p j =>
      have hp : p < (stream cfg order m).length := by
        obtain ⟨msg, -, hn⟩ := Option.bind_eq_some_iff.mp hn
        obtain ⟨-, hn⟩ := Option.ite_none_right_eq_some.mp hn
        obtain ⟨node, hread, -⟩ := Option.map_eq_some_iff.mp hn
        obtain ⟨sm, hsm, -, -⟩ := DeterministicScheduler.readResult_cases hread
        exact hlen m p sm hsm
      obtain ⟨i, t, ht⟩ := deliver_of_copies h hnames (sent_of_reachable hs) hp hn
      exact Option.some_ne_none t (ht.symm.trans (hend (.deliver m p i)))

/-- The steps and messages of the transactions that the nodes schedule. -/
def maxSteps (cfg : ClusterConfig) (order : List TxnProto) : Nat :=
  ∑ m ∈ Finset.range cfg.nodesPerReplica, ∑ p ∈ Finset.range (stream cfg order m).length,
    (5 + (txnAt cfg order m p).readWriteSet.length)

theorem maxSteps_copies (cfg : ClusterConfig) (order : List TxnProto) :
    Replica.maxSteps cfg (copies order) = maxSteps cfg order := by
  simp only [Replica.maxSteps, maxSteps, length_stream_copies, txnAt_copies, comp_apply, oneMaster,
    List.length_map]

theorem nodup_names_copies (hnames : (order.map fun txn => txn.txnId % UInt32.size).Nodup) :
    (((copies order).map TxnProto.client).map fun txn => txn.txnId % UInt32.size).Nodup := by
  have hids : (((copies order).map TxnProto.client).map fun txn => txn.txnId % UInt32.size) =
      (order.filter fun txn => txn.client.entries ≠ []).map fun txn => txn.txnId % UInt32.size := by
    simp only [copies, List.map_map]
    rfl
  rw [hids]
  exact hnames.sublist (List.filter_sublist.map _)

/-- No run takes more than `maxSteps` steps. -/
theorem length_le_maxSteps (ho : Order order)
    (hnames : (order.map fun txn => txn.txnId % UInt32.size).Nodup) (hn : 0 < cfg.nodesPerReplica)
    {es : List Event} (hrun : (machine cfg order compute init).trace es = some s) :
    es.length ≤ maxSteps cfg order := by
  obtain ⟨es', s', hrun', hlen, -⟩ := Machine.run_simulate (fun s e t s' hsame hnext => by
    obtain ⟨e', t', hn', hsame', -⟩ := follow ho hsame hnext
    exact ⟨e', t', hn', hsame'⟩) sameReplica_init hrun
  rw [← hlen, ← maxSteps_copies]
  exact Replica.length_le_maxSteps (logs_copies ho) (isMerge_copies order)
    (nodup_names_copies hnames) hn hrun'

/-- Every run can be continued to one that ends. -/
theorem exists_end (ho : Order order)
    (hnames : (order.map fun txn => txn.txnId % UInt32.size).Nodup) (hn : 0 < cfg.nodesPerReplica)
    (hs : (machine cfg order compute init).Reachable s) :
    ∃ es t, (machine cfg order compute init).run s es = some t ∧
      ∀ e, (machine cfg order compute init).next t e = none :=
  Machine.exists_end (fun _ _ hrun => length_le_maxSteps ho hnames hn hrun) hs

/-- Where a run ends everything is executed in the global order, and all locks are
released. -/
theorem end_executed (ho : Order order)
    (hnames : (order.map fun txn => txn.txnId % UInt32.size).Nodup)
    (hwrites : ∀ txn ∈ order, ∀ entry ∈ txn.client.entries, ∃ w ∈ txn.readWriteSet,
      cfg.lookupPartition w.key = cfg.lookupPartition entry.key)
    (hs : (machine cfg order compute init).Reachable s)
    (hend : ∀ e, (machine cfg order compute init).next s e = none) :
    (∀ m, ∀ p < (stream cfg order m).length, p ∈ (s.nodes m).deleted) ∧
      records cfg s = (order.map TxnProto.client).foldl (runAlone compute) init := by
  have hl := logs_copies ho
  have hm := isMerge_copies order
  have hnames' := nodup_names_copies hnames
  have hwrites' : ∀ txn ∈ (copies order).map TxnProto.client, ∀ entry ∈ txn.entries,
      ∃ w ∈ txn.readWriteSet, cfg.lookupPartition w.key = cfg.lookupPartition entry.key ∧
        w.master = entry.master := by
    intro txn htxn entry he
    obtain ⟨c, hc, rfl⟩ := List.mem_map.mp htxn
    obtain ⟨t, ht, -, rfl⟩ := mem_copies hc
    rw [oneMaster_entries] at he
    obtain ⟨e, he', rfl⟩ := List.mem_map.mp he
    obtain ⟨w, hw, hpart⟩ := hwrites t ht e he'
    exact ⟨oneMasterEntry w, List.mem_map_of_mem hw, hpart, rfl⟩
  obtain ⟨s', hs', hsame⟩ := follows_reachable ho hs
  have hi := Replica.inv_of_reach hl hm (Replica.reach_of_reachable hl hm hnames' hs')
  have hlen : ∀ m p sm, (s'.nodes m).managers p = some sm → p < (stream cfg order m).length := by
    intro m p sm hsm
    obtain ⟨phase, pushed, freed, hsched⟩ := hi.scheduled m
    have hp : phase p = .running := (hsched.running p).mp (by rw [hsm]; rfl)
    rw [← length_stream_copies]
    exact Nat.lt_of_lt_of_le (hsched.lt_next (by rw [hp]; decide)) (hi.next m)
  obtain ⟨hdeleted, hrecords⟩ := Replica.all_released hl hm hnames' hwrites' hs'
    (no_step_copies ho hnames hs hsame hlen hend)
  refine ⟨fun m p hp => ?_, ?_⟩
  · rw [← length_stream_copies] at hp
    have hmem := hdeleted m p hp
    rwa [(hsame.nodes m).rest] at hmem
  · rw [← records_oneMaster cfg hsame, hrecords, foldl_copies]

/-- With distinct names, and a record to write at each participant: no run takes
more than `maxSteps` steps, each can be continued to one that ends, and where a run
ends everything is executed in the global order, and all locks are released. -/
theorem runs_end (order : List TxnProto) (ho : Order order)
    (hnames : (order.map fun txn => txn.txnId % UInt32.size).Nodup) (compute : Compute)
    (init : Key → Record) (cfg : ClusterConfig) (hn : 0 < cfg.nodesPerReplica)
    (hwrites : ∀ txn ∈ order, ∀ entry ∈ txn.client.entries, ∃ w ∈ txn.readWriteSet,
      cfg.lookupPartition w.key = cfg.lookupPartition entry.key) :
    (∀ es s, (machine cfg order compute init).trace es = some s →
      es.length ≤ maxSteps cfg order) ∧
    (∀ s, (machine cfg order compute init).Reachable s →
      ∃ es t, (machine cfg order compute init).run s es = some t ∧
        ∀ e, (machine cfg order compute init).next t e = none) ∧
    ∀ s, (machine cfg order compute init).Reachable s →
      (∀ e, (machine cfg order compute init).next s e = none) →
      (∀ m, ∀ p < (stream cfg order m).length, p ∈ (s.nodes m).deleted) ∧
        records cfg s = (order.map TxnProto.client).foldl (runAlone compute) init := by
  exact ⟨fun es s hrun => length_le_maxSteps ho hnames hn hrun,
    fun s hs => exists_end ho hnames hn hs,
    fun s hs hend => end_executed ho hnames hwrites hs hend⟩

/-- Two transactions on two partitions; the second has another origin. -/
theorem runs_end_twoPartitions :
    let order : List TxnProto := [{ txnId := 1, readWriteSet := [⟨[48], 0, 0⟩, ⟨[49], 1, 0⟩] },
      { txnId := 2, readWriteSet := [⟨[48], 0, 0⟩], originReplica := 1 }]
    let compute : Compute := fun _ _ _ => []
    let init : Key → Record := fun _ => ⟨[], 0, 0⟩
    let cfg : ClusterConfig := { nodesPerReplica := 2 }
    let replica := machine cfg order compute init
    (∀ es s, replica.trace es = some s → es.length ≤ 20) ∧
      ∃ es t, replica.trace es = some t ∧
        records cfg t = (order.map TxnProto.client).foldl (runAlone compute) init := by
  intro order compute init cfg replica
  obtain ⟨hbound, hgoes, hends⟩ := runs_end order ⟨by decide, by decide, by decide⟩ (by decide)
    compute init cfg (by decide) (by decide)
  have hmax : maxSteps cfg order = 20 := by decide
  obtain ⟨es, t, hrun, hend⟩ := hgoes _ .init
  exact ⟨fun es s hrun => hmax ▸ hbound es s hrun, es, t, hrun,
    (hends t (Machine.Reachable.run .init hrun) hend).2⟩

/-! ## Participants that do not write -/

/-- A participant without a record to write, of a transaction with records elsewhere. -/
structure ReadsOnly (cfg : ClusterConfig) (m : Nat) (txn : TxnProto) : Prop where
  reads : ∀ w ∈ txn.readWriteSet, cfg.lookupPartition w.key ≠ m
  elsewhere : ∃ entry ∈ txn.client.entries, cfg.lookupPartition entry.key ≠ m

/-- It has only records of its own, and is not executed. -/
structure Waits (cfg : ClusterConfig) (m : Nat) (txn : TxnProto) (p : Ptr) (node : Node) :
    Prop where
  own : ∀ sm, node.managers p = some sm → ∀ k ∈ sm.objects,
    k ∈ txn.client.keys ∧ cfg.lookupPartition k = m
  notDone : ¬ Executed node p

theorem Waits.of_eq {txn : TxnProto} {node node' : Node} (h : Waits cfg m txn p node)
    (hmanagers : node'.managers = node.managers) (hdone : node'.doneQueue = node.doneQueue)
    (hdeleted : node'.deleted = node.deleted) : Waits cfg m txn p node' where
  own := by rw [hmanagers]; exact h.own
  notDone := by rw [Executed, hdone, hdeleted]; exact h.notDone

/-- A new manager has records of its own. -/
theorem create_own {store : Key → Record} {txn : TxnProto} {k : Key}
    (h : k ∈ (StorageManager.create (nodeConfig cfg m) 0 store txn).1.objects) :
    k ∈ txn.client.keys ∧ cfg.lookupPartition k = m := by
  by_cases hreader : (nodeConfig cfg m).relativeNodeId ∈ txn.readers
  · rw [(StorageManager.create_eq 0 store hreader).1] at h
    obtain ⟨o, ho⟩ := Option.isSome_iff_exists.mp (AList.lookup_isSome.mpr h)
    obtain ⟨-, entry, he, rfl, hhome⟩ :=
      ((StorageManager.created_readAll (nodeConfig cfg m) 0 store txn).objects k o).mp ho
    exact ⟨List.mem_map_of_mem he, (StorageManager.home_eq_here.mp hhome).1⟩
  · unfold StorageManager.create at h
    rw [if_neg hreader] at h
    exact absurd h (AList.notMem_empty k)

/-- Such a manager is not complete. -/
theorem not_ready {txn : TxnProto} {sm : StorageManager} (hkeys : txn.client.keys.Nodup)
    (hreads : ReadsOnly cfg m txn)
    (hown : ∀ k ∈ sm.objects, k ∈ txn.client.keys ∧ cfg.lookupPartition k = m) :
    ¬ sm.readyToExecute txn = true := by
  intro hready
  obtain ⟨entry, he, hne⟩ := hreads.elsewhere
  have hmem := (StorageManager.ready_iff hkeys fun k hk => (hown k hk).1).mp hready entry.key
    (List.mem_map_of_mem he)
  exact hne (hown _ hmem).2

/-- Every step of the node but a message for the participant keeps it waiting. -/
theorem Waits.step {txns : Ptr → TxnProto} {node node' : Node}
    {e : DeterministicScheduler.Event} (hkeys : (txns p).client.keys.Nodup)
    (hreads : ReadsOnly cfg m (txns p)) (hv : node.verifying = none)
    (hread : ∀ entries, e ≠ .readResult p entries)
    (h : Waits cfg m (txns p) p node)
    (hn : DeterministicScheduler.step (nodeConfig cfg m) 0 txns compute node e = some node') :
    Waits cfg m (txns p) p node' := by
  cases e with
  | parse =>
      obtain ⟨-, ⟨hmode, -⟩ | rfl⟩ := DeterministicScheduler.parse_any hn
      · cases hmode
      · exact h.of_eq rfl rfl rfl
  | verify =>
      obtain ⟨entry, rest, v, hv', -⟩ := DeterministicScheduler.verify_cases hn
      rw [hv] at hv'
      cases hv'
  | route =>
      obtain ⟨v, status, hv', -, -⟩ := DeterministicScheduler.route_cases hn
      rw [hv] at hv'
      cases hv'
  | dispatch =>
      obtain ⟨-, q, rest, -, rfl⟩ := DeterministicScheduler.dispatch_cases hn
      exact h.of_eq rfl rfl rfl
  | handleDone =>
      obtain ⟨-, q, rest, waits, ready, hq, -, lockManager, readyTxns, rfl⟩ :=
        DeterministicScheduler.handleDone_cases hn
      refine ⟨h.own, fun hdone => h.notDone ?_⟩
      rcases hdone with hdone | hdone
      · exact .inl (hq ▸ List.mem_cons_of_mem _ hdone)
      · rcases List.mem_cons.mp hdone with rfl | hdone
        · exact .inl (hq ▸ List.mem_cons_self)
        · exact .inr hdone
  | start =>
      obtain ⟨⟨node', sent⟩, hstart, rfl⟩ := Option.map_eq_some_iff.mp hn
      obtain ⟨q, rest, -, -, rfl⟩ := DeterministicScheduler.start_cases hstart
      refine ⟨fun sm hsm k hk => ?_, h.notDone⟩
      by_cases hq : p = q
      · subst hq
        simp only [update_self, Option.some.injEq] at hsm
        subst hsm
        exact create_own hk
      · simp only [update_of_ne hq] at hsm
        exact h.own sm hsm k hk
  | readResult q entries =>
      obtain ⟨sm₀, -, -, rfl⟩ := DeterministicScheduler.readResult_cases hn
      refine ⟨fun sm hsm k hk => ?_, h.notDone⟩
      have hq : p ≠ q := fun hq => hread entries (by rw [hq])
      simp only [update_of_ne hq] at hsm
      exact h.own sm hsm k hk
  | run q guid random =>
      obtain ⟨⟨node', forword⟩, hrun, rfl⟩ := Option.map_eq_some_iff.mp hn
      obtain ⟨sm, store, hsm, hready, -, rfl⟩ := DeterministicScheduler.run_plain (by decide) hrun
      have hq : p ≠ q := by
        rintro rfl
        exact not_ready hkeys hreads (h.own sm hsm) hready
      refine ⟨fun sm hsm k hk => ?_, fun hdone => h.notDone ?_⟩
      · simp only [DeterministicScheduler.finish, update_of_ne hq] at hsm
        exact h.own sm hsm k hk
      · rcases hdone with hdone | hdone
        · refine .inl ((List.mem_append.mp hdone).resolve_right fun hmem => hq ?_)
          exact List.mem_singleton.mp hmem
        · exact .inr hdone

/-- A participant that does not write is handed no message. -/
theorem not_delivered {i : Nat} {msg : ReadResult} (hp : p < (stream cfg order m).length)
    (hreads : ReadsOnly cfg m (txnAt cfg order m p)) (hone : OneName cfg order s (.deliver m p i))
    (hsent : ∃ txn, Sent cfg order msg txn)
    (hdest : msg.destinationNode = cfg.lookupMachineId m cfg.localReplicaId)
    (hchannel : msg.destinationChannel =
      channelOf (txnAt cfg order m p).txnId (txnAt cfg order m p).originReplica) : False := by
  obtain ⟨txn, htxn, hchan, w, hw, hnode⟩ := hsent
  have hpart : cfg.lookupPartition w.key = m := Nat.add_left_cancel (hnode.symm.trans hdest)
  have hreader : m ∈ Sequencer.readers cfg txn :=
    Sequencer.mem_partitions.mpr ⟨w, List.mem_append_right _ hw, hpart⟩
  obtain ⟨q, hq, heq⟩ := exists_ptr htxn hreader
  -- the transaction whose results these are has the same name here
  have hname : (txnAt cfg order m q).txnId % UInt32.size =
      (txnAt cfg order m p).txnId % UInt32.size := by
    rw [heq]
    exact (Prod.mk.inj (hchan.symm.trans hchannel)).1
  have hqp := hone q hq hname
  subst hqp
  refine hreads.reads w ?_ hpart
  rw [heq]
  exact hw

/-- Every step of the replica but a message for the participant keeps it waiting. -/
theorem Waits.update (ho : Order order) (hp : p < (stream cfg order m).length)
    (hreads : ReadsOnly cfg m (txnAt cfg order m p)) (hv : (s.nodes m).verifying = none)
    (h : Waits cfg m (txnAt cfg order m p) p (s.nodes m)) {m' : Nat}
    {e : DeterministicScheduler.Event} {node : Node}
    (hread : m' = m → ∀ entries, e ≠ .readResult p entries)
    (hn : DeterministicScheduler.step (nodeConfig cfg m') 0 (txnAt cfg order m') compute
      (s.nodes m') e = some node) :
    Waits cfg m (txnAt cfg order m p) p (update s.nodes m' node m) := by
  by_cases hm : m' = m
  · subst hm
    rw [update_self]
    obtain ⟨txn, htxn, heq⟩ := txnAt_mem hp
    exact h.step (heq ▸ ho.distinctKeys txn htxn) hreads hv (hread rfl) hn
  · rw [update_of_ne (Ne.symm hm)]
    exact h

theorem waits_of_reach (ho : Order order)
    (h : (machine cfg order compute init).Reach (OneName cfg order) s)
    (hp : p < (stream cfg order m).length) (hreads : ReadsOnly cfg m (txnAt cfg order m p)) :
    Waits cfg m (txnAt cfg order m p) p (s.nodes m) := by
  refine h.invariant (P := fun s => Waits cfg m (txnAt cfg order m p) p (s.nodes m))
    ⟨fun _ hsm => (by cases hsm), fun hdone => ?_⟩ fun s e s' hr hone hi hn => ?_
  · rcases hdone with hdone | hdone
    · exact absurd hdone List.not_mem_nil
    · exact absurd hdone List.not_mem_nil
  · obtain ⟨s₁, -, hsame⟩ := follows ho hr
    have hv := (hsame.nodes m).verifying
    cases e with
    | node m' e =>
        obtain ⟨-, hread, node, hstep, rfl⟩ := nodeStep_cases hn
        exact hi.update ho hp hreads hv (fun _ => hread p) hstep
    | start m' =>
        obtain ⟨⟨node, sent⟩, hstart, rfl⟩ := Option.map_eq_some_iff.mp hn
        have hstep : DeterministicScheduler.step (nodeConfig cfg m') 0 (txnAt cfg order m') compute
            (s.nodes m') .start = some node := Option.map_eq_some_iff.mpr ⟨_, hstart, rfl⟩
        exact hi.update ho hp hreads hv (fun _ _ => by simp) hstep
    | deliver m' p' i =>
        obtain ⟨msg, hmsg, hn⟩ := Option.bind_eq_some_iff.mp hn
        obtain ⟨⟨hdest, hchannel⟩, hn⟩ := Option.ite_none_right_eq_some.mp hn
        obtain ⟨node, hread, rfl⟩ := Option.map_eq_some_iff.mp hn
        have hstep : DeterministicScheduler.step (nodeConfig cfg m') 0 (txnAt cfg order m') compute
            (s.nodes m') (.readResult p' msg.entries) = some node := hread
        refine hi.update ho hp hreads hv (fun hm entries heq => ?_) hstep
        cases heq
        subst hm
        exact not_delivered hp hreads hone
          (sent_of_reachable hr.reachable msg (List.mem_of_getElem? hmsg)) hdest hchannel

/-- A participant without a record to write, of a transaction with records
elsewhere, is never executed; and a later transaction that writes a record it reads
there never gets its locks. -/
theorem readers_wait (order : List TxnProto) (ho : Order order) (compute : Compute)
    (init : Key → Record) (cfg : ClusterConfig) (s : Replica)
    (h : (machine cfg order compute init).Reach (OneName cfg order) s) (m : Nat) (p : Ptr)
    (hp : p < (stream cfg order m).length) (hreads : ReadsOnly cfg m (txnAt cfg order m p)) :
    ¬ Executed (s.nodes m) p ∧
      ∀ q, p < q → ∀ w ∈ (txnAt cfg order m q).readWriteSet, cfg.lookupPartition w.key = m →
        w.key ∈ (txnAt cfg order m p).client.keys →
        q ∉ (s.nodes m).readyTxns ∧ q ∉ (s.nodes m).txnsQueue ∧ (s.nodes m).managers q = none ∧
          ¬ Executed (s.nodes m) q := by
  have hwaits := waits_of_reach ho h hp hreads
  refine ⟨hwaits.notDone, fun q hpq w hw hlocal hkey => ?_⟩
  obtain ⟨s', hr, hsame⟩ := follows ho h
  have hi := Replica.inv_of_reach (logs_copies ho) (isMerge_copies order) hr
  obtain ⟨phase, pushed, freed, hs⟩ := hi.scheduled m
  obtain ⟨managers, hnode⟩ : ∃ f, s'.nodes m = { s.nodes m with managers := f } :=
    ⟨_, (hsame.nodes m).rest⟩
  obtain ⟨entry, he, hentry⟩ := List.mem_map.mp hkey
  rw [txnAt_copies] at hs
  -- both ask for the lock of the key
  have hw' : oneMasterEntry w ∈ ((oneMaster ∘ txnAt cfg order m) q).readWriteSet :=
    List.mem_map_of_mem hw
  have hask : ((oneMasterEntry w).key, LockMode.write) ∈
      DeterministicScheduler.asks (nodeConfig cfg m) 1 (oneMaster ∘ txnAt cfg order m) q :=
    DeterministicScheduler.write_mem_asks hw' ⟨rfl, hlocal⟩
  have he' : oneMasterEntry entry ∈ ((oneMaster ∘ txnAt cfg order m) p).client.entries := by
    rw [comp_apply, oneMaster_entries]
    exact List.mem_map_of_mem he
  obtain ⟨lockMode, hask'⟩ : ∃ lockMode, ((oneMasterEntry entry).key, lockMode) ∈
      DeterministicScheduler.asks (nodeConfig cfg m) 1 (oneMaster ∘ txnAt cfg order m) p :=
    DeterministicScheduler.exists_mem_asks he' ⟨rfl, by rw [← hlocal, ← hentry]; rfl⟩
  have hwaiting : phase q = .waiting := by
    by_contra hne
    have hreleased := hs.earlier_released hne hpq hask hask' hentry.symm (.inl rfl)
    have hdeleted := (hs.deleted p).mpr hreleased
    rw [hnode] at hdeleted
    exact hwaits.notDone (.inr hdeleted)
  have hready := hs.ready q
  have hqueued := hs.queued q
  have hrunning := hs.running q
  have hdone := hs.done q
  have hdeleted := hs.deleted q
  have hobjects := (hsame.nodes m).objects q
  rw [hwaiting] at hready hqueued hrunning hdone hdeleted
  rw [hnode] at hready hqueued hdone hdeleted
  have hnone : (s'.nodes m).managers q = none := by
    cases hsm : (s'.nodes m).managers q with
    | none => rfl
    | some sm =>
        rw [hsm] at hrunning
        cases hrunning.mp rfl
  rw [hnone] at hobjects
  refine ⟨fun hmem => ?_, fun hmem => ?_, Option.map_eq_none_iff.mp hobjects, fun hmem => ?_⟩
  · cases hready.mp hmem
  · cases hqueued.mp hmem
  · rcases hmem with hmem | hmem
    · cases hdone.mp hmem
    · cases hdeleted.mp hmem

/-- Partition 0 reads a record for a transaction that writes at partition 1 only. -/
theorem readers_wait_twoPartitions :
    let order : List TxnProto :=
      [{ txnId := 1, readSet := [⟨[48], 0, 0⟩], readWriteSet := [⟨[49], 0, 0⟩] },
        { txnId := 2, readWriteSet := [⟨[48], 0, 0⟩] }]
    let cfg : ClusterConfig := { nodesPerReplica := 2 }
    let replica := machine cfg order (fun _ _ _ => []) fun _ => ⟨[], 0, 0⟩
    ∃ s, replica.Reach (OneName cfg order) s ∧ Executed (s.nodes 1) 0 ∧
      ¬ Executed (s.nodes 0) 0 ∧ ¬ Executed (s.nodes 0) 1 := by
  intro order cfg replica
  obtain ⟨s, hs, hdone⟩ := Machine.exists_of_runIf (m := replica) (OneName cfg order)
    (P := fun s : Replica => Executed (s.nodes 1) 0)
    [.node 0 .parse, .node 0 .parse, .node 1 .parse, .node 0 .dispatch, .start 0,
      .node 1 .dispatch, .start 1, .deliver 1 0 0, .node 1 (.run 0 0 0)]
    (by decide)
  have hreads : ReadsOnly cfg 0 (txnAt cfg order 0 0) :=
    ⟨by decide, ⟨[49], 0, 0⟩, by decide, by decide⟩
  obtain ⟨hwaits, hbehind⟩ := readers_wait order ⟨by decide, by decide, by decide⟩ _ _ cfg s hs 0 0
    (by decide) hreads
  exact ⟨s, hs, hdone, hwaits,
    (hbehind 1 Nat.one_pos ⟨[48], 0, 0⟩ (by decide) (by decide) (by decide)).2.2.2⟩

end Calvin.OriginalReplica
