import Calvin.Backend.StorageManagerSpec
import Calvin.Lib.Serial
import Calvin.Scheduler.NodeSchedule
import Calvin.Scheduler.ReplicaSpec

/-!
# Request chopping without remasters

In mode 1 a transaction has one copy in the log of each replica it involves. At
the node of a partition each copy locks and writes the keys of its origin, and
gets the other records from the participants that hold them.

* `Logs`, `IsMerge`: the logs of the origins, and how a replica orders them;
* `Inv`: what the nodes and the messages of a replica hold agrees with a serial
  execution in an order that the logs follow;
* `OneChannel`: each `READ_RESULT` is handed to the only transaction with its channel,
  which follows from distinct names (`reach_of_reachable`);
* `records_eq_serial`: a replica that has executed all copies has the records of
  this execution, whatever its merge.
-/

namespace Calvin.Replica

open Function Lib LockManager DeterministicScheduler

/-- A replica that is the master of a key of the transaction. -/
def Involves (r : Nat) (txn : ClientTxn) : Prop := ∃ entry ∈ txn.entries, entry.master = r

instance (r : Nat) (txn : ClientTxn) : Decidable (Involves r txn) :=
  inferInstanceAs (Decidable (∃ entry ∈ txn.entries, entry.master = r))

/-- Logs of the origins that follow the order `serial`: the log of a replica has
one copy of each transaction that involves it. Fake transactions are skipped
when the batches are forwarded. -/
structure Logs (logs : Nat → List TxnProto) (master : Key → Nat) (serial : List ClientTxn) :
    Prop where
  origin : ∀ r, ∀ txn ∈ logs r, txn.originReplica = r
  copies : ∀ r, ((logs r).filter fun txn => txn.fakeTxn = false).map TxnProto.client =
    serial.filter fun txn => Involves r txn
  normal : ∀ r, ∀ txn ∈ logs r, txn.remasterTxn = false
  distinctKeys : ∀ txn ∈ serial, txn.keys.Nodup
  /-- The masters are fixed. -/
  masters : ∀ txn ∈ serial, ∀ entry ∈ txn.entries, entry.master = master entry.key
  ids : (serial.map ClientTxn.txnId).Nodup

/-- An order of all copies that keeps the order of each log. -/
def IsMerge (logs : Nat → List TxnProto) (merge : List TxnProto) : Prop :=
  ∀ r, (merge.filter fun txn => txn.originReplica = r) = logs r

/-- A message is handed to the only transaction of the node with its channel. -/
def OneChannel (cfg : ClusterConfig) (merge : List TxnProto) : Replica → Event → Prop
  | _, .deliver m p _ =>
      ∀ q < (stream cfg merge m).length,
        channelOf (txnAt cfg merge m q).txnId (txnAt cfg merge m q).originReplica =
          channelOf (txnAt cfg merge m p).txnId (txnAt cfg merge m p).originReplica → q = p
  | _, _ => True

/-- The place of a transaction in the serial order. -/
abbrev rank (serial : List ClientTxn) (txn : TxnProto) : Nat := serial.idxOf txn.client

/-! ## The streams of the nodes -/

theorem pairwise_of_filter {α β : Type} [DecidableEq β] {f : α → β} {S : α → α → Prop}
    {l : List α} (h : ∀ b, (l.filter fun a => f a = b).Pairwise S) :
    l.Pairwise fun a b => f a = f b → S a b := by
  induction l with
  | nil => exact List.Pairwise.nil
  | cons x l ih =>
      refine List.pairwise_cons.mpr ⟨fun y hy hxy => ?_, ih fun b => ?_⟩
      · have hx := h (f x)
        rw [List.filter_cons, if_pos (decide_eq_true rfl)] at hx
        exact (List.pairwise_cons.mp hx).1 y (List.mem_filter.mpr ⟨hy, decide_eq_true hxy.symm⟩)
      · exact (h b).sublist ((List.sublist_cons_self x l).filter _)

/-- In a list without repetitions positions grow. -/
theorem pairwise_idxOf {α : Type} [DecidableEq α] {l : List α} (h : l.Nodup) :
    l.Pairwise fun a b => l.idxOf a < l.idxOf b := by
  rw [List.pairwise_iff_getElem]
  intro i j hi hj hij
  rw [h.idxOf_getElem i hi, h.idxOf_getElem j hj]
  exact hij

section

variable {cfg : ClusterConfig} {logs : Nat → List TxnProto} {master : Key → Nat}
  {serial : List ClientTxn} {merge : List TxnProto}

theorem Logs.nodup (hl : Logs logs master serial) : serial.Nodup := List.Nodup.of_map _ hl.ids

/-- A copy in the merge is the copy of a transaction that involves its origin. -/
theorem Logs.mem_serial (hl : Logs logs master serial) (hm : IsMerge logs merge) {txn : TxnProto}
    (h : txn ∈ merge) (hfake : txn.fakeTxn = false) :
    txn.client ∈ serial ∧ Involves txn.originReplica txn.client := by
  have hlog : txn ∈ logs txn.originReplica := by
    rw [← hm]
    exact List.mem_filter.mpr ⟨h, decide_eq_true rfl⟩
  have hmem : txn.client ∈ serial.filter fun t => Involves txn.originReplica t := by
    rw [← hl.copies]
    exact List.mem_map_of_mem (List.mem_filter.mpr ⟨hlog, decide_eq_true hfake⟩)
  obtain ⟨hs, hi⟩ := List.mem_filter.mp hmem
  exact ⟨hs, of_decide_eq_true hi⟩

/-- Every involved origin has a copy. -/
theorem Logs.exists_copy (hl : Logs logs master serial) (hm : IsMerge logs merge) {r : Nat}
    {txn : ClientTxn} (h : txn ∈ serial) (hr : Involves r txn) :
    ∃ c ∈ merge, c.fakeTxn = false ∧ c.originReplica = r ∧ c.client = txn := by
  have hmem : txn ∈ serial.filter fun t => Involves r t :=
    List.mem_filter.mpr ⟨h, decide_eq_true hr⟩
  rw [← hl.copies, List.mem_map] at hmem
  obtain ⟨c, hc, rfl⟩ := hmem
  obtain ⟨hc, hfake⟩ := List.mem_filter.mp hc
  refine ⟨c, ?_, of_decide_eq_true hfake, hl.origin r c hc, rfl⟩
  rw [← hm] at hc
  exact (List.mem_filter.mp hc).1

/-- The merge keeps the serial order within each origin. -/
theorem Logs.pairwise_merge (hl : Logs logs master serial) (hm : IsMerge logs merge) :
    (merge.filter fun txn => txn.fakeTxn = false).Pairwise fun a b =>
      a.originReplica = b.originReplica → rank serial a < rank serial b := by
  refine pairwise_of_filter fun r => ?_
  have hsub : (serial.filter fun t => Involves r t).Pairwise fun a b =>
      serial.idxOf a < serial.idxOf b :=
    (pairwise_idxOf hl.nodup).sublist List.filter_sublist
  rw [← hl.copies r, List.pairwise_map] at hsub
  have hcomm : ((merge.filter fun txn => txn.fakeTxn = false).filter
      fun a => a.originReplica = r) = (logs r).filter fun txn => txn.fakeTxn = false := by
    rw [← hm r, List.filter_comm]
  rw [hcomm]
  exact hsub

/-! ## The copies at a node -/

namespace Logs

/-- A node schedules copies of transactions of the serial order. -/
theorem client_mem (hl : Logs logs master serial) (hm : IsMerge logs merge) {m : Nat} {p : Ptr}
    (hp : p < (stream cfg merge m).length) : (txnAt cfg merge m p).client ∈ serial := by
  obtain ⟨c, hc, hfake, -, heq⟩ := txnAt_mem hp
  rw [heq]
  exact (hl.mem_serial hm hc hfake).1

theorem not_remaster (hl : Logs logs master serial) (hm : IsMerge logs merge) {m : Nat} {p : Ptr}
    (hp : p < (stream cfg merge m).length) : (txnAt cfg merge m p).remasterTxn = false := by
  obtain ⟨c, hc, -, -, heq⟩ := txnAt_mem hp
  rw [heq]
  refine hl.normal c.originReplica c ?_
  rw [← hm]
  exact List.mem_filter.mpr ⟨hc, decide_eq_true rfl⟩

/-- The node of a key schedules the copy of the transaction at its master. -/
theorem exists_ptr (cfg : ClusterConfig) (hl : Logs logs master serial) (hm : IsMerge logs merge)
    {txn : ClientTxn}
    (h : txn ∈ serial) {entry : KeyEntry} (he : entry ∈ txn.entries) :
    ∃ p < (stream cfg merge (cfg.lookupPartition entry.key)).length,
      (txnAt cfg merge (cfg.lookupPartition entry.key) p).client = txn ∧
      (txnAt cfg merge (cfg.lookupPartition entry.key) p).originReplica = entry.master := by
  obtain ⟨c, hc, hfake, horigin, rfl⟩ := hl.exists_copy hm h ⟨entry, he, rfl⟩
  have hread : cfg.lookupPartition entry.key ∈ LowlatencySequencer.readers cfg c :=
    LowlatencySequencer.mem_partitions.mpr ⟨entry, he, horigin.symm, rfl⟩
  have hmem : LowlatencySequencer.withReaders cfg c ∈
      stream cfg merge (cfg.lookupPartition entry.key) :=
    List.mem_map_of_mem (List.mem_filter.mpr ⟨hc, decide_eq_true ⟨hfake, hread⟩⟩)
  obtain ⟨p, hp, heq⟩ := List.getElem_of_mem hmem
  have htxn : txnAt cfg merge (cfg.lookupPartition entry.key) p =
      LowlatencySequencer.withReaders cfg c := by
    rw [txnAt, List.getElem?_eq_getElem hp, Option.getD_some, heq]
  exact ⟨p, hp, by rw [htxn]; rfl, by rw [htxn]; exact horigin⟩

/-- Two copies of one origin are scheduled in their serial order. -/
theorem rank_lt (hl : Logs logs master serial) (hm : IsMerge logs merge) {m : Nat} {p q : Ptr}
    (hp : p < (stream cfg merge m).length) (hqp : q < p)
    (horigin : (txnAt cfg merge m q).originReplica = (txnAt cfg merge m p).originReplica) :
    rank serial (txnAt cfg merge m q) < rank serial (txnAt cfg merge m p) := by
  exact txnAt_pairwise (R := fun a b => a.originReplica = b.originReplica →
    rank serial a < rank serial b) (hl.pairwise_merge hm) hp hqp horigin

/-- Copies of one origin at a node are told apart by their rank. -/
theorem lt_of_rank_lt (hl : Logs logs master serial) (hm : IsMerge logs merge) {m : Nat}
    {p q : Ptr} (hq : q < (stream cfg merge m).length)
    (horigin : (txnAt cfg merge m q).originReplica = (txnAt cfg merge m p).originReplica)
    (h : rank serial (txnAt cfg merge m q) < rank serial (txnAt cfg merge m p)) : q < p := by
  rcases Nat.lt_trichotomy q p with hlt | rfl | hgt
  · exact hlt
  · exact absurd h (Nat.lt_irrefl _)
  · exact absurd (hl.rank_lt hm hq hgt horigin.symm) (Nat.lt_asymm h)

theorem eq_of_rank_eq (hl : Logs logs master serial) (hm : IsMerge logs merge) {m : Nat}
    {p q : Ptr} (hp : p < (stream cfg merge m).length) (hq : q < (stream cfg merge m).length)
    (horigin : (txnAt cfg merge m q).originReplica = (txnAt cfg merge m p).originReplica)
    (h : rank serial (txnAt cfg merge m q) = rank serial (txnAt cfg merge m p)) : q = p := by
  rcases Nat.lt_trichotomy q p with hlt | rfl | hgt
  · exact absurd h (Nat.ne_of_lt (hl.rank_lt hm hp hlt horigin))
  · rfl
  · exact absurd h.symm (Nat.ne_of_lt (hl.rank_lt hm hq hgt horigin.symm))

end Logs

/-- A key that copy `p` at node `m` locks, reads and writes itself. -/
structure OwnKey (cfg : ClusterConfig) (merge : List TxnProto) (master : Key → Nat) (m : Nat)
    (p : Ptr) (k : Key) : Prop where
  mem : k ∈ (txnAt cfg merge m p).client.keys
  isLocal : cfg.lookupPartition k = m
  isMaster : master k = (txnAt cfg merge m p).originReplica

variable {m : Nat} {p q : Ptr} {k : Key}

abbrev locksAt (cfg : ClusterConfig) (merge : List TxnProto) (m : Nat) :
    Ptr → List (Key × LockMode) :=
  asks (nodeConfig cfg m) 1 (txnAt cfg merge m)

/-- The entries of the keys are those that `StorageManager` reads itself. -/
theorem Logs.ownKey_iff (hl : Logs logs master serial) (hm : IsMerge logs merge)
    (hp : p < (stream cfg merge m).length) :
    OwnKey cfg merge master m p k ↔
      ∃ entry ∈ (txnAt cfg merge m p).client.entries, entry.key = k ∧
        StorageManager.Own (nodeConfig cfg m) (txnAt cfg merge m p).originReplica entry := by
  constructor
  · rintro ⟨hmem, hloc, hmaster⟩
    obtain ⟨entry, he, rfl⟩ := List.mem_map.mp hmem
    exact ⟨entry, he, rfl, (hl.masters _ (hl.client_mem hm hp) entry he).trans hmaster, hloc⟩
  · rintro ⟨entry, he, rfl, horigin, hloc⟩
    exact ⟨List.mem_map_of_mem he, hloc,
      (hl.masters _ (hl.client_mem hm hp) entry he).symm.trans horigin⟩

theorem Logs.exists_asks (hl : Logs logs master serial) (hm : IsMerge logs merge)
    (hp : p < (stream cfg merge m).length) (hk : OwnKey cfg merge master m p k) :
    ∃ a ∈ locksAt cfg merge m p, a.1 = k := by
  obtain ⟨entry, he, rfl, hown⟩ := (hl.ownKey_iff hm hp).mp hk
  have hasks : ∃ lockMode, (entry.key, lockMode) ∈ locksAt cfg merge m p := exists_mem_asks he hown
  obtain ⟨lockMode, hmem⟩ := hasks
  exact ⟨_, hmem, rfl⟩

theorem Logs.write_mem_asks (hl : Logs logs master serial) (hm : IsMerge logs merge)
    (hp : p < (stream cfg merge m).length) (hk : OwnKey cfg merge master m p k)
    (hw : k ∈ (txnAt cfg merge m p).client.writeKeys) :
    (k, LockMode.write) ∈ locksAt cfg merge m p := by
  obtain ⟨entry, he, rfl⟩ := List.mem_map.mp hw
  have hmaster := hl.masters _ (hl.client_mem hm hp) entry (List.mem_append_right _ he)
  exact DeterministicScheduler.write_mem_asks he ⟨hmaster.trans hk.isMaster, hk.isLocal⟩

/-- No transaction locks a key twice. -/
theorem Logs.asks_nodup (hl : Logs logs master serial) (hm : IsMerge logs merge) (m : Nat)
    (p : Ptr) : ((locksAt cfg merge m p).map Prod.fst).Nodup := by
  refine DeterministicScheduler.asks_nodup ?_
  by_cases hp : p < (stream cfg merge m).length
  · exact hl.distinctKeys _ (hl.client_mem hm hp)
  · rw [txnAt_of_ge hp]
    exact List.nodup_nil

/-! ## Invariant -/

/-- The records after the first `i` transactions of the serial order. -/
abbrev serialRecord (compute : Compute) (init : Key → Record) (serial : List ClientTxn) (i : Nat) :
    Key → Record :=
  Serial.serialAt (runAlone compute) init serial i

/-- An object is a record of the copy's own, or another one as the serial
execution shows it to the transaction. -/
def ObjectOk (cfg : ClusterConfig) (merge : List TxnProto) (master : Key → Nat)
    (serial : List ClientTxn) (compute : Compute) (init : Key → Record) (m : Nat) (p : Ptr)
    (k : Key) : Object → Prop
  | .stored => OwnKey cfg merge master m p k
  | .copied val => k ∈ (txnAt cfg merge m p).client.keys ∧ ¬ OwnKey cfg merge master m p k ∧
      val = serialRecord compute init serial (rank serial (txnAt cfg merge m p)) k

/-- A message brings a copy records of others, as the serial execution shows them
to the transaction. -/
structure MessageOk (cfg : ClusterConfig) (master : Key → Nat) (serial : List ClientTxn)
    (compute : Compute) (init : Key → Record) (msg : ReadResult) (txn : ClientTxn)
    (entry : KeyEntry) : Prop where
  txnMem : txn ∈ serial
  entryMem : entry ∈ txn.entries
  channel : msg.destinationChannel = channelOf txn.txnId entry.master
  node : msg.destinationNode =
    cfg.lookupMachineId (cfg.lookupPartition entry.key) cfg.localReplicaId
  keys : ∀ x ∈ msg.entries, x.1 ∈ txn.keys ∧
    ¬ (cfg.lookupPartition x.1 = cfg.lookupPartition entry.key ∧ master x.1 = entry.master)
  records : ∀ x ∈ msg.entries, x.2 = serialRecord compute init serial (serial.idxOf txn) x.1

/-- Transaction `i` has been executed where the key lives. -/
def Done (cfg : ClusterConfig) (merge : List TxnProto) (master : Key → Nat)
    (serial : List ClientTxn) (s : Replica) (i : Nat) (k : Key) : Prop :=
  ∃ p < (stream cfg merge (cfg.lookupPartition k)).length,
    rank serial (txnAt cfg merge (cfg.lookupPartition k) p) = i ∧
    OwnKey cfg merge master (cfg.lookupPartition k) p k ∧
    k ∈ (txnAt cfg merge (cfg.lookupPartition k) p).client.writeKeys ∧
    Executed (s.nodes (cfg.lookupPartition k)) p

structure Inv (cfg : ClusterConfig) (merge : List TxnProto) (master : Key → Nat)
    (serial : List ClientTxn) (compute : Compute) (init : Key → Record) (s : Replica) : Prop where
  scheduled : ∀ m, ∃ phase pushed freed,
    Scheduled (nodeConfig cfg m) 1 (txnAt cfg merge m) (s.nodes m) phase pushed freed
  next : ∀ m, (s.nodes m).next ≤ (stream cfg merge m).length
  objects : ∀ m p sm, (s.nodes m).managers p = some sm → ∀ k o, sm.objects.lookup k = some o →
    ObjectOk cfg merge master serial compute init m p k o
  network : ∀ msg ∈ s.network, ∃ txn entry,
    MessageOk cfg master serial compute init msg txn entry
  agrees : Serial.Agrees (runAlone compute) (fun txn k => k ∈ txn.writeKeys) init serial
    (Done cfg merge master serial s) (records cfg s)

variable {compute : Compute} {init : Key → Record} {s s' : Replica}

theorem runAlone_frame (compute : Compute) (store : Key → Record) (txn : ClientTxn) (k : Key)
    (h : ¬ k ∈ txn.writeKeys) : runAlone compute store txn k = store k := if_neg h

theorem inv_init : Inv cfg merge master serial compute init
    (machine cfg 1 merge compute init).init where
  scheduled _ := ⟨_, _, _, scheduled_init init⟩
  next _ := Nat.zero_le _
  objects _ _ _ h := by cases h
  network _ h := absurd h List.not_mem_nil
  agrees := (Serial.agrees_init (runAlone_frame compute)).congr fun j k => by
    refine ⟨False.elim, ?_⟩
    rintro ⟨p, -, -, -, -, h | h⟩
    · exact absurd h List.not_mem_nil
    · exact absurd h List.not_mem_nil

/-- The copy of transaction `i` that writes a key. -/
theorem Logs.exists_writer (cfg : ClusterConfig) (hl : Logs logs master serial)
    (hm : IsMerge logs merge) {i : Nat}
    (h : Serial.Writes (fun txn k => k ∈ ClientTxn.writeKeys txn) serial i k) :
    ∃ p < (stream cfg merge (cfg.lookupPartition k)).length,
      rank serial (txnAt cfg merge (cfg.lookupPartition k) p) = i ∧
      OwnKey cfg merge master (cfg.lookupPartition k) p k ∧
      k ∈ (txnAt cfg merge (cfg.lookupPartition k) p).client.writeKeys := by
  obtain ⟨txn, htxn, hw⟩ := h
  have hmem := List.mem_of_getElem? htxn
  obtain ⟨hi, hget⟩ := List.getElem?_eq_some_iff.mp htxn
  obtain ⟨entry, he, rfl⟩ := List.mem_map.mp hw
  have he' : entry ∈ txn.entries := List.mem_append_right _ he
  obtain ⟨p, hp, hclient, horigin⟩ := hl.exists_ptr cfg hm hmem he'
  refine ⟨p, hp, ?_, ⟨?_, rfl, ?_⟩, ?_⟩
  · rw [rank, hclient, ← hget, hl.nodup.idxOf_getElem]
  · rw [hclient]
    exact List.mem_map_of_mem he'
  · rw [horigin]
    exact (hl.masters txn hmem entry he').symm
  · rw [hclient]
    exact List.mem_map_of_mem he

/-! ## What a copy meets -/

section

variable {phase : Ptr → Phase} {pushed : List Ptr} {freed : Ptr → List Key}

/-- An executed transaction is done or released. -/
theorem executed_iff {node : Node}
    (hs : Scheduled (nodeConfig cfg m) 1 (txnAt cfg merge m) node phase pushed freed) (p : Ptr) :
    Executed node p ↔ phase p = .done ∨ phase p = .released :=
  or_congr (hs.done p) (hs.deleted p)

variable (hl : Logs logs master serial) (hm : IsMerge logs merge)

include hl hm

/-- No later transaction has executed on a key of a copy that is not released. -/
theorem later_not_done
    (hs : Scheduled (nodeConfig cfg m) 1 (txnAt cfg merge m) (s.nodes m) phase pushed freed)
    (hp : p < (stream cfg merge m).length) (hk : OwnKey cfg merge master m p k)
    (hne : phase p ≠ .released) {j : Nat} (hj : rank serial (txnAt cfg merge m p) < j) :
    ¬ Done cfg merge master serial s j k := by
  rintro ⟨q, hq, rfl, hkq, hw, hexec⟩
  have hloc := hk.isLocal
  subst hloc
  have horigin := hk.isMaster.symm.trans hkq.isMaster
  have hpq := hl.lt_of_rank_lt hm hp horigin hj
  have hphase : phase q ≠ .waiting := by
    rcases (executed_iff hs q).mp hexec with h | h <;> rw [h] <;> decide
  obtain ⟨b, hb, hbk⟩ := hl.exists_asks hm hp hk
  exact hne (hs.earlier_released hphase hpq (hl.write_mem_asks hm hq hkq hw) hb hbk.symm (.inl rfl))

/-- A copy that has its locks and is not executed finds on its keys what the
serial execution shows it. -/
theorem store_eq (hi : Inv cfg merge master serial compute init s)
    (hs : Scheduled (nodeConfig cfg m) 1 (txnAt cfg merge m) (s.nodes m) phase pushed freed)
    (hp : p < (stream cfg merge m).length) (hk : OwnKey cfg merge master m p k)
    (hw : phase p ≠ .waiting) (hd : phase p ≠ .done) (hr : phase p ≠ .released) :
    (s.nodes m).store k =
      serialRecord compute init serial (rank serial (txnAt cfg merge m p)) k := by
  have hloc := hk.isLocal
  subst hloc
  refine hi.agrees k _ (fun j hj hwrites => ?_) fun j hj hdone => ?_
  · obtain ⟨q, hq, rfl, hkq, hwq⟩ := hl.exists_writer cfg hm hwrites
    have hqp := hl.lt_of_rank_lt hm hq (hkq.isMaster.symm.trans hk.isMaster) hj
    obtain ⟨a, ha, hak⟩ := hl.exists_asks hm hp hk
    have hrel := hs.earlier_released hw hqp ha (hl.write_mem_asks hm hq hkq hwq) hak (.inr rfl)
    exact ⟨q, hq, rfl, hkq, hwq, (executed_iff hs q).mpr (.inr hrel)⟩
  · rcases Nat.lt_or_eq_of_le hj with hlt | rfl
    · exact later_not_done hl hm hs hp hk hr hlt hdone
    · obtain ⟨q, hq, hrank, hkq, -, hexec⟩ := hdone
      have heq := hl.eq_of_rank_eq hm hp hq (hkq.isMaster.symm.trans hk.isMaster) hrank
      subst heq
      rcases (executed_iff hs q).mp hexec with h | h
      · exact hd h
      · exact hr h

end

/-! ## Steps -/

section

variable {node : Node} {phase : Ptr → Phase} {pushed : List Ptr} {freed : Ptr → List Key}

/-- A step of a node that executes nothing. -/
theorem Inv.setNode {network : List ReadResult}
    (hi : Inv cfg merge master serial compute init s)
    (hs : Scheduled (nodeConfig cfg m) 1 (txnAt cfg merge m) node phase pushed freed)
    (hnext : node.next ≤ (stream cfg merge m).length)
    (hstore : node.store = (s.nodes m).store)
    (hexec : ∀ p, Executed node p ↔ Executed (s.nodes m) p)
    (hobjects : ∀ p sm, node.managers p = some sm → ∀ k o, sm.objects.lookup k = some o →
      ObjectOk cfg merge master serial compute init m p k o)
    (hnetwork : ∀ msg ∈ network, ∃ txn entry,
      MessageOk cfg master serial compute init msg txn entry) :
    Inv cfg merge master serial compute init { setNode s m node with network } where
  scheduled m' := by
    by_cases h : m' = m
    · subst h
      simp only [Replica.setNode, update_self]
      exact ⟨_, _, _, hs⟩
    · simp only [Replica.setNode, update_of_ne h]
      exact hi.scheduled m'
  next m' := by
    by_cases h : m' = m
    · subst h
      simp only [Replica.setNode, update_self]
      exact hnext
    · simp only [Replica.setNode, update_of_ne h]
      exact hi.next m'
  objects m' := by
    by_cases h : m' = m
    · subst h
      simp only [Replica.setNode, update_self]
      exact hobjects
    · simp only [Replica.setNode, update_of_ne h]
      exact hi.objects m'
  network := hnetwork
  agrees := by
    have hrecords : records cfg { Replica.setNode s m node with network } = records cfg s := by
      funext k
      by_cases h : cfg.lookupPartition k = m
      · simp only [records, Replica.setNode, h, update_self, hstore]
      · simp only [records, Replica.setNode, update_of_ne h]
    rw [hrecords]
    refine hi.agrees.congr fun j k => ?_
    by_cases h : cfg.lookupPartition k = m
    · simp only [Done, Replica.setNode, h, update_self, hexec]
    · simp only [Done, Replica.setNode, update_of_ne h]

variable (hl : Logs logs master serial) (hm : IsMerge logs merge)

include hl hm

theorem inv_parse (hi : Inv cfg merge master serial compute init s)
    (hlt : (s.nodes m).next < (stream cfg merge m).length)
    (h : DeterministicScheduler.parse (nodeConfig cfg m) 1 (txnAt cfg merge m) (s.nodes m) =
      some node) : Inv cfg merge master serial compute init (setNode s m node) := by
  obtain ⟨phase, pushed, freed, hs⟩ := hi.scheduled m
  obtain ⟨phase', pushed', hs', -, hnext, hstore, hmanagers, hdone, hdeleted⟩ :=
    hs.parse (by decide) (hl.asks_nodup hm m) h
  refine hi.setNode hs' (by rw [hnext]; exact hlt) hstore (fun p => ?_) ?_ hi.network
  · rw [Executed, Executed, hdone, hdeleted]
  · rw [hmanagers]
    exact hi.objects m

omit hl hm in
theorem inv_dispatch (hi : Inv cfg merge master serial compute init s)
    (h : DeterministicScheduler.dispatch (s.nodes m) = some node) :
    Inv cfg merge master serial compute init (setNode s m node) := by
  obtain ⟨phase, pushed, freed, hs⟩ := hi.scheduled m
  obtain ⟨p, -, hs'⟩ := hs.dispatch h
  obtain ⟨-, p, rest, -, rfl⟩ := dispatch_cases h
  exact hi.setNode hs' (hi.next m) rfl (fun _ => Iff.rfl) (hi.objects m) hi.network

theorem inv_handleDone (hi : Inv cfg merge master serial compute init s)
    (h : DeterministicScheduler.handleDone (nodeConfig cfg m) 1 (txnAt cfg merge m) (s.nodes m) =
      some node) : Inv cfg merge master serial compute init (setNode s m node) := by
  obtain ⟨phase, pushed, freed, hs⟩ := hi.scheduled m
  obtain ⟨p, phase', pushed', freed', hp, hs', hphase, hnext, hstore, hmanagers⟩ :=
    hs.handleDone (by decide) (hl.asks_nodup hm m) h
  refine hi.setNode hs' (by rw [hnext]; exact hi.next m) hstore (fun q => ?_) ?_ hi.network
  · rw [executed_iff hs', executed_iff hs]
    -- only `p` changes between these phases, from done to released
    rcases hphase q with heq | ⟨hw, hr⟩ | ⟨rfl, hrel⟩
    · rw [heq]
    · rw [hw, hr]
      decide
    · rw [hp, hrel]
      decide
  · rw [hmanagers]
    exact hi.objects m

/-- A worker creates a manager: what it reads and sends is what the serial
execution shows. -/
theorem inv_start {sent : List ReadResult} (hi : Inv cfg merge master serial compute init s)
    (h : DeterministicScheduler.start (nodeConfig cfg m) 1 (txnAt cfg merge m) (s.nodes m) =
      some (node, sent)) :
    Inv cfg merge master serial compute init
      { setNode s m node with network := s.network ++ sent } := by
  obtain ⟨phase, pushed, freed, hs⟩ := hi.scheduled m
  obtain ⟨p, rest, hq, hp, hs'⟩ := hs.start h
  obtain ⟨p', rest', hq', rfl, rfl⟩ := start_cases h
  rw [hq] at hq'
  obtain ⟨rfl, rfl⟩ := List.cons.inj hq'
  have hlen : p < (stream cfg merge m).length :=
    Nat.lt_of_lt_of_le (hs.lt_next (by rw [hp]; decide)) (hi.next m)
  obtain ⟨hobjects, hsent⟩ := @StorageManager.create_spec (nodeConfig cfg m) 1
    (s.nodes m).store (txnOf (txnAt cfg merge m) (s.nodes m) p) (by decide) (txnAt_readers hlen)
  have hread : ∀ k, OwnKey cfg merge master m p k → (s.nodes m).store k =
      serialRecord compute init serial (rank serial (txnAt cfg merge m p)) k := fun k hk =>
    store_eq hl hm hi hs hlen hk (by rw [hp]; decide) (by rw [hp]; decide) (by rw [hp]; decide)
  refine hi.setNode hs' (hi.next m) rfl (fun _ => Iff.rfl) (fun q sm hsm k o ho => ?_)
    fun msg hmsg => ?_
  · by_cases hqp : q = p
    · subst hqp
      simp only [update_self, Option.some.injEq] at hsm
      subst hsm
      obtain ⟨rfl, entry, he, hk, hown⟩ := (hobjects k o).mp ho
      exact (hl.ownKey_iff hm hlen).mpr ⟨entry, he, hk, hown⟩
    · simp only [update_of_ne hqp] at hsm
      exact hi.objects m q sm hsm k o ho
  · rcases List.mem_append.mp hmsg with hmsg | hmsg
    · exact hi.network msg hmsg
    · obtain ⟨hentries, entry, he, hnot, hchannel, hnode⟩ := hsent msg hmsg
      refine ⟨(txnAt cfg merge m p).client, entry, hl.client_mem hm hlen, he, hchannel, hnode,
        fun x hx => ?_, fun x hx => ?_⟩
      · obtain ⟨e, hmem, hown, rfl⟩ := hentries x hx
        refine ⟨List.mem_map_of_mem hmem, fun ⟨hpart, hmaster⟩ => hnot ⟨?_, ?_⟩⟩
        · rw [← hmaster, ← hl.masters _ (hl.client_mem hm hlen) e hmem]
          exact hown.1
        · exact hpart.symm.trans hown.2
      · obtain ⟨e, hmem, hown, rfl⟩ := hentries x hx
        exact hread e.key ((hl.ownKey_iff hm hlen).mpr ⟨e, hmem, rfl, hown⟩)

/-- A message reaches the copy it is for. -/
theorem inv_deliver {i : Nat} (hi : Inv cfg merge master serial compute init s)
    (hone : OneChannel cfg merge s (.deliver m p i)) (h : deliver cfg merge s m p i = some s') :
    Inv cfg merge master serial compute init s' := by
  rw [deliver, Option.bind_eq_some_iff] at h
  obtain ⟨msg, hmsg, h⟩ := h
  simp only at h
  split at h
  case isFalse => cases h
  case isTrue hdest =>
    obtain ⟨node, hread, rfl⟩ := Option.map_eq_some_iff.mp h
    obtain ⟨phase, pushed, freed, hs⟩ := hi.scheduled m
    have hs' := hs.readResult hread
    obtain ⟨sm, hsm, -, rfl⟩ := readResult_cases hread
    have hp : phase p = .running := (hs.running p).mp (by rw [hsm]; rfl)
    have hlen : p < (stream cfg merge m).length :=
      Nat.lt_of_lt_of_le (hs.lt_next (by rw [hp]; decide)) (hi.next m)
    obtain ⟨txn, entry, hok⟩ := hi.network msg (List.mem_of_getElem? hmsg)
    have hpart : cfg.lookupPartition entry.key = m :=
      Nat.add_left_cancel (hok.node.symm.trans hdest.1)
    subst hpart
    -- the copy the message is for has its channel, so it is `p`
    obtain ⟨q, hq, hclient, horigin⟩ := hl.exists_ptr cfg hm hok.txnMem hok.entryMem
    have hqp : q = p := by
      refine hone q hq ?_
      rw [← hdest.2, hok.channel, horigin, ← hclient]
      rfl
    subst hqp
    refine hi.setNode hs' (hi.next _) rfl (fun _ => Iff.rfl) (fun q' sm' hsm' k o ho => ?_)
      fun msg' hmsg' => hi.network msg' (List.mem_of_mem_eraseIdx hmsg')
    by_cases hqq : q' = q
    · subst hqq
      simp only [update_self, Option.some.injEq] at hsm'
      subst hsm'
      rcases StorageManager.lookup_handleReadResult ho with ⟨x, hx, rfl, rfl⟩ | hold
      · obtain ⟨hmem, hnot⟩ := hok.keys x hx
        refine ⟨by rw [hclient]; exact hmem, fun hown => hnot ⟨hown.isLocal, ?_⟩, ?_⟩
        · rw [hown.isMaster, horigin]
        · rw [rank, hclient]
          exact hok.records x hx
      · exact hi.objects _ _ sm hsm k o hold
    · simp only [update_of_ne hqq] at hsm'
      exact hi.objects _ q' sm' hsm' k o ho

/-- A complete manager shows the copy what the serial execution does. -/
theorem readObject_eq {sm : StorageManager} (hi : Inv cfg merge master serial compute init s)
    (hs : Scheduled (nodeConfig cfg m) 1 (txnAt cfg merge m) (s.nodes m) phase pushed freed)
    (hsm : (s.nodes m).managers p = some sm)
    (hready : sm.readyToExecute (txnAt cfg merge m p) = true) :
    p < (stream cfg merge m).length ∧ phase p = .running ∧
    (∀ k, sm.objects.lookup k = some .stored ↔ OwnKey cfg merge master m p k) ∧
    (∀ k, OwnKey cfg merge master m p k → (s.nodes m).store k =
      serialRecord compute init serial (rank serial (txnAt cfg merge m p)) k) ∧
    sm.readObject (s.nodes m).store = fun k =>
      if k ∈ (txnAt cfg merge m p).client.keys then
        some (serialRecord compute init serial (rank serial (txnAt cfg merge m p)) k)
      else none := by
  have hp : phase p = .running := (hs.running p).mp (by rw [hsm]; rfl)
  have hlen : p < (stream cfg merge m).length :=
    Nat.lt_of_lt_of_le (hs.lt_next (by rw [hp]; decide)) (hi.next m)
  have hok := hi.objects m p sm hsm
  have hread : ∀ k, OwnKey cfg merge master m p k → (s.nodes m).store k =
      serialRecord compute init serial (rank serial (txnAt cfg merge m p)) k := fun k hk =>
    store_eq hl hm hi hs hlen hk (by rw [hp]; decide) (by rw [hp]; decide) (by rw [hp]; decide)
  have hsub : ∀ k o, sm.objects.lookup k = some o → k ∈ (txnAt cfg merge m p).client.keys := by
    intro k o ho
    cases o with
    | stored =>
        have hown : OwnKey cfg merge master m p k := hok k _ ho
        exact hown.mem
    | copied val => exact (hok k _ ho).1
  have hall := fun {k} => StorageManager.lookup_of_ready hready hsub (k := k)
  refine ⟨hlen, hp, fun k => ⟨fun ho => hok k _ ho, fun hown => ?_⟩, hread, funext fun k => ?_⟩
  · obtain ⟨o, ho⟩ := hall hown.mem
    cases o with
    | stored => exact ho
    | copied val => exact absurd hown (hok k _ ho).2.1
  · by_cases hk : k ∈ (txnAt cfg merge m p).client.keys
    · obtain ⟨o, ho⟩ := hall hk
      rw [if_pos hk, StorageManager.readObject, ho]
      cases o with
      | stored => exact congrArg some (hread k (hok k _ ho))
      | copied val => exact congrArg some (hok k _ ho).2.2
    · rw [if_neg hk, StorageManager.readObject]
      cases ho : sm.objects.lookup k with
      | none => rfl
      | some o => exact absurd (hsub k o ho) hk

/-- A copy is executed: it writes its own keys as the serial execution does. -/
theorem inv_run {guid random : Nat} {forword : Option TxnForword}
    (hi : Inv cfg merge master serial compute init s)
    (h : DeterministicScheduler.run (nodeConfig cfg m) 1 (txnAt cfg merge m) compute (s.nodes m) p
      guid random = some (node, forword)) :
    Inv cfg merge master serial compute init (setNode s m node) := by
  obtain ⟨phase, pushed, freed, hs⟩ := hi.scheduled m
  obtain ⟨-, hs'⟩ := hs.run (by decide) h
  obtain ⟨sm, store, hsm, hready, hexec, rfl⟩ := run_plain (by decide) h
  obtain ⟨hlen, hp, hstored, hread, hview⟩ := readObject_eq hl hm hi hs hsm hready
  have hnot : (txnOf (txnAt cfg merge m) (s.nodes m) p).remasterTxn = false :=
    hl.not_remaster hm hlen
  rw [Microbenchmark.execute, if_neg (by rw [hnot]; decide)] at hexec
  cases hexec
  have hserial : serial[rank serial (txnAt cfg merge m p)]? = some (txnAt cfg merge m p).client :=
    List.getElem?_idxOf (hl.client_mem hm hlen)
  have hexec : ∀ q, Executed (finish { s.nodes m with
      store := Microbenchmark.writeValues compute (txnOf (txnAt cfg merge m) (s.nodes m) p) sm
        (s.nodes m).store } p .committed) q ↔ Executed (s.nodes m) q ∨ q = p := by
    intro q
    simp only [Executed, finish, List.mem_append, List.mem_singleton]
    exact or_right_comm
  refine
    { scheduled := fun m' => ?_
      next := fun m' => ?_
      objects := fun m' => ?_
      network := hi.network
      agrees := ?_ }
  · by_cases hm' : m' = m
    · subst hm'
      simp only [setNode, update_self]
      exact ⟨_, _, _, hs'⟩
    · simp only [setNode, update_of_ne hm']
      exact hi.scheduled m'
  · by_cases hm' : m' = m
    · subst hm'
      simp only [setNode, update_self]
      exact hi.next m'
    · simp only [setNode, update_of_ne hm']
      exact hi.next m'
  · by_cases hm' : m' = m
    · subst hm'
      simp only [setNode, update_self]
      intro q sm' hsm'
      by_cases hqp : q = p
      · simp [finish, hqp] at hsm'
      · simp only [finish, update_of_ne hqp] at hsm'
        exact hi.objects m' q sm' hsm'
    · simp only [setNode, update_of_ne hm']
      exact hi.objects m'
  · refine (hi.agrees.writeMany (runAlone_frame compute)
      (fun k => OwnKey cfg merge master m p k ∧ k ∈ (txnAt cfg merge m p).client.writeKeys)
      (j := rank serial (txnAt cfg merge m p)) ?_ ?_ ?_).congr ?_
    · rintro k ⟨hk, hw⟩
      have hloc := hk.isLocal
      subst hloc
      rw [Serial.serialAt_succ _ hserial, runAlone, if_pos hw]
      simp only [records, setNode, update_self, finish]
      rw [Microbenchmark.writeValues, if_pos ⟨hw, (hstored k).mpr hk⟩, hview, hread k hk]
      rfl
    · intro k hk
      by_cases hpart : cfg.lookupPartition k = m
      · subst hpart
        simp only [records, setNode, update_self, finish]
        rw [Microbenchmark.writeValues, if_neg fun h => hk ⟨(hstored k).mp h.2, h.1⟩]
      · simp only [records, setNode, update_of_ne hpart]
    · rintro k ⟨hk, -⟩ l hlt
      exact later_not_done hl hm hs hlen hk (by rw [hp]; decide) hlt
    · intro j k
      constructor
      · rintro (⟨q, hq, hrank, hkq, hw, hdone⟩ | ⟨rfl, hk, hw⟩)
        · refine ⟨q, hq, hrank, hkq, hw, ?_⟩
          by_cases hpart : cfg.lookupPartition k = m
          · subst hpart
            simp only [setNode, update_self]
            exact (hexec q).mpr (.inl hdone)
          · simpa only [setNode, update_of_ne hpart] using hdone
        · have hloc := hk.isLocal
          subst hloc
          refine ⟨p, hlen, rfl, hk, hw, ?_⟩
          simp only [setNode, update_self]
          exact (hexec p).mpr (.inr rfl)
      · rintro ⟨q, hq, hrank, hkq, hw, hdone⟩
        by_cases hpart : cfg.lookupPartition k = m
        · subst hpart
          simp only [setNode, update_self] at hdone
          rcases (hexec q).mp hdone with hdone | rfl
          · exact .inl ⟨q, hq, hrank, hkq, hw, hdone⟩
          · exact .inr ⟨hrank.symm, hkq, hw⟩
        · simp only [setNode, update_of_ne hpart] at hdone
          exact .inl ⟨q, hq, hrank, hkq, hw, hdone⟩

/-- Every step keeps the invariant, if messages reach the only transaction with
their channel. -/
theorem inv_step {e : Event} (hone : OneChannel cfg merge s e)
    (hi : Inv cfg merge master serial compute init s)
    (h : (machine cfg 1 merge compute init).next s e = some s') :
    Inv cfg merge master serial compute init s' := by
  cases e with
  | start m =>
      obtain ⟨⟨node, sent⟩, hstart, rfl⟩ := Option.map_eq_some_iff.mp h
      exact inv_start hl hm hi hstart
  | deliver m p i => exact inv_deliver hl hm hi hone h
  | node m e =>
      obtain ⟨phase, pushed, freed, hs⟩ := hi.scheduled m
      simp only [machine, nodeStep] at h
      cases e with
      | parse =>
          simp only [step] at h
          split at h
          case isTrue hlt =>
              obtain ⟨node, hparse, rfl⟩ := Option.map_eq_some_iff.mp h
              exact inv_parse hl hm hi hlt hparse
          case isFalse => cases h
      | verify =>
          -- nothing is ever verified in this mode
          obtain ⟨node, hverify, -⟩ := Option.map_eq_some_iff.mp h
          obtain ⟨entry, rest, v, hv, -⟩ := verify_cases hverify
          rw [hs.verifying] at hv
          cases hv
      | route =>
          obtain ⟨node, hroute, -⟩ := Option.map_eq_some_iff.mp h
          obtain ⟨v, status, hv, -, -⟩ := route_cases hroute
          rw [hs.verifying] at hv
          cases hv
      | dispatch =>
          obtain ⟨node, hdispatch, rfl⟩ := Option.map_eq_some_iff.mp h
          exact inv_dispatch hi hdispatch
      | handleDone =>
          obtain ⟨node, hdone, rfl⟩ := Option.map_eq_some_iff.mp h
          exact inv_handleDone hl hm hi hdone
      | start => cases h
      | readResult p entries => cases h
      | run p guid random =>
          obtain ⟨node, hnode, rfl⟩ := Option.map_eq_some_iff.mp h
          obtain ⟨⟨node', forword⟩, hrun, rfl⟩ := Option.map_eq_some_iff.mp hnode
          exact inv_run hl hm hi hrun

theorem inv_of_reach
    (h : (machine cfg 1 merge compute init).Reach (OneChannel cfg merge) s) :
    Inv cfg merge master serial compute init s :=
  h.invariant inv_init fun _ _ _ _ hone hi hn => inv_step hl hm hone hi hn

/-- The records of a replica that has executed everything. -/
theorem records_eq (hi : Inv cfg merge master serial compute init s)
    (hc : Complete cfg merge s) :
    records cfg s = serial.foldl (runAlone compute) init := by
  rw [← Serial.serialAt_length]
  funext k
  refine hi.agrees k _ (fun i _ hw => ?_) fun i hge hdone => ?_
  · obtain ⟨p, hp, hrank, hk, hw⟩ := hl.exists_writer cfg hm hw
    exact ⟨p, hp, hrank, hk, hw, hc _ p hp⟩
  · obtain ⟨p, hp, rfl, -⟩ := hdone
    exact absurd (List.idxOf_lt_length_of_mem (hl.client_mem hm hp)) (Nat.not_lt.mpr hge)

end

/-- With distinct names every message is handed to the only transaction of the node
with its channel. -/
theorem oneChannel_of_next (hl : Logs logs master serial) (hm : IsMerge logs merge)
    (hnames : (serial.map fun txn => txn.txnId % UInt32.size).Nodup)
    (hi : Inv cfg merge master serial compute init s) {e : Event}
    (h : (machine cfg 1 merge compute init).next s e = some s') : OneChannel cfg merge s e := by
  cases e with
  | node => trivial
  | start => trivial
  | deliver m p i =>
      obtain ⟨msg, -, h⟩ := Option.bind_eq_some_iff.mp h
      obtain ⟨-, h⟩ := Option.ite_none_right_eq_some.mp h
      obtain ⟨node, hread, -⟩ := Option.map_eq_some_iff.mp h
      obtain ⟨sm, hsm, -, -⟩ := readResult_cases hread
      obtain ⟨phase, pushed, freed, hs⟩ := hi.scheduled m
      have hp : phase p = .running := (hs.running p).mp (by rw [hsm]; rfl)
      have hplen : p < (stream cfg merge m).length :=
        Nat.lt_of_lt_of_le (hs.lt_next (by rw [hp]; decide)) (hi.next m)
      intro q hq hchannel
      obtain ⟨hname, horigin⟩ := Prod.mk.inj hchannel
      have hclient : (txnAt cfg merge m q).client = (txnAt cfg merge m p).client :=
        List.inj_on_of_nodup_map hnames (hl.client_mem hm hq) (hl.client_mem hm hplen) hname
      exact hl.eq_of_rank_eq hm hplen hq horigin (by rw [rank, hclient])

/-- So every run is one in which the messages reach the right transactions. -/
theorem reach_of_reachable (hl : Logs logs master serial) (hm : IsMerge logs merge)
    (hnames : (serial.map fun txn => txn.txnId % UInt32.size).Nodup)
    (h : (machine cfg 1 merge compute init).Reachable s) :
    (machine cfg 1 merge compute init).Reach (OneChannel cfg merge) s := by
  induction h with
  | init => exact .init
  | step _ _ hn ih =>
      exact ih.step (oneChannel_of_next hl hm hnames (inv_of_reach hl hm ih) hn) hn

end

/-! ## Logs of given transactions -/

/-- The copy of a transaction at an origin. -/
def copyAt (r : Nat) (txn : ClientTxn) : TxnProto where
  txnId := txn.txnId
  txnType := txn.txnType
  readSet := txn.readSet
  readWriteSet := txn.readWriteSet
  originReplica := r

/-- The logs with the copies of a list of transactions. -/
def logsOf (serial : List ClientTxn) (r : Nat) : List TxnProto :=
  (serial.filter fun txn => Involves r txn).map (copyAt r)

theorem logs_logsOf {master : Key → Nat} {serial : List ClientTxn}
    (hkeys : ∀ txn ∈ serial, txn.keys.Nodup)
    (hmasters : ∀ txn ∈ serial, ∀ entry ∈ txn.entries, entry.master = master entry.key)
    (hids : (serial.map ClientTxn.txnId).Nodup) : Logs (logsOf serial) master serial where
  origin r txn h := by
    obtain ⟨t, -, rfl⟩ := List.mem_map.mp h
    rfl
  copies r := by
    rw [logsOf, List.filter_map, List.map_map, List.filter_eq_self.mpr fun _ _ => by simp [copyAt]]
    exact List.map_id _
  normal r txn h := by
    obtain ⟨t, -, rfl⟩ := List.mem_map.mp h
    rfl
  distinctKeys := hkeys
  masters := hmasters
  ids := hids

/-- There are no nodes behind the last partition. -/
theorem stream_eq_nil {cfg : ClusterConfig} {merge : List TxnProto} {m : Nat}
    (hn : 0 < cfg.nodesPerReplica) (h : cfg.nodesPerReplica ≤ m) : stream cfg merge m = [] := by
  refine List.eq_nil_iff_forall_not_mem.mpr fun txn htxn => ?_
  obtain ⟨c, hc, -⟩ := List.mem_map.mp htxn
  obtain ⟨entry, -, -, hpart⟩ := LowlatencySequencer.mem_partitions.mp
    (of_decide_eq_true (List.mem_filter.mp hc).2).2
  have hlt : cfg.lookupPartition entry.key < cfg.nodesPerReplica := Nat.mod_lt _ hn
  rw [hpart] at hlt
  exact Nat.not_lt.mpr h hlt

theorem complete_of_lt {cfg : ClusterConfig} {merge : List TxnProto} {s : Replica}
    (hn : 0 < cfg.nodesPerReplica)
    (h : ∀ m < cfg.nodesPerReplica, ∀ p < (stream cfg merge m).length, Executed (s.nodes m) p) :
    Complete cfg merge s := by
  intro m p hp
  by_cases hm : m < cfg.nodesPerReplica
  · exact h m hm p hp
  · rw [stream_eq_nil hn (Nat.le_of_not_lt hm)] at hp
    exact absurd hp (Nat.not_lt_zero p)

instance (node : Node) (p : Ptr) : Decidable (Executed node p) :=
  inferInstanceAs (Decidable (_ ∨ _))

/-! ## Main results -/

/-- A replica that has executed all copies has the records of the serial
execution; so two replicas agree, whatever their merges. In this mode the ids come
from the `int` of `GetTxn`, so distinct ones differ in the 32 bits of their names. -/
theorem records_eq_serial (logs : Nat → List TxnProto) (master : Key → Nat)
    (serial : List ClientTxn) (hl : Logs logs master serial)
    (hnames : (serial.map fun txn => txn.txnId % UInt32.size).Nodup) (compute : Compute)
    (init : Key → Record) (cfg cfg' : ClusterConfig) (merge merge' : List TxnProto)
    (hm : IsMerge logs merge) (hm' : IsMerge logs merge') (s s' : Replica)
    (hs : (machine cfg 1 merge compute init).Reachable s)
    (hs' : (machine cfg' 1 merge' compute init).Reachable s')
    (hc : Complete cfg merge s) (hc' : Complete cfg' merge' s') :
    records cfg s = serial.foldl (runAlone compute) init ∧ records cfg s = records cfg' s' := by
  have hreach := reach_of_reachable hl hm hnames hs
  have hreach' := reach_of_reachable hl hm' hnames hs'
  have h := records_eq hl hm (inv_of_reach hl hm hreach) hc
  have h' := records_eq hl hm' (inv_of_reach hl hm' hreach') hc'
  exact ⟨h, h.trans h'.symm⟩

/-- Two merges of the logs of a transaction with two masters and one with one. -/
theorem records_eq_serial_twoMerges :
    let serial : List ClientTxn := [{ txnId := 1, readWriteSet := [⟨[48], 0, 0⟩, ⟨[49], 1, 0⟩] },
      { txnId := 2, readWriteSet := [⟨[48], 0, 0⟩] }]
    let merge := logsOf serial 0 ++ logsOf serial 1
    let merge' := logsOf serial 1 ++ logsOf serial 0
    let compute : Compute := fun _ view _ => 48 :: ((view [48]).map Record.value).getD []
    let init : Key → Record := fun k => ⟨[], if k = [49] then 1 else 0, 0⟩
    ∃ s s' : Replica, Complete {} merge s ∧ Complete {} merge' s' ∧
      ((records {} s = serial.foldl (runAlone compute) init ∧ records {} s = records {} s') ∧
        (records {} s [48]).value = [48, 48]) := by
  intro serial merge merge' compute init
  have hl : Logs (logsOf serial) (fun k => if k = [49] then 1 else 0) serial :=
    logs_logsOf (by decide) (by decide) (by decide)
  have hm : IsMerge (logsOf serial) merge := by
    intro r
    match r with
    | 0 => decide
    | 1 => decide
    | r + 2 => simp [merge, serial, logsOf, copyAt, Involves, ClientTxn.entries]
  have hm' : IsMerge (logsOf serial) merge' := by
    intro r
    match r with
    | 0 => decide
    | 1 => decide
    | r + 2 => simp [merge', serial, logsOf, copyAt, Involves, ClientTxn.entries]
  obtain ⟨s, hs, hc, hval⟩ := Machine.exists_of_trace (m := machine {} 1 merge compute init)
    (P := fun s : Replica =>
      (∀ m : Nat, m < 1 → ∀ p < (stream {} merge m).length, Executed (s.nodes m) p) ∧
      (records {} s [48]).value = [48, 48])
    [.node 0 .parse, .node 0 .parse, .node 0 .parse, .node 0 .dispatch, .node 0 .dispatch,
      .start 0, .start 0, .deliver 0 0 1, .deliver 0 2 0, .node 0 (.run 0 0 0),
      .node 0 (.run 2 0 0), .node 0 .handleDone, .node 0 .dispatch, .start 0,
      .node 0 (.run 1 0 0)]
    (by decide)
  obtain ⟨s', hs', hc'⟩ := Machine.exists_of_trace (m := machine {} 1 merge' compute init)
    (P := fun s : Replica =>
      ∀ m : Nat, m < 1 → ∀ p < (stream {} merge' m).length, Executed (s.nodes m) p)
    [.node 0 .parse, .node 0 .parse, .node 0 .parse, .node 0 .dispatch, .node 0 .dispatch,
      .start 0, .start 0, .deliver 0 0 1, .deliver 0 1 0, .node 0 (.run 0 0 0),
      .node 0 (.run 1 0 0), .node 0 .handleDone, .node 0 .handleDone, .node 0 .dispatch,
      .start 0, .node 0 (.run 2 0 0)]
    (by decide)
  have hc : Complete {} merge s := complete_of_lt Nat.one_pos hc
  have hc' : Complete {} merge' s' := complete_of_lt Nat.one_pos hc'
  exact ⟨s, s', hc, hc', records_eq_serial (logsOf serial) _ serial hl
    (by decide) compute init {} {}
    merge merge' hm hm' s s' hs hs' hc hc', hval⟩

end Calvin.Replica
