import Calvin.Backend.StorageManagerSpec
import Calvin.Machine.LowlatencySequencer
import Calvin.Machine.Sequencer
import Calvin.Scheduler.Replica

/-!
# The exchange of read results

The participants of a transaction read the records they are the home of and
send them to the other participants that write.

* `participants`, `forwarded`: who they are, and the copy each of them gets;
* `created`, `inbox`, `received`: their managers, and what reaches them;
* `mem_inbox`: the records that reach one.
-/

namespace Calvin.ReadExchange

open StorageManager Replica

section

variable (cfg : ClusterConfig) (mode : Nat) (txn : TxnProto)

/-- The transaction as the sequencer forwards it to a participant. -/
def forwarded (x : Nat × Nat) : TxnProto :=
  if mode = 0 then Sequencer.withReaders cfg txn
  else LowlatencySequencer.withReaders cfg { txn with originReplica := x.2 }

/-- The participants, by partition and origin: the readers of the transaction,
and unless the mode is 0 of one copy for each involved origin. -/
def participants : List (Nat × Nat) :=
  if mode = 0 then (Sequencer.readers cfg txn).map fun mds => (mds, txn.originReplica)
  else (txn.client.entries.map KeyEntry.master).dedup.flatMap fun r =>
    (LowlatencySequencer.readers cfg { txn with originReplica := r }).map fun mds => (mds, r)

variable (store : Nat × Nat → Key → Record)

/-- The manager of a participant, and what it sends, over the records it finds. -/
def created (x : Nat × Nat) : StorageManager × List ReadResult :=
  create (nodeConfig cfg x.1) mode (store x) (forwarded cfg mode txn x)

/-- The messages to a participant. -/
def inbox (x : Nat × Nat) : List ReadResult :=
  ((participants cfg mode txn).flatMap fun y => (created cfg mode txn store y).2).filter fun msg =>
    msg.destinationNode = cfg.lookupMachineId x.1 cfg.localReplicaId ∧
      msg.destinationChannel = channelOf txn.txnId x.2

/-- A participant that has handled these messages, one after another. -/
def received (x : Nat × Nat) (messages : List ReadResult) : StorageManager :=
  messages.foldl (fun sm msg => sm.handleReadResult msg.entries) (created cfg mode txn store x).1

end

section

variable {cfg : ClusterConfig} {mode : Nat} {txn : TxnProto} {store : Nat × Nat → Key → Record}

/-! ## The participants are the homes of the entries -/

theorem forwarded_client (x : Nat × Nat) : (forwarded cfg mode txn x).client = txn.client := by
  unfold forwarded
  split <;> rfl

theorem home_forwarded (x : Nat × Nat) (entry : KeyEntry) :
    home (nodeConfig cfg x.1) mode (forwarded cfg mode txn x).originReplica entry =
      home cfg mode txn.originReplica entry := by
  unfold home forwarded
  by_cases hmode : mode = 0
  · rw [if_pos hmode, if_pos hmode, if_pos hmode]
    rfl
  · rw [if_neg hmode, if_neg hmode]
    rfl

theorem mem_participants {x : Nat × Nat} :
    x ∈ participants cfg mode txn ↔
      ∃ entry ∈ txn.client.entries, home cfg mode txn.originReplica entry = x := by
  unfold participants
  by_cases hmode : mode = 0
  · rw [if_pos hmode, List.mem_map]
    constructor
    · rintro ⟨mds, hmds, rfl⟩
      obtain ⟨entry, he, rfl⟩ := Sequencer.mem_partitions.mp hmds
      exact ⟨entry, he, by rw [home, if_pos hmode]⟩
    · rintro ⟨entry, he, rfl⟩
      refine ⟨_, Sequencer.mem_partitions.mpr ⟨entry, he, rfl⟩, ?_⟩
      rw [home, if_pos hmode]
  · rw [if_neg hmode, List.mem_flatMap]
    constructor
    · rintro ⟨r, -, hx⟩
      obtain ⟨mds, hmds, rfl⟩ := List.mem_map.mp hx
      obtain ⟨entry, he, rfl, rfl⟩ := LowlatencySequencer.mem_partitions.mp hmds
      exact ⟨entry, he, by rw [home, if_neg hmode]⟩
    · rintro ⟨entry, he, rfl⟩
      refine ⟨entry.master, List.mem_dedup.mpr (List.mem_map_of_mem he), List.mem_map.mpr
        ⟨_, LowlatencySequencer.mem_partitions.mpr ⟨entry, he, rfl, rfl⟩, ?_⟩⟩
      rw [home, if_neg hmode]

theorem participants_nodup : (participants cfg mode txn).Nodup := by
  unfold participants
  split
  · exact (Sequencer.nodup_partitions _).map fun a b h => (Prod.mk.inj h).1
  · refine List.nodup_flatMap.mpr ⟨fun r _ => ?_, (List.nodup_dedup _).imp fun {r r'} hne => ?_⟩
    · exact (LowlatencySequencer.nodup_partitions _).map fun a b h => (Prod.mk.inj h).1
    · -- copies of different origins
      intro x hx hx'
      obtain ⟨mds, -, rfl⟩ := List.mem_map.mp hx
      obtain ⟨mds', -, heq⟩ := List.mem_map.mp hx'
      exact hne (Prod.mk.inj heq).2.symm

/-- Each participant is a reader of the copy it gets. -/
theorem here_forwarded {x : Nat × Nat} (hx : x ∈ participants cfg mode txn) :
    here (nodeConfig cfg x.1) (forwarded cfg mode txn x) = x ∧
      (nodeConfig cfg x.1).relativeNodeId ∈ (forwarded cfg mode txn x).readers := by
  obtain ⟨entry, he, rfl⟩ := mem_participants.mp hx
  unfold forwarded home
  by_cases hmode : mode = 0
  · rw [if_pos hmode, if_pos hmode]
    exact ⟨rfl, List.mem_append_right _ (Sequencer.mem_partitions.mpr ⟨entry, he, rfl⟩)⟩
  · rw [if_neg hmode, if_neg hmode]
    exact ⟨rfl, List.mem_append_right _
      (LowlatencySequencer.mem_partitions.mpr ⟨entry, he, rfl, rfl⟩)⟩

/-! ## What the participants hold -/

theorem mem_created {x : Nat × Nat} (hx : x ∈ participants cfg mode txn) {k : Key} :
    k ∈ (created cfg mode txn store x).1.objects ↔
      ∃ entry ∈ txn.client.entries, entry.key = k ∧ home cfg mode txn.originReplica entry = x := by
  obtain ⟨hhere, hreader⟩ := here_forwarded hx
  obtain ⟨hobjects, -⟩ := create_eq mode (store x) hreader
  have hcreated := created_readAll (nodeConfig cfg x.1) mode (store x) (forwarded cfg mode txn x)
  rw [created, hobjects, ← AList.lookup_isSome, Option.isSome_iff_exists]
  simp only [hcreated.objects, hhere, home_forwarded, forwarded_client, exists_and_right,
    exists_eq, true_and]

/-- What a participant sends: its records, to each other one that writes. -/
theorem mem_sent (store : Nat × Nat → Key → Record) {y : Nat × Nat}
    (hy : y ∈ participants cfg mode txn) {msg : ReadResult} :
    msg ∈ (created cfg mode txn store y).2 ↔
      ∃ w, (w ≠ y ∧ ∃ entry ∈ txn.readWriteSet, home cfg mode txn.originReplica entry = w) ∧
        msg = { destinationChannel := channelOf txn.txnId w.2
                destinationNode := cfg.lookupMachineId w.1 cfg.localReplicaId
                entries := (txn.client.entries.filter fun entry =>
                    home cfg mode txn.originReplica entry = y).map fun entry =>
                  (entry.key, store y entry.key) } := by
  obtain ⟨hhere, hreader⟩ := here_forwarded hy
  obtain ⟨-, -, -, hsent⟩ := create_eq mode (store y) hreader
  have hcreated := created_readAll (nodeConfig cfg y.1) mode (store y) (forwarded cfg mode txn y)
  have hclient : (forwarded cfg mode txn y).client = txn.client := forwarded_client y
  have hwrites : (forwarded cfg mode txn y).readWriteSet = txn.readWriteSet :=
    congrArg ClientTxn.readWriteSet hclient
  have hid : (forwarded cfg mode txn y).txnId = txn.txnId := congrArg ClientTxn.txnId hclient
  rw [created, hsent, List.mem_map]
  simp only [mem_destinations, resultFor, hcreated.results, hhere, home_forwarded, hclient,
    hwrites, hid]
  exact exists_congr fun w => and_congr_right fun _ => eq_comm

/-- The messages to a participant are there if it has a record to write, and
bring the records of all others. -/
theorem mem_inbox (store : Nat × Nat → Key → Record) {x : Nat × Nat} {k : Key} :
    (∃ msg ∈ inbox cfg mode txn store x, ∃ e ∈ msg.entries, e.1 = k) ↔
      (∃ entry ∈ txn.readWriteSet, home cfg mode txn.originReplica entry = x) ∧
        ∃ entry ∈ txn.client.entries, entry.key = k ∧
          home cfg mode txn.originReplica entry ≠ x := by
  unfold inbox
  simp only [List.mem_filter, List.mem_flatMap, decide_eq_true_eq]
  constructor
  · rintro ⟨msg, ⟨⟨y, hy, hmsg⟩, hnode, hchannel⟩, e, he, rfl⟩
    obtain ⟨w, ⟨hwy, hw⟩, rfl⟩ := (mem_sent store hy).mp hmsg
    have hwx : w = x := Prod.ext (Nat.add_left_cancel hnode) (Prod.mk.inj hchannel).2
    subst hwx
    obtain ⟨entry, hentry, rfl⟩ := List.mem_map.mp he
    obtain ⟨hentry, hhome⟩ := List.mem_filter.mp hentry
    refine ⟨hw, entry, hentry, rfl, ?_⟩
    rw [of_decide_eq_true hhome]
    exact hwy.symm
  · rintro ⟨hw, entry, hentry, rfl, hne⟩
    have hy : home cfg mode txn.originReplica entry ∈ participants cfg mode txn :=
      mem_participants.mpr ⟨entry, hentry, rfl⟩
    refine ⟨_, ⟨⟨_, hy, (mem_sent store hy).mpr ⟨x, ⟨hne.symm, hw⟩, rfl⟩⟩, rfl, rfl⟩,
      (entry.key, store (home cfg mode txn.originReplica entry) entry.key), ?_, rfl⟩
    exact List.mem_map.mpr ⟨entry, List.mem_filter.mpr ⟨hentry, decide_eq_true rfl⟩, rfl⟩

theorem mem_received {x : Nat × Nat} (messages : List ReadResult) {k : Key} :
    k ∈ (received cfg mode txn store x messages).objects ↔
      (∃ msg ∈ messages, ∃ e ∈ msg.entries, e.1 = k) ∨
        k ∈ (created cfg mode txn store x).1.objects := by
  have hfold : ∀ (messages : List ReadResult) (sm : StorageManager),
      k ∈ (messages.foldl (fun sm msg => sm.handleReadResult msg.entries) sm).objects ↔
        (∃ msg ∈ messages, ∃ e ∈ msg.entries, e.1 = k) ∨ k ∈ sm.objects := by
    intro messages
    induction messages with
    | nil => simp
    | cons msg rest ih =>
        intro sm
        rw [List.foldl_cons, ih, mem_handleReadResult, List.exists_mem_cons_iff, or_assoc,
          or_left_comm]
  exact hfold messages _

/-! ## One message from each to each -/

/-- The keys that a participant is the home of. -/
def ownKeys (cfg : ClusterConfig) (mode : Nat) (txn : TxnProto) (x : Nat × Nat) : List Key :=
  (txn.client.entries.filter fun entry => home cfg mode txn.originReplica entry = x).map
    KeyEntry.key

/-- A participant has a record to write. -/
def Writes (cfg : ClusterConfig) (mode : Nat) (txn : TxnProto) (x : Nat × Nat) : Prop :=
  ∃ entry ∈ txn.readWriteSet, home cfg mode txn.originReplica entry = x

instance (x : Nat × Nat) : Decidable (Writes cfg mode txn x) :=
  inferInstanceAs (Decidable (∃ entry ∈ txn.readWriteSet, _))

/-- The message from one participant to another. -/
def resultOf (cfg : ClusterConfig) (mode : Nat) (txn : TxnProto)
    (store : Nat × Nat → Key → Record) (y x : Nat × Nat) : ReadResult where
  destinationChannel := channelOf txn.txnId x.2
  destinationNode := cfg.lookupMachineId x.1 cfg.localReplicaId
  entries := (ownKeys cfg mode txn y).map fun key => (key, store y key)

/-- A participant has at first the records it is the home of. -/
theorem created_keys {x : Nat × Nat} (hx : x ∈ participants cfg mode txn)
    (hkeys : txn.client.keys.Nodup) :
    (created cfg mode txn store x).1.objects.keys.Perm (ownKeys cfg mode txn x) := by
  have hown : (ownKeys cfg mode txn x).Nodup :=
    hkeys.sublist ((List.filter_sublist (l := txn.client.entries)).map KeyEntry.key)
  refine (List.perm_ext_iff_of_nodup (AList.keys_nodup _) hown).mpr fun k => ?_
  rw [← AList.mem_keys, mem_created hx, ownKeys, List.mem_map]
  constructor
  · rintro ⟨entry, he, rfl, hhome⟩
    exact ⟨entry, List.mem_filter.mpr ⟨he, decide_eq_true hhome⟩, rfl⟩
  · rintro ⟨entry, he, rfl⟩
    obtain ⟨he, hhome⟩ := List.mem_filter.mp he
    exact ⟨entry, he, rfl, of_decide_eq_true hhome⟩

/-- Every participant sends one message to each other one that writes, and no
others. -/
theorem sent_eq (store : Nat × Nat → Key → Record) {y : Nat × Nat}
    (hy : y ∈ participants cfg mode txn) :
    ∃ writers : List (Nat × Nat), writers.Nodup ∧
      (∀ w, w ∈ writers ↔ w ≠ y ∧ Writes cfg mode txn w) ∧
      (created cfg mode txn store y).2 = writers.map (resultOf cfg mode txn store y) := by
  obtain ⟨hhere, hreader⟩ := here_forwarded hy
  obtain ⟨-, -, -, hsent⟩ := create_eq mode (store y) hreader
  have hcreated := created_readAll (nodeConfig cfg y.1) mode (store y) (forwarded cfg mode txn y)
  have hclient : (forwarded cfg mode txn y).client = txn.client := forwarded_client y
  have hwrites : (forwarded cfg mode txn y).readWriteSet = txn.readWriteSet :=
    congrArg ClientTxn.readWriteSet hclient
  have hid : (forwarded cfg mode txn y).txnId = txn.txnId := congrArg ClientTxn.txnId hclient
  refine ⟨destinations (nodeConfig cfg y.1) mode (forwarded cfg mode txn y)
    (readAll (nodeConfig cfg y.1) mode (store y) (forwarded cfg mode txn y)), destinations_nodup,
    fun w => ?_, ?_⟩
  · rw [mem_destinations, hhere, hwrites]
    simp only [home_forwarded]
    exact Iff.rfl
  · rw [created, hsent]
    refine List.map_congr_left fun w _ => ?_
    rw [resultFor, hcreated.results, hhere, hid, hclient, resultOf, ownKeys, List.map_map]
    simp only [home_forwarded]
    rfl

/-- What a participant sends to another. -/
theorem sent_filter (store : Nat × Nat → Key → Record) {y x : Nat × Nat}
    (hy : y ∈ participants cfg mode txn) (hne : x ≠ y) (hw : Writes cfg mode txn x) :
    ((created cfg mode txn store y).2.filter fun msg =>
      msg.destinationNode = cfg.lookupMachineId x.1 cfg.localReplicaId ∧
        msg.destinationChannel = channelOf txn.txnId x.2) = [resultOf cfg mode txn store y x] := by
  obtain ⟨writers, hnodup, hmem, hsent⟩ := sent_eq store hy
  have honly : (writers.filter fun w => w = x) = [x] := by
    rw [List.filter_eq, hnodup.count, if_pos ((hmem x).mpr ⟨hne, hw⟩)]
    rfl
  rw [hsent, List.filter_map]
  have hfilter : (writers.filter ((fun msg : ReadResult => decide
      (msg.destinationNode = cfg.lookupMachineId x.1 cfg.localReplicaId ∧
        msg.destinationChannel = channelOf txn.txnId x.2)) ∘ resultOf cfg mode txn store y)) =
      writers.filter fun w => w = x := by
    refine List.filter_congr fun w _ => decide_eq_decide.mpr ?_
    constructor
    · rintro ⟨hnode, hchannel⟩
      exact Prod.ext (Nat.add_left_cancel hnode) (Prod.mk.inj hchannel).2
    · rintro rfl
      exact ⟨rfl, rfl⟩
  rw [hfilter, honly]
  rfl

/-- The keys of messages. -/
def resultKeys (messages : List ReadResult) : List Key :=
  messages.flatMap fun msg => msg.entries.map Prod.fst

theorem handleReadResult_keys {sm : StorageManager} {entries : List (Key × Record)}
    (h : (entries.map Prod.fst ++ sm.objects.keys).Nodup) :
    (sm.handleReadResult entries).objects.keys.Perm
      (entries.map Prod.fst ++ sm.objects.keys) := by
  have hfold : ∀ (entries : List (Key × Record)) (objects : AList fun _ : Key => Object),
      (entries.map Prod.fst ++ objects.keys).Nodup →
      (entries.foldl (fun objects e => objects.insert e.1 (.copied e.2)) objects).keys.Perm
        (entries.map Prod.fst ++ objects.keys) := by
    intro entries
    induction entries with
    | nil => exact fun objects _ => List.Perm.refl _
    | cons e rest ih =>
        intro objects hnodup
        have hnot : e.1 ∉ objects.keys := fun hmem =>
          (List.nodup_cons.mp hnodup).1 (List.mem_append_right _ hmem)
        have hkeys : (objects.insert e.1 (.copied e.2)).keys = e.1 :: objects.keys := by
          rw [AList.keys_insert]
          exact congrArg (e.1 :: ·) (@List.erase_of_not_mem _ instBEqOfDecidableEq _ _ _ hnot)
        have hperm : (rest.map Prod.fst ++ (objects.insert e.1 (.copied e.2)).keys).Perm
            ((e :: rest).map Prod.fst ++ objects.keys) := by
          rw [hkeys]
          exact List.perm_middle
        exact (ih _ (hperm.nodup_iff.mpr hnodup)).trans hperm
  exact hfold entries sm.objects h

/-- Ready is who has as many objects as there are keys. -/
theorem ready_iff_length {sm : StorageManager} :
    sm.readyToExecute txn = true ↔ sm.objects.keys.length = txn.client.keys.length := by
  rw [readyToExecute, decide_eq_true_eq, AList.keys, List.keys, List.length_map, ClientTxn.keys,
    List.length_map, ClientTxn.entries, List.length_append]
  rfl

/-! ## What is held and what is to come -/

/-- The keys a participant holds and those of the messages on their way to it
are the keys of the entries that have arrived, each once. -/
structure Share (txn : TxnProto) (flight : List ReadResult) (held : List Key)
    (arrived : KeyEntry → Prop) : Prop where
  nodup : (resultKeys flight ++ held).Nodup
  mem : ∀ k, k ∈ resultKeys flight ++ held ↔
    ∃ entry ∈ txn.client.entries, entry.key = k ∧ arrived entry
  nonempty : ∀ msg ∈ flight, msg.entries ≠ []

section

variable {flight flight' : List ReadResult} {held held' : List Key}
  {arrived arrived' : KeyEntry → Prop}

theorem Share.perm (h : Share txn flight held arrived) (hf : flight'.Perm flight)
    (hh : held'.Perm held) (ha : ∀ entry ∈ txn.client.entries, arrived' entry ↔ arrived entry) :
    Share txn flight' held' arrived' := by
  have hp : (resultKeys flight' ++ held').Perm (resultKeys flight ++ held) :=
    (hf.flatMap_right _).append hh
  refine ⟨hp.nodup_iff.mpr h.nodup, fun k => ?_, fun msg hm => h.nonempty msg (hf.mem_iff.mp hm)⟩
  rw [hp.mem_iff, h.mem]
  constructor
  · rintro ⟨entry, he, hk, harr⟩
    exact ⟨entry, he, hk, (ha entry he).mpr harr⟩
  · rintro ⟨entry, he, hk, harr⟩
    exact ⟨entry, he, hk, (ha entry he).mp harr⟩

/-- A message that is handled: its keys are held. -/
theorem Share.handle {msg : ReadResult} (h : Share txn (msg :: flight) held arrived) :
    Share txn flight (msg.entries.map Prod.fst ++ held) arrived := by
  have hp : (resultKeys flight ++ (msg.entries.map Prod.fst ++ held)).Perm
      (resultKeys (msg :: flight) ++ held) := by
    rw [resultKeys, resultKeys, List.flatMap_cons, ← List.append_assoc]
    exact List.perm_append_comm.append_right held
  refine ⟨hp.nodup_iff.mpr h.nodup, fun k => ?_, fun m hm =>
    h.nonempty m (List.mem_cons_of_mem _ hm)⟩
  rw [hp.mem_iff]
  exact h.mem k

/-- Who holds as many keys as the transaction has, has them all: no message is
left, and every entry has arrived. -/
theorem Share.complete (h : Share txn flight held arrived) (hkeys : txn.client.keys.Nodup)
    (hlength : held.length = txn.client.keys.length) :
    flight = [] ∧ ∀ entry ∈ txn.client.entries, arrived entry := by
  have hsub : resultKeys flight ++ held ⊆ txn.client.keys := by
    intro k hk
    obtain ⟨entry, he, rfl, -⟩ := (h.mem k).mp hk
    exact List.mem_map_of_mem he
  have hsubperm := List.subperm_of_subset h.nodup hsub
  have hle := hsubperm.length_le
  rw [List.length_append] at hle
  have hnil : resultKeys flight = [] := List.length_eq_zero_iff.mp (by omega)
  constructor
  · refine List.eq_nil_iff_forall_not_mem.mpr fun msg hm => h.nonempty msg hm ?_
    have hmsg := List.flatMap_eq_nil_iff.mp hnil msg hm
    exact List.map_eq_nil_iff.mp hmsg
  · intro entry he
    have hperm := hsubperm.perm_of_length_le (by rw [List.length_append]; omega)
    obtain ⟨other, ho, hk, harr⟩ := (h.mem _).mp (hperm.mem_iff.mpr (List.mem_map_of_mem he))
    rwa [List.inj_on_of_nodup_map hkeys ho he hk] at harr

/-- A message on its way, with the entries that a participant is the home of. -/
theorem Share.send (h : Share txn flight held arrived) (store : Nat × Nat → Key → Record)
    (x : Nat × Nat) (hkeys : txn.client.keys.Nodup) {y : Nat × Nat}
    (hy : y ∈ participants cfg mode txn)
    (hnew : ∀ entry ∈ txn.client.entries,
      home cfg mode txn.originReplica entry = y → ¬ arrived entry) :
    Share txn (resultOf cfg mode txn store y x :: flight) held
      fun entry => arrived entry ∨ home cfg mode txn.originReplica entry = y := by
  have hresult : resultKeys (resultOf cfg mode txn store y x :: flight) ++ held =
      ownKeys cfg mode txn y ++ (resultKeys flight ++ held) := by
    rw [resultKeys, List.flatMap_cons, List.append_assoc, resultOf, List.map_map]
    congr 1
    exact List.map_id _
  have hown : (ownKeys cfg mode txn y).Nodup :=
    hkeys.sublist ((List.filter_sublist (l := txn.client.entries)).map KeyEntry.key)
  have hmem : ∀ k, k ∈ ownKeys cfg mode txn y ↔
      ∃ entry ∈ txn.client.entries, entry.key = k ∧ home cfg mode txn.originReplica entry = y := by
    intro k
    simp only [ownKeys, List.mem_map, List.mem_filter, decide_eq_true_eq]
    exact exists_congr fun entry => ⟨fun ⟨⟨he, hh⟩, hk⟩ => ⟨he, hk, hh⟩,
      fun ⟨he, hk, hh⟩ => ⟨⟨he, hh⟩, hk⟩⟩
  refine ⟨?_, fun k => ?_, fun msg hm => ?_⟩
  · rw [hresult]
    refine List.nodup_append.mpr ⟨hown, h.nodup, fun k hk k' hk' heq => ?_⟩
    subst heq
    obtain ⟨entry, he, rfl, hh⟩ := (hmem k).mp hk
    obtain ⟨other, ho, heq, harr⟩ := (h.mem _).mp hk'
    rw [List.inj_on_of_nodup_map hkeys ho he heq] at harr
    exact hnew entry he hh harr
  · rw [hresult, List.mem_append, hmem, h.mem]
    constructor
    · rintro (⟨entry, he, hk, hh⟩ | ⟨entry, he, hk, harr⟩)
      · exact ⟨entry, he, hk, .inr hh⟩
      · exact ⟨entry, he, hk, .inl harr⟩
    · rintro ⟨entry, he, hk, harr | hh⟩
      · exact .inr ⟨entry, he, hk, harr⟩
      · exact .inl ⟨entry, he, hk, hh⟩
  · rcases List.mem_cons.mp hm with rfl | hm
    · obtain ⟨entry, he, hh⟩ := mem_participants.mp hy
      intro hnil
      have hk : entry.key ∈ ownKeys cfg mode txn y := (hmem _).mpr ⟨entry, he, rfl, hh⟩
      rw [List.map_eq_nil_iff.mp hnil] at hk
      cases hk
    · exact h.nonempty msg hm

/-- The keys of a participant's own are held as soon as it starts. -/
theorem Share.own (h : Share txn flight held arrived) (hkeys : txn.client.keys.Nodup)
    {x : Nat × Nat} (hx : x ∈ participants cfg mode txn)
    (hnew : ∀ entry ∈ txn.client.entries,
      home cfg mode txn.originReplica entry = x → ¬ arrived entry) :
    Share txn flight (ownKeys cfg mode txn x ++ held)
      fun entry => arrived entry ∨ home cfg mode txn.originReplica entry = x := by
  -- as if it sent its records to itself
  have hsent := (h.send (fun _ _ => ⟨[], 0, 0⟩) x hkeys hx hnew).handle
  have hown : (resultOf cfg mode txn (fun _ _ => ⟨[], 0, 0⟩) x x).entries.map Prod.fst =
      ownKeys cfg mode txn x := by
    rw [resultOf, List.map_map]
    exact List.map_id _
  rwa [hown] at hsent

end

end

end Calvin.ReadExchange
