import Calvin.Theorems.CommitAgreement
import Calvin.Theorems.Epochs
import Calvin.Theorems.RequestChopping

/-!
# The epochs of the records in the logs

What the logs of the origins say about the records, whatever the merge: which
master a record has in each of its epochs, which entries are met by their records
and which transactions therefore commit.

* `OriginLogs`: logs as the replicas write them;
* `masterAt`, `Current`, `Commits`: what they say;
* `writers`, `valueAt`, `readAt`: the values, from what the transactions read;
* `OriginLogs.masters`, `OriginLogs.inEpoch_iff`: each node of each replica sees
  the same.
-/

namespace Calvin.Replica

open Function Lib DeterministicScheduler

/-- Logs in which a transaction has one copy for each origin, with distinct keys,
and remaster transactions are those of one record, in the log of its master. -/
structure OriginLogs (logs : Nat → List TxnProto) : Prop where
  origin : ∀ r, ∀ txn ∈ logs r, txn.originReplica = r
  client : ∀ r r', ∀ a ∈ logs r, ∀ b ∈ logs r', a.txnId = b.txnId → a.client = b.client
  ids : ∀ r, (((logs r).filter fun txn => txn.fakeTxn = false).map TxnProto.txnId).Nodup
  distinctKeys : ∀ r, ∀ txn ∈ logs r, txn.client.keys.Nodup
  new : ∀ r, ∀ txn ∈ logs r, txn.status ≠ .abortedWithoutLock
  remaster : ∀ r, ∀ txn ∈ logs r, txn.remasterTxn = true → txn.readSet = [] ∧
    ∃ entry, txn.readWriteSet = [entry] ∧ entry.master = r

/-- Logs of finitely many origins are checked one by one. -/
theorem OriginLogs.of_lt {logs : Nat → List TxnProto} {n : Nat} (hnil : ∀ r, n ≤ r → logs r = [])
    (hclient : ∀ r < n, ∀ r' < n, ∀ a ∈ logs r, ∀ b ∈ logs r', a.txnId = b.txnId →
      a.client = b.client)
    (hids : ∀ r < n, (((logs r).filter fun txn => txn.fakeTxn = false).map TxnProto.txnId).Nodup)
    (htxn : ∀ r < n, ∀ txn ∈ logs r, txn.originReplica = r ∧ txn.client.keys.Nodup ∧
      txn.status ≠ .abortedWithoutLock ∧ (txn.remasterTxn = true →
        txn.readSet = [] ∧ txn.readWriteSet.map KeyEntry.master = [r])) : OriginLogs logs := by
  have hlt : ∀ {r txn}, txn ∈ logs r → r < n := fun {r} {txn} h =>
    Nat.lt_of_not_le fun hge => List.not_mem_nil (hnil r hge ▸ h)
  constructor
  · exact fun r txn h => (htxn r (hlt h) txn h).1
  · exact fun r r' a ha b hb => hclient r (hlt ha) r' (hlt hb) a ha b hb
  · intro r
    by_cases hr : r < n
    · exact hids r hr
    · rw [hnil r (Nat.le_of_not_lt hr)]
      exact List.nodup_nil
  · exact fun r txn h => (htxn r (hlt h) txn h).2.1
  · exact fun r txn h => (htxn r (hlt h) txn h).2.2.1
  · intro r txn h hremaster
    obtain ⟨hread, hwrite⟩ := (htxn r (hlt h) txn h).2.2.2 hremaster
    exact ⟨hread, List.map_eq_singleton_iff.mp hwrite⟩

theorem isMerge_of_lt {logs : Nat → List TxnProto} {merge : List TxnProto} {n : Nat}
    (hnil : ∀ r, n ≤ r → logs r = []) (horigin : ∀ txn ∈ merge, txn.originReplica < n)
    (h : ∀ r < n, (merge.filter fun txn => txn.originReplica = r) = logs r) :
    IsMerge logs merge := by
  intro r
  by_cases hr : r < n
  · exact h r hr
  · have hge := Nat.le_of_not_lt hr
    rw [hnil r hge, List.filter_eq_nil_iff]
    intro txn htxn heq
    exact hr (of_decide_eq_true heq ▸ horigin txn htxn)

/-- The transactions of a log that are forwarded. -/
def forwarded (logs : Nat → List TxnProto) (r : Nat) : List TxnProto :=
  (logs r).filter fun txn => txn.fakeTxn = false

/-! ## What the logs say -/

section

variable (log : Nat → List TxnProto) (init : Key → Record)

/-- The place of a transaction in a log. -/
def place (r : Nat) (txnId : Nat) : Nat := ((log r).map TxnProto.txnId).idxOf txnId

/-- The master of a record in an epoch: the first remaster transaction of an epoch
in the log of its master makes the next one. -/
def masterAt (k : Key) : Nat → Option Nat
  | 0 => if (init k).counter = 0 then some (init k).master else none
  | c + 1 =>
      if (init k).counter = c + 1 then some (init k).master
      else
        (masterAt k c).bind fun r =>
          ((log r).find? fun txn => EndsEpoch k r c txn).map TxnProto.remasterTo

/-- The epoch of a record after all its remaster transactions. -/
def LastEpoch (k : Key) (c r : Nat) : Prop :=
  masterAt log init k c = some r ∧ masterAt log init k (c + 1) = none

/-- An entry names an epoch of its record that is not over before the transaction
in the log. -/
def Current (txnId : Nat) (entry : KeyEntry) : Prop :=
  masterAt log init entry.key entry.counter = some entry.master ∧
    ∀ txn ∈ log entry.master, EndsEpoch entry.key entry.master entry.counter txn →
      place log entry.master txnId ≤ place log entry.master txn.txnId

/-- All entries of a transaction are met by their records. -/
def Commits (txn : ClientTxn) : Prop := ∀ entry ∈ txn.entries, Current log init txn.txnId entry

instance (txnId : Nat) (entry : KeyEntry) : Decidable (Current log init txnId entry) :=
  inferInstanceAs (Decidable (_ ∧ ∀ txn ∈ log entry.master, _ → _))

instance (txn : ClientTxn) : Decidable (Commits log init txn) :=
  inferInstanceAs (Decidable (∀ entry ∈ txn.entries, _))

/-! ### The values

`view` stands for the records that the transactions read. -/

/-- The transactions that write a record in an epoch, in the order of their log. -/
def writers (k : Key) (c : Nat) : List TxnProto :=
  match masterAt log init k c with
  | none => []
  | some r =>
      (log r).filter fun txn =>
        txn.remasterTxn = false ∧ ⟨k, r, c⟩ ∈ txn.readWriteSet ∧ Commits log init txn.client

variable (compute : Compute) (view : Nat → Key → Record)

/-- What a transaction computes from the records it reads. -/
def written (txn : ClientTxn) (k : Key) : Value :=
  compute txn (fun k' => if k' ∈ txn.keys then some (view txn.txnId k') else none) k

/-- The value of a record after some writers. -/
def overwrite (k : Key) (value : Value) (txns : List TxnProto) : Value :=
  txns.foldl (fun _ txn => written compute view txn.client k) value

/-- The value of a record at the beginning of an epoch. -/
def valueAt (k : Key) : Nat → Value
  | 0 => (init k).value
  | c + 1 => overwrite compute view k (valueAt k c) (writers log init k c)

/-- The record that an entry of a transaction meets in its epoch. -/
def readAt (txnId : Nat) (entry : KeyEntry) : Record where
  value := overwrite compute view entry.key (valueAt log init compute view entry.key entry.counter)
    ((writers log init entry.key entry.counter).filter fun txn =>
      place log entry.master txn.txnId < place log entry.master txnId)
  master := entry.master
  counter := entry.counter

/-- The view is that of the logs: each copy reads the records of its origin as its
log leaves them. -/
def Replays : Prop :=
  ∀ r, ∀ txn ∈ log r, Commits log init txn.client → ∀ entry ∈ txn.client.entries,
    entry.master = r → view txn.txnId entry.key = readAt log init compute view txn.txnId entry

end

/-- Of the elements with a property the first one comes first. -/
theorem find?_first {α : Type} {f : α → Nat} {P : α → Bool} {l : List α} {a b : α}
    (hl : l.Pairwise fun a b => f a < f b) (h : l.find? P = some a) (hb : b ∈ l) (hp : P b = true) :
    f a ≤ f b := by
  induction l with
  | nil => exact absurd hb List.not_mem_nil
  | cons x l ih =>
      obtain ⟨hx, hl⟩ := List.pairwise_cons.mp hl
      rw [List.find?_cons] at h
      split at h
      case h_1 =>
          obtain rfl := Option.some.inj h
          rcases List.mem_cons.mp hb with rfl | hb
          · exact Nat.le_refl _
          · exact Nat.le_of_lt (hx b hb)
      case h_2 hnot =>
          rcases List.mem_cons.mp hb with rfl | hb
          · rw [hp] at hnot
            cases hnot
          · exact ih hl h hb

section

variable {cfg : ClusterConfig} {logs : Nat → List TxnProto} {merge : List TxnProto}
  {init : Key → Record} {m : Nat} {p q : Ptr}

theorem masterAt_early {log : Nat → List TxnProto} (k : Key) :
    ∀ c, c < (init k).counter → masterAt log init k c = none := by
  intro c
  induction c with
  | zero => exact fun hlt => if_neg (Nat.ne_of_gt hlt)
  | succ c ih =>
      intro hlt
      rw [masterAt, if_neg (Nat.ne_of_gt hlt), ih (Nat.lt_of_succ_lt hlt), Option.bind_none]

theorem masterAt_first {log : Nat → List TxnProto} (k : Key) :
    masterAt log init k (init k).counter = some (init k).master := by
  cases hc : (init k).counter with
  | zero => exact if_pos hc
  | succ c => exact if_pos hc

theorem masterAt_succ {log : Nat → List TxnProto} {k : Key} {c r : Nat}
    (h : masterAt log init k c = some r) :
    masterAt log init k (c + 1) =
      ((log r).find? fun txn => EndsEpoch k r c txn).map TxnProto.remasterTo := by
  have hne : (init k).counter ≠ c + 1 := by
    intro heq
    rw [masterAt_early k c (by omega)] at h
    cases h
  rw [masterAt, if_neg hne, h, Option.bind_some]

/-- A record has its epochs one after the other. -/
theorem masterAt_below {log : Nat → List TxnProto} {k : Key} {c c' r r' : Nat}
    (h : masterAt log init k c = some r) (h' : masterAt log init k c' = some r') (hlt : c < c') :
    masterAt log init k (c + 1) ≠ none := by
  induction c', Nat.succ_le_of_lt hlt using Nat.le_induction generalizing r' with
  | base =>
      rw [h']
      exact Option.some_ne_none r'
  | succ n hle ih =>
      cases hn : masterAt log init k n with
      | some r₁ => exact ih hn hle
      | none =>
          -- nothing follows an epoch that is not there
          have hne : (init k).counter ≠ n + 1 := by
            intro heq
            rw [masterAt_early k c (by omega)] at h
            cases h
          rw [masterAt, if_neg hne, hn, Option.bind_none] at h'
          cases h'

theorem LastEpoch.unique {log : Nat → List TxnProto} {k : Key} {c c' r r' : Nat}
    (h : LastEpoch log init k c r) (h' : LastEpoch log init k c' r') : c = c' ∧ r = r' := by
  rcases Nat.lt_trichotomy c c' with hlt | rfl | hgt
  · exact absurd h.2 (masterAt_below h.1 h'.1 hlt)
  · exact ⟨rfl, Option.some.inj (h.1.symm.trans h'.1)⟩
  · exact absurd h'.2 (masterAt_below h'.1 h.1 hgt)

/-! ## The logs in a merge -/

namespace OriginLogs

theorem mem_merge (hm : IsMerge logs merge) {txn : TxnProto} :
    txn ∈ merge ↔ txn ∈ logs txn.originReplica := by
  rw [← hm, List.mem_filter]
  exact ⟨fun h => ⟨h, decide_eq_true rfl⟩, And.left⟩

theorem mem_forwarded (hl : OriginLogs logs) (hm : IsMerge logs merge) {r : Nat} {txn : TxnProto} :
    txn ∈ forwarded logs r ↔ txn ∈ merge ∧ txn.fakeTxn = false ∧ txn.originReplica = r := by
  rw [forwarded, List.mem_filter, decide_eq_true_iff]
  constructor
  · rintro ⟨h, hfake⟩
    have horigin := hl.origin r txn h
    exact ⟨(mem_merge hm).mpr (horigin ▸ h), hfake, horigin⟩
  · rintro ⟨h, hfake, rfl⟩
    exact ⟨(mem_merge hm).mp h, hfake⟩

/-- Places grow along a log. -/
theorem pairwise_place (hl : OriginLogs logs) (r : Nat) :
    (forwarded logs r).Pairwise fun a b =>
      place (forwarded logs) r a.txnId < place (forwarded logs) r b.txnId := by
  have h := pairwise_idxOf (hl.ids r)
  rw [List.pairwise_map] at h
  exact h

/-- The merge keeps the order of each log. -/
theorem pairwise_merge (hl : OriginLogs logs) (hm : IsMerge logs merge) :
    (merge.filter fun txn => txn.fakeTxn = false).Pairwise fun a b =>
      a.originReplica = b.originReplica →
        place (forwarded logs) a.originReplica a.txnId <
          place (forwarded logs) a.originReplica b.txnId := by
  refine pairwise_of_filter fun r => ?_
  have hcomm : ((merge.filter fun txn => txn.fakeTxn = false).filter
      fun a => a.originReplica = r) = forwarded logs r := by
    rw [forwarded, ← hm r, List.filter_comm]
  rw [hcomm]
  refine (hl.pairwise_place r).imp_of_mem fun {a b} ha _ hlt => ?_
  rw [((hl.mem_forwarded hm).mp ha).2.2]
  exact hlt

theorem copies (hl : OriginLogs logs) (hm : IsMerge logs merge) : Copies merge where
  client a ha b hb := hl.client _ _ a ((mem_merge hm).mp ha) b ((mem_merge hm).mp hb)
  single := (hl.pairwise_merge hm).imp fun {a b} hlt hid horigin => by
    have h := hlt horigin
    rw [hid] at h
    exact Nat.lt_irrefl _ h
  distinctKeys txn h := hl.distinctKeys _ txn ((mem_merge hm).mp h)
  new txn h := hl.new _ txn ((mem_merge hm).mp h)

/-! ## The logs at a node -/

/-- What a node schedules is in the log of its origin. -/
theorem txnAt_forwarded (hl : OriginLogs logs) (hm : IsMerge logs merge)
    (hp : p < (stream cfg merge m).length) :
    ∃ c ∈ forwarded logs (txnAt cfg merge m p).originReplica,
      m ∈ LowlatencySequencer.readers cfg c ∧
      txnAt cfg merge m p = LowlatencySequencer.withReaders cfg c := by
  obtain ⟨c, hc, hfake, hread, heq⟩ := txnAt_mem hp
  refine ⟨c, (hl.mem_forwarded hm).mpr ⟨hc, hfake, ?_⟩, hread, heq⟩
  rw [heq]
  rfl

/-- A node schedules what has an entry for it. -/
theorem exists_ptr (cfg : ClusterConfig) (hl : OriginLogs logs) (hm : IsMerge logs merge) {r : Nat}
    {txn : TxnProto} (h : txn ∈ forwarded logs r) {entry : KeyEntry}
    (he : entry ∈ txn.client.entries) (hmaster : entry.master = r) :
    ∃ p < (stream cfg merge (cfg.lookupPartition entry.key)).length,
      txnAt cfg merge (cfg.lookupPartition entry.key) p =
        LowlatencySequencer.withReaders cfg txn := by
  obtain ⟨hmem, hfake, horigin⟩ := (hl.mem_forwarded hm).mp h
  have hread : cfg.lookupPartition entry.key ∈ LowlatencySequencer.readers cfg txn :=
    LowlatencySequencer.mem_partitions.mpr ⟨entry, he, hmaster.trans horigin.symm, rfl⟩
  have hstream : LowlatencySequencer.withReaders cfg txn ∈
      stream cfg merge (cfg.lookupPartition entry.key) :=
    List.mem_map_of_mem (List.mem_filter.mpr ⟨hmem, decide_eq_true ⟨hfake, hread⟩⟩)
  obtain ⟨p, hp, heq⟩ := List.getElem_of_mem hstream
  exact ⟨p, hp, by rw [txnAt, List.getElem?_eq_getElem hp, Option.getD_some, heq]⟩

/-- A node takes the transactions of a log in its order. -/
theorem place_lt (hl : OriginLogs logs) (hm : IsMerge logs merge)
    (hp : p < (stream cfg merge m).length) (hqp : q < p)
    (horigin : (txnAt cfg merge m q).originReplica = (txnAt cfg merge m p).originReplica) :
    place (forwarded logs) (txnAt cfg merge m p).originReplica (txnAt cfg merge m q).txnId <
      place (forwarded logs) (txnAt cfg merge m p).originReplica (txnAt cfg merge m p).txnId := by
  have h := txnAt_pairwise (R := fun a b => a.originReplica = b.originReplica →
    place (forwarded logs) a.originReplica a.txnId < place (forwarded logs) a.originReplica b.txnId)
    (hl.pairwise_merge hm) hp hqp horigin
  rwa [horigin] at h

theorem lt_iff_place (hl : OriginLogs logs) (hm : IsMerge logs merge)
    (hp : p < (stream cfg merge m).length) (hq : q < (stream cfg merge m).length)
    (horigin : (txnAt cfg merge m q).originReplica = (txnAt cfg merge m p).originReplica) :
    q < p ↔
      place (forwarded logs) (txnAt cfg merge m p).originReplica (txnAt cfg merge m q).txnId <
        place (forwarded logs) (txnAt cfg merge m p).originReplica (txnAt cfg merge m p).txnId := by
  refine ⟨fun h => hl.place_lt hm hp h horigin, fun h => ?_⟩
  rcases Nat.lt_trichotomy q p with hlt | rfl | hgt
  · exact hlt
  · exact absurd h (Nat.lt_irrefl _)
  · have h' := hl.place_lt hm hq hgt horigin.symm
    rw [horigin] at h'
    exact absurd h (Nat.lt_asymm h')

/-- Remaster transactions reach the node of their record. -/
theorem form (hl : OriginLogs logs) (hm : IsMerge logs merge) (m : Nat) (p : Ptr)
    (hr : (txnAt cfg merge m p).remasterTxn = true) :
    RemasterForm (nodeConfig cfg m) (txnAt cfg merge m p) := by
  have hp : p < (stream cfg merge m).length := by
    by_contra hge
    rw [txnAt_of_ge hge] at hr
    cases hr
  have hreaders := txnAt_readers hp
  obtain ⟨c, hc, hread, heq⟩ := hl.txnAt_forwarded hm hp
  rw [heq] at hr hreaders ⊢
  obtain ⟨hset, entry, hwrite, hmaster⟩ := hl.remaster _ c (List.mem_filter.mp hc).1 hr
  obtain ⟨e, he, -, hpart⟩ := LowlatencySequencer.mem_partitions.mp hread
  rw [hset, hwrite] at he
  obtain rfl := List.mem_singleton.mp he
  refine ⟨hset, ⟨e, hwrite, ?_, decide_eq_true hpart⟩, hreaders⟩
  rw [hmaster, heq]

/-- A remaster transaction in the log of the master is scheduled at the node of its
record. -/
theorem exists_end (cfg : ClusterConfig) (hl : OriginLogs logs) (hm : IsMerge logs merge) {k : Key}
    {r c : Nat} {txn : TxnProto} (h : txn ∈ forwarded logs r) (hends : EndsEpoch k r c txn) :
    ∃ p < (stream cfg merge (cfg.lookupPartition k)).length,
      txnAt cfg merge (cfg.lookupPartition k) p = LowlatencySequencer.withReaders cfg txn :=
  have he : (⟨k, r, c⟩ : KeyEntry) ∈ txn.client.entries :=
    List.mem_append_right _ (List.mem_of_head? hends.2)
  hl.exists_ptr cfg hm h he rfl

/-- The remaster transactions of a node are in the logs of the masters. -/
theorem end_forwarded (hl : OriginLogs logs) (hm : IsMerge logs merge) {k : Key} {r c : Nat}
    (hends : EndsEpoch k r c (txnAt cfg merge m p)) :
    p < (stream cfg merge m).length ∧ (txnAt cfg merge m p).originReplica = r ∧
      ∃ txn ∈ forwarded logs r, EndsEpoch k r c txn ∧
        txnAt cfg merge m p = LowlatencySequencer.withReaders cfg txn := by
  have hp : p < (stream cfg merge m).length := by
    by_contra hge
    rw [txnAt_of_ge hge] at hends
    cases hends.1
  obtain ⟨-, horigin, -⟩ := hends.own (hl.form hm m)
  obtain ⟨c', hc, -, heq⟩ := hl.txnAt_forwarded hm hp
  rw [← horigin] at hc
  refine ⟨hp, horigin.symm, c', hc, ?_, heq⟩
  rw [heq] at hends
  exact hends

/-- Each node sees the epochs of the logs. -/
theorem masters (hl : OriginLogs logs) (hm : IsMerge logs merge) (init : Key → Record) (m : Nat) :
    Masters (nodeConfig cfg m) (txnAt cfg merge m) init (masterAt (forwarded logs) init) where
  first := masterAt_first
  early := masterAt_early
  next k c r p hlocal hnow hends hfirst := by
    obtain ⟨hp, horigin, txn, htxn, hends', heq⟩ := hl.end_forwarded hm hends
    have hpart : cfg.lookupPartition k = m := of_decide_eq_true hlocal
    rw [masterAt_succ hnow]
    -- the first one of the log is the first one of the node
    have hsome : ((forwarded logs r).find? fun txn => EndsEpoch k r c txn).isSome :=
      List.find?_isSome.mpr ⟨txn, htxn, decide_eq_true hends'⟩
    obtain ⟨first, hfind⟩ := Option.isSome_iff_exists.mp hsome
    have hfound := List.find?_some hfind
    have hends₁ : EndsEpoch k r c first := of_decide_eq_true hfound
    have hmem := List.mem_of_find?_eq_some hfind
    obtain ⟨q, hq, heqq⟩ := hl.exists_end cfg hm hmem hends₁
    rw [hpart] at hq heqq
    have hle := find?_first (hl.pairwise_place r) hfind htxn (decide_eq_true hends')
    have hqo : (txnAt cfg merge m q).originReplica = r := by
      rw [heqq]
      exact ((hl.mem_forwarded hm).mp hmem).2.2
    have hqp : q = p := by
      rcases Nat.lt_trichotomy q p with hlt | hqp | hgt
      · refine absurd ?_ (hfirst q hlt)
        rw [heqq]
        exact hends₁
      · exact hqp
      · have hlt := hl.place_lt hm hq hgt (horigin.trans hqo.symm)
        rw [hqo, heq, heqq] at hlt
        exact absurd hlt (Nat.not_lt.mpr hle)
    rw [hfind, Option.map_some, ← hqp, heqq]
    rfl

/-- An entry of a node is in its epoch if the logs say so. -/
theorem inEpoch_iff (hl : OriginLogs logs) (hm : IsMerge logs merge)
    (hp : p < (stream cfg merge m).length) {entry : KeyEntry}
    (hown : StorageManager.Own (nodeConfig cfg m) (txnAt cfg merge m p).originReplica entry) :
    InEpoch (masterAt (forwarded logs) init) (txnAt cfg merge m) p entry ↔
      Current (forwarded logs) init (txnAt cfg merge m p).txnId entry := by
  obtain ⟨hmaster, hpart⟩ := hown
  have hpart' : cfg.lookupPartition entry.key = m := hpart
  refine and_congr_right fun _ => ⟨fun h txn htxn hends => ?_, fun h q hqp hends => ?_⟩
  · obtain ⟨q, hq, heq⟩ := hl.exists_end cfg hm htxn hends
    rw [hpart'] at hq heq
    have hqo : (txnAt cfg merge m q).originReplica = entry.master := by
      rw [heq]
      exact ((hl.mem_forwarded hm).mp htxn).2.2
    have hnot : ¬ q < p := fun hqp => h q hqp (by rw [heq]; exact hends)
    rw [hl.lt_iff_place hm hp hq (hqo.trans hmaster), ← hmaster, heq] at hnot
    exact Nat.le_of_not_lt hnot
  · obtain ⟨hq, horigin, txn, htxn, hends', heq⟩ := hl.end_forwarded hm hends
    have hlt := hl.place_lt hm hp hqp (horigin.trans hmaster)
    rw [← hmaster, heq] at hlt
    exact absurd hlt (Nat.not_lt.mpr (h txn htxn hends'))

end OriginLogs

end

end Calvin.Replica
