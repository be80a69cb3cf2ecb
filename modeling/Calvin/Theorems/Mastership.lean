import Calvin.Lib.Links
import Calvin.Scheduler.OneRecord
import Calvin.Scheduler.ReplicasSpec

/-!
# Mastership is a function of the counter

A remaster transaction for a key is sent by the replica that is the master of
it, which sends no other one before it has executed this one. So there is one
remaster transaction for each counter of a key, and it decides who is the master
from the next counter on, in every replica.

* `Remaster`, `Says`: what a remaster transaction says, whatever has been added
  to it on its way;
* `Inv`: the invariant over runs of all replicas;
* `mastership`: the result, where no replica is out of the range of the pattern;
* `mastership_remastered`: a record after enough accesses from another replica;
* `remastered_twice`: without the range a second remaster transaction is sent.
-/

namespace Calvin.Replicas

open Function Lib Microbenchmark SequencerWriter
open DeterministicScheduler (NodeOk)
open Replica (Executed)

variable {cfg : ClusterConfig} {compute : Compute} {s s' : Replicas} {n n' : Nat}

/-! ## Remaster transactions -/

structure Remaster where
  key : Key
  counter : Nat
  remasterFrom : Nat
  remasterTo : Nat

structure Says (txn : TxnProto) (m : Remaster) : Prop where
  remasterTxn : txn.remasterTxn = true
  readSet : txn.readSet = []
  readWriteSet : txn.readWriteSet =
    [{ key := m.key, master := m.remasterFrom, counter := m.counter }]
  remasterFrom : txn.remasterFrom = m.remasterFrom
  remasterTo : txn.remasterTo = m.remasterTo
  status : txn.status = .new

theorem Says.unique {txn : TxnProto} {m m' : Remaster} (h : Says txn m) (h' : Says txn m') :
    m = m' := by
  have hentry := h.readWriteSet.symm.trans h'.readWriteSet
  have hto := h.remasterTo.symm.trans h'.remasterTo
  simp only [List.cons.injEq, KeyEntry.mk.injEq, and_true] at hentry
  obtain ⟨hkey, hfrom, hcounter⟩ := hentry
  cases m
  cases m'
  simp only [Remaster.mk.injEq]
  exact ⟨hkey, hcounter, hfrom, hto⟩

theorem Says.remasters_iff {txn : TxnProto} {m : Remaster} (h : Says txn m) {k : Key} {c : Nat} :
    remasters k c txn = true ↔ m.key = k ∧ m.counter = c := by
  simp [remasters, h.remasterTxn, h.readWriteSet]

theorem says_newRemaster {localReplica clientReplica guid : Nat} {k : Key} {val : Record}
    (hmaster : val.master = localReplica) :
    Says (newRemaster localReplica clientReplica guid k val)
      ⟨k, val.counter, localReplica, clientReplica⟩ where
  remasterTxn := rfl
  readSet := rfl
  readWriteSet := by rw [← hmaster]; rfl
  remasterFrom := rfl
  remasterTo := rfl
  status := rfl

/-- The sequencer sets the origin of a transaction. -/
theorem Says.receiveForword {txn : TxnProto} {m : Remaster} (h : Says txn m)
    (cfg : ClusterConfig) : Says (receiveForword cfg txn) m :=
  ⟨h.remasterTxn, h.readSet, h.readWriteSet, h.remasterFrom, h.remasterTo, h.status⟩

theorem says_withReaders {txn : TxnProto} {m : Remaster} {cfg : ClusterConfig} :
    Says (LowlatencySequencer.withReaders cfg txn) m ↔ Says txn m :=
  ⟨fun h => ⟨h.remasterTxn, h.readSet, h.readWriteSet, h.remasterFrom, h.remasterTo, h.status⟩,
    fun h => ⟨h.remasterTxn, h.readSet, h.readWriteSet, h.remasterFrom, h.remasterTo, h.status⟩⟩

/-! ## The transactions of a node -/

theorem txnAt_mem {p : Ptr} (hp : p < (stream cfg s n).length) :
    ∃ txn ∈ s.merges (replicaOf cfg n), txnAt cfg s n p =
      LowlatencySequencer.withReaders (nodeConfig cfg n) txn ∧
      (nodeConfig cfg n).relativeNodeId ∈ LowlatencySequencer.readers (nodeConfig cfg n) txn := by
  have hmem : txnAt cfg s n p ∈ stream cfg s n := by
    rw [txnAt, List.getElem?_eq_getElem hp, Option.getD_some]
    exact List.getElem_mem hp
  obtain ⟨txn, htxn, heq⟩ := List.mem_map.mp hmem
  obtain ⟨htxn, hsub⟩ := List.mem_filter.mp htxn
  exact ⟨txn, htxn, heq.symm, (of_decide_eq_true hsub).2⟩

theorem txnAt_readers {p : Ptr} (hp : p < (stream cfg s n).length) :
    (nodeConfig cfg n).relativeNodeId ∈ (txnAt cfg s n p).readers := by
  obtain ⟨txn, -, heq, hreader⟩ := txnAt_mem hp
  rw [heq]
  exact List.mem_append_right _ hreader

/-- The merge of a replica grows by one transaction. -/
theorem stream_addToMerge (cfg : ClusterConfig) (s : Replicas) (r o : Nat) (txn : TxnProto)
    (n : Nat) :
    stream cfg (addToMerge s r o txn) n =
      stream cfg s n ++ if replicaOf cfg n = r then
        LowlatencySequencer.subbatch (nodeConfig cfg n) [txn] (nodeConfig cfg n).relativeNodeId
      else [] := by
  unfold stream addToMerge
  by_cases hr : replicaOf cfg n = r
  · subst hr
    simp only [update_self, if_true, LowlatencySequencer.subbatch, List.filter_append,
      List.map_append]
  · simp only [update_of_ne hr, if_neg hr, List.append_nil]

/-- What a node had got before stays, and what it gets is the transaction. -/
theorem txnAt_addToMerge {r o : Nat} {txn : TxnProto} {p : Ptr}
    (hp : p < (stream cfg (addToMerge s r o txn) n).length) :
    (p < (stream cfg s n).length ∧ txnAt cfg (addToMerge s r o txn) n p = txnAt cfg s n p) ∨
    (replicaOf cfg n = r ∧ txnAt cfg (addToMerge s r o txn) n p =
      LowlatencySequencer.withReaders (nodeConfig cfg n) txn) := by
  have hstream := stream_addToMerge cfg s r o txn n
  by_cases hlt : p < (stream cfg s n).length
  · refine .inl ⟨hlt, ?_⟩
    rw [txnAt, txnAt, hstream, List.getElem?_append_left hlt]
  · have hmem : txnAt cfg (addToMerge s r o txn) n p ∈ if replicaOf cfg n = r then
        LowlatencySequencer.subbatch (nodeConfig cfg n) [txn] (nodeConfig cfg n).relativeNodeId
      else [] := by
      obtain ⟨t, ht⟩ : ∃ t, (stream cfg (addToMerge s r o txn) n)[p]? = some t :=
        ⟨_, List.getElem?_eq_getElem hp⟩
      rw [txnAt, ht, Option.getD_some]
      rw [hstream, List.getElem?_append_right (Nat.le_of_not_lt hlt)] at ht
      exact List.mem_of_getElem? ht
    split at hmem
    case isFalse => exact absurd hmem List.not_mem_nil
    case isTrue hr =>
        obtain ⟨t, ht, heq⟩ := List.mem_map.mp hmem
        rw [List.mem_singleton.mp (List.mem_filter.mp ht).1] at heq
        exact .inr ⟨hr, heq.symm⟩

/-- The node of a key in a replica. -/
theorem node_unique {k : Key} (hr : replicaOf cfg n = replicaOf cfg n')
    (hk : (nodeConfig cfg n).isLocal k = true) (hk' : (nodeConfig cfg n').isLocal k = true) :
    n = n' := by
  have h : cfg.lookupPartition k = n % cfg.nodesPerReplica := of_decide_eq_true hk
  have h' : cfg.lookupPartition k = n' % cfg.nodesPerReplica := of_decide_eq_true hk'
  rw [← Nat.div_add_mod n cfg.nodesPerReplica, ← Nat.div_add_mod n' cfg.nodesPerReplica, ← h, ← h']
  unfold replicaOf at hr
  rw [hr]

/-! ## The invariant -/

/-- A remaster transaction that has been sent to a sequencer. -/
def Created (s : Replicas) (m : Remaster) : Prop := ∃ txn ∈ s.created, Says txn m

/-- The master of a key from a counter on, as the remaster transactions say. -/
def Mastered (cfg : ClusterConfig) (s : Replicas) (k : Key) (c master : Nat) : Prop :=
  (c = 0 ∧ master = cfg.lookupMaster k) ∨
    ∃ m, Created s m ∧ m.key = k ∧ c = m.counter + 1 ∧ master = m.remasterTo

/-- A remaster transaction that a node has still to execute. -/
def Waits (cfg : ClusterConfig) (s : Replicas) (n : Nat) (m : Remaster) : Prop :=
  (∃ txn ∈ s.forwords.map TxnForword.data, Says txn m) ∨
  (∃ txn ∈ (s.logs (replicaOf cfg n)).drop (s.merged (replicaOf cfg n) (replicaOf cfg n)),
    Says txn m) ∨
  ∃ p < (stream cfg s n).length, Says (txnAt cfg s n p) m ∧ ¬ Executed (s.nodes n) p

/-- How often a remaster transaction of a replica is on its way to the replica
or in its merge. -/
def occurrences (s : Replicas) (r : Nat) (k : Key) (c : Nat) : Nat :=
  (s.forwords.map TxnForword.data).countP (remasters k c) +
    ((s.logs r).drop (s.merged r r)).countP (remasters k c) +
    (s.merges r).countP fun txn => remasters k c txn && txn.remasterFrom = r

structure Inv (cfg : ClusterConfig) (s : Replicas) : Prop where
  node : ∀ n, NodeOk (nodeConfig cfg n) (txnAt cfg s n) (stream cfg s n).length (s.nodes n)
  merged : ∀ r o, s.merged r o ≤ (s.logs o).length
  merges : ∀ r, ∀ txn ∈ s.merges r, ∃ o, txn ∈ s.logs o
  created : ∀ txn ∈ s.created, ∃ m, Says txn m
  forwords : ∀ msg ∈ s.forwords, msg.data.remasterTxn = true → ∃ m, Says msg.data m ∧
    Created s m ∧ m.remasterFrom = replicaOf cfg msg.destinationNode
  logs : ∀ o, ∀ txn ∈ s.logs o, txn.remasterTxn = true → ∃ m, Says txn m ∧ Created s m ∧
    m.remasterFrom = o ∧ txn.originReplica = o
  unique : ∀ k c, s.created.countP (remasters k c) ≤ 1
  once : ∀ r k c, occurrences s r k c ≤ 1
  /-- The records of the node of a key in its replica. -/
  waits : ∀ n m, m.remasterFrom = replicaOf cfg n → (nodeConfig cfg n).isLocal m.key = true →
    Waits cfg s n m → ((s.nodes n).store m.key).master = m.remasterFrom ∧
      ((s.nodes n).store m.key).counter = m.counter ∧ (s.access n m.key).remastering = true
  behind : ∀ n m, Created s m → m.remasterFrom = replicaOf cfg n →
    (nodeConfig cfg n).isLocal m.key = true →
    m.counter < ((s.nodes n).store m.key).counter ∨
      (m.counter = ((s.nodes n).store m.key).counter ∧ (s.access n m.key).remastering = true)
  master : ∀ n k, (nodeConfig cfg n).isLocal k = true →
    Mastered cfg s k ((s.nodes n).store k).counter ((s.nodes n).store k).master
  source : ∀ m, Created s m → Mastered cfg s m.key m.counter m.remasterFrom

theorem inv_init (value : Nat → Key → Value) (unset : Nat → Key → Unset) :
    Inv cfg (machine cfg compute value unset).init where
  node _ := DeterministicScheduler.nodeOk_init _
  merged _ _ := Nat.le_refl 0
  merges _ txn h := absurd h List.not_mem_nil
  created txn h := absurd h List.not_mem_nil
  forwords msg h := absurd h List.not_mem_nil
  logs _ txn h := absurd h List.not_mem_nil
  unique _ _ := Nat.zero_le _
  once _ _ _ := Nat.zero_le _
  waits n m _ _ h := by
    rcases h with ⟨txn, h, -⟩ | ⟨txn, h, -⟩ | ⟨p, h, -⟩
    · exact absurd h List.not_mem_nil
    · simp [machine] at h
    · exact absurd h (Nat.not_lt_zero p)
  behind _ m h := by
    obtain ⟨txn, h, -⟩ := h
    exact absurd h List.not_mem_nil
  master _ _ _ := .inl ⟨rfl, rfl⟩
  source m h := by
    obtain ⟨txn, h, -⟩ := h
    exact absurd h List.not_mem_nil

section

variable {α : Type} {f : α → Bool} {l : List α}

/-- What is counted at most once is one element, -/
theorem eq_of_countP_le_one (h : l.countP f ≤ 1) {a b : α} (ha : a ∈ l) (hb : b ∈ l)
    (hfa : f a = true) (hfb : f b = true) : a = b := by
  rw [List.countP_eq_length_filter] at h
  have hma : a ∈ l.filter f := List.mem_filter.mpr ⟨ha, hfa⟩
  have hmb : b ∈ l.filter f := List.mem_filter.mpr ⟨hb, hfb⟩
  cases hl : l.filter f with
  | nil =>
      rw [hl] at hma
      exact absurd hma List.not_mem_nil
  | cons x rest =>
      rw [hl, List.length_cons] at h
      have hrest : rest = [] := List.length_eq_zero_iff.mp (by omega)
      rw [hl, hrest] at hma hmb
      rw [List.mem_singleton.mp hma, List.mem_singleton.mp hmb]

/-- at one place. -/
theorem index_of_countP_le_one (h : l.countP f ≤ 1) {i j : Nat} {a b : α} (hi : l[i]? = some a)
    (hj : l[j]? = some b) (ha : f a = true) (hb : f b = true) : i = j := by
  induction l generalizing i j with
  | nil => cases hi
  | cons x rest ih =>
      have hpos : ∀ {k : Nat} {c : α}, rest[k]? = some c → f c = true → 0 < rest.countP f :=
        fun hk hc => List.countP_pos_iff.mpr ⟨_, List.mem_of_getElem? hk, hc⟩
      rw [List.countP_cons] at h
      cases i with
      | zero =>
          cases j with
          | zero => rfl
          | succ j =>
              obtain rfl := Option.some.inj hi
              have := hpos hj hb
              rw [if_pos ha] at h
              omega
      | succ i =>
          cases j with
          | zero =>
              obtain rfl := Option.some.inj hj
              have := hpos hi ha
              rw [if_pos hb] at h
              omega
          | succ j => exact congrArg _ (ih (by omega) hi hj)

end

/-! ## What the invariant says -/

theorem Created.mono {m : Remaster} (h : Created s m) (hsub : ∀ txn ∈ s.created, txn ∈ s'.created) :
    Created s' m := by
  obtain ⟨txn, htxn, hsay⟩ := h
  exact ⟨txn, hsub txn htxn, hsay⟩

theorem Mastered.mono {k : Key} {c master : Nat} (h : Mastered cfg s k c master)
    (hsub : ∀ txn ∈ s.created, txn ∈ s'.created) : Mastered cfg s' k c master := by
  rcases h with h | ⟨m, hm, h⟩
  · exact .inl h
  · exact .inr ⟨m, hm.mono hsub, h⟩

namespace Inv

theorem created_unique (hi : Inv cfg s) {m m' : Remaster} (h : Created s m) (h' : Created s m')
    (hkey : m.key = m'.key) (hcounter : m.counter = m'.counter) : m = m' := by
  obtain ⟨txn, htxn, hsay⟩ := h
  obtain ⟨txn', htxn', hsay'⟩ := h'
  have heq := eq_of_countP_le_one (hi.unique m'.key m'.counter) htxn htxn'
    (hsay.remasters_iff.mpr ⟨hkey, hcounter⟩) (hsay'.remasters_iff.mpr ⟨rfl, rfl⟩)
  exact (heq ▸ hsay).unique hsay'

/-- The counter decides who is the master. -/
theorem mastered_unique (hi : Inv cfg s) {k : Key} {c x y : Nat} (h : Mastered cfg s k c x)
    (h' : Mastered cfg s k c y) : x = y := by
  rcases h with ⟨rfl, rfl⟩ | ⟨m, hm, hkey, hc, rfl⟩
  · rcases h' with ⟨-, rfl⟩ | ⟨m', -, -, hc, -⟩
    · rfl
    · cases hc
  · rcases h' with ⟨rfl, -⟩ | ⟨m', hm', hkey', hc', rfl⟩
    · cases hc
    · rw [hi.created_unique hm hm' (hkey.trans hkey'.symm) (by omega)]

/-- What a node has got of the remaster transactions was sent by the replica
whose log they come from. -/
theorem of_stream (hi : Inv cfg s) {p : Ptr} (hp : p < (stream cfg s n).length)
    (hr : (txnAt cfg s n p).remasterTxn = true) :
    ∃ m, Says (txnAt cfg s n p) m ∧ Created s m ∧ (txnAt cfg s n p).originReplica = m.remasterFrom ∧
      (nodeConfig cfg n).isLocal m.key = true := by
  obtain ⟨txn, htxn, heq, hreader⟩ := txnAt_mem hp
  obtain ⟨o, ho⟩ := hi.merges _ txn htxn
  rw [heq] at hr ⊢
  obtain ⟨m, hsay, hcreated, hfrom, horigin⟩ := hi.logs o txn ho hr
  refine ⟨m, says_withReaders.mpr hsay, hcreated, horigin.trans hfrom.symm, ?_⟩
  obtain ⟨entry, he, -, hpart⟩ := LowlatencySequencer.mem_partitions.mp hreader
  rw [hsay.readSet, hsay.readWriteSet, List.nil_append, List.mem_singleton] at he
  rw [he] at hpart
  exact decide_eq_true hpart

/-- A remaster transaction that a node has executed does not wait any more. -/
theorem not_waits (hi : Inv cfg s) {p : Ptr} {m : Remaster} (hp : p < (stream cfg s n).length)
    (hsay : Says (txnAt cfg s n p) m) (hfrom : m.remasterFrom = replicaOf cfg n)
    (hwaits : (∃ txn ∈ s.forwords.map TxnForword.data, Says txn m) ∨
      (∃ txn ∈ (s.logs (replicaOf cfg n)).drop (s.merged (replicaOf cfg n) (replicaOf cfg n)),
        Says txn m) ∨
      ∃ q < (stream cfg s n).length, Says (txnAt cfg s n q) m ∧ q ≠ p) : False := by
  have honce := hi.once (replicaOf cfg n) m.key m.counter
  unfold occurrences at honce
  have hmatch : ∀ txn, Says txn m → remasters m.key m.counter txn = true := fun txn h =>
    h.remasters_iff.mpr ⟨rfl, rfl⟩
  have hmerge : ∀ txn, Says txn m →
      (remasters m.key m.counter txn && decide (txn.remasterFrom = replicaOf cfg n)) = true :=
    fun txn h => by rw [hmatch txn h, h.remasterFrom, hfrom, Bool.true_and, decide_eq_true rfl]
  obtain ⟨txn, htxn, heq, -⟩ := txnAt_mem hp
  have hpos : 0 < (s.merges (replicaOf cfg n)).countP fun txn =>
      remasters m.key m.counter txn && txn.remasterFrom = replicaOf cfg n :=
    List.countP_pos_iff.mpr ⟨txn, htxn, hmerge _ (says_withReaders.mp (heq ▸ hsay))⟩
  rcases hwaits with ⟨t, ht, hst⟩ | ⟨t, ht, hst⟩ | ⟨q, hq, hsq, hne⟩
  · have := List.countP_pos_iff.mpr ⟨t, ht, hmatch t hst⟩
    omega
  · have := List.countP_pos_iff.mpr ⟨t, ht, hmatch t hst⟩
    omega
  · -- two places of the merge
    refine hne (index_of_countP_le_one (l := stream cfg s n)
      (f := fun txn => remasters m.key m.counter txn && txn.remasterFrom = replicaOf cfg n) ?_
      (List.getElem?_eq_getElem hq) (List.getElem?_eq_getElem hp) ?_ ?_)
    · have hsub : (stream cfg s n).countP (fun txn => remasters m.key m.counter txn &&
          txn.remasterFrom = replicaOf cfg n) ≤ (s.merges (replicaOf cfg n)).countP fun txn =>
            remasters m.key m.counter txn && txn.remasterFrom = replicaOf cfg n := by
        unfold stream LowlatencySequencer.subbatch
        rw [List.countP_map]
        exact List.filter_sublist.countP_le
      omega
    · have := hmerge _ hsq
      rwa [txnAt, List.getElem?_eq_getElem hq, Option.getD_some] at this
    · have := hmerge _ hsay
      rwa [txnAt, List.getElem?_eq_getElem hp, Option.getD_some] at this

theorem created_of_waits (hi : Inv cfg s) {m : Remaster} (h : Waits cfg s n m) : Created s m := by
  rcases h with ⟨txn, htxn, hsay⟩ | ⟨txn, htxn, hsay⟩ | ⟨p, hp, hsay, -⟩
  · obtain ⟨msg, hmsg, rfl⟩ := List.mem_map.mp htxn
    obtain ⟨m', hsay', hcreated, -⟩ := hi.forwords msg hmsg hsay.remasterTxn
    exact hsay'.unique hsay ▸ hcreated
  · obtain ⟨m', hsay', hcreated, -⟩ :=
      hi.logs _ txn (List.mem_of_mem_drop htxn) hsay.remasterTxn
    exact hsay'.unique hsay ▸ hcreated
  · obtain ⟨m', hsay', hcreated, -⟩ := hi.of_stream hp hsay.remasterTxn
    exact hsay'.unique hsay ▸ hcreated

/-! ## The logs -/

/-- A log takes a transaction; a remaster transaction was on its way to it. -/
theorem addToLog (forwords : List TxnForword) (hi : Inv cfg s) {o : Nat} {txn : TxnProto}
    (hforwords : ∀ msg ∈ forwords, msg ∈ s.forwords)
    (hsay : txn.remasterTxn = true → ∃ m, Says txn m ∧ Created s m ∧ m.remasterFrom = o ∧
      txn.originReplica = o ∧ ∃ t ∈ s.forwords.map TxnForword.data, Says t m)
    (honce : ∀ k c, (forwords.map TxnForword.data).countP (remasters k c) +
      [txn].countP (remasters k c) ≤ (s.forwords.map TxnForword.data).countP (remasters k c)) :
    Inv cfg (addToLog { s with forwords } o txn) := by
  have hdrop : ∀ r, (update s.logs o (s.logs o ++ [txn]) r).drop (s.merged r r) =
      (s.logs r).drop (s.merged r r) ++ if r = o then [txn] else [] := by
    intro r
    by_cases hr : r = o
    · subst hr
      rw [update_self, List.drop_append_of_le_length (hi.merged r r), if_pos rfl]
    · rw [update_of_ne hr, if_neg hr, List.append_nil]
  have hmem : ∀ r, ∀ t ∈ s.logs r, t ∈ update s.logs o (s.logs o ++ [txn]) r := by
    intro r t ht
    by_cases hr : r = o
    · subst hr
      rw [update_self]
      exact List.mem_append_left _ ht
    · rwa [update_of_ne hr]
  have hwaits : ∀ n m, Waits cfg (Replicas.addToLog { s with forwords } o txn) n m →
      Waits cfg s n m := by
    intro n m h
    rcases h with ⟨t, ht, hst⟩ | ⟨t, ht, hst⟩ | h
    · obtain ⟨msg, hmsg, rfl⟩ := List.mem_map.mp ht
      exact .inl ⟨_, List.mem_map_of_mem (hforwords msg hmsg), hst⟩
    · change t ∈ (update s.logs o (s.logs o ++ [txn]) (replicaOf cfg n)).drop
        (s.merged (replicaOf cfg n) (replicaOf cfg n)) at ht
      rw [hdrop] at ht
      rcases List.mem_append.mp ht with ht | ht
      · exact .inr (.inl ⟨t, ht, hst⟩)
      · split at ht
        case isFalse => exact absurd ht List.not_mem_nil
        case isTrue =>
            rw [List.mem_singleton.mp ht] at hst
            obtain ⟨m', hsay', -, -, -, t', ht', hst'⟩ := hsay hst.remasterTxn
            exact .inl ⟨t', ht', hsay'.unique hst ▸ hst'⟩
    · exact .inr (.inr h)
  refine
    { hi with
      merged := fun r o' => ?_
      merges := fun r t ht => ?_
      forwords := fun msg hmsg => hi.forwords msg (hforwords msg hmsg)
      logs := fun o' t ht hr => ?_
      once := fun r k c => ?_
      waits := fun n m hfrom hlocal h => hi.waits n m hfrom hlocal (hwaits n m h) }
  · refine Nat.le_trans (hi.merged r o') ?_
    by_cases ho : o' = o
    · subst ho
      simp [Replicas.addToLog]
    · simp [Replicas.addToLog, update_of_ne ho]
  · obtain ⟨o', ho'⟩ := hi.merges r t ht
    exact ⟨o', hmem o' t ho'⟩
  · change t ∈ update s.logs o (s.logs o ++ [txn]) o' at ht
    by_cases ho : o' = o
    · subst ho
      rw [update_self] at ht
      rcases List.mem_append.mp ht with ht | ht
      · exact hi.logs o' t ht hr
      · obtain rfl := List.mem_singleton.mp ht
        obtain ⟨m, hm, hcreated, hfrom, horigin, -⟩ := hsay hr
        exact ⟨m, hm, hcreated, hfrom, horigin⟩
    · rw [update_of_ne ho] at ht
      exact hi.logs o' t ht hr
  · have hold := hi.once r k c
    have hle := honce k c
    unfold occurrences at hold ⊢
    show (forwords.map TxnForword.data).countP (remasters k c) +
      ((update s.logs o (s.logs o ++ [txn]) r).drop (s.merged r r)).countP (remasters k c) +
      ((s.merges r).countP fun txn => remasters k c txn && txn.remasterFrom = r) ≤ 1
    rw [hdrop, List.countP_append]
    split
    · omega
    · rw [List.countP_nil]
      omega

theorem client (hi : Inv cfg s) {o : Nat} {txn : TxnProto} (hr : txn.remasterTxn = false) :
    Inv cfg (Replicas.addToLog s o txn) := by
  refine hi.addToLog s.forwords (fun msg h => h) (fun h => ?_) fun k c => ?_
  · rw [hr] at h
    cases h
  · have hnone : remasters k c txn = false := by rw [remasters, hr, Bool.false_and]
    rw [List.countP_singleton, hnone]
    exact Nat.le_refl _

theorem gotForword {i : Nat} (hi : Inv cfg s) (h : gotForword cfg s i = some s') :
    Inv cfg s' := by
  obtain ⟨msg, hmsg, rfl⟩ := Option.map_eq_some_iff.mp h
  have hmem : msg ∈ s.forwords := List.mem_of_getElem? hmsg
  refine hi.addToLog _ (fun m hm => List.mem_of_mem_eraseIdx hm) (fun hr => ?_) fun k c => ?_
  · obtain ⟨m, hsay, hcreated, hfrom⟩ := hi.forwords msg hmem hr
    exact ⟨m, hsay.receiveForword _, hcreated, hfrom, rfl, _, List.mem_map_of_mem hmem, hsay⟩
  · have hperm := (cons_eraseIdx_perm hmsg).map TxnForword.data
    have hcount := hperm.countP_eq (remasters k c)
    rw [List.map_cons, List.countP_cons] at hcount
    have hsame : remasters k c (receiveForword (nodeConfig cfg msg.destinationNode) msg.data) =
        remasters k c msg.data := rfl
    rw [List.countP_singleton, hsame]
    omega

/-- What is left of the log of a replica in its own merge. -/
theorem drop_addToMerge {r o : Nat} {txn : TxnProto} (htxn : (s.logs o)[s.merged r o]? = some txn)
    (r' : Nat) : (s.logs r').drop (s.merged r' r') =
      (if r' = r ∧ r' = o then [txn] else []) ++
        (s.logs r').drop ((Replicas.addToMerge s r o txn).merged r' r') := by
  obtain ⟨hlt, hget⟩ := List.getElem?_eq_some_iff.mp htxn
  unfold Replicas.addToMerge
  by_cases hr : r' = r
  · subst hr
    by_cases ho : r' = o
    · subst ho
      simp only [and_self, if_true, update_self]
      rw [List.drop_eq_getElem_cons hlt, hget]
      rfl
    · simp only [ho, and_false, if_false, update_self, update_of_ne, ne_eq, not_false_eq_true,
        List.nil_append]
  · simp only [hr, false_and, if_false, update_of_ne, ne_eq, not_false_eq_true, List.nil_append]

/-- A replica merges the next transaction of a log. -/
theorem merge {r o : Nat} (hi : Inv cfg s) (h : merge s r o = some s') : Inv cfg s' := by
  obtain ⟨txn, htxn, rfl⟩ := Option.map_eq_some_iff.mp h
  have hlog : txn ∈ s.logs o := List.mem_of_getElem? htxn
  have hwaits : ∀ n m, m.remasterFrom = replicaOf cfg n →
      Waits cfg (addToMerge s r o txn) n m → Waits cfg s n m := by
    intro n m hfrom h
    rcases h with h | ⟨t, ht, hst⟩ | ⟨p, hp, hsay, hexecuted⟩
    · exact .inl h
    · refine .inr (.inl ⟨t, ?_, hst⟩)
      rw [drop_addToMerge htxn]
      exact List.mem_append_right _ ht
    · rcases txnAt_addToMerge hp with ⟨hlt, heq⟩ | ⟨hr, heq⟩
      · exact .inr (.inr ⟨p, hlt, heq ▸ hsay, hexecuted⟩)
      · -- it is from the log of its own replica
        rw [heq] at hsay
        have hsay := says_withReaders.mp hsay
        obtain ⟨m', hsay', -, hfrom', -⟩ := hi.logs o txn hlog hsay.remasterTxn
        rw [hsay'.unique hsay, hfrom] at hfrom'
        refine .inr (.inl ⟨txn, ?_, hsay⟩)
        rw [drop_addToMerge htxn, if_pos ⟨hr, hfrom'⟩]
        exact List.mem_append_left _ List.mem_cons_self
  refine
    { hi with
      node := fun n => ?_
      merged := fun r' o' => ?_
      merges := fun r' t ht => ?_
      once := fun r' k c => ?_
      waits := fun n m hfrom hlocal h => hi.waits n m hfrom hlocal (hwaits n m hfrom h) }
  · have hlen : (stream cfg s n).length ≤ (stream cfg (addToMerge s r o txn) n).length := by
      rw [stream_addToMerge, List.length_append]
      exact Nat.le_add_right _ _
    refine (hi.node n).extend hlen fun p hp => ?_
    rw [txnAt, txnAt, stream_addToMerge, List.getElem?_append_left hp]
  · show update s.merged r (update (s.merged r) o (s.merged r o + 1)) r' o' ≤ (s.logs o').length
    by_cases hr : r' = r
    · subst hr
      rw [update_self]
      by_cases ho : o' = o
      · subst ho
        rw [update_self]
        exact (List.getElem?_eq_some_iff.mp htxn).1
      · rw [update_of_ne ho]
        exact hi.merged r' o'
    · rw [update_of_ne hr]
      exact hi.merged r' o'
  · change t ∈ update s.merges r (s.merges r ++ [txn]) r' at ht
    by_cases hr : r' = r
    · subst hr
      rw [update_self] at ht
      rcases List.mem_append.mp ht with ht | ht
      · exact hi.merges r' t ht
      · exact ⟨o, List.mem_singleton.mp ht ▸ hlog⟩
    · rw [update_of_ne hr] at ht
      exact hi.merges r' t ht
  · have hold := hi.once r' k c
    unfold occurrences at hold ⊢
    rw [drop_addToMerge htxn, List.countP_append] at hold
    show (s.forwords.map TxnForword.data).countP (remasters k c) +
      ((s.logs r').drop ((addToMerge s r o txn).merged r' r')).countP (remasters k c) +
      ((update s.merges r (s.merges r ++ [txn]) r').countP fun txn =>
        remasters k c txn && txn.remasterFrom = r') ≤ 1
    by_cases hr : r' = r
    · subst hr
      rw [update_self, List.countP_append, List.countP_singleton]
      split
      case isFalse => omega
      case isTrue hfor =>
          -- a remaster transaction of this replica leaves its log
          obtain ⟨hfor, hfrom⟩ := Bool.and_eq_true_iff.mp hfor
          obtain ⟨m, hsay, -, ho, -⟩ := hi.logs o txn hlog (Bool.and_eq_true_iff.mp hfor).1
          have ho : r' = o := by
            rw [← ho, ← hsay.remasterFrom]
            exact (of_decide_eq_true hfrom).symm
          rw [if_pos ⟨rfl, ho⟩, List.countP_singleton, if_pos hfor] at hold
          omega
    · rw [update_of_ne hr]
      omega

/-! ## The nodes -/

/-- A node makes a step that changes no master and no counter. -/
theorem setNode {node : Node} (network : List ReadResult) (hi : Inv cfg s)
    (hnode : NodeOk (nodeConfig cfg n) (txnAt cfg s n) (stream cfg s n).length node)
    (hstore : ∀ k, (node.store k).master = ((s.nodes n).store k).master ∧
      (node.store k).counter = ((s.nodes n).store k).counter)
    (hexecuted : ∀ p, Executed (s.nodes n) p → Executed node p) :
    Inv cfg { Replicas.setNode s n node with network } := by
  have hstore' : ∀ n' k, ((update s.nodes n node n').store k).master =
      ((s.nodes n').store k).master ∧
      ((update s.nodes n node n').store k).counter = ((s.nodes n').store k).counter := by
    intro n' k
    by_cases hn : n' = n
    · subst hn
      rw [update_self]
      exact hstore k
    · rw [update_of_ne hn]
      exact ⟨rfl, rfl⟩
  have hwaits : ∀ n' m, Waits cfg { Replicas.setNode s n node with network } n' m →
      Waits cfg s n' m := by
    intro n' m h
    rcases h with h | h | ⟨p, hp, hsay, hne⟩
    · exact .inl h
    · exact .inr (.inl h)
    · refine .inr (.inr ⟨p, hp, hsay, fun h => hne ?_⟩)
      show Executed (update s.nodes n node n') p
      by_cases hn : n' = n
      · subst hn
        rw [update_self]
        exact hexecuted p h
      · rwa [update_of_ne hn]
  refine
    { hi with
      node := fun n' => ?_
      waits := fun n' m hfrom hlocal h => ?_
      behind := fun n' m hm hfrom hlocal => ?_
      master := fun n' k hlocal => ?_ }
  · show NodeOk (nodeConfig cfg n') (txnAt cfg s n') (stream cfg s n').length
      (update s.nodes n node n')
    by_cases hn : n' = n
    · subst hn
      rw [update_self]
      exact hnode
    · rw [update_of_ne hn]
      exact hi.node n'
  · show ((update s.nodes n node n').store m.key).master = m.remasterFrom ∧
      ((update s.nodes n node n').store m.key).counter = m.counter ∧ _
    rw [(hstore' n' m.key).1, (hstore' n' m.key).2]
    exact hi.waits n' m hfrom hlocal (hwaits n' m h)
  · show m.counter < ((update s.nodes n node n').store m.key).counter ∨
      (m.counter = ((update s.nodes n node n').store m.key).counter ∧ _)
    rw [(hstore' n' m.key).2]
    exact hi.behind n' m hm hfrom hlocal
  · show Mastered cfg s k ((update s.nodes n node n').store k).counter
      ((update s.nodes n node n').store k).master
    rw [(hstore' n' k).1, (hstore' n' k).2]
    exact hi.master n' k hlocal

theorem nodeStep {e : DeterministicScheduler.Event} (hi : Inv cfg s)
    (h : nodeStep cfg compute s n e = some s') : Inv cfg s' := by
  have hn := hi.node n
  have hset : ∀ node, NodeOk (nodeConfig cfg n) (txnAt cfg s n) (stream cfg s n).length node →
      node.store = (s.nodes n).store → (∀ p, Executed node p ↔ Executed (s.nodes n) p) →
      Inv cfg (Replicas.setNode s n node) := fun node hnode hstore hexecuted =>
    hi.setNode s.network hnode (fun k => by rw [hstore]; exact ⟨rfl, rfl⟩)
      fun p => (hexecuted p).mpr
  cases e with
  | parse =>
      obtain ⟨hlt, h⟩ := Option.ite_none_right_eq_some.mp h
      obtain ⟨node, hstep, rfl⟩ := Option.map_eq_some_iff.mp h
      -- the status of a new object is that of the message
      have hnew : (txnAt cfg s n (s.nodes n).next).remasterTxn = true →
          update (s.nodes n).status (s.nodes n).next (txnAt cfg s n (s.nodes n).next).status
            (s.nodes n).next ≠ .abortedWithoutLock := by
        intro hr
        obtain ⟨m, hsay, -⟩ := hi.of_stream hlt hr
        rw [update_self, hsay.status]
        exact fun h => by cases h
      obtain ⟨hnode, hstore, hexecuted⟩ := hn.load.parse hlt hnew hstep
      exact hset node hnode hstore hexecuted
  | verify =>
      obtain ⟨node, hstep, rfl⟩ := Option.map_eq_some_iff.mp h
      obtain ⟨hnode, hstore, hexecuted⟩ := hn.step (.inl rfl) hstep
      exact hset node hnode hstore hexecuted
  | route =>
      obtain ⟨node, hstep, rfl⟩ := Option.map_eq_some_iff.mp h
      obtain ⟨hnode, hstore, hexecuted⟩ := hn.step (.inr (.inl rfl)) hstep
      exact hset node hnode hstore hexecuted
  | dispatch =>
      obtain ⟨node, hstep, rfl⟩ := Option.map_eq_some_iff.mp h
      obtain ⟨hnode, hstore, hexecuted⟩ := hn.step (.inr (.inr (.inl rfl))) hstep
      exact hset node hnode hstore hexecuted
  | handleDone =>
      obtain ⟨node, hstep, rfl⟩ := Option.map_eq_some_iff.mp h
      obtain ⟨hnode, hstore, hexecuted⟩ := hn.step (.inr (.inr (.inr rfl))) hstep
      exact hset node hnode hstore hexecuted
  | start => cases h
  | readResult p entries => cases h
  | run p guid random => cases h

/-- A remaster transaction of this replica finds its record as it was when it
was sent. -/
theorem start (hi : Inv cfg s) (h : start cfg s n = some s') : Inv cfg s' := by
  obtain ⟨⟨node, sent⟩, hstart, rfl⟩ := Option.map_eq_some_iff.mp h
  have hnode := (hi.node n).start (fun p hp => txnAt_readers hp) (fun p _ hp hne hr hfrom => ?_)
    hstart
  · obtain ⟨q, rest, -, -, rfl⟩ := DeterministicScheduler.start_cases hstart
    exact hi.setNode _ hnode (fun k => ⟨rfl, rfl⟩) fun p h => h
  · obtain ⟨m, hsay, -, horigin, hlocal⟩ := hi.of_stream hp hr
    have hm : m.remasterFrom = replicaOf cfg n := hsay.remasterFrom.symm.trans hfrom
    obtain ⟨hmaster, hcounter, -⟩ := hi.waits n m hm hlocal (.inr (.inr ⟨p, hp, hsay, hne⟩))
    obtain ⟨hcommit, hinvolved⟩ := StorageManager.create_single_check (s.nodes n).store
      (DeterministicScheduler.txnOf (txnAt cfg s n) (s.nodes n) p) (txnAt_readers hp) hsay.readSet
      hsay.readWriteSet horigin.symm hlocal
    refine ⟨hcommit.trans ?_, hinvolved⟩
    exact decide_eq_true ⟨hmaster.symm, hcounter.symm⟩

theorem deliver {p : Ptr} {i : Nat} (hi : Inv cfg s) (h : deliver cfg s n p i = some s') :
    Inv cfg s' := by
  obtain ⟨msg, -, h⟩ := Option.bind_eq_some_iff.mp h
  obtain ⟨-, h⟩ := Option.ite_none_right_eq_some.mp h
  obtain ⟨node, hread, rfl⟩ := Option.map_eq_some_iff.mp h
  have hnode := (hi.node n).readResult hread
  obtain ⟨sm, -, -, rfl⟩ := DeterministicScheduler.readResult_cases hread
  exact hi.setNode _ hnode (fun k => ⟨rfl, rfl⟩) fun p h => h

/-! ## Executing transactions -/

/-- No remaster transaction has been sent for a record that is mastered here and
not being remastered. -/
theorem not_created (hi : Inv cfg s) {k : Key} (hlocal : (nodeConfig cfg n).isLocal k = true)
    (hmaster : ((s.nodes n).store k).master = replicaOf cfg n)
    (hflag : (s.access n k).remastering = false) {m : Remaster} (hm : Created s m)
    (hkey : m.key = k) : m.counter ≠ ((s.nodes n).store k).counter := by
  intro hcounter
  subst hkey
  have hfrom : m.remasterFrom = replicaOf cfg n := by
    have hsource := hi.source m hm
    rw [hcounter] at hsource
    rw [← hmaster]
    exact hi.mastered_unique hsource (hi.master n m.key hlocal)
  rcases hi.behind n m hm hfrom hlocal with hlt | ⟨-, htrue⟩
  · exact Nat.lt_irrefl _ (hcounter ▸ hlt)
  · rw [hflag] at htrue
    cases htrue

/-- No remaster transaction is anywhere for a counter that none was created for. -/
theorem occurs_nowhere (hi : Inv cfg s) {k : Key} {c : Nat}
    (hnone : ∀ m, Created s m → m.key = k → m.counter ≠ c) (r : Nat) :
    s.created.countP (remasters k c) = 0 ∧ occurrences s r k c = 0 := by
  have hnot : ∀ txn m, Says txn m → Created s m → ¬ remasters k c txn = true := by
    intro txn m hsay hcreated hfor
    obtain ⟨hkey, hcounter⟩ := hsay.remasters_iff.mp hfor
    exact hnone m hcreated hkey hcounter
  have hlog : ∀ o, ∀ txn ∈ s.logs o, ¬ remasters k c txn = true := by
    intro o txn htxn hfor
    obtain ⟨m, hsay, hcreated, -⟩ := hi.logs o txn htxn (Bool.and_eq_true_iff.mp hfor).1
    exact hnot txn m hsay hcreated hfor
  have hforwords : (s.forwords.map TxnForword.data).countP (remasters k c) = 0 := by
    rw [List.countP_eq_zero]
    intro txn htxn hfor
    obtain ⟨msg, hmsg, rfl⟩ := List.mem_map.mp htxn
    obtain ⟨m, hsay, hcreated, -⟩ := hi.forwords msg hmsg (Bool.and_eq_true_iff.mp hfor).1
    exact hnot _ m hsay hcreated hfor
  have hlogs : ((s.logs r).drop (s.merged r r)).countP (remasters k c) = 0 := by
    rw [List.countP_eq_zero]
    exact fun txn htxn => hlog r txn (List.mem_of_mem_drop htxn)
  have hmerges : ((s.merges r).countP fun txn =>
      remasters k c txn && decide (txn.remasterFrom = r)) = 0 := by
    rw [List.countP_eq_zero]
    intro txn htxn hfor
    obtain ⟨o, ho⟩ := hi.merges r txn htxn
    exact hlog o txn ho (Bool.and_eq_true_iff.mp hfor).1
  constructor
  · rw [List.countP_eq_zero]
    intro txn htxn hfor
    obtain ⟨m, hsay⟩ := hi.created txn htxn
    exact hnot txn m hsay ⟨txn, htxn, hsay⟩ hfor
  · unfold occurrences
    omega

/-- What a node hands to its sequencer: remaster transactions for keys it is the
master of, whose flags it raises, and retries. -/
structure Sends (cfg : ClusterConfig) (s : Replicas) (n : Nat) (access : Key → Access)
    (sent : List TxnProto) (forword : List TxnForword) : Prop where
  kept : ∀ k, (s.access n k).remastering = true → (access k).remastering = true
  raised : ∀ txn ∈ sent, ∃ k target, Says txn
    ⟨k, ((s.nodes n).store k).counter, replicaOf cfg n, target⟩ ∧
    (nodeConfig cfg n).isLocal k = true ∧ ((s.nodes n).store k).master = replicaOf cfg n ∧
    (s.access n k).remastering = false ∧ (access k).remastering = true
  once : ∀ k c, sent.countP (remasters k c) ≤ 1
  plain : ∀ msg ∈ forword, msg.data.remasterTxn = false

namespace Sends

variable {access : Key → Access} {sent : List TxnProto} {forword : List TxnForword}

/-- No flag is taken back. -/
theorem flag (h : Sends cfg s n access sent forword) (n' : Nat) (k : Key)
    (hset : (s.access n' k).remastering = true) :
    (update s.access n access n' k).remastering = true := by
  by_cases hn : n' = n
  · subst hn
    rw [update_self]
    exact h.kept k hset
  · rwa [update_of_ne hn]

/-- What is sent is for counters that were nowhere. -/
theorem fresh (h : Sends cfg s n access sent forword) (hi : Inv cfg s) (k : Key) (c : Nat) :
    sent.countP (remasters k c) = 0 ∨ ∀ r,
      s.created.countP (remasters k c) = 0 ∧ occurrences s r k c = 0 := by
  refine or_iff_not_imp_left.mpr fun hpos r => ?_
  obtain ⟨txn, htxn, hfor⟩ := List.countP_pos_iff.mp (Nat.pos_of_ne_zero hpos)
  refine hi.occurs_nowhere ?_ r
  intro m hm hkey
  obtain ⟨k', target, hsay, hlocal, hmaster, hfalse, -⟩ := h.raised txn htxn
  obtain ⟨rfl, rfl⟩ := hsay.remasters_iff.mp hfor
  exact hi.not_created hlocal hmaster hfalse hm hkey

/-- A node that is to execute a transaction sent now is the sender. -/
theorem sender (h : Sends cfg s n access sent forword) {txn : TxnProto} (htxn : txn ∈ sent)
    {m : Remaster} (hsay : Says txn m) {n' : Nat} (hfrom : m.remasterFrom = replicaOf cfg n')
    (hlocal : (nodeConfig cfg n').isLocal m.key = true) :
    ((s.nodes n').store m.key).master = m.remasterFrom ∧
      ((s.nodes n').store m.key).counter = m.counter ∧
      (update s.access n access n' m.key).remastering = true := by
  obtain ⟨k, target, hsay', hlocal', hmaster, -, htrue⟩ := h.raised txn htxn
  obtain rfl := hsay'.unique hsay
  obtain rfl := node_unique hfrom.symm hlocal hlocal'
  refine ⟨hmaster, rfl, ?_⟩
  rw [update_self]
  exact htrue

theorem forwords_data (s : Replicas) (n : Nat) (sent : List TxnProto) (forword : List TxnForword) :
    (s.forwords ++ sent.map (fun txn => (⟨n, txn⟩ : TxnForword)) ++ forword).map TxnForword.data =
      s.forwords.map TxnForword.data ++ sent ++ forword.map TxnForword.data := by
  simp only [List.map_append, List.map_map]
  congr 2
  exact List.map_id' sent

/-- The retries are no remaster transactions. -/
theorem no_remaster (h : Sends cfg s n access sent forword) {txn : TxnProto}
    (htxn : txn ∈ forword.map TxnForword.data) : txn.remasterTxn = false := by
  obtain ⟨msg, hmsg, rfl⟩ := List.mem_map.mp htxn
  exact h.plain msg hmsg

/-- Still at most one remaster transaction for a counter is on its way. -/
theorem occurs_once (h : Sends cfg s n access sent forword) (hi : Inv cfg s) (r : Nat) (k : Key)
    (c : Nat) : (s.forwords.map TxnForword.data ++ sent ++ forword.map TxnForword.data).countP
        (remasters k c) + ((s.logs r).drop (s.merged r r)).countP (remasters k c) +
      ((s.merges r).countP fun txn => remasters k c txn && txn.remasterFrom = r) ≤ 1 := by
  have hold := hi.once r k c
  have hsent := h.once k c
  have hplain : (forword.map TxnForword.data).countP (remasters k c) = 0 := by
    rw [List.countP_eq_zero]
    intro txn htxn hfor
    rw [remasters, h.no_remaster htxn] at hfor
    cases hfor
  have hbefore := h.fresh hi k c
  unfold occurrences at hold hbefore
  rw [List.countP_append, List.countP_append]
  rcases hbefore with hzero | hzero
  · omega
  · have hnowhere := (hzero r).2
    omega

end Sends

/-- A node sends remaster transactions for records that are mastered here and
not being remastered. -/
theorem send {access : Key → Access} {sent : List TxnProto} {forword : List TxnForword}
    (hi : Inv cfg s) (h : Sends cfg s n access sent forword) :
    Inv cfg (Replicas.send s n access sent forword) := by
  have hnone : (forword.map TxnForword.data).filter (fun txn => txn.remasterTxn) = [] := by
    rw [List.filter_eq_nil_iff]
    intro txn htxn
    rw [h.no_remaster htxn]
    exact Bool.false_ne_true
  unfold Replicas.send
  rw [hnone, List.append_nil]
  have hmono : ∀ txn ∈ s.created, txn ∈ s.created ++ sent := fun txn h => List.mem_append_left _ h
  refine
    { hi with
      created := fun txn htxn => ?_
      forwords := fun msg hmsg hr => ?_
      logs := fun o txn htxn hr => ?_
      unique := fun k c => ?_
      once := fun r k c => ?_
      waits := fun n' m hfrom hlocal hwaits => ?_
      behind := fun n' m hm hfrom hlocal => ?_
      master := fun n' k hlocal => (hi.master n' k hlocal).mono hmono
      source := fun m hm => ?_ }
  · rcases List.mem_append.mp htxn with htxn | htxn
    · exact hi.created txn htxn
    · obtain ⟨k, target, hsay, -⟩ := h.raised txn htxn
      exact ⟨_, hsay⟩
  · rcases List.mem_append.mp hmsg with hmsg | hmsg
    · rcases List.mem_append.mp hmsg with hmsg | hmsg
      · obtain ⟨m, hsay, hcreated, hfrom⟩ := hi.forwords msg hmsg hr
        exact ⟨m, hsay, hcreated.mono hmono, hfrom⟩
      · obtain ⟨txn, htxn, rfl⟩ := List.mem_map.mp hmsg
        obtain ⟨k, target, hsay, -⟩ := h.raised txn htxn
        exact ⟨_, hsay, ⟨txn, List.mem_append_right _ htxn, hsay⟩, rfl⟩
    · rw [h.plain msg hmsg] at hr
      cases hr
  · obtain ⟨m, hsay, hcreated, hfrom⟩ := hi.logs o txn htxn hr
    exact ⟨m, hsay, hcreated.mono hmono, hfrom⟩
  · show (s.created ++ sent).countP (remasters k c) ≤ 1
    rw [List.countP_append]
    have hsentOnce := h.once k c
    have holdOnce := hi.unique k c
    rcases h.fresh hi k c with hzero | hzero
    · omega
    · have hcreated := (hzero 0).1
      omega
  · unfold occurrences
    dsimp only
    rw [Sends.forwords_data]
    exact h.occurs_once hi r k c
  · have hold : Waits cfg s n' m → ((s.nodes n').store m.key).master = m.remasterFrom ∧
        ((s.nodes n').store m.key).counter = m.counter ∧
        (update s.access n access n' m.key).remastering = true := fun hw => by
      obtain ⟨hmaster, hcounter, htrue⟩ := hi.waits n' m hfrom hlocal hw
      exact ⟨hmaster, hcounter, h.flag n' m.key htrue⟩
    rcases hwaits with ⟨txn, htxn, hsay⟩ | hw
    · rw [Sends.forwords_data] at htxn
      rcases List.mem_append.mp htxn with htxn | htxn
      · rcases List.mem_append.mp htxn with htxn | htxn
        · exact hold (.inl ⟨txn, htxn, hsay⟩)
        · exact h.sender htxn hsay hfrom hlocal
      · have hr := hsay.remasterTxn
        rw [h.no_remaster htxn] at hr
        cases hr
    · exact hold (.inr hw)
  · obtain ⟨txn, htxn, hsay⟩ := hm
    rcases List.mem_append.mp htxn with htxn | htxn
    · rcases hi.behind n' m ⟨txn, htxn, hsay⟩ hfrom hlocal with hlt | ⟨heq, htrue⟩
      · exact .inl hlt
      · exact .inr ⟨heq, h.flag n' m.key htrue⟩
    · obtain ⟨-, hcounter, htrue⟩ := h.sender htxn hsay hfrom hlocal
      exact .inr ⟨hcounter.symm, htrue⟩
  · obtain ⟨txn, htxn, hsay⟩ := hm
    rcases List.mem_append.mp htxn with htxn | htxn
    · exact (hi.source m ⟨txn, htxn, hsay⟩).mono hmono
    · obtain ⟨k, target, hsay', hlocal', hmaster, -⟩ := h.raised txn htxn
      obtain rfl := hsay'.unique hsay
      have hnow := hi.master n k hlocal'
      rw [hmaster] at hnow
      exact hnow.mono hmono

/-- A node executes a remaster transaction: the counter of the key goes up, and
at the replica that has sent it nothing else waits for this key. -/
theorem remaster {p : Ptr} {m : Remaster} {node : Node} (access : Key → Access)
    (hi : Inv cfg s) (hp : p < (stream cfg s n).length) (hsay : Says (txnAt cfg s n p) m)
    (hnode : NodeOk (nodeConfig cfg n) (txnAt cfg s n) (stream cfg s n).length node)
    (hexecuted : ∀ q, Executed node q ↔ q = p ∨ Executed (s.nodes n) q)
    (hnew : ¬ Executed (s.nodes n) p)
    (hmaster : ((s.nodes n).store m.key).master = m.remasterFrom)
    (hcounter : ((s.nodes n).store m.key).counter = m.counter)
    (hstore : node.store = update (s.nodes n).store m.key
      { (s.nodes n).store m.key with master := m.remasterTo, counter := m.counter + 1 })
    (haccess : ∀ k, k ≠ m.key → access k = s.access n k) :
    Inv cfg { Replicas.setNode s n node with access := update s.access n access } := by
  obtain ⟨m', hsay', hcreated, -, hlocal⟩ := hi.of_stream hp hsay.remasterTxn
  obtain rfl := hsay'.unique hsay
  have hwaits : ∀ n' m'', Waits cfg
      { Replicas.setNode s n node with access := update s.access n access } n' m'' →
      Waits cfg s n' m'' := by
    intro n' m'' h
    rcases h with h | h | ⟨q, hq, hst, hne⟩
    · exact .inl h
    · exact .inr (.inl h)
    · refine .inr (.inr ⟨q, hq, hst, fun h => hne ?_⟩)
      show Executed (update s.nodes n node n') q
      by_cases hn : n' = n
      · subst hn
        rw [update_self, hexecuted]
        exact .inr h
      · rwa [update_of_ne hn]
  -- the record of another key, or of another node
  have hother : ∀ n' k, ¬ (n' = n ∧ k = m'.key) →
      (update s.nodes n node n').store k = (s.nodes n').store k ∧
      update s.access n access n' k = s.access n' k := by
    intro n' k hne
    by_cases hn : n' = n
    · subst hn
      have hk : k ≠ m'.key := fun h => hne ⟨rfl, h⟩
      rw [update_self, update_self, hstore, update_of_ne hk]
      exact ⟨rfl, haccess k hk⟩
    · rw [update_of_ne hn, update_of_ne hn]
      exact ⟨rfl, rfl⟩
  have hself : (update s.nodes n node n).store m'.key =
      { (s.nodes n).store m'.key with
        master := m'.remasterTo, counter := m'.counter + 1 } := by
    rw [update_self, hstore, update_self]
  refine
    { hi with
      node := fun n' => ?_
      waits := fun n' m'' hfrom hlocal' h => ?_
      behind := fun n' m'' hm hfrom hlocal' => ?_
      master := fun n' k hlocal' => ?_ }
  · show NodeOk (nodeConfig cfg n') (txnAt cfg s n') (stream cfg s n').length
      (update s.nodes n node n')
    by_cases hn : n' = n
    · subst hn
      rw [update_self]
      exact hnode
    · rw [update_of_ne hn]
      exact hi.node n'
  · by_cases hsame : n' = n ∧ m''.key = m'.key
    · exfalso
      obtain ⟨rfl, hkey⟩ := hsame
      obtain ⟨-, hcounter', -⟩ := hi.waits n' m'' hfrom hlocal' (hwaits n' m'' h)
      rw [hkey, hcounter] at hcounter'
      obtain rfl := hi.created_unique (hi.created_of_waits (hwaits n' m'' h)) hcreated hkey
        hcounter'.symm
      refine hi.not_waits hp hsay hfrom ?_
      rcases h with h | h | ⟨q, hq, hst, hne⟩
      · exact .inl h
      · exact .inr (.inl h)
      · refine .inr (.inr ⟨q, hq, hst, fun heq => hne ?_⟩)
        show Executed (update s.nodes n' node n') q
        rw [update_self, hexecuted]
        exact .inl heq
    · show ((update s.nodes n node n').store m''.key).master = m''.remasterFrom ∧
        ((update s.nodes n node n').store m''.key).counter = m''.counter ∧
        (update s.access n access n' m''.key).remastering = true
      rw [(hother n' m''.key hsame).1, (hother n' m''.key hsame).2]
      exact hi.waits n' m'' hfrom hlocal' (hwaits n' m'' h)
  · show m''.counter < ((update s.nodes n node n').store m''.key).counter ∨
      (m''.counter = ((update s.nodes n node n').store m''.key).counter ∧
        (update s.access n access n' m''.key).remastering = true)
    by_cases hsame : n' = n ∧ m''.key = m'.key
    · obtain ⟨rfl, hkey⟩ := hsame
      have hold := hi.behind n' m'' hm hfrom hlocal'
      rw [hkey, hcounter] at hold
      rw [hkey, hself]
      refine .inl ?_
      show m''.counter < m'.counter + 1
      rcases hold with hlt | ⟨heq, -⟩
      · omega
      · omega
    · rw [(hother n' m''.key hsame).1, (hother n' m''.key hsame).2]
      exact hi.behind n' m'' hm hfrom hlocal'
  · show Mastered cfg s k ((update s.nodes n node n').store k).counter
      ((update s.nodes n node n').store k).master
    by_cases hsame : n' = n ∧ k = m'.key
    · obtain ⟨rfl, rfl⟩ := hsame
      rw [hself]
      exact .inr ⟨m', hcreated, rfl, rfl, rfl⟩
    · rw [(hother n' k hsame).1]
      exact hi.master n' k hlocal'

/-- A transaction that is executed changes the store and the statistics, one that
is aborted is sent again. -/
theorem run_cases {p : Ptr} {guid random : Nat} {guids : Nat → Nat} {unset : Key → Unset}
    (h : run cfg compute s n p guid random guids unset = some s') :
    ∃ sm node forword, (s.nodes n).managers p = some sm ∧
      DeterministicScheduler.run (nodeConfig cfg n) 2 (txnAt cfg s n) compute (s.nodes n) p guid
        random = some (node, forword) ∧
      ((∃ store touched,
          execute compute (DeterministicScheduler.txnOf (txnAt cfg s n) (s.nodes n) p) sm
            (s.nodes n).store = some store ∧
          executeAccess (replicaOf cfg n) 2 guids unset
            (DeterministicScheduler.txnOf (txnAt cfg s n) (s.nodes n) p) sm (s.nodes n).store
            (s.access n) = touched ∧
          node = DeterministicScheduler.finish { s.nodes n with store } p .committed ∧
          s' = Replicas.send (Replicas.setNode s n node) n touched.1 touched.2 []) ∨
        ∃ status,
          sm.checkCommitOrAbort (nodeConfig cfg n) (s.nodes n).store
            (DeterministicScheduler.txnOf (txnAt cfg s n) (s.nodes n) p) guid random =
            some (false, status, forword) ∧
          node = DeterministicScheduler.finish (s.nodes n) p status ∧
          s' = Replicas.send (Replicas.setNode s n node) n (s.access n) [] forword.toList) := by
  obtain ⟨sm, hsm, h⟩ := Option.bind_eq_some_iff.mp h
  obtain ⟨⟨node, forword⟩, hrun, rfl⟩ := Option.map_eq_some_iff.mp h
  obtain ⟨sm', hsm', -, hcases⟩ := DeterministicScheduler.run_check hrun
  obtain rfl : sm = sm' := Option.some.inj (hsm.symm.trans hsm')
  refine ⟨sm, node, forword, hsm, hrun, ?_⟩
  rcases hcases with ⟨store, hexec, rfl, hnode, -⟩ | ⟨status, hcheck, hnode⟩
  · have hstatus : node.status p = .committed := by
      rw [hnode]
      exact update_self ..
    exact .inl ⟨store, _, hexec, rfl, hnode, by simp only [hstatus, if_true, Option.toList_none]⟩
  · have hstatus : node.status p ≠ .committed := by
      rw [hnode]
      show update (s.nodes n).status p status p ≠ _
      rw [update_self]
      exact StorageManager.checkCommitOrAbort_abort hcheck
    exact .inr ⟨status, hcheck, hnode, by simp only [hstatus, if_false]⟩

theorem send_nothing (t : Replicas) (n : Nat) (access : Key → Access) :
    Replicas.send t n access [] [] =
      { t with access := update t.access n access } := by
  unfold Replicas.send
  simp only [List.map_nil, List.filter_nil, List.append_nil]

/-- The remaster transactions of a replica are not sent again. -/
theorem forword_normal {p : Ptr} {guid random : Nat} {sm : StorageManager} {status : Status}
    {forword : TxnForword} (hi : Inv cfg s) (hsm : (s.nodes n).managers p = some sm)
    (hcheck : sm.checkCommitOrAbort (nodeConfig cfg n) (s.nodes n).store
      (DeterministicScheduler.txnOf (txnAt cfg s n) (s.nodes n) p) guid random =
      some (false, status, some forword)) : forword.data.remasterTxn = false := by
  have hn := hi.node n
  have hp : p < (stream cfg s n).length := Nat.lt_of_lt_of_le (hn.manager_lt hsm) hn.bounded
  obtain ⟨hretries, -, -, hdata, -⟩ := StorageManager.checkCommitOrAbort_forword hcheck
  rw [hdata]
  cases hr : (txnAt cfg s n p).remasterTxn with
  | false => exact hr
  | true =>
      -- only the origin sends a transaction again, and it does not abort this one
      exfalso
      obtain ⟨m, hsay, -, horigin, -⟩ := hi.of_stream hp hr
      have hlocal : (nodeConfig cfg n).localReplicaId = (txnAt cfg s n p).originReplica :=
        (of_decide_eq_true hretries).1
      refine hn.not_aborted hsm hr ?_ hcheck
      rw [hlocal, horigin]
      exact hsay.remasterFrom

theorem run {p : Ptr} {guid random : Nat} {guids : Nat → Nat} {unset : Key → Unset}
    (hi : Inv cfg s) (hrange : (txnAt cfg s n p).clientReplica < Access.replicaSize)
    (h : run cfg compute s n p guid random guids unset = some s') : Inv cfg s' := by
  have hn := hi.node n
  obtain ⟨sm, node, forword, hsm, hrun, ⟨store, touched, hexec, htouched, rfl, rfl⟩ |
    ⟨status, hcheck, rfl, rfl⟩⟩ := run_cases h
  · obtain ⟨hnode, hexecuted⟩ := hn.finish _ (hn.life.run hrun)
    have hp : p < (stream cfg s n).length := Nat.lt_of_lt_of_le (hn.manager_lt hsm) hn.bounded
    obtain ⟨-, hdone, hdeleted⟩ := hn.life.of_manager hsm
    have hset := fun hsame => hi.setNode s.network hnode hsame fun q hq =>
      (hexecuted q).mpr (.inr hq)
    cases hr : (txnAt cfg s n p).remasterTxn with
    | false =>
        have hr' : (DeterministicScheduler.txnOf (txnAt cfg s n) (s.nodes n) p).remasterTxn =
          false := hr
        have hsame := execute_normal hr' hexec
        obtain ⟨hsent, hkept, honce⟩ := executeAccess_spec (replicaOf cfg n) 2 guids unset sm
          (s.nodes n).store (s.access n) hr' hrange
        rw [htouched] at hsent hkept honce
        refine (hset hsame).send ⟨hkept, fun txn htxn => ?_, honce,
          fun msg hmsg => absurd hmsg List.not_mem_nil⟩
        obtain ⟨k, guid', rfl, hstored, hmaster, hfalse, htrue⟩ := hsent txn htxn
        refine ⟨k, (txnAt cfg s n p).clientReplica, ?_, hn.stored p sm hsm k hstored, ?_, hfalse,
          htrue⟩
        · show Says _ ⟨k, ((update s.nodes n _ n).store k).counter, replicaOf cfg n, _⟩
          rw [update_self]
          have hcounter : ((DeterministicScheduler.finish { s.nodes n with store } p
              .committed).store k).counter = ((s.nodes n).store k).counter := (hsame k).2
          rw [hcounter]
          exact says_newRemaster hmaster
        · show ((update s.nodes n _ n).store k).master = _
          rw [update_self]
          exact (hsame k).1.trans hmaster
    | true =>
        have hr' : (DeterministicScheduler.txnOf (txnAt cfg s n) (s.nodes n) p).remasterTxn =
          true := hr
        obtain ⟨m, hsay, -⟩ := hi.of_stream hp hr
        have hhead : (txnAt cfg s n p).readWriteSet.head? =
            some { key := m.key, master := m.remasterFrom, counter := m.counter } := by
          rw [hsay.readWriteSet]
          rfl
        obtain ⟨hnothing, hother, hcopied⟩ := executeAccess_remaster (replicaOf cfg n) 2
          guids unset sm (s.nodes n).store (s.access n) hr' hhead
        rw [htouched] at hnothing hother hcopied
        rw [hnothing]
        by_cases hstored : sm.objects.lookup m.key = some .stored
        · obtain ⟨⟨hmaster, hcounter⟩, rfl⟩ := execute_remaster
            (DeterministicScheduler.txnOf (txnAt cfg s n) (s.nodes n) p) hr hhead hstored hexec
          have hto : (txnAt cfg s n p).remasterTo = m.remasterTo := hsay.remasterTo
          have hmoved := hi.remaster touched.1 hp hsay hnode hexecuted
            (fun h => h.elim hdone hdeleted) hmaster.symm hcounter.symm (by rw [← hto]; rfl) hother
          rw [send_nothing]
          exact hmoved
        · obtain rfl := execute_remaster_copy
            (DeterministicScheduler.txnOf (txnAt cfg s n) (s.nodes n) p) hr hhead hstored hexec
          rw [hcopied hstored]
          exact (hset fun k => ⟨rfl, rfl⟩).send ⟨fun k h => h,
            fun txn htxn => absurd htxn List.not_mem_nil, fun k c => Nat.zero_le _,
            fun msg hmsg => absurd hmsg List.not_mem_nil⟩
  · obtain ⟨hnode, hexecuted⟩ := hn.finish (s.nodes n).store (hn.life.run hrun)
    have hset := hi.setNode s.network hnode (fun k => ⟨rfl, rfl⟩) fun q hq =>
      (hexecuted q).mpr (.inr hq)
    refine hset.send ⟨fun k h => h, fun txn htxn => absurd htxn List.not_mem_nil,
      fun k c => Nat.zero_le _, fun msg hmsg => ?_⟩
    rw [Option.mem_toList.mp hmsg] at hcheck
    exact hi.forword_normal hsm hcheck

theorem step {value : Nat → Key → Value} {unset : Nat → Key → Unset} {e : Event}
    (hi : Inv cfg s) (hrange : InRange cfg s e)
    (h : (machine cfg compute value unset).next s e = some s') : Inv cfg s' := by
  cases e with
  | client o txn =>
      simp only [machine] at h
      split at h
      case isTrue => cases h
      case isFalse hr =>
          obtain rfl := Option.some.inj h
          exact hi.client (Bool.eq_false_iff.mpr hr)
  | gotForword i => exact hi.gotForword h
  | merge r o => exact hi.merge h
  | node n e => exact hi.nodeStep h
  | start n => exact hi.start h
  | deliver n p i => exact hi.deliver h
  | run n p guid random guids unset => exact hi.run hrange h

end Inv

theorem inv_of_reach {value : Nat → Key → Value} {unset : Nat → Key → Unset}
    (h : (machine cfg compute value unset).Reach (InRange cfg) s) : Inv cfg s :=
  h.invariant (inv_init value unset) fun _ _ _ _ hrange hi hn => hi.step hrange hn

/-- The node of a partition keeps its keys. -/
theorem isLocal_machine (cfg : ClusterConfig) (r : Nat) (k : Key) :
    (nodeConfig cfg (cfg.lookupMachineId (cfg.lookupPartition k) r)).isLocal k = true := by
  refine decide_eq_true ?_
  show cfg.lookupPartition k =
    (r * cfg.nodesPerReplica + cfg.lookupPartition k) % cfg.nodesPerReplica
  rw [Nat.mul_add_mod_self_right]
  exact (Nat.mod_mod _ _).symm

/-! ## The result -/

/-- In every run of all replicas with valid indices there is at most one remaster
transaction for a key and a counter, and records of a key with the same counter have
the same master at any two replicas. -/
theorem mastership (cfg : ClusterConfig) (compute : Compute) (value : Nat → Key → Value)
    (unset : Nat → Key → Unset) {s : Replicas}
    (h : (machine cfg compute value unset).Reach (InRange cfg) s) :
    (∀ k c, s.created.countP (remasters k c) ≤ 1) ∧
    ∀ k r r', (records cfg s r k).counter = (records cfg s r' k).counter →
      (records cfg s r k).master = (records cfg s r' k).master := by
  have hi := inv_of_reach h
  refine ⟨hi.unique, fun k r r' hcounter => ?_⟩
  have hmaster := hi.master _ k (isLocal_machine cfg r k)
  have hmaster' := hi.master _ k (isLocal_machine cfg r' k)
  unfold records at hcounter ⊢
  rw [← hcounter] at hmaster'
  exact hi.mastered_unique hmaster hmaster'

/-! ## A run with a remaster -/

/-- Two replicas of one partition. -/
abbrev twoReplicas : ClusterConfig := { replicasSize := 2 }

/-- The replicas while all values are empty. -/
abbrev noValues : Machine Replicas Event :=
  machine twoReplicas (fun _ _ _ => []) (fun _ _ => []) fun _ _ => {}

/-- A transaction of a client at replica 1; replica 0 is the master of its record. -/
def touching : TxnProto :=
  { txnId := 7, readWriteSet := [⟨[48], 0, 0⟩], clientReplica := 1, involvedReplicas := [0] }

/-- The statistics after `i` touches by clients at replica 1. -/
def touches (i : Nat) : Access where
  accessPattern := fun r => if r.val = 1 then i else 0
  accessCnt := i

theorem touches_zero : touches 0 = {} := by
  simp only [touches, ite_self]

theorem touch_touches {i : Nat} (hi : i ≤ 9000) :
    touch 0 1 (touches i) =
      ({ touches (i + 1) with remastering := decide (9000 < i + 1) }, decide (9000 < i + 1)) := by
  have hword : (touches i).word 1 = i := rfl
  have hmod : (i + 1) % UInt32.size = i + 1 := Nat.mod_eq_of_lt (by unfold UInt32.size; omega)
  have hset : (touches i).setWord 1 (i + 1) =
      { touches i with accessPattern := (touches (i + 1)).accessPattern } := by
    have hpattern : update (touches i).accessPattern ⟨1, by decide⟩ (i + 1) =
        (touches (i + 1)).accessPattern := by
      funext r
      by_cases hr : r.val = 1 <;> simp [touches, update_apply, Fin.ext_iff, hr]
    rw [← hpattern]
    exact Access.setWord_eq _ ⟨1, by decide⟩ _
  have hremaster : decide ((1 : Nat) ≠ 0 ∧ 90 * lastNTouch < 100 * (i + 1)) =
      decide (9000 < i + 1) := by
    rw [decide_eq_decide]
    unfold lastNTouch
    omega
  have hcnt : ¬ lastNTouch < (touches i).accessCnt + 1 := by
    show ¬ 10000 < i + 1
    omega
  unfold touch
  simp only [hword, hmod, hset, hremaster]
  rw [if_neg hcnt]
  rfl

/-- Replica 0 has executed its first `i` transactions, which have touched one record. -/
structure Touched (s : Replicas) (i : Nat) (a : Access) (created : List TxnProto) : Prop where
  reach : noValues.Reach (InRange twoReplicas) s
  node : Idle [48] (s.nodes 0) i
  store : (s.nodes 0).store [48] = ⟨[], 0, 0⟩
  access : s.access 0 [48] = a
  logs : s.logs 0 = List.replicate i touching
  merges : s.merges 0 = List.replicate i touching
  merged : s.merged 0 0 = i
  network : s.network = []
  forwords : s.forwords = created.map fun txn => ⟨0, txn⟩
  created : s.created = created

theorem touched_init : Touched noValues.init 0 (touches 0) [] where
  reach := .init
  node := ⟨rfl, rfl, rfl, fun _ => rfl, rfl, rfl, rfl⟩
  store := by decide
  access := touches_zero.symm
  logs := rfl
  merges := rfl
  merged := rfl
  network := rfl
  forwords := rfl
  created := rfl

section

variable {s : Replicas} {n n' : Node} {i : Nat} {txn : TxnProto}

/-- A transaction in the log of replica 0 is merged there. -/
theorem reach_merge (hs : noValues.Reach (InRange twoReplicas) s)
    (hlog : (s.logs 0)[i]? = some txn) (hmerged : s.merged 0 0 = i) :
    noValues.Reach (InRange twoReplicas) (addToMerge s 0 0 txn) := by
  refine hs.step (e := .merge 0 0) trivial ?_
  show (s.logs 0)[s.merged 0 0]?.map _ = _
  rw [hmerged, hlog, Option.map_some]

theorem reach_parse (hs : noValues.Reach (InRange twoReplicas) s)
    (hlt : (s.nodes 0).next < (stream twoReplicas s 0).length)
    (hn : DeterministicScheduler.parse (nodeConfig twoReplicas 0) 2 (txnAt twoReplicas s 0)
      (load (txnAt twoReplicas s 0) (s.nodes 0)) = some n') :
    noValues.Reach (InRange twoReplicas) (setNode s 0 n') := by
  refine hs.step (e := .node 0 .parse) trivial ?_
  show (if (s.nodes 0).next < (stream twoReplicas s 0).length then
    (DeterministicScheduler.parse _ 2 (txnAt twoReplicas s 0)
      (load (txnAt twoReplicas s 0) (s.nodes 0))).map (setNode s 0) else none) = _
  rw [if_pos hlt, hn, Option.map_some]

theorem reach_node (e : DeterministicScheduler.Event)
    (he : ∀ s, nodeStep twoReplicas (fun _ _ _ => []) s 0 e =
      (DeterministicScheduler.step (nodeConfig twoReplicas 0) 2 (txnAt twoReplicas s 0)
        (fun _ _ _ => []) (s.nodes 0) e).map (setNode s 0))
    (hs : noValues.Reach (InRange twoReplicas) (setNode s 0 n))
    (hn : DeterministicScheduler.step (nodeConfig twoReplicas 0) 2 (txnAt twoReplicas s 0)
      (fun _ _ _ => []) n e = some n') :
    noValues.Reach (InRange twoReplicas) (setNode s 0 n') := by
  refine hs.step (e := .node 0 e) trivial ?_
  have hnode : (setNode s 0 n).nodes 0 = n := by simp [setNode]
  have htxns : txnAt twoReplicas (setNode s 0 n) 0 = txnAt twoReplicas s 0 := rfl
  show nodeStep twoReplicas _ (setNode s 0 n) 0 e = _
  rw [he, hnode, htxns, hn]
  simp [setNode]

theorem reach_start (hs : noValues.Reach (InRange twoReplicas) (setNode s 0 n))
    (hn : DeterministicScheduler.start (nodeConfig twoReplicas 0) 2 (txnAt twoReplicas s 0) n =
      some (n', [])) :
    noValues.Reach (InRange twoReplicas) (setNode s 0 n') := by
  refine hs.step (e := .start 0) trivial ?_
  have hnode : (setNode s 0 n).nodes 0 = n := by simp [setNode]
  show (DeterministicScheduler.start _ 2 (txnAt twoReplicas s 0) ((setNode s 0 n).nodes 0)).map
    _ = _
  rw [hnode, hn]
  simp [setNode]

theorem reach_run {p : Ptr} {sm : StorageManager} {access : Key → Access} {sent : List TxnProto}
    (hs : noValues.Reach (InRange twoReplicas) (setNode s 0 n)) (hsm : n.managers p = some sm)
    (hrun : DeterministicScheduler.run (nodeConfig twoReplicas 0) 2 (txnAt twoReplicas s 0)
      (fun _ _ _ => []) n p 0 0 = some (n', none)) (hstatus : n'.status p = .committed)
    (hclient : (txnAt twoReplicas s 0 p).clientReplica < Access.replicaSize)
    (haccess : executeAccess 0 2 (fun _ => 11) (fun _ => {})
      (DeterministicScheduler.txnOf (txnAt twoReplicas s 0) n p) sm n.store (s.access 0) =
        (access, sent)) :
    noValues.Reach (InRange twoReplicas) (setNode (send s 0 access sent []) 0 n') := by
  refine hs.step (e := .run 0 p 0 0 (fun _ => 11) fun _ => {}) hclient ?_
  have hnode : (setNode s 0 n).nodes 0 = n := by simp [setNode]
  show run twoReplicas _ (setNode s 0 n) 0 p 0 0 _ _ = _
  have htxns : txnAt twoReplicas (setNode s 0 n) 0 = txnAt twoReplicas s 0 := rfl
  have hreplica : replicaOf twoReplicas 0 = 0 := rfl
  have hold : (setNode s 0 n).access 0 = s.access 0 := rfl
  simp only [Replicas.run, hnode, htxns, hsm, hrun, hstatus, hreplica, hold, haccess,
    Option.bind_some, Option.map_some, if_true]
  simp [setNode, send]

end

/-- What the transaction does to the statistics of its record. -/
theorem executeAccess_touching (txn : TxnProto) (sm : StorageManager) {store : Key → Record}
    (access : Key → Access) (hentries : txn.readWriteSet = [⟨[48], 0, 0⟩])
    (hclient : txn.clientReplica = 1) (hr : txn.remasterTxn = false)
    (hsm : sm.objects.lookup [48] = some .stored) (hstore : store [48] = ⟨[], 0, 0⟩)
    (ha : (access [48]).remastering = false) :
    executeAccess 0 2 (fun _ => 11) (fun _ => {}) txn sm store access =
      (update access [48] (touch 0 1 (access [48])).1,
        if (touch 0 1 (access [48])).2 then [newRemaster 0 1 11 [48] ⟨[], 0, 0⟩] else []) := by
  simp [executeAccess, hr, hentries, kRWSetSize, accessEntry, hsm, hclient, hstore,
    checkRemaster, ha]

/-- The transaction as replica 0 parses it. -/
abbrev parsedTouching : TxnProto :=
  LowlatencySequencer.withReaders (nodeConfig twoReplicas 0) touching

theorem oneRecord_parsedTouching : OneRecord (nodeConfig twoReplicas 0) parsedTouching [48] 0 :=
  ⟨rfl, rfl, rfl, by decide⟩

/-- One more transaction is executed. -/
theorem Touched.round {s : Replicas} {i : Nat} {a : Access} (h : Touched s i a [])
    (ha : a.remastering = false) : ∃ t, Touched t (i + 1) (touch 0 1 a).1
      (if (touch 0 1 a).2 then [newRemaster 0 1 11 [48] ⟨[], 0, 0⟩] else []) := by
  have hlog : (addToLog s 0 touching).logs 0 = List.replicate (i + 1) touching := by
    simp [addToLog, h.logs, List.replicate_succ']
  have hnext : ((addToLog s 0 touching).logs 0)[i]? = some touching := by
    rw [hlog]
    simp
  have hS := reach_merge (h.reach.step (e := .client 0 touching) trivial rfl) hnext h.merged
  set S := addToMerge (addToLog s 0 touching) 0 0 touching with hSdef
  have hmerges : S.merges 0 = List.replicate (i + 1) touching := by
    simp [hSdef, addToMerge, addToLog, h.merges, List.replicate_succ']
  have hstream : stream twoReplicas S 0 = List.replicate (i + 1) parsedTouching := by
    show LowlatencySequencer.subbatch _ (S.merges 0) _ = _
    rw [hmerges, LowlatencySequencer.subbatch, List.filter_replicate_of_pos (by decide),
      List.map_replicate]
  have htxn : txnAt twoReplicas S 0 i = parsedTouching := by simp [txnAt, hstream]
  have hone : OneRecord (nodeConfig twoReplicas 0) (txnAt twoReplicas S 0 i) [48] 0 := by
    rw [htxn]
    exact oneRecord_parsedTouching
  have hr : (txnAt twoReplicas S 0 i).remasterTxn = false := by rw [htxn]; rfl
  have hclient : (txnAt twoReplicas S 0 i).clientReplica = 1 := by rw [htxn]; rfl
  have hentries : (txnAt twoReplicas S 0 i).readWriteSet = [⟨[48], 0, 0⟩] := by rw [htxn]; rfl
  -- the transaction gets its lock
  obtain ⟨n₁, n₂, n₃, hparse, hverify, hroute, hn⟩ := h.node.verified hone hr
    (by rw [htxn]; rfl) (by rw [h.store])
  obtain ⟨n₄, hdispatch, hn⟩ := hn.dispatch
  obtain ⟨n₅, hstart, hn, hsm⟩ := hn.start hone
  have hlt : (S.nodes 0).next < (stream twoReplicas S 0).length := by
    rw [hstream, List.length_replicate]
    exact Nat.lt_succ_of_le (Nat.le_of_eq h.node.next)
  have hS := reach_parse hS hlt hparse
  have hS := reach_node .verify (fun _ => rfl) hS hverify
  have hS := reach_node .route (fun _ => rfl) hS hroute
  have hS := reach_node .dispatch (fun _ => rfl) hS hdispatch
  have hS := reach_start hS hstart
  -- a worker executes it
  have hrun := hn.run (fun _ _ _ => []) 0 0 hone hsm (by rw [h.store, htxn]; rfl)
    (by rw [h.store]) (if_neg (by simp [DeterministicScheduler.txnOf, hr]))
  have haccess := executeAccess_touching
    (DeterministicScheduler.txnOf (txnAt twoReplicas S 0) n₅ i)
    (oneManager (nodeConfig twoReplicas 0) (s.nodes 0).store (txnAt twoReplicas S 0 i) [48] 0)
    (s.access 0) hentries hclient hr (oneManager_lookup _ _ _ _ _) h.store
    (by rw [h.access, ha])
  rw [← hn.store] at haccess
  have hS := reach_run hS hsm hrun (update_self _ _ _) (by rw [hclient]; decide) haccess
  obtain ⟨n₆, hdone, hidle, hstore⟩ := hn.handleDone hone hr
  have hS := reach_node .handleDone (fun _ => rfl) hS hdone
  have hnode : (setNode S 0 n₆).nodes 0 = n₆ := by simp [setNode]
  refine ⟨_, hS, ?_, ?_, ?_, hlog, hmerges, ?_, h.network, ?_, ?_⟩
  · exact hnode ▸ hidle
  · show ((setNode S 0 n₆).nodes 0).store [48] = _
    rw [hnode, hstore]
    simp [writeValues, h.store]
  · simp [setNode, send, h.access]
  · simp [setNode, send, hSdef, addToMerge, addToLog, h.merged]
  · simp [setNode, send, hSdef, addToMerge, addToLog, h.forwords, h.access]
  · simp [setNode, send, hSdef, addToMerge, addToLog, h.created, h.access]

theorem touched_touches {i : Nat} (hi : i ≤ 9000) : ∃ s, Touched s i (touches i) [] := by
  induction i with
  | zero => exact ⟨_, touched_init⟩
  | succ i ih =>
      obtain ⟨s, h⟩ := ih (Nat.le_of_succ_le hi)
      obtain ⟨t, ht⟩ := h.round rfl
      rw [touch_touches (Nat.le_of_succ_le hi), decide_eq_false (by omega)] at ht
      exact ⟨t, ht⟩

/-- The remaster transaction in the log of replica 0. -/
abbrev sentRemaster : TxnProto := newRemaster 0 1 11 [48] ⟨[], 0, 0⟩

theorem oneRecord_remaster : OneRecord (nodeConfig twoReplicas 0)
    (LowlatencySequencer.withReaders (nodeConfig twoReplicas 0) sentRemaster) [48] 0 :=
  ⟨rfl, rfl, rfl, by decide⟩

theorem execute_sentRemaster {compute : Compute} {txn : TxnProto} {sm : StorageManager}
    {store : Key → Record} (hentries : txn.readWriteSet = [⟨[48], 0, 0⟩])
    (hr : txn.remasterTxn = true) (hto : txn.remasterTo = 1)
    (hsm : sm.objects.lookup [48] = some .stored) (hstore : store [48] = ⟨[], 0, 0⟩) :
    execute compute txn sm store = some (update store [48] ⟨[], 1, 1⟩) := by
  simp [execute, hr, remaster, hentries, StorageManager.readObject, hsm, hstore, hto]

/-- The remaster transaction that has been sent is executed. -/
theorem Touched.remaster {s : Replicas} {i : Nat} {a : Access} (h : Touched s i a [sentRemaster]) :
    ∃ t, noValues.Reach (InRange twoReplicas) t ∧ t.created = [sentRemaster] ∧
      records twoReplicas t 0 [48] = ⟨[], 1, 1⟩ := by
  have hgot : noValues.next s (.gotForword 0) =
      some (addToLog { s with forwords := [] } 0 sentRemaster) := by
    show (s.forwords[0]?.map _) = _
    rw [h.forwords]
    simp [receiveForword, replicaOf]
    rfl
  have hlog : (addToLog { s with forwords := [] } 0 sentRemaster).logs 0 =
      List.replicate i touching ++ [sentRemaster] := by
    simp [addToLog, h.logs]
  have hnext : ((addToLog { s with forwords := [] } 0 sentRemaster).logs 0)[i]? =
      some sentRemaster := by
    rw [hlog]
    simp
  have hS := reach_merge (h.reach.step (e := .gotForword 0) trivial hgot) hnext h.merged
  set S := addToMerge (addToLog { s with forwords := [] } 0 sentRemaster) 0 0 sentRemaster
    with hSdef
  have hmerges : S.merges 0 = List.replicate i touching ++ [sentRemaster] := by
    simp [hSdef, addToMerge, addToLog, h.merges]
  have hstream : stream twoReplicas S 0 = List.replicate i parsedTouching ++
      [LowlatencySequencer.withReaders (nodeConfig twoReplicas 0) sentRemaster] := by
    show LowlatencySequencer.subbatch _ (S.merges 0) _ = _
    rw [hmerges, LowlatencySequencer.subbatch, List.filter_append,
      List.filter_replicate_of_pos (by decide), List.map_append, List.map_replicate]
    rfl
  have htxn : txnAt twoReplicas S 0 i =
      LowlatencySequencer.withReaders (nodeConfig twoReplicas 0) sentRemaster := by
    simp [txnAt, hstream]
  have hone : OneRecord (nodeConfig twoReplicas 0) (txnAt twoReplicas S 0 i) [48] 0 := by
    rw [htxn]
    exact oneRecord_remaster
  have hr : (txnAt twoReplicas S 0 i).remasterTxn = true := by rw [htxn]; rfl
  have hentries : (txnAt twoReplicas S 0 i).readWriteSet = [⟨[48], 0, 0⟩] := by rw [htxn]; rfl
  -- the transaction gets its lock
  obtain ⟨n₁, hparse, hn⟩ := h.node.parsed hone hr (by rw [htxn]; rfl)
  obtain ⟨n₂, hdispatch, hn⟩ := hn.dispatch
  obtain ⟨n₃, hstart, hn, hsm⟩ := hn.start hone
  have hlt : (S.nodes 0).next < (stream twoReplicas S 0).length := by
    rw [hstream, List.length_append, List.length_replicate]
    exact Nat.lt_succ_of_le (Nat.le_of_eq h.node.next)
  have hS := reach_parse hS hlt hparse
  have hS := reach_node .dispatch (fun _ => rfl) hS hdispatch
  have hS := reach_start hS hstart
  -- a worker executes it
  have hto : (txnAt twoReplicas S 0 i).remasterTo = 1 := by rw [htxn]; rfl
  have hexecute : execute (fun _ _ _ => [])
      (DeterministicScheduler.txnOf (txnAt twoReplicas S 0) n₃ i)
      (oneManager (nodeConfig twoReplicas 0) (s.nodes 0).store (txnAt twoReplicas S 0 i) [48] 0)
      (s.nodes 0).store = some (update (s.nodes 0).store [48] ⟨[], 1, 1⟩) :=
    execute_sentRemaster hentries hr hto (oneManager_lookup _ _ _ _ _) h.store
  have hrun := hn.run _ 0 0 hone hsm (by rw [h.store, htxn]; rfl) (by rw [h.store]) hexecute
  have hhead : (DeterministicScheduler.txnOf (txnAt twoReplicas S 0) n₃ i).readWriteSet.head? =
      some ⟨[48], 0, 0⟩ := congrArg List.head? hentries
  have hr' : (DeterministicScheduler.txnOf (txnAt twoReplicas S 0) n₃ i).remasterTxn = true := hr
  have hnone := (executeAccess_remaster 0 2 (fun _ => 11) (fun _ => {})
    (oneManager (nodeConfig twoReplicas 0) (s.nodes 0).store (txnAt twoReplicas S 0 i) [48] 0)
    n₃.store (S.access 0) hr' hhead).1
  generalize hres : executeAccess 0 2 _ _ _ _ _ _ = res at hnone
  obtain ⟨access, sent⟩ := res
  obtain rfl : sent = [] := hnone
  have hS := reach_run hS hsm hrun (update_self _ _ _) (by rw [htxn]; decide) hres
  refine ⟨_, hS, ?_, ?_⟩
  · show s.created ++ [] ++ [] = _
    rw [h.created]
    rfl
  · have hmachine : twoReplicas.lookupMachineId (twoReplicas.lookupPartition [48]) 0 = 0 := by
      decide
    rw [records, hmachine]
    simp [setNode, DeterministicScheduler.finish]

theorem mastership_remastered : ∃ s, s.created = [sentRemaster] ∧
    records twoReplicas s 0 [48] = ⟨[], 1, 1⟩ ∧
    (∀ k c, s.created.countP (remasters k c) ≤ 1) ∧
    ∀ k r r', (records twoReplicas s r k).counter = (records twoReplicas s r' k).counter →
      (records twoReplicas s r k).master = (records twoReplicas s r' k).master := by
  obtain ⟨s, hs⟩ := touched_touches (Nat.le_refl 9000)
  -- one more touch, and the remaster is sent
  obtain ⟨t, ht⟩ := hs.round rfl
  rw [touch_touches (Nat.le_refl 9000)] at ht
  obtain ⟨u, hu, hcreated, hrecord⟩ := ht.remaster
  exact ⟨u, hcreated, hrecord, mastership _ _ _ _ hu⟩

/-- Six replicas of two partitions. A client of replica 5 writes a record of each
partition; `access_pattern[5]` is memory behind the records, and both the record of
the first partition and its copy at the second one are found to be touched often. -/
theorem remastered_twice : ¬ ∀ (cfg : ClusterConfig) (compute : Compute)
    (value : Nat → Key → Value) (unset : Nat → Key → Unset) (s : Replicas),
    (machine cfg compute value unset).Reachable s →
      ∀ k c, s.created.countP (remasters k c) ≤ 1 := by
  intro hunique
  let txn : TxnProto :=
    { txnId := 7, readWriteSet := [⟨[48], 0, 0⟩, ⟨[49], 0, 0⟩], clientReplica := 5,
      involvedReplicas := [0] }
  let cfg : ClusterConfig := { nodesPerReplica := 2, replicasSize := 6 }
  let unset : Key → Unset := fun _ => { behind := fun _ => 9000 }
  obtain ⟨s, hs, htwo⟩ := Machine.exists_of_trace
    (m := machine cfg (fun _ _ _ => []) (fun _ _ => []) fun _ => unset)
    (P := fun s => s.created.countP (remasters [48] 0) = 2)
    [.client 0 txn, .merge 0 0, .node 0 .parse, .node 0 .verify, .node 0 .verify, .node 0 .route,
      .node 0 .dispatch, .start 0, .node 1 .parse, .node 1 .verify, .node 1 .verify,
      .node 1 .route, .node 1 .dispatch, .start 1, .deliver 0 0 1, .deliver 1 0 0,
      .run 0 0 0 0 (fun i => 11 + i) unset, .run 1 0 0 0 (fun i => 21 + i) unset]
    (by decide)
  have hone := hunique _ _ _ _ s hs [48] 0
  omega

end Calvin.Replicas
