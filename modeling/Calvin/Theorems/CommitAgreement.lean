import Calvin.Scheduler.ReplicaSpec
import Calvin.Scheduler.Snapshots

/-!
# Commit or abort

In mode 2 the participants of a transaction in a replica decide for themselves:
by their mark, by what they have read, or by what the others have read. They all
decide by the same records, the ones each participant has found for its own
entries when its manager was created.

* `Verdict`: what these records say;
* `Exchanged`: the invariant; whoever decides follows the verdict;
* `same_decision`: the participants of a transaction decide the same, as long as
  each `READ_RESULT` is handed to a transaction of the only id with its channel;
* `decisions_differ`: without this condition they need not, even if the messages between
  two nodes arrive in the order they were sent.
-/

namespace Calvin.Replica

open Function Lib DeterministicScheduler StorageManager

/-- Transactions with distinct keys, in one copy for each origin. -/
structure Copies (merge : List TxnProto) : Prop where
  client : ∀ a ∈ merge, ∀ b ∈ merge, a.txnId = b.txnId → a.client = b.client
  single : (merge.filter fun txn => txn.fakeTxn = false).Pairwise fun a b =>
    a.txnId = b.txnId → a.originReplica ≠ b.originReplica
  distinctKeys : ∀ txn ∈ merge, txn.client.keys.Nodup
  new : ∀ txn ∈ merge, txn.status ≠ .abortedWithoutLock

/-- A transaction has records of this origin at the node. -/
def HasPart (cfg : ClusterConfig) (m origin : Nat) (txn : TxnProto) : Prop :=
  ∃ entry ∈ txn.client.entries, cfg.lookupPartition entry.key = m ∧ entry.master = origin

instance (cfg : ClusterConfig) (m origin : Nat) (txn : TxnProto) :
    Decidable (HasPart cfg m origin txn) :=
  inferInstanceAs (Decidable (∃ _ ∈ _, _))

/-- A message is handed to a transaction of the only id that has records of its
origin at the node and the name of its channel. -/
def OneId (cfg : ClusterConfig) (merge : List TxnProto) : Replica → Event → Prop
  | _, .deliver m p _ =>
      ∀ txn ∈ merge, txn.fakeTxn = false →
        HasPart cfg m (txnAt cfg merge m p).originReplica txn →
        txn.txnId % UInt32.size = (txnAt cfg merge m p).txnId % UInt32.size →
        txn.txnId = (txnAt cfg merge m p).txnId
  | _, _ => True

instance (cfg : ClusterConfig) (merge : List TxnProto) (s : Replica) (e : Event) :
    Decidable (OneId cfg merge s e) := by
  cases e with
  | deliver m p i => exact inferInstanceAs (Decidable (∀ txn ∈ merge, _ → _ → _ → _))
  | node m e => exact inferInstanceAs (Decidable True)
  | start m => exact inferInstanceAs (Decidable True)

/-- What `CheckCommitOrAbort` answers at a participant that is ready, or has
answered at one that is finished. -/
def decided (cfg : ClusterConfig) (merge : List TxnProto) (s : Replica) (m : Nat) (p : Ptr) :
    Option Bool :=
  let node := s.nodes m
  match node.managers p with
  | some sm =>
      if sm.readyToExecute (txnAt cfg merge m p) then
        (sm.decision node.store (txnOf (txnAt cfg merge m) node p)).map Prod.fst
      else none
  | none =>
      if p ∈ node.doneQueue ∨ p ∈ node.deleted then some (node.status p = .committed) else none

/-- History: the records the participants have found when their managers were
created. -/
def found (seen : Nat → Ptr → Key → Record) (s : Replica) : Event → Nat → Ptr → Key → Record
  | .node m e => update seen m (taken (seen m) (s.nodes m) e)
  | .start m => update seen m (taken (seen m) (s.nodes m) .start)
  | .deliver _ _ _ => seen

section

variable {cfg : ClusterConfig} {merge : List TxnProto} {compute : Compute} {init : Key → Record}
  {seen seen' : Nat → Ptr → Key → Record} {s s' : Replica} {m m' : Nat} {p q : Ptr}

/-! ## The participants of a transaction -/

namespace Copies

theorem txnAt_keys (hm : Copies merge) (cfg : ClusterConfig) (m : Nat) (p : Ptr) :
    (txnAt cfg merge m p).client.keys.Nodup := by
  by_cases hp : p < (stream cfg merge m).length
  · obtain ⟨c, hc, -, -, heq⟩ := txnAt_mem hp
    rw [heq]
    exact hm.distinctKeys c hc
  · rw [txnAt_of_ge hp]
    exact List.nodup_nil

theorem txnAt_new (hm : Copies merge) (cfg : ClusterConfig) (m : Nat) (p : Ptr) :
    (txnAt cfg merge m p).status ≠ .abortedWithoutLock := by
  by_cases hp : p < (stream cfg merge m).length
  · obtain ⟨c, hc, -, -, heq⟩ := txnAt_mem hp
    rw [heq]
    exact hm.new c hc
  · rw [txnAt_of_ge hp]
    decide

/-- Participants of one id are copies of one client transaction. -/
theorem client_eq (hm : Copies merge) (hp : p < (stream cfg merge m).length) {txn : TxnProto}
    (htxn : txn ∈ merge) (hid : txn.txnId = (txnAt cfg merge m p).txnId) :
    txn.client = (txnAt cfg merge m p).client := by
  obtain ⟨c, hc, -, -, heq⟩ := txnAt_mem hp
  rw [heq] at hid ⊢
  exact hm.client txn htxn c hc hid

/-- So are participants of one id. -/
theorem ptr_client (hm : Copies merge) (hp : p < (stream cfg merge m).length)
    (hq : q < (stream cfg merge m').length)
    (hid : (txnAt cfg merge m p).txnId = (txnAt cfg merge m' q).txnId) :
    (txnAt cfg merge m p).client = (txnAt cfg merge m' q).client := by
  obtain ⟨c, hc, -, -, heq⟩ := txnAt_mem hp
  have hclient : c.client = (txnAt cfg merge m' q).client :=
    hm.client_eq hq hc (by rw [heq] at hid; exact hid)
  rw [heq]
  exact hclient

/-- A node has one copy of each origin. -/
theorem ptr_unique (hm : Copies merge) (hp : p < (stream cfg merge m).length)
    (hq : q < (stream cfg merge m).length)
    (hid : (txnAt cfg merge m p).txnId = (txnAt cfg merge m q).txnId)
    (horigin : (txnAt cfg merge m p).originReplica = (txnAt cfg merge m q).originReplica) :
    p = q := by
  have hpairs : ∀ {i j : Ptr}, j < (stream cfg merge m).length → i < j →
      (txnAt cfg merge m i).txnId = (txnAt cfg merge m j).txnId →
      (txnAt cfg merge m i).originReplica ≠ (txnAt cfg merge m j).originReplica := fun hj hij =>
    txnAt_pairwise (R := fun a b => a.txnId = b.txnId → a.originReplica ≠ b.originReplica)
      hm.single hj hij
  rcases Nat.lt_trichotomy p q with hlt | heq | hgt
  · exact absurd horigin (hpairs hq hlt hid)
  · exact heq
  · exact absurd horigin.symm (hpairs hp hgt hid.symm)

end Copies

/-- A participant has an entry of its own. -/
theorem exists_own (hp : p < (stream cfg merge m).length) :
    ∃ entry ∈ (txnAt cfg merge m p).client.entries,
      Own (nodeConfig cfg m) (txnAt cfg merge m p).originReplica entry := by
  obtain ⟨c, -, -, hread, heq⟩ := txnAt_mem hp
  obtain ⟨entry, he, hmaster, hpart⟩ := LowlatencySequencer.mem_partitions.mp hread
  rw [heq]
  exact ⟨entry, he, hmaster, hpart⟩

/-! ## The verdict -/

/-- The participant of a transaction that reads the record of an entry has found
it with this value. -/
def Seen (cfg : ClusterConfig) (merge : List TxnProto) (seen : Nat → Ptr → Key → Record)
    (s : Replica) (txnId : Nat) (entry : KeyEntry) (val : Record) : Prop :=
  ∃ q, Opened (s.nodes (cfg.lookupPartition entry.key)) q ∧
    (txnAt cfg merge (cfg.lookupPartition entry.key) q).txnId = txnId ∧
    (txnAt cfg merge (cfg.lookupPartition entry.key) q).originReplica = entry.master ∧
    seen (cfg.lookupPartition entry.key) q entry.key = val

/-- What the records say that the participants have found. -/
def Verdict (cfg : ClusterConfig) (merge : List TxnProto) (seen : Nat → Ptr → Key → Record)
    (s : Replica) (txn : TxnProto) : Bool → Prop
  | true => ∀ entry ∈ txn.client.entries, ∃ val,
      Seen cfg merge seen s txn.txnId entry val ∧ upToDate val entry = true
  | false => ∃ entry ∈ txn.client.entries, ∃ val,
      Seen cfg merge seen s txn.txnId entry val ∧ upToDate val entry = false

/-- A message holds what its sender has found, and goes to a participant of the
same transaction. -/
def Sent (cfg : ClusterConfig) (merge : List TxnProto) (seen : Nat → Ptr → Key → Record)
    (s : Replica) (msg : ReadResult) : Prop :=
  ∃ txn ∈ merge, txn.fakeTxn = false ∧ ∃ entry ∈ txn.client.entries,
    msg.destinationChannel = channelOf txn.txnId entry.master ∧
    msg.destinationNode =
      cfg.lookupMachineId (cfg.lookupPartition entry.key) cfg.localReplicaId ∧
    ∀ x ∈ msg.entries, ∃ e ∈ txn.client.entries, e.key = x.1 ∧
      Seen cfg merge seen s txn.txnId e x.2

structure Exchanged (cfg : ClusterConfig) (merge : List TxnProto)
    (seen : Nat → Ptr → Key → Record) (s : Replica) : Prop where
  node : ∀ m, Snapshots (nodeConfig cfg m) (txnAt cfg merge m) (seen m) (s.nodes m)
  bounded : ∀ m, Bounded (stream cfg merge m).length (s.nodes m)
  network : ∀ msg ∈ s.network, Sent cfg merge seen s msg
  /-- What a participant has received was found by others. -/
  copied : ∀ m p sm, (s.nodes m).managers p = some sm → ∀ k val,
    sm.objects.lookup k = some (.copied val) → ∃ e ∈ (txnAt cfg merge m p).client.entries,
      e.key = k ∧ Seen cfg merge seen s (txnAt cfg merge m p).txnId e val
  verdict : ∀ m p, Executed (s.nodes m) p → Verdict cfg merge seen s (txnAt cfg merge m p)
    (decide ((s.nodes m).status p = .committed))

theorem exchanged_init (hm : Copies merge) (seen : Nat → Ptr → Key → Record) :
    Exchanged cfg merge seen (machine cfg 2 merge compute init).init where
  node m := snapshots_init (hm.txnAt_new cfg m) init (seen m)
  bounded m := ⟨Nat.zero_le _, fun h => absurd h Bool.false_ne_true⟩
  network msg h := absurd h List.not_mem_nil
  copied m p sm h := by cases h
  verdict m p h := by
    rcases h with h | h
    · exact absurd h List.not_mem_nil
    · exact absurd h List.not_mem_nil

/-- What has been found stays found. -/
theorem Seen.mono {txnId : Nat} {entry : KeyEntry} {val : Record}
    (h : Seen cfg merge seen s txnId entry val)
    (hopened : ∀ m p, Opened (s.nodes m) p → Opened (s'.nodes m) p ∧ seen' m p = seen m p) :
    Seen cfg merge seen' s' txnId entry val := by
  obtain ⟨q, hq, hid, hmaster, hval⟩ := h
  obtain ⟨hq', hsame⟩ := hopened _ q hq
  exact ⟨q, hq', hid, hmaster, by rw [hsame]; exact hval⟩

theorem Sent.mono {msg : ReadResult} (h : Sent cfg merge seen s msg)
    (hopened : ∀ m p, Opened (s.nodes m) p → Opened (s'.nodes m) p ∧ seen' m p = seen m p) :
    Sent cfg merge seen' s' msg := by
  obtain ⟨txn, htxn, hfake, entry, he, hchannel, hnode, hentries⟩ := h
  refine ⟨txn, htxn, hfake, entry, he, hchannel, hnode, fun x hx => ?_⟩
  obtain ⟨e, hmem, hkey, hseen⟩ := hentries x hx
  exact ⟨e, hmem, hkey, hseen.mono hopened⟩

theorem Verdict.mono {txn : TxnProto} {commit : Bool}
    (h : Verdict cfg merge seen s txn commit)
    (hopened : ∀ m p, Opened (s.nodes m) p → Opened (s'.nodes m) p ∧ seen' m p = seen m p) :
    Verdict cfg merge seen' s' txn commit := by
  cases commit with
  | true =>
      intro entry he
      obtain ⟨val, hseen, hup⟩ := h entry he
      exact ⟨val, hseen.mono hopened, hup⟩
  | false =>
      obtain ⟨entry, he, val, hseen, hup⟩ := h
      exact ⟨entry, he, val, hseen.mono hopened, hup⟩

namespace Exchanged

theorem opened_lt (hi : Exchanged cfg merge seen s) (h : Opened (s.nodes m) p) :
    p < (stream cfg merge m).length :=
  Nat.lt_of_lt_of_le (h.lt_next (hi.node m).life) (hi.bounded m).1

/-- An entry is read by one participant. -/
theorem seen_unique (hm : Copies merge) (hi : Exchanged cfg merge seen s) {txnId : Nat}
    {entry : KeyEntry} {val val' : Record} (h : Seen cfg merge seen s txnId entry val)
    (h' : Seen cfg merge seen s txnId entry val') : val = val' := by
  obtain ⟨q, hq, hid, hmaster, rfl⟩ := h
  obtain ⟨q', hq', hid', hmaster', rfl⟩ := h'
  have heq := hm.ptr_unique (hi.opened_lt hq) (hi.opened_lt hq') (hid.trans hid'.symm)
    (hmaster.trans hmaster'.symm)
  rw [heq]

/-- There is at most one verdict on a transaction. -/
theorem verdict_unique (hm : Copies merge) (hi : Exchanged cfg merge seen s)
    {txn txn' : TxnProto} {commit commit' : Bool} (hid : txn.txnId = txn'.txnId)
    (hclient : txn.client = txn'.client) (h : Verdict cfg merge seen s txn commit)
    (h' : Verdict cfg merge seen s txn' commit') : commit = commit' := by
  have hdiffer : ∀ {a b : TxnProto}, a.txnId = b.txnId → a.client = b.client →
      Verdict cfg merge seen s a true → ¬ Verdict cfg merge seen s b false := by
    intro a b hid hclient htrue hfalse
    obtain ⟨entry, he, val, hseen, hstale⟩ := hfalse
    obtain ⟨val', hseen', hup⟩ := htrue entry (by rw [hclient]; exact he)
    rw [hid] at hseen'
    rw [hi.seen_unique hm hseen hseen', hup] at hstale
    cases hstale
  cases commit with
  | true =>
      cases commit' with
      | true => rfl
      | false => exact absurd h' (hdiffer hid hclient h)
  | false =>
      cases commit' with
      | true => exact absurd h (hdiffer hid.symm hclient.symm h')
      | false => rfl

/-- A participant has found the records of its own entries. -/
theorem seen_own (h : Opened (s.nodes m) p) {entry : KeyEntry}
    (hown : Own (nodeConfig cfg m) (txnAt cfg merge m p).originReplica entry) :
    Seen cfg merge seen s (txnAt cfg merge m p).txnId entry (seen m p entry.key) := by
  obtain ⟨hmaster, hpart⟩ := hown
  have hpart' : cfg.lookupPartition entry.key = m := hpart
  subst hpart'
  exact ⟨p, h, rfl, hmaster.symm, rfl⟩

/-- What a participant checks for an entry is what has been found for it. -/
theorem seen_object (hm : Copies merge) (hi : Exchanged cfg merge seen s) {sm : StorageManager}
    (hsm : (s.nodes m).managers p = some sm) (hs : (s.nodes m).status p ≠ .abortedWithoutLock)
    {entry : KeyEntry} (he : entry ∈ (txnAt cfg merge m p).client.entries) {val : Record}
    (hval : sm.readObject (s.nodes m).store entry.key = some val) :
    ∃ val', Seen cfg merge seen s (txnAt cfg merge m p).txnId entry val' ∧
      upToDate val' entry = upToDate val entry := by
  have hpart := (hi.node m).participant p sm hsm
  have hkeys := hm.txnAt_keys cfg m p
  rw [readObject, Option.map_eq_some_iff] at hval
  obtain ⟨o, ho, rfl⟩ := hval
  cases o with
  | stored =>
      obtain ⟨e, hmem, hkey, hown⟩ := hpart.stored _ ho
      obtain rfl := List.inj_on_of_nodup_map hkeys hmem he hkey
      refine ⟨_, seen_own (.inl (by rw [hsm]; rfl)) hown, ?_⟩
      -- its locks have kept the record
      obtain ⟨hmaster, hcounter⟩ := hpart.kept hs e he hown
      simp only [upToDate, hmaster, hcounter]
  | copied val =>
      obtain ⟨e, hmem, hkey, hseen⟩ := hi.copied m p sm hsm _ _ ho
      obtain rfl := List.inj_on_of_nodup_map hkeys hmem he hkey
      exact ⟨val, hseen, rfl⟩

/-- Whoever decides follows the verdict. -/
theorem decision_verdict (hm : Copies merge) (hi : Exchanged cfg merge seen s)
    {sm : StorageManager} (hsm : (s.nodes m).managers p = some sm) {commit : Bool}
    {status : Status} (h : sm.decision (s.nodes m).store
      (txnOf (txnAt cfg merge m) (s.nodes m) p) = some (commit, status)) :
    Verdict cfg merge seen s (txnAt cfg merge m p) commit := by
  have hopened : Opened (s.nodes m) p := .inl (by rw [hsm]; rfl)
  have hpart := (hi.node m).participant p sm hsm
  rcases decision_cases h with ⟨hs, rfl⟩ | ⟨hcommit, rfl⟩ | ⟨hs, hcommit, ⟨halone, rfl⟩ | hcheck⟩
  · -- it was marked for an entry that was behind, and still is
    obtain ⟨entry, he, hown, hlt⟩ := hpart.marked hs
    exact ⟨entry, he, _, seen_own hopened hown,
      decide_eq_false fun h => absurd h.2 (Nat.ne_of_lt hlt)⟩
  · have hnot : ¬ ∀ entry ∈ (txnAt cfg merge m p).client.entries,
        Own (nodeConfig cfg m) (txnAt cfg merge m p).originReplica entry →
          upToDate (seen m p entry.key) entry = true := by
      intro hall
      rw [hpart.commit.mpr hall] at hcommit
      cases hcommit
    simp only [not_forall] at hnot
    obtain ⟨entry, he, hown, hstale⟩ := hnot
    exact ⟨entry, he, _, seen_own hopened hown, Bool.eq_false_of_not_eq_true hstale⟩
  · -- it is the only participant, so that all entries are its own
    intro entry he
    obtain ⟨e₀, he₀, hown₀⟩ := exists_own (hi.opened_lt hopened)
    obtain ⟨x, hx⟩ := List.length_eq_one_iff.mp halone
    have hhome : ∀ e ∈ (txnAt cfg merge m p).client.entries,
        home (nodeConfig cfg m) 2 (txnAt cfg merge m p).originReplica e = x := fun e he =>
      List.mem_singleton.mp (hx ▸ (hpart.involved _).mpr ⟨e, he, rfl⟩)
    have hown : Own (nodeConfig cfg m) (txnAt cfg merge m p).originReplica entry := by
      have hhere : home (nodeConfig cfg m) 2 (txnAt cfg merge m p).originReplica e₀ =
          here (nodeConfig cfg m) (txnAt cfg merge m p) :=
        (home_eq_here_iff_own (by decide)).mpr hown₀
      rw [hhome e₀ he₀, ← hhome entry he] at hhere
      exact (home_eq_here_iff_own (by decide)).mp hhere
    exact ⟨_, seen_own hopened hown, hpart.commit.mp hcommit entry he hown⟩
  · have hspec := checkEntries_spec _ hcheck
    cases commit with
    | true =>
        intro entry he
        obtain ⟨val, hval, hup⟩ := hspec entry he
        obtain ⟨val', hseen, heq⟩ := hi.seen_object hm hsm hs he hval
        exact ⟨val', hseen, heq.trans hup⟩
    | false =>
        obtain ⟨entry, he, val, hval, hstale⟩ := hspec
        obtain ⟨val', hseen, heq⟩ := hi.seen_object hm hsm hs he hval
        exact ⟨entry, he, val', hseen, heq.trans hstale⟩

/-! ## Steps -/

/-- A step of one node: what it has received and decided rests on what was found
before. -/
theorem setNode {node : Node} {found : Ptr → Key → Record} (network : List ReadResult)
    (hi : Exchanged cfg merge seen s)
    (hnode : Snapshots (nodeConfig cfg m) (txnAt cfg merge m) found node)
    (hbounded : Bounded (stream cfg merge m).length node)
    (hopened : ∀ p, Opened (s.nodes m) p → Opened node p ∧ found p = seen m p)
    (hcopied : ∀ p sm, node.managers p = some sm → ∀ k val,
      sm.objects.lookup k = some (.copied val) → ∃ e ∈ (txnAt cfg merge m p).client.entries,
        e.key = k ∧ Seen cfg merge seen s (txnAt cfg merge m p).txnId e val)
    (hverdict : ∀ p, Executed node p → Verdict cfg merge seen s (txnAt cfg merge m p)
      (decide (node.status p = .committed)))
    (hnetwork : ∀ msg ∈ network, msg ∈ s.network ∨ Sent cfg merge (update seen m found)
      { Replica.setNode s m node with network } msg) :
    Exchanged cfg merge (update seen m found) { Replica.setNode s m node with network } := by
  have hall : ∀ m' p, Opened (s.nodes m') p →
      Opened (update s.nodes m node m') p ∧ update seen m found m' p = seen m' p := by
    intro m' p hp
    by_cases h : m' = m
    · subst h
      rw [update_self, update_self]
      exact hopened p hp
    · rw [update_of_ne h, update_of_ne h]
      exact ⟨hp, rfl⟩
  refine ⟨fun m' => ?_, fun m' => ?_, fun msg hmsg => ?_, fun m' => ?_, fun m' => ?_⟩
  · by_cases h : m' = m
    · subst h
      simp only [Replica.setNode, update_self]
      exact hnode
    · simp only [Replica.setNode, update_of_ne h]
      exact hi.node m'
  · by_cases h : m' = m
    · subst h
      simp only [Replica.setNode, update_self]
      exact hbounded
    · simp only [Replica.setNode, update_of_ne h]
      exact hi.bounded m'
  · rcases hnetwork msg hmsg with hold | hnew
    · exact (hi.network msg hold).mono hall
    · exact hnew
  · intro p sm hsm k val hk
    have hold : ∃ e ∈ (txnAt cfg merge m' p).client.entries, e.key = k ∧
        Seen cfg merge seen s (txnAt cfg merge m' p).txnId e val := by
      change (update s.nodes m node m').managers p = some sm at hsm
      by_cases h : m' = m
      · subst h
        rw [update_self] at hsm
        exact hcopied p sm hsm k val hk
      · rw [update_of_ne h] at hsm
        exact hi.copied m' p sm hsm k val hk
    obtain ⟨e, he, hkey, hseen⟩ := hold
    exact ⟨e, he, hkey, hseen.mono hall⟩
  · intro p hp
    change Executed (update s.nodes m node m') p at hp
    show Verdict _ _ _ _ _ (decide ((update s.nodes m node m').status p = _))
    by_cases h : m' = m
    · subst h
      rw [update_self] at hp ⊢
      exact (hverdict p hp).mono hall
    · rw [update_of_ne h] at hp ⊢
      exact (hi.verdict m' p hp).mono hall

/-- What holds of the node after a step of it. -/
theorem node_step {node : Node} {e : DeterministicScheduler.Event} (hm : Copies merge)
    (hi : Exchanged cfg merge seen s)
    (hparse : e = .parse → (s.nodes m).next < (stream cfg merge m).length)
    (h : DeterministicScheduler.step (nodeConfig cfg m) 2 (txnAt cfg merge m) compute
      (s.nodes m) e =
      some node) :
    Snapshots (nodeConfig cfg m) (txnAt cfg merge m) (taken (seen m) (s.nodes m) e) node ∧
      Bounded (stream cfg merge m).length node ∧
      ∀ p, Opened (s.nodes m) p → Opened node p ∧ taken (seen m) (s.nodes m) e p = seen m p := by
  refine ⟨(hi.node m).step (hm.txnAt_keys cfg m) (fun p hp => ?_) h, (hi.bounded m).step hparse h,
    fun p hp => hp.step (hi.node m).life h⟩
  exact txnAt_readers (Nat.lt_of_lt_of_le hp (hi.bounded m).1)

/-- Steps in which nothing is received or decided. -/
theorem quiet {node : Node} {e : DeterministicScheduler.Event} (hm : Copies merge)
    (hi : Exchanged cfg merge seen s)
    (hparse : e = .parse → (s.nodes m).next < (stream cfg merge m).length)
    (h : DeterministicScheduler.step (nodeConfig cfg m) 2 (txnAt cfg merge m) compute
      (s.nodes m) e =
      some node)
    (hmanagers : node.managers = (s.nodes m).managers)
    (hexecuted : ∀ p, Executed node p →
      Executed (s.nodes m) p ∧ node.status p = (s.nodes m).status p) :
    Exchanged cfg merge (update seen m (taken (seen m) (s.nodes m) e))
      (Replica.setNode s m node) := by
  obtain ⟨hnode, hbounded, hopened⟩ := hi.node_step hm hparse h
  refine hi.setNode s.network hnode hbounded hopened ?_ (fun p hp => ?_) fun msg hmsg => .inl hmsg
  · rw [hmanagers]
    exact hi.copied m
  · obtain ⟨hold, hstatus⟩ := hexecuted p hp
    rw [hstatus]
    exact hi.verdict m p hold

/-- A participant decides. -/
theorem run {node : Node} {guid random : Nat} {forword : Option TxnForword} (hm : Copies merge)
    (hi : Exchanged cfg merge seen s)
    (h : DeterministicScheduler.run (nodeConfig cfg m) 2 (txnAt cfg merge m) compute (s.nodes m) p
      guid random = some (node, forword)) :
    Exchanged cfg merge (update seen m (taken (seen m) (s.nodes m) (.run p guid random)))
      (Replica.setNode s m node) := by
  have hstep : DeterministicScheduler.step (nodeConfig cfg m) 2 (txnAt cfg merge m) compute
      (s.nodes m) (.run p guid random) = some node := Option.map_eq_some_iff.mpr ⟨_, h, rfl⟩
  obtain ⟨hnode, hbounded, hopened⟩ := hi.node_step hm (fun h => by cases h) hstep
  obtain ⟨sm, hsm, -, hcases⟩ := run_check h
  -- the status says what was decided
  have hdecided : ∃ commit status store,
      sm.decision (s.nodes m).store (txnOf (txnAt cfg merge m) (s.nodes m) p) =
        some (commit, status) ∧
      ∃ status', decide (status' = Status.committed) = commit ∧
        node = finish { s.nodes m with store } p status' := by
    rcases hcases with ⟨store, -, -, hfinish, status, hdec⟩ | ⟨status, hcheck, hfinish⟩
    · exact ⟨true, status, store, hdec, .committed, rfl, hfinish⟩
    · exact ⟨false, status, (s.nodes m).store, checkCommitOrAbort_decision hcheck, status,
        decide_eq_false (checkCommitOrAbort_abort hcheck), hfinish⟩
  obtain ⟨commit, status, store, hdec, status', hstatus', rfl⟩ := hdecided
  refine hi.setNode s.network hnode hbounded hopened (fun p' sm' hsm' => ?_) (fun p' hp' => ?_)
    fun msg hmsg => .inl hmsg
  · change update (s.nodes m).managers p none p' = some sm' at hsm'
    by_cases hne : p' = p
    · rw [hne, update_self] at hsm'
      cases hsm'
    · rw [update_of_ne hne] at hsm'
      exact hi.copied m p' sm' hsm'
  · show Verdict _ _ _ _ _ (decide (update (s.nodes m).status p status' p' = _))
    by_cases hne : p' = p
    · subst hne
      rw [update_self, hstatus']
      exact hi.decision_verdict hm hsm hdec
    · rw [update_of_ne hne]
      refine hi.verdict m p' (hp'.imp_left fun hmem => ?_)
      exact (List.mem_append.mp hmem).resolve_right fun h => hne (List.mem_singleton.mp h)

/-- A manager is created; what it sends are the records it has found. -/
theorem start (compute : Compute) {node : Node} {sent : List ReadResult} (hm : Copies merge)
    (hi : Exchanged cfg merge seen s)
    (h : DeterministicScheduler.start (nodeConfig cfg m) 2 (txnAt cfg merge m) (s.nodes m) =
      some (node, sent)) :
    Exchanged cfg merge (update seen m (taken (seen m) (s.nodes m) .start))
      { Replica.setNode s m node with network := s.network ++ sent } := by
  have hstep : DeterministicScheduler.step (nodeConfig cfg m) 2 (txnAt cfg merge m) compute
      (s.nodes m) .start = some node := Option.map_eq_some_iff.mpr ⟨_, h, rfl⟩
  obtain ⟨hnode, hbounded, hopened⟩ := hi.node_step hm (fun h => by cases h) hstep
  obtain ⟨q, rest, hq, rfl, rfl⟩ := start_cases h
  have hlen : q < (stream cfg merge m).length := by
    refine Nat.lt_of_lt_of_le ((hi.node m).life.lt_next ?_) (hi.bounded m).1
    have := List.count_pos_iff.mpr (show q ∈ (s.nodes m).txnsQueue from hq ▸ List.mem_cons_self)
    unfold stages
    omega
  obtain ⟨hobjects, hsent⟩ := @StorageManager.create_spec (nodeConfig cfg m) 2
    (s.nodes m).store (txnOf (txnAt cfg merge m) (s.nodes m) q) (by decide) (txnAt_readers hlen)
  have hfound : taken (seen m) (s.nodes m) .start q = (s.nodes m).store := by
    simp only [taken, hq, update_self]
  refine hi.setNode _ hnode hbounded hopened (fun p sm hsm k val hk => ?_)
    (fun p hp => hi.verdict m p hp) fun msg hmsg => ?_
  · change update (s.nodes m).managers q _ p = some sm at hsm
    by_cases hp : p = q
    · subst hp
      rw [update_self] at hsm
      obtain rfl := Option.some.inj hsm
      obtain ⟨hstored, -⟩ := (hobjects k _).mp hk
      cases hstored
    · rw [update_of_ne hp] at hsm
      exact hi.copied m p sm hsm k val hk
  · rcases List.mem_append.mp hmsg with hmsg | hmsg
    · exact .inl hmsg
    · refine .inr ?_
      obtain ⟨hentries, entry, he, -, hchannel, hdestination⟩ := hsent msg hmsg
      obtain ⟨c, hc, hfake, -, heq⟩ := txnAt_mem hlen
      have hclient : c.client = (txnAt cfg merge m q).client := by
        rw [heq]
        rfl
      have hid : (txnAt cfg merge m q).txnId = c.txnId := by
        rw [heq]
        rfl
      refine ⟨c, hc, hfake, entry, by rw [hclient]; exact he, ?_, hdestination, fun x hx => ?_⟩
      · rw [hchannel, ← hid]
        rfl
      · obtain ⟨e, hmem, ⟨hmaster, hpart⟩, rfl⟩ := hentries x hx
        have hpart' : cfg.lookupPartition e.key = m := hpart
        subst hpart'
        refine ⟨e, by rw [hclient]; exact hmem, rfl, q, ?_, hid, hmaster.symm, ?_⟩
        · refine .inl ?_
          simp only [Replica.setNode, update_self, Option.isSome_some]
        · rw [update_self, hfound]

/-- A message reaches a participant of the transaction it is for. -/
theorem deliver (compute : Compute) {i : Nat} (hm : Copies merge) (hi : Exchanged cfg merge seen s)
    (hone : OneId cfg merge s (.deliver m p i)) (h : deliver cfg merge s m p i = some s') :
    Exchanged cfg merge seen s' := by
  rw [Replica.deliver, Option.bind_eq_some_iff] at h
  obtain ⟨msg, hmsg, h⟩ := h
  obtain ⟨⟨hdestination, hchannel⟩, h⟩ := Option.ite_none_right_eq_some.mp h
  obtain ⟨node, hread, rfl⟩ := Option.map_eq_some_iff.mp h
  have hstep : DeterministicScheduler.step (nodeConfig cfg m) 2 (txnAt cfg merge m) compute
      (s.nodes m) (.readResult p msg.entries) = some node := hread
  obtain ⟨hnode, hbounded, hopened⟩ := hi.node_step hm (fun h => by cases h) hstep
  obtain ⟨sm, hsm, -, rfl⟩ := readResult_cases hread
  have hlen : p < (stream cfg merge m).length := hi.opened_lt (.inl (by rw [hsm]; rfl))
  obtain ⟨txn, htxn, hfake, entry, he, hchannel', hdestination', hentries⟩ :=
    hi.network msg (List.mem_of_getElem? hmsg)
  -- the entry is one of the participant's own, so the ids are the same
  have hpart : cfg.lookupPartition entry.key = m :=
    Nat.add_left_cancel (hdestination'.symm.trans hdestination)
  obtain ⟨hname, horigin⟩ := Prod.mk.inj (hchannel'.symm.trans hchannel)
  have hid := hone txn htxn hfake ⟨entry, he, hpart, horigin⟩ hname
  have hclient := hm.client_eq hlen htxn hid
  -- nothing new has been found
  rw [← update_eq_self m seen]
  refine hi.setNode _ hnode hbounded hopened (fun q sm' hsm' k val hk => ?_)
    (fun q hq => hi.verdict m q hq) fun msg' hmsg' => .inl (List.mem_of_mem_eraseIdx hmsg')
  change update (s.nodes m).managers p _ q = some sm' at hsm'
  by_cases hq : q = p
  · subst hq
    rw [update_self] at hsm'
    obtain rfl := Option.some.inj hsm'
    rcases lookup_handleReadResult hk with ⟨x, hx, rfl, hval⟩ | hold
    · obtain ⟨e, hmem, hkey, hseen⟩ := hentries x hx
      cases hval
      rw [← hid, ← hclient]
      exact ⟨e, hmem, hkey, hseen⟩
    · exact hi.copied m q sm hsm k val hold
  · rw [update_of_ne hq] at hsm'
    exact hi.copied m q sm' hsm' k val hk

theorem nodeStep {e : DeterministicScheduler.Event} (hm : Copies merge)
    (hi : Exchanged cfg merge seen s) (h : nodeStep cfg 2 merge compute s m e = some s') :
    Exchanged cfg merge (update seen m (taken (seen m) (s.nodes m) e)) s' := by
  have hlife := (hi.node m).life
  unfold Replica.nodeStep at h
  cases e with
  | parse =>
      obtain ⟨hlt, h⟩ := Option.ite_none_right_eq_some.mp h
      obtain ⟨node, hstep, rfl⟩ := Option.map_eq_some_iff.mp h
      refine hi.quiet hm (fun _ => hlt) hstep ?_ fun p hp => ?_
      all_goals obtain ⟨-, ⟨-, -, rfl⟩ | rfl⟩ := parse_any hstep
      all_goals first | rfl | exact ⟨hp, rfl⟩
  | verify =>
      obtain ⟨node, hstep, rfl⟩ := Option.map_eq_some_iff.mp h
      have hstep' := hstep
      obtain ⟨entry, rest, v, -, rfl⟩ := verify_cases hstep
      exact hi.quiet hm (fun h => by cases h) hstep' rfl fun p hp => ⟨hp, rfl⟩
  | route =>
      obtain ⟨node, hstep, rfl⟩ := Option.map_eq_some_iff.mp h
      -- what is executed is not the next transaction
      have hne : ∀ p, Executed (s.nodes m) p → p ≠ (s.nodes m).next := by
        rintro p hp rfl
        exact Nat.lt_irrefl _ (Opened.lt_next (.inr hp) hlife)
      obtain ⟨v, -, hcases⟩ := route_locks hstep
      have hframe : node.managers = (s.nodes m).managers ∧
          node.status = marks (s.nodes m) v ∧ ∀ p, Executed node p → Executed (s.nodes m) p := by
        rcases hcases with ⟨waits, rfl⟩ | ⟨-, rfl⟩ | rfl
        all_goals exact ⟨rfl, rfl, fun p hp => hp⟩
      obtain ⟨hmanagers, hstatus, hexecuted⟩ := hframe
      refine hi.quiet hm (fun h => by cases h) hstep hmanagers fun p hp => ?_
      rw [hstatus]
      exact ⟨hexecuted p hp, marks_of_ne v (hne p (hexecuted p hp))⟩
  | dispatch =>
      obtain ⟨node, hstep, rfl⟩ := Option.map_eq_some_iff.mp h
      have hstep' := hstep
      obtain ⟨-, q, rest, -, rfl⟩ := dispatch_cases hstep
      exact hi.quiet hm (fun h => by cases h) hstep' rfl fun p hp => ⟨hp, rfl⟩
  | handleDone =>
      obtain ⟨node, hstep, rfl⟩ := Option.map_eq_some_iff.mp h
      have hstep' := hstep
      obtain ⟨-, q, rest, waits, ready, hq, -, lockManager, readyTxns, rfl⟩ :=
        handleDone_cases hstep
      refine hi.quiet hm (fun h => by cases h) hstep' rfl fun p hp => ⟨?_, rfl⟩
      rcases hp with hp | hp
      · exact .inl (hq ▸ List.mem_cons_of_mem _ hp)
      · rcases List.mem_cons.mp hp with rfl | hp
        · exact .inl (hq ▸ List.mem_cons_self)
        · exact .inr hp
  | start => cases h
  | readResult p entries => cases h
  | run p guid random =>
      obtain ⟨node, hstep, rfl⟩ := Option.map_eq_some_iff.mp h
      obtain ⟨⟨s₁, forword⟩, hrun, rfl⟩ := Option.map_eq_some_iff.mp hstep
      exact hi.run hm hrun

theorem next {e : Event} (hm : Copies merge) (hi : Exchanged cfg merge seen s)
    (hone : OneId cfg merge s e) (h : (machine cfg 2 merge compute init).next s e = some s') :
    Exchanged cfg merge (found seen s e) s' := by
  cases e with
  | node m e => exact hi.nodeStep hm h
  | start m =>
      obtain ⟨⟨node, sent⟩, hstart, rfl⟩ := Option.map_eq_some_iff.mp h
      exact hi.start compute hm hstart
  | deliver m p i => exact hi.deliver compute hm hone h

/-- The decision of a participant, made or to be made. -/
theorem decided_verdict (hm : Copies merge) (hi : Exchanged cfg merge seen s) {commit : Bool}
    (h : decided cfg merge s m p = some commit) :
    p < (stream cfg merge m).length ∧
      Verdict cfg merge seen s (txnAt cfg merge m p) commit := by
  unfold decided at h
  cases hsm : (s.nodes m).managers p with
  | some sm =>
      simp only [hsm] at h
      split at h
      case isTrue =>
          obtain ⟨⟨commit', status⟩, hdec, rfl⟩ := Option.map_eq_some_iff.mp h
          exact ⟨hi.opened_lt (.inl (by rw [hsm]; rfl)), hi.decision_verdict hm hsm hdec⟩
      case isFalse => cases h
  | none =>
      simp only [hsm] at h
      split at h
      case isTrue hexecuted =>
          obtain rfl := Option.some.inj h
          exact ⟨hi.opened_lt (.inr hexecuted), hi.verdict m p hexecuted⟩
      case isFalse => cases h

end Exchanged

theorem exchanged_of_reachable (hm : Copies merge)
    (h : (machine cfg 2 merge compute init).Reach (OneId cfg merge) s) :
    ∃ seen, Exchanged cfg merge seen s := by
  refine h.invariant (P := fun s => ∃ seen, Exchanged cfg merge seen s)
    ⟨fun _ _ => init, exchanged_init hm _⟩ fun s e s' _ hone hi hn => ?_
  obtain ⟨seen, hi⟩ := hi
  exact ⟨_, hi.next hm hone hn⟩


/-! ## The result -/

/-- The transaction that moves key `0` to replica 1. -/
def remasterOfZero : TxnProto :=
  { txnId := 1, readWriteSet := [⟨[48], 0, 0⟩], remasterTxn := true, remasterFrom := 0
    remasterTo := 1 }

/-- A transaction that writes key `0` and key `1`, before any remaster. -/
def staleAtZero (txnId : Nat) : TxnProto :=
  { txnId, readWriteSet := [⟨[48], 0, 0⟩, ⟨[49], 0, 0⟩] }

/-- In every run in which each `READ_RESULT` is handed to a transaction of the
only id with its channel, the participants of a transaction in a replica decide
the same. -/
theorem same_decision (cfg : ClusterConfig) (compute : Compute) (init : Key → Record)
    {merge : List TxnProto} {s : Replica} (hm : Copies merge)
    (h : (machine cfg 2 merge compute init).Reach (OneId cfg merge) s) {m m' : Nat} {p q : Ptr}
    (hid : (txnAt cfg merge m p).txnId = (txnAt cfg merge m' q).txnId) {commit commit' : Bool}
    (hp : decided cfg merge s m p = some commit) (hq : decided cfg merge s m' q = some commit') :
    commit = commit' := by
  obtain ⟨seen, hi⟩ := exchanged_of_reachable hm h
  obtain ⟨hlenp, hverdictp⟩ := hi.decided_verdict hm hp
  obtain ⟨hlenq, hverdictq⟩ := hi.decided_verdict hm hq
  exact hi.verdict_unique hm hid (hm.ptr_client hlenp hlenq hid) hverdictp hverdictq

end

/-- A transaction on key `0`, which has been remastered, and key `1`: partition 0
has marked it and aborts it without locks, partition 1 holds its lock, sees the
record of key `0` and aborts it as well. -/
theorem same_decision_marked :
    ∃ s : Replica, (s.nodes 0).status 1 = .abortedWithoutLock ∧ (s.nodes 1).status 0 = .new ∧
      decided { nodesPerReplica := 2 } [remasterOfZero, staleAtZero 7] s 1 0 = some false := by
  obtain ⟨s, hs, hmarked, hnew, hfirst, hsecond⟩ := Machine.exists_of_runIf
    (m := machine { nodesPerReplica := 2 } 2 [remasterOfZero, staleAtZero 7] (fun _ _ _ => [])
      fun _ => ⟨[], 0, 0⟩)
    (OneId { nodesPerReplica := 2 } [remasterOfZero, staleAtZero 7])
    (P := fun s => (s.nodes 0).status 1 = .abortedWithoutLock ∧ (s.nodes 1).status 0 = .new ∧
      decided { nodesPerReplica := 2 } [remasterOfZero, staleAtZero 7] s 0 1 = some false ∧
      (decided { nodesPerReplica := 2 } [remasterOfZero, staleAtZero 7] s 1 0).isSome = true)
    [.node 0 .parse, .node 0 .dispatch, .start 0, .node 0 (.run 0 0 0), .node 0 .handleDone,
      .node 0 .parse, .node 0 .verify, .node 0 .verify, .node 0 .route, .node 0 .dispatch, .start 0,
      .node 1 .parse, .node 1 .verify, .node 1 .verify, .node 1 .route, .node 1 .dispatch, .start 1,
      .deliver 0 1 1, .deliver 1 0 0]
    (by decide)
  have hm : Copies [remasterOfZero, staleAtZero 7] :=
    ⟨by decide, by decide, by decide, by decide⟩
  obtain ⟨commit, hcommit⟩ := Option.isSome_iff_exists.mp hsecond
  have hsame := same_decision _ _ _ hm hs (by decide) hcommit hfirst
  exact ⟨s, hmarked, hnew, hsame ▸ hcommit⟩

/-- Transaction 7 is stale at partition 0, where key `2` has been remastered twice. What
partition 1 gets first is what another transaction had read before: it was sent to a
copy that has the same channel there, but waits for a lock. -/
theorem decisions_differ :
    ¬ ∀ (cfg : ClusterConfig) (compute : Compute) (init : Key → Record) (merge : List TxnProto)
        (s : Replica), Copies merge → (machine cfg 2 merge compute init).Reachable s →
        ∀ m m' p q, (txnAt cfg merge m p).txnId = (txnAt cfg merge m' q).txnId →
          ∀ commit commit', decided cfg merge s m p = some commit →
            decided cfg merge s m' q = some commit' → commit = commit' := by
  intro hclaim
  let cfg : ClusterConfig := { nodesPerReplica := 2, replicasSize := 2 }
  let other : TxnProto :=
    { txnId := 7 + UInt32.size, readWriteSet := [⟨[50], 1, 0⟩, ⟨[49], 0, 0⟩] }
  let merge : List TxnProto :=
    [{ txnId := 3, readWriteSet := [⟨[49], 0, 0⟩] },
      { txnId := 4, readWriteSet := [⟨[50], 1, 0⟩], originReplica := 1, remasterTxn := true,
        remasterFrom := 1, remasterTo := 0 },
      { other with originReplica := 1 }, other,
      { txnId := 5, readWriteSet := [⟨[50], 0, 1⟩], remasterTxn := true, remasterFrom := 0,
        remasterTo := 1 },
      { txnId := 7, readWriteSet := [⟨[50], 0, 1⟩, ⟨[53], 0, 0⟩] }]
  obtain ⟨s, hs, hfirst, hsecond⟩ := Machine.exists_of_trace
    (m := machine cfg 2 merge (fun _ _ _ => []) fun k => ⟨[], cfg.lookupMaster k, 0⟩)
    (P := fun s => decided cfg merge s 0 3 = some false ∧ decided cfg merge s 1 2 = some true)
    -- partition 1: transaction 3 has the lock on key `1`
    [.node 1 .parse, .node 1 .verify, .node 1 .route, .node 1 .dispatch, .start 1,
      .node 1 .parse, .node 1 .verify, .node 1 .verify, .node 1 .route,
      -- partition 0 remasters key `2`, and reads it for the stale transaction
      .node 0 .parse, .node 0 .dispatch, .start 0, .node 0 (.run 0 0 0), .node 0 .handleDone,
      .node 0 .parse, .node 0 .verify, .node 0 .verify, .node 0 .route, .node 0 .dispatch, .start 0,
      .node 0 .parse, .node 0 .dispatch, .start 0, .node 0 (.run 2 0 0), .node 0 .handleDone,
      -- transaction 7 at both partitions; the messages come in the order they were sent
      .node 0 .parse, .node 0 .verify, .node 0 .verify, .node 0 .route, .node 0 .dispatch, .start 0,
      .node 1 .parse, .node 1 .verify, .node 1 .verify, .node 1 .route, .node 1 .dispatch, .start 1,
      .deliver 1 2 0, .deliver 0 3 1]
    (by decide +kernel)
  have hm : Copies merge := ⟨by decide, by decide, by decide, by decide⟩
  have h := hclaim _ _ _ _ s hm hs 0 1 3 2 (by decide) _ _ hfirst hsecond
  cases h

end Calvin.Replica
