import Mathlib.Data.Finset.Card
import Calvin.Applications.Execution
import Calvin.Theorems.LogDecisions
import Calvin.Theorems.OwnRecords

/-!
# No update is lost

In mode 2, with the computation of the applications: retries, remasters and copies
of remote records notwithstanding, each committed transaction changes each record it
writes once, and an aborted one changes none.

* `Committed`: the steps of a node that commit a transaction;
* `updaters`: the transactions that should have changed a record;
* `Applied`: the invariant, with `Applied.next`;
* `no_lost_update`: the result.
-/

namespace Calvin.Replica

open Function Lib DeterministicScheduler StorageManager

/-! ## Steps of a node -/

/-- A transaction that has been executed and committed. -/
def Committed (s : Node) (p : Ptr) : Prop := Executed s p ∧ s.status p = .committed

/-- Only a worker that ends a transaction commits one. -/
theorem step_committed {cfg : ClusterConfig} {txns : Ptr → TxnProto} {compute : Compute}
    {s s' : Node} {e : DeterministicScheduler.Event} (hlife : Lifecycle txns s)
    (hrun : ∀ p guid random, e ≠ .run p guid random)
    (h : DeterministicScheduler.step cfg 2 txns compute s e = some s') (q : Ptr) :
    Committed s' q ↔ Committed s q := by
  have hexecuted := (step_records hrun h).2 q
  -- the mark of the next transaction changes no status of one that is executed
  suffices hstatus : Executed s q → s'.status q = s.status q by
    constructor
    · rintro ⟨hq, hs⟩
      have hq := hexecuted.mp hq
      exact ⟨hq, (hstatus hq).symm.trans hs⟩
    · rintro ⟨hq, hs⟩
      exact ⟨hexecuted.mpr hq, (hstatus hq).trans hs⟩
  intro hq
  cases e with
  | parse =>
      obtain ⟨-, ⟨-, -, rfl⟩ | rfl⟩ := parse_any h
      all_goals rfl
  | verify =>
      obtain ⟨entry, rest, v, -, rfl⟩ := verify_cases h
      rfl
  | route =>
      have hne : q ≠ s.next := by
        rintro rfl
        exact Nat.lt_irrefl _ (Opened.lt_next (.inr hq) hlife)
      obtain ⟨v, -, ⟨waits, rfl⟩ | ⟨-, rfl⟩ | rfl⟩ := route_locks h
      all_goals exact marks_of_ne v hne
  | dispatch =>
      obtain ⟨-, p, rest, -, rfl⟩ := dispatch_cases h
      rfl
  | handleDone =>
      obtain ⟨-, p, rest, waits, ready, -, -, lockManager, readyTxns, rfl⟩ := handleDone_cases h
      rfl
  | start =>
      obtain ⟨⟨s₁, sent⟩, hstart, rfl⟩ := Option.map_eq_some_iff.mp h
      obtain ⟨p, rest, -, -, rfl⟩ := start_cases hstart
      rfl
  | readResult p entries =>
      obtain ⟨sm, -, -, rfl⟩ := readResult_cases h
      rfl
  | run p guid random => exact absurd rfl (hrun p guid random)

theorem executed_finish {s : Node} {store : Key → Record} {p : Ptr} {status : Status} (q : Ptr) :
    Executed (finish { s with store } p status) q ↔ Executed s q ∨ q = p := by
  simp only [Executed, finish, List.mem_append, List.mem_singleton]
  exact ⟨fun h => h.elim (fun h => h.imp_left .inl) fun h => .inl (.inr h),
    fun h => h.elim (fun h => h.imp_left .inl) fun h => .inl (.inr h)⟩

/-- It commits the one it ends. -/
theorem committed_finish {s : Node} {store : Key → Record} {p : Ptr} {status : Status}
    (hp : ¬ Executed s p) (q : Ptr) :
    Committed (finish { s with store } p status) q ↔
      Committed s q ∨ q = p ∧ status = .committed := by
  unfold Committed
  rw [executed_finish]
  by_cases hq : q = p
  · subst hq
    simp [finish, hp]
  · simp [finish, hq]

/-! ## The transactions that write a record -/

section

variable (cfg : ClusterConfig) (merge : List TxnProto) (s : Replica)

/-- A participant has the record of a key among those it writes. -/
def OwnWrite (m : Nat) (p : Ptr) (k : Key) : Prop :=
  ∃ entry ∈ (txnAt cfg merge m p).readWriteSet,
    entry.key = k ∧ entry.master = (txnAt cfg merge m p).originReplica

/-- A participant that should have changed the value of a record. -/
def Updated (k : Key) (p : Ptr) : Prop :=
  Committed (s.nodes (cfg.lookupPartition k)) p ∧
    (txnAt cfg merge (cfg.lookupPartition k) p).remasterTxn = false ∧
      OwnWrite cfg merge (cfg.lookupPartition k) p k

instance (k : Key) (p : Ptr) : Decidable (Updated cfg merge s k p) :=
  inferInstanceAs (Decidable (((_ ∨ _) ∧ _) ∧ _ ∧ ∃ _ ∈ _, _))

/-- All of them, at the node of the record. -/
def updaters (k : Key) : Finset Ptr :=
  (Finset.range (stream cfg merge (cfg.lookupPartition k)).length).filter
    (Updated cfg merge s k)

end

section

variable {cfg : ClusterConfig} {merge : List TxnProto} {compute : Compute} {init : Key → Record}
  {seen : Nat → Ptr → Key → Record} {s s' : Replica} {m : Nat} {p : Ptr} {k : Key}

theorem mem_updaters : p ∈ updaters cfg merge s k ↔
    p < (stream cfg merge (cfg.lookupPartition k)).length ∧ Updated cfg merge s k p := by
  rw [updaters, Finset.mem_filter, Finset.mem_range]

theorem updaters_congr (h : ∀ p, Committed (s'.nodes (cfg.lookupPartition k)) p ↔
    Committed (s.nodes (cfg.lookupPartition k)) p) :
    updaters cfg merge s' k = updaters cfg merge s k := by
  refine Finset.ext fun p => ?_
  rw [mem_updaters, mem_updaters, Updated, Updated, h]

/-- Each is a transaction of its own: a node has one copy of each origin. -/
theorem updaters_ids (hm : Copies merge) {p q : Ptr} (hp : p ∈ updaters cfg merge s k)
    (hq : q ∈ updaters cfg merge s k)
    (hid : (txnAt cfg merge (cfg.lookupPartition k) p).txnId =
      (txnAt cfg merge (cfg.lookupPartition k) q).txnId) : p = q := by
  obtain ⟨hlenp, -, -, entry, he, hkey, hmaster⟩ := mem_updaters.mp hp
  obtain ⟨hlenq, -, -, entry', he', hkey', hmaster'⟩ := mem_updaters.mp hq
  have hclient := hm.ptr_client hlenp hlenq hid
  have hmem : entry ∈ (txnAt cfg merge (cfg.lookupPartition k) q).client.entries := by
    rw [← hclient]
    exact List.mem_append_right _ he
  have heq : entry = entry' := List.inj_on_of_nodup_map (hm.txnAt_keys cfg _ q) hmem
    (List.mem_append_right _ he') (hkey.trans hkey'.symm)
  exact hm.ptr_unique hlenp hlenq hid (by rw [← hmaster, ← hmaster', heq])

/-- What a participant writes to the storage are the records of its own it has among
those it writes. -/
theorem stored_iff (hm : Copies merge) (hex : Exchanged cfg merge seen s)
    (hown : OwnStored cfg merge s) {sm : StorageManager}
    (hsm : (s.nodes m).managers p = some sm) (hpart : cfg.lookupPartition k = m) :
    (k ∈ (txnAt cfg merge m p).client.writeKeys ∧ sm.objects.lookup k = some .stored) ↔
      OwnWrite cfg merge m p k := by
  have hkeys := hm.txnAt_keys cfg m p
  constructor
  · rintro ⟨hwrite, hstored⟩
    obtain ⟨entry, he, rfl⟩ := List.mem_map.mp hwrite
    obtain ⟨e, hmem, hkey, hmaster, -⟩ := ((hex.node m).participant p sm hsm).stored _ hstored
    obtain rfl := List.inj_on_of_nodup_map hkeys hmem (List.mem_append_right _ he) hkey
    exact ⟨e, he, rfl, hmaster⟩
  · rintro ⟨entry, he, rfl, hmaster⟩
    exact ⟨List.mem_map_of_mem he,
      hown.stored m p sm hsm entry (List.mem_append_right _ he) ⟨hmaster, hpart⟩⟩

/-! ## The invariant -/

/-- Each record has been changed once for each transaction that writes it. -/
def Applied (cfg : ClusterConfig) (merge : List TxnProto) (init : Key → Record) (s : Replica) :
    Prop :=
  ∀ k, (records cfg s k).value = bump^[(updaters cfg merge s k).card] (init k).value

theorem applied_init : Applied cfg merge init (machine cfg 2 merge compute init).init := by
  intro k
  have hnone : updaters cfg merge (machine cfg 2 merge compute init).init k = ∅ := by
    refine Finset.eq_empty_of_forall_notMem fun p hp => ?_
    obtain ⟨-, ⟨hexecuted, -⟩, -⟩ := mem_updaters.mp hp
    exact hexecuted.elim List.not_mem_nil List.not_mem_nil
  rw [hnone]
  rfl

namespace Applied

/-- The value of a record and its transactions stay. -/
theorem frame (hi : Applied cfg merge init s)
    (hvalue : (records cfg s' k).value = (records cfg s k).value)
    (hcommitted : ∀ p, Committed (s'.nodes (cfg.lookupPartition k)) p ↔
      Committed (s.nodes (cfg.lookupPartition k)) p) :
    (records cfg s' k).value = bump^[(updaters cfg merge s' k).card] (init k).value := by
  rw [hvalue, updaters_congr hcommitted]
  exact hi k

/-- A transaction is executed and committed. -/
theorem commit (hm : Copies merge) (hex : Exchanged cfg merge seen s)
    (hown : OwnStored cfg merge s) (hi : Applied cfg merge init s) {sm : StorageManager}
    {store : Key → Record} (hsm : (s.nodes m).managers p = some sm)
    (hexecute : Microbenchmark.execute bumpCompute (txnOf (txnAt cfg merge m) (s.nodes m) p) sm
      (s.nodes m).store = some store)
    (hnodes : s'.nodes = update s.nodes m (finish { s.nodes m with store } p .committed))
    (hpart : cfg.lookupPartition k = m) :
    (records cfg s' k).value = bump^[(updaters cfg merge s' k).card] (init k).value := by
  subst hpart
  have hnew : ¬ Executed (s.nodes (cfg.lookupPartition k)) p := by
    obtain ⟨-, hdone, hdeleted⟩ := (hex.node _).life.of_manager hsm
    exact fun h => h.elim hdone hdeleted
  have hrecord : records cfg s' k = store k := by
    rw [records, hnodes, update_self]
    rfl
  have hmem : ∀ q, q ∈ updaters cfg merge s' k ↔ q ∈ updaters cfg merge s k ∨
      q = p ∧ (txnAt cfg merge (cfg.lookupPartition k) p).remasterTxn = false ∧
        OwnWrite cfg merge (cfg.lookupPartition k) p k := by
    intro q
    have hlen : p < (stream cfg merge (cfg.lookupPartition k)).length :=
      hex.opened_lt (.inl (by rw [hsm]; rfl))
    rw [mem_updaters, mem_updaters, Updated, Updated, hnodes, update_self, committed_finish hnew]
    by_cases hq : q = p
    · subst hq
      simp [hlen, Committed, hnew]
    · simp [hq]
  have hnot : p ∉ updaters cfg merge s k := fun h => hnew (mem_updaters.mp h).2.1.1
  have hwrites := stored_iff hm hex hown hsm rfl
  rw [hrecord]
  by_cases hupdates : (txnAt cfg merge (cfg.lookupPartition k) p).remasterTxn = false ∧
      OwnWrite cfg merge (cfg.lookupPartition k) p k
  · -- it is one more
    have hset : updaters cfg merge s' k = insert p (updaters cfg merge s k) := by
      refine Finset.ext fun q => ?_
      rw [hmem, Finset.mem_insert, and_iff_left hupdates, or_comm]
    rw [Microbenchmark.execute, if_neg (by rw [txnOf, hupdates.1]; exact Bool.false_ne_true)]
      at hexecute
    rw [hset, Finset.card_insert_of_notMem hnot, iterate_succ_apply', ← hi k,
      ← Option.some.inj hexecute, writeValues_bump]
    exact congrArg Record.value (if_pos (hwrites.mpr hupdates.2))
  · have hset : updaters cfg merge s' k = updaters cfg merge s k := by
      refine Finset.ext fun q => ?_
      rw [hmem, or_iff_left fun h => hupdates h.2]
    rw [hset, ← hi k]
    cases hr : (txnAt cfg merge (cfg.lookupPartition k) p).remasterTxn with
    | false =>
        rw [Microbenchmark.execute, if_neg (by rw [txnOf, hr]; exact Bool.false_ne_true)]
          at hexecute
        rw [← Option.some.inj hexecute, writeValues_bump]
        exact congrArg Record.value (if_neg fun h => hupdates ⟨hr, hwrites.mp h⟩)
    | true => exact Microbenchmark.execute_remaster_value hr hexecute k

theorem next {e : Event} (hm : Copies merge) (hex : Exchanged cfg merge seen s)
    (hown : OwnStored cfg merge s) (hi : Applied cfg merge init s)
    (h : (machine cfg 2 merge bumpCompute init).next s e = some s') :
    Applied cfg merge init s' := by
  obtain ⟨m, node, e', -, hnodes, hstep⟩ := next_node h
  intro k
  by_cases hpart : cfg.lookupPartition k = m
  swap
  · refine hi.frame ?_ fun p => ?_
    · rw [records, records, hnodes, update_of_ne hpart]
    · rw [hnodes, update_of_ne hpart]
  by_cases hrun : ∃ p guid random, e' = .run p guid random
  · obtain ⟨p, guid, random, rfl⟩ := hrun
    obtain ⟨⟨node, forword⟩, hrun, rfl⟩ := Option.map_eq_some_iff.mp hstep
    obtain ⟨sm, hsm, -, ⟨store, hexecute, rfl⟩ | ⟨status, hstatus, rfl⟩⟩ := run_cases hrun
    · exact hi.commit hm hex hown hsm hexecute hnodes hpart
    · -- it is aborted
      refine hi.frame ?_ fun q => ?_
      · rw [records, records, hnodes, hpart, update_self]
        rfl
      · rw [hnodes, hpart, update_self]
        obtain ⟨-, hdone, hdeleted⟩ := (hex.node m).life.of_manager hsm
        exact (committed_finish (fun h => h.elim hdone hdeleted) q).trans
          (or_iff_left fun h => hstatus h.2)
  · have hquiet : ∀ p guid random, e' ≠ .run p guid random := fun p guid random heq =>
      hrun ⟨p, guid, random, heq⟩
    refine hi.frame ?_ fun q => ?_
    · rw [records, records, hnodes, hpart, update_self, (step_records hquiet hstep).1]
    · rw [hnodes, hpart, update_self]
      exact step_committed (hex.node m).life hquiet hstep q

theorem length (hi : Applied cfg merge init s) (k : Key) :
    (records cfg s k).value.length = (init k).value.length := by
  rw [hi k, bump_iterate_length]

end Applied

/-! ## The loops -/

/-- The loops of the two applications fail nowhere and leave a storage. -/
def LoopsLeave (txn : TxnProto) (sm : StorageManager) (store store' : Key → Record) : Prop :=
  ∃ st, Tpcc.executeLoop txn ⟨sm, store⟩ = some st ∧ st.store = store' ∧
    (txn.readWriteSet.length = Microbenchmark.kRWSetSize →
      Microbenchmark.executeLoop txn ⟨sm, store⟩ = some st)

/-- The participants have found values that are long enough. -/
def LongSeen (cfg : ClusterConfig) (seen : Nat → Ptr → Key → Record) : Prop :=
  ∀ k p, 8 ≤ (seen (cfg.lookupPartition k) p k).value.length

/-- A step finds the records as they are, or nothing new. -/
theorem taken_cases (seen : Ptr → Key → Record) (s : Node) (e : DeterministicScheduler.Event)
    (p : Ptr) : taken seen s e p = seen p ∨ taken seen s e p = s.store := by
  cases e with
  | start =>
      cases hq : s.txnsQueue with
      | nil => exact .inl (by simp only [taken, hq])
      | cons q rest =>
          by_cases hp : p = q
          · subst hp
            exact .inr (by simp only [taken, hq, update_self])
          · exact .inl (by simp only [taken, hq, update_of_ne hp])
  | _ => exact .inl rfl

theorem LongSeen.next {e : Event} (hlong : ∀ k, 8 ≤ (init k).value.length)
    (hi : Applied cfg merge init s) (hseen : LongSeen cfg seen)
    (h : (machine cfg 2 merge compute init).next s e = some s') :
    LongSeen cfg (found seen s e) := by
  obtain ⟨m, node, e', hevent, -, -⟩ := next_node h
  rw [found_eq hevent]
  intro k p
  by_cases hpart : cfg.lookupPartition k = m
  swap
  · rw [update_of_ne hpart]
    exact hseen k p
  subst hpart
  rw [update_self]
  rcases taken_cases (seen (cfg.lookupPartition k)) (s.nodes (cfg.lookupPartition k)) e' p with
    heq | heq
  · rw [heq]
    exact hseen k p
  · rw [heq]
    exact (hlong k).trans_eq (hi.length k).symm

/-- What a participant can read is long enough. -/
theorem object_long (hlong : ∀ k, 8 ≤ (init k).value.length) (hi : Applied cfg merge init s)
    (hseen : LongSeen cfg seen) (hex : Exchanged cfg merge seen s) {sm : StorageManager}
    (hsm : (s.nodes m).managers p = some sm) {val : Record}
    (hval : sm.readObject (s.nodes m).store k = some val) : 8 ≤ val.value.length := by
  rw [readObject, Option.map_eq_some_iff] at hval
  obtain ⟨o, ho, rfl⟩ := hval
  cases o with
  | stored =>
      obtain ⟨entry, -, rfl, -, hpart⟩ := ((hex.node m).participant p sm hsm).stored _ ho
      have hpart' : cfg.lookupPartition entry.key = m := hpart
      subst hpart'
      exact (hlong entry.key).trans_eq (hi.length entry.key).symm
  | copied val =>
      obtain ⟨e, -, rfl, q, -, -, -, rfl⟩ := hex.copied m p sm hsm _ _ ho
      exact hseen e.key q

theorem loops_leave (hm : Copies merge) (hlong : ∀ k, 8 ≤ (init k).value.length)
    (hi : Applied cfg merge init s) (hseen : LongSeen cfg seen) (hex : Exchanged cfg merge seen s)
    {sm : StorageManager} (hsm : (s.nodes m).managers p = some sm)
    (hready : sm.readyToExecute (txnAt cfg merge m p) = true) :
    LoopsLeave (txnAt cfg merge m p) sm (s.nodes m).store
      (Microbenchmark.writeValues bumpCompute (txnAt cfg merge m p) sm (s.nodes m).store) := by
  have hkeys := hm.txnAt_keys cfg m p
  have hsub : ∀ k o, sm.objects.lookup k = some o → k ∈ (txnAt cfg merge m p).client.keys := by
    intro k o ho
    cases o with
    | stored =>
        obtain ⟨entry, he, rfl, -⟩ := ((hex.node m).participant p sm hsm).stored _ ho
        exact List.mem_map_of_mem he
    | copied val =>
        obtain ⟨e, he, rfl, -⟩ := hex.copied m p sm hsm _ _ ho
        exact List.mem_map_of_mem he
  have hwrites : (txnAt cfg merge m p).client.writeKeys.Nodup := by
    rw [ClientTxn.keys, ClientTxn.entries, List.map_append] at hkeys
    exact hkeys.of_append_right
  obtain ⟨st, hloop, hstore⟩ := Tpcc.executeLoop_eq (txnAt cfg merge m p) ⟨sm, (s.nodes m).store⟩
    hwrites fun entry he => by
      obtain ⟨o, ho⟩ := lookup_of_ready hready hsub
        (List.mem_map_of_mem (List.mem_append_right _ he))
      have hval : ∃ val, sm.readObject (s.nodes m).store entry.key = some val := by
        rw [readObject, ho]
        exact ⟨_, rfl⟩
      obtain ⟨val, hval⟩ := hval
      exact ⟨val, hval, object_long hlong hi hseen hex hsm hval⟩
  exact ⟨st, hloop, hstore, fun hlen => (Microbenchmark.executeLoop_eq hlen _).trans hloop⟩

/-! ## The result -/

/-- In every run in which each `READ_RESULT` is handed to a transaction of the only id
with its channel, every record has been changed once for each committed transaction
that writes it, and by nothing else. If the values have eight characters, the loops of
the applications fail in no step, and leave the records of the model. -/
theorem no_lost_update (cfg : ClusterConfig) (init : Key → Record) {merge : List TxnProto}
    {s : Replica} (hm : Copies merge)
    (h : (machine cfg 2 merge bumpCompute init).Reach (OneId cfg merge) s) :
    (∀ k, (records cfg s k).value = bump^[(updaters cfg merge s k).card] (init k).value) ∧
    (∀ k, Set.InjOn (fun p => (txnAt cfg merge (cfg.lookupPartition k) p).txnId)
      (updaters cfg merge s k)) ∧
    ((∀ k, 8 ≤ (init k).value.length) → ∀ m p guid random s',
      nodeStep cfg 2 merge bumpCompute s m (.run p guid random) = some s' →
      (s'.nodes m).status p = .committed → (txnAt cfg merge m p).remasterTxn = false →
      ∃ sm, (s.nodes m).managers p = some sm ∧
        LoopsLeave (txnAt cfg merge m p) sm (s.nodes m).store (s'.nodes m).store) := by
  have hinv : ∃ seen, Exchanged cfg merge seen s ∧ OwnStored cfg merge s ∧
      Applied cfg merge init s ∧ ((∀ k, 8 ≤ (init k).value.length) → LongSeen cfg seen) := by
    refine h.invariant (P := fun s => ∃ seen, Exchanged cfg merge seen s ∧ OwnStored cfg merge s ∧
      Applied cfg merge init s ∧ ((∀ k, 8 ≤ (init k).value.length) → LongSeen cfg seen))
      ⟨fun _ _ => init, exchanged_init hm _, ownStored_init, applied_init,
        fun hlong k _ => hlong k⟩ fun s e s' _ hone hi hn => ?_
    obtain ⟨seen, hex, hown, hi, hseen⟩ := hi
    exact ⟨_, hex.next hm hone hn, hown.next hm hex hone hn, hi.next hm hex hown hn,
      fun hlong => (hseen hlong).next hlong hi hn⟩
  obtain ⟨seen, hex, hown, hi, hseen⟩ := hinv
  refine ⟨hi, fun k p hp q hq hid => updaters_ids hm hp hq hid,
    fun hlong m p guid random s' hstep hstatus hr => ?_⟩
  obtain ⟨node, hnode, rfl⟩ := Option.map_eq_some_iff.mp hstep
  obtain ⟨⟨node, forword⟩, hrun, rfl⟩ := Option.map_eq_some_iff.mp hnode
  obtain ⟨sm, hsm, hready, ⟨store, hexecute, rfl⟩ | ⟨status, hne, rfl⟩⟩ := run_cases hrun
  · refine ⟨sm, hsm, ?_⟩
    rw [Microbenchmark.execute, if_neg (by rw [txnOf, hr]; exact Bool.false_ne_true)] at hexecute
    simp only [setNode, update_self, finish]
    rw [← Option.some.inj hexecute]
    exact loops_leave hm hlong hi (hseen hlong) hex hsm hready
  · -- an aborted transaction is not committed
    simp only [setNode, update_self, finish] at hstatus
    exact absurd hstatus hne

end

/-- A transaction before the remaster of a record, one that comes too late for it, and
one of ten records after it has been remastered back. -/
def aroundRemasters : List TxnProto :=
  [{ txnId := 1, readWriteSet := [⟨[48], 0, 0⟩] }, { remasterOfZero with txnId := 2 },
    { txnId := 3, readWriteSet := [⟨[48], 0, 0⟩] },
    { txnId := 4, readWriteSet := [⟨[48], 1, 1⟩], originReplica := 1, remasterTxn := true,
      remasterFrom := 1, remasterTo := 0 },
    { txnId := 5,
      readWriteSet :=
        ⟨[48], 0, 2⟩ :: [49, 50, 51, 52, 53, 54, 55, 56, 57].map fun c => ⟨[c], 0, 0⟩ }]

/-- The first one has changed the record, and the last one is about to. -/
theorem no_lost_update_remastered :
    let init : Key → Record := fun _ => ⟨List.replicate 8 97, 0, 0⟩
    ∃ s : Replica, (s.nodes 0).status 2 = .abortedWithoutLock ∧
      (records {} s [48]).value = bump^[1] (init [48]).value ∧
      ∃ s' sm, nodeStep {} 2 aroundRemasters bumpCompute s 0 (.run 4 0 0) = some s' ∧
        LoopsLeave (txnAt {} aroundRemasters 0 4) sm (s.nodes 0).store (s'.nodes 0).store := by
  intro init
  obtain ⟨s, hs, hstatus, hcard, hcommit⟩ := Machine.exists_of_runIf
    (m := machine {} 2 aroundRemasters bumpCompute init) (OneId {} aroundRemasters)
    (P := fun s : Replica => (s.nodes 0).status 2 = .abortedWithoutLock ∧
      (updaters {} aroundRemasters s [48]).card = 1 ∧
      ((nodeStep {} 2 aroundRemasters bumpCompute s 0 (.run 4 0 0)).any fun s' =>
        (s'.nodes 0).status 4 = .committed) = true)
    (let finish (p : Ptr) : List Event :=
      [.node 0 .dispatch, .start 0, .node 0 (.run p 9 0), .node 0 .handleDone]
    [.node 0 .parse, .node 0 .verify, .node 0 .route] ++ finish 0 ++
      [.node 0 .parse] ++ finish 1 ++
      [.node 0 .parse, .node 0 .verify, .node 0 .route] ++ finish 2 ++
      [.node 0 .parse] ++ finish 3 ++
      [.node 0 .parse] ++ List.replicate 10 (.node 0 .verify) ++
      [.node 0 .route, .node 0 .dispatch, .start 0])
    (by decide +kernel)
  have hm : Copies aroundRemasters := ⟨by decide, by decide, by decide, by decide⟩
  obtain ⟨hvalue, -, hloops⟩ := no_lost_update {} init hm hs
  obtain ⟨s', hstep, hstatus'⟩ := (Option.any_eq_true _ _).mp hcommit
  obtain ⟨sm, -, hleave⟩ := hloops (fun _ => by simp [init]) 0 4 0 0 s' hstep
    (of_decide_eq_true hstatus') (by decide)
  refine ⟨s, hstatus, ?_, s', sm, hstep, hleave⟩
  rw [hvalue [48], hcard]

end Calvin.Replica
