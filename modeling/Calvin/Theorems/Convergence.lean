import Calvin.Theorems.LogValues

/-!
# Convergence

Two replicas that schedule merges of the same logs end with the same records: the
decisions and the epochs are a matter of the logs, and the transactions that commit
in one replica find in the other what they have found there.

* `exists_view`: the records that the transactions of a replica have found;
* `Replayed.replays_view`: when all has been executed, they are those of the logs;
* `decisions_by_logs`, `replicas_converge`, `outcomes_agree`: the results;
* `outcomes_differ`: without the conditions they are not so.
-/

namespace Calvin.Replica

open Function Lib DeterministicScheduler StorageManager

section

variable {cfg : ClusterConfig} {logs : Nat → List TxnProto} {merge : List TxnProto}
  {compute : Compute} {init : Key → Record} {seen : Nat → Ptr → Key → Record} {s : Replica}

theorem replayed_of_reach (hl : OriginLogs logs) (hm : IsMerge logs merge)
    (h : (machine cfg 2 merge compute init).Reach (InOrder cfg merge) s) :
    ∃ seen, Replayed cfg logs merge compute init seen s := by
  refine h.invariant (P := fun s => ∃ seen, Replayed cfg logs merge compute init seen s)
    ⟨fun _ _ => init, replayed_init hl hm _⟩ fun s e s' _ hgood hi hn => ?_
  obtain ⟨seen, hi⟩ := hi
  exact ⟨_, hi.next hl hm hgood hn⟩

/-- Each record of a transaction is found once. -/
theorem exists_view (init : Key → Record) (hl : OriginLogs logs) (hm : IsMerge logs merge)
    (hi : Exchanged cfg merge seen s) :
    ∃ view : Nat → Key → Record,
      Finds cfg logs merge init seen s fun txnId entry => view txnId entry.key := by
  have hone : ∀ txnId k, ∃ val, ∀ m p, Opened (s.nodes m) p → (txnAt cfg merge m p).txnId = txnId →
      ∀ entry ∈ (txnAt cfg merge m p).client.entries,
        Own (nodeConfig cfg m) (txnAt cfg merge m p).originReplica entry → entry.key = k →
          seen m p k = val := by
    intro txnId k
    by_cases hex : ∃ m p, Opened (s.nodes m) p ∧ (txnAt cfg merge m p).txnId = txnId ∧
        ∃ entry ∈ (txnAt cfg merge m p).client.entries,
          Own (nodeConfig cfg m) (txnAt cfg merge m p).originReplica entry ∧ entry.key = k
    · obtain ⟨m, p, hp, hid, entry, he, hown, hkey⟩ := hex
      refine ⟨seen m p k, fun m' p' hp' hid' entry' he' hown' hkey' => ?_⟩
      -- the copies have one entry of the key, and it says which one reads it
      have hclient := (hl.copies hm).ptr_client (hi.opened_lt hp') (hi.opened_lt hp)
        (hid'.trans hid.symm)
      rw [hclient] at he'
      obtain rfl := List.inj_on_of_nodup_map ((hl.copies hm).txnAt_keys cfg m p) he' he
        (hkey'.trans hkey.symm)
      have hnode : m' = m := hown'.2.symm.trans hown.2
      subst hnode
      have hptr := (hl.copies hm).ptr_unique (hi.opened_lt hp') (hi.opened_lt hp)
        (hid'.trans hid.symm) (hown'.1.symm.trans hown.1)
      rw [hptr]
    · refine ⟨⟨[], 0, 0⟩, fun m p hp hid entry he hown hkey => ?_⟩
      exact absurd ⟨m, p, hp, hid, entry, he, hown, hkey⟩ hex
  choose view hview using hone
  exact ⟨view, fun m p hp _ entry he hown => hview _ _ m p hp rfl entry he hown rfl⟩

namespace Replayed

/-- When all has been executed, what the transactions have found is what the logs
say. -/
theorem replays_view (hl : OriginLogs logs) (hm : IsMerge logs merge)
    (hi : Replayed cfg logs merge compute init seen s) (hc : Complete cfg merge s)
    {view : Nat → Key → Record}
    (hview : Finds cfg logs merge init seen s fun txnId entry => view txnId entry.key) :
    Replays (forwarded logs) init compute view := by
  obtain ⟨-, hlog⟩ := hi.values view hview
  intro r txn htxn hcommits entry he hmaster
  obtain ⟨p, hp, heq⟩ := hl.exists_ptr cfg hm htxn he hmaster
  have hopened : Opened (s.nodes (cfg.lookupPartition entry.key)) p := .inr (hc _ p hp)
  have hown : Own (nodeConfig cfg (cfg.lookupPartition entry.key))
      (LowlatencySequencer.withReaders cfg txn).originReplica entry :=
    ⟨hmaster.trans ((hl.mem_forwarded hm).mp htxn).2.2.symm, rfl⟩
  have hfound := hview _ p hopened
  have hleft := hlog _ p hopened
  rw [heq] at hfound hleft
  exact (hfound hcommits entry he hown).symm.trans (hleft hcommits entry he hown)

/-- Then each record holds what its last epoch leaves. -/
theorem records_value (hl : OriginLogs logs) (hm : IsMerge logs merge)
    (hi : Replayed cfg logs merge compute init seen s) (hc : Complete cfg merge s)
    {view : Nat → Key → Record} (hview : Replays (forwarded logs) init compute view) (k : Key) :
    (records cfg s k).value =
      valueAt (forwarded logs) init compute view k ((records cfg s k).counter + 1) := by
  obtain ⟨done, rest, hwriters, -, hrest, hvalue⟩ :=
    (hi.values view (hi.replays view hview)).1 k
  have hr := (hi.ordered.records_lastEpoch hl hm hc k).1
  have hnil : rest = [] := by
    refine List.eq_nil_iff_forall_not_mem.mpr fun txn htxn => hrest txn htxn ?_
    have hmem : txn ∈ writers (forwarded logs) init k (records cfg s k).counter := by
      rw [hwriters]
      exact List.mem_append_right _ htxn
    obtain ⟨q, hq, heq, -⟩ := hl.exists_writer hm cfg hr hmem
    exact ⟨q, hq, heq, hc _ q hq⟩
  rw [hnil, List.append_nil] at hwriters
  rw [hvalue, valueAt, hwriters]

variable {cfg' : ClusterConfig} {merge' : List TxnProto} {seen' : Nat → Ptr → Key → Record}
  {s' : Replica}

/-- Two replicas that have executed everything hold the same records. -/
theorem same_records (hl : OriginLogs logs) (hm : IsMerge logs merge) (hm' : IsMerge logs merge')
    (hi : Replayed cfg logs merge compute init seen s)
    (hi' : Replayed cfg' logs merge' compute init seen' s') (hc : Complete cfg merge s)
    (hc' : Complete cfg' merge' s') : records cfg s = records cfg' s' := by
  -- what the transactions find in one replica they find in the other
  obtain ⟨view, hview⟩ := exists_view init hl hm' hi'.ordered.exchanged
  have hreplays := hi'.replays_view hl hm' hc' hview
  funext k
  obtain ⟨hcounter, hmaster⟩ := (hi.ordered.records_lastEpoch hl hm hc k).unique
    (hi'.ordered.records_lastEpoch hl hm' hc' k)
  have hvalue := hi.records_value hl hm hc hreplays k
  rw [hcounter, ← hi'.records_value hl hm' hc' hreplays k] at hvalue
  calc records cfg s k = ⟨(records cfg s k).value, (records cfg s k).master,
          (records cfg s k).counter⟩ := rfl
    _ = records cfg' s' k := by rw [hvalue, hmaster, hcounter]

/-- What both have executed, both have committed or none. -/
theorem both_committed (hl : OriginLogs logs) (hm : IsMerge logs merge)
    (hm' : IsMerge logs merge') (hi : Replayed cfg logs merge compute init seen s)
    (hi' : Replayed cfg' logs merge' compute init seen' s') {m m' : Nat} {p q : Ptr}
    (hp : Executed (s.nodes m) p) (hq : Executed (s'.nodes m') q)
    (hid : (txnAt cfg merge m p).txnId = (txnAt cfg' merge' m' q).txnId) :
    (s.nodes m).status p = .committed ↔ (s'.nodes m').status q = .committed := by
  obtain ⟨c, hmem, -, heq⟩ :=
    hl.txnAt_forwarded hm (hi.ordered.exchanged.opened_lt (.inr hp))
  obtain ⟨c', hmem', -, heq'⟩ :=
    hl.txnAt_forwarded hm' (hi'.ordered.exchanged.opened_lt (.inr hq))
  have hclient : (txnAt cfg merge m p).client = (txnAt cfg' merge' m' q).client := by
    rw [heq, heq'] at hid ⊢
    exact hl.client _ _ c (List.mem_filter.mp hmem).1 c' (List.mem_filter.mp hmem').1 hid
  rw [hi.ordered.committed_iff hl hm hp, hi'.ordered.committed_iff hl hm' hq, hclient]

end Replayed

end

/-! ## Main results -/

/-- In every run in which each message reaches its transaction and each transaction
comes in its turn, what has been executed is committed if the logs say so. -/
theorem decisions_by_logs {logs : Nat → List TxnProto} (hl : OriginLogs logs) (compute : Compute)
    (init : Key → Record) {cfg : ClusterConfig} {merge : List TxnProto} (hm : IsMerge logs merge)
    {s : Replica} (h : (machine cfg 2 merge compute init).Reach (InOrder cfg merge) s) {m : Nat}
    {p : Ptr} (hp : Executed (s.nodes m) p) :
    (s.nodes m).status p = .committed ↔
      Commits (forwarded logs) init (txnAt cfg merge m p).client := by
  obtain ⟨seen, hi⟩ := replayed_of_reach hl hm h
  exact hi.ordered.committed_iff hl hm hp

/-- Two replicas that have executed merges of the same logs in such runs have the
same records, and have committed the same transactions. -/
theorem replicas_converge {logs : Nat → List TxnProto} (hl : OriginLogs logs) (compute : Compute)
    (init : Key → Record) {cfg cfg' : ClusterConfig} {merge merge' : List TxnProto}
    (hm : IsMerge logs merge) (hm' : IsMerge logs merge') {s s' : Replica}
    (h : (machine cfg 2 merge compute init).Reach (InOrder cfg merge) s)
    (h' : (machine cfg' 2 merge' compute init).Reach (InOrder cfg' merge') s')
    (hc : Complete cfg merge s) (hc' : Complete cfg' merge' s') :
    records cfg s = records cfg' s' ∧
      ∀ m m' p q, p < (stream cfg merge m).length → q < (stream cfg' merge' m').length →
        (txnAt cfg merge m p).txnId = (txnAt cfg' merge' m' q).txnId →
          ((s.nodes m).status p = .committed ↔ (s'.nodes m').status q = .committed) := by
  obtain ⟨seen, hi⟩ := replayed_of_reach hl hm h
  obtain ⟨seen', hi'⟩ := replayed_of_reach hl hm' h'
  refine ⟨hi.same_records hl hm hm' hi' hc hc', fun m m' p q hp hq hid => ?_⟩
  exact hi.both_committed hl hm hm' hi' (hc m p hp) (hc' m' q hq) hid

/-! ### A remaster between two logs -/

/-- A transaction on key `0`, the remaster of this key to replica 1, and a
transaction on it there. -/
def handedOver : Nat → List TxnProto
  | 0 => [{ txnId := 1, readWriteSet := [⟨[48], 0, 0⟩] },
      { txnId := 2, readWriteSet := [⟨[48], 0, 0⟩], remasterTxn := true, remasterFrom := 0
        remasterTo := 1 }]
  | 1 => [{ txnId := 3, readWriteSet := [⟨[48], 1, 1⟩], originReplica := 1 }]
  | _ => []

theorem handedOver_nil : ∀ r, 2 ≤ r → handedOver r = []
  | _ + 2, _ => rfl

theorem originLogs_handedOver : OriginLogs handedOver :=
  .of_lt handedOver_nil (by decide) (by decide) (by decide)

/-- Each of two replicas takes another log first. -/
theorem isMerge_handedOver :
    IsMerge handedOver (handedOver 0 ++ handedOver 1) ∧
      IsMerge handedOver (handedOver 1 ++ handedOver 0) :=
  ⟨isMerge_of_lt handedOver_nil (by decide) (by decide),
    isMerge_of_lt handedOver_nil (by decide) (by decide)⟩

/-- Log 1 comes first: its transaction waits for the remaster. -/
def handedOverRun : List Event :=
  [.node 0 .parse, .node 0 .verify, .node 0 .route, .node 0 .parse, .node 0 .verify,
    .node 0 .route, .node 0 .parse, .node 0 .dispatch, .start 0, .node 0 (.run 1 0 0),
    .node 0 .handleDone, .node 0 .dispatch, .start 0, .node 0 (.run 2 0 0), .node 0 .handleDone,
    .node 0 .dispatch, .start 0, .node 0 (.run 0 0 0)]

/-- The transaction of log 1 is met by its record in the epoch after the remaster. -/
theorem decisions_by_logs_handedOver :
    let init : Key → Record := fun _ => ⟨[], 0, 0⟩
    ∃ s : Replica, (s.nodes 0).waits.blockingTxns 1 = [] ∧ (s.nodes 0).status 0 = .committed ∧
      Commits (forwarded handedOver) init (txnAt {} (handedOver 1 ++ handedOver 0) 0 0).client := by
  intro init
  obtain ⟨s, hs, hexecuted, hwaits, hstatus⟩ := Machine.exists_of_runIf
    (m := machine {} 2 (handedOver 1 ++ handedOver 0) (fun _ _ _ => []) init)
    (InOrder {} (handedOver 1 ++ handedOver 0))
    (P := fun s : Replica => Executed (s.nodes 0) 0 ∧ (s.nodes 0).waits.blockingTxns 1 = [] ∧
      (s.nodes 0).status 0 = .committed)
    handedOverRun (by decide)
  have hsame := decisions_by_logs originLogs_handedOver _ init isMerge_handedOver.2 hs hexecuted
  exact ⟨s, hwaits, hstatus, hsame.mp hstatus⟩

theorem replicas_converge_handedOver :
    let compute : Compute := fun txn view _ =>
      txn.txnId.toUInt8 :: ((view [48]).map Record.value).getD []
    let init : Key → Record := fun _ => ⟨[], 0, 0⟩
    ∃ s s' : Replica, (machine {} 2 (handedOver 0 ++ handedOver 1) compute init).Reachable s ∧
      (machine {} 2 (handedOver 1 ++ handedOver 0) compute init).Reachable s' ∧
      (s.nodes 0).locked = [0, 1, 2] ∧ (s'.nodes 0).locked = [1, 2, 0] ∧
      records {} s = records {} s' ∧ records {} s [48] = ⟨[3, 1], 1, 1⟩ := by
  intro compute init
  obtain ⟨s, hs, hc, hlocked, hrecord⟩ := Machine.exists_of_runIf
    (m := machine {} 2 (handedOver 0 ++ handedOver 1) compute init)
    (InOrder {} (handedOver 0 ++ handedOver 1))
    (P := fun s : Replica => (∀ m : Nat, m < 1 →
        ∀ p < (stream {} (handedOver 0 ++ handedOver 1) m).length, Executed (s.nodes m) p) ∧
      (s.nodes 0).locked = [0, 1, 2] ∧ records {} s [48] = ⟨[3, 1], 1, 1⟩)
    [.node 0 .parse, .node 0 .verify, .node 0 .route, .node 0 .dispatch, .start 0,
      .node 0 (.run 0 0 0), .node 0 .handleDone, .node 0 .parse, .node 0 .dispatch, .start 0,
      .node 0 (.run 1 0 0), .node 0 .handleDone, .node 0 .parse, .node 0 .verify, .node 0 .route,
      .node 0 .dispatch, .start 0, .node 0 (.run 2 0 0)]
    (by decide)
  obtain ⟨s', hs', hc', hlocked'⟩ := Machine.exists_of_runIf
    (m := machine {} 2 (handedOver 1 ++ handedOver 0) compute init)
    (InOrder {} (handedOver 1 ++ handedOver 0))
    (P := fun s : Replica => (∀ m : Nat, m < 1 →
        ∀ p < (stream {} (handedOver 1 ++ handedOver 0) m).length, Executed (s.nodes m) p) ∧
      (s.nodes 0).locked = [1, 2, 0])
    handedOverRun (by decide)
  have hsame := replicas_converge originLogs_handedOver compute init isMerge_handedOver.1
    isMerge_handedOver.2 hs hs' (complete_of_lt Nat.one_pos hc) (complete_of_lt Nat.one_pos hc')
  exact ⟨s, s', hs.reachable, hs'.reachable, hlocked, hlocked', hsame.1, hrecord⟩

/-! ## Replicas at any time -/

/-- In runs in which each message reaches its transaction and each transaction comes in
its turn, what two replicas have executed, at whatever time, both have committed or none;
and once each has executed everything they hold the same records. -/
theorem outcomes_agree {logs : Nat → List TxnProto} (hl : OriginLogs logs) (compute : Compute)
    (init : Key → Record) {cfg cfg' : ClusterConfig} {merge merge' : List TxnProto}
    (hm : IsMerge logs merge) (hm' : IsMerge logs merge') {s s' : Replica}
    (h : (machine cfg 2 merge compute init).Reach (InOrder cfg merge) s)
    (h' : (machine cfg' 2 merge' compute init).Reach (InOrder cfg' merge') s') :
    (∀ m m' p q, Executed (s.nodes m) p → Executed (s'.nodes m') q →
        (txnAt cfg merge m p).txnId = (txnAt cfg' merge' m' q).txnId →
          ((s.nodes m).status p = .committed ↔ (s'.nodes m').status q = .committed)) ∧
      (Complete cfg merge s → Complete cfg' merge' s' → records cfg s = records cfg' s') := by
  obtain ⟨seen, hi⟩ := replayed_of_reach hl hm h
  obtain ⟨seen', hi'⟩ := replayed_of_reach hl hm' h'
  exact ⟨fun m m' p q hp hq hid => hi.both_committed hl hm hm' hi' hp hq hid,
    hi.same_records hl hm hm' hi'⟩

/-- A transaction on the keys `0` and `3` after the remaster of the latter, which is in
the other log, and before the one of the former. -/
def takenOver : Nat → List TxnProto
  | 0 => [{ txnId := 1, readWriteSet := [⟨[48], 0, 0⟩, ⟨[51], 0, 1⟩] },
      { txnId := 2, readWriteSet := [⟨[48], 0, 0⟩], remasterTxn := true, remasterFrom := 0
        remasterTo := 1 }]
  | 1 => [{ txnId := 3, readWriteSet := [⟨[51], 1, 0⟩], originReplica := 1, remasterTxn := true
            remasterFrom := 1, remasterTo := 0 }]
  | _ => []

/-- Two replicas of two partitions: in one of them partition 1 has the transaction wait
for the remaster. -/
theorem outcomes_agree_takenOver :
    let cfg : ClusterConfig := { nodesPerReplica := 2, replicasSize := 3 }
    let compute : Compute := fun txn _ _ => [txn.txnId.toUInt8]
    let init : Key → Record := fun k => ⟨[], cfg.lookupMaster k, 0⟩
    let cfg' : ClusterConfig := { cfg with localReplicaId := 2 }
    let merge := takenOver 1 ++ takenOver 0
    let merge' := (takenOver 0).take 1 ++ takenOver 1 ++ (takenOver 0).drop 1
    ∃ s s' : Replica, (machine cfg 2 merge compute init).Reachable s ∧
      (machine cfg' 2 merge' compute init).Reachable s' ∧
      (s.nodes 1).locked = [0, 1] ∧ (s'.nodes 1).locked = [1, 0] ∧
      (s.nodes 1).status 1 = .committed ∧ (s'.nodes 0).status 0 = .committed ∧
      records cfg s = records cfg' s' ∧ records cfg' s' [48] = ⟨[1], 1, 1⟩ := by
  intro cfg compute init cfg' merge merge'
  obtain ⟨s, hs, hc, hlocked, hstatus, hrecord⟩ := Machine.exists_of_runIf
    (m := machine cfg 2 merge compute init) (InOrder cfg merge)
    (P := fun s : Replica => (∀ m : Nat, m < 2 →
        ∀ p < (stream cfg merge m).length, Executed (s.nodes m) p) ∧
      (s.nodes 1).locked = [0, 1] ∧ (s.nodes 1).status 1 = .committed ∧
      records cfg s [48] = ⟨[1], 1, 1⟩)
    [.node 1 .parse, .node 1 .dispatch, .start 1, .node 1 (.run 0 0 0), .node 1 .handleDone,
      .node 1 .parse, .node 1 .verify, .node 1 .verify, .node 1 .route, .node 1 .dispatch, .start 1,
      .node 0 .parse, .node 0 .verify, .node 0 .verify, .node 0 .route, .node 0 .dispatch, .start 0,
      .deliver 0 0 0, .deliver 1 1 0, .node 0 (.run 0 0 0), .node 1 (.run 1 0 0),
      .node 0 .handleDone, .node 0 .parse, .node 0 .dispatch, .start 0, .node 0 (.run 1 0 0)]
    (by decide +kernel)
  obtain ⟨s', hs', hc', hlocked'⟩ := Machine.exists_of_runIf
    (m := machine cfg' 2 merge' compute init) (InOrder cfg' merge')
    (P := fun s : Replica => (∀ m : Nat, m < 2 →
        ∀ p < (stream cfg' merge' m).length, Executed (s.nodes m) p) ∧
      (s.nodes 1).locked = [1, 0])
    [.node 0 .parse, .node 0 .verify, .node 0 .verify, .node 0 .route, .node 0 .dispatch, .start 0,
      .node 1 .parse, .node 1 .verify, .node 1 .verify, .node 1 .route, .node 1 .parse,
      .node 1 .dispatch, .start 1, .node 1 (.run 1 0 0), .node 1 .handleDone, .node 1 .dispatch,
      .start 1, .deliver 1 0 0, .deliver 0 0 0, .node 0 (.run 0 0 0), .node 1 (.run 0 0 0),
      .node 0 .handleDone, .node 0 .parse, .node 0 .dispatch, .start 0, .node 0 (.run 1 0 0)]
    (by decide +kernel)
  have hnil : ∀ r, 2 ≤ r → takenOver r = [] := fun
    | _ + 2, _ => rfl
  have hagree := outcomes_agree (.of_lt hnil (by decide) (by decide) (by decide)) compute init
    (isMerge_of_lt hnil (by decide) (by decide)) (isMerge_of_lt hnil (by decide) (by decide)) hs hs'
  have hsame := hagree.2 (complete_of_lt Nat.two_pos hc) (complete_of_lt Nat.two_pos hc')
  have hcommitted := (hagree.1 1 0 1 0 (hc 1 (by decide) 1 (by decide))
    (hc' 0 (by decide) 0 (by decide)) (by decide)).mp hstatus
  exact ⟨s, s', hs.reachable, hs'.reachable, hlocked, hlocked', hstatus, hcommitted, hsame,
    hsame ▸ hrecord⟩

/-- A remaster transaction and the one of the next master. -/
def handedBack : Nat → List TxnProto
  | 0 => [{ txnId := 1, readWriteSet := [⟨[48], 0, 0⟩], remasterTxn := true, remasterFrom := 0
            remasterTo := 1 }]
  | 1 => [{ txnId := 2, readWriteSet := [⟨[48], 1, 1⟩], originReplica := 1, remasterTxn := true
            remasterFrom := 1, remasterTo := 0 }]
  | _ => []

/-- Where the second one comes first it is started before its turn and aborts, and the
replicas do not agree on the master any more. -/
theorem outcomes_differ :
    ¬ ∀ (logs : Nat → List TxnProto) (compute : Compute) (init : Key → Record)
        (cfg cfg' : ClusterConfig) (merge merge' : List TxnProto) (s s' : Replica),
        OriginLogs logs → IsMerge logs merge → IsMerge logs merge' →
        (machine cfg 2 merge compute init).Reachable s →
        (machine cfg' 2 merge' compute init).Reachable s' →
        Complete cfg merge s → Complete cfg' merge' s' → records cfg s = records cfg' s' := by
  intro hclaim
  let cfg : ClusterConfig := { replicasSize := 3 }
  let cfg' : ClusterConfig := { replicasSize := 3, localReplicaId := 2 }
  let init : Key → Record := fun k => ⟨[], cfg.lookupMaster k, 0⟩
  let es : List Event :=
    [.node 0 .parse, .node 0 .dispatch, .start 0, .node 0 (.run 0 0 0), .node 0 .handleDone,
      .node 0 .parse, .node 0 .dispatch, .start 0, .node 0 (.run 1 0 0), .node 0 .handleDone]
  obtain ⟨s, hs, hc, hrecord⟩ := Machine.exists_of_trace
    (m := machine cfg 2 (handedBack 0 ++ handedBack 1) (fun _ _ _ => []) init)
    (P := fun s : Replica => (∀ m : Nat, m < 1 →
        ∀ p < (stream cfg (handedBack 0 ++ handedBack 1) m).length, Executed (s.nodes m) p) ∧
      records cfg s [48] = ⟨[], 0, 2⟩) es (by decide)
  obtain ⟨s', hs', hc', hrecord'⟩ := Machine.exists_of_trace
    (m := machine cfg' 2 (handedBack 1 ++ handedBack 0) (fun _ _ _ => []) init)
    (P := fun s : Replica => (∀ m : Nat, m < 1 →
        ∀ p < (stream cfg' (handedBack 1 ++ handedBack 0) m).length, Executed (s.nodes m) p) ∧
      records cfg' s [48] = ⟨[], 1, 1⟩) es (by decide)
  have hnil : ∀ r, 2 ≤ r → handedBack r = [] := fun
    | _ + 2, _ => rfl
  have hsame := hclaim handedBack _ _ _ _ _ _ s s' (.of_lt hnil (by decide) (by decide) (by decide))
    (isMerge_of_lt hnil (by decide) (by decide)) (isMerge_of_lt hnil (by decide) (by decide)) hs hs'
    (complete_of_lt Nat.one_pos hc) (complete_of_lt Nat.one_pos hc')
  have h := hrecord.symm.trans ((congrFun hsame [48]).trans hrecord')
  exact absurd h (by decide)

end Calvin.Replica
