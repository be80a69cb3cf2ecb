import Mathlib.Algebra.BigOperators.Group.Finset.Basic
import Mathlib.Algebra.Order.BigOperators.Group.Finset
import Calvin.Theorems.NoDeadlock

/-!
# Every run of a replica ends

In mode 1 a replica with finitely many transactions takes finitely many steps, in
any interleaving, and it takes no step only when everything is done.

* `stepsLeft`: a bound on the steps to come, which each step makes smaller;
* `no_step`: a state without a step has executed everything, and given all locks back;
* `run_ends`: both together, when no two transactions have the same name.
-/

namespace Calvin.Replica

open Function Lib LockManager DeterministicScheduler

/-! ## Steps left -/

/-- How far a node is with a transaction. -/
def stage (node : Node) (p : Ptr) : Nat :=
  if p ∈ node.deleted then 4
  else if p ∈ node.doneQueue then 3
  else if (node.managers p).isSome then 2
  else if p ∈ node.txnsQueue then 1
  else 0

/-- The stage of a phase; that of a ready transaction is in none of the queues. -/
def phaseStage : Phase → Nat
  | .waiting => 0
  | .ready => 0
  | .queued => 1
  | .running => 2
  | .done => 3
  | .released => 4

/-- The steps for a transaction, and the messages it is going to send. -/
def stepsOf (txn : TxnProto) (stage : Nat) : Nat :=
  4 - stage + if stage < 2 then txn.readWriteSet.length else 0

/-- The steps left at a node; each transaction is still to be parsed, or was. -/
def nodeSteps (cfg : ClusterConfig) (merge : List TxnProto) (m : Nat) (node : Node) : Nat :=
  (stream cfg merge m).length - node.next +
    ∑ p ∈ Finset.range (stream cfg merge m).length, stepsOf (txnAt cfg merge m p) (stage node p)

/-- The steps left, with the messages to be delivered. -/
def stepsLeft (cfg : ClusterConfig) (merge : List TxnProto) (s : Replica) : Nat :=
  ∑ m ∈ Finset.range cfg.nodesPerReplica, nodeSteps cfg merge m (s.nodes m) + s.network.length

variable {cfg : ClusterConfig} {logs : Nat → List TxnProto} {master : Key → Nat}
  {serial : List ClientTxn} {merge : List TxnProto} {compute : Compute} {init : Key → Record}
  {s s' : Replica} {m : Nat} {p q : Ptr} {node node' : Node} {phase : Ptr → Phase}
  {pushed : List Ptr} {freed : Ptr → List Key}

/-- One summand that gets smaller while none grows. -/
theorem sum_add_le {n i d : Nat} {f g : Nat → Nat} (hi : i < n) (hle : ∀ j, f j ≤ g j)
    (hd : f i + d ≤ g i) : ∑ j ∈ Finset.range n, f j + d ≤ ∑ j ∈ Finset.range n, g j := by
  have hmem : i ∈ Finset.range n := Finset.mem_range.mpr hi
  have hrest : ∑ j ∈ (Finset.range n).erase i, f j ≤ ∑ j ∈ (Finset.range n).erase i, g j :=
    Finset.sum_le_sum fun j _ => hle j
  rw [← Finset.add_sum_erase _ _ hmem, ← Finset.add_sum_erase _ g hmem]
  omega

theorem stepsOf_le (txn : TxnProto) {a b : Nat} (h : a ≤ b) : stepsOf txn b ≤ stepsOf txn a := by
  unfold stepsOf
  split_ifs <;> omega

theorem stepsOf_lt (txn : TxnProto) {a b : Nat} (h : a < b) (hb : b ≤ 4) :
    stepsOf txn b + 1 ≤ stepsOf txn a := by
  unfold stepsOf
  split_ifs <;> omega

/-- The step that sends the messages of a transaction. -/
theorem stepsOf_start (txn : TxnProto) :
    stepsOf txn 2 + (1 + txn.readWriteSet.length) = stepsOf txn 1 := by
  simp only [stepsOf, Nat.lt_irrefl, if_false, if_pos (show 1 < 2 by decide)]
  omega

theorem stepsOf_zero (txn : TxnProto) : stepsOf txn 0 = 4 + txn.readWriteSet.length := by
  simp [stepsOf]

theorem phaseStage_le (x : Phase) : phaseStage x ≤ 4 := by
  cases x <;> decide

theorem stage_eq (hs : Scheduled (nodeConfig cfg m) 1 (txnAt cfg merge m) node phase pushed freed)
    (p : Ptr) : stage node p = phaseStage (phase p) := by
  simp only [stage, hs.deleted, hs.done, hs.running, hs.queued]
  cases phase p <;> rfl

/-- A transaction that moves on takes the node no step back. -/
theorem phaseStage_update {x : Phase} (h : phaseStage (phase p) ≤ phaseStage x) (q : Ptr) :
    phaseStage (phase q) ≤ phaseStage (update phase p x q) := by
  by_cases hq : q = p
  · rw [hq, update_self]
    exact h
  · rw [update_of_ne hq]

theorem nodeSteps_parse (hnext : node'.next = node.next + 1)
    (hlt : node.next < (stream cfg merge m).length) (hstage : ∀ p, stage node' p = stage node p) :
    nodeSteps cfg merge m node' + 1 ≤ nodeSteps cfg merge m node := by
  unfold nodeSteps
  simp only [hstage, hnext]
  omega

/-- A transaction moves on. -/
theorem nodeSteps_move {d : Nat} {phase' : Ptr → Phase} {pushed' : List Ptr}
    {freed' : Ptr → List Key}
    (hs : Scheduled (nodeConfig cfg m) 1 (txnAt cfg merge m) node phase pushed freed)
    (hs' : Scheduled (nodeConfig cfg m) 1 (txnAt cfg merge m) node' phase' pushed' freed')
    (hnext : node'.next = node.next) (hp : p < (stream cfg merge m).length)
    (hle : ∀ q, phaseStage (phase q) ≤ phaseStage (phase' q))
    (hd : stepsOf (txnAt cfg merge m p) (phaseStage (phase' p)) + d ≤
      stepsOf (txnAt cfg merge m p) (phaseStage (phase p))) :
    nodeSteps cfg merge m node' + d ≤ nodeSteps cfg merge m node := by
  have hsum := sum_add_le hp (fun q => stepsOf_le (txnAt cfg merge m q) (hle q)) hd
  unfold nodeSteps
  simp only [stage_eq hs, stage_eq hs', hnext]
  omega

/-- From one phase to a later one. -/
theorem nodeSteps_update {x : Phase} {pushed' : List Ptr} {freed' : Ptr → List Key}
    (hs : Scheduled (nodeConfig cfg m) 1 (txnAt cfg merge m) node phase pushed freed)
    (hs' : Scheduled (nodeConfig cfg m) 1 (txnAt cfg merge m) node'
      (update phase p x) pushed' freed')
    (hnext : node'.next = node.next) (hp : p < (stream cfg merge m).length)
    (hlt : phaseStage (phase p) < phaseStage x) :
    nodeSteps cfg merge m node' + 1 ≤ nodeSteps cfg merge m node := by
  refine nodeSteps_move hs hs' hnext hp (phaseStage_update (Nat.le_of_lt hlt)) ?_
  rw [update_self]
  exact stepsOf_lt _ hlt (phaseStage_le x)

theorem stepsLeft_setNode {d : Nat} {network : List ReadResult} (hm : m < cfg.nodesPerReplica)
    (hnode : nodeSteps cfg merge m node + d ≤ nodeSteps cfg merge m (s.nodes m))
    (hnetwork : network.length < s.network.length + d) :
    stepsLeft cfg merge { setNode s m node with network } < stepsLeft cfg merge s := by
  have hsum := sum_add_le (f := fun m' => nodeSteps cfg merge m' (update s.nodes m node m'))
    (g := fun m' => nodeSteps cfg merge m' (s.nodes m')) (d := d) hm (fun m' => ?_)
    (by simpa only [update_self] using hnode)
  · simp only [stepsLeft, setNode]
    omega
  · by_cases hmm : m' = m
    · subst hmm
      rw [update_self]
      omega
    · rw [update_of_ne hmm]

/-- Each writer elsewhere is sent to once. -/
theorem length_sent_le (cfg : ClusterConfig) (mode : Nat) (store : Key → Record) (txn : TxnProto) :
    (StorageManager.create cfg mode store txn).2.length ≤ txn.readWriteSet.length := by
  by_cases hreader : cfg.relativeNodeId ∈ txn.readers
  · obtain ⟨-, -, -, hsent⟩ := StorageManager.create_eq mode store hreader
    have hlen : (txn.readWriteSet.map (StorageManager.home cfg mode txn.originReplica)).length =
        txn.readWriteSet.length := List.length_map _
    rw [hsent, List.length_map, ← hlen]
    refine (StorageManager.destinations_nodup.subperm fun w hw => ?_).length_le
    obtain ⟨-, entry, he, rfl⟩ := StorageManager.mem_destinations.mp hw
    exact List.mem_map_of_mem he
  · unfold StorageManager.create
    rw [if_neg hreader]
    exact Nat.zero_le _

/-- A node with something to do is one of the partitions. -/
theorem lt_nodesPerReplica (hn : 0 < cfg.nodesPerReplica) (hp : p < (stream cfg merge m).length) :
    m < cfg.nodesPerReplica := by
  by_contra hge
  rw [stream_eq_nil hn (Nat.le_of_not_lt hge)] at hp
  exact absurd hp (Nat.not_lt_zero p)

/-- Every step of a replica makes the bound smaller. -/
theorem stepsLeft_lt (hn : 0 < cfg.nodesPerReplica) (hl : Logs logs master serial)
    (hm : IsMerge logs merge) (hi : Inv cfg merge master serial compute init s) {e : Event}
    (h : (machine cfg 1 merge compute init).next s e = some s') :
    stepsLeft cfg merge s' < stepsLeft cfg merge s := by
  have hlen : ∀ {m p phase pushed freed}, Scheduled (nodeConfig cfg m) 1 (txnAt cfg merge m)
      (s.nodes m) phase pushed freed → phase p ≠ .waiting → p < (stream cfg merge m).length :=
    fun hs hw => Nat.lt_of_lt_of_le (hs.lt_next hw) (hi.next _)
  cases e with
  | start m =>
      obtain ⟨⟨node, sent⟩, hstart, rfl⟩ := Option.map_eq_some_iff.mp h
      obtain ⟨phase, pushed, freed, hs⟩ := hi.scheduled m
      obtain ⟨p, rest, hq, hp, hs'⟩ := hs.start hstart
      obtain ⟨p', rest', hq', hsend, rfl⟩ := start_cases hstart
      rw [hq] at hq'
      obtain ⟨rfl, rfl⟩ := List.cons.inj hq'
      have hplen := hlen (p := p) hs (by rw [hp]; decide)
      have hsent := length_sent_le (nodeConfig cfg m) 1 (s.nodes m).store
        (txnOf (txnAt cfg merge m) (s.nodes m) p)
      refine stepsLeft_setNode (d := 1 + (txnAt cfg merge m p).readWriteSet.length)
        (lt_nodesPerReplica hn hplen) (nodeSteps_move hs hs' rfl hplen
          (phaseStage_update (by rw [hp]; decide)) ?_) ?_
      · rw [update_self, hp]
        exact (stepsOf_start _).le
      · rw [List.length_append]
        have hle : sent.length ≤ (txnAt cfg merge m p).readWriteSet.length := by
          rw [hsend]
          exact hsent
        omega
  | deliver m p i =>
      obtain ⟨msg, hmsg, h⟩ := Option.bind_eq_some_iff.mp h
      obtain ⟨-, h⟩ := Option.ite_none_right_eq_some.mp h
      obtain ⟨node, hread, rfl⟩ := Option.map_eq_some_iff.mp h
      obtain ⟨phase, pushed, freed, hs⟩ := hi.scheduled m
      have hs' := hs.readResult hread
      obtain ⟨sm, hsm, -, rfl⟩ := readResult_cases hread
      have hp : phase p = .running := (hs.running p).mp (by rw [hsm]; rfl)
      have hplen := hlen (p := p) hs (by rw [hp]; decide)
      have hi' : i < s.network.length := (List.getElem?_eq_some_iff.mp hmsg).1
      refine stepsLeft_setNode (d := 0) (lt_nodesPerReplica hn hplen)
        (nodeSteps_move hs hs' rfl hplen (fun _ => le_rfl) le_rfl) ?_
      rw [List.length_eraseIdx_of_lt hi']
      omega
  | node m e =>
      obtain ⟨phase, pushed, freed, hs⟩ := hi.scheduled m
      simp only [machine, nodeStep] at h
      cases e with
      | parse =>
          simp only [step] at h
          obtain ⟨hlt, h⟩ := Option.ite_none_right_eq_some.mp h
          obtain ⟨node, hparse, rfl⟩ := Option.map_eq_some_iff.mp h
          obtain ⟨phase', pushed', hs', hphase, hnext, -⟩ :=
            hs.parse (by decide) (hl.asks_nodup hm m) hparse
          refine stepsLeft_setNode (d := 1) (lt_nodesPerReplica hn hlt)
            (nodeSteps_parse hnext hlt fun q => ?_) (Nat.lt_succ_self _)
          rw [stage_eq hs, stage_eq hs']
          rcases hphase q with heq | ⟨hw, hr⟩
          · rw [heq]
          · rw [hw, hr]
            rfl
      | verify =>
          obtain ⟨node, hverify, -⟩ := Option.map_eq_some_iff.mp h
          obtain ⟨entry, rest, v, hv, -⟩ := verify_cases hverify
          rw [hs.verifying] at hv
          cases hv
      | route =>
          obtain ⟨node, hroute, -⟩ := Option.map_eq_some_iff.mp h
          obtain ⟨v, status, hv, -, -⟩ := route_cases hroute
          rw [hs.verifying] at hv
          cases hv
      | dispatch =>
          obtain ⟨node, hdispatch, rfl⟩ := Option.map_eq_some_iff.mp h
          obtain ⟨p, hp, hs'⟩ := hs.dispatch hdispatch
          have hplen := hlen (p := p) hs (by rw [hp]; decide)
          have hnext : node.next = (s.nodes m).next := by
            obtain ⟨-, p, rest, -, rfl⟩ := dispatch_cases hdispatch
            rfl
          exact stepsLeft_setNode (lt_nodesPerReplica hn hplen)
            (nodeSteps_update hs hs' hnext hplen (by rw [hp]; decide)) (Nat.lt_succ_self _)
      | handleDone =>
          obtain ⟨node, hdone, rfl⟩ := Option.map_eq_some_iff.mp h
          obtain ⟨p₀, phase', pushed', freed', -, hs', hphase, hnext, -⟩ :=
            hs.handleDone (by decide) (hl.asks_nodup hm m) hdone
          obtain ⟨p, rest, s₁, hq, -, rfl⟩ := handleDone_plain (by decide) hdone
          have hp : phase p = .done := (hs.done p).mp (hq ▸ List.mem_cons_self)
          have hp' : phase' p = .released := (hs'.deleted p).mp List.mem_cons_self
          have hplen := hlen (p := p) hs (by rw [hp]; decide)
          refine stepsLeft_setNode (d := 1) (lt_nodesPerReplica hn hplen)
            (nodeSteps_move hs hs' hnext hplen (fun q => ?_) ?_) (Nat.lt_succ_self _)
          · rcases hphase q with heq | ⟨hw, hr⟩ | ⟨-, hrel⟩
            · rw [heq]
            · rw [hw, hr]
              decide
            · rw [hrel]
              exact phaseStage_le _
          · rw [hp, hp']
            exact stepsOf_lt _ (by decide) (by decide)
      | start => cases h
      | readResult p entries => cases h
      | run p guid random =>
          obtain ⟨node, hnode, rfl⟩ := Option.map_eq_some_iff.mp h
          obtain ⟨⟨node', forword⟩, hrun, rfl⟩ := Option.map_eq_some_iff.mp hnode
          obtain ⟨hp, hs'⟩ := hs.run (by decide) hrun
          obtain ⟨sm, store, -, -, -, rfl⟩ := run_plain (by decide) hrun
          have hplen := hlen (p := p) hs (by rw [hp]; decide)
          exact stepsLeft_setNode (lt_nodesPerReplica hn hplen)
            (nodeSteps_update hs hs' rfl hplen (by rw [hp]; decide)) (Nat.lt_succ_self _)

/-! ## The end of a run -/

/-- In a state without a step every node has released every transaction of its
batches. -/
theorem no_step (hl : Logs logs master serial) (hm : IsMerge logs merge)
    (hwrites : ∀ txn ∈ serial, ∀ entry ∈ txn.entries, ∃ w ∈ txn.readWriteSet,
      cfg.lookupPartition w.key = cfg.lookupPartition entry.key ∧ w.master = entry.master)
    (hi : Inv cfg merge master serial compute init s) (hx : Exchange cfg merge master s)
    (hend : ∀ e, (machine cfg 1 merge compute init).next s e = none) :
    ∀ m, ∀ p < (stream cfg merge m).length, p ∈ (s.nodes m).deleted := by
  have hparsed : ∀ m, ∀ p < (stream cfg merge m).length, p < (s.nodes m).next := by
    intro m p hp
    obtain ⟨phase, pushed, freed, hs⟩ := hi.scheduled m
    by_contra hle
    have hlt : (s.nodes m).next < (stream cfg merge m).length := by omega
    have hnone := hend (.node m .parse)
    have hmode : ¬ (1 = 2 ∧ (txnAt cfg merge m (s.nodes m).next).remasterTxn = false) := fun h => by
      cases h.1
    simp only [machine, nodeStep, step, parse, hs.verifying, Option.isNone_none, if_true,
      if_neg hmode, if_pos hlt, Option.map_some] at hnone
    cases hnone
  have hquiet : ∀ m p sm, (s.nodes m).managers p = some sm →
      sm.readyToExecute (txnAt cfg merge m p) = false →
      ∀ msg ∈ s.network, ¬ IsFor cfg merge m p msg := by
    intro m p sm hsm hnot msg hmsg hfor
    obtain ⟨i, hi, rfl⟩ := List.mem_iff_getElem.mp hmsg
    have hnone := hend (.deliver m p i)
    simp only [machine, deliver, List.getElem?_eq_getElem hi, Option.bind_some,
      if_pos (show _ ∧ _ from hfor), DeterministicScheduler.readResult, hsm, hnot,
      Bool.false_eq_true, if_false, Option.map_some] at hnone
    cases hnone
  intro m p hp
  by_contra hnot
  refine none_unfinished_of_quiet hl hm hi hx hwrites hparsed hquiet ?_ _ m p ⟨hp, hnot⟩ rfl
  rintro ⟨e, -, -, -, -, s', hs'⟩
  rw [hend e] at hs'
  cases hs'

/-! ## Main results -/

/-- The steps and messages of the transactions that the nodes schedule. -/
def maxSteps (cfg : ClusterConfig) (merge : List TxnProto) : Nat :=
  ∑ m ∈ Finset.range cfg.nodesPerReplica, ∑ p ∈ Finset.range (stream cfg merge m).length,
    (5 + (txnAt cfg merge m p).readWriteSet.length)

theorem stepsLeft_init :
    stepsLeft cfg merge (machine cfg 1 merge compute init).init = maxSteps cfg merge := by
  have hnode : ∀ m, nodeSteps cfg merge m (initial (txnAt cfg merge m) init) =
      ∑ p ∈ Finset.range (stream cfg merge m).length,
        (5 + (txnAt cfg merge m p).readWriteSet.length) := by
    intro m
    have hstep : ∀ p, 5 + (txnAt cfg merge m p).readWriteSet.length =
        1 + stepsOf (txnAt cfg merge m p) (stage (initial (txnAt cfg merge m) init) p) := by
      intro p
      rw [show stage (initial (txnAt cfg merge m) init) p = 0 from rfl, stepsOf_zero]
      omega
    simp only [hstep, Finset.sum_add_distrib, ← Finset.card_eq_sum_ones, Finset.card_range]
    rfl
  simp only [stepsLeft, machine, hnode, maxSteps, List.length_nil, Nat.add_zero]

section

variable (hl : Logs logs master serial) (hm : IsMerge logs merge)
  (hnames : (serial.map fun txn => txn.txnId % UInt32.size).Nodup)

include hl hm hnames

theorem length_le_maxSteps (hn : 0 < cfg.nodesPerReplica) {es : List Event}
    (hrun : (machine cfg 1 merge compute init).trace es = some s) :
    es.length ≤ maxSteps cfg merge := by
  have hle := Machine.length_le_of_decreases (fun s e s' hs hnext =>
    stepsLeft_lt hn hl hm (inv_of_reach hl hm (reach_of_reachable hl hm hnames hs)) hnext) .init
      hrun
  rw [stepsLeft_init] at hle
  omega

theorem all_released
    (hwrites : ∀ txn ∈ serial, ∀ entry ∈ txn.entries, ∃ w ∈ txn.readWriteSet,
      cfg.lookupPartition w.key = cfg.lookupPartition entry.key ∧ w.master = entry.master)
    (hs : (machine cfg 1 merge compute init).Reachable s)
    (hend : ∀ e, (machine cfg 1 merge compute init).next s e = none) :
    (∀ m, ∀ p < (stream cfg merge m).length, p ∈ (s.nodes m).deleted) ∧
      records cfg s = serial.foldl (runAlone compute) init := by
  have hreach := reach_of_reachable hl hm hnames hs
  have hi := inv_of_reach hl hm hreach
  have hall := no_step hl hm hwrites hi (exchange_of_reach hl hm hreach) hend
  exact ⟨hall, records_eq hl hm hi fun m p hp => .inr (hall m p hp)⟩

end

/-- With distinct names, and a record to write at each participant: no run takes
more than `maxSteps` steps, each can be continued to one that ends, and where a run
ends everything is executed as in the serial order, and all locks are released. -/
theorem run_ends (logs : Nat → List TxnProto) (master : Key → Nat) (serial : List ClientTxn)
    (hl : Logs logs master serial)
    (hnames : (serial.map fun txn => txn.txnId % UInt32.size).Nodup)
    (compute : Compute) (init : Key → Record) (cfg : ClusterConfig) (hn : 0 < cfg.nodesPerReplica)
    (hwrites : ∀ txn ∈ serial, ∀ entry ∈ txn.entries, ∃ w ∈ txn.readWriteSet,
      cfg.lookupPartition w.key = cfg.lookupPartition entry.key ∧ w.master = entry.master)
    (merge : List TxnProto) (hm : IsMerge logs merge) :
    (∀ es s, (machine cfg 1 merge compute init).trace es = some s →
      es.length ≤ maxSteps cfg merge) ∧
    (∀ s, (machine cfg 1 merge compute init).Reachable s →
      ∃ es t, (machine cfg 1 merge compute init).run s es = some t ∧
        ∀ e, (machine cfg 1 merge compute init).next t e = none) ∧
    ∀ s, (machine cfg 1 merge compute init).Reachable s →
      (∀ e, (machine cfg 1 merge compute init).next s e = none) →
      (∀ m, ∀ p < (stream cfg merge m).length, p ∈ (s.nodes m).deleted) ∧
        records cfg s = serial.foldl (runAlone compute) init := by
  have hbound : ∀ es s, (machine cfg 1 merge compute init).trace es = some s →
      es.length ≤ maxSteps cfg merge := fun es s => length_le_maxSteps hl hm hnames hn
  exact ⟨hbound, fun s hs => Machine.exists_end hbound hs, fun s hs hend =>
    all_released hl hm hnames hwrites hs hend⟩

/-- Two transactions of one origin on two partitions. -/
theorem run_ends_twoPartitions :
    let serial : List ClientTxn := [{ txnId := 7, readWriteSet := [⟨[48], 0, 0⟩, ⟨[49], 0, 0⟩] },
      { txnId := 8, readWriteSet := [⟨[48], 0, 0⟩, ⟨[51], 0, 0⟩] }]
    let cfg : ClusterConfig := { nodesPerReplica := 2 }
    let init : Key → Record := fun _ => ⟨[], 0, 0⟩
    let compute : Compute := fun _ _ _ => []
    let replica := machine cfg 1 (logsOf serial 0) compute init
    (∀ es s, replica.trace es = some s → es.length ≤ 28) ∧
      ∃ es t, replica.trace es = some t ∧ records cfg t = serial.foldl (runAlone compute) init := by
  intro serial cfg init compute replica
  have hm : IsMerge (logsOf serial) (logsOf serial 0) := by
    intro r
    match r with
    | 0 => decide
    | r + 1 => simp [serial, logsOf, copyAt, Involves, ClientTxn.entries]
  obtain ⟨hbound, hgoes, hends⟩ := run_ends (logsOf serial) (fun _ => 0) serial
    (logs_logsOf (by decide) (by decide) (by decide)) (by decide) compute init cfg (by decide)
    (by decide) (logsOf serial 0) hm
  have hmax : maxSteps cfg (logsOf serial 0) = 28 := by decide
  obtain ⟨es, t, hrun, hend⟩ := hgoes _ .init
  exact ⟨fun es s hrun => hmax ▸ hbound es s hrun, es, t, hrun,
    (hends t (Machine.Reachable.run .init hrun) hend).2⟩

end Calvin.Replica
