import Calvin.Scheduler.Replicas

/-!
# One record at a time

A node in mode 2 that executes a transaction of one local record while no other is
under way: what it is like once the transaction has its lock, is dispatched, has its
manager, and is finished.
-/

namespace Calvin.Replicas

open Function Lib Microbenchmark DeterministicScheduler

/-- A transaction that writes one local record. -/
structure OneRecord (cfg : ClusterConfig) (txn : TxnProto) (k : Key) (c : Nat) : Prop where
  readSet : txn.readSet = []
  readWriteSet : txn.readWriteSet = [⟨k, txn.originReplica, c⟩]
  isLocal : cfg.lookupPartition k = cfg.relativeNodeId
  readers : cfg.relativeNodeId ∈ txn.readers

variable {cfg : ClusterConfig} {txns : Ptr → TxnProto} {n : Node} {p : Ptr} {k : Key} {c : Nat}

theorem OneRecord.locks (h : OneRecord cfg (txns p) k c) :
    LockManager.locks cfg 2 (txns p).originReplica ⟨k, (txns p).originReplica, c⟩ = true := by
  simp [LockManager.locks, ClusterConfig.isLocal, h.isLocal]

theorem OneRecord.lock (h : OneRecord cfg (txns p) k c)
    (hfree : n.lockManager.lockTable.find? k = none) :
    lock cfg 2 txns n p =
      { n with
        lockManager :=
          { n.lockManager with lockTable := n.lockManager.lockTable.insert k [⟨.write, p⟩] }
        readyTxns := n.readyTxns ++ [p]
        locked := n.locked ++ [p] } := by
  simp [DeterministicScheduler.lock, LockManager.lock, LockManager.lockEntry, h.readSet,
    h.readWriteSet, h.locks, LockManager.request, hfree, LockManager.notGranted]

theorem OneRecord.release (h : OneRecord cfg (txns p) k c)
    (hlock : n.lockManager.lockTable.find? k = some [⟨.write, p⟩]) :
    n.lockManager.release cfg 2 p (txns p) =
      some ({ n.lockManager with lockTable := n.lockManager.lockTable.erase k }, []) := by
  simp [LockManager.release, LockManager.releaseEntries, h.readSet, h.readWriteSet, h.locks,
    LockManager.releaseKey, hlock, LockManager.newOwners, LockManager.grant]

/-- The manager of the transaction. -/
def oneManager (cfg : ClusterConfig) (store : Key → Record) (txn : TxnProto) (k : Key) (c : Nat) :
    StorageManager where
  objects := AList.insert k .stored ∅
  localEntries := [(k, store k)]
  localCommit := StorageManager.upToDate (store k) ⟨k, txn.originReplica, c⟩
  involvedMachines := [(cfg.relativeNodeId, txn.originReplica)]
  minInvolvedMachine := some (StorageManager.minMachine [(cfg.relativeNodeId, txn.originReplica)])
  writer := decide (cfg.relativeNodeId ∈ txn.writers)

theorem oneManager_lookup (cfg : ClusterConfig) (store : Key → Record) (txn : TxnProto) (k : Key)
    (c : Nat) : (oneManager cfg store txn k c).objects.lookup k = some .stored :=
  AList.lookup_insert _

theorem OneRecord.create {txn : TxnProto} (h : OneRecord cfg txn k c) (store : Key → Record) :
    StorageManager.create cfg 2 store txn = (oneManager cfg store txn k c, []) := by
  simp [StorageManager.create, h.readers, h.readSet, h.readWriteSet, StorageManager.readWriteEntry,
    StorageManager.addInvolvedMachine, h.isLocal, StorageManager.readLocal, oneManager,
    StorageManager.destinations]


/-- A node in which no transaction is under way, after `p` transactions. -/
structure Idle (k : Key) (n : Node) (p : Ptr) : Prop where
  free : n.lockManager.lockTable.find? k = none
  next : n.next = p
  verifying : n.verifying = none
  blocking : ∀ o, n.waits.blockingTxns o = []
  ready : n.readyTxns = []
  queue : n.txnsQueue = []
  done : n.doneQueue = []

/-- A node in which one transaction has its lock. -/
structure Under (k : Key) (store : Key → Record) (n : Node) (p : Ptr) (ready queue : List Ptr) :
    Prop where
  lock : n.lockManager.lockTable.find? k = some [⟨.write, p⟩]
  next : n.next = p + 1
  verifying : n.verifying = none
  blocking : ∀ o, n.waits.blockingTxns o = []
  ready : n.readyTxns = ready
  queue : n.txnsQueue = queue
  done : n.doneQueue = []
  status : n.status p = .new
  store : n.store = store

theorem route_lock (m : Node) (hverifying : m.verifying = some ([], {}))
    (hstatus : m.status m.next = .new) (hblocking : ∀ o, m.waits.blockingTxns o = []) :
    DeterministicScheduler.route cfg 2 txns m =
      some { lock cfg 2 txns m m.next with next := m.next + 1, verifying := none } := by
  simp [DeterministicScheduler.route, hverifying, routeVerified, hstatus, hblocking]

theorem OneRecord.under (h : OneRecord cfg (txns p) k c)
    (hfree : n.lockManager.lockTable.find? k = none)
    (hblocking : ∀ o, n.waits.blockingTxns o = []) (hready : n.readyTxns = [])
    (hqueue : n.txnsQueue = []) (hdone : n.doneQueue = []) (hstatus : n.status p = .new) :
    Under k n.store
      { DeterministicScheduler.lock cfg 2 txns n p with next := p + 1, verifying := none } p [p]
      [] := by
  rw [h.lock hfree]
  exact ⟨by simp, rfl, rfl, hblocking, by simp [hready], hqueue, hdone, hstatus, rfl⟩

/-- A normal transaction is verified and gets its lock. -/
theorem Idle.verified (hn : Idle k n p) (h : OneRecord cfg (txns p) k c)
    (hr : (txns p).remasterTxn = false) (hstatus : (txns p).status = .new)
    (hcounter : (n.store k).counter = c) :
    ∃ n₁ n₂ n₃, parse cfg 2 txns (load txns n) = some n₁ ∧ verify cfg txns n₁ = some n₂ ∧
      DeterministicScheduler.route cfg 2 txns n₂ = some n₃ ∧ Under k n.store n₃ p [p] [] := by
  obtain ⟨hfree, rfl, hverifying, hblocking, hready, hqueue, hdone⟩ := hn
  have hnew : (load txns n).status n.next = .new := (update_self _ _ _).trans hstatus
  refine ⟨{ load txns n with verifying := some ([⟨k, (txns n.next).originReplica, c⟩], {}) },
    { load txns n with verifying := some ([], {}) }, _, ?_, ?_, route_lock _ rfl hnew hblocking,
    h.under (n := { load txns n with verifying := some ([], {}) }) hfree hblocking hready hqueue
      hdone hnew⟩
  · simp [parse, load, hverifying, hr, h.readSet, h.readWriteSet]
  · simp [verify, load, verifyEntry, hcounter]

/-- A remaster transaction gets its lock at once. -/
theorem Idle.parsed (hn : Idle k n p) (h : OneRecord cfg (txns p) k c)
    (hr : (txns p).remasterTxn = true) (hstatus : (txns p).status = .new) :
    ∃ n', parse cfg 2 txns (load txns n) = some n' ∧ Under k n.store n' p [p] [] := by
  obtain ⟨hfree, rfl, hverifying, hblocking, hready, hqueue, hdone⟩ := hn
  have hnew : (load txns n).status n.next = .new := (update_self _ _ _).trans hstatus
  refine ⟨_, ?_, h.under (n := load txns n) hfree hblocking hready hqueue hdone hnew⟩
  simp [parse, load, hverifying, hr, DeterministicScheduler.lock]

theorem Under.dispatch {store : Key → Record} (hn : Under k store n p [p] []) :
    ∃ n', dispatch n = some n' ∧ Under k store n' p [] [p] := by
  obtain ⟨hlock, hnext, hverifying, hblocking, hready, hqueue, hdone, hstatus, hstore⟩ := hn
  refine ⟨{ n with readyTxns := [], txnsQueue := n.txnsQueue ++ [p] }, ?_, ?_⟩
  · simp [DeterministicScheduler.dispatch, hverifying, hready]
  · exact ⟨hlock, hnext, hverifying, hblocking, rfl, by simp [hqueue], hdone, hstatus, hstore⟩

theorem Under.start {store : Key → Record} (hn : Under k store n p [] [p])
    (h : OneRecord cfg (txns p) k c) :
    ∃ n', DeterministicScheduler.start cfg 2 txns n = some (n', []) ∧ Under k store n' p [] [] ∧
      n'.managers p = some (oneManager cfg store (txns p) k c) := by
  obtain ⟨hlock, hnext, hverifying, hblocking, hready, hqueue, hdone, hstatus, rfl⟩ := hn
  have hof : OneRecord cfg (txnOf txns n p) k c := ⟨h.readSet, h.readWriteSet, h.isLocal, h.readers⟩
  refine ⟨{ n with
    txnsQueue := []
    managers := update n.managers p (some (oneManager cfg n.store (txns p) k c)) }, ?_, ?_, ?_⟩
  · simp only [DeterministicScheduler.start, hqueue, hof.create]
    rfl
  · exact ⟨hlock, hnext, hverifying, hblocking, hready, rfl, hdone, hstatus, rfl⟩
  · exact update_self _ _ _

theorem Under.run {store store' : Key → Record} (compute : Compute) (guid random : Nat)
    (hn : Under k store n p [] []) (h : OneRecord cfg (txns p) k c)
    (hsm : n.managers p = some (oneManager cfg store (txns p) k c))
    (hmaster : (store k).master = (txns p).originReplica) (hcounter : (store k).counter = c)
    (hexecute : execute compute (txnOf txns n p) (oneManager cfg store (txns p) k c) store =
      some store') :
    DeterministicScheduler.run cfg 2 txns compute n p guid random =
      some (finish { n with store := store' } p .committed, none) := by
  obtain ⟨-, -, -, -, -, -, -, hstatus, rfl⟩ := hn
  have hready : (oneManager cfg n.store (txns p) k c).readyToExecute (txns p) = true := by
    simp [StorageManager.readyToExecute, oneManager, h.readSet, h.readWriteSet]
  have hcommit : (oneManager cfg n.store (txns p) k c).checkCommitOrAbort cfg n.store
      (txnOf txns n p) guid random = some (true, .new, none) := by
    simp [StorageManager.checkCommitOrAbort, StorageManager.decision, oneManager, txnOf, hstatus,
      StorageManager.upToDate, hmaster, hcounter]
  simp [DeterministicScheduler.run, hsm, hready, hcommit, hexecute]

theorem Under.handleDone {store store' : Key → Record} (hn : Under k store n p [] [])
    (h : OneRecord cfg (txns p) k c) (hr : (txns p).remasterTxn = false) :
    ∃ n', handleDone cfg 2 txns (finish { n with store := store' } p .committed) = some n' ∧
      Idle k n' (p + 1) ∧ n'.store = store' := by
  obtain ⟨hlock, hnext, hverifying, hblocking, hready, hqueue, hdone, -, -⟩ := hn
  have hrelease := h.release (n := n) hlock
  refine ⟨{ finish { n with store := store' } p .committed with
    lockManager := { n.lockManager with lockTable := n.lockManager.lockTable.erase k }
    readyTxns := n.readyTxns ++ []
    doneQueue := []
    deleted := p :: n.deleted }, ?_, ?_, rfl⟩
  · simp [DeterministicScheduler.handleDone, finish, hverifying, hdone, wakeUp, hr, releaseDone,
      hrelease]
  · exact ⟨by simp, hnext, hverifying, hblocking, by simp [hready], hqueue, rfl⟩

end Calvin.Replicas
