import Calvin.Applications.Microbenchmark
import Calvin.Lib.Machine
import Calvin.Scheduler.LockManager
import Calvin.Scheduler.RemasterWaits

/-!
# The deterministic scheduler of a node

`RunLockManagerThread`, `RunWorkerThread` and `VerifyStorageCounters` of
`scheduler/deterministic_scheduler.cc`. The lock manager thread takes the
transactions of the batches one after another; workers run concurrently with
it, also between two entries that `VerifyStorageCounters` looks up.

* `Node`: the state of the two kinds of threads;
* `Event`, `machine`: their steps, in any interleaving.

The transactions a node parses are numbered; `txns` gives them as they arrive.
What changes in a transaction later (`status`, `wait_for_remaster_pros`) is in
the state of the node.
-/

namespace Calvin

open Function Lib

/-- What `VerifyStorageCounters` has found in the entries so far. -/
structure Verify where
  keys : List (Key × Nat) := []
  canExecuteNow : Bool := true
  aborted : Bool := false
deriving DecidableEq, Repr

structure Node where
  lockManager : LockManager := {}
  /-- The transactions parsed so far. -/
  next : Nat := 0
  /-- The entries that `VerifyStorageCounters` still has to look up. -/
  verifying : Option (List KeyEntry × Verify) := none
  waits : RemasterWaits
  status : Ptr → Status
  readyTxns : List Ptr := []
  txnsQueue : List Ptr := []
  /-- The transactions of the workers, with their managers. -/
  managers : Ptr → Option StorageManager := fun _ => none
  doneQueue : List Ptr := []
  deleted : List Ptr := []
  store : Key → Record
  /-- History: the calls of `Lock`. -/
  locked : List Ptr := []

namespace DeterministicScheduler

inductive Event
  /-- The lock manager thread parses the next transaction. -/
  | parse
  /-- `VerifyStorageCounters` looks up one entry of it. -/
  | verify
  /-- It is blocked, passed on without locks, or passed to `Lock`. -/
  | route
  /-- The lock manager thread moves a ready transaction to `txns_queue_`. -/
  | dispatch
  /-- The lock manager thread handles a finished transaction. -/
  | handleDone
  /-- A worker creates the manager of a transaction. -/
  | start
  /-- A worker handles a `READ_RESULT` message. -/
  | readResult (p : Ptr) (entries : List (Key × Record))
  /-- A worker executes or aborts a transaction whose objects are complete. -/
  | run (p : Ptr) (guid random : Nat)
deriving DecidableEq, Repr

section

variable (cfg : ClusterConfig) (mode : Nat) (txns : Ptr → TxnProto) (compute : Compute)

/-- One round of the loops of `VerifyStorageCounters`. -/
def verifyEntry (store : Key → Record) (origin : Nat) (entry : KeyEntry) (v : Verify) : Verify :=
  if cfg.isLocal entry.key ∧ entry.master = origin then
    if (store entry.key).counter < entry.counter then
      { v with keys := v.keys.insert (entry.key, entry.counter), canExecuteNow := false }
    else if entry.counter < (store entry.key).counter then { v with aborted := true }
    else v
  else v

/-- `Lock` on a transaction. -/
def lock (s : Node) (p : Ptr) : Node :=
  let (lockManager, pushed) := s.lockManager.lock cfg mode p (txns p)
  { s with lockManager, readyTxns := s.readyTxns ++ pushed, locked := s.locked ++ [p] }

/-- Take the next transaction of the batches. -/
def parse (s : Node) : Option Node :=
  if s.verifying.isNone then
    let txn := txns s.next
    if mode = 2 ∧ txn.remasterTxn = false then
      some { s with verifying := some (txn.readSet ++ txn.readWriteSet, {}) }
    else some { lock cfg mode txns s s.next with next := s.next + 1 }
  else none

def verify (s : Node) : Option Node :=
  match s.verifying with
  | some (entry :: rest, v) =>
      some { s with
        verifying :=
          some (rest, verifyEntry cfg s.store (txns s.next).originReplica entry v) }
  | _ => none

/-- What happens to a transaction after `VerifyStorageCounters`. -/
def routeVerified (s : Node) (p : Ptr) (v : Verify) : Node :=
  let origin := (txns p).originReplica
  if v.canExecuteNow = false then
    { s with waits := s.waits.putToWait txns p v.keys }
  else if s.status p = .abortedWithoutLock then
    { s with readyTxns := s.readyTxns ++ [p] }
  else if s.waits.blockingTxns origin ≠ [] then
    { s with waits := s.waits.block txns p }
  else lock cfg mode txns s p

def route (s : Node) : Option Node :=
  match s.verifying with
  | some ([], v) =>
      let s :=
        if v.aborted then { s with status := update s.status s.next .abortedWithoutLock } else s
      some { routeVerified cfg mode txns s s.next v with next := s.next + 1, verifying := none }
  | _ => none

/-- What a finished transaction wakes up; `none` is the use of a deleted
transaction. -/
def wakeUp (s : Node) (p : Ptr) : Option (RemasterWaits × List Ptr) :=
  if mode = 2 ∧ (txns p).remasterTxn then
    (txns p).readWriteSet.head?.bind fun entry =>
      let keyInfo := (entry.key, entry.counter + 1)
      if ∃ a ∈ s.waits.waitingTxnsByKey keyInfo, a ∈ s.deleted then none
      else s.waits.wake txns keyInfo
  else some (s.waits, [])

/-- `Release`, unless the transaction was aborted without locks. -/
def releaseDone (s : Node) (p : Ptr) : Option Node :=
  if s.status p = .abortedWithoutLock then some s
  else
    (s.lockManager.release cfg mode p (txns p)).map fun (lockManager, pushed) =>
      { s with lockManager, readyTxns := s.readyTxns ++ pushed }

def handleDone (s : Node) : Option Node :=
  if s.verifying.isNone then
    match s.doneQueue with
    | [] => none
    | p :: rest =>
        (wakeUp mode txns s p).bind fun (waits, readyToLock) =>
          let s := readyToLock.foldl (lock cfg mode txns) { s with waits, doneQueue := rest }
          (releaseDone cfg mode txns s p).map fun s => { s with deleted := p :: s.deleted }
  else none

def dispatch (s : Node) : Option Node :=
  if s.verifying.isNone then
    match s.readyTxns with
    | [] => none
    | p :: rest => some { s with readyTxns := rest, txnsQueue := s.txnsQueue ++ [p] }
  else none

/-- The transaction as the workers see it. -/
def txnOf (s : Node) (p : Ptr) : TxnProto :=
  { txns p with
    status := s.status p, waitForRemasterPros := s.waits.waitForRemasterPros p }

/-- Create the manager of the oldest transaction in `txns_queue_`; the messages
it sends are part of the result. -/
def start (s : Node) : Option (Node × List ReadResult) :=
  match s.txnsQueue with
  | [] => none
  | p :: rest =>
      let (sm, sent) := StorageManager.create cfg mode s.store (txnOf txns s p)
      some ({ s with txnsQueue := rest, managers := update s.managers p (some sm) }, sent)

/-- A transaction gets read results as long as it is in `active_txns`. -/
def readResult (s : Node) (p : Ptr) (entries : List (Key × Record)) : Option Node :=
  (s.managers p).bind fun sm =>
    if sm.readyToExecute (txns p) then none
    else some { s with managers := update s.managers p (some (sm.handleReadResult entries)) }

/-- The transaction is finished with a status. -/
def finish (s : Node) (p : Ptr) (status : Status) : Node :=
  { s with
    status := update s.status p status
    managers := update s.managers p none
    doneQueue := s.doneQueue ++ [p] }

/-- Execute or abort; the transaction that is sent again is part of the
result. -/
def run (s : Node) (p : Ptr) (guid random : Nat) : Option (Node × Option TxnForword) :=
  (s.managers p).bind fun sm =>
    if sm.readyToExecute (txns p) then
      let txn := txnOf txns s p
      let commit :=
        (Microbenchmark.execute compute txn sm s.store).map fun store =>
          (finish { s with store } p .committed, none)
      if mode = 2 then
        (sm.checkCommitOrAbort cfg s.store txn guid random).bind fun (decision, status, forword) =>
          if decision = false then some (finish s p status, forword) else commit
      else commit
    else none

/-- The steps of the node; what it sends to others is left out. -/
def step (s : Node) : Event → Option Node
  | .parse => parse cfg mode txns s
  | .verify => verify cfg txns s
  | .route => route cfg mode txns s
  | .dispatch => dispatch s
  | .handleDone => handleDone cfg mode txns s
  | .start => (start cfg mode txns s).map Prod.fst
  | .readResult p entries => readResult txns s p entries
  | .run p guid random => (run cfg mode txns compute s p guid random).map Prod.fst

/-- The node before the first transaction, over a store. -/
def initial (store : Key → Record) : Node where
  waits := { waitForRemasterPros := fun p => (txns p).waitForRemasterPros }
  status := fun p => (txns p).status
  store := store

def machine (store : Key → Record) : Machine Node Event where
  init := initial txns store
  next := step cfg mode txns compute

end

end DeterministicScheduler

end Calvin
