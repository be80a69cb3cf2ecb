import Calvin.Lib.Machine
import Calvin.Scheduler.LockManager

/-!
# One node in mode 0

The lock manager thread and the worker threads of `DeterministicScheduler` on a
node that holds every key. Workers run concurrently: a worker reads the records
of its transaction one by one, and later writes them one by one, in any
interleaving with the others and with the lock manager thread. What a
transaction computes from what it read is a parameter (`Application::Execute`).
-/

namespace Calvin.SingleNode

open Function Lib

/-- The keys a transaction reads. -/
def keys (txn : TxnProto) : List Key := (txn.readSet ++ txn.readWriteSet).map KeyEntry.key

/-- The keys a transaction writes. -/
def writeKeys (txn : TxnProto) : List Key := txn.readWriteSet.map KeyEntry.key

/-- Where a transaction stands. -/
inductive Phase
  /-- Not handed to a worker yet. -/
  | waiting
  | running
  /-- In `done_queue_`. -/
  | done
  | released
deriving DecidableEq, Repr

/-- `V` stands for records: what `Execute` makes of them is arbitrary. -/
structure Node (V : Type) where
  lockManager : LockManager := {}
  /-- How many transactions were passed to `Lock`. -/
  next : Nat := 0
  readyTxns : List Ptr := []
  phase : Ptr → Phase := fun _ => .waiting
  /-- What the worker of a transaction has read. -/
  view : Ptr → Key → Option V := fun _ _ => none
  /-- What it has written. -/
  written : Ptr → List Key := fun _ => []
  store : Key → V

inductive Event
  /-- `Lock` on the next transaction. -/
  | lock
  /-- A worker takes the oldest ready transaction. -/
  | pop
  | read (p : Ptr) (k : Key)
  | write (p : Ptr) (k : Key)
  /-- The worker has written everything. -/
  | finish (p : Ptr)
  /-- `Release` on a finished transaction. -/
  | release (p : Ptr)
deriving DecidableEq, Repr

section

variable {V : Type} (cfg : ClusterConfig) (txns : List TxnProto)
  (execute : TxnProto → (Key → Option V) → Key → V)

/-- Every record of the transaction was read. -/
def readAll (txn : TxnProto) (view : Key → Option V) : Bool :=
  (keys txn).all fun k => (view k).isSome

def lockNext (s : Node V) : Option (Node V) :=
  txns[s.next]?.map fun txn =>
    let (lockManager, pushed) := s.lockManager.lock cfg 0 s.next txn
    { s with lockManager, next := s.next + 1, readyTxns := s.readyTxns ++ pushed }

def pop (s : Node V) : Option (Node V) :=
  match s.readyTxns with
  | [] => none
  | p :: rest => some { s with readyTxns := rest, phase := update s.phase p .running }

/-- Reads come before the first write. -/
def readRecord (s : Node V) (p : Ptr) (k : Key) : Option (Node V) :=
  txns[p]?.bind fun txn =>
    if s.phase p = .running ∧ k ∈ keys txn ∧ s.written p = [] then
      some { s with view := update s.view p (update (s.view p) k (some (s.store k))) }
    else none

def writeRecord (s : Node V) (p : Ptr) (k : Key) : Option (Node V) :=
  txns[p]?.bind fun txn =>
    if s.phase p = .running ∧ k ∈ writeKeys txn ∧ readAll txn (s.view p) then
      some { s with
        store := update s.store k (execute txn (s.view p) k)
        written := update s.written p (k :: s.written p) }
    else none

def finish (s : Node V) (p : Ptr) : Option (Node V) :=
  txns[p]?.bind fun txn =>
    if s.phase p = .running ∧ ∀ k ∈ writeKeys txn, k ∈ s.written p then
      some { s with phase := update s.phase p .done }
    else none

def release (s : Node V) (p : Ptr) : Option (Node V) :=
  txns[p]?.bind fun txn =>
    if s.phase p = .done then
      (s.lockManager.release cfg 0 p txn).map fun (lockManager, pushed) =>
        { s with
          lockManager
          readyTxns := s.readyTxns ++ pushed
          phase := update s.phase p .released }
    else none

/-- The node with its transactions, from a store. -/
def machine (init : Key → V) : Machine (Node V) Event where
  init := { store := init }
  next s
    | .lock => lockNext cfg txns s
    | .pop => pop s
    | .read p k => readRecord txns s p k
    | .write p k => writeRecord txns execute s p k
    | .finish p => finish txns s p
    | .release p => release cfg txns s p

end

/-- Running a transaction alone: it sees its records and writes what it
computes. -/
def runAlone {V : Type} (execute : TxnProto → (Key → Option V) → Key → V) (store : Key → V)
    (txn : TxnProto) : Key → V := fun k =>
  if k ∈ writeKeys txn then
    execute txn (fun k' => if k' ∈ keys txn then some (store k') else none) k
  else store k

end Calvin.SingleNode
