import Calvin.Lib.BucketTable
import Calvin.Lib.LockQueue
import Calvin.Machine.ClusterConfig

/-!
# The deterministic lock manager

`scheduler/deterministic_lock_manager.{h,cc}`: `Lock` requests every lock of a
transaction, `Release` gives them back and hands them on. The transactions that
a call pushes to `ready_txns_` are part of its result; transactions are told
apart by their addresses, as in the source.
-/

namespace Calvin

open Function Lib

abbrev LockRequest := Request Ptr

/-- A `char` of a key, converted to `uint64`: `char` is signed. -/
def signExtend (c : UInt8) : UInt64 :=
  if c < 128 then c.toUInt64 else c.toUInt64 ||| 0xFFFFFFFFFFFFFF00

/-- `Hash`: the bucket of a key among `TABLE_SIZE`. -/
def hashKey (key : Key) : Nat :=
  (key.foldl (fun hash c => (hash ^^^ signExtend c) * 16777619) (2166136261 : UInt64) %
    1000000).toNat

structure LockManager where
  lockTable : BucketTable hashKey (List LockRequest) := .empty
  txnWaits : Ptr → Option Int := fun _ => none

namespace LockManager

/-- An entry whose key the transaction locks here: of its own origin, unless
the mode is 0, and local. -/
def locks (cfg : ClusterConfig) (mode origin : Nat) (entry : KeyEntry) : Bool :=
  ¬ (mode ≠ 0 ∧ entry.master ≠ origin) ∧ cfg.isLocal entry.key

/-- Whether the request just appended fails to be granted: a write request if
there is any before it, a read request if there is any write request. -/
def notGranted (lockMode : LockMode) (requests : List LockRequest) : Bool :=
  match lockMode with
  | .write => 1 < requests.length
  | .read => requests.any fun r => r.mode = .write

/-- Request a lock on a local key; the count is `not_acquired`. -/
def request (txn : Ptr) (st : LockManager × Nat) (a : Key × LockMode) : LockManager × Nat :=
  let requests := (st.1.lockTable.find? a.1).getD []
  -- only needed if the transaction has not already requested it
  if requests = [] ∨ requests.getLast?.map Request.owner ≠ some txn then
    let requests := requests ++ [⟨a.2, txn⟩]
    ({ st.1 with lockTable := st.1.lockTable.insert a.1 requests },
      if notGranted a.2 requests then st.2 + 1 else st.2)
  else st

/-- One round of the two loops of `Lock`. -/
def lockEntry (cfg : ClusterConfig) (mode origin : Nat) (txn : Ptr) (lockMode : LockMode)
    (st : LockManager × Nat) (entry : KeyEntry) : LockManager × Nat :=
  if locks cfg mode origin entry then request txn st (entry.key, lockMode) else st

/-- `Lock`. -/
def lock (cfg : ClusterConfig) (mode : Nat) (lm : LockManager) (p : Ptr) (txn : TxnProto) :
    LockManager × List Ptr :=
  let st := txn.readWriteSet.foldl (lockEntry cfg mode txn.originReplica p .write) (lm, 0)
  let (lm, notAcquired) := txn.readSet.foldl (lockEntry cfg mode txn.originReplica p .read) st
  if 0 < notAcquired then
    ({ lm with txnWaits := update lm.txnWaits p (some notAcquired) }, [])
  else (lm, [p])

/-- What `Lock` returns. -/
def notAcquired (cfg : ClusterConfig) (mode : Nat) (lm : LockManager) (p : Ptr) (txn : TxnProto) :
    Nat :=
  let st := txn.readWriteSet.foldl (lockEntry cfg mode txn.originReplica p .write) (lm, 0)
  (txn.readSet.foldl (lockEntry cfg mode txn.originReplica p .read) st).2

/-- The transactions whose request is granted when the target is released. -/
def newOwners (pre : List LockRequest) (target : LockRequest) (post : List LockRequest) :
    List Ptr :=
  match post with
  | [] => []
  | next :: _ =>
      if pre = [] ∧
          (target.mode = .write ∨ (target.mode = .read ∧ next.mode = .write)) then
        (if next.mode = .write then [next.owner] else []) ++
          (post.takeWhile LockQueue.shared).map Request.owner
      else if ¬ (∃ r ∈ pre, r.mode = .write) ∧ target.mode = .write ∧ next.mode = .read then
        (post.takeWhile LockQueue.shared).map Request.owner
      else []

/-- A transaction waits for one lock less; it is pushed when none is left. -/
def grant (waits : Ptr → Option Int) : List Ptr → (Ptr → Option Int) × List Ptr
  | [] => (waits, [])
  | p :: rest =>
      let left := (waits p).getD 0 - 1
      if left = 0 then
        let (waits, pushed) := grant (update waits p none) rest
        (waits, p :: pushed)
      else grant (update waits p (some left)) rest

/-- `Release(key, txn)`; `none` is the use of a key that is not in the table. -/
def releaseKey (lm : LockManager) (key : Key) (p : Ptr) : Option (LockManager × List Ptr) :=
  (lm.lockTable.find? key).map fun requests =>
    let pre := requests.takeWhile fun r => r.owner ≠ p
    match requests.dropWhile fun r => r.owner ≠ p with
    | [] => (lm, [])
    | target :: post =>
        let (txnWaits, pushed) := grant lm.txnWaits (newOwners pre target post)
        let requests := pre ++ post
        ({ lockTable :=
            if requests = [] then lm.lockTable.erase key else lm.lockTable.insert key requests
           txnWaits }, pushed)

/-- The loops of `Release(txn)`. -/
def releaseEntries (cfg : ClusterConfig) (mode origin : Nat) (p : Ptr) :
    LockManager → List KeyEntry → Option (LockManager × List Ptr)
  | lm, [] => some (lm, [])
  | lm, entry :: rest =>
      if locks cfg mode origin entry then
        (lm.releaseKey entry.key p).bind fun (lm, pushed) =>
          (releaseEntries cfg mode origin p lm rest).map fun (lm, more) => (lm, pushed ++ more)
      else releaseEntries cfg mode origin p lm rest

/-- `Release(txn)`. -/
def release (cfg : ClusterConfig) (mode : Nat) (lm : LockManager) (p : Ptr) (txn : TxnProto) :
    Option (LockManager × List Ptr) :=
  releaseEntries cfg mode txn.originReplica p lm (txn.readSet ++ txn.readWriteSet)

end LockManager

end Calvin
