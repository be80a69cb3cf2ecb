import Mathlib.Data.List.Basic

/-!
# Records, transactions and messages

The protocol buffers of `proto/*.proto` and the record of `backend/storage.h`,
with the fields the modelled functions read or write. Unsigned integers are
`Nat`: a wrap-around is modelled where one can be reached.
-/

namespace Calvin

/-- `bytes`: the key of a database object. -/
abbrev Key := List UInt8

instance : LawfulBEq Key := inferInstanceAs (LawfulBEq (List UInt8))

/-- `bytes`: the value of a database object. -/
abbrev Value := List UInt8

/-- The address of a `TxnProto` object. Addresses are not reused: a node
numbers the transactions it parses. -/
abbrev Ptr := Nat

structure KeyEntry where
  key : Key
  master : Nat
  counter : Nat
deriving DecidableEq, Repr

/-- `TxnProto::Status`. -/
inductive Status
  | new
  | active
  | committed
  | aborted
  | abortedWithoutLock
deriving DecidableEq, Repr

structure TxnProto where
  txnId : Nat
  txnType : Nat := 0
  readSet : List KeyEntry := []
  readWriteSet : List KeyEntry := []
  status : Status := .new
  readers : List Nat := []
  writers : List Nat := []
  originReplica : Nat := 0
  newGenerated : Bool := false
  involvedReplicas : List Nat := []
  fakeTxn : Bool := false
  remasterTxn : Bool := false
  clientReplica : Nat := 0
  remasterFrom : Nat := 99999
  remasterTo : Nat := 99999
  waitForRemasterPros : Bool := false
deriving DecidableEq, Repr

/-- What all copies of a transaction share: the request of its client. -/
structure ClientTxn where
  txnId : Nat
  txnType : Nat := 0
  readSet : List KeyEntry := []
  readWriteSet : List KeyEntry := []
deriving DecidableEq, Repr

def TxnProto.client (txn : TxnProto) : ClientTxn where
  txnId := txn.txnId
  txnType := txn.txnType
  readSet := txn.readSet
  readWriteSet := txn.readWriteSet

namespace ClientTxn

def entries (txn : ClientTxn) : List KeyEntry := txn.readSet ++ txn.readWriteSet

/-- The keys a transaction reads. -/
def keys (txn : ClientTxn) : List Key := txn.entries.map KeyEntry.key

/-- The keys it writes. -/
def writeKeys (txn : ClientTxn) : List Key := txn.readWriteSet.map KeyEntry.key

end ClientTxn

/-- A stored `Record`. The access statistics are kept apart: only the remaster
policy of the application reads them. -/
structure Record where
  value : Value
  master : Nat
  counter : Nat
deriving DecidableEq, Repr

/-- A `Sequence`: the batch ids of one proposal. -/
abbrev Sequence := List Nat

/-- The payload of a `TXN_SUBBATCH` message: the transactions of one batch
that involve the receiving partition. -/
structure Subbatch where
  batchNumber : Nat
  data : List TxnProto
deriving DecidableEq, Repr

/-- The messages of channel `scheduler_`. -/
inductive SchedulerMessage
  | txnSubbatch (batch : Subbatch)
  | paxosBatchOrder (version : Nat) (data : Sequence)
deriving DecidableEq, Repr

end Calvin
