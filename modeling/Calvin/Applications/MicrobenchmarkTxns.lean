import Calvin.Applications.KeyGroups
import Calvin.Applications.Microbenchmark
import Calvin.Machine.Client

/-!
# The transactions of the microbenchmark

The generators of `applications/microbenchmark.cc` and `InitializeStorage`. Every
transaction updates `kRWSetSize` records: two hot ones, and cold ones from the rest
of the database.

A hot key has a number below `nparts * hot_records`. The cold range begins there; in
the generators that know replicas, at the first multiple of the stride from there.
-/

namespace Calvin

open Function
open Lib (Draw)
open Lib.Draw

/-- The members of `Microbenchmark` its generators read. -/
structure Microbenchmark where
  config : ClusterConfig
  hotRecords : Nat

namespace Microbenchmark

def kDBSize : Nat := 10000000

/-- `MICROTXN_SP`. -/
def microtxnSp : Nat := 1

/-- `MICROTXN_MP`. -/
def microtxnMp : Nat := 2

/-- The `uint32` copy of `nodes_per_replica`. -/
def nparts (b : Microbenchmark) : Nat := b.config.nodesPerReplica % UInt32.size

def replicaSize (b : Microbenchmark) : Nat := b.config.replicasSize

/-- `GetRandomKeys` on the cold records; the first product is one of `uint32`. -/
def partColdKeys (b : Microbenchmark) (numKeys part : Nat) : Draw (List Nat) :=
  getRandomKeys b.nparts numKeys (b.nparts * b.hotRecords % UInt32.size) (b.nparts * kDBSize) part

/-- `MicroTxnSP`. -/
def microTxnSP (b : Microbenchmark) (txnId part : Nat) : Draw TxnProto := do
  let hotkey1 ← randKey b.nparts part b.hotRecords
  let hotkey2 ← randKeyUntil b.nparts part b.hotRecords fun key => key != hotkey1
  let cold ← b.partColdKeys (kRWSetSize - 2) part
  return {
    txnId
    txnType := microtxnSp
    readWriteSet := newEntry 0 hotkey1 :: newEntry 0 hotkey2 :: cold.map (newEntry 0) }

/-- `MicroTxnMP`. -/
def microTxnMP (b : Microbenchmark) (txnId part1 part2 : Nat) : Draw TxnProto := do
  check (part1 ≠ part2 ∨ b.nparts = 1)
  let hotkey1 ← randKey b.nparts part1 b.hotRecords
  let hotkey2 ← randKey b.nparts part2 b.hotRecords
  let cold1 ← b.partColdKeys (kRWSetSize / 2 - 1) part1
  let cold2 ← b.partColdKeys (kRWSetSize / 2 - 1) part2
  return {
    txnId
    txnType := microtxnMp
    readWriteSet :=
      newEntry 0 hotkey1 :: newEntry 0 hotkey2 ::
        (cold1.map (newEntry 0) ++ cold2.map (newEntry 0)) }

/-- `key_start`: the product is one of `uint32`. -/
def keyStart (b : Microbenchmark) : Nat :=
  alignStart b.nparts b.replicaSize (b.nparts * b.hotRecords % UInt32.size)

/-- `GetRandomKeysReplica` on the cold records. -/
def coldKeys (b : Microbenchmark) (numKeys part replica : Nat) : Draw (List Nat) :=
  getRandomKeysReplica b.nparts b.replicaSize numKeys b.keyStart (b.nparts * kDBSize) part replica

/-- `MicroTxnSRSP`. -/
def microTxnSRSP (b : Microbenchmark) (txnId part replica : Nat) : Draw TxnProto := do
  let order1 ← randOrder b.hotRecords b.replicaSize replica
  let order2 ← randOrderUntil b.hotRecords b.replicaSize replica fun order => order != order1
  let cold ← b.coldKeys (kRWSetSize - 2) part replica
  return {
    txnId
    txnType := microtxnSp
    readWriteSet :=
      newEntry replica (rowKey b.nparts part order1) ::
        newEntry replica (rowKey b.nparts part order2) :: cold.map (newEntry replica) }

/-- The other three generators behind their checks: a hot key and half of the
cold keys in each of two places. -/
def twoPlaces (b : Microbenchmark) (txn : TxnProto) (part1 replica1 part2 replica2 : Nat) :
    Draw TxnProto := do
  let order1 ← randOrder b.hotRecords b.replicaSize replica1
  let order2 ← randOrder b.hotRecords b.replicaSize replica2
  let cold1 ← b.coldKeys (kRWSetSize / 2 - 1) part1 replica1
  let cold2 ← b.coldKeys (kRWSetSize / 2 - 1) part2 replica2
  return { txn with
    readWriteSet :=
      newEntry replica1 (rowKey b.nparts part1 order1) ::
        newEntry replica2 (rowKey b.nparts part2 order2) ::
          (cold1.map (newEntry replica1) ++ cold2.map (newEntry replica2)) }

/-- `MicroTxnSRMP`. -/
def microTxnSRMP (b : Microbenchmark) (txnId part1 part2 replica : Nat) : Draw TxnProto := do
  check (part1 ≠ part2 ∨ b.nparts = 1)
  b.twoPlaces { txnId, txnType := microtxnMp } part1 replica part2 replica

/-- `MicroTxnMRSP`: the replicas are put in order. -/
def microTxnMRSP (b : Microbenchmark) (txnId part replica1 replica2 : Nat) : Draw TxnProto := do
  check (replica1 ≠ replica2)
  let fakeTxn := decide (replica1 ≠ 0 ∧ replica2 ≠ 0)
  let txn : TxnProto := { txnId, txnType := microtxnSp, fakeTxn }
  if replica2 < replica1 then b.twoPlaces txn part replica2 part replica1
  else b.twoPlaces txn part replica1 part replica2

/-- `MicroTxnMRMP`: the partitions change places with the replicas. -/
def microTxnMRMP (b : Microbenchmark) (txnId part1 part2 replica1 replica2 : Nat) :
    Draw TxnProto := do
  check (part1 ≠ part2 ∨ b.nparts = 1)
  let fakeTxn := decide (replica1 ≠ 0 ∧ replica2 ≠ 0)
  let txn : TxnProto := { txnId, txnType := microtxnMp, fakeTxn }
  if replica2 < replica1 then b.twoPlaces txn part2 replica2 part1 replica1
  else b.twoPlaces txn part1 replica1 part2 replica2

/-- The transaction of a call. -/
def generate (b : Microbenchmark) (txnId : Nat) : TxnCall → Draw TxnProto
  | .sp part => b.microTxnSP txnId part
  | .mp part1 part2 => b.microTxnMP txnId part1 part2
  | .srsp part replica => b.microTxnSRSP txnId part replica
  | .srmp part1 part2 replica => b.microTxnSRMP txnId part1 part2 replica
  | .mrsp part replica1 replica2 => b.microTxnMRSP txnId part replica1 replica2
  | .mrmp part1 part2 replica1 replica2 => b.microTxnMRMP txnId part1 part2 replica1 replica2

/-! ## The initial storage -/

/-- The record `InitializeStorage` makes for a key. -/
def initialRecord (conf : ClusterConfig) (value : Value) (key : Key) : Record where
  value := value
  master := conf.lookupMaster key
  counter := 0

/-- One turn of the loop. -/
def initializeRecord (conf : ClusterConfig) (value : Value) (store : Key → Option Record)
    (i : Nat) : Key → Option Record :=
  if conf.lookupPartition (numberKey i) = conf.relativeNodeId then
    update store (numberKey i) (some (initialRecord conf value (numberKey i)))
  else store

/-- `InitializeStorage`; `value` is the random string all records get. -/
def initializeStorage (b : Microbenchmark) (conf : ClusterConfig) (value : Value) :
    Key → Option Record :=
  (List.range (b.nparts * kDBSize)).foldl (initializeRecord conf value) fun _ => none

section Storage

variable {conf : ClusterConfig} {value : Value}

/-- A record that is there stays as it is. -/
theorem initializeRecord_keeps {store : Key → Option Record} {key : Key}
    (h : store key = some (initialRecord conf value key)) (i : Nat) :
    initializeRecord conf value store i key = some (initialRecord conf value key) := by
  unfold initializeRecord
  split
  · by_cases hkey : key = numberKey i
    · rw [hkey, update_self]
    · rw [update_of_ne hkey, h]
  · exact h

theorem foldl_initializeRecord_keeps {key : Key} (is : List Nat) {store : Key → Option Record}
    (h : store key = some (initialRecord conf value key)) :
    is.foldl (initializeRecord conf value) store key = some (initialRecord conf value key) := by
  induction is generalizing store with
  | nil => exact h
  | cons i is ih => exact ih (initializeRecord_keeps h i)

/-- Every number of the node's partition gets its record. -/
theorem foldl_initializeRecord {i size : Nat} (hi : i < size)
    (hpart : conf.lookupPartition (numberKey i) = conf.relativeNodeId) :
    (List.range size).foldl (initializeRecord conf value) (fun _ => none) (numberKey i) =
      some (initialRecord conf value (numberKey i)) := by
  obtain ⟨before, after, hsplit⟩ := List.append_of_mem (List.mem_range.mpr hi)
  rw [hsplit, List.foldl_append, List.foldl_cons]
  apply foldl_initializeRecord_keeps
  rw [initializeRecord, if_pos hpart, update_self]

theorem initializeStorage_record (b : Microbenchmark) {i : Nat} (hi : i < b.nparts * kDBSize)
    (hpart : conf.lookupPartition (numberKey i) = conf.relativeNodeId) :
    b.initializeStorage conf value (numberKey i) =
      some (initialRecord conf value (numberKey i)) :=
  foldl_initializeRecord hi hpart

end Storage

end Microbenchmark

end Calvin
