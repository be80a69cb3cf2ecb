import Calvin.Applications.MicrobenchmarkTxns

/-!
# The transactions of TPC-C

The generators of `applications/tpcc.cc` and `InitializeStorage`. Four tables lie end
to end in the numbers: warehouses, districts, customers and the stock of the
items. A transaction reads one or two warehouses and a customer, and updates a
district and ten items.
-/

namespace Calvin

open Lib (Draw)
open Lib.Draw

/-- The members of `Tpcc` its generators read. -/
structure Tpcc where
  config : ClusterConfig
  warehousesPerNode : Nat

namespace Tpcc

/-- `TPCCTXN_SP`. -/
def tpcctxnSp : Nat := 1

/-- `TPCCTXN_MP`. -/
def tpcctxnMp : Nat := 2

def districtsPerWarehouse : Nat := 10

def customersPerDistrict : Nat := 3000

def numberOfItems : Nat := 100000

/-- The `uint32` copy of `nodes_per_replica`. -/
def nparts (t : Tpcc) : Nat := t.config.nodesPerReplica % UInt32.size

def replicaSize (t : Tpcc) : Nat := t.config.replicasSize

/-! The sizes of the tables are products of `uint32`, their ends `uint64`. -/

def warehouseEnd (t : Tpcc) : Nat := t.warehousesPerNode * t.nparts % UInt32.size

def districtEnd (t : Tpcc) : Nat :=
  t.warehouseEnd + t.nparts * (t.warehousesPerNode * districtsPerWarehouse) % UInt32.size

def customerEnd (t : Tpcc) : Nat :=
  t.districtEnd +
    t.nparts * (t.warehousesPerNode * districtsPerWarehouse * customersPerDistrict) % UInt32.size

def itemEnd (t : Tpcc) : Nat :=
  t.customerEnd + t.nparts * (t.warehousesPerNode * numberOfItems) % UInt32.size

def kDBSize (t : Tpcc) : Nat := t.itemEnd

/-- `InitializeStorage`, with the loop body of the microbenchmark. -/
def initializeStorage (t : Tpcc) (conf : ClusterConfig) (value : Value) : Key → Option Record :=
  (List.range t.kDBSize).foldl (Microbenchmark.initializeRecord conf value) fun _ => none

/-- The end of both generators that know no replicas: a district and a customer of the
first partition, and the items of the second. -/
def addPartTables (t : Tpcc) (txn : TxnProto) (part1 part2 : Nat) : Draw TxnProto := do
  let district ← getRandomKeys t.nparts 1 t.warehouseEnd t.districtEnd part1
  let customer ← getRandomKeys t.nparts 1 t.districtEnd t.customerEnd part1
  let items ← getRandomKeys t.nparts 10 t.customerEnd t.itemEnd part2
  return { txn with
    readSet := txn.readSet ++ customer.map (newEntry 0)
    readWriteSet := txn.readWriteSet ++ (district.map (newEntry 0) ++ items.map (newEntry 0)) }

/-- `TpccTxnSP`. -/
def tpccTxnSP (t : Tpcc) (txnId part : Nat) : Draw TxnProto := do
  let hotkey1 ← randKey t.nparts part t.warehousesPerNode
  t.addPartTables { txnId, txnType := tpcctxnSp, readSet := [newEntry 0 hotkey1] } part part

/-- `TpccTxnMP`. -/
def tpccTxnMP (t : Tpcc) (txnId part1 part2 : Nat) : Draw TxnProto := do
  check (part1 ≠ part2 ∨ t.nparts = 1)
  let hotkey1 ← randKey t.nparts part1 t.warehousesPerNode
  let hotkey2 ← randKey t.nparts part2 t.warehousesPerNode
  t.addPartTables
    { txnId, txnType := tpcctxnMp, readSet := [newEntry 0 hotkey1, newEntry 0 hotkey2] }
    part1 part2

/-- `GetRandomKeysReplica`. -/
def randomKeys (t : Tpcc) (numKeys keyStart keyLimit part replica : Nat) : Draw (List Nat) :=
  getRandomKeysReplica t.nparts t.replicaSize numKeys keyStart keyLimit part replica

/-- The end of every generator: a district and a customer of the first place,
and the items of the second. The starts of the customers and of the items are
aligned; the start of the districts is not. -/
def addTables (t : Tpcc) (txn : TxnProto) (part1 replica1 part2 replica2 : Nat) :
    Draw TxnProto := do
  let district ← t.randomKeys 1 t.warehouseEnd t.districtEnd part1 replica1
  let customer ← t.randomKeys 1 (alignStart t.nparts t.replicaSize t.districtEnd) t.customerEnd
    part1 replica1
  let items ← t.randomKeys 10 (alignStart t.nparts t.replicaSize t.customerEnd) t.itemEnd
    part2 replica2
  return { txn with
    readSet := txn.readSet ++ customer.map (newEntry replica1)
    readWriteSet :=
      txn.readWriteSet ++ (district.map (newEntry replica1) ++ items.map (newEntry replica2)) }

/-- `TpccTxnSRSP`. -/
def tpccTxnSRSP (t : Tpcc) (txnId part replica : Nat) : Draw TxnProto := do
  let order1 ← randOrder t.warehousesPerNode t.replicaSize replica
  t.addTables
    { txnId, txnType := tpcctxnSp, readSet := [newEntry replica (rowKey t.nparts part order1)] }
    part replica part replica

/-- The other three generators behind their checks: a warehouse of each of two
places. -/
def twoPlaces (t : Tpcc) (txn : TxnProto) (part1 replica1 part2 replica2 : Nat) :
    Draw TxnProto := do
  let order1 ← randOrder t.warehousesPerNode t.replicaSize replica1
  let order2 ← randOrder t.warehousesPerNode t.replicaSize replica2
  t.addTables
    { txn with
      readSet :=
        [newEntry replica1 (rowKey t.nparts part1 order1),
          newEntry replica2 (rowKey t.nparts part2 order2)] }
    part1 replica1 part2 replica2

/-- `TpccTxnSRMP`. -/
def tpccTxnSRMP (t : Tpcc) (txnId part1 part2 replica : Nat) : Draw TxnProto := do
  check (part1 ≠ part2 ∨ t.nparts = 1)
  t.twoPlaces { txnId, txnType := tpcctxnMp } part1 replica part2 replica

/-- `TpccTxnMRSP`: the replicas are put in order. -/
def tpccTxnMRSP (t : Tpcc) (txnId part replica1 replica2 : Nat) : Draw TxnProto := do
  check (replica1 ≠ replica2)
  let fakeTxn := decide (replica1 ≠ 0 ∧ replica2 ≠ 0)
  let txn : TxnProto := { txnId, txnType := tpcctxnSp, fakeTxn }
  if replica2 < replica1 then t.twoPlaces txn part replica2 part replica1
  else t.twoPlaces txn part replica1 part replica2

/-- `TpccTxnMRMP`: the partitions change places with the replicas. -/
def tpccTxnMRMP (t : Tpcc) (txnId part1 part2 replica1 replica2 : Nat) : Draw TxnProto := do
  check (part1 ≠ part2 ∨ t.nparts = 1)
  let fakeTxn := decide (replica1 ≠ 0 ∧ replica2 ≠ 0)
  let txn : TxnProto := { txnId, txnType := tpcctxnMp, fakeTxn }
  if replica2 < replica1 then t.twoPlaces txn part2 replica2 part1 replica1
  else t.twoPlaces txn part1 replica1 part2 replica2

/-- The transaction of a call. -/
def generate (t : Tpcc) (txnId : Nat) : TxnCall → Draw TxnProto
  | .sp part => t.tpccTxnSP txnId part
  | .mp part1 part2 => t.tpccTxnMP txnId part1 part2
  | .srsp part replica => t.tpccTxnSRSP txnId part replica
  | .srmp part1 part2 replica => t.tpccTxnSRMP txnId part1 part2 replica
  | .mrsp part replica1 replica2 => t.tpccTxnMRSP txnId part replica1 replica2
  | .mrmp part1 part2 replica1 replica2 => t.tpccTxnMRMP txnId part1 part2 replica1 replica2

end Tpcc

end Calvin
