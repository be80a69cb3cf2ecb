import Calvin.Lib.Draw
import Calvin.Machine.ClusterConfig

/-!
# The load generation clients

`GetTxn` of the four clients of `machine/client.h`, up to the call of the
application that generates the transaction: which form it has, and for which
partitions and replicas.
-/

namespace Calvin

open Lib (Draw)
open Lib.Draw

/-- The calls of `Microbenchmark` and `Tpcc` that generate a transaction:
`MicroTxnSP` or `TpccTxnSP`, and so on. -/
inductive TxnCall
  | sp (part : Nat)
  | mp (part1 part2 : Nat)
  | srsp (part replica : Nat)
  | srmp (part1 part2 replica : Nat)
  | mrsp (part replica1 replica2 : Nat)
  | mrmp (part1 part2 replica1 replica2 : Nat)
deriving DecidableEq

/-- `RAND_MAX`. -/
def randMax : Nat := 2147483647

/-- The members of a client. The two clients without `percent_mr_` read the
first percentage only. -/
structure Client where
  config : ClusterConfig
  percentMp : Nat
  percentMr : Nat := 0

namespace Client

/-- `(uint32)(rand() % 100) < percent`. -/
def percent (limit : Nat) : Draw Bool := do
  let r ← draw
  return decide (r % 100 < limit)

/-- The loop that draws one of `size` until it is another than `self`. -/
def drawOther (size self : Nat) : Draw Nat :=
  if size = 0 then fail else do
    let r ← drawUntil fun r => decide (r % size ≠ self)
    return r % size

def otherNode (c : Client) : Draw Nat :=
  drawOther c.config.nodesPerReplica c.config.relativeNodeId

def otherReplica (c : Client) : Draw Nat :=
  drawOther c.config.replicasSize c.config.localReplicaId

/-- `nodes_per_replica_ > 1 && (uint32)(rand() % 100) < percent_mp_`: with one
node nothing is drawn. -/
def multiPartition (c : Client) : Draw Bool :=
  if 1 < c.config.nodesPerReplica then percent c.percentMp else return false

/-- The body shared by `MClient::GetTxn` and `TClient::GetTxn`. -/
def getTxnGuarded (c : Client) : Draw TxnCall := do
  let multi ← c.multiPartition
  if multi then
    let other ← c.otherNode
    return .mp c.config.relativeNodeId other
  else
    return .sp c.config.relativeNodeId

end Client

/-- `MClient::GetTxn`. -/
def MClient.getTxn (c : Client) : Draw TxnCall := c.getTxnGuarded

/-- `TClient::GetTxn`. -/
def TClient.getTxn (c : Client) : Draw TxnCall := c.getTxnGuarded

/-- `Lowlatency_MClient::GetTxn`. -/
def LowlatencyMClient.getTxn (c : Client) : Draw TxnCall := do
  let multiReplica ← Client.percent c.percentMr
  if multiReplica then
    -- this loop is entered whatever the number of replicas is
    let other ← c.otherReplica
    let multi ← c.multiPartition
    if multi then
      let node ← c.otherNode
      return .mrmp c.config.relativeNodeId node c.config.localReplicaId other
    else
      return .mrsp c.config.relativeNodeId c.config.localReplicaId other
  else
    let multi ← c.multiPartition
    if multi then
      let node ← c.otherNode
      return .srmp c.config.relativeNodeId node c.config.localReplicaId
    else
      return .srsp c.config.relativeNodeId c.config.localReplicaId

/-- `Lowlatency_TClient::GetTxn`. -/
def LowlatencyTClient.getTxn (c : Client) : Draw TxnCall := do
  let multi ← Client.percent c.percentMp
  if multi then
    let multiReplica ← Client.percent c.percentMr
    if multiReplica then
      let other ← c.otherReplica
      let node ← c.otherNode
      return .mrmp c.config.relativeNodeId node c.config.localReplicaId other
    else
      let node ← c.otherNode
      return .srmp c.config.relativeNodeId node c.config.localReplicaId
  else
    return .srsp c.config.relativeNodeId c.config.localReplicaId

inductive ClientKind
  | mClient
  | tClient
  | lowlatencyMClient
  | lowlatencyTClient
deriving DecidableEq

def ClientKind.getTxn : ClientKind → Client → Draw TxnCall
  | .mClient => MClient.getTxn
  | .tClient => TClient.getTxn
  | .lowlatencyMClient => LowlatencyMClient.getTxn
  | .lowlatencyTClient => LowlatencyTClient.getTxn

end Calvin
