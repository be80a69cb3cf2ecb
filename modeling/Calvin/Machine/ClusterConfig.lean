import Calvin.Common.Types

/-!
# The cluster configuration

Where a key lives (`machine/cluster_config.cc`): the relative node id of its
partition, and the machine of a partition in a replica.
-/

namespace Calvin

/-- The members of `ClusterConfig` that the modelled functions read. -/
structure ClusterConfig where
  relativeNodeId : Nat := 0
  localReplicaId : Nat := 0
  nodesPerReplica : Nat := 1
  replicasSize : Nat := 1
deriving DecidableEq, Repr

/-- `isspace` in the C locale. -/
def isSpace (c : UInt8) : Bool := c = 32 ∨ (9 ≤ c ∧ c ≤ 13)

/-- The digits at the front of a string, as a number. -/
def leadingNumber (s : Key) : Nat :=
  (s.takeWhile fun c => 48 ≤ c ∧ c ≤ 57).foldl (fun n c => 10 * n + (c.toNat - 48)) 0

/-- `StringToInt`: `atoi` of the bytes, which stops at the first that is no
digit. Numbers out of the range of `int` are undefined there. -/
def stringToInt (s : Key) : Int :=
  match s.dropWhile isSpace with
  | 45 :: rest => - (leadingNumber rest : Int)
  | 43 :: rest => leadingNumber rest
  | rest => leadingNumber rest

namespace ClusterConfig

/-- `LookupPartition`; the `int` is converted to `uint64` first. -/
def lookupPartition (cfg : ClusterConfig) (key : Key) : Nat :=
  (stringToInt key % (UInt64.size : Int)).toNat % cfg.nodesPerReplica

/-- `LookupMaster`: the master of a key before any remaster. -/
def lookupMaster (cfg : ClusterConfig) (key : Key) : Nat :=
  (stringToInt key % (UInt64.size : Int)).toNat / cfg.nodesPerReplica % cfg.replicasSize

/-- `LookupMachineID`. -/
def lookupMachineId (cfg : ClusterConfig) (relativeId replica : Nat) : Nat :=
  replica * cfg.nodesPerReplica + relativeId

/-- `IsLocal` of the scheduler and of the lock manager. -/
def isLocal (cfg : ClusterConfig) (key : Key) : Bool :=
  cfg.lookupPartition key = cfg.relativeNodeId

end ClusterConfig

end Calvin
