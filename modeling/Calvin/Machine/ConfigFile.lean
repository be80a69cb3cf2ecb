import Calvin.Lib.BucketTable
import Calvin.Machine.NumberKeys

/-!
# Reading the cluster configuration

`CheckString` and `ClusterConfig::FromString` of `machine/cluster_config.cc`. A
configuration has one machine a line, in four parts between colons: its id, its
replica, its host and its port. A failed `CHECK` and a division by zero give no
configuration.
-/

namespace Calvin

open Lib.BucketTable (put)

structure MachineInfo where
  id : Nat
  replica : Nat
  host : List UInt8
  port : Int
deriving DecidableEq, Repr

/-- `SplitString`; `current` is the part that is being read. -/
def splitString (delimiter : UInt8) : List UInt8 → List UInt8 → List (List UInt8)
  | [], current => [current]
  | c :: rest, current =>
      if c = delimiter then current :: splitString delimiter rest []
      else splitString delimiter rest (current ++ [c])

/-- `StringToInt`, whose result is an `int`. -/
def readInt (s : List UInt8) : Int := (stringToInt s).bmod UInt32.size

/-- `static_cast<uint64>`. -/
def toUInt64 (n : Int) : Nat := (n % (UInt64.size : Int)).toNat

/-- `static_cast<uint32>`. -/
def toUInt32 (n : Int) : Nat := (n % (UInt32.size : Int)).toNat

/-- `static_cast<int64>`. -/
def toInt64 (n : Nat) : Int := (n : Int).bmod UInt64.size

/-- The machine of a line with four parts. -/
def readEntry (entry : List UInt8) : Option MachineInfo :=
  match splitString 58 entry [] with
  | [id, replica, host, port] =>
      some {
        id := toUInt64 (readInt id)
        replica := toUInt32 (readInt replica)
        host
        port := readInt port }
  | _ => none

/-- The lines that are not empty. -/
def configEntries (config : List UInt8) : List (List UInt8) :=
  (splitString 10 config []).filter fun entry => !entry.isEmpty

/-- The sets `CheckString` keeps. -/
structure SeenMachines where
  machineIds : List Nat := []
  hostPortPairs : List (List UInt8) := []

def MachineInfo.hostport (m : MachineInfo) : List UInt8 := m.host ++ 58 :: intToString m.port

/-- The checks of one machine. The one on the replica comes after its conversion
to `uint32`, so no replica is negative there. -/
def checkMachine (seen : SeenMachines) (m : MachineInfo) : Option SeenMachines :=
  if 0 ≤ toInt64 m.id ∧ 0 ≤ toInt64 m.replica ∧ 0 < m.host.length ∧ 0 ≤ m.port ∧
      m.id ∉ seen.machineIds ∧ m.hostport ∉ seen.hostPortPairs then
    some {
      machineIds := m.id :: seen.machineIds
      hostPortPairs := m.hostport :: seen.hostPortPairs }
  else none

def checkEntry (seen : SeenMachines) (entry : List UInt8) : Option SeenMachines :=
  (readEntry entry).bind (checkMachine seen)

/-- `CheckString`. -/
def checkString (config : List UInt8) : Bool :=
  ((configEntries config).foldlM checkEntry {}).isSome

/-- The machines a configuration lists. -/
def listedMachines (config : List UInt8) : List MachineInfo :=
  (configEntries config).filterMap readEntry

namespace ClusterConfig

/-- What `FromString` builds in its loop: two members, the local replica and the
set of replicas. -/
structure Loading where
  machines : List (Nat × MachineInfo) := []
  machinesReplica : List (Nat × Nat) := []
  localReplica : Nat := 0
  replicas : List Nat := []

/-- One turn of the loop. -/
def Loading.add (localNodeId : Nat) (c : Loading) (m : MachineInfo) : Loading where
  machines := put m.id m c.machines
  machinesReplica := put m.id m.replica c.machinesReplica
  localReplica := if m.id = localNodeId then m.replica else c.localReplica
  replicas := c.replicas.insert m.replica

/-- `FromString`. -/
def fromString (localNodeId : Nat) (config : List UInt8) : Option ClusterConfig :=
  if checkString config then
    let c := (listedMachines config).foldl (Loading.add localNodeId) {}
    let replicasSize := c.replicas.length % UInt32.size
    let nodesPerReplica := c.machines.length / replicasSize
    if replicasSize = 0 ∨ nodesPerReplica = 0 then none
    else
      some {
        relativeNodeId := localNodeId % nodesPerReplica
        localReplicaId := c.localReplica
        nodesPerReplica, replicasSize }
  else none

/-- `LookupReplica`: a division, whatever the configuration says. -/
def lookupReplica (cfg : ClusterConfig) (machineId : Nat) : Nat :=
  machineId / cfg.nodesPerReplica % UInt32.size

end ClusterConfig

/-! ## What `CheckString` accepts -/

theorem readInt_bounds (s : List UInt8) : -(intLimit : Int) ≤ readInt s ∧ readInt s < intLimit := by
  have hlow := @Int.le_bmod (stringToInt s) UInt32.size (by decide)
  have hhigh := @Int.bmod_lt (stringToInt s) UInt32.size (by decide)
  have hsize : UInt32.size = 4294967296 := rfl
  have hlimit : intLimit = 2147483648 := rfl
  unfold readInt
  rw [hsize] at hlow hhigh ⊢
  rw [hlimit]
  constructor
  · omega
  · omega

/-- The conversions there and back leave an `int` as it is. -/
theorem toInt64_toUInt64 {n : Int} (hlow : -(intLimit : Int) ≤ n) (hhigh : n < intLimit) :
    toInt64 (toUInt64 n) = n := by
  have hsize : UInt64.size = 18446744073709551616 := rfl
  have hlimit : intLimit = 2147483648 := rfl
  have hnonneg : 0 ≤ n % (UInt64.size : Int) := by
    apply Int.emod_nonneg
    rw [hsize]
    omega
  unfold toInt64 toUInt64
  rw [Int.toNat_of_nonneg hnonneg, Int.emod_bmod]
  rw [hlimit] at hlow hhigh
  rw [hsize]
  apply Int.bmod_eq_of_le
  · omega
  · omega

/-- The id of an accepted machine is an `int` that is not negative. -/
theorem toUInt64_readInt_lt {s : List UInt8} (h : 0 ≤ toInt64 (toUInt64 (readInt s))) :
    toUInt64 (readInt s) < intLimit := by
  have hsize : UInt64.size = 18446744073709551616 := rfl
  have hlimit : intLimit = 2147483648 := rfl
  obtain ⟨hlow, hhigh⟩ := readInt_bounds s
  rw [toInt64_toUInt64 hlow hhigh] at h
  have hfits : readInt s < (UInt64.size : Int) := by
    rw [hlimit] at hhigh
    rw [hsize]
    omega
  rw [toUInt64, Int.emod_eq_of_lt h hfits]
  omega

theorem readEntry_id {entry : List UInt8} {m : MachineInfo} (h : readEntry entry = some m) :
    ∃ s, m.id = toUInt64 (readInt s) := by
  unfold readEntry at h
  split at h
  · next id replica host port heq =>
      rw [Option.some.injEq] at h
      exact ⟨id, by rw [← h]⟩
  · cases h

theorem checkMachine_some {seen seen' : SeenMachines} {m : MachineInfo}
    (h : checkMachine seen m = some seen') :
    0 ≤ toInt64 m.id ∧ m.id ∉ seen.machineIds ∧ seen'.machineIds = m.id :: seen.machineIds := by
  unfold checkMachine at h
  split at h
  · next hcheck =>
      rw [Option.some.injEq] at h
      obtain ⟨hid, -, -, -, hnew, -⟩ := hcheck
      exact ⟨hid, hnew, by rw [← h]⟩
  · cases h

/-- Every entry of an accepted configuration has a machine, no id is repeated,
and all ids are in the range of `int`. -/
theorem foldlM_checkEntry {entries : List (List UInt8)} {seen seen' : SeenMachines}
    (hnodup : seen.machineIds.Nodup) (hsmall : ∀ id ∈ seen.machineIds, id < intLimit)
    (h : entries.foldlM checkEntry seen = some seen') :
    seen'.machineIds.Nodup ∧ (∀ id ∈ seen'.machineIds, id < intLimit) ∧
      seen'.machineIds = ((entries.filterMap readEntry).map MachineInfo.id).reverse ++
        seen.machineIds := by
  induction entries generalizing seen with
  | nil =>
      rw [List.foldlM_nil, Option.pure_def, Option.some.injEq] at h
      rw [← h]
      exact ⟨hnodup, hsmall, rfl⟩
  | cons entry entries ih =>
      rw [List.foldlM_cons, Option.bind_eq_bind, Option.bind_eq_some_iff] at h
      obtain ⟨mid, hmid, hrest⟩ := h
      rw [checkEntry, Option.bind_eq_some_iff] at hmid
      obtain ⟨m, hm, hcheck⟩ := hmid
      obtain ⟨hid, hnew, hids⟩ := checkMachine_some hcheck
      obtain ⟨s, hs⟩ := readEntry_id hm
      have hlt : m.id < intLimit := by
        rw [hs] at hid ⊢
        exact toUInt64_readInt_lt hid
      have hstep := ih (by rw [hids]; exact List.nodup_cons.mpr ⟨hnew, hnodup⟩)
        (by rw [hids]; exact List.forall_mem_cons.mpr ⟨hlt, hsmall⟩) hrest
      refine ⟨hstep.1, hstep.2.1, ?_⟩
      rw [hstep.2.2, hids, List.filterMap_cons_some hm]
      simp

theorem listed_nodup {config : List UInt8} (h : checkString config = true) :
    ((listedMachines config).map MachineInfo.id).Nodup ∧
      ∀ m ∈ listedMachines config, m.id < intLimit := by
  obtain ⟨seen, hseen⟩ := Option.isSome_iff_exists.mp h
  obtain ⟨hnodup, hsmall, hids⟩ := foldlM_checkEntry List.nodup_nil (by simp) hseen
  rw [hids, List.append_nil] at hnodup hsmall
  refine ⟨List.nodup_reverse.mp hnodup, ?_⟩
  intro m hm
  exact hsmall m.id (List.mem_reverse.mpr (List.mem_map_of_mem hm))

end Calvin
