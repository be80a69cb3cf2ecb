import Mathlib.Data.Set.Function
import Mathlib.Data.List.Perm.Subperm
import Calvin.Machine.ConfigFile

/-!
# The layout a configuration has to have

`LookupReplica` and `LookupMachineID` compute with the number of nodes a
replica, whatever replica the file gives a machine. They agree with the file
exactly when it numbers the machines replica by replica, in blocks of one size.
-/

namespace Calvin

open Lib.BucketTable (put keys_put)

namespace ClusterConfig

/-! ## What the loop of `FromString` has read -/

theorem foldl_add_machines {localId : Nat} (ms : List MachineInfo) (c : Loading)
    (h : (c.machines.map Prod.fst ++ ms.map MachineInfo.id).Nodup) :
    (ms.foldl (Loading.add localId) c).machines.map Prod.fst =
      c.machines.map Prod.fst ++ ms.map MachineInfo.id := by
  induction ms generalizing c with
  | nil => exact (List.append_nil _).symm
  | cons m ms ih =>
      have hfresh : m.id ∉ c.machines.map Prod.fst := by
        intro hmem
        exact (List.nodup_append.mp h).2.2 _ hmem m.id List.mem_cons_self rfl
      have hkeys : (c.add localId m).machines.map Prod.fst = c.machines.map Prod.fst ++ [m.id] := by
        rw [Loading.add, keys_put, if_neg hfresh]
      rw [List.foldl_cons, ih, hkeys, List.append_assoc]
      · rfl
      · rw [hkeys, List.append_assoc]
        exact h

theorem foldl_add_replicas {localId : Nat} (ms : List MachineInfo) (c : Loading)
    (h : c.replicas.Nodup) :
    (ms.foldl (Loading.add localId) c).replicas.Nodup ∧
      (∀ r, r ∈ (ms.foldl (Loading.add localId) c).replicas ↔
        r ∈ c.replicas ∨ ∃ m ∈ ms, m.replica = r) ∧
      (ms.foldl (Loading.add localId) c).replicas.length ≤ c.replicas.length + ms.length := by
  induction ms generalizing c with
  | nil => exact ⟨h, by simp, le_rfl⟩
  | cons m ms ih =>
      obtain ⟨hnodup, hmem, hlen⟩ := ih (c.add localId m) (List.Nodup.insert h)
      refine ⟨hnodup, ?_, ?_⟩
      · intro r
        rw [List.foldl_cons, hmem, Loading.add, List.mem_insert_iff]
        simp only [List.mem_cons, exists_eq_or_imp, eq_comm (a := r)]
        tauto
      · have hinsert : (c.add localId m).replicas.length ≤ c.replicas.length + 1 := by
          rw [Loading.add, List.length_insert]
          split
          · exact Nat.le_succ _
          · exact le_rfl
        rw [List.foldl_cons, List.length_cons]
        omega

/-- The members `FromString` sets, in terms of the machines listed. -/
structure Loaded (ms : List MachineInfo) (replicas : List Nat) (cfg : ClusterConfig) : Prop where
  nodup : replicas.Nodup
  mem : ∀ r, r ∈ replicas ↔ ∃ m ∈ ms, m.replica = r
  replicasSize : cfg.replicasSize = replicas.length
  nodesPerReplica : cfg.nodesPerReplica = ms.length / replicas.length
  size_le : cfg.replicasSize ≤ UInt32.size
  nodes_pos : 0 < cfg.nodesPerReplica

theorem length_le_limit {ms : List MachineInfo} (hnodup : (ms.map MachineInfo.id).Nodup)
    (hsmall : ∀ m ∈ ms, m.id < intLimit) : ms.length ≤ intLimit := by
  have hsub : ms.map MachineInfo.id ⊆ List.range intLimit := by
    intro id hid
    obtain ⟨m, hm, rfl⟩ := List.mem_map.mp hid
    exact List.mem_range.mpr (hsmall m hm)
  have hlen := (List.subperm_of_subset hnodup hsub).length_le
  rw [List.length_map, List.length_range] at hlen
  exact hlen

/-- An accepted configuration with a machine at all is loaded: nothing is
divided by zero. -/
theorem fromString_loaded {localId : Nat} {config : List UInt8} (h : checkString config = true)
    (hne : listedMachines config ≠ []) :
    ∃ cfg replicas, fromString localId config = some cfg ∧
      Loaded (listedMachines config) replicas cfg := by
  obtain ⟨hids, hsmall⟩ := listed_nodup h
  set ms := listedMachines config with hms
  set c := ms.foldl (Loading.add localId) {} with hc
  have hmachines : c.machines.map Prod.fst = ms.map MachineInfo.id :=
    foldl_add_machines ms {} (by simpa using hids)
  have hreplicas := @foldl_add_replicas localId ms {} List.nodup_nil
  rw [← hc] at hreplicas
  obtain ⟨hnodup, hmem, hlen⟩ := hreplicas
  have hmem' : ∀ r, r ∈ c.replicas ↔ ∃ m ∈ ms, m.replica = r := by
    intro r
    rw [hmem]
    simp
  have hcount : c.machines.length = ms.length := by
    have hlengths := congrArg List.length hmachines
    rwa [List.length_map, List.length_map] at hlengths
  obtain ⟨m, hm⟩ := List.exists_mem_of_ne_nil ms hne
  have hpos : 0 < c.replicas.length := List.length_pos_of_mem ((hmem' m.replica).mpr ⟨m, hm, rfl⟩)
  have hle : c.replicas.length ≤ ms.length := by simpa using hlen
  -- the ids are ints, so there are not too many replicas to count
  have hsize : c.replicas.length < UInt32.size :=
    (hle.trans (length_le_limit hids hsmall)).trans_lt (by decide)
  have hnodes : 0 < ms.length / c.replicas.length := Nat.div_pos hle hpos
  let cfg : ClusterConfig := {
    relativeNodeId := localId % (ms.length / c.replicas.length)
    localReplicaId := c.localReplica
    nodesPerReplica := ms.length / c.replicas.length
    replicasSize := c.replicas.length }
  refine ⟨cfg, c.replicas, ?_, hnodup, hmem', rfl, rfl, hsize.le, hnodes⟩
  rw [fromString, if_pos h]
  simp only [← hms, ← hc, Nat.mod_eq_of_lt hsize, hcount]
  rw [if_neg (by omega)]

/-! ## The layout -/

/-- The machines listed are numbered replica by replica, `m` a replica. -/
def ReplicaByReplica (ms : List MachineInfo) : Prop :=
  ∃ m replicas, 0 < m ∧ ∀ id replica, (∃ x ∈ ms, x.id = id ∧ x.replica = replica) ↔
    replica < replicas ∧ ∃ i < m, id = replica * m + i

/-- The machine at a relative id in a replica. -/
def machineAt (cfg : ClusterConfig) (p : Nat × Nat) : Nat := cfg.lookupMachineId p.1 p.2

/-- The relative id and the replica of a machine, as they are computed. -/
def placeOf (cfg : ClusterConfig) (id : Nat) : Nat × Nat :=
  (id % cfg.nodesPerReplica, cfg.lookupReplica id)

def places (cfg : ClusterConfig) : Set (Nat × Nat) :=
  {p | p.1 < cfg.nodesPerReplica ∧ p.2 < cfg.replicasSize}

def listedIds (ms : List MachineInfo) : Set Nat := {id | ∃ x ∈ ms, x.id = id}

/-- The configuration agrees with the file: the replica of every machine, and
places and machines one to one. -/
structure LayoutAgrees (cfg : ClusterConfig) (ms : List MachineInfo) : Prop where
  replica : ∀ x ∈ ms, cfg.lookupReplica x.id = x.replica
  bijection : Set.BijOn cfg.machineAt cfg.places (listedIds ms)
  inverse : Set.InvOn cfg.placeOf cfg.machineAt cfg.places (listedIds ms)

variable {cfg : ClusterConfig} {ms : List MachineInfo} {replicas : List Nat}

/-- A numbering replica by replica fixes the two sizes. -/
theorem Loaded.sizes (h : Loaded ms replicas cfg) (hne : ms ≠ [])
    (hids : (ms.map MachineInfo.id).Nodup) {m count : Nat} (hm : 0 < m)
    (hlist : ∀ id replica, (∃ x ∈ ms, x.id = id ∧ x.replica = replica) ↔
      replica < count ∧ ∃ i < m, id = replica * m + i) :
    cfg.replicasSize = count ∧ cfg.nodesPerReplica = m := by
  have hreplicas : replicas.length = count := by
    have hperm : replicas.Perm (List.range count) := by
      rw [List.perm_ext_iff_of_nodup h.nodup List.nodup_range]
      intro r
      rw [h.mem, List.mem_range]
      constructor
      · rintro ⟨x, hx, rfl⟩
        exact ((hlist x.id x.replica).mp ⟨x, hx, rfl, rfl⟩).1
      · intro hr
        obtain ⟨x, hx, -, hrep⟩ := (hlist (r * m + 0) r).mpr ⟨hr, 0, hm, rfl⟩
        exact ⟨x, hx, hrep⟩
    rw [hperm.length_eq, List.length_range]
  have hmachines : ms.length = count * m := by
    have hperm : (ms.map MachineInfo.id).Perm (List.range (count * m)) := by
      rw [List.perm_ext_iff_of_nodup hids List.nodup_range]
      intro id
      rw [List.mem_map, List.mem_range]
      constructor
      · rintro ⟨x, hx, rfl⟩
        obtain ⟨hr, i, hi, hid⟩ := (hlist x.id x.replica).mp ⟨x, hx, rfl, rfl⟩
        have hrow := Nat.mul_le_mul_right m hr
        rw [Nat.succ_mul] at hrow
        omega
      · intro hid
        have hrow : id / m < count := Nat.div_lt_of_lt_mul (by rw [Nat.mul_comm]; exact hid)
        obtain ⟨x, hx, hxid, -⟩ := (hlist id (id / m)).mpr
          ⟨hrow, id % m, Nat.mod_lt id hm, (Nat.div_add_mod' id m).symm⟩
        exact ⟨x, hx, hxid⟩
    rw [← List.length_map (f := MachineInfo.id), hperm.length_eq, List.length_range]
  have hcount : 0 < count := by
    obtain ⟨x, hx⟩ := List.exists_mem_of_ne_nil ms hne
    exact (Nat.zero_le _).trans_lt ((hlist x.id x.replica).mp ⟨x, hx, rfl, rfl⟩).1
  refine ⟨h.replicasSize.trans hreplicas, ?_⟩
  rw [h.nodesPerReplica, hreplicas, hmachines, Nat.mul_div_cancel_left m hcount]

/-- In such a layout the division finds the replica of every machine. -/
theorem lookupReplica_row {m replica i : Nat} (hnodes : cfg.nodesPerReplica = m) (hi : i < m)
    (hreplica : replica < UInt32.size) : cfg.lookupReplica (replica * m + i) = replica := by
  rw [lookupReplica, hnodes, Nat.mul_comm, Nat.mul_add_div (by omega), Nat.div_eq_of_lt hi,
    Nat.add_zero, Nat.mod_eq_of_lt hreplica]

theorem placeOf_machineAt {p : Nat × Nat} (hp : p ∈ cfg.places)
    (hsize : cfg.replicasSize ≤ UInt32.size) : cfg.placeOf (cfg.machineAt p) = p := by
  obtain ⟨hnode, hreplica⟩ := hp
  have hmod : (p.2 * cfg.nodesPerReplica + p.1) % cfg.nodesPerReplica = p.1 := by
    rw [Nat.mul_add_mod', Nat.mod_eq_of_lt hnode]
  show (_, _) = p
  rw [machineAt, lookupMachineId, hmod, lookupReplica_row rfl hnode (hreplica.trans_le hsize)]

/-- The file agrees with the configuration it loads exactly when it numbers the
machines replica by replica. -/
theorem layoutAgrees_iff (h : Loaded ms replicas cfg) (hne : ms ≠ [])
    (hids : (ms.map MachineInfo.id).Nodup) : LayoutAgrees cfg ms ↔ ReplicaByReplica ms := by
  have hsize := h.size_le
  constructor
  · intro hagrees
    refine ⟨cfg.nodesPerReplica, cfg.replicasSize, h.nodes_pos, ?_⟩
    intro id replica
    constructor
    · rintro ⟨x, hx, rfl, rfl⟩
      obtain ⟨p, hp, hat⟩ := hagrees.bijection.surjOn (show x.id ∈ listedIds ms from ⟨x, hx, rfl⟩)
      have hrep : x.replica = p.2 := by
        rw [← hagrees.replica x hx, ← hat]
        exact congrArg Prod.snd (placeOf_machineAt hp hsize)
      rw [hrep]
      exact ⟨hp.2, p.1, hp.1, hat.symm⟩
    · rintro ⟨hreplica, i, hi, rfl⟩
      obtain ⟨x, hx, hid⟩ := hagrees.bijection.mapsTo (show (i, replica) ∈ cfg.places from
        ⟨hi, hreplica⟩)
      refine ⟨x, hx, hid, ?_⟩
      rw [← hagrees.replica x hx, hid]
      exact lookupReplica_row rfl hi (hreplica.trans_le hsize)
  · rintro ⟨m, count, hm, hlist⟩
    obtain ⟨hcount, hrow⟩ := h.sizes hne hids hm hlist
    -- every machine listed is the one at a place
    have hplace : ∀ x ∈ ms, ∃ p ∈ cfg.places, cfg.machineAt p = x.id ∧ p.2 = x.replica := by
      intro x hx
      obtain ⟨hreplica, i, hi, hid⟩ := (hlist x.id x.replica).mp ⟨x, hx, rfl, rfl⟩
      refine ⟨(i, x.replica), ⟨?_, ?_⟩, ?_, rfl⟩
      · rw [hrow]
        exact hi
      · rw [hcount]
        exact hreplica
      · rw [machineAt, lookupMachineId, hrow, hid]
    have hmaps : Set.MapsTo cfg.machineAt cfg.places (listedIds ms) := by
      rintro ⟨i, replica⟩ ⟨hi, hreplica⟩
      rw [hrow] at hi
      rw [hcount] at hreplica
      obtain ⟨x, hx, hid, -⟩ := (hlist (replica * m + i) replica).mpr ⟨hreplica, i, hi, rfl⟩
      refine ⟨x, hx, ?_⟩
      rw [hid, machineAt, lookupMachineId, hrow]
    have hback : Set.MapsTo cfg.placeOf (listedIds ms) cfg.places := by
      rintro _ ⟨x, hx, rfl⟩
      obtain ⟨p, hp, hat, -⟩ := hplace x hx
      rw [← hat, placeOf_machineAt hp hsize]
      exact hp
    have hinv : Set.InvOn cfg.placeOf cfg.machineAt cfg.places (listedIds ms) := by
      refine ⟨fun p hp => placeOf_machineAt hp hsize, ?_⟩
      rintro _ ⟨x, hx, rfl⟩
      obtain ⟨p, hp, hat, -⟩ := hplace x hx
      rw [← hat, placeOf_machineAt hp hsize]
    refine ⟨?_, hinv.bijOn hmaps hback, hinv⟩
    intro x hx
    obtain ⟨p, hp, hat, hrep⟩ := hplace x hx
    rw [← hat, ← hrep]
    exact congrArg Prod.snd (placeOf_machineAt hp hsize)

/-- Every configuration `CheckString` accepts, with the local machine in it: it
is loaded without a division by zero, and its layout agrees with the file
exactly when the machines are numbered replica by replica. -/
theorem layout_iff {config : List UInt8} {localId : Nat} (h : checkString config = true)
    (hlocal : localId ∈ listedIds (listedMachines config)) :
    ∃ cfg, fromString localId config = some cfg ∧
      (LayoutAgrees cfg (listedMachines config) ↔ ReplicaByReplica (listedMachines config)) := by
  have hne : listedMachines config ≠ [] := by
    obtain ⟨x, hx, -⟩ := hlocal
    exact List.ne_nil_of_mem hx
  obtain ⟨cfg, replicas, hcfg, hloaded⟩ := fromString_loaded h hne
  exact ⟨cfg, hcfg, layoutAgrees_iff hloaded hne (listed_nodup h).1⟩

/-- Two replicas of one machine: `0:0:a:1` and `1:1:a:2`. -/
theorem layout_iff_two :
    ∃ cfg, fromString 1 [48, 58, 48, 58, 97, 58, 49, 10, 49, 58, 49, 58, 97, 58, 50] = some cfg ∧
      LayoutAgrees cfg [⟨0, 0, [97], 1⟩, ⟨1, 1, [97], 2⟩] := by
  have hlisted : listedMachines [48, 58, 48, 58, 97, 58, 49, 10, 49, 58, 49, 58, 97, 58, 50] =
      [⟨0, 0, [97], 1⟩, ⟨1, 1, [97], 2⟩] := by decide
  have hcheck :
      checkString [48, 58, 48, 58, 97, 58, 49, 10, 49, 58, 49, 58, 97, 58, 50] = true := by decide
  obtain ⟨cfg, hcfg, hiff⟩ := @layout_iff _ 1 hcheck ⟨⟨1, 1, [97], 2⟩, by rw [hlisted]; simp, rfl⟩
  refine ⟨cfg, hcfg, ?_⟩
  rw [hlisted] at hiff
  refine hiff.mpr ⟨1, 2, by decide, ?_⟩
  intro id replica
  simp only [List.mem_cons, List.not_mem_nil, or_false, exists_eq_or_imp, exists_eq_left]
  constructor
  · rintro (⟨rfl, rfl⟩ | ⟨rfl, rfl⟩)
    · exact ⟨by decide, 0, by decide, rfl⟩
    · exact ⟨by decide, 0, by decide, rfl⟩
  · rintro ⟨hreplica, i, hi, rfl⟩
    omega

/-- Two replicas that take turns with the ids: `0:0:a:1`, `1:1:a:2`, `2:0:a:3`
and `3:1:a:4`. Machine 1 is of replica 1, and `LookupReplica` says 0. -/
theorem interleaved_disagrees :
    ¬ ∀ (config : List UInt8) (localId : Nat), checkString config = true →
      localId ∈ listedIds (listedMachines config) →
        ∃ cfg, fromString localId config = some cfg ∧
          LayoutAgrees cfg (listedMachines config) := by
  intro h
  have hlisted : listedMachines
      [48, 58, 48, 58, 97, 58, 49, 10, 49, 58, 49, 58, 97, 58, 50, 10, 50, 58, 48, 58, 97, 58,
       51, 10, 51, 58, 49, 58, 97, 58, 52] =
        [⟨0, 0, [97], 1⟩, ⟨1, 1, [97], 2⟩, ⟨2, 0, [97], 3⟩, ⟨3, 1, [97], 4⟩] := by decide
  have hloaded : fromString 0
      [48, 58, 48, 58, 97, 58, 49, 10, 49, 58, 49, 58, 97, 58, 50, 10, 50, 58, 48, 58, 97, 58,
       51, 10, 51, 58, 49, 58, 97, 58, 52] =
        some ⟨0, 0, 2, 2⟩ := by decide
  obtain ⟨cfg, hcfg, hagrees⟩ := h
    [48, 58, 48, 58, 97, 58, 49, 10, 49, 58, 49, 58, 97, 58, 50, 10, 50, 58, 48, 58, 97, 58, 51,
     10, 51, 58, 49, 58, 97, 58, 52]
    0 (by decide) ⟨⟨0, 0, [97], 1⟩, by rw [hlisted]; simp, rfl⟩
  rw [hloaded, Option.some.injEq] at hcfg
  have hreplica := hagrees.replica ⟨1, 1, [97], 2⟩ (by rw [hlisted]; simp)
  rw [← hcfg] at hreplica
  exact absurd hreplica (by decide)

end ClusterConfig

end Calvin
