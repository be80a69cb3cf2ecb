import Calvin.Applications.RandomKeys

/-!
# The entries of a generated transaction

A generator collects its keys in groups: each group has a home and a range of
numbers. Groups with different homes or ranges that do not meet share no key, so
a list of such groups gives entries with distinct keys, whose partition and
first master are those of the home they were drawn for.
-/

namespace Calvin

/-- Keys drawn for one home from one range of numbers. -/
structure KeyGroup where
  home : Home
  lo : Nat
  hi : Nat
  keys : List Nat

namespace KeyGroup

def entries (g : KeyGroup) : List KeyEntry := g.keys.map (newEntry g.home.replica)

/-- The keys are distinct keys of the home within the range. -/
structure Drawn (nparts replicaSize : Nat) (g : KeyGroup) : Prop where
  nodup : g.keys.Nodup
  home : ∀ k ∈ g.keys, HomeKey nparts replicaSize g.home g.lo g.hi k

/-- Different homes, ranges that do not meet, or keys that differ anyway. -/
def Apart (g g' : KeyGroup) : Prop :=
  g.home ≠ g'.home ∨ g.hi ≤ g'.lo ∨ g'.hi ≤ g.lo ∨ g.keys.Disjoint g'.keys

end KeyGroup

/-- A home of the cluster. -/
structure ClusterConfig.HasHome (cfg : ClusterConfig) (home : Home) : Prop where
  part : home.part < cfg.nodesPerReplica
  replica : home.replica < cfg.replicasSize

/-- The partition of an entry's key, and the master the entry names. -/
def ClusterConfig.entryHome (cfg : ClusterConfig) (e : KeyEntry) : Home where
  part := cfg.lookupPartition e.key
  replica := e.master

/-- Distinct keys, all numbers below the size of the database, with their first
master in the entry. -/
structure ValidEntries (cfg : ClusterConfig) (size : Nat) (entries : List KeyEntry) : Prop where
  distinct : (entries.map KeyEntry.key).Nodup
  below : ∀ e ∈ entries, ∃ number < size, e.key = numberKey number
  master : ∀ e ∈ entries, cfg.lookupMaster e.key = e.master

section Groups

variable {cfg : ClusterConfig} {size : Nat} {groups : List KeyGroup}

/-- A key of two groups would have one home and lie in both ranges. -/
theorem KeyGroup.Apart.disjoint {nparts replicaSize : Nat} {g g' : KeyGroup} (h : g.Apart g')
    (hg : g.Drawn nparts replicaSize) (hg' : g'.Drawn nparts replicaSize) :
    g.keys.Disjoint g'.keys := by
  intro k hk hk'
  have hkey := hg.home k hk
  have hkey' := hg'.home k hk'
  rcases h with hhome | hrange | hrange | hkeys
  · apply hhome
    calc g.home = ⟨k % nparts, k / nparts % replicaSize⟩ := by rw [hkey.part, hkey.replica]
      _ = g'.home := by rw [hkey'.part, hkey'.replica]
  · have hhigh := hkey.high
    have hlow := hkey'.low
    omega
  · have hhigh := hkey'.high
    have hlow := hkey.low
    omega
  · exact hkeys hk hk'

/-- All keys of groups that are apart are distinct. -/
theorem groups_nodup {nparts replicaSize : Nat} (hdrawn : ∀ g ∈ groups, g.Drawn nparts replicaSize)
    (hapart : groups.Pairwise KeyGroup.Apart) : (groups.flatMap KeyGroup.keys).Nodup := by
  rw [List.nodup_flatMap]
  refine ⟨fun g hg => (hdrawn g hg).nodup, ?_⟩
  induction groups with
  | nil => exact List.Pairwise.nil
  | cons g gs ih =>
      rw [List.pairwise_cons] at hapart ⊢
      refine ⟨?_, ih (fun x hx => hdrawn x (List.mem_cons_of_mem _ hx)) hapart.2⟩
      intro g' hg'
      exact (hapart.1 g' hg').disjoint (hdrawn g List.mem_cons_self)
        (hdrawn g' (List.mem_cons_of_mem _ hg'))

theorem KeyGroup.entries_keys (g : KeyGroup) :
    g.entries.map KeyEntry.key = g.keys.map numberKey := by
  rw [KeyGroup.entries, List.map_map]
  apply List.map_congr_left
  intro k _
  rw [Function.comp_apply, newEntry_key]

theorem flatMap_entries_keys (groups : List KeyGroup) :
    (groups.flatMap KeyGroup.entries).map KeyEntry.key =
      (groups.flatMap KeyGroup.keys).map numberKey := by
  induction groups with
  | nil => rfl
  | cons g gs ih =>
      rw [List.flatMap_cons, List.flatMap_cons, List.map_append, List.map_append, ih,
        g.entries_keys]

/-- The entries of a group are where they were drawn for. -/
theorem entries_home {g : KeyGroup} (hg : g.Drawn cfg.nodesPerReplica cfg.replicasSize)
    (hhi : g.hi ≤ intLimit) :
    g.entries.map cfg.entryHome = List.replicate g.keys.length g.home := by
  rw [List.eq_replicate_iff]
  refine ⟨by simp [KeyGroup.entries], ?_⟩
  intro home hhome
  simp only [KeyGroup.entries, List.map_map, List.mem_map] at hhome
  obtain ⟨k, hk, rfl⟩ := hhome
  have hkey := hg.home k hk
  rw [Function.comp_apply, ClusterConfig.entryHome, newEntry_key, newEntry_master]
  rw [ClusterConfig.lookupPartition_numberKey (by have := hkey.high; omega), hkey.part]

theorem flatMap_entries_home
    (hdrawn : ∀ g ∈ groups, g.Drawn cfg.nodesPerReplica cfg.replicasSize)
    (hhi : ∀ g ∈ groups, g.hi ≤ intLimit) :
    (groups.flatMap KeyGroup.entries).map cfg.entryHome =
      groups.flatMap fun g => List.replicate g.keys.length g.home := by
  induction groups with
  | nil => rfl
  | cons g gs ih =>
      simp only [List.forall_mem_cons] at hdrawn hhi
      rw [List.flatMap_cons, List.flatMap_cons, List.map_append, ih hdrawn.2 hhi.2,
        entries_home hdrawn.1 hhi.1]

/-- What groups that are apart say about the entries as a whole. -/
theorem validEntries_of_groups
    (hdrawn : ∀ g ∈ groups, g.Drawn cfg.nodesPerReplica cfg.replicasSize)
    (hapart : groups.Pairwise KeyGroup.Apart) (hhi : ∀ g ∈ groups, g.hi ≤ size)
    (hsize : size ≤ intLimit) : ValidEntries cfg size (groups.flatMap KeyGroup.entries) := by
  have hbound : ∀ k ∈ groups.flatMap KeyGroup.keys, k < size := by
    intro k hk
    obtain ⟨g, hg, hkg⟩ := List.mem_flatMap.mp hk
    exact ((hdrawn g hg).home k hkg).high.trans_le (hhi g hg)
  refine ⟨?_, ?_, ?_⟩
  · rw [flatMap_entries_keys]
    refine List.Nodup.map_on ?_ (groups_nodup hdrawn hapart)
    intro m hm n hn h
    exact numberKey_injective ((hbound m hm).trans_le hsize) ((hbound n hn).trans_le hsize) h
  · intro e he
    obtain ⟨g, hg, heg⟩ := List.mem_flatMap.mp he
    obtain ⟨k, hk, rfl⟩ := List.mem_map.mp heg
    exact ⟨k, hbound k (List.mem_flatMap.mpr ⟨g, hg, hk⟩), newEntry_key _ k⟩
  · intro e he
    obtain ⟨g, hg, heg⟩ := List.mem_flatMap.mp he
    obtain ⟨k, hk, rfl⟩ := List.mem_map.mp heg
    have hk' := hbound k (List.mem_flatMap.mpr ⟨g, hg, hk⟩)
    rw [newEntry_key, newEntry_master, ClusterConfig.lookupMaster_numberKey (by omega),
      ((hdrawn g hg).home k hk).replica]

end Groups

end Calvin
