import Calvin.Applications.MicrobenchmarkTxns

/-!
# The microbenchmark and its database

The keys a generator returns are distinct numbers of the database, lie in the
partitions asked for, and name the master `InitializeStorage` gives their record.
Hot and cold keys come from ranges that do not meet, and keys of two places have
different partitions or different masters.
-/

namespace Calvin.Microbenchmark

open Lib (Draw)
open Lib.Draw

/-- The sizes the generators are made for: two hot records of every partition
and replica, `kRWSetSize` cold ones, and all numbers in the range of `int`. -/
structure Fits (b : Microbenchmark) : Prop where
  nodes : 0 < b.config.nodesPerReplica
  replicas : 0 < b.config.replicasSize
  hot : 2 * b.config.replicasSize ≤ b.hotRecords
  cold : kRWSetSize ≤ (b.config.nodesPerReplica * kDBSize -
      alignStart b.config.nodesPerReplica b.config.replicasSize
        (b.config.nodesPerReplica * b.hotRecords)) /
    (b.config.nodesPerReplica * b.config.replicasSize)
  int : b.config.nodesPerReplica * kDBSize ≤ intLimit

/-- What is asked of a generated transaction. -/
structure Generated (b : Microbenchmark) (parts : List Nat) (multiReplica : Prop)
    (txn : TxnProto) : Prop where
  count : txn.client.entries.length = kRWSetSize
  valid : ValidEntries b.config (b.config.nodesPerReplica * kDBSize) txn.client.entries
  part : ∀ e ∈ txn.client.entries, b.config.lookupPartition e.key ∈ parts
  stored : ∀ e ∈ txn.client.entries, ∀ (node : Nat) (value : Value),
    node = b.config.lookupPartition e.key →
      b.initializeStorage { b.config with relativeNodeId := node } value e.key =
        some { value, master := e.master, counter := e.counter }
  fake : txn.fakeTxn = true ↔ multiReplica ∧ ∀ e ∈ txn.client.entries, e.master ≠ 0

variable {b : Microbenchmark}

/-- The first cold key. -/
def coldStart (b : Microbenchmark) : Nat :=
  alignStart b.config.nodesPerReplica b.config.replicasSize
    (b.config.nodesPerReplica * b.hotRecords)

namespace Fits

theorem stride_pos (h : b.Fits) : 0 < b.config.nodesPerReplica * b.config.replicasSize :=
  Nat.mul_pos h.nodes h.replicas

theorem room (h : b.Fits) :
    b.coldStart + kRWSetSize * (b.config.nodesPerReplica * b.config.replicasSize) ≤
      b.config.nodesPerReplica * kDBSize := by
  have hcold := (Nat.le_div_iff_mul_le h.stride_pos).mp h.cold
  have hpos := h.stride_pos
  unfold coldStart
  have hten : 0 < kRWSetSize * (b.config.nodesPerReplica * b.config.replicasSize) :=
    Nat.mul_pos (by decide) hpos
  omega

theorem stride_lt (h : b.Fits) :
    b.config.nodesPerReplica * b.config.replicasSize < UInt32.size := by
  have hroom := h.room
  have hint := h.int
  unfold kRWSetSize at hroom
  unfold intLimit at hint
  simp only [UInt32.size]
  omega

theorem hot_le_coldStart (h : b.Fits) :
    b.config.nodesPerReplica * b.hotRecords ≤ b.coldStart :=
  (alignStart_spec h.stride_lt h.stride_pos _).2.1

theorem nparts_eq (h : b.Fits) : b.nparts = b.config.nodesPerReplica := by
  have hint := h.int
  unfold kDBSize intLimit at hint
  exact Nat.mod_eq_of_lt (by simp only [UInt32.size]; omega)

theorem hot_le_size (h : b.Fits) :
    b.config.nodesPerReplica * b.hotRecords ≤ b.config.nodesPerReplica * kDBSize := by
  have hroom := h.room
  have hle := h.hot_le_coldStart
  omega

theorem hot_le_limit (h : b.Fits) : b.config.nodesPerReplica * b.hotRecords ≤ intLimit :=
  h.hot_le_size.trans h.int

theorem keyStart_eq (h : b.Fits) : b.keyStart = b.coldStart := by
  have hlimit : intLimit < UInt32.size := by decide
  rw [keyStart, h.nparts_eq, Nat.mod_eq_of_lt (h.hot_le_limit.trans_lt hlimit)]
  rfl

/-- Two hot rows of every replica at least. -/
theorem hotRows (h : b.Fits) : 2 ≤ b.hotRecords / b.config.replicasSize :=
  (Nat.le_div_iff_mul_le h.replicas).mpr h.hot

end Fits

/-! ## The groups of keys -/

/-- The hot keys of a home. -/
def hotGroup (b : Microbenchmark) (home : Home) (keys : List Nat) : KeyGroup where
  home := home
  lo := 0
  hi := b.config.nodesPerReplica * b.hotRecords
  keys := keys

/-- The cold keys of a home. -/
def coldGroup (b : Microbenchmark) (home : Home) (keys : List Nat) : KeyGroup where
  home := home
  lo := b.coldStart
  hi := b.config.nodesPerReplica * kDBSize
  keys := keys

/-- The hot key a drawn order stands for. -/
def hotKey (b : Microbenchmark) (home : Home) (order : Nat) : Nat :=
  rowKey b.nparts home.part (rowOrder b.replicaSize home.replica order)

theorem hot_apart_cold (h : b.Fits) (home home' : Home) (keys keys' : List Nat) :
    (b.hotGroup home keys).Apart (b.coldGroup home' keys') :=
  .inr (.inl h.hot_le_coldStart)

/-- The draw of cold keys. -/
theorem coldKeys_ensures (h : b.Fits) {home : Home} (hhome : b.config.HasHome home)
    (numKeys : Nat) :
    (b.coldKeys numKeys home.part home.replica).Ensures fun keys =>
      (b.coldGroup home keys).Drawn b.config.nodesPerReplica b.config.replicasSize ∧
        keys.length = numKeys := by
  have hroom := h.room
  have hten : kRWSetSize = 10 := rfl
  have halign := (alignStart_spec h.stride_lt h.stride_pos
    (b.config.nodesPerReplica * b.hotRecords)).1
  unfold coldKeys
  rw [h.nparts_eq, h.keyStart_eq]
  refine (getRandomKeysReplica_ensures numKeys halign hhome.part hhome.replica ?_ h.int).mono ?_
  · show b.coldStart + _ ≤ _
    rw [hten] at hroom
    omega
  · rintro keys ⟨hnodup, hlen, hkeys⟩
    exact ⟨⟨hnodup, hkeys⟩, hlen⟩

/-- A drawn order gives a hot key. -/
theorem hotGroup_single (h : b.Fits) {home : Home} (hhome : b.config.HasHome home) {order : Nat}
    (horder : order < b.hotRecords / b.config.replicasSize) :
    (b.hotGroup home [b.hotKey home order]).Drawn b.config.nodesPerReplica
      b.config.replicasSize := by
  have hfit := h.hot_le_limit
  refine ⟨List.nodup_singleton _, ?_⟩
  intro k hk
  rw [List.mem_singleton.mp hk, hotKey, h.nparts_eq]
  exact (rowKey_home hhome.part hhome.replica hfit horder).2

/-- Two different orders give two hot keys of the home. -/
theorem hotGroup_pair (h : b.Fits) {home : Home} (hhome : b.config.HasHome home)
    {order order' : Nat}
    (horder : order < b.hotRecords / b.config.replicasSize)
    (horder' : order' < b.hotRecords / b.config.replicasSize) (hne : order' ≠ order) :
    (b.hotGroup home [b.hotKey home order, b.hotKey home order']).Drawn
      b.config.nodesPerReplica b.config.replicasSize := by
  have hfit := h.hot_le_limit
  refine ⟨?_, ?_⟩
  · rw [hotGroup, hotKey, hotKey, h.nparts_eq, List.nodup_cons, List.mem_singleton]
    exact ⟨rowKey_ne hhome.part hhome.replica hfit horder horder' (Ne.symm hne),
      List.nodup_singleton _⟩
  · intro k hk
    rcases List.mem_cons.mp hk with rfl | hk
    · exact (hotGroup_single h hhome horder).home _ List.mem_cons_self
    · rw [List.mem_singleton.mp hk]
      exact (hotGroup_single h hhome horder').home _ List.mem_cons_self

/-- A transaction whose entries come from groups that are apart is as asked. -/
theorem generated_of_groups (h : b.Fits) {txn : TxnProto} (groups : List KeyGroup)
    {parts : List Nat} {multiReplica : Prop}
    (hentries : txn.client.entries = groups.flatMap KeyGroup.entries)
    (hdrawn : ∀ g ∈ groups, g.Drawn b.config.nodesPerReplica b.config.replicasSize)
    (hapart : groups.Pairwise KeyGroup.Apart)
    (hhi : ∀ g ∈ groups, g.hi ≤ b.config.nodesPerReplica * kDBSize)
    (hcount : (groups.flatMap KeyGroup.keys).length = kRWSetSize)
    (hparts : ∀ g ∈ groups, g.home.part ∈ parts)
    (hfake : txn.fakeTxn = true ↔
      multiReplica ∧ ∀ e ∈ groups.flatMap KeyGroup.entries, e.master ≠ 0) :
    b.Generated parts multiReplica txn := by
  have hvalid := validEntries_of_groups hdrawn hapart hhi h.int
  refine ⟨?_, ?_, ?_, ?_, ?_⟩
  · rw [hentries, ← hcount, ← List.length_map (f := KeyEntry.key), flatMap_entries_keys,
      List.length_map]
  · rw [hentries]
    exact hvalid
  · intro e he
    rw [hentries] at he
    obtain ⟨g, hg, heg⟩ := List.mem_flatMap.mp he
    have hhome : b.config.entryHome e = g.home := by
      have hmem := List.mem_map_of_mem (f := b.config.entryHome) heg
      rw [entries_home (hdrawn g hg) ((hhi g hg).trans h.int)] at hmem
      exact List.eq_of_mem_replicate hmem
    rw [show b.config.lookupPartition e.key = g.home.part by rw [← hhome]; rfl]
    exact hparts g hg
  · intro e he node value hnode
    rw [hentries] at he
    obtain ⟨k, hk, hkey⟩ := hvalid.below e he
    have hcounter : e.counter = 0 := by
      obtain ⟨g, _, heg⟩ := List.mem_flatMap.mp he
      obtain ⟨k', _, rfl⟩ := List.mem_map.mp heg
      exact newEntry_counter _ _
    rw [hkey, initializeStorage_record b (by rw [h.nparts_eq]; exact hk)
      (by rw [ClusterConfig.lookupPartition_relative, ← hkey, hnode]), initialRecord,
      ClusterConfig.lookupMaster_relative, hcounter, ← hvalid.master e he, hkey]
  · rw [hentries]
    exact hfake

/-! ## The generators -/

/-- One home: both hot keys and all cold ones. -/
theorem microTxnSRSP_ensures (h : b.Fits) (txnId : Nat) (home : Home)
    (hhome : b.config.HasHome home) :
    (b.microTxnSRSP txnId home.part home.replica).Ensures (b.Generated [home.part] False) := by
  have hrows := h.hotRows
  unfold microTxnSRSP
  refine (randOrder_ensures home.replica (by rw [replicaSize]; omega)).bind ?_
  rintro _ ⟨order, horder, rfl⟩
  refine (randOrderUntil_ensures home.replica _ (by rw [replicaSize]; omega)).bind ?_
  rintro _ ⟨hne, order', horder', rfl⟩
  refine (coldKeys_ensures h hhome _).bind ?_
  rintro cold ⟨hcold, hlen⟩
  have hdiffer : order' ≠ order := by
    rintro rfl
    simp at hne
  have hhot := hotGroup_pair h hhome horder horder' hdiffer
  refine generated_of_groups h [b.hotGroup home [b.hotKey home order, b.hotKey home order'],
    b.coldGroup home cold] ?_ ?_ ?_ ?_ ?_ ?_ ?_
  · simp [TxnProto.client, ClientTxn.entries, KeyGroup.entries, hotGroup, coldGroup, hotKey]
  · simp only [List.forall_mem_cons]
    exact ⟨hhot, hcold, by simp⟩
  · simp only [List.pairwise_cons, List.forall_mem_cons]
    exact ⟨⟨hot_apart_cold h _ _ _ _, by simp⟩, by simp⟩
  · simp only [List.forall_mem_cons]
    exact ⟨h.hot_le_size, le_rfl, by simp⟩
  · simp [hotGroup, coldGroup, hlen, kRWSetSize]
  · simp [hotGroup, coldGroup]
  · simp

/-- Two homes: a hot key and half of the cold keys of each. -/
theorem twoPlaces_ensures (h : b.Fits) (home1 home2 : Home) (hhome1 : b.config.HasHome home1)
    (hhome2 : b.config.HasHome home2) (hne : home1 ≠ home2) {txn : TxnProto}
    (hread : txn.readSet = [])
    {parts : List Nat} (hpart1 : home1.part ∈ parts) (hpart2 : home2.part ∈ parts)
    {multiReplica : Prop} (hfake : txn.fakeTxn = true ↔
      multiReplica ∧ home1.replica ≠ 0 ∧ home2.replica ≠ 0) :
    (b.twoPlaces txn home1.part home1.replica home2.part home2.replica).Ensures
      (b.Generated parts multiReplica) := by
  have hrows := h.hotRows
  unfold twoPlaces
  refine (randOrder_ensures home1.replica (by rw [replicaSize]; omega)).bind ?_
  rintro _ ⟨order1, horder1, rfl⟩
  refine (randOrder_ensures home2.replica (by rw [replicaSize]; omega)).bind ?_
  rintro _ ⟨order2, horder2, rfl⟩
  refine (coldKeys_ensures h hhome1 _).bind ?_
  rintro cold1 ⟨hcold1, hlen1⟩
  refine (coldKeys_ensures h hhome2 _).bind ?_
  rintro cold2 ⟨hcold2, hlen2⟩
  have hhot1 := hotGroup_single h hhome1 horder1
  have hhot2 := hotGroup_single h hhome2 horder2
  refine generated_of_groups h [b.hotGroup home1 [b.hotKey home1 order1],
    b.hotGroup home2 [b.hotKey home2 order2], b.coldGroup home1 cold1,
    b.coldGroup home2 cold2] ?_ ?_ ?_ ?_ ?_ ?_ ?_
  · simp [TxnProto.client, ClientTxn.entries, KeyGroup.entries, hotGroup, coldGroup, hotKey, hread]
  · simp only [List.forall_mem_cons]
    exact ⟨hhot1, hhot2, hcold1, hcold2, by simp⟩
  · simp only [List.pairwise_cons, List.forall_mem_cons]
    exact ⟨⟨.inl hne, hot_apart_cold h _ _ _ _, hot_apart_cold h _ _ _ _, by simp⟩,
      ⟨hot_apart_cold h _ _ _ _, hot_apart_cold h _ _ _ _, by simp⟩, ⟨.inl hne, by simp⟩,
      by simp⟩
  · simp only [List.forall_mem_cons]
    exact ⟨h.hot_le_size, h.hot_le_size, le_rfl, le_rfl, by simp⟩
  · simp [hotGroup, coldGroup, hlen1, hlen2, kRWSetSize]
  · simp [hotGroup, coldGroup, hpart1, hpart2]
  · -- both hot entries are there, so both masters count
    simp only [hfake, List.flatMap_cons, List.flatMap_nil, List.append_nil,
      List.forall_mem_append, KeyGroup.entries, List.forall_mem_map, newEntry_master, hotGroup,
      coldGroup, List.forall_mem_singleton]
    refine and_congr_right fun _ => ⟨?_, fun hall => ⟨hall.1, hall.2.1⟩⟩
    intro hboth
    exact ⟨hboth.1, hboth.2, fun _ _ => hboth.1, fun _ _ => hboth.2⟩

theorem microTxnSRMP_ensures (h : b.Fits) (txnId : Nat) {part1 part2 replica : Nat}
    (hpart1 : part1 < b.config.nodesPerReplica) (hpart2 : part2 < b.config.nodesPerReplica)
    (hreplica : replica < b.config.replicasSize) (hne : part1 ≠ part2) :
    (b.microTxnSRMP txnId part1 part2 replica).Ensures (b.Generated [part1, part2] False) := by
  unfold microTxnSRMP
  rw [ensures_bind, ensures_check]
  refine ⟨.inl hne, ?_⟩
  exact twoPlaces_ensures h ⟨part1, replica⟩ ⟨part2, replica⟩
    ⟨hpart1, hreplica⟩ ⟨hpart2, hreplica⟩ (fun he => hne (congrArg Home.part he)) rfl
    (by simp) (by simp) (by simp)

theorem microTxnMRSP_ensures (h : b.Fits) (txnId : Nat) {part replica1 replica2 : Nat}
    (hpart : part < b.config.nodesPerReplica) (hreplica1 : replica1 < b.config.replicasSize)
    (hreplica2 : replica2 < b.config.replicasSize) (hne : replica1 ≠ replica2) :
    (b.microTxnMRSP txnId part replica1 replica2).Ensures (b.Generated [part] True) := by
  unfold microTxnMRSP
  rw [ensures_bind, ensures_check]
  refine ⟨hne, ?_⟩
  split
  · exact twoPlaces_ensures h ⟨part, replica2⟩ ⟨part, replica1⟩
      ⟨hpart, hreplica2⟩ ⟨hpart, hreplica1⟩ (fun he => hne (congrArg Home.replica he).symm) rfl
      (by simp) (by simp) (by simp [and_comm])
  · exact twoPlaces_ensures h ⟨part, replica1⟩ ⟨part, replica2⟩
      ⟨hpart, hreplica1⟩ ⟨hpart, hreplica2⟩ (fun he => hne (congrArg Home.replica he)) rfl
      (by simp) (by simp) (by simp)

theorem microTxnMRMP_ensures (h : b.Fits) (txnId : Nat) {part1 part2 replica1 replica2 : Nat}
    (hpart1 : part1 < b.config.nodesPerReplica) (hpart2 : part2 < b.config.nodesPerReplica)
    (hreplica1 : replica1 < b.config.replicasSize) (hreplica2 : replica2 < b.config.replicasSize)
    (hparts : part1 ≠ part2) :
    (b.microTxnMRMP txnId part1 part2 replica1 replica2).Ensures
      (b.Generated [part1, part2] True) := by
  unfold microTxnMRMP
  rw [ensures_bind, ensures_check]
  refine ⟨.inl hparts, ?_⟩
  split
  · exact twoPlaces_ensures h ⟨part2, replica2⟩ ⟨part1, replica1⟩
      ⟨hpart2, hreplica2⟩ ⟨hpart1, hreplica1⟩ (fun he => hparts (congrArg Home.part he).symm) rfl
      (by simp) (by simp) (by simp [and_comm])
  · exact twoPlaces_ensures h ⟨part1, replica1⟩ ⟨part2, replica2⟩
      ⟨hpart1, hreplica1⟩ ⟨hpart2, hreplica2⟩ (fun he => hparts (congrArg Home.part he)) rfl
      (by simp) (by simp) (by simp)

/-- The four generators, for all admissible arguments and every stream of
numbers on which they return. -/
theorem generated_keys (h : b.Fits) (txnId : Nat) {rs rest : List Nat} {txn : TxnProto} :
    (∀ part < b.config.nodesPerReplica, ∀ replica < b.config.replicasSize,
      (b.microTxnSRSP txnId part replica).run rs = .returned txn rest →
        b.Generated [part] False txn) ∧
    (∀ part1 < b.config.nodesPerReplica, ∀ part2 < b.config.nodesPerReplica, part1 ≠ part2 →
      ∀ replica < b.config.replicasSize,
        (b.microTxnSRMP txnId part1 part2 replica).run rs = .returned txn rest →
          b.Generated [part1, part2] False txn) ∧
    (∀ part < b.config.nodesPerReplica,
      ∀ replica1 < b.config.replicasSize, ∀ replica2 < b.config.replicasSize,
        replica1 ≠ replica2 →
          (b.microTxnMRSP txnId part replica1 replica2).run rs = .returned txn rest →
            b.Generated [part] True txn) ∧
    (∀ part1 < b.config.nodesPerReplica, ∀ part2 < b.config.nodesPerReplica, part1 ≠ part2 →
      ∀ replica1 < b.config.replicasSize, ∀ replica2 < b.config.replicasSize,
        replica1 ≠ replica2 →
          (b.microTxnMRMP txnId part1 part2 replica1 replica2).run rs = .returned txn rest →
            b.Generated [part1, part2] True txn) := by
  refine ⟨?_, ?_, ?_, ?_⟩
  · intro part hpart replica hreplica hrun
    exact (microTxnSRSP_ensures h txnId ⟨part, replica⟩
      ⟨hpart, hreplica⟩).of_returned hrun
  · intro part1 hpart1 part2 hpart2 hne replica hreplica hrun
    exact (microTxnSRMP_ensures h txnId hpart1 hpart2 hreplica hne).of_returned hrun
  · intro part hpart replica1 hreplica1 replica2 hreplica2 hne hrun
    exact (microTxnMRSP_ensures h txnId hpart hreplica1 hreplica2 hne).of_returned hrun
  · intro part1 hpart1 part2 hpart2 hparts replica1 hreplica1 replica2 hreplica2 _ hrun
    exact (microTxnMRMP_ensures h txnId hpart1 hpart2 hreplica1 hreplica2 hparts).of_returned hrun

/-- Three replicas of two nodes, and the multi-replica multi-partition form with
its replicas in the wrong order; one cold key is drawn twice. -/
theorem generated_keys_swapped :
    ∃ txn rest,
      (microTxnMRMP { config := { nodesPerReplica := 2, replicasSize := 3 }, hotRecords := 7 }
        4 0 1 2 1).run [8, 9, 3, 1, 3, 4, 1, 5, 9, 2, 6, 5] = .returned txn rest ∧
      Generated { config := { nodesPerReplica := 2, replicasSize := 3 }, hotRecords := 7 } [0, 1]
        True txn := by
  have hrun : ∃ txn rest,
      (microTxnMRMP { config := { nodesPerReplica := 2, replicasSize := 3 }, hotRecords := 7 }
        4 0 1 2 1).run [8, 9, 3, 1, 3, 4, 1, 5, 9, 2, 6, 5] = .returned txn rest := ⟨_, _, rfl⟩
  have hfits : Fits { config := { nodesPerReplica := 2, replicasSize := 3 }, hotRecords := 7 } :=
    ⟨by decide, by decide, by decide, by decide, by decide⟩
  obtain ⟨txn, rest, hrun⟩ := hrun
  exact ⟨txn, rest, hrun, (generated_keys hfits 4).2.2.2 0 (by decide) 1 (by decide) (by decide)
    2 (by decide) 1 (by decide) (by decide) hrun⟩

end Calvin.Microbenchmark
