import Calvin.Theorems.ClientLoops
import Calvin.Theorems.TpccKeys

/-!
# The clients of the original system

`MClient` and `TClient` with the generators they call. No draw of theirs fails, every
loop can end, and what they return is what the rest of the system asks for: distinct
keys of the database, and a record to write at each participant.

Here a home is a partition: the groups of keys are those of one replica.
-/

namespace Calvin

open Lib (Draw)
open Lib.Draw

/-- Distinct keys that are numbers below the size of the database; the participants
are these partitions, and each has a record to write. -/
structure Suits (cfg : ClusterConfig) (size : Nat) (parts : List Nat) (txn : TxnProto) : Prop where
  distinct : txn.client.keys.Nodup
  below : ∀ e ∈ txn.client.entries, ∃ number < size, e.key = numberKey number
  inParts : ∀ e ∈ txn.client.entries, cfg.lookupPartition e.key ∈ parts
  writes : ∀ m ∈ parts, ∃ w ∈ txn.readWriteSet, cfg.lookupPartition w.key = m

section Groups

variable {cfg : ClusterConfig} {size : Nat} {parts : List Nat} {txn : TxnProto}

/-- The entries of a group lie in its partition. -/
theorem lookupPartition_entry {g : KeyGroup} (hg : g.Drawn cfg.nodesPerReplica 1)
    (hhi : g.hi ≤ intLimit) {e : KeyEntry} (he : e ∈ g.entries) :
    cfg.lookupPartition e.key = g.home.part := by
  have hmem := List.mem_map_of_mem (f := { cfg with replicasSize := 1 }.entryHome) he
  have hhome : g.entries.map { cfg with replicasSize := 1 }.entryHome =
      List.replicate g.keys.length g.home := entries_home hg hhi
  rw [hhome] at hmem
  exact congrArg Home.part (List.eq_of_mem_replicate hmem)

/-- What groups of keys that are apart say about the transaction. -/
theorem suits_of_groups (reads writes : List KeyGroup)
    (hread : txn.readSet = reads.flatMap KeyGroup.entries)
    (hwrite : txn.readWriteSet = writes.flatMap KeyGroup.entries)
    (hdrawn : ∀ g ∈ reads ++ writes, g.Drawn cfg.nodesPerReplica 1)
    (hapart : (reads ++ writes).Pairwise KeyGroup.Apart)
    (hhi : ∀ g ∈ reads ++ writes, g.hi ≤ size) (hsize : size ≤ intLimit)
    (hparts : ∀ g ∈ reads ++ writes, g.home.part ∈ parts)
    (hwrites : ∀ m ∈ parts, ∃ g ∈ writes, g.home.part = m ∧ g.keys ≠ []) :
    Suits cfg size parts txn := by
  have hentries : txn.client.entries = (reads ++ writes).flatMap KeyGroup.entries := by
    rw [TxnProto.client, ClientTxn.entries, hread, hwrite, List.flatMap_append]
  have hvalid : ValidEntries { cfg with replicasSize := 1 } size txn.client.entries := by
    rw [hentries]
    exact validEntries_of_groups hdrawn hapart hhi hsize
  refine ⟨hvalid.distinct, hvalid.below, fun e he => ?_, fun m hm => ?_⟩
  · rw [hentries] at he
    obtain ⟨g, hg, heg⟩ := List.mem_flatMap.mp he
    rw [lookupPartition_entry (hdrawn g hg) ((hhi g hg).trans hsize) heg]
    exact hparts g hg
  · obtain ⟨g, hg, hpart, hkeys⟩ := hwrites m hm
    obtain ⟨k, hk⟩ := List.exists_mem_of_ne_nil _ hkeys
    have hmem := List.mem_append_right reads hg
    have hentry : newEntry g.home.replica k ∈ g.entries := List.mem_map_of_mem hk
    refine ⟨_, ?_, (lookupPartition_entry (hdrawn g hmem) ((hhi g hmem).trans hsize)
      hentry).trans hpart⟩
    rw [hwrite]
    exact List.mem_flatMap.mpr ⟨g, hg, hentry⟩

end Groups

/-! ## The clients -/

namespace Client

variable {c : Client}

theorem multiPartition_yields (c : Client) :
    Yields randMax c.multiPartition fun multi => multi = true → 1 < c.config.nodesPerReplica := by
  unfold multiPartition
  split
  case isTrue hnodes => exact Yields.draw.bind fun r _ => Yields.done fun _ => hnodes
  case isFalse => exact Yields.done fun h => absurd h Bool.false_ne_true

theorem otherNode_yields (hnodes : 1 < c.config.nodesPerReplica) :
    Yields randMax c.otherNode fun other =>
      other < c.config.nodesPerReplica ∧ other ≠ c.config.relativeNodeId := by
  have hother : ∃ i < c.config.nodesPerReplica, i ≠ c.config.relativeNodeId := by
    by_cases h0 : c.config.relativeNodeId = 0
    · exact ⟨1, hnodes, by omega⟩
    · exact ⟨0, by omega, by omega⟩
  obtain ⟨hstop, hpos⟩ := exists_other.mpr hother
  unfold otherNode drawOther
  rw [if_neg (by omega)]
  refine (Yields.drawUntil hstop).bind fun r hr => Yields.done ⟨Nat.mod_lt r hpos, ?_⟩
  exact of_decide_eq_true hr

/-- The call is for the client's own partition, and another one at most. -/
theorem getTxnGuarded_yields (c : Client) :
    Yields randMax c.getTxnGuarded fun call => call = .sp c.config.relativeNodeId ∨
      ∃ other < c.config.nodesPerReplica, other ≠ c.config.relativeNodeId ∧
        call = .mp c.config.relativeNodeId other := by
  unfold getTxnGuarded
  refine c.multiPartition_yields.bind fun multi hmulti => ?_
  split
  case isTrue h =>
      refine (otherNode_yields (hmulti h)).bind fun other hother => Yields.done ?_
      exact .inr ⟨other, hother.1, hother.2, rfl⟩
  case isFalse => exact Yields.done (.inl rfl)

end Client

/-! ## The microbenchmark -/

namespace Microbenchmark

/-- Two hot records of every partition, the cold ones of a transaction, and all numbers
in the range of `int`. -/
structure FitsParts (b : Microbenchmark) : Prop where
  hot : 2 ≤ b.hotRecords
  cold : b.hotRecords + (kRWSetSize - 2) ≤ kDBSize
  int : b.config.nodesPerReplica * kDBSize ≤ intLimit

/-- A transaction of the right size that suits the system. -/
def SuitsParts (b : Microbenchmark) (txnId : Nat) (parts : List Nat) (txn : TxnProto) : Prop :=
  txn.txnId = txnId ∧ txn.readWriteSet.length = kRWSetSize ∧
    Suits b.config (b.config.nodesPerReplica * kDBSize) parts txn

/-- The hot keys of a partition. -/
def hotPart (b : Microbenchmark) (part : Nat) (keys : List Nat) : KeyGroup where
  home := ⟨part, 0⟩
  lo := 0
  hi := b.config.nodesPerReplica * b.hotRecords
  keys := keys

/-- Its cold keys. -/
def coldPart (b : Microbenchmark) (part : Nat) (keys : List Nat) : KeyGroup where
  home := ⟨part, 0⟩
  lo := b.config.nodesPerReplica * b.hotRecords
  hi := b.config.nodesPerReplica * kDBSize
  keys := keys

variable {b : Microbenchmark}

namespace FitsParts

theorem nparts_eq (h : b.FitsParts) : b.nparts = b.config.nodesPerReplica := by
  have hint := h.int
  unfold kDBSize intLimit at hint
  exact Nat.mod_eq_of_lt (by simp only [UInt32.size]; omega)

theorem hot_le_size (h : b.FitsParts) :
    b.config.nodesPerReplica * b.hotRecords ≤ b.config.nodesPerReplica * kDBSize :=
  Nat.mul_le_mul_left _ ((Nat.le_add_right _ _).trans h.cold)

theorem hot_le_limit (h : b.FitsParts) : b.config.nodesPerReplica * b.hotRecords ≤ intLimit :=
  h.hot_le_size.trans h.int

end FitsParts

/-- The draw of cold keys. -/
theorem partColdKeys_yields (h : b.FitsParts) {part numKeys : Nat}
    (hpart : part < b.config.nodesPerReplica) (hpos : 0 < numKeys)
    (hle : numKeys ≤ kRWSetSize - 2) :
    Yields randMax (b.partColdKeys numKeys part) fun keys =>
      (b.coldPart part keys).Drawn b.config.nodesPerReplica 1 ∧ keys.length = numKeys := by
  have hlimit : intLimit < UInt32.size := by decide
  have hroom : b.config.nodesPerReplica * b.hotRecords + b.config.nodesPerReplica * numKeys ≤
      b.config.nodesPerReplica * kDBSize := by
    rw [← Nat.mul_add]
    exact Nat.mul_le_mul_left _ ((Nat.add_le_add_left hle _).trans h.cold)
  unfold partColdKeys
  rw [h.nparts_eq, Nat.mod_eq_of_lt (h.hot_le_limit.trans_lt hlimit)]
  refine (getRandomKeys_yields hpos (Nat.dvd_mul_right _ _) hpart hroom h.int ?_).mono ?_
  · unfold randMax
    have hten : kRWSetSize = 10 := rfl
    omega
  · rintro keys ⟨hnodup, hlen, hkeys⟩
    exact ⟨⟨hnodup, hkeys⟩, hlen⟩

theorem hotPart_single {part key : Nat}
    (hkey : HomeKey b.config.nodesPerReplica 1 ⟨part, 0⟩ 0
      (b.config.nodesPerReplica * b.hotRecords) key) :
    (b.hotPart part [key]).Drawn b.config.nodesPerReplica 1 :=
  ⟨List.nodup_singleton _, fun k hk => by rw [List.mem_singleton.mp hk]; exact hkey⟩

/-- One partition: both hot keys and all cold ones. -/
theorem microTxnSP_yields (h : b.FitsParts) (txnId : Nat) {part : Nat}
    (hpart : part < b.config.nodesPerReplica) :
    Yields randMax (b.microTxnSP txnId part) (b.SuitsParts txnId [part]) := by
  have hten : kRWSetSize = 10 := rfl
  have hhot := h.hot
  unfold microTxnSP
  rw [h.nparts_eq]
  refine (randKey_yields hpart h.hot_le_limit (by omega)).bind fun hotkey1 hkey1 => ?_
  refine (randKeyUntil_yields hpart h.hot_le_limit hhot (by decide)).bind
    fun hotkey2 ⟨hkey2, hne⟩ => ?_
  refine (partColdKeys_yields h hpart (by decide) (Nat.le_refl _)).bind fun cold ⟨hcold, hlen⟩ =>
    Yields.done ⟨rfl, ?_, ?_⟩
  · simp [hlen, kRWSetSize]
  have hdrawn : (b.hotPart part [hotkey1, hotkey2]).Drawn b.config.nodesPerReplica 1 := by
    refine ⟨?_, fun k hk => ?_⟩
    · simp [hotPart, hne.symm]
    · rcases List.mem_cons.mp hk with rfl | hk
      · exact hkey1
      · rw [List.mem_singleton.mp hk]
        exact hkey2
  refine suits_of_groups [] [b.hotPart part [hotkey1, hotkey2], b.coldPart part cold] rfl ?_ ?_ ?_
    ?_ h.int ?_ ?_
  · simp [KeyGroup.entries, hotPart, coldPart]
  · simp only [List.nil_append, List.forall_mem_cons]
    exact ⟨hdrawn, hcold, by simp⟩
  · simp only [List.nil_append, List.pairwise_cons, List.forall_mem_cons]
    exact ⟨⟨.inr (.inl (Nat.le_refl _)), by simp⟩, by simp⟩
  · simp only [List.nil_append, List.forall_mem_cons]
    exact ⟨h.hot_le_size, Nat.le_refl _, by simp⟩
  · simp [hotPart, coldPart]
  · intro m hm
    exact ⟨_, List.mem_cons_self, (List.mem_singleton.mp hm).symm, by simp [hotPart]⟩

/-- Two partitions: a hot key and half of the cold keys of each. -/
theorem microTxnMP_yields (h : b.FitsParts) (txnId : Nat) {part1 part2 : Nat}
    (hpart1 : part1 < b.config.nodesPerReplica) (hpart2 : part2 < b.config.nodesPerReplica)
    (hne : part1 ≠ part2) :
    Yields randMax (b.microTxnMP txnId part1 part2) (b.SuitsParts txnId [part1, part2]) := by
  have hhot := h.hot
  have hhomes : (⟨part1, 0⟩ : Home) ≠ ⟨part2, 0⟩ := fun he => hne (congrArg Home.part he)
  unfold microTxnMP
  refine Yields.check (.inl hne) ?_
  rw [h.nparts_eq]
  refine (randKey_yields hpart1 h.hot_le_limit (by omega)).bind fun hotkey1 hkey1 => ?_
  refine (randKey_yields hpart2 h.hot_le_limit (by omega)).bind fun hotkey2 hkey2 => ?_
  refine (partColdKeys_yields h hpart1 (by decide) (by decide)).bind fun cold1 ⟨hcold1, hlen1⟩ => ?_
  refine (partColdKeys_yields h hpart2 (by decide) (by decide)).bind fun cold2 ⟨hcold2, hlen2⟩ =>
    Yields.done ⟨rfl, ?_, ?_⟩
  · simp [hlen1, hlen2, kRWSetSize]
  refine suits_of_groups [] [b.hotPart part1 [hotkey1], b.hotPart part2 [hotkey2],
    b.coldPart part1 cold1, b.coldPart part2 cold2] rfl ?_ ?_ ?_ ?_ h.int ?_ ?_
  · simp [KeyGroup.entries, hotPart, coldPart]
  · simp only [List.nil_append, List.forall_mem_cons]
    exact ⟨hotPart_single hkey1, hotPart_single hkey2, hcold1, hcold2, by simp⟩
  · -- hot keys come before cold ones
    have hcold : ∀ part part' keys keys', (b.hotPart part keys).Apart (b.coldPart part' keys') :=
      fun _ _ _ _ => .inr (.inl (Nat.le_refl _))
    simp only [List.nil_append, List.pairwise_cons, List.forall_mem_cons]
    exact ⟨⟨.inl hhomes, hcold _ _ _ _, hcold _ _ _ _, by simp⟩,
      ⟨hcold _ _ _ _, hcold _ _ _ _, by simp⟩, ⟨.inl hhomes, by simp⟩, by simp⟩
  · simp only [List.nil_append, List.forall_mem_cons]
    exact ⟨h.hot_le_size, h.hot_le_size, Nat.le_refl _, Nat.le_refl _, by simp⟩
  · simp [hotPart, coldPart]
  · intro m hm
    rcases List.mem_cons.mp hm with rfl | hm
    · exact ⟨_, List.mem_cons_self, rfl, by simp [hotPart]⟩
    · exact ⟨_, List.mem_cons_of_mem _ List.mem_cons_self, (List.mem_singleton.mp hm).symm,
        by simp [hotPart]⟩

end Microbenchmark

/-! ## TPC-C -/

namespace Tpcc

/-- A warehouse of every partition, and all numbers in the range of `int`. -/
structure FitsParts (t : Tpcc) : Prop where
  nodes : 0 < t.config.nodesPerReplica
  one : 1 ≤ t.warehousesPerNode
  int : t.config.nodesPerReplica * t.warehousesPerNode * (1 + 10 + 10 * 3000 + 100000) ≤ intLimit

def SuitsParts (t : Tpcc) (txnId : Nat) (parts : List Nat) (txn : TxnProto) : Prop :=
  txn.txnId = txnId ∧ Suits t.config t.kDBSize parts txn

/-- With one replica the tables are the same. -/
def oneReplica (t : Tpcc) : Tpcc := { t with config := { t.config with replicasSize := 1 } }

/-- Keys of a partition from a table, which lies between these multiples of the
warehouses. -/
def partTable (t : Tpcc) (part first last : Nat) (keys : List Nat) : KeyGroup :=
  table ⟨part, 0⟩ (t.warehouses * first) (t.warehouses * last) keys

variable {t : Tpcc}

namespace FitsParts

theorem fits (h : t.FitsParts) : t.oneReplica.Fits := ⟨h.nodes, Nat.one_pos, h.one, h.int⟩

theorem nparts_eq (h : t.FitsParts) : t.nparts = t.config.nodesPerReplica := h.fits.nparts_eq

theorem end_le (h : t.FitsParts) {k : Nat} (hk : k ≤ 130011) : t.warehouses * k ≤ intLimit :=
  h.fits.end_le hk

theorem size_eq (h : t.FitsParts) : t.kDBSize = t.warehouses * 130011 := h.fits.itemEnd_eq

end FitsParts

/-- A draw from a table that is large enough. -/
theorem partTable_yields (h : t.FitsParts) {part numKeys k k' : Nat}
    (hpart : part < t.config.nodesPerReplica) (hpos : 0 < numKeys) (hnum : numKeys ≤ 10)
    (hk : k + numKeys ≤ k') (hk' : k' ≤ 130011) :
    Yields randMax (getRandomKeys t.nparts numKeys (t.warehouses * k) (t.warehouses * k') part)
      fun keys => (t.partTable part k k' keys).Drawn t.config.nodesPerReplica 1 ∧
        keys.length = numKeys := by
  have hwarehouses : t.config.nodesPerReplica ≤ t.warehouses := Nat.le_mul_of_pos_right _ h.one
  have hroom : t.warehouses * k + t.config.nodesPerReplica * numKeys ≤ t.warehouses * k' :=
    calc t.warehouses * k + t.config.nodesPerReplica * numKeys
        ≤ t.warehouses * k + t.warehouses * numKeys :=
          Nat.add_le_add_left (Nat.mul_le_mul_right _ hwarehouses) _
      _ = t.warehouses * (k + numKeys) := (Nat.mul_add _ _ _).symm
      _ ≤ t.warehouses * k' := Nat.mul_le_mul_left _ hk
  have halign : t.config.nodesPerReplica ∣ t.warehouses * k :=
    Nat.dvd_mul_right_of_dvd (Nat.dvd_mul_right _ _) _
  rw [h.nparts_eq]
  refine (getRandomKeys_yields hpos halign hpart hroom (h.end_le hk') ?_).mono ?_
  · unfold randMax
    omega
  · rintro keys ⟨hnodup, hlen, hkeys⟩
    exact ⟨⟨hnodup, hkeys⟩, hlen⟩

/-- A transaction with its district, its customer and its items. -/
structure PartTablesAdded (t : Tpcc) (txn : TxnProto) (part1 part2 : Nat) (txn' : TxnProto)
    (district customer items : List Nat) : Prop where
  id : txn'.txnId = txn.txnId
  read : txn'.readSet = txn.readSet ++ (t.partTable part1 11 30011 customer).entries
  write : txn'.readWriteSet = txn.readWriteSet ++
    ((t.partTable part1 1 11 district).entries ++ (t.partTable part2 30011 130011 items).entries)
  district : (t.partTable part1 1 11 district).Drawn t.config.nodesPerReplica 1 ∧
    district.length = 1
  customer : (t.partTable part1 11 30011 customer).Drawn t.config.nodesPerReplica 1
  items : (t.partTable part2 30011 130011 items).Drawn t.config.nodesPerReplica 1 ∧
    items.length = 10

/-- Every table begins at a multiple of the partitions, so no `CHECK` fails. -/
theorem addPartTables_yields (h : t.FitsParts) (txn : TxnProto) {part1 part2 : Nat}
    (hpart1 : part1 < t.config.nodesPerReplica) (hpart2 : part2 < t.config.nodesPerReplica) :
    Yields randMax (t.addPartTables txn part1 part2) fun txn' =>
      ∃ district customer items,
        t.PartTablesAdded txn part1 part2 txn' district customer items := by
  have hwarehouse : t.warehouseEnd = t.warehouses * 1 := by
    rw [Nat.mul_one]
    exact h.fits.warehouseEnd_eq
  have hdistrict : t.districtEnd = t.warehouses * 11 := h.fits.districtEnd_eq
  have hcustomer : t.customerEnd = t.warehouses * 30011 := h.fits.customerEnd_eq
  have hitem : t.itemEnd = t.warehouses * 130011 := h.fits.itemEnd_eq
  unfold addPartTables
  rw [hwarehouse, hdistrict, hcustomer, hitem]
  refine (partTable_yields h hpart1 (by decide) (by decide) (by decide) (by decide)).bind
    fun district hdrawn1 => ?_
  refine (partTable_yields h hpart1 (by decide) (by decide) (by decide) (by decide)).bind
    fun customer hdrawn2 => ?_
  refine (partTable_yields h hpart2 (by decide) (by decide) (by decide) (by decide)).bind
    fun items hdrawn3 => Yields.done ?_
  exact ⟨district, customer, items, rfl, rfl, rfl, hdrawn1, hdrawn2.1, hdrawn3⟩

/-- The tables lie one behind the other, behind the warehouses. -/
theorem suitsParts_of_tables (h : t.FitsParts) {part1 part2 : Nat} {txn txn' : TxnProto}
    {district customer items parts : List Nat}
    (hadded : t.PartTablesAdded txn part1 part2 txn' district customer items) (ws : List KeyGroup)
    (hread : txn.readSet = ws.flatMap KeyGroup.entries) (hwrite : txn.readWriteSet = [])
    (hdrawn : ∀ g ∈ ws, g.Drawn t.config.nodesPerReplica 1)
    (hhi : ∀ g ∈ ws, g.hi = t.warehouses) (hapart : ws.Pairwise KeyGroup.Apart)
    (hws : ∀ g ∈ ws, g.home.part ∈ parts) (hparts : ∀ m, m ∈ parts ↔ m = part1 ∨ m = part2) :
    t.SuitsParts txn.txnId parts txn' := by
  have hmono : ∀ {k k' : Nat}, k ≤ k' → t.warehouses * k ≤ t.warehouses * k' := fun hk =>
    Nat.mul_le_mul_left _ hk
  refine ⟨hadded.id, suits_of_groups (ws ++ [t.partTable part1 11 30011 customer])
    [t.partTable part1 1 11 district, t.partTable part2 30011 130011 items] ?_ ?_ ?_ ?_ ?_
    (h.size_eq.le.trans (h.end_le (Nat.le_refl _))) ?_ ?_⟩
  · rw [hadded.read, hread]
    simp
  · rw [hadded.write, hwrite]
    simp
  · simp only [List.forall_mem_append, List.forall_mem_cons]
    exact ⟨⟨hdrawn, hadded.customer, by simp⟩, hadded.district.1, hadded.items.1, by simp⟩
  · have hbehind : ∀ g ∈ ws, ∀ part k k' keys, 1 ≤ k → g.Apart (t.partTable part k k' keys) := by
      intro g hg part k k' keys hk
      refine .inr (.inl ?_)
      rw [hhi g hg]
      exact t.warehouses_le hk
    simp only [List.append_assoc, List.pairwise_append, List.pairwise_cons, List.forall_mem_cons,
      List.singleton_append]
    refine ⟨hapart, ⟨⟨.inr (.inr (.inl (hmono (by decide)))), .inr (.inl (hmono (by decide))),
      by simp⟩, ⟨.inr (.inl (hmono (by decide))), by simp⟩, by simp⟩, fun g hg => ?_⟩
    exact ⟨hbehind g hg _ _ _ _ (by decide), hbehind g hg _ _ _ _ (by decide),
      hbehind g hg _ _ _ _ (by decide), by simp⟩
  · rw [h.size_eq]
    simp only [List.forall_mem_append, List.forall_mem_cons]
    refine ⟨⟨fun g hg => ?_, hmono (by decide), by simp⟩, hmono (by decide), Nat.le_refl _, by simp⟩
    rw [hhi g hg]
    exact t.warehouses_le (by decide)
  · simp only [List.forall_mem_append, List.forall_mem_cons]
    exact ⟨⟨hws, (hparts _).mpr (.inl rfl), by simp⟩, (hparts _).mpr (.inl rfl),
      (hparts _).mpr (.inr rfl), by simp⟩
  · -- the district and the items are there to write
    intro m hm
    have hnonempty : ∀ (part k k' : Nat) {keys : List Nat}, 0 < keys.length →
        (t.partTable part k k' keys).keys ≠ [] := fun part k k' {keys} hlen =>
      List.ne_nil_of_length_pos hlen
    rcases (hparts m).mp hm with rfl | rfl
    · exact ⟨_, List.mem_cons_self, rfl, hnonempty _ _ _ (by rw [hadded.district.2]; decide)⟩
    · exact ⟨_, List.mem_cons_of_mem _ List.mem_cons_self, rfl,
        hnonempty _ _ _ (by rw [hadded.items.2]; decide)⟩

/-- A warehouse of a partition. -/
theorem warehousePart_yields (h : t.FitsParts) {part : Nat}
    (hpart : part < t.config.nodesPerReplica) :
    Yields randMax (randKey t.nparts part t.warehousesPerNode) fun key =>
      (table ⟨part, 0⟩ 0 t.warehouses [key]).Drawn t.config.nodesPerReplica 1 := by
  have hfit := h.end_le (k := 1) (by decide)
  rw [Nat.mul_one] at hfit
  rw [h.nparts_eq]
  refine (randKey_yields hpart hfit h.one).mono fun key hkey => ⟨List.nodup_singleton _, ?_⟩
  intro k hk
  rw [List.mem_singleton.mp hk]
  exact hkey

theorem tpccTxnSP_yields (h : t.FitsParts) (txnId : Nat) {part : Nat}
    (hpart : part < t.config.nodesPerReplica) :
    Yields randMax (t.tpccTxnSP txnId part) (t.SuitsParts txnId [part]) := by
  unfold tpccTxnSP
  refine (warehousePart_yields h hpart).bind fun hotkey1 hdrawn => ?_
  refine (addPartTables_yields h _ hpart hpart).mono ?_
  rintro txn' ⟨district, customer, items, hadded⟩
  exact suitsParts_of_tables h hadded [table ⟨part, 0⟩ 0 t.warehouses [hotkey1]] rfl rfl
    (by simpa using hdrawn) (by simp [table]) (List.pairwise_singleton _ _) (by simp [table])
    (by simp)

theorem tpccTxnMP_yields (h : t.FitsParts) (txnId : Nat) {part1 part2 : Nat}
    (hpart1 : part1 < t.config.nodesPerReplica) (hpart2 : part2 < t.config.nodesPerReplica)
    (hne : part1 ≠ part2) :
    Yields randMax (t.tpccTxnMP txnId part1 part2) (t.SuitsParts txnId [part1, part2]) := by
  have hhomes : (⟨part1, 0⟩ : Home) ≠ ⟨part2, 0⟩ := fun he => hne (congrArg Home.part he)
  unfold tpccTxnMP
  refine Yields.check (.inl hne) ?_
  refine (warehousePart_yields h hpart1).bind fun hotkey1 hdrawn1 => ?_
  refine (warehousePart_yields h hpart2).bind fun hotkey2 hdrawn2 => ?_
  refine (addPartTables_yields h _ hpart1 hpart2).mono ?_
  rintro txn' ⟨district, customer, items, hadded⟩
  exact suitsParts_of_tables h hadded [table ⟨part1, 0⟩ 0 t.warehouses [hotkey1],
    table ⟨part2, 0⟩ 0 t.warehouses [hotkey2]] rfl rfl (by simp [hdrawn1, hdrawn2])
    (by simp [table]) (by simpa using .inl hhomes) (by simp [table]) (by simp)

end Tpcc

/-! ## The result -/

/-- Whatever has been drawn, the program has not failed, some number ends the loop it is
in, and what it has returned is as asked. -/
def Serves (p : Draw TxnProto) (good : TxnProto → Prop) : Prop :=
  CanEnd randMax p ∧
    ∀ rs, p.run rs ≠ .failed ∧ ∀ txn rest, p.run rs = .returned txn rest → good txn

/-- The client's own partition, and another one at most. -/
def ClientParts (cfg : ClusterConfig) (parts : List Nat) : Prop :=
  parts = [cfg.relativeNodeId] ∨ ∃ other < cfg.nodesPerReplica,
    other ≠ cfg.relativeNodeId ∧ parts = [cfg.relativeNodeId, other]

/-- Each record of a transaction is loaded at the node of its partition. -/
def Loaded (cfg : ClusterConfig) (load : ClusterConfig → Value → Key → Option Record)
    (txn : TxnProto) : Prop :=
  ∀ e ∈ txn.client.entries, ∀ value,
    load { cfg with relativeNodeId := cfg.lookupPartition e.key } value e.key =
      some (Microbenchmark.initialRecord cfg value e.key)

theorem serves_of_yields {p : Draw TxnProto} {good : TxnProto → Prop}
    (h : Yields randMax p good) : Serves p good :=
  ⟨h.1, h.runs⟩

/-- A client calls its generator for two different partitions, or for its own. -/
theorem getTxn_yields {c : Client} (hnode : c.config.relativeNodeId < c.config.nodesPerReplica)
    {generate : TxnCall → Draw TxnProto} {suits : List Nat → TxnProto → Prop}
    (hsp : ∀ part < c.config.nodesPerReplica, Yields randMax (generate (.sp part)) (suits [part]))
    (hmp : ∀ part1 < c.config.nodesPerReplica, ∀ part2 < c.config.nodesPerReplica, part1 ≠ part2 →
      Yields randMax (generate (.mp part1 part2)) (suits [part1, part2])) :
    Yields randMax (c.getTxnGuarded >>= generate) fun txn =>
      ∃ parts, ClientParts c.config parts ∧ suits parts txn := by
  refine c.getTxnGuarded_yields.bind fun call hcall => ?_
  rcases hcall with rfl | ⟨other, hother, hne, rfl⟩
  · exact (hsp _ hnode).mono fun txn htxn => ⟨_, .inl rfl, htxn⟩
  · exact (hmp _ hnode _ hother hne.symm).mono fun txn htxn =>
      ⟨_, .inr ⟨other, hother, hne, rfl⟩, htxn⟩

/-- The loop over all numbers below the size of the database loads every record. -/
theorem loaded_of_suits {cfg : ClusterConfig} {size : Nat} {parts : List Nat} {txn : TxnProto}
    (h : Suits cfg size parts txn) :
    Loaded cfg (fun conf value => (List.range size).foldl
      (Microbenchmark.initializeRecord conf value) fun _ => none) txn := by
  intro e he value
  obtain ⟨number, hnumber, hkey⟩ := h.below e he
  rw [hkey]
  -- the configuration of its node has the same partitions and masters
  have hpart : ({ cfg with relativeNodeId := cfg.lookupPartition (numberKey number) } :
      ClusterConfig).lookupPartition (numberKey number) = cfg.lookupPartition (numberKey number) :=
    ClusterConfig.lookupPartition_relative _ _ _
  refine (Microbenchmark.foldl_initializeRecord hnumber hpart).trans ?_
  rw [Microbenchmark.initialRecord, Microbenchmark.initialRecord,
    ClusterConfig.lookupMaster_relative]

section Applications

variable {cfg : ClusterConfig} {percentMp hotRecords : Nat}

/-- The client of the microbenchmark. -/
theorem mClient_yields (hnode : cfg.relativeNodeId < cfg.nodesPerReplica)
    (h : Microbenchmark.FitsParts { config := cfg, hotRecords }) (txnId : Nat) :
    let b : Microbenchmark := { config := cfg, hotRecords }
    Yields randMax (MClient.getTxn { config := cfg, percentMp } >>= b.generate txnId) fun txn =>
      ∃ parts, ClientParts cfg parts ∧ b.SuitsParts txnId parts txn ∧
        Loaded cfg b.initializeStorage txn := by
  intro b
  refine (getTxn_yields hnode
    (fun part hpart => Microbenchmark.microTxnSP_yields h txnId hpart)
    fun part1 hpart1 part2 hpart2 hne =>
      Microbenchmark.microTxnMP_yields h txnId hpart1 hpart2 hne).mono ?_
  rintro txn ⟨parts, hparts, hsuits⟩
  refine ⟨parts, hparts, hsuits, ?_⟩
  have hloaded := loaded_of_suits hsuits.2.2
  rw [← h.nparts_eq] at hloaded
  exact hloaded

/-- The client of TPC-C. -/
theorem tClient_yields (hnode : cfg.relativeNodeId < cfg.nodesPerReplica)
    (h : Tpcc.FitsParts { config := cfg, warehousesPerNode := hotRecords }) (txnId : Nat) :
    let t : Tpcc := { config := cfg, warehousesPerNode := hotRecords }
    Yields randMax (TClient.getTxn { config := cfg, percentMp } >>= t.generate txnId) fun txn =>
      ∃ parts, ClientParts cfg parts ∧ t.SuitsParts txnId parts txn ∧
        Loaded cfg t.initializeStorage txn := by
  intro t
  refine (getTxn_yields hnode
    (fun part hpart => Tpcc.tpccTxnSP_yields h txnId hpart)
    fun part1 hpart1 part2 hpart2 hne =>
      Tpcc.tpccTxnMP_yields h txnId hpart1 hpart2 hne).mono ?_
  rintro txn ⟨parts, hparts, hsuits⟩
  exact ⟨parts, hparts, hsuits, loaded_of_suits hsuits.2⟩

end Applications

/-- The clients of the original system with their generators, for every percentage and
every stream of numbers. -/
theorem original_clients (cfg : ClusterConfig) (percentMp hotRecords txnId : Nat)
    (hnode : cfg.relativeNodeId < cfg.nodesPerReplica) :
    let b : Microbenchmark := { config := cfg, hotRecords }
    let t : Tpcc := { config := cfg, warehousesPerNode := hotRecords }
    let c : Client := { config := cfg, percentMp }
    (b.FitsParts → Serves (MClient.getTxn c >>= b.generate txnId) fun txn =>
      ∃ parts, ClientParts cfg parts ∧ b.SuitsParts txnId parts txn ∧
        Loaded cfg b.initializeStorage txn) ∧
    (t.FitsParts → Serves (TClient.getTxn c >>= t.generate txnId) fun txn =>
      ∃ parts, ClientParts cfg parts ∧ t.SuitsParts txnId parts txn ∧
        Loaded cfg t.initializeStorage txn) := by
  intro b t c
  exact ⟨fun h => serves_of_yields (mClient_yields hnode h txnId),
    fun h => serves_of_yields (tClient_yields hnode h txnId)⟩

/-- The second of two nodes. -/
def secondNode : ClusterConfig := { nodesPerReplica := 2, relativeNodeId := 1 }

/-- Its multi-partition transaction; one cold key is drawn twice. -/
theorem original_clients_secondNode :
    ∃ txn rest, (MClient.getTxn { config := secondNode, percentMp := 10 } >>=
        Microbenchmark.generate { config := secondNode, hotRecords := 3 } 7).run
          [5, 0, 3, 4, 1, 2, 3, 3, 4, 5, 6, 7, 8] = .returned txn rest ∧
      ∃ parts, ClientParts secondNode parts ∧
        Microbenchmark.SuitsParts { config := secondNode, hotRecords := 3 } 7 parts txn ∧
        Loaded secondNode
          (Microbenchmark.initializeStorage { config := secondNode, hotRecords := 3 }) txn := by
  have hrun : ∃ txn rest, (MClient.getTxn { config := secondNode, percentMp := 10 } >>=
      Microbenchmark.generate { config := secondNode, hotRecords := 3 } 7).run
        [5, 0, 3, 4, 1, 2, 3, 3, 4, 5, 6, 7, 8] = .returned txn rest := by
    unfold secondNode
    exact ⟨_, _, rfl⟩
  obtain ⟨txn, rest, hrun⟩ := hrun
  have hserves :=
    (original_clients secondNode 10 3 7 (by decide)).1 ⟨by decide, by decide, by decide⟩
  exact ⟨txn, rest, hrun, (hserves.2 _).2 txn rest hrun⟩

end Calvin
