import Calvin.Applications.TpccTxns

/-!
# The scales TPC-C can be generated for

The range of the districts begins at `warehouse_end`, which is a multiple of
`nparts * replica_size` only where the replicas divide the warehouses of a node.
At any other scale the `CHECK` of `GetRandomKeysReplica` ends the program with
the first transaction. Where they do divide, the entries are right, except that
the two warehouses of one home can be the same.
-/

namespace Calvin.Tpcc

open Lib (Draw)
open Lib.Draw

/-- The scales at which the generators are meant to run: a warehouse for every
replica at least, and all numbers in the range of `int`. -/
structure Fits (t : Tpcc) : Prop where
  nodes : 0 < t.config.nodesPerReplica
  replicas : 0 < t.config.replicasSize
  oneEach : t.config.replicasSize ≤ t.warehousesPerNode
  int : t.config.nodesPerReplica * t.warehousesPerNode * (1 + 10 + 10 * 3000 + 100000) ≤ intLimit

variable {t : Tpcc}

/-- The number of warehouses. -/
def warehouses (t : Tpcc) : Nat := t.config.nodesPerReplica * t.warehousesPerNode

/-- The keys of one stride: one for every home. -/
def homes (t : Tpcc) : Nat := t.config.nodesPerReplica * t.config.replicasSize

namespace Fits

theorem homes_pos (h : t.Fits) : 0 < t.homes := Nat.mul_pos h.nodes h.replicas

theorem homes_le (h : t.Fits) : t.homes ≤ t.warehouses := Nat.mul_le_mul_left _ h.oneEach

theorem size_le (h : t.Fits) : t.warehouses * 130011 ≤ intLimit := h.int

/-- Every table end is in the range of `int`. -/
theorem end_le (h : t.Fits) {k : Nat} (hk : k ≤ 130011) : t.warehouses * k ≤ intLimit :=
  (Nat.mul_le_mul_left _ hk).trans h.size_le

theorem end_lt (h : t.Fits) {k : Nat} (hk : k ≤ 130011) : t.warehouses * k < UInt32.size :=
  (h.end_le hk).trans_lt (by decide)

theorem homes_lt (h : t.Fits) : t.homes < UInt32.size := by
  have hone := h.end_lt (k := 1) (by decide)
  rw [Nat.mul_one] at hone
  exact h.homes_le.trans_lt hone

/-- A table start is less than a stride above the end of the table before, and
leaves one whole stride. -/
theorem room (h : t.Fits) {start k k' : Nat} (hk : k + 2 ≤ k')
    (hstart : start < t.warehouses * k + t.homes) : start + t.homes ≤ t.warehouses * k' := by
  have hle := h.homes_le
  have htable := Nat.mul_le_mul_left t.warehouses hk
  rw [Nat.mul_add] at htable
  omega

theorem nparts_eq (h : t.Fits) : t.nparts = t.config.nodesPerReplica := by
  have hle : t.config.nodesPerReplica ≤ t.homes := Nat.le_mul_of_pos_right _ h.replicas
  exact Nat.mod_eq_of_lt (hle.trans_lt h.homes_lt)

theorem warehouseEnd_eq (h : t.Fits) : t.warehouseEnd = t.warehouses := by
  have hone := h.end_lt (k := 1) (by decide)
  rw [Nat.mul_one] at hone
  rw [warehouseEnd, h.nparts_eq, Nat.mul_comm]
  exact Nat.mod_eq_of_lt hone

theorem districtEnd_eq (h : t.Fits) : t.districtEnd = t.warehouses * 11 := by
  have hsize : t.config.nodesPerReplica * (t.warehousesPerNode * districtsPerWarehouse) =
      t.warehouses * 10 := (Nat.mul_assoc _ _ _).symm
  rw [districtEnd, h.warehouseEnd_eq, h.nparts_eq, hsize, Nat.mod_eq_of_lt (h.end_lt (by decide))]
  omega

theorem customerEnd_eq (h : t.Fits) : t.customerEnd = t.warehouses * 30011 := by
  have hsize : t.config.nodesPerReplica *
      (t.warehousesPerNode * districtsPerWarehouse * customersPerDistrict) =
        t.warehouses * 30000 := by
    rw [Nat.mul_assoc t.warehousesPerNode]
    exact (Nat.mul_assoc _ _ _).symm
  rw [customerEnd, h.districtEnd_eq, h.nparts_eq, hsize, Nat.mod_eq_of_lt (h.end_lt (by decide)),
    ← Nat.mul_add]

theorem itemEnd_eq (h : t.Fits) : t.itemEnd = t.warehouses * 130011 := by
  have hsize : t.config.nodesPerReplica * (t.warehousesPerNode * numberOfItems) =
      t.warehouses * 100000 := (Nat.mul_assoc _ _ _).symm
  rw [itemEnd, h.customerEnd_eq, h.nparts_eq, hsize, Nat.mod_eq_of_lt (h.end_lt (by decide)),
    ← Nat.mul_add]

/-- The districts begin at a whole stride exactly when the replicas divide the
warehouses of a node. -/
theorem district_aligned (h : t.Fits) :
    t.homes ∣ t.warehouses ↔ t.config.replicasSize ∣ t.warehousesPerNode :=
  Nat.mul_dvd_mul_iff_left h.nodes

/-- A warehouse of every replica at least. -/
theorem rows_pos (h : t.Fits) : 0 < t.warehousesPerNode / t.replicaSize :=
  Nat.div_pos h.oneEach h.replicas

end Fits

/-! ## The tables behind the warehouses -/

/-- Keys drawn from a table. -/
def table (home : Home) (lo hi : Nat) (keys : List Nat) : KeyGroup where
  home := home
  lo := lo
  hi := hi
  keys := keys

def districtTable (t : Tpcc) (home : Home) (keys : List Nat) : KeyGroup :=
  table home t.warehouses (t.warehouses * 11) keys

def customerTable (t : Tpcc) (home : Home) (keys : List Nat) : KeyGroup :=
  table home (alignStart t.config.nodesPerReplica t.config.replicasSize (t.warehouses * 11))
    (t.warehouses * 30011) keys

def itemTable (t : Tpcc) (home : Home) (keys : List Nat) : KeyGroup :=
  table home (alignStart t.config.nodesPerReplica t.config.replicasSize (t.warehouses * 30011))
    (t.warehouses * 130011) keys

abbrev Drawn (t : Tpcc) (g : KeyGroup) : Prop :=
  g.Drawn t.config.nodesPerReplica t.config.replicasSize

/-- A draw from an aligned start that leaves one whole stride. -/
theorem randomKeys_ensures (h : t.Fits) {home : Home} (hhome : t.config.HasHome home)
    (numKeys : Nat) {lo hi : Nat} (halign : t.homes ∣ lo) (hroom : lo + t.homes ≤ hi)
    (hhi : hi ≤ intLimit) :
    (t.randomKeys numKeys lo hi home.part home.replica).Ensures fun keys =>
      t.Drawn (table home lo hi keys) ∧ keys.length = numKeys := by
  unfold randomKeys
  rw [h.nparts_eq]
  refine (getRandomKeysReplica_ensures numKeys halign hhome.part hhome.replica hroom hhi).mono ?_
  rintro keys ⟨hnodup, hlen, hkeys⟩
  exact ⟨⟨hnodup, hkeys⟩, hlen⟩

/-- A transaction with its district, its customer and its items. -/
structure TablesAdded (t : Tpcc) (txn : TxnProto) (home1 home2 : Home) (txn' : TxnProto)
    (district customer items : List Nat) : Prop where
  read : txn'.readSet = txn.readSet ++ (t.customerTable home1 customer).entries
  write : txn'.readWriteSet = txn.readWriteSet ++
    ((t.districtTable home1 district).entries ++ (t.itemTable home2 items).entries)
  district : t.Drawn (t.districtTable home1 district) ∧ district.length = 1
  customer : t.Drawn (t.customerTable home1 customer) ∧ customer.length = 1
  items : t.Drawn (t.itemTable home2 items) ∧ items.length = 10

/-- Where the replicas divide the warehouses, nothing fails behind them. -/
theorem addTables_ensures (h : t.Fits) (hdvd : t.config.replicasSize ∣ t.warehousesPerNode)
    {home1 home2 : Home} (hhome1 : t.config.HasHome home1) (hhome2 : t.config.HasHome home2)
    (txn : TxnProto) :
    (t.addTables txn home1.part home1.replica home2.part home2.replica).Ensures fun txn' =>
      ∃ district customer items, t.TablesAdded txn home1 home2 txn' district customer items := by
  have hcustomer := alignStart_spec h.homes_lt h.homes_pos (t.warehouses * 11)
  have hitem := alignStart_spec h.homes_lt h.homes_pos (t.warehouses * 30011)
  have hhomes : t.config.nodesPerReplica * t.config.replicasSize = t.homes := rfl
  rw [hhomes] at hcustomer hitem
  unfold addTables
  rw [h.warehouseEnd_eq, h.districtEnd_eq, h.customerEnd_eq, h.itemEnd_eq, h.nparts_eq,
    replicaSize]
  have hdistricts : t.warehouses + t.homes ≤ t.warehouses * 11 :=
    h.room (k := 1) (by decide) (by have := h.homes_pos; omega)
  refine (randomKeys_ensures h hhome1 1 (h.district_aligned.mpr hdvd) hdistricts
    (h.end_le (by decide))).bind ?_
  intro district hdistrict
  refine (randomKeys_ensures h hhome1 1 hcustomer.1 (h.room (by decide) hcustomer.2.2)
    (h.end_le (by decide))).bind ?_
  intro customer hcust
  refine (randomKeys_ensures h hhome2 10 hitem.1 (h.room (by decide) hitem.2.2)
    (h.end_le (by decide))).bind ?_
  intro items hitems
  exact ⟨district, customer, items, rfl, rfl, hdistrict, hcust, hitems⟩

/-- Where they do not, the first `CHECK` behind the warehouses fails. -/
theorem addTables_unaligned (h : t.Fits) (hdvd : ¬ t.config.replicasSize ∣ t.warehousesPerNode)
    (txn : TxnProto) (part1 replica1 part2 replica2 : Nat) :
    t.addTables txn part1 replica1 part2 replica2 = fail := by
  have hunaligned : ¬ t.homes ∣ t.warehouses := fun hd => hdvd (h.district_aligned.mp hd)
  unfold addTables randomKeys
  rw [h.warehouseEnd_eq, h.nparts_eq, replicaSize,
    getRandomKeysReplica_unaligned 1 t.districtEnd part1 replica1 h.homes_lt hunaligned]
  rfl

/-! ## The warehouses -/

def warehouseTable (t : Tpcc) (home : Home) (keys : List Nat) : KeyGroup :=
  table home 0 t.warehouses keys

/-- The warehouse a drawn order stands for. -/
def warehouseKey (t : Tpcc) (home : Home) (order : Nat) : Nat :=
  rowKey t.nparts home.part (rowOrder t.replicaSize home.replica order)

theorem warehouseTable_drawn (h : t.Fits) {home : Home} (hhome : t.config.HasHome home)
    {order : Nat}
    (horder : order < t.warehousesPerNode / t.replicaSize) :
    t.Drawn (t.warehouseTable home [t.warehouseKey home order]) := by
  have hfit := h.end_le (k := 1) (by decide)
  rw [Nat.mul_one] at hfit
  refine ⟨List.nodup_singleton _, ?_⟩
  intro k hk
  rw [List.mem_singleton.mp hk, warehouseKey, h.nparts_eq]
  exact (rowKey_home hhome.part hhome.replica hfit horder).2

/-- Two warehouses are apart when their homes or their orders differ. -/
theorem warehouseTable_apart (h : t.Fits) {home1 home2 : Home} (hhome1 : t.config.HasHome home1)
    {order1 order2 : Nat} (horder1 : order1 < t.warehousesPerNode / t.replicaSize)
    (horder2 : order2 < t.warehousesPerNode / t.replicaSize)
    (hne : home1 ≠ home2 ∨ order1 ≠ order2) :
    (t.warehouseTable home1 [t.warehouseKey home1 order1]).Apart
      (t.warehouseTable home2 [t.warehouseKey home2 order2]) := by
  have hfit := h.end_le (k := 1) (by decide)
  rw [Nat.mul_one] at hfit
  by_cases hhomes : home1 = home2
  · refine .inr (.inr (.inr ?_))
    intro k hk1 hk2
    have horders : order1 ≠ order2 := hne.resolve_left (fun hn => hn hhomes)
    rw [warehouseTable, table, List.mem_singleton, warehouseKey, h.nparts_eq] at hk1 hk2
    rw [hk1, ← hhomes] at hk2
    exact rowKey_ne hhome1.part hhome1.replica hfit horder1 horder2 horders hk2
  · exact .inl hhomes

/-! ## Valid transactions -/

/-- What is asked of a generated transaction: `reads` and `writes` are the homes
its keys were generated for, in the order of the two sets. -/
structure Generated (t : Tpcc) (reads writes : List Home) (txn : TxnProto) : Prop where
  valid : ValidEntries t.config t.kDBSize txn.client.entries
  reads : txn.readSet.map t.config.entryHome = reads
  writes : txn.readWriteSet.map t.config.entryHome = writes

/-- The generator fails nowhere and returns what is asked. -/
def Returns (t : Tpcc) (p : Draw TxnProto) (rs : List Nat) (reads writes : List Home) : Prop :=
  ∃ txn rest, p.run rs = .returned txn rest ∧ t.Generated reads writes txn

/-- The keys behind the warehouses, in the order of the two sets. -/
def otherTables (t : Tpcc) (home1 home2 : Home) (district customer items : List Nat) :
    List KeyGroup :=
  [t.customerTable home1 customer, t.districtTable home1 district, t.itemTable home2 items]

/-- Each table begins at the end of the one before, or a little above. -/
theorem table_starts (h : t.Fits) (k : Nat) :
    t.warehouses * k ≤
      alignStart t.config.nodesPerReplica t.config.replicasSize (t.warehouses * k) :=
  (alignStart_spec h.homes_lt h.homes_pos _).2.1

theorem ends_mono (t : Tpcc) {k k' : Nat} (hk : k ≤ k') :
    t.warehouses * k ≤ t.warehouses * k' := Nat.mul_le_mul_left _ hk

theorem warehouses_le (t : Tpcc) {k : Nat} (hk : 0 < k) : t.warehouses ≤ t.warehouses * k :=
  Nat.le_mul_of_pos_right _ hk

theorem otherTables_apart (h : t.Fits) (home1 home2 : Home) (district customer items : List Nat) :
    (t.otherTables home1 home2 district customer items).Pairwise KeyGroup.Apart := by
  simp only [otherTables, List.pairwise_cons, List.forall_mem_cons]
  refine ⟨⟨.inr (.inr (.inl (table_starts h 11))), .inr (.inl (table_starts h 30011)), by simp⟩,
    ⟨.inr (.inl ?_), by simp⟩, by simp⟩
  exact (t.ends_mono (by decide)).trans (table_starts h 30011)

/-- Warehouses come before everything else. -/
theorem warehouses_apart (h : t.Fits) {g g' : KeyGroup} (hg : g.hi = t.warehouses)
    {home1 home2 : Home} {district customer items : List Nat}
    (hg' : g' ∈ t.otherTables home1 home2 district customer items) : g.Apart g' := by
  refine .inr (.inl ?_)
  rw [hg]
  simp only [otherTables, List.mem_cons, List.not_mem_nil, or_false] at hg'
  rcases hg' with rfl | rfl | rfl
  · exact (t.warehouses_le (by decide)).trans (table_starts h 11)
  · exact le_rfl
  · exact (t.warehouses_le (by decide)).trans (table_starts h 30011)

theorem otherTables_high (h : t.Fits) {home1 home2 : Home} {district customer items : List Nat} :
    ∀ g ∈ t.otherTables home1 home2 district customer items, g.hi ≤ t.kDBSize := by
  rw [kDBSize, h.itemEnd_eq]
  simp only [otherTables, List.forall_mem_cons]
  exact ⟨t.ends_mono (by decide), t.ends_mono (by decide), le_rfl, by simp⟩

/-- The tables lie one behind the other, so only the warehouses can share a
key. -/
theorem generated_of_tables (h : t.Fits) {home1 home2 : Home} {txn txn' : TxnProto}
    {district customer items : List Nat}
    (hadded : t.TablesAdded txn home1 home2 txn' district customer items) (ws : List KeyGroup)
    (hread : txn.readSet = ws.flatMap KeyGroup.entries) (hwrite : txn.readWriteSet = [])
    (hdrawn : ∀ g ∈ ws, t.Drawn g) (hhi : ∀ g ∈ ws, g.hi = t.warehouses)
    (hapart : ws.Pairwise KeyGroup.Apart) :
    t.Generated ((ws.flatMap fun g => List.replicate g.keys.length g.home) ++ [home1])
      (home1 :: List.replicate 10 home2) txn' := by
  have hlimit : t.kDBSize ≤ intLimit := h.itemEnd_eq.le.trans h.size_le
  have hentries : txn'.client.entries = (ws ++ t.otherTables home1 home2 district customer
      items).flatMap KeyGroup.entries := by
    rw [TxnProto.client, ClientTxn.entries, hadded.read, hadded.write, hread, hwrite]
    simp [otherTables]
  have hdrawn' : ∀ g ∈ ws ++ t.otherTables home1 home2 district customer items, t.Drawn g := by
    simp only [otherTables, List.forall_mem_append, List.forall_mem_cons]
    exact ⟨hdrawn, hadded.customer.1, hadded.district.1, hadded.items.1, by simp⟩
  have hwarehouses : ∀ g ∈ ws, g.hi ≤ t.kDBSize := by
    intro g hg
    rw [hhi g hg, kDBSize, h.itemEnd_eq]
    exact t.warehouses_le (by decide)
  have hhi' : ∀ g ∈ ws ++ t.otherTables home1 home2 district customer items,
      g.hi ≤ t.kDBSize := by
    rw [List.forall_mem_append]
    exact ⟨hwarehouses, otherTables_high h⟩
  have hapart' : (ws ++ t.otherTables home1 home2 district customer items).Pairwise
      KeyGroup.Apart := by
    rw [List.pairwise_append]
    exact ⟨hapart, otherTables_apart h .., fun g hg g' hg' => warehouses_apart h (hhi g hg) hg'⟩
  refine ⟨?_, ?_, ?_⟩
  · rw [hentries]
    exact validEntries_of_groups hdrawn' hapart' hhi' hlimit
  · rw [hadded.read, hread, List.map_append,
      flatMap_entries_home hdrawn fun g hg => (hwarehouses g hg).trans hlimit,
      entries_home hadded.customer.1 (h.end_le (by decide))]
    show _ ++ List.replicate customer.length home1 = _
    rw [hadded.customer.2]
    rfl
  · rw [hadded.write, hwrite, List.nil_append, List.map_append,
      entries_home hadded.district.1 (h.end_le (by decide)),
      entries_home hadded.items.1 (h.end_le (by decide))]
    show List.replicate district.length home1 ++ List.replicate items.length home2 = _
    rw [hadded.district.2, hadded.items.2]
    rfl

/-! ## The generators -/

/-- Behind the warehouses the first `CHECK` decides, and then the warehouses. -/
theorem addTables_returns_iff (h : t.Fits) {home1 home2 : Home} (hhome1 : t.config.HasHome home1)
    (hhome2 : t.config.HasHome home2) {txn : TxnProto} {rs : List Nat} {reads writes : List Home}
    {good : Prop}
    (hgood : ∀ txn' district customer items,
      t.TablesAdded txn home1 home2 txn' district customer items →
        (t.Generated reads writes txn' ↔ good))
    (hends : (t.addTables txn home1.part home1.replica home2.part home2.replica).run rs ≠
      .waiting) :
    t.Returns (t.addTables txn home1.part home1.replica home2.part home2.replica) rs reads writes ↔
      t.config.replicasSize ∣ t.warehousesPerNode ∧ good := by
  by_cases hdvd : t.config.replicasSize ∣ t.warehousesPerNode
  · obtain hw | ⟨txn', rest, hrun, district, customer, items, hadded⟩ :=
      (addTables_ensures h hdvd hhome1 hhome2 txn).run rs
    · exact absurd hw hends
    · have hiff := hgood txn' district customer items hadded
      constructor
      · rintro ⟨txn'', rest', hrun', hgen⟩
        rw [hrun, Outcome.returned.injEq] at hrun'
        rw [← hrun'.1] at hgen
        exact ⟨hdvd, hiff.mp hgen⟩
      · intro hg
        exact ⟨txn', rest, hrun, hiff.mpr hg.2⟩
  · refine iff_of_false ?_ fun hc => hdvd hc.1
    rintro ⟨txn', rest, hrun, -⟩
    rw [addTables_unaligned h hdvd, Draw.run] at hrun
    cases hrun

/-- One home. -/
theorem tpccTxnSRSP_iff (h : t.Fits) (txnId : Nat) {home : Home} (hhome : t.config.HasHome home)
    {rs : List Nat} (hends : (t.tpccTxnSRSP txnId home.part home.replica).run rs ≠ .waiting) :
    t.Returns (t.tpccTxnSRSP txnId home.part home.replica) rs [home, home]
        (home :: List.replicate 10 home) ↔ t.config.replicasSize ∣ t.warehousesPerNode := by
  cases rs with
  | nil => exact absurd (run_randOrder_nil h.rows_pos) hends
  | cons r rs =>
      have hrun : (t.tpccTxnSRSP txnId home.part home.replica).run (r :: rs) = _ :=
        run_randOrder_cons h.rows_pos r rs
      unfold Returns
      rw [hrun] at hends ⊢
      refine (addTables_returns_iff h hhome hhome ?_ hends).trans (and_iff_left trivial)
      intro txn' district customer items hadded
      refine iff_of_true ?_ trivial
      have horder := Nat.mod_lt r h.rows_pos
      exact generated_of_tables h hadded
        [t.warehouseTable home [t.warehouseKey home (r % (t.warehousesPerNode / t.replicaSize))]]
        rfl rfl (by simpa using warehouseTable_drawn h hhome horder)
        (by simp [warehouseTable, table]) (List.pairwise_singleton _ _)

/-- The first two numbers stand for different rows of a replica. -/
def OrdersDiffer (t : Tpcc) (rs : List Nat) : Prop :=
  ∃ r1 r2 rest, rs = r1 :: r2 :: rest ∧
    r1 % (t.warehousesPerNode / t.config.replicasSize) ≠
      r2 % (t.warehousesPerNode / t.config.replicasSize)

/-- The same row of one home is one key in two entries. -/
theorem same_warehouse {home1 home2 : Home} {order1 order2 : Nat} {txn txn' : TxnProto}
    {district customer items : List Nat} {reads writes : List Home} (hhomes : home1 = home2)
    (horders : order1 = order2)
    (hadded : t.TablesAdded
      { txn with
        readSet :=
          [newEntry home1.replica (rowKey t.nparts home1.part
              (rowOrder t.replicaSize home1.replica order1)),
            newEntry home2.replica (rowKey t.nparts home2.part
              (rowOrder t.replicaSize home2.replica order2))] }
      home1 home2 txn' district customer items) : ¬ t.Generated reads writes txn' := by
  intro hgen
  have hdistinct := hgen.valid.distinct
  rw [TxnProto.client, ClientTxn.entries, hadded.read, hhomes, horders] at hdistinct
  simp at hdistinct

/-- Two homes, that may be the same. -/
theorem twoPlaces_iff (h : t.Fits) {home1 home2 : Home} (hhome1 : t.config.HasHome home1)
    (hhome2 : t.config.HasHome home2) {txn : TxnProto} (hwrite : txn.readWriteSet = [])
    {rs : List Nat}
    (hends : (t.twoPlaces txn home1.part home1.replica home2.part home2.replica).run rs ≠
      .waiting) :
    t.Returns (t.twoPlaces txn home1.part home1.replica home2.part home2.replica) rs
        [home1, home2, home1] (home1 :: List.replicate 10 home2) ↔
      t.config.replicasSize ∣ t.warehousesPerNode ∧ (home1 ≠ home2 ∨ t.OrdersDiffer rs) := by
  match rs with
  | [] => exact absurd (run_randOrder_nil h.rows_pos) hends
  | [r1] =>
      refine absurd ?_ hends
      unfold twoPlaces
      rw [run_randOrder_cons h.rows_pos, run_randOrder_nil h.rows_pos]
  | r1 :: r2 :: rs =>
      have hdiffer : t.OrdersDiffer (r1 :: r2 :: rs) ↔
          r1 % (t.warehousesPerNode / t.replicaSize) ≠
            r2 % (t.warehousesPerNode / t.replicaSize) := by
        constructor
        · rintro ⟨_, _, _, hrs, hne⟩
          cases hrs
          exact hne
        · intro hne
          exact ⟨r1, r2, rs, rfl, hne⟩
      rw [hdiffer]
      unfold Returns
      unfold twoPlaces at hends ⊢
      rw [run_randOrder_cons h.rows_pos, run_randOrder_cons h.rows_pos] at hends ⊢
      refine addTables_returns_iff h hhome1 hhome2 ?_ hends
      intro txn' district customer items hadded
      have horder1 := Nat.mod_lt r1 h.rows_pos
      have horder2 := Nat.mod_lt r2 h.rows_pos
      constructor
      · intro hgen
        by_contra hsame
        rw [not_or, not_not, not_not] at hsame
        exact same_warehouse hsame.1 hsame.2 hadded hgen
      · intro hne
        exact generated_of_tables h hadded
          [t.warehouseTable home1 [t.warehouseKey home1 _],
            t.warehouseTable home2 [t.warehouseKey home2 _]]
          rfl hwrite
          (by
            simp only [List.forall_mem_cons]
            exact ⟨warehouseTable_drawn h hhome1 horder1, warehouseTable_drawn h hhome2 horder2,
              by simp⟩)
          (by simp [warehouseTable, table])
          (List.pairwise_pair.mpr (warehouseTable_apart h hhome1 horder1 horder2 hne))

/-- The two generators that put replicas in order use the lower one first. -/
def lower (home1 home2 : Home) : Home := if home2.replica < home1.replica then home2 else home1

def upper (home1 home2 : Home) : Home := if home2.replica < home1.replica then home1 else home2

theorem tpccTxnSRMP_iff (h : t.Fits) (txnId : Nat) {part1 part2 replica : Nat}
    (hhome1 : t.config.HasHome ⟨part1, replica⟩) (hhome2 : t.config.HasHome ⟨part2, replica⟩)
    (hparts : part1 ≠ part2 ∨ t.config.nodesPerReplica = 1) {rs : List Nat}
    (hends : (t.tpccTxnSRMP txnId part1 part2 replica).run rs ≠ .waiting) :
    t.Returns (t.tpccTxnSRMP txnId part1 part2 replica) rs
        [⟨part1, replica⟩, ⟨part2, replica⟩, ⟨part1, replica⟩]
        (⟨part1, replica⟩ :: List.replicate 10 ⟨part2, replica⟩) ↔
      t.config.replicasSize ∣ t.warehousesPerNode ∧ (part1 ≠ part2 ∨ t.OrdersDiffer rs) := by
  have hbody : t.tpccTxnSRMP txnId part1 part2 replica =
      t.twoPlaces { txnId, txnType := tpcctxnMp } part1 replica part2 replica := by
    rw [tpccTxnSRMP, check, h.nparts_eq, if_pos hparts]
    rfl
  have hhomes : (⟨part1, replica⟩ : Home) ≠ ⟨part2, replica⟩ ↔ part1 ≠ part2 := by simp
  rw [hbody] at hends ⊢
  rw [← hhomes]
  exact twoPlaces_iff h hhome1 hhome2 rfl hends

/-- The two bodies behind the checks of the multi-replica generators. -/
theorem ordered_iff (h : t.Fits) {home1 home2 : Home} (hhome1 : t.config.HasHome home1)
    (hhome2 : t.config.HasHome home2) {txn : TxnProto} (hwrite : txn.readWriteSet = [])
    {rs : List Nat} {p : Draw TxnProto}
    (hbody : p = if home2.replica < home1.replica then
        t.twoPlaces txn home2.part home2.replica home1.part home1.replica
      else t.twoPlaces txn home1.part home1.replica home2.part home2.replica)
    (hends : p.run rs ≠ .waiting) :
    t.Returns p rs [lower home1 home2, upper home1 home2, lower home1 home2]
        (lower home1 home2 :: List.replicate 10 (upper home1 home2)) ↔
      t.config.replicasSize ∣ t.warehousesPerNode ∧ (home1 ≠ home2 ∨ t.OrdersDiffer rs) := by
  unfold lower upper
  split at hbody
  · next hlt =>
      rw [hbody] at hends ⊢
      rw [if_pos hlt, if_pos hlt, ne_comm]
      exact twoPlaces_iff h hhome2 hhome1 hwrite hends
  · next hge =>
      rw [hbody] at hends ⊢
      rw [if_neg hge, if_neg hge]
      exact twoPlaces_iff h hhome1 hhome2 hwrite hends

theorem tpccTxnMRSP_iff (h : t.Fits) (txnId : Nat) {part replica1 replica2 : Nat}
    (hhome1 : t.config.HasHome ⟨part, replica1⟩) (hhome2 : t.config.HasHome ⟨part, replica2⟩)
    (hreplicas : replica1 ≠ replica2) {rs : List Nat}
    (hends : (t.tpccTxnMRSP txnId part replica1 replica2).run rs ≠ .waiting) :
    t.Returns (t.tpccTxnMRSP txnId part replica1 replica2) rs
        [lower ⟨part, replica1⟩ ⟨part, replica2⟩, upper ⟨part, replica1⟩ ⟨part, replica2⟩,
          lower ⟨part, replica1⟩ ⟨part, replica2⟩]
        (lower ⟨part, replica1⟩ ⟨part, replica2⟩ ::
          List.replicate 10 (upper ⟨part, replica1⟩ ⟨part, replica2⟩)) ↔
      t.config.replicasSize ∣ t.warehousesPerNode := by
  have hbody : t.tpccTxnMRSP txnId part replica1 replica2 =
      if replica2 < replica1 then
        t.twoPlaces { txnId, txnType := tpcctxnSp, fakeTxn := decide (replica1 ≠ 0 ∧ replica2 ≠ 0) }
          part replica2 part replica1
      else
        t.twoPlaces { txnId, txnType := tpcctxnSp, fakeTxn := decide (replica1 ≠ 0 ∧ replica2 ≠ 0) }
          part replica1 part replica2 := by
    rw [tpccTxnMRSP, check, if_pos hreplicas]
    rfl
  have hhomes : (⟨part, replica1⟩ : Home) ≠ ⟨part, replica2⟩ := by simpa using hreplicas
  refine (ordered_iff h hhome1 hhome2 ?_ hbody hends).trans (and_iff_left (.inl hhomes))
  rfl

theorem tpccTxnMRMP_iff (h : t.Fits) (txnId : Nat) {part1 part2 replica1 replica2 : Nat}
    (hhome1 : t.config.HasHome ⟨part1, replica1⟩) (hhome2 : t.config.HasHome ⟨part2, replica2⟩)
    (hparts : part1 ≠ part2 ∨ t.config.nodesPerReplica = 1) {rs : List Nat}
    (hends : (t.tpccTxnMRMP txnId part1 part2 replica1 replica2).run rs ≠ .waiting) :
    t.Returns (t.tpccTxnMRMP txnId part1 part2 replica1 replica2) rs
        [lower ⟨part1, replica1⟩ ⟨part2, replica2⟩, upper ⟨part1, replica1⟩ ⟨part2, replica2⟩,
          lower ⟨part1, replica1⟩ ⟨part2, replica2⟩]
        (lower ⟨part1, replica1⟩ ⟨part2, replica2⟩ ::
          List.replicate 10 (upper ⟨part1, replica1⟩ ⟨part2, replica2⟩)) ↔
      t.config.replicasSize ∣ t.warehousesPerNode ∧
        ((⟨part1, replica1⟩ : Home) ≠ ⟨part2, replica2⟩ ∨ t.OrdersDiffer rs) := by
  have hbody : t.tpccTxnMRMP txnId part1 part2 replica1 replica2 =
      if replica2 < replica1 then
        t.twoPlaces { txnId, txnType := tpcctxnMp, fakeTxn := decide (replica1 ≠ 0 ∧ replica2 ≠ 0) }
          part2 replica2 part1 replica1
      else
        t.twoPlaces { txnId, txnType := tpcctxnMp, fakeTxn := decide (replica1 ≠ 0 ∧ replica2 ≠ 0) }
          part1 replica1 part2 replica2 := by
    rw [tpccTxnMRMP, check, h.nparts_eq, if_pos hparts]
    rfl
  refine ordered_iff h hhome1 hhome2 ?_ hbody hends
  rfl

/-- Exactly when the four generators are valid: for every scale, all arguments
their checks let through and every stream of numbers on which their loops end.
The homes are those the keys are generated for. -/
theorem generated_iff (h : t.Fits) (txnId : Nat) (rs : List Nat) :
    (∀ part replica, t.config.HasHome ⟨part, replica⟩ →
      (t.tpccTxnSRSP txnId part replica).run rs ≠ .waiting →
        (t.Returns (t.tpccTxnSRSP txnId part replica) rs [⟨part, replica⟩, ⟨part, replica⟩]
            (⟨part, replica⟩ :: List.replicate 10 ⟨part, replica⟩) ↔
          t.config.replicasSize ∣ t.warehousesPerNode)) ∧
    (∀ part1 part2 replica, t.config.HasHome ⟨part1, replica⟩ → t.config.HasHome ⟨part2, replica⟩ →
      (part1 ≠ part2 ∨ t.config.nodesPerReplica = 1) →
      (t.tpccTxnSRMP txnId part1 part2 replica).run rs ≠ .waiting →
        (t.Returns (t.tpccTxnSRMP txnId part1 part2 replica) rs
            [⟨part1, replica⟩, ⟨part2, replica⟩, ⟨part1, replica⟩]
            (⟨part1, replica⟩ :: List.replicate 10 ⟨part2, replica⟩) ↔
          t.config.replicasSize ∣ t.warehousesPerNode ∧ (part1 ≠ part2 ∨ t.OrdersDiffer rs))) ∧
    (∀ part replica1 replica2,
      t.config.HasHome ⟨part, replica1⟩ → t.config.HasHome ⟨part, replica2⟩ →
      replica1 ≠ replica2 →
      (t.tpccTxnMRSP txnId part replica1 replica2).run rs ≠ .waiting →
        (t.Returns (t.tpccTxnMRSP txnId part replica1 replica2) rs
            [lower ⟨part, replica1⟩ ⟨part, replica2⟩, upper ⟨part, replica1⟩ ⟨part, replica2⟩,
              lower ⟨part, replica1⟩ ⟨part, replica2⟩]
            (lower ⟨part, replica1⟩ ⟨part, replica2⟩ ::
              List.replicate 10 (upper ⟨part, replica1⟩ ⟨part, replica2⟩)) ↔
          t.config.replicasSize ∣ t.warehousesPerNode)) ∧
    (∀ part1 part2 replica1 replica2,
      t.config.HasHome ⟨part1, replica1⟩ → t.config.HasHome ⟨part2, replica2⟩ →
      (part1 ≠ part2 ∨ t.config.nodesPerReplica = 1) →
      (t.tpccTxnMRMP txnId part1 part2 replica1 replica2).run rs ≠ .waiting →
        (t.Returns (t.tpccTxnMRMP txnId part1 part2 replica1 replica2) rs
            [lower ⟨part1, replica1⟩ ⟨part2, replica2⟩, upper ⟨part1, replica1⟩ ⟨part2, replica2⟩,
              lower ⟨part1, replica1⟩ ⟨part2, replica2⟩]
            (lower ⟨part1, replica1⟩ ⟨part2, replica2⟩ ::
              List.replicate 10 (upper ⟨part1, replica1⟩ ⟨part2, replica2⟩)) ↔
          t.config.replicasSize ∣ t.warehousesPerNode ∧
            ((⟨part1, replica1⟩ : Home) ≠ ⟨part2, replica2⟩ ∨ t.OrdersDiffer rs))) := by
  refine ⟨?_, ?_, ?_, ?_⟩
  · intro part replica hhome hends
    exact tpccTxnSRSP_iff h txnId hhome hends
  · intro part1 part2 replica hhome1 hhome2 hparts hends
    exact tpccTxnSRMP_iff h txnId hhome1 hhome2 hparts hends
  · intro part replica1 replica2 hhome1 hhome2 hreplicas hends
    exact tpccTxnMRSP_iff h txnId hhome1 hhome2 hreplicas hends
  · intro part1 part2 replica1 replica2 hhome1 hhome2 hparts hends
    exact tpccTxnMRMP_iff h txnId hhome1 hhome2 hparts hends

/-- Two replicas and four warehouses a node. -/
theorem generated_iff_four :
    Returns { config := { nodesPerReplica := 2, replicasSize := 2 }, warehousesPerNode := 4 }
      (tpccTxnMRMP { config := { nodesPerReplica := 2, replicasSize := 2 }, warehousesPerNode := 4 }
        7 0 1 1 0)
      [3, 1, 4, 1, 5, 9, 2, 6, 15, 35, 8, 97, 93, 23]
      [⟨1, 0⟩, ⟨0, 1⟩, ⟨1, 0⟩] (⟨1, 0⟩ :: List.replicate 10 ⟨0, 1⟩) := by
  have hfits : Fits
      { config := { nodesPerReplica := 2, replicasSize := 2 }, warehousesPerNode := 4 } :=
    ⟨by decide, by decide, by decide, by decide⟩
  have hrun : ∃ txn rest, (tpccTxnMRMP
      { config := { nodesPerReplica := 2, replicasSize := 2 }, warehousesPerNode := 4 } 7 0 1 1
      0).run [3, 1, 4, 1, 5, 9, 2, 6, 15, 35, 8, 97, 93, 23] = .returned txn rest := ⟨_, _, rfl⟩
  obtain ⟨txn, rest, hrun⟩ := hrun
  refine ((generated_iff hfits 7 _).2.2.2 0 1 1 0 ⟨by decide, by decide⟩ ⟨by decide, by decide⟩
    (.inl (by decide)) ?_).mpr ⟨by decide, .inl (by decide)⟩
  rw [hrun]
  intro hwaiting
  cases hwaiting

/-- Two replicas and three warehouses a node: the range of the districts begins
at 3. -/
theorem generated_fails :
    ¬ ∀ (t : Tpcc) (txnId part replica : Nat) (rs : List Nat), t.Fits →
      t.config.HasHome ⟨part, replica⟩ → (t.tpccTxnSRSP txnId part replica).run rs ≠ .waiting →
        t.Returns (t.tpccTxnSRSP txnId part replica) rs [⟨part, replica⟩, ⟨part, replica⟩]
          (⟨part, replica⟩ :: List.replicate 10 ⟨part, replica⟩) := by
  intro h
  have hrun : (tpccTxnSRSP
      { config := { nodesPerReplica := 1, replicasSize := 2 }, warehousesPerNode := 3 }
      7 0 0).run [5] = .failed := rfl
  obtain ⟨txn, rest, hreturned, -⟩ := h
    { config := { nodesPerReplica := 1, replicasSize := 2 }, warehousesPerNode := 3 } 7 0 0 [5]
    ⟨by decide, by decide, by decide, by decide⟩ ⟨by decide, by decide⟩
    (by rw [hrun]; intro hwaiting; cases hwaiting)
  rw [hrun] at hreturned
  cases hreturned

end Calvin.Tpcc
