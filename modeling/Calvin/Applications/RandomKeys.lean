import Mathlib.Data.List.Sort
import Mathlib.Tactic.Ring
import Calvin.Lib.Draw
import Calvin.Machine.NumberKeys

/-!
# Random keys of a partition and a replica

`GetRandomKeys` and `GetRandomKeysReplica`, which `Microbenchmark` and `Tpcc` share
word for word: distinct numbers between two bounds whose partition, and in the second
one first master, are given ones. A division by zero counts as a failure, like a
`CHECK`.

The specification names the part of the database a key comes from: a *home*
(partition and replica) and a range of numbers. Keys of different homes differ,
and so do keys of ranges that do not meet.
-/

namespace Calvin

open Lib (Draw)
open Lib.Draw

/-- `nparts * replica_size`, a product of two `uint32`. -/
def stride (nparts replicaSize : Nat) : Nat := nparts * replicaSize % UInt32.size

/-- The sum of `uint64` that makes an order number a key. -/
def orderKey (nparts replicaSize keyStart part replica order : Nat) : Nat :=
  (keyStart + part + nparts * (order * replicaSize + replica)) % UInt64.size

/-- `rand() % size`. -/
def randBelow (size : Nat) : Draw Nat := do
  check (size ≠ 0)
  let r ← draw
  return r % size

/-- `rand() % size`, drawn again while it is no good. -/
def randBelowUntil (size : Nat) (good : Nat → Bool) : Draw Nat := do
  check (size ≠ 0)
  let r ← drawUntil fun r => good (r % size)
  return r % size

/-- The loop over `num_keys`; a `set<uint64>` is kept in ascending order. -/
def drawKeys (orders : Nat) (keyOf : Nat → Nat) : Nat → List Nat → Draw (List Nat)
  | 0, keys => done keys
  | count + 1, keys => do
      let order ← randBelowUntil orders fun order => decide (keyOf order ∉ keys)
      drawKeys orders keyOf count (keys.orderedInsert (· ≤ ·) (keyOf order))

/-- `GetRandomKeys`. -/
def getRandomKeys (nparts numKeys keyStart keyLimit part : Nat) : Draw (List Nat) := do
  check (nparts ≠ 0 ∧ keyStart % nparts = 0)
  let orders := (keyLimit + UInt64.size - keyStart) % UInt64.size / nparts
  drawKeys orders (fun order => (keyStart + part + nparts * order) % UInt64.size) numKeys []

/-- `GetRandomKeysReplica`. -/
def getRandomKeysReplica (nparts replicaSize numKeys keyStart keyLimit part replica : Nat) :
    Draw (List Nat) := do
  check (stride nparts replicaSize ≠ 0 ∧ keyStart % stride nparts replicaSize = 0)
  let orders := (keyLimit + UInt64.size - keyStart) % UInt64.size / stride nparts replicaSize
  drawKeys orders (orderKey nparts replicaSize keyStart part replica) numKeys []

/-- The start of a range, moved up to a multiple of the stride. -/
def alignStart (nparts replicaSize keyStart : Nat) : Nat :=
  if keyStart % stride nparts replicaSize ≠ 0 then
    keyStart + (stride nparts replicaSize - keyStart % stride nparts replicaSize)
  else keyStart

/-- `(rand() % (count / replica_size)) * replica_size + replica`, without its
draw; the two operations are on `uint32`. -/
def rowOrder (replicaSize replica order : Nat) : Nat :=
  (order * replicaSize + replica) % UInt32.size

def randOrder (count replicaSize replica : Nat) : Draw Nat := do
  let order ← randBelow (count / replicaSize)
  return rowOrder replicaSize replica order

/-- The same, drawn again while it is no good. -/
def randOrderUntil (count replicaSize replica : Nat) (good : Nat → Bool) : Draw Nat := do
  let order ← randBelowUntil (count / replicaSize) fun order =>
    good (rowOrder replicaSize replica order)
  return rowOrder replicaSize replica order

/-- `part + nparts * (rand() % count)`, without its draw; the product is one of
`uint32`. -/
def partKey (nparts part order : Nat) : Nat :=
  (part + nparts * order % UInt32.size) % UInt64.size

def randKey (nparts part count : Nat) : Draw Nat := do
  let order ← randBelow count
  return partKey nparts part order

/-- The same, drawn again while it is no good. -/
def randKeyUntil (nparts part count : Nat) (good : Nat → Bool) : Draw Nat := do
  let order ← randBelowUntil count fun order => good (partKey nparts part order)
  return partKey nparts part order

/-- `part + nparts * hotkey_order`. -/
def rowKey (nparts part order : Nat) : Nat := (part + nparts * order) % UInt64.size

/-- An entry as the generators add it. -/
def newEntry (replica key : Nat) : KeyEntry where
  key := numberKey key
  master := replica
  counter := 0

@[simp] theorem newEntry_key (replica key : Nat) : (newEntry replica key).key = numberKey key := by
  rw [newEntry]

@[simp] theorem newEntry_master (replica key : Nat) : (newEntry replica key).master = replica := by
  rw [newEntry]

@[simp] theorem newEntry_counter (replica key : Nat) : (newEntry replica key).counter = 0 := by
  rw [newEntry]

/-! ## What the draws ensure -/

theorem randBelow_ensures {size : Nat} (hsize : 0 < size) :
    (randBelow size).Ensures (· < size) := by
  unfold randBelow
  rw [ensures_bind, ensures_check]
  refine ⟨by omega, ?_⟩
  intro r _
  exact Nat.mod_lt r hsize

theorem randBelowUntil_ensures {size : Nat} {good : Nat → Bool} (hsize : 0 < size) :
    (randBelowUntil size good).Ensures fun r => r < size ∧ good r = true := by
  unfold randBelowUntil
  rw [ensures_bind, ensures_check]
  refine ⟨by omega, ?_⟩
  intro r hr
  exact ⟨Nat.mod_lt r hsize, hr⟩

theorem randOrder_ensures {count replicaSize : Nat} (replica : Nat)
    (hrows : 0 < count / replicaSize) :
    (randOrder count replicaSize replica).Ensures fun o =>
      ∃ order < count / replicaSize, o = rowOrder replicaSize replica order := by
  refine (randBelow_ensures hrows).bind ?_
  intro order horder
  exact ⟨order, horder, rfl⟩

section Run

variable {α : Type} {count replicaSize replica : Nat} {f : Nat → Draw α}

theorem randOrder_bind (hrows : 0 < count / replicaSize) :
    (randOrder count replicaSize replica >>= f) =
      retry (fun _ => true) fun r =>
        f (rowOrder replicaSize replica (r % (count / replicaSize))) := by
  unfold randOrder randBelow check
  rw [if_pos (by omega)]
  rfl

/-- One number is used for an order. -/
theorem run_randOrder_cons (hrows : 0 < count / replicaSize) (r : Nat) (rs : List Nat) :
    (randOrder count replicaSize replica >>= f).run (r :: rs) =
      (f (rowOrder replicaSize replica (r % (count / replicaSize)))).run rs := by
  rw [randOrder_bind hrows]
  rfl

theorem run_randOrder_nil (hrows : 0 < count / replicaSize) :
    (randOrder count replicaSize replica >>= f).run [] = .waiting := by
  rw [randOrder_bind hrows]
  rfl

end Run

theorem randOrderUntil_ensures {count replicaSize : Nat} (replica : Nat) (good : Nat → Bool)
    (hrows : 0 < count / replicaSize) :
    (randOrderUntil count replicaSize replica good).Ensures fun o =>
      good o = true ∧ ∃ order < count / replicaSize, o = rowOrder replicaSize replica order := by
  refine (randBelowUntil_ensures hrows).bind ?_
  rintro order ⟨horder, hgood⟩
  exact ⟨hgood, order, horder, rfl⟩

/-- The loop adds the number of keys asked for, all of them made of an order
below the bound. -/
theorem drawKeys_ensures {orders : Nat} {keyOf : Nat → Nat} {P : Nat → Prop} (horders : 0 < orders)
    (hP : ∀ order < orders, P (keyOf order)) (count : Nat) (keys : List Nat) (hnodup : keys.Nodup)
    (hkeys : ∀ k ∈ keys, P k) :
    (drawKeys orders keyOf count keys).Ensures fun ks =>
      ks.Nodup ∧ ks.length = count + keys.length ∧ ∀ k ∈ ks, P k := by
  induction count generalizing keys with
  | zero => exact ⟨hnodup, (Nat.zero_add _).symm, hkeys⟩
  | succ count ih =>
      refine (randBelowUntil_ensures horders).bind ?_
      rintro order ⟨hlt, hfresh⟩
      have hnew : keyOf order ∉ keys := of_decide_eq_true hfresh
      have hperm := keys.perm_orderedInsert (· ≤ ·) (keyOf order)
      refine (ih (keys.orderedInsert (· ≤ ·) (keyOf order)) ?_ ?_).mono ?_
      · exact hperm.nodup_iff.mpr (List.nodup_cons.mpr ⟨hnew, hnodup⟩)
      · intro k hk
        rcases List.mem_cons.mp (hperm.mem_iff.mp hk) with rfl | hold
        · exact hP order hlt
        · exact hkeys k hold
      · rintro ks ⟨hks, hlen, hall⟩
        refine ⟨hks, ?_, hall⟩
        rw [hlen, hperm.length_eq, List.length_cons]
        omega

/-! ## Keys of a home -/

/-- A partition, and the replica that is the first master. -/
structure Home where
  part : Nat
  replica : Nat
deriving DecidableEq, Repr

/-- A key between two bounds whose partition and first master are those of the
home. -/
structure HomeKey (nparts replicaSize : Nat) (home : Home) (lo hi key : Nat) : Prop where
  low : lo ≤ key
  high : key < hi
  part : key % nparts = home.part
  replica : key / nparts % replicaSize = home.replica

section HomeKey

variable {nparts replicaSize lo hi : Nat} {home : Home}

theorem stride_eq (h : nparts * replicaSize < UInt32.size) :
    stride nparts replicaSize = nparts * replicaSize := Nat.mod_eq_of_lt h

/-- The key formula, from an aligned start: an order below the number of whole
strides gives a key of the home within the bounds. -/
theorem homeKey_of_order {order : Nat} (halign : nparts * replicaSize ∣ lo)
    (hpart : home.part < nparts) (hreplica : home.replica < replicaSize) (hlo : lo ≤ hi)
    (horder : order < (hi - lo) / (nparts * replicaSize)) :
    HomeKey nparts replicaSize home lo hi
      (lo + home.part + nparts * (order * replicaSize + home.replica)) := by
  obtain ⟨q, hq⟩ := halign
  have hpos : 0 < nparts * replicaSize := Nat.mul_pos (by omega) (by omega)
  -- the key is `part` plus a multiple of `nparts`
  have hform : lo + home.part + nparts * (order * replicaSize + home.replica) =
      home.part + nparts * (home.replica + (q + order) * replicaSize) := by
    rw [hq]
    ring
  have hrow : nparts * home.replica + nparts ≤ nparts * replicaSize := by
    rw [← Nat.mul_succ]
    exact Nat.mul_le_mul_left _ hreplica
  have hlast : (order + 1) * (nparts * replicaSize) ≤ hi - lo :=
    (Nat.mul_le_mul_right _ horder).trans (Nat.div_mul_le_self _ _)
  have hexpand : nparts * (order * replicaSize + home.replica) =
      order * (nparts * replicaSize) + nparts * home.replica := by ring
  refine ⟨by omega, ?_, ?_, ?_⟩
  · rw [hexpand]
    rw [Nat.succ_mul] at hlast
    omega
  · rw [hform, Nat.add_mul_mod_self_left, Nat.mod_eq_of_lt hpart]
  · rw [hform, Nat.add_mul_div_left _ _ (by omega), Nat.div_eq_of_lt hpart, Nat.zero_add,
      Nat.add_mul_mod_self_right, Nat.mod_eq_of_lt hreplica]

/-- `GetRandomKeysReplica` from an aligned start with one whole stride at
least. -/
theorem getRandomKeysReplica_ensures (numKeys : Nat) (halign : nparts * replicaSize ∣ lo)
    (hpart : home.part < nparts) (hreplica : home.replica < replicaSize)
    (hroom : lo + nparts * replicaSize ≤ hi) (hhi : hi ≤ intLimit) :
    (getRandomKeysReplica nparts replicaSize numKeys lo hi home.part home.replica).Ensures
      fun ks => ks.Nodup ∧ ks.length = numKeys ∧
        ∀ k ∈ ks, HomeKey nparts replicaSize home lo hi k := by
  have hlimit : intLimit < UInt32.size := by decide
  have hlimit64 : intLimit < UInt64.size := by decide
  have hpos : 0 < nparts * replicaSize := Nat.mul_pos (by omega) (by omega)
  have hstride : stride nparts replicaSize = nparts * replicaSize := stride_eq (by omega)
  have hspan : (hi + UInt64.size - lo) % UInt64.size = hi - lo := by
    rw [show hi + UInt64.size - lo = hi - lo + UInt64.size by omega, Nat.add_mod_right,
      Nat.mod_eq_of_lt (by omega)]
  have horders : 0 < (hi - lo) / (nparts * replicaSize) := Nat.div_pos (by omega) hpos
  unfold getRandomKeysReplica
  rw [ensures_bind, ensures_check, hstride, hspan]
  refine ⟨⟨by omega, Nat.mod_eq_zero_of_dvd halign⟩, ?_⟩
  refine drawKeys_ensures horders ?_ numKeys [] List.nodup_nil (by simp)
  intro order horder
  have hkey := homeKey_of_order halign hpart hreplica (by omega) horder
  rw [orderKey, Nat.mod_eq_of_lt (by have := hkey.high; omega)]
  exact hkey

/-- A start that is not aligned fails the `CHECK`. -/
theorem getRandomKeysReplica_unaligned (numKeys keyLimit part replica : Nat)
    (hfit : nparts * replicaSize < UInt32.size) (h : ¬ nparts * replicaSize ∣ lo) :
    getRandomKeysReplica nparts replicaSize numKeys lo keyLimit part replica = fail := by
  have hno : ¬ (stride nparts replicaSize ≠ 0 ∧ lo % stride nparts replicaSize = 0) := by
    rw [stride_eq hfit, ← Nat.dvd_iff_mod_eq_zero]
    exact fun hc => h hc.2
  unfold getRandomKeysReplica check
  rw [if_neg hno]
  rfl

/-- An aligned start is a multiple of the stride, less than a stride above. -/
theorem alignStart_spec (hfit : nparts * replicaSize < UInt32.size)
    (hpos : 0 < nparts * replicaSize) (start : Nat) :
    nparts * replicaSize ∣ alignStart nparts replicaSize start ∧
      start ≤ alignStart nparts replicaSize start ∧
        alignStart nparts replicaSize start < start + nparts * replicaSize := by
  have hmod := Nat.mod_lt start hpos
  unfold alignStart
  rw [stride_eq hfit]
  split
  · next hne =>
      refine ⟨?_, by omega, by omega⟩
      have hsum : start + (nparts * replicaSize - start % (nparts * replicaSize)) =
          (start / (nparts * replicaSize) + 1) * (nparts * replicaSize) := by
        have hdiv := Nat.div_add_mod' start (nparts * replicaSize)
        rw [Nat.succ_mul]
        omega
      rw [hsum]
      exact Nat.dvd_mul_left _ _
  · next heq => exact ⟨Nat.dvd_of_mod_eq_zero (not_not.mp heq), le_rfl, by omega⟩

/-- The first `count` rows of a partition: an order drawn below the rows of the
replica gives a key of the home. -/
theorem rowKey_home {count order : Nat} (hpart : home.part < nparts)
    (hreplica : home.replica < replicaSize) (hfit : nparts * count ≤ intLimit)
    (horder : order < count / replicaSize) :
    rowKey nparts home.part (rowOrder replicaSize home.replica order) =
        home.part + nparts * (order * replicaSize + home.replica) ∧
      HomeKey nparts replicaSize home 0 (nparts * count)
        (rowKey nparts home.part (rowOrder replicaSize home.replica order)) := by
  have hlimit : intLimit < UInt32.size := by decide
  have hlimit64 : intLimit < UInt64.size := by decide
  have hcount : count ≤ nparts * count := Nat.le_mul_of_pos_left _ (by omega)
  have hrows : (order + 1) * replicaSize ≤ count :=
    (Nat.mul_le_mul_right _ horder).trans (Nat.div_mul_le_self _ _)
  rw [Nat.succ_mul] at hrows
  have hspan : (nparts * count - 0) / (nparts * replicaSize) = count / replicaSize := by
    rw [Nat.sub_zero, Nat.mul_div_mul_left _ _ (by omega)]
  have horder' : order < (nparts * count - 0) / (nparts * replicaSize) := by
    rw [hspan]
    exact horder
  have hkey := homeKey_of_order (Nat.dvd_zero _) hpart hreplica (Nat.zero_le _) horder'
  rw [Nat.zero_add] at hkey
  have hvalue : rowKey nparts home.part (rowOrder replicaSize home.replica order) =
      home.part + nparts * (order * replicaSize + home.replica) := by
    rw [rowOrder, Nat.mod_eq_of_lt (by omega), rowKey,
      Nat.mod_eq_of_lt (by have := hkey.high; omega)]
  rw [hvalue]
  exact ⟨rfl, hkey⟩

/-- Keys of one home are told apart by their orders. -/
theorem rowKey_ne {count order order' : Nat} (hpart : home.part < nparts)
    (hreplica : home.replica < replicaSize) (hfit : nparts * count ≤ intLimit)
    (horder : order < count / replicaSize) (horder' : order' < count / replicaSize)
    (hne : order ≠ order') :
    rowKey nparts home.part (rowOrder replicaSize home.replica order) ≠
      rowKey nparts home.part (rowOrder replicaSize home.replica order') := by
  rw [(rowKey_home hpart hreplica hfit horder).1, (rowKey_home hpart hreplica hfit horder').1]
  intro h
  have hrows := Nat.eq_of_mul_eq_mul_left (by omega) (Nat.add_left_cancel h)
  exact hne (Nat.eq_of_mul_eq_mul_right (by omega) (Nat.add_right_cancel hrows))

/-! ## Keys of a partition

Without replicas the home of a key is its partition. -/

theorem randBelow_yields {size max : Nat} (hsize : 0 < size) :
    Yields max (randBelow size) (· < size) := by
  unfold randBelow
  refine Yields.check (by omega) (Yields.draw.bind fun r _ => ?_)
  exact Yields.done (Nat.mod_lt r hsize)

theorem randBelowUntil_yields {size max : Nat} {good : Nat → Bool} (hsize : 0 < size)
    (hgood : ∃ r < size, r ≤ max ∧ good r = true) :
    Yields max (randBelowUntil size good) fun r => r < size ∧ good r = true := by
  obtain ⟨r, hr, hmax, hstop⟩ := hgood
  unfold randBelowUntil
  refine Yields.check (by omega) ((Yields.drawUntil ⟨r, hmax, ?_⟩).bind fun r hr => ?_)
  · rwa [Nat.mod_eq_of_lt hr]
  · exact Yields.done ⟨Nat.mod_lt r hsize, hr⟩

/-- A key that is not drawn yet is left as long as fewer are drawn than there are. -/
theorem exists_fresh {n : Nat} {keyOf : Nat → Nat} {keys : List Nat} (hlen : keys.length < n)
    (hinj : ∀ i < n, ∀ j < n, keyOf i = keyOf j → i = j) : ∃ r < n, keyOf r ∉ keys := by
  by_contra hall
  simp only [not_exists, not_and, not_not] at hall
  have hnodup : ((List.range n).map keyOf).Nodup :=
    List.Nodup.map_on (fun i hi j hj => hinj i (List.mem_range.mp hi) j (List.mem_range.mp hj))
      List.nodup_range
  have hsub : (List.range n).map keyOf ⊆ keys := by
    intro k hk
    obtain ⟨r, hr, rfl⟩ := List.mem_map.mp hk
    exact hall r (List.mem_range.mp hr)
  have hle := (List.subperm_of_subset hnodup hsub).length_le
  rw [List.length_map, List.length_range] at hle
  omega

/-- The loop over `num_keys` can end: there are keys enough, and `rand()` reaches
them. -/
theorem drawKeys_yields {orders max : Nat} {keyOf : Nat → Nat} {P : Nat → Prop}
    (hinj : ∀ i < orders, ∀ j < orders, keyOf i = keyOf j → i = j)
    (hP : ∀ order < orders, P (keyOf order)) (count : Nat) (keys : List Nat)
    (hpos : 0 < orders) (horders : count + keys.length ≤ orders)
    (hmax : count + keys.length ≤ max + 1) (hnodup : keys.Nodup) (hkeys : ∀ k ∈ keys, P k) :
    Yields max (drawKeys orders keyOf count keys) fun ks =>
      ks.Nodup ∧ ks.length = count + keys.length ∧ ∀ k ∈ ks, P k := by
  refine ⟨?_, drawKeys_ensures hpos hP count keys hnodup hkeys⟩
  induction count generalizing keys with
  | zero => exact canEnd_done
  | succ count ih =>
      have hfree : ∃ r < keys.length + 1, keyOf r ∉ keys :=
        exists_fresh (by omega) fun i hi j hj => hinj i (by omega) j (by omega)
      obtain ⟨r, hr, hfresh⟩ := hfree
      have hdraw : Yields max (randBelowUntil orders fun order => decide (keyOf order ∉ keys))
          fun order => order < orders ∧ decide (keyOf order ∉ keys) = true :=
        randBelowUntil_yields hpos ⟨r, by omega, by omega, decide_eq_true hfresh⟩
      refine hdraw.1.bind hdraw.2 fun order ⟨hlt, hnew⟩ => ?_
      have hperm := keys.perm_orderedInsert (· ≤ ·) (keyOf order)
      have hlen := hperm.length_eq
      rw [List.length_cons] at hlen
      refine ih _ (by omega) (by omega) ?_ fun k hk => ?_
      · exact hperm.nodup_iff.mpr (List.nodup_cons.mpr ⟨of_decide_eq_true hnew, hnodup⟩)
      · rcases List.mem_cons.mp (hperm.mem_iff.mp hk) with rfl | hold
        · exact hP order hlt
        · exact hkeys k hold

/-- The key formula of a partition. -/
theorem partKey_home {part order : Nat} (halign : nparts ∣ lo) (hpart : part < nparts)
    (hlo : lo ≤ hi) (horder : order < (hi - lo) / nparts) :
    HomeKey nparts 1 ⟨part, 0⟩ lo hi (lo + part + nparts * order) := by
  have hkey : HomeKey nparts 1 ⟨part, 0⟩ lo hi (lo + part + nparts * (order * 1 + 0)) :=
    homeKey_of_order (by rwa [Nat.mul_one]) hpart Nat.one_pos hlo (by rwa [Nat.mul_one])
  rwa [Nat.mul_one, Nat.add_zero] at hkey

/-- `GetRandomKeys` from an aligned start with at least the keys that are asked for. -/
theorem getRandomKeys_yields {numKeys part max : Nat} (hkeys : 0 < numKeys) (halign : nparts ∣ lo)
    (hpart : part < nparts) (hroom : lo + nparts * numKeys ≤ hi) (hhi : hi ≤ intLimit)
    (hmax : numKeys ≤ max + 1) :
    Yields max (getRandomKeys nparts numKeys lo hi part) fun ks =>
      ks.Nodup ∧ ks.length = numKeys ∧ ∀ k ∈ ks, HomeKey nparts 1 ⟨part, 0⟩ lo hi k := by
  have hlimit : intLimit < UInt64.size := by decide
  have hpos : 0 < nparts := by omega
  have hspan : (hi + UInt64.size - lo) % UInt64.size = hi - lo := by
    rw [show hi + UInt64.size - lo = hi - lo + UInt64.size by omega, Nat.add_mod_right,
      Nat.mod_eq_of_lt (by omega)]
  have horders : numKeys ≤ (hi - lo) / nparts := by
    rw [Nat.le_div_iff_mul_le hpos, Nat.mul_comm]
    omega
  have hkey : ∀ order < (hi - lo) / nparts,
      HomeKey nparts 1 ⟨part, 0⟩ lo hi (lo + part + nparts * order) := fun order horder =>
    partKey_home halign hpart (by omega) horder
  have hvalue : ∀ order < (hi - lo) / nparts,
      (lo + part + nparts * order) % UInt64.size = lo + part + nparts * order :=
    fun order horder => Nat.mod_eq_of_lt (by have := (hkey order horder).high; omega)
  unfold getRandomKeys
  rw [hspan]
  refine Yields.check ⟨by omega, Nat.mod_eq_zero_of_dvd halign⟩
    (drawKeys_yields (fun i hi j hj heq => ?_) (fun order horder => ?_) numKeys [] (by omega) ?_ ?_
      List.nodup_nil (by simp))
  · rw [hvalue i hi, hvalue j hj] at heq
    exact Nat.eq_of_mul_eq_mul_left hpos (Nat.add_left_cancel heq)
  · rw [hvalue order horder]
    exact hkey order horder
  · rw [List.length_nil]
    omega
  · rw [List.length_nil]
    omega

theorem partKey_eq {part count order : Nat} (hpart : part < nparts)
    (hfit : nparts * count ≤ intLimit) (horder : order < count) :
    partKey nparts part order = part + nparts * order ∧
      HomeKey nparts 1 ⟨part, 0⟩ 0 (nparts * count) (partKey nparts part order) := by
  have hlimit : intLimit < UInt32.size := by decide
  have hlimit64 : intLimit < UInt64.size := by decide
  have hspan : (nparts * count - 0) / nparts = count := by
    rw [Nat.sub_zero, Nat.mul_div_cancel_left _ (by omega)]
  have hkey : HomeKey nparts 1 ⟨part, 0⟩ 0 (nparts * count) (0 + part + nparts * order) :=
    partKey_home (Nat.dvd_zero nparts) hpart (Nat.zero_le _) (by rwa [hspan])
  rw [Nat.zero_add] at hkey
  have hhigh := hkey.high
  have hvalue : partKey nparts part order = part + nparts * order := by
    rw [partKey, Nat.mod_eq_of_lt (a := nparts * order) (by omega), Nat.mod_eq_of_lt (by omega)]
  rw [hvalue]
  exact ⟨rfl, hkey⟩

/-- A key among the first rows of a partition. -/
theorem randKey_yields {part count max : Nat} (hpart : part < nparts)
    (hfit : nparts * count ≤ intLimit) (hcount : 0 < count) :
    Yields max (randKey nparts part count)
      (HomeKey nparts 1 ⟨part, 0⟩ 0 (nparts * count)) := by
  unfold randKey
  refine (randBelow_yields hcount).bind fun order horder => Yields.done ?_
  exact (partKey_eq hpart hfit horder).2

/-- Another one: there are two rows. -/
theorem randKeyUntil_yields {part count max other : Nat} (hpart : part < nparts)
    (hfit : nparts * count ≤ intLimit) (hcount : 2 ≤ count) (hmax : 1 ≤ max) :
    Yields max (randKeyUntil nparts part count fun key => key != other) fun key =>
      HomeKey nparts 1 ⟨part, 0⟩ 0 (nparts * count) key ∧ key ≠ other := by
  unfold randKeyUntil
  have hfree : ∃ r < 2, partKey nparts part r ∉ [other] := by
    refine exists_fresh (by rw [List.length_singleton]; decide) fun i hi j hj heq => ?_
    rw [(partKey_eq hpart hfit (by omega)).1, (partKey_eq hpart hfit (by omega)).1] at heq
    exact Nat.eq_of_mul_eq_mul_left (by omega) (Nat.add_left_cancel heq)
  obtain ⟨r, hr, hfresh⟩ := hfree
  refine (randBelowUntil_yields (by omega) ⟨r, by omega, by omega, ?_⟩).bind
    fun order ⟨horder, hne⟩ => Yields.done ⟨(partKey_eq hpart hfit horder).2, ?_⟩
  · simpa using hfresh
  · simpa using hne

end HomeKey

end Calvin
