import Mathlib.Logic.Function.Iterate
import Calvin.Applications.Microbenchmark

/-!
# The values a transaction writes

The loops of `Microbenchmark::Execute` and `Tpcc::Execute` over the records of
`read_write_set`. They write through the pointers that `ReadObject` returns, to
a record of the storage or to a copy of a remote one.

* `bump`: what happens to one value;
* `bumpObject`, `executeLoop`: the loops, with everything they change;
* `bumpCompute`: the new values of the storage;
* `executeLoop_eq`: the loops leave the storage that `writeValues` describes.
-/

namespace Calvin

open Function

/-- One character: `char` is signed, and the comparison one of `int`. -/
def nextChar (c : UInt8) : UInt8 := if 122 ≤ c ∧ c < 128 then 97 else c + 1

/-- The first eight characters of a value. -/
def bump (value : Value) : Value := (value.take 8).map nextChar ++ value.drop 8

/-- What `Execute` can change: the objects of the transaction, and the storage. -/
structure Objects where
  sm : StorageManager
  store : Key → Record

/-- One round of a loop; `none` is the use of a null pointer, or an index behind the
end of the value. -/
def bumpObject (st : Objects) (entry : KeyEntry) : Option Objects :=
  (st.sm.readObject st.store entry.key).bind fun val =>
    if val.value.length < 8 then none
    else
      let val := { val with value := bump val.value }
      if st.sm.objects.lookup entry.key = some .stored then
        some { st with store := update st.store entry.key val }
      else
        some { st with
          sm := { st.sm with objects := st.sm.objects.insert entry.key (.copied val) } }

/-- The loop of `Microbenchmark::Execute`, over a fixed number of entries; an index
behind the last one fails. -/
def Microbenchmark.executeLoop (txn : TxnProto) (st : Objects) : Option Objects :=
  (List.range Microbenchmark.kRWSetSize).foldlM
    (fun st i => txn.readWriteSet[i]?.bind fun entry => bumpObject st entry) st

/-- The loop of `Tpcc::Execute`. -/
def Tpcc.executeLoop (txn : TxnProto) (st : Objects) : Option Objects :=
  txn.readWriteSet.foldlM bumpObject st

/-- The new values of the records, of which each depends on its own old value. -/
def bumpCompute : Compute := fun _ view k => ((view k).map fun val => bump val.value).getD []

@[simp] theorem bump_length (value : Value) : (bump value).length = value.length := by
  simp only [bump, List.length_append, List.length_map, List.length_take, List.length_drop]
  omega

theorem bump_iterate_length (n : Nat) (value : Value) : (bump^[n] value).length = value.length := by
  induction n with
  | zero => rfl
  | succ n ih => rw [iterate_succ_apply', bump_length, ih]

/-! ## One round -/

section

variable {st st' : Objects} {entry : KeyEntry} {txn : TxnProto}

/-- A round changes what its key stands for, and nothing else. -/
structure Bumped (st : Objects) (entry : KeyEntry) (st' : Objects) : Prop where
  own : st'.store entry.key =
    if st.sm.objects.lookup entry.key = some .stored then
      { st.store entry.key with value := bump (st.store entry.key).value }
    else st.store entry.key
  store : ∀ k, k ≠ entry.key → st'.store k = st.store k
  objects : ∀ k, k ≠ entry.key → st'.sm.objects.lookup k = st.sm.objects.lookup k

theorem bumpObject_spec {val : Record} (hval : st.sm.readObject st.store entry.key = some val)
    (hlen : 8 ≤ val.value.length) :
    ∃ st', bumpObject st entry = some st' ∧ Bumped st entry st' := by
  unfold bumpObject
  rw [hval, Option.bind_some, if_neg (by omega)]
  dsimp only
  by_cases hstored : st.sm.objects.lookup entry.key = some .stored
  · rw [if_pos hstored]
    refine ⟨_, rfl, ?_, fun k hk => update_of_ne hk _ _, fun k hk => rfl⟩
    -- the pointer is one into the storage
    rw [StorageManager.readObject, hstored, Option.map_some, Option.some.injEq] at hval
    rw [if_pos hstored, ← hval]
    exact update_self _ _ _
  · rw [if_neg hstored]
    exact ⟨_, rfl, (if_neg hstored).symm, fun k hk => rfl,
      fun k hk => AList.lookup_insert_ne hk⟩

/-- What another key stands for is the same in the next round. -/
theorem Bumped.readObject (h : Bumped st entry st') {k : Key} (hk : k ≠ entry.key) :
    st'.sm.readObject st'.store k = st.sm.readObject st.store k := by
  rw [StorageManager.readObject, StorageManager.readObject, h.objects k hk, h.store k hk]

/-! ## The loops -/

/-- Over entries with distinct keys, all with an object that is long enough. -/
theorem foldlM_bumpObject (entries : List KeyEntry) (st : Objects)
    (hkeys : (entries.map KeyEntry.key).Nodup)
    (hobjects : ∀ entry ∈ entries, ∃ val,
      st.sm.readObject st.store entry.key = some val ∧ 8 ≤ val.value.length) :
    ∃ st', entries.foldlM bumpObject st = some st' ∧ ∀ k, st'.store k =
      if k ∈ entries.map KeyEntry.key ∧ st.sm.objects.lookup k = some .stored then
        { st.store k with value := bump (st.store k).value }
      else st.store k := by
  induction entries generalizing st with
  | nil => exact ⟨st, rfl, fun k => by simp⟩
  | cons entry rest ih =>
      rw [List.map_cons, List.nodup_cons] at hkeys
      have hrest : ∀ e ∈ rest, e.key ≠ entry.key := fun e he heq =>
        hkeys.1 (heq ▸ List.mem_map_of_mem he)
      obtain ⟨val, hval, hlen⟩ := hobjects entry List.mem_cons_self
      obtain ⟨st₁, hbump, hbumped⟩ := bumpObject_spec hval hlen
      obtain ⟨st', hfold, hstore⟩ := ih st₁ hkeys.2 fun e he => by
        rw [hbumped.readObject (hrest e he)]
        exact hobjects e (List.mem_cons_of_mem _ he)
      refine ⟨st', by rw [List.foldlM_cons, hbump]; exact hfold, fun k => ?_⟩
      rw [hstore, List.map_cons]
      by_cases hk : k = entry.key
      · subst hk
        rw [if_neg fun h => hkeys.1 h.1, hbumped.own]
        simp
      · rw [hbumped.store k hk, hbumped.objects k hk]
        simp [hk]

theorem foldlM_range {α β : Type} (f : β → α → Option β) (l : List α) {n : Nat}
    (hn : n ≤ l.length) (b : β) :
    (List.range n).foldlM (fun b i => l[i]?.bind (f b)) b = (l.take n).foldlM f b := by
  induction n with
  | zero => simp
  | succ n ih =>
      have hlast : l[n]? = some l[n] := List.getElem?_eq_getElem (by omega)
      rw [List.range_succ, List.foldlM_append, ih (by omega), List.take_add_one,
        List.foldlM_append, hlast]
      simp [hlast]

/-- With the number of entries it is made for, the loop of the microbenchmark goes
over all of them. -/
theorem Microbenchmark.executeLoop_eq (h : txn.readWriteSet.length = kRWSetSize) (st : Objects) :
    executeLoop txn st = Tpcc.executeLoop txn st := by
  unfold executeLoop
  rw [foldlM_range bumpObject _ (Nat.le_of_eq h.symm), ← h, List.take_length]
  rfl

theorem writeValues_bump (txn : TxnProto) (sm : StorageManager) (store : Key → Record) (k : Key) :
    Microbenchmark.writeValues bumpCompute txn sm store k =
      if k ∈ txn.client.writeKeys ∧ sm.objects.lookup k = some .stored then
        { store k with value := bump (store k).value }
      else store k := by
  unfold Microbenchmark.writeValues
  split
  case isTrue h =>
      rw [bumpCompute, StorageManager.readObject, h.2]
      rfl
  case isFalse => rfl

/-- The loop fails nowhere and leaves these values in the storage. -/
theorem Tpcc.executeLoop_eq (txn : TxnProto) (st : Objects) (hkeys : txn.client.writeKeys.Nodup)
    (hobjects : ∀ entry ∈ txn.readWriteSet, ∃ val,
      st.sm.readObject st.store entry.key = some val ∧ 8 ≤ val.value.length) :
    ∃ st', executeLoop txn st = some st' ∧
      st'.store = Microbenchmark.writeValues bumpCompute txn st.sm st.store := by
  obtain ⟨st', hfold, hstore⟩ := foldlM_bumpObject txn.readWriteSet st hkeys hobjects
  refine ⟨st', hfold, funext fun k => ?_⟩
  rw [hstore, writeValues_bump]
  rfl

end

end Calvin
