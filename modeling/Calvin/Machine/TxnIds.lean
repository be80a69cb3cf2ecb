import Mathlib.Data.List.Nodup
import Mathlib.Logic.Function.Basic
import Calvin.Lib.Machine

/-!
# Transaction ids

Every machine has a counter of its own for `GetGUID`. `RunWriter` numbers its
batches with it and gives the transactions of its client ids that are computed
from the batch number; a transaction that is sent again after an abort and a
remaster transaction have a GUID for an id.

* `Ids`, `machine`: the counters of all machines, and the ids given so far;
* `Inv`: what the ids are, as long as no number is cut.

The number of machines and the size of a batch are parameters.
-/

namespace Calvin.TxnIds

open Function Lib

/-- `GetGUID` of a machine, with its counter. -/
def getGUID (allNodesSize localNodeId nextGuid : Nat) : Nat :=
  (1 + localNodeId + allNodesSize * nextGuid) % UInt64.size

/-- The id of a client's transaction. `GetTxn` takes it as an `int`, whose sign
is extended when it is set. -/
def clientTxnId (maxBatchSize batchNumber txnIdOffset : Nat) : Nat :=
  let low := (batchNumber * maxBatchSize + txnIdOffset) % UInt32.size
  if low < 2147483648 then low else low + (UInt64.size - UInt32.size)

structure Ids where
  nextGuid : Nat → Nat := fun _ => 1000
  /-- The batch of the epoch, if `RunWriter` has begun one. -/
  batchNumber : Nat → Option Nat := fun _ => none
  txnIdOffset : Nat → Nat := fun _ => 0
  /-- The transactions of clients, by batch number and offset. -/
  clients : List (Nat × Nat) := []
  /-- The ids of retries and of remaster transactions. -/
  direct : List Nat := []

inductive Event
  /-- `RunWriter` of a machine begins an epoch. -/
  | beginEpoch (n : Nat)
  /-- It takes a transaction from its client. -/
  | getTxn (n : Nat)
  /-- A worker creates a transaction, to retry one or to remaster a record. -/
  | newTxn (n : Nat)
  /-- The local Paxos leader numbers a batch of generated copies. -/
  | generatedBatch (n : Nat)
deriving DecidableEq, Repr

section

variable (allNodesSize maxBatchSize : Nat)

/-- The counter of a machine goes on. -/
def draw (s : Ids) (n : Nat) : Ids :=
  { s with nextGuid := update s.nextGuid n (s.nextGuid n + 1) }

def next (s : Ids) : Event → Option Ids
  | .beginEpoch n =>
      if n < allNodesSize then
        some { draw s n with
          batchNumber := update s.batchNumber n (some (getGUID allNodesSize n (s.nextGuid n)))
          txnIdOffset := update s.txnIdOffset n 0 }
      else none
  | .getTxn n =>
      (s.batchNumber n).bind fun batchNumber =>
        if s.txnIdOffset n < maxBatchSize then
          some { s with
            txnIdOffset := update s.txnIdOffset n (s.txnIdOffset n + 1)
            clients := s.clients ++ [(batchNumber, s.txnIdOffset n)] }
        else none
  | .newTxn n =>
      if n < allNodesSize then
        some { draw s n with direct := s.direct ++ [getGUID allNodesSize n (s.nextGuid n)] }
      else none
  | .generatedBatch n => if n < allNodesSize then some (draw s n) else none

def machine : Machine Ids Event where
  init := {}
  next := next allNodesSize maxBatchSize

/-- The ids of all transactions created so far. -/
def ids (s : Ids) : List Nat :=
  s.clients.map (fun p => clientTxnId maxBatchSize p.1 p.2) ++ s.direct

/-- No number is cut: a GUID fits `uint64`, the number of a client's transaction
the `int` of `GetTxn`. -/
def Fits (s : Ids) : Event → Prop
  | .beginEpoch n | .newTxn n | .generatedBatch n =>
      1 + n + allNodesSize * s.nextGuid n < UInt64.size
  | .getTxn n =>
      ∀ batchNumber ∈ s.batchNumber n,
        batchNumber * maxBatchSize + s.txnIdOffset n < 2147483648

/-- The counter of its machine has passed a number; all counters start at 1000. -/
def Passed (s : Ids) (g : Nat) : Prop :=
  1 + 1000 * allNodesSize ≤ g ∧ (g - 1) / allNodesSize < s.nextGuid ((g - 1) % allNodesSize)

instance (s : Ids) (g : Nat) : Decidable (Passed allNodesSize s g) :=
  inferInstanceAs (Decidable (_ ∧ _))

/-- The counters keep the two kinds of ids apart: a GUID is taken for an id while no
counter has passed the batch number that gives such ids, and the number of a client's
transaction while no counter has passed it. With batches of one, the numbers are GUIDs
themselves. -/
def Clear (s : Ids) : Event → Prop
  | .getTxn n => maxBatchSize = 1 ∨ ∀ batchNumber ∈ s.batchNumber n,
      ¬ Passed allNodesSize s (batchNumber * maxBatchSize + s.txnIdOffset n)
  | .newTxn n => ¬ Passed allNodesSize s (getGUID allNodesSize n (s.nextGuid n) / maxBatchSize)
  | _ => True

instance (s : Ids) (e : Event) : Decidable (Fits allNodesSize maxBatchSize s e) :=
  match e with
  | .beginEpoch _ | .newTxn _ | .generatedBatch _ => inferInstanceAs (Decidable (_ < _))
  | .getTxn _ => inferInstanceAs (Decidable (∀ _ ∈ _, _))

instance (s : Ids) (e : Event) : Decidable (Clear allNodesSize maxBatchSize s e) :=
  match e with
  | .getTxn _ => inferInstanceAs (Decidable (_ ∨ ∀ _ ∈ _, _))
  | .newTxn _ => inferInstanceAs (Decidable (¬ _))
  | .beginEpoch _ | .generatedBatch _ => isTrue trivial

end

/-! ## GUIDs -/

section

variable {allNodesSize maxBatchSize : Nat} {s s' : Ids} {n m k j g : Nat}

/-- Different machines, and one machine at different times, have different
numbers. -/
theorem number_inj (hn : n < allNodesSize) (hm : m < allNodesSize)
    (h : 1 + n + allNodesSize * k = 1 + m + allNodesSize * j) : n = m ∧ k = j := by
  have h' : n + allNodesSize * k = m + allNodesSize * j := by omega
  have hmod := congrArg (· % allNodesSize) h'
  simp only [Nat.add_mul_mod_self_left, Nat.mod_eq_of_lt hn, Nat.mod_eq_of_lt hm] at hmod
  subst hmod
  exact ⟨rfl, Nat.eq_of_mul_eq_mul_left (by omega : 0 < allNodesSize) (by omega)⟩

/-- A number that a machine has drawn. -/
def DrawnAt (allNodesSize : Nat) (s : Ids) (n g : Nat) : Prop :=
  n < allNodesSize ∧ ∃ k < s.nextGuid n, 1000 ≤ k ∧ g = 1 + n + allNodesSize * k

theorem DrawnAt.unique (h : DrawnAt allNodesSize s n g) (h' : DrawnAt allNodesSize s m g) :
    n = m := by
  obtain ⟨hn, k, -, -, rfl⟩ := h
  obtain ⟨hm, j, -, -, heq⟩ := h'
  exact (number_inj hn hm heq).1

theorem DrawnAt.mono (h : DrawnAt allNodesSize s n g)
    (hle : ∀ m, s.nextGuid m ≤ s'.nextGuid m) : DrawnAt allNodesSize s' n g := by
  obtain ⟨hn, k, hk, hstart, rfl⟩ := h
  exact ⟨hn, k, Nat.lt_of_lt_of_le hk (hle n), hstart, rfl⟩

theorem nextGuid_draw (m : Nat) : s.nextGuid m ≤ (draw s n).nextGuid m := by
  show _ ≤ update s.nextGuid n (s.nextGuid n + 1) m
  by_cases hm : m = n
  · subst hm
    rw [update_self]
    omega
  · exact Nat.le_of_eq (update_of_ne hm ..).symm

theorem drawnAt_new (hn : n < allNodesSize) (hstart : 1000 ≤ s.nextGuid n)
    (hfits : 1 + n + allNodesSize * s.nextGuid n < UInt64.size) :
    DrawnAt allNodesSize (draw s n) n (getGUID allNodesSize n (s.nextGuid n)) := by
  refine ⟨hn, s.nextGuid n, ?_, hstart, Nat.mod_eq_of_lt hfits⟩
  show _ < update s.nextGuid n (s.nextGuid n + 1) n
  rw [update_self]
  omega

/-- What a machine draws has not been drawn. -/
theorem notDrawn_new (hn : n < allNodesSize)
    (hfits : 1 + n + allNodesSize * s.nextGuid n < UInt64.size) :
    ¬ DrawnAt allNodesSize s m (getGUID allNodesSize n (s.nextGuid n)) := by
  rintro ⟨hm, k, hk, -, heq⟩
  rw [getGUID, Nat.mod_eq_of_lt hfits] at heq
  obtain ⟨rfl, rfl⟩ := number_inj hn hm heq
  omega

/-! ## The ids -/

/-- All numbers have been drawn, and the offsets of an epoch go up. -/
structure Inv (allNodesSize maxBatchSize : Nat) (s : Ids) : Prop where
  started : ∀ n, 1000 ≤ s.nextGuid n
  direct : ∀ g ∈ s.direct, ∃ n, DrawnAt allNodesSize s n g
  directNodup : s.direct.Nodup
  batches : ∀ n b, s.batchNumber n = some b → DrawnAt allNodesSize s n b
  batchesApart : ∀ n b, s.batchNumber n = some b → b ∉ s.direct
  clients : ∀ p ∈ s.clients, p.2 < maxBatchSize ∧ p.1 * maxBatchSize + p.2 < 2147483648 ∧
    ∃ n, DrawnAt allNodesSize s n p.1
  offsets : ∀ n b, s.batchNumber n = some b → ∀ o, (b, o) ∈ s.clients → o < s.txnIdOffset n
  clientsNodup : s.clients.Nodup

theorem inv_init : Inv allNodesSize maxBatchSize {} where
  started _ := Nat.le_refl _
  direct _ h := (List.not_mem_nil h).elim
  directNodup := List.nodup_nil
  batches _ _ h := by cases h
  batchesApart _ _ h := by cases h
  clients _ h := (List.not_mem_nil h).elim
  offsets _ _ h := by cases h
  clientsNodup := List.nodup_nil

theorem Inv.draw (h : Inv allNodesSize maxBatchSize s) (n : Nat) :
    Inv allNodesSize maxBatchSize (draw s n) where
  started m := Nat.le_trans (h.started m) (nextGuid_draw m)
  direct g hg := by
    obtain ⟨m, hd⟩ := h.direct g hg
    exact ⟨m, hd.mono nextGuid_draw⟩
  directNodup := h.directNodup
  batches m b hb := (h.batches m b hb).mono nextGuid_draw
  batchesApart := h.batchesApart
  clients p hp := by
    obtain ⟨ho, hfits, m, hd⟩ := h.clients p hp
    exact ⟨ho, hfits, m, hd.mono nextGuid_draw⟩
  offsets := h.offsets
  clientsNodup := h.clientsNodup

/-- Every step in which no number is cut. -/
theorem inv_step {e : Event} (h : Inv allNodesSize maxBatchSize s)
    (hfits : Fits allNodesSize maxBatchSize s e)
    (hn : next allNodesSize maxBatchSize s e = some s') : Inv allNodesSize maxBatchSize s' := by
  cases e with
  | beginEpoch n =>
      simp only [next, Option.ite_none_right_eq_some, Option.some.injEq] at hn
      obtain ⟨hlt, rfl⟩ := hn
      have hdraw := h.draw n
      refine ⟨hdraw.started, hdraw.direct, h.directNodup, fun m b hb => ?_, fun m b hb hg => ?_,
        hdraw.clients, fun m b hb o ho => ?_, h.clientsNodup⟩
      · by_cases hm : m = n
        · subst hm
          simp only [update_self, Option.some.injEq] at hb
          subst hb
          exact drawnAt_new hlt (h.started m) hfits
        · simp only [update_of_ne hm] at hb
          exact hdraw.batches m b hb
      · by_cases hm : m = n
        · subst hm
          simp only [update_self, Option.some.injEq] at hb
          subst hb
          obtain ⟨j, hd⟩ := h.direct _ hg
          exact notDrawn_new hlt hfits hd
        · simp only [update_of_ne hm] at hb
          exact h.batchesApart m b hb hg
      · by_cases hm : m = n
        · -- no transaction has the new batch number yet
          subst hm
          simp only [update_self, Option.some.injEq] at hb
          subst hb
          obtain ⟨-, -, j, hd⟩ := h.clients _ ho
          exact (notDrawn_new hlt hfits hd).elim
        · simp only [update_of_ne hm] at hb ⊢
          exact h.offsets m b hb o ho
  | getTxn n =>
      simp only [next, Option.bind_eq_some_iff, Option.ite_none_right_eq_some,
        Option.some.injEq] at hn
      obtain ⟨b, hb, hlt, rfl⟩ := hn
      refine ⟨h.started, h.direct, h.directNodup, h.batches, h.batchesApart, fun p hp => ?_,
        fun m b' hb' o ho => ?_, ?_⟩
      · rcases List.mem_append.mp hp with hp | hp
        · exact h.clients p hp
        · rw [List.mem_singleton.mp hp]
          exact ⟨hlt, hfits b hb, n, h.batches n b hb⟩
      · rcases List.mem_append.mp ho with ho | ho
        · have hold := h.offsets m b' hb' o ho
          show o < update s.txnIdOffset n (s.txnIdOffset n + 1) m
          by_cases hm : m = n
          · subst hm
            rw [update_self]
            omega
          · rw [update_of_ne hm]
            exact hold
        · obtain ⟨rfl, rfl⟩ := Prod.mk.inj (List.mem_singleton.mp ho)
          have hm : m = n := (h.batches m b' hb').unique (h.batches n b' hb)
          subst hm
          show s.txnIdOffset m < update s.txnIdOffset m (s.txnIdOffset m + 1) m
          rw [update_self]
          omega
      · refine List.nodup_append.mpr ⟨h.clientsNodup, List.nodup_singleton _, ?_⟩
        intro p hp q hq heq
        rw [heq, List.mem_singleton.mp hq] at hp
        exact Nat.lt_irrefl _ (h.offsets n b hb _ hp)
  | newTxn n =>
      simp only [next, Option.ite_none_right_eq_some, Option.some.injEq] at hn
      obtain ⟨hlt, rfl⟩ := hn
      have hdraw := h.draw n
      refine ⟨hdraw.started, fun g hg => ?_, ?_, hdraw.batches, fun m b hb hg => ?_, hdraw.clients,
        h.offsets, h.clientsNodup⟩
      · rcases List.mem_append.mp hg with hg | hg
        · exact hdraw.direct g hg
        · rw [List.mem_singleton.mp hg]
          exact ⟨n, drawnAt_new hlt (h.started n) hfits⟩
      · refine List.nodup_append.mpr ⟨h.directNodup, List.nodup_singleton _, ?_⟩
        intro g hg g' hg' heq
        rw [heq, List.mem_singleton.mp hg'] at hg
        obtain ⟨m, hd⟩ := h.direct _ hg
        exact notDrawn_new hlt hfits hd
      · rcases List.mem_append.mp hg with hg | hg
        · exact h.batchesApart m b hb hg
        · rw [List.mem_singleton.mp hg] at hb
          exact notDrawn_new hlt hfits (h.batches m _ hb)
  | generatedBatch n =>
      simp only [next, Option.ite_none_right_eq_some, Option.some.injEq] at hn
      obtain ⟨-, rfl⟩ := hn
      exact h.draw n

/-- The number of a client's transaction that fits is its id. -/
theorem clientTxnId_eq {b o : Nat} (h : b * maxBatchSize + o < 2147483648) :
    clientTxnId maxBatchSize b o = b * maxBatchSize + o := by
  have hlow : (b * maxBatchSize + o) % UInt32.size = b * maxBatchSize + o :=
    Nat.mod_eq_of_lt (Nat.lt_trans h (by decide))
  rw [clientTxnId, hlow]
  exact if_pos h

/-- Batch number and offset are those of the id. -/
theorem clientTxnId_inv {b o : Nat} (ho : o < maxBatchSize)
    (h : b * maxBatchSize + o < 2147483648) :
    (clientTxnId maxBatchSize b o / maxBatchSize, clientTxnId maxBatchSize b o % maxBatchSize) =
      (b, o) := by
  rw [clientTxnId_eq h]
  have hpos : 0 < maxBatchSize := by omega
  have hdiv : (b * maxBatchSize + o) / maxBatchSize = b := by
    rw [Nat.add_comm, Nat.add_mul_div_right _ _ hpos, Nat.div_eq_of_lt ho, Nat.zero_add]
  have hmod : (b * maxBatchSize + o) % maxBatchSize = o := by
    rw [Nat.add_comm, Nat.add_mul_mod_self_right, Nat.mod_eq_of_lt ho]
  rw [hdiv, hmod]

/-- The ids are distinct unless a GUID is the number of a client's transaction. -/
theorem Inv.nodup_iff (h : Inv allNodesSize maxBatchSize s) :
    (ids maxBatchSize s).Nodup ↔
      ∀ g ∈ s.direct, (g / maxBatchSize, g % maxBatchSize) ∉ s.clients := by
  have hinv : ∀ p ∈ s.clients, (clientTxnId maxBatchSize p.1 p.2 / maxBatchSize,
      clientTxnId maxBatchSize p.1 p.2 % maxBatchSize) = p := fun p hp =>
    clientTxnId_inv (h.clients p hp).1 (h.clients p hp).2.1
  have hclients : (s.clients.map fun p => clientTxnId maxBatchSize p.1 p.2).Nodup := by
    refine h.clientsNodup.map_on fun p hp q hq heq => ?_
    rw [← hinv p hp, ← hinv q hq, heq]
  rw [ids, List.nodup_append]
  constructor
  · rintro ⟨-, -, hapart⟩ g hg hp
    have hnumber : clientTxnId maxBatchSize (g / maxBatchSize) (g % maxBatchSize) = g := by
      rw [clientTxnId_eq (h.clients _ hp).2.1, Nat.mul_comm]
      exact Nat.div_add_mod g maxBatchSize
    exact hapart _ (List.mem_map_of_mem hp) g hg hnumber
  · intro hapart
    refine ⟨hclients, h.directNodup, fun id hid g hg heq => ?_⟩
    obtain ⟨p, hp, rfl⟩ := List.mem_map.mp hid
    refine hapart g hg ?_
    rw [← heq, hinv p hp]
    exact hp

end

end Calvin.TxnIds
