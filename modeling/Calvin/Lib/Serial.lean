import Mathlib.Data.List.Basic
import Mathlib.Logic.Function.Basic

/-!
# Agreement of a store with a serial execution

A list of transactions is executed at a store, out of order and key by key. If
the writes of a key happen in list order, the store agrees with the serial
execution at every point that splits the transactions, for this key, into those
done and those not done.

* `Agrees`: the invariant;
* `agrees_init`, `Agrees.write`: it holds initially and is kept by a write that
  no later transaction has overtaken.
-/

namespace Calvin.Lib.Serial

open Function

variable {τ κ V : Type} (apply : (κ → V) → τ → κ → V)

/-- The store after the first `i` transactions, one after another. -/
def serialAt (init : κ → V) (txns : List τ) (i : Nat) : κ → V :=
  (txns.take i).foldl apply init

theorem serialAt_zero (init : κ → V) (txns : List τ) : serialAt apply init txns 0 = init := rfl

theorem serialAt_length (init : κ → V) (txns : List τ) :
    serialAt apply init txns txns.length = txns.foldl apply init := by
  rw [serialAt, List.take_length]

theorem serialAt_succ {init : κ → V} {txns : List τ} {i : Nat} {t : τ} (h : txns[i]? = some t) :
    serialAt apply init txns (i + 1) = apply (serialAt apply init txns i) t := by
  unfold serialAt
  rw [List.take_add_one, h, Option.toList_some, List.foldl_append]
  rfl

/-- Transaction `i` writes the key. -/
def Writes (writes : τ → κ → Prop) (txns : List τ) (i : Nat) (k : κ) : Prop :=
  ∃ t, txns[i]? = some t ∧ writes t k

/-- The transactions with a number in between do not write the key. -/
theorem serialAt_eq {writes : τ → κ → Prop}
    (hframe : ∀ s t k, ¬ writes t k → apply s t k = s k) {init : κ → V} {txns : List τ} {k : κ}
    {i j : Nat} (hij : i ≤ j) (h : ∀ l, i ≤ l → l < j → ¬ Writes writes txns l k) :
    serialAt apply init txns j k = serialAt apply init txns i k := by
  induction hij with
  | refl => rfl
  | @step j hij ih =>
      have hij' : i ≤ j := hij
      rw [← ih fun l hl hlj => h l hl (by omega)]
      cases ht : txns[j]? with
      | none =>
          have hlen : txns.length ≤ j := List.getElem?_eq_none_iff.mp ht
          unfold serialAt
          rw [List.take_of_length_le hlen, List.take_of_length_le (by omega)]
      | some t =>
          rw [serialAt_succ apply ht]
          exact hframe _ _ _ fun hw => h j hij' (by omega) ⟨t, ht, hw⟩

/-- The store agrees with the serial execution: if the writers of a key below
`i` are done with it, and nothing from `i` on is, it has the value after the
first `i` transactions. -/
def Agrees (writes : τ → κ → Prop) (init : κ → V) (txns : List τ) (done : Nat → κ → Prop)
    (store : κ → V) : Prop :=
  ∀ k i, (∀ j, j < i → Writes writes txns j k → done j k) → (∀ j, i ≤ j → ¬ done j k) →
    store k = serialAt apply init txns i k

variable {apply} {writes : τ → κ → Prop} {init : κ → V} {txns : List τ}

theorem agrees_init (hframe : ∀ s t k, ¬ writes t k → apply s t k = s k) :
    Agrees apply writes init txns (fun _ _ => False) init := by
  intro k i hbelow _
  have h0 : serialAt apply init txns i k = serialAt apply init txns 0 k :=
    serialAt_eq apply hframe (Nat.zero_le i) fun l _ hl hw => hbelow l hl hw
  rw [h0, serialAt_zero]

/-- A transaction that writes the serial values of some of its keys keeps the
agreement, if no later transaction has written them. -/
theorem Agrees.writeMany (hframe : ∀ s t k, ¬ writes t k → apply s t k = s k)
    {done : Nat → κ → Prop} {store store' : κ → V}
    (h : Agrees apply writes init txns done store) {j : Nat} (ks : κ → Prop)
    (hnew : ∀ k, ks k → store' k = serialAt apply init txns (j + 1) k)
    (hold : ∀ k, ¬ ks k → store' k = store k) (hlater : ∀ k, ks k → ∀ l, j < l → ¬ done l k) :
    Agrees apply writes init txns (fun l k => done l k ∨ (l = j ∧ ks k)) store' := by
  intro k i hbelow habove
  by_cases hk : ks k
  · rw [hnew k hk]
    -- `j` itself is done, so it is below `i`; between the two nothing is written
    have hji : j < i := by
      by_contra hge
      exact habove j (by omega) (.inr ⟨rfl, hk⟩)
    symm
    refine serialAt_eq apply hframe hji fun l hl hli hw => ?_
    rcases hbelow l hli hw with hd | ⟨rfl, -⟩
    · exact hlater k hk l hl hd
    · omega
  · rw [hold k hk]
    refine h k i (fun l hl hw => ?_) fun l hl hd => habove l hl (.inl hd)
    rcases hbelow l hl hw with hd | ⟨-, h'⟩
    · exact hd
    · exact absurd h' hk

/-- A write of the serial value keeps the agreement, if no later transaction has
written the key. -/
theorem Agrees.write [DecidableEq κ] (hframe : ∀ s t k, ¬ writes t k → apply s t k = s k)
    {done : Nat → κ → Prop} {store : κ → V} (h : Agrees apply writes init txns done store)
    {j : Nat} {k : κ} {v : V} (hv : v = serialAt apply init txns (j + 1) k)
    (hlater : ∀ l, j < l → ¬ done l k) :
    Agrees apply writes init txns (fun l k' => done l k' ∨ (l = j ∧ k' = k))
      (update store k v) := by
  refine Agrees.writeMany hframe h (j := j) (fun k' => k' = k) ?_ ?_ ?_
  · rintro k' rfl
    rw [update_self]
    exact hv
  · intro k' hk
    exact update_of_ne hk _ _
  · rintro k' rfl
    exact hlater

/-- The agreement depends on what is done only. -/
theorem Agrees.congr {done done' : Nat → κ → Prop} {store : κ → V}
    (h : Agrees apply writes init txns done store) (hd : ∀ j k, done j k ↔ done' j k) :
    Agrees apply writes init txns done' store := by
  intro k i hbelow habove
  exact h k i (fun j hj hw => (hd j k).mpr (hbelow j hj hw))
    fun j hj hdone => habove j hj ((hd j k).mp hdone)

end Calvin.Lib.Serial
