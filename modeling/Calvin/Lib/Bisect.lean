import Mathlib.Order.Lattice
import Mathlib.Data.Nat.Basic

/-!
# Bisection

A search for a value between two indexes of a sequence that stops early when it
hits the value. It narrows an open interval: while a value lies strictly
between the values of its two ends, it keeps lying there (`bisect_between`), so
that in an increasing sequence everything before the upper end is at last below
it (`below_of_lower`).
-/

namespace Calvin.Lib

/-- How the search ends: at an index that has the value, or with an interval
that has no index in it. -/
inductive Found
  | at (i : Nat)
  | between (min max : Nat)
deriving DecidableEq, Repr

section

variable {α : Type} [LinearOrder α]

/-- Halve the interval until nothing is left in it. -/
def bisect (v : Nat → α) (target : α) (min max : Nat) : Found :=
  if min + 1 < max then
    let mid := (min + max) / 2
    if v mid = target then .at mid
    else if target < v mid then bisect v target min mid
    else bisect v target mid max
  else .between min max
termination_by max - min

variable {v : Nat → α} {target : α}

/-- An index the search stops at early has the value and lies in the interval. -/
theorem bisect_at {min max i : Nat} (h : bisect v target min max = .at i) :
    v i = target ∧ min < i ∧ i < max := by
  induction min, max using bisect.induct v target with
  | case1 min max hlt mid heq =>
      rw [bisect, if_pos hlt, if_pos heq, Found.at.injEq] at h
      subst h
      refine ⟨heq, ?_, ?_⟩ <;> omega
  | case2 min max hlt mid hne hbelow ih =>
      rw [bisect, if_pos hlt, if_neg hne, if_pos hbelow] at h
      obtain ⟨hi, hlow, hhigh⟩ := ih h
      exact ⟨hi, hlow, by omega⟩
  | case3 min max hlt mid hne hbelow ih =>
      rw [bisect, if_pos hlt, if_neg hne, if_neg hbelow] at h
      obtain ⟨hi, hlow, hhigh⟩ := ih h
      exact ⟨hi, by omega, hhigh⟩
  | case4 min max hlt =>
      rw [bisect, if_neg hlt] at h
      cases h

/-- The ends only move towards each other, each over indexes whose values lie on
its own side, and stop when no index is left between them. -/
theorem bisect_between {min max a b : Nat} (h : bisect v target min max = .between a b) :
    min ≤ a ∧ b ≤ max ∧ b ≤ a + 1 ∧ (min < max → a < b) ∧
      (v min < target → v a < target) ∧ (target < v max → target < v b) := by
  induction min, max using bisect.induct v target with
  | case1 min max hlt mid heq =>
      rw [bisect, if_pos hlt, if_pos heq] at h
      cases h
  | case2 min max hlt mid hne hbelow ih =>
      rw [bisect, if_pos hlt, if_neg hne, if_pos hbelow] at h
      obtain ⟨ha, hb, hab, hlt', hlow, hhigh⟩ := ih h
      exact ⟨ha, by omega, hab, fun _ => hlt' (by omega), hlow, fun _ => hhigh hbelow⟩
  | case3 min max hlt mid hne hbelow ih =>
      rw [bisect, if_pos hlt, if_neg hne, if_neg hbelow] at h
      obtain ⟨ha, hb, hab, hlt', hlow, hhigh⟩ := ih h
      have habove : v mid < target := lt_of_le_of_ne (not_lt.mp hbelow) hne
      exact ⟨by omega, hb, hab, fun _ => hlt' (by omega), fun _ => hlow habove, hhigh⟩
  | case4 min max hlt =>
      rw [bisect, if_neg hlt, Found.between.injEq] at h
      obtain ⟨rfl, rfl⟩ := h
      exact ⟨le_rfl, le_rfl, by omega, fun h => h, fun h => h, fun h => h⟩

/-- In an increasing sequence the values up to the lower end are below the one
searched for if the value there is. -/
theorem below_of_lower {n a i : Nat} (hv : ∀ i j, i < j → j < n → v i < v j) (ha : a < n)
    (hlow : v a < target) (hi : i ≤ a) : v i < target := by
  rcases Nat.lt_or_eq_of_le hi with hlt | rfl
  · exact lt_trans (hv i a hlt ha) hlow
  · exact hlow

end

end Calvin.Lib
