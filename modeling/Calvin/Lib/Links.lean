import Mathlib.Data.List.Perm.Basic
import Mathlib.Logic.Function.Basic

/-!
# Links between parties

A link is the list of the messages under way from one party to another, and the
links of a system are a function of both. A message may be taken from any place
of a link.

* `cons_eraseIdx_perm`, `flatMap_eraseIdx_perm`: the messages before and after
  one is taken;
* `update_link_self`, `update_link_of_ne`: one link changes, the others stay;
* `apply_update_of_eq`: an update that keeps what is looked at.
-/

namespace Calvin.Lib

open Function

section

variable {α β : Type}

/-- A message taken out of a list. -/
theorem cons_eraseIdx_perm {xs : List α} {i : Nat} {x : α} (h : xs[i]? = some x) :
    (x :: xs.eraseIdx i).Perm xs := by
  obtain ⟨hi, rfl⟩ := List.getElem?_eq_some_iff.mp h
  exact List.getElem_cons_eraseIdx_perm hi

theorem flatMap_eraseIdx_perm {xs : List α} {i : Nat} {x : α} (h : xs[i]? = some x)
    (f : α → List β) : (xs.flatMap f).Perm (f x ++ (xs.eraseIdx i).flatMap f) := by
  have hp := (cons_eraseIdx_perm h).symm.flatMap_right f
  rwa [List.flatMap_cons] at hp

/-- With at most one message there is one order. -/
theorem eq_of_perm_of_length_le_one {xs ys : List α} (h : xs.Perm ys) (hle : ys.length ≤ 1) :
    xs = ys := by
  match ys, hle with
  | [], _ => exact h.eq_nil
  | [y], _ => exact h.eq_singleton

end

section

variable {α β γ : Type} [DecidableEq α]

theorem update_link_self [DecidableEq β] (link : α → β → γ) (a : α) (b : β) (v : γ) :
    update link a (update (link a) b v) a b = v := by
  rw [update_self, update_self]

theorem update_link_of_ne [DecidableEq β] {link : α → β → γ} {a a' : α} {b b' : β} {v : γ}
    (h : ¬ (a' = a ∧ b' = b)) : update link a (update (link a) b v) a' b' = link a' b' := by
  by_cases ha : a' = a
  · subst ha
    rw [update_self, update_of_ne fun hb => h ⟨rfl, hb⟩]
  · rw [update_of_ne ha]

/-- An update that keeps a part of the value. -/
theorem apply_update_of_eq (g : β → γ) {f : α → β} {a : α} {v : β} (h : g v = g (f a)) (b : α) :
    g (update f a v b) = g (f b) := by
  by_cases hb : b = a
  · rw [hb, update_self, h]
  · rw [update_of_ne hb]

end

end Calvin.Lib
