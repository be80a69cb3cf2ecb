import Mathlib.Data.List.Basic
import Mathlib.Data.List.Nodup
import Mathlib.Logic.Function.Basic

/-!
# Hash tables with chained buckets

A table of buckets, each a list of entries searched from the front. No key
occurs twice in a bucket, and this is part of the type: an entry that is erased
is gone. `Keyed` says that each entry stands in the bucket of its key; the
operations keep it.
-/

namespace Calvin.Lib

open Function

/-- A chained hash table over a hash function. -/
structure BucketTable {κ : Type} (hash : κ → Nat) (β : Type) where
  buckets : Nat → List (κ × β)
  nodup : ∀ b, ((buckets b).map Prod.fst).Nodup

namespace BucketTable

variable {κ β : Type} [DecidableEq κ] {hash : κ → Nat}

/-- The entry of a key in a bucket. -/
def lookup (k : κ) : List (κ × β) → Option β
  | [] => none
  | e :: rest => if e.1 = k then some e.2 else lookup k rest

/-- Replace the entry of a key, or append one. -/
def put (k : κ) (v : β) : List (κ × β) → List (κ × β)
  | [] => [(k, v)]
  | e :: rest => if e.1 = k then (k, v) :: rest else e :: put k v rest

/-- Remove the entry of a key. -/
def remove (k : κ) : List (κ × β) → List (κ × β)
  | [] => []
  | e :: rest => if e.1 = k then rest else e :: remove k rest

theorem lookup_put (k k' : κ) (v : β) (l : List (κ × β)) :
    lookup k' (put k v l) = if k = k' then some v else lookup k' l := by
  induction l with
  | nil => simp [put, lookup]
  | cons e rest ih =>
      by_cases he : e.1 = k
      · by_cases hk : k = k' <;> simp [put, lookup, he, hk]
      · by_cases he' : e.1 = k'
        · have hk : k ≠ k' := fun h => he (he'.trans h.symm)
          simp [put, lookup, he', hk, Ne.symm hk]
        · simp [put, lookup, he, he', ih]

theorem lookup_eq_none {k : κ} {l : List (κ × β)} : lookup k l = none ↔ k ∉ l.map Prod.fst := by
  induction l with
  | nil => simp [lookup]
  | cons e rest ih =>
      by_cases he : e.1 = k
      · simp [lookup, he]
      · simp [lookup, he, ih, Ne.symm he]

theorem lookup_remove (k k' : κ) (l : List (κ × β)) (hl : (l.map Prod.fst).Nodup) :
    lookup k' (remove k l) = if k = k' then none else lookup k' l := by
  induction l with
  | nil => simp [remove, lookup]
  | cons e rest ih =>
      rw [List.map_cons, List.nodup_cons] at hl
      by_cases he : e.1 = k
      · by_cases hk : k = k'
        · subst hk
          simp only [remove, he, if_true]
          exact lookup_eq_none.mpr (he ▸ hl.1)
        · simp [remove, lookup, he, hk]
      · by_cases he' : e.1 = k'
        · have hk : k ≠ k' := fun h => he (he'.trans h.symm)
          simp [remove, lookup, he', hk, Ne.symm hk]
        · simp only [remove, he, lookup, he', if_false]
          exact ih hl.2

theorem lookup_eq_some_of_mem {l : List (κ × β)} (hl : (l.map Prod.fst).Nodup) {e : κ × β}
    (h : e ∈ l) : lookup e.1 l = some e.2 := by
  induction l with
  | nil => exact (List.not_mem_nil h).elim
  | cons x rest ih =>
      rw [List.map_cons, List.nodup_cons] at hl
      rcases List.mem_cons.mp h with rfl | h
      · simp [lookup]
      · have hne : x.1 ≠ e.1 := fun hx => hl.1 (hx ▸ List.mem_map_of_mem h)
        rw [lookup, if_neg hne]
        exact ih hl.2 h

theorem mem_put {k : κ} {v : β} {l : List (κ × β)} {e : κ × β} (h : e ∈ put k v l) :
    e = (k, v) ∨ e ∈ l := by
  induction l with
  | nil => exact .inl (List.mem_singleton.mp h)
  | cons x rest ih =>
      rw [put] at h
      split at h
      · exact (List.mem_cons.mp h).imp_right (List.mem_cons_of_mem _)
      · rcases List.mem_cons.mp h with rfl | h
        · exact .inr List.mem_cons_self
        · exact (ih h).imp_right (List.mem_cons_of_mem _)

theorem keys_put (k : κ) (v : β) (l : List (κ × β)) :
    (put k v l).map Prod.fst =
      if k ∈ l.map Prod.fst then l.map Prod.fst else l.map Prod.fst ++ [k] := by
  induction l with
  | nil => simp [put]
  | cons e rest ih =>
      by_cases he : e.1 = k
      · simp [put, he]
      · simp only [put, he, if_false, List.map_cons, ih, List.mem_cons, Ne.symm he, false_or]
        split <;> rfl

theorem nodup_put {k : κ} {v : β} {l : List (κ × β)} (hl : (l.map Prod.fst).Nodup) :
    ((put k v l).map Prod.fst).Nodup := by
  rw [keys_put]
  split
  · exact hl
  · rename_i h
    exact List.nodup_append.mpr ⟨hl, List.nodup_singleton k, by
      intro a ha b hb
      rw [List.mem_singleton.mp hb]
      exact fun hab => h (hab ▸ ha)⟩

theorem remove_sublist (k : κ) (l : List (κ × β)) : (remove k l).Sublist l := by
  induction l with
  | nil => exact List.Sublist.slnil
  | cons e rest ih =>
      by_cases he : e.1 = k
      · rw [remove, if_pos he]
        exact List.sublist_cons_self e rest
      · rw [remove, if_neg he]
        exact ih.cons_cons e

/-- The empty table. -/
def empty : BucketTable hash β where
  buckets _ := []
  nodup _ := List.nodup_nil

/-- The entry of a key. -/
def find? (t : BucketTable hash β) (k : κ) : Option β :=
  lookup k (t.buckets (hash k))

/-- Replace the entry of a key where it stands, or append one to its bucket. -/
def insert (t : BucketTable hash β) (k : κ) (v : β) : BucketTable hash β where
  buckets := update t.buckets (hash k) (put k v (t.buckets (hash k)))
  nodup b := by
    by_cases hb : b = hash k
    · subst hb
      rw [update_self]
      exact nodup_put (t.nodup _)
    · rw [update_of_ne hb]
      exact t.nodup b

/-- Remove the entry of a key. -/
def erase (t : BucketTable hash β) (k : κ) : BucketTable hash β where
  buckets := update t.buckets (hash k) (remove k (t.buckets (hash k)))
  nodup b := by
    by_cases hb : b = hash k
    · subst hb
      rw [update_self]
      exact ((remove_sublist k _).map Prod.fst).nodup (t.nodup _)
    · rw [update_of_ne hb]
      exact t.nodup b

@[simp] theorem find?_empty (k : κ) : (empty : BucketTable hash β).find? k = none := rfl

@[simp] theorem find?_insert (t : BucketTable hash β) (k k' : κ) (v : β) :
    (t.insert k v).find? k' = if k = k' then some v else t.find? k' := by
  by_cases hb : hash k' = hash k
  · simp only [find?, insert, hb, update_self, lookup_put]
  · have hk : k ≠ k' := fun h => hb (by rw [h])
    simp only [find?, insert, update_of_ne hb, if_neg hk]

@[simp] theorem find?_erase (t : BucketTable hash β) (k k' : κ) :
    (t.erase k).find? k' = if k = k' then none else t.find? k' := by
  by_cases hb : hash k' = hash k
  · simp only [find?, erase, hb, update_self]
    exact lookup_remove k k' _ (t.nodup _)
  · have hk : k ≠ k' := fun h => hb (by rw [h])
    simp only [find?, erase, update_of_ne hb, if_neg hk]

/-! ## Entries in the buckets of their keys -/

/-- Each entry stands in the bucket of its key. -/
def Keyed (t : BucketTable hash β) : Prop :=
  ∀ b, ∀ e ∈ t.buckets b, hash e.1 = b

omit [DecidableEq κ] in
theorem keyed_empty : Keyed (empty : BucketTable hash β) :=
  fun _ _ h => (List.not_mem_nil h).elim

namespace Keyed

variable {t : BucketTable hash β}

theorem insert (h : Keyed t) (k : κ) (v : β) : Keyed (t.insert k v) := by
  intro b e he
  change e ∈ update t.buckets (hash k) (put k v (t.buckets (hash k))) b at he
  by_cases hb : b = hash k
  · rw [hb, update_self] at he
    rw [hb]
    rcases mem_put he with rfl | he
    · rfl
    · exact h _ e he
  · rw [update_of_ne hb] at he
    exact h b e he

theorem erase (h : Keyed t) (k : κ) : Keyed (t.erase k) := by
  intro b e he
  change e ∈ update t.buckets (hash k) (remove k (t.buckets (hash k))) b at he
  by_cases hb : b = hash k
  · rw [hb, update_self] at he
    rw [hb]
    exact h _ e ((remove_sublist k _).subset he)
  · rw [update_of_ne hb] at he
    exact h b e he

/-- An entry that stands anywhere is the one that is found. -/
theorem find?_of_mem (h : Keyed t) {b : Nat} {e : κ × β} (he : e ∈ t.buckets b) :
    t.find? e.1 = some e.2 := by
  have hb := h b e he
  rw [find?, hb]
  exact lookup_eq_some_of_mem (t.nodup b) he

end Keyed

end BucketTable

end Calvin.Lib
