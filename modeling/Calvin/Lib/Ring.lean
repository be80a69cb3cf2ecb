import Mathlib.Data.List.Basic

/-!
# Ring buffers

A queue in an array: its items stand from a front index on, and go on at the
start of the array behind its end. One cell stays free, so that a full buffer and
an empty one differ in the indices.

* `Ring.Holds` says which items the cells hold;
* `Holds.push`, `Holds.pop`, `Holds.moved`: what writing behind the last item,
  moving the front, and copying the items elsewhere do to it;
* `Holds.back_eq_front_iff`, `Holds.full_iff`, `Holds.count`: what the two indices
  say about the items.
-/

namespace Calvin.Lib.Ring

variable {α : Type}

/-- The cells from `front` on hold the items, with a free cell left. -/
structure Holds (cells : List α) (front : Nat) (items : List α) : Prop where
  front_lt : front < cells.length
  room : items.length < cells.length
  cell : ∀ i < items.length, cells[(front + i) % cells.length]? = items[i]?

/-- A sum of two indices wraps at most once. -/
theorem wrap {n a b : Nat} (ha : a < n) (hb : b ≤ n) :
    (a + b) % n = if a + b < n then a + b else a + b - n := by
  split
  case isTrue h => exact Nat.mod_eq_of_lt h
  case isFalse h =>
      rw [Nat.mod_eq_sub_mod (by omega)]
      exact Nat.mod_eq_of_lt (by omega)

namespace Holds

variable {cells items : List α} {front : Nat} {x : α}

theorem nil (h : front < cells.length) : Holds cells front [] where
  front_lt := h
  room := Nat.lt_of_le_of_lt (Nat.zero_le _) h
  cell _ hi := absurd hi (Nat.not_lt_zero _)

/-- Writing the cell behind the last item appends, as long as a cell is left. -/
theorem push (h : Holds cells front items) (hroom : items.length + 1 < cells.length) (x : α) :
    Holds (cells.set ((front + items.length) % cells.length) x) front (items ++ [x]) := by
  have hf := h.front_lt
  refine ⟨?_, ?_, fun i hi => ?_⟩
  · rwa [List.length_set]
  · rwa [List.length_set, List.length_append, List.length_singleton]
  · rw [List.length_append, List.length_singleton] at hi
    rw [List.length_set, List.getElem?_set]
    rcases Nat.lt_or_eq_of_le (Nat.le_of_lt_succ hi) with hlt | rfl
    · -- the earlier items stand in other cells
      have hne : (front + items.length) % cells.length ≠ (front + i) % cells.length := by
        rw [wrap hf (by omega), wrap hf (by omega)]
        split <;> split <;> omega
      rw [if_neg hne, h.cell i hlt, List.getElem?_append_left hlt]
    · have hlt : (front + items.length) % cells.length < cells.length :=
        Nat.mod_lt _ (by omega)
      rw [if_pos rfl, if_pos hlt]
      simp

/-- The front cell is the first item; the next front leaves the rest. -/
theorem pop (h : Holds cells front (x :: items)) :
    cells[front]? = some x ∧ Holds cells ((front + 1) % cells.length) items := by
  have hf := h.front_lt
  have hroom := h.room
  rw [List.length_cons] at hroom
  refine ⟨?_, Nat.mod_lt _ (by omega), by omega, fun i hi => ?_⟩
  · have hfirst := h.cell 0 (by simp)
    rwa [Nat.add_zero, Nat.mod_eq_of_lt hf] at hfirst
  · have hnext := h.cell (i + 1) (by rw [List.length_cons]; omega)
    rw [Nat.mod_add_mod, show front + 1 + i = front + (i + 1) by omega, hnext]
    simp

/-- Items that stand in a row are held from the start of the row on. -/
theorem moved {base : Nat} (hroom : items.length < cells.length)
    (hend : base + items.length < cells.length)
    (hcell : ∀ i < items.length, cells[base + i]? = items[i]?) : Holds cells base items where
  front_lt := by omega
  room := hroom
  cell i hi := by
    rw [Nat.mod_eq_of_lt (by omega)]
    exact hcell i hi

/-- The index behind the last item is the front one just if there is no item. -/
theorem back_eq_front_iff (h : Holds cells front items) :
    front = (front + items.length) % cells.length ↔ items = [] := by
  have hf := h.front_lt
  have hroom := h.room
  rw [wrap hf (by omega), ← List.length_eq_zero_iff]
  split <;> omega

/-- The index after that is the front one just if one cell is free. -/
theorem full_iff (h : Holds cells front items) :
    front = ((front + items.length) % cells.length + 1) % cells.length ↔
      items.length + 1 = cells.length := by
  have hf := h.front_lt
  have hroom := h.room
  rw [Nat.mod_add_mod, Nat.add_assoc, wrap hf (by omega)]
  split <;> omega

/-- The distance of the two indices is the number of items. -/
theorem count (h : Holds cells front items) :
    ((front + items.length) % cells.length + cells.length - front) % cells.length =
      items.length := by
  have hf := h.front_lt
  have hroom := h.room
  rw [wrap hf (by omega)]
  split
  · rw [show front + items.length + cells.length - front = items.length + cells.length by omega,
      Nat.add_mod_right, Nat.mod_eq_of_lt hroom]
  · rw [show front + items.length - cells.length + cells.length - front = items.length by omega,
      Nat.mod_eq_of_lt hroom]

end Holds

end Calvin.Lib.Ring
