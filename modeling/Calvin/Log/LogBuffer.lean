import Calvin.Log.LocalMemLog

/-!
# The array behind the log

`LocalMemLog` and `LocalMemLogReader::Next` (`log/local_mem_log.cc`) on the array
that the entries stand in: `size_` cells of it are filled, `allocated_` may be
written, and it is doubled when these meet. A cell is `none` until it is written;
an access outside of its bounds has no result, and so has a failed `CHECK`.

* `LogBuffer.Valid.append`, `LogBuffer.Valid.next`: on a valid array, `Append` and
  `Next` do what they do on the list of the entries, with every access in bounds.
-/

namespace Calvin

open Function

structure LogBuffer where
  maxVersion : Nat := 0
  size : Nat := 0
  allocated : Nat := 1024 * 1024
  entries : Nat → Option (Nat × Sequence) := fun _ => none

namespace LogBuffer

/-- `entries_[i] = e`, for the cells that are allocated. -/
def write (log : LogBuffer) (i : Nat) (e : Nat × Sequence) : Option LogBuffer :=
  if i < log.allocated then some { log with entries := update log.entries i (some e) } else none

/-- `entries_[i]`, for the cells below `size_`. -/
def read (log : LogBuffer) (i : Nat) : Option (Nat × Sequence) :=
  if i < log.size then log.entries i else none

/-- The resizing in `Append`; the entries are kept by `realloc`. -/
def reserve (log : LogBuffer) : Option LogBuffer :=
  if log.allocated ≤ log.size then
    if log.allocated = log.size then some { log with allocated := log.allocated * 2 } else none
  else some log

/-- `Append`. -/
def append (log : LogBuffer) (version : Nat) (entry : Sequence) : Option LogBuffer :=
  if log.maxVersion ≤ version then
    log.reserve.bind fun log =>
      (log.write log.size (version, entry)).map fun log =>
        { log with size := log.size + 1, maxVersion := version }
  else none

end LogBuffer

namespace LogReader

/-- `Next`: the reader afterwards and the entry it exposes; `(r, none)` is the
answer `false`. -/
def nextIn (r : LogReader) (log : LogBuffer) :
    Option (LogReader × Option (Nat × Sequence)) :=
  if log.size = 0 ∨ (r.started ∧ r.offset = log.size - 1) then
    some (r, none)
  else
    let offset := if r.started then r.offset + 1 else 0
    (log.read offset).map fun e => ({ started := true, offset }, some e)

/-- `Reset`. -/
def reset (r : LogReader) : LogReader := { r with started := false }

end LogReader

namespace LogBuffer

/-- The filled cells of the array are the entries of a log. -/
structure Valid (b : LogBuffer) (log : LocalMemLog) : Prop where
  maxVersion : b.maxVersion = log.maxVersion
  size : b.size = log.entries.length
  positive : 0 < b.allocated
  fits : b.size ≤ b.allocated
  cell : ∀ i < b.size, b.entries i = log.entries[i]?

theorem valid_init : Valid {} {} where
  maxVersion := rfl
  size := rfl
  positive := by
    show 0 < 1024 * 1024
    omega
  fits := Nat.zero_le _
  cell _ h := absurd h (Nat.not_lt_zero _)

namespace Valid

variable {b : LogBuffer} {log : LocalMemLog}

/-- After resizing there is a free cell. -/
theorem reserve (h : Valid b log) :
    ∃ b', b.reserve = some b' ∧ Valid b' log ∧ b'.size < b'.allocated := by
  have hfits := h.fits
  have hpositive := h.positive
  unfold LogBuffer.reserve
  by_cases hfull : b.allocated ≤ b.size
  · rw [if_pos hfull, if_pos (by omega)]
    refine ⟨_, rfl, ⟨h.maxVersion, h.size, ?_, ?_, h.cell⟩, ?_⟩
    · show 0 < b.allocated * 2
      omega
    · show b.size ≤ b.allocated * 2
      omega
    · show b.size < b.allocated * 2
      omega
  · rw [if_neg hfull]
    exact ⟨b, rfl, h, by omega⟩

/-- `Append` of a version that is not below the last one writes an allocated cell
and appends the entry. -/
theorem append (h : Valid b log) {version : Nat} (hv : log.maxVersion ≤ version)
    (entry : Sequence) : ∃ b', b.append version entry = some b' ∧
      Valid b' { maxVersion := version, entries := log.entries ++ [(version, entry)] } := by
  obtain ⟨b', hb', hvalid, hroom⟩ := h.reserve
  unfold LogBuffer.append
  rw [if_pos (by rwa [h.maxVersion]), hb', Option.bind_some, LogBuffer.write, if_pos hroom,
    Option.map_some]
  refine ⟨_, rfl, rfl, ?_, hvalid.positive, hroom, fun i hi => ?_⟩
  · show b'.size + 1 = (log.entries ++ [(version, entry)]).length
    rw [List.length_append, List.length_singleton, hvalid.size]
  · show update b'.entries b'.size (some (version, entry)) i = _
    rcases Nat.lt_or_eq_of_le (Nat.le_of_lt_succ hi) with hlt | rfl
    · rw [update_of_ne (Nat.ne_of_lt hlt), hvalid.cell i hlt,
        List.getElem?_append_left (by rwa [← hvalid.size])]
    · rw [update_self, hvalid.size, List.getElem?_concat_length]

/-- `Next` of a reader that is not past the end reads a filled cell, and answers
as on the list. -/
theorem next (h : Valid b log) {r : LogReader} (hr : r.position ≤ log.entries.length) :
    r.nextIn b = some (match r.next log with
      | none => (r, none)
      | some (r', e) => (r', some e)) := by
  have hsize := h.size
  rcases Nat.lt_or_eq_of_le hr with hlt | heq
  · -- the cell read is the one at the reader's position
    have hcell := h.cell r.position (by omega)
    rw [List.getElem?_eq_getElem hlt] at hcell
    have hahead : ¬ (b.size = 0 ∨ (r.started ∧ r.offset = b.size - 1)) := by
      rintro (h0 | ⟨hs, ho⟩)
      · omega
      · simp only [LogReader.position, hs, if_true] at hlt
        omega
    have hpos : (if r.started then r.offset + 1 else 0) = r.position := rfl
    rw [LogReader.next_of_lt hlt]
    unfold LogReader.nextIn
    dsimp only
    rw [if_neg hahead, hpos, LogBuffer.read, if_pos (by omega), hcell, Option.map_some]
  · rw [LogReader.next_of_eq heq]
    unfold LogReader.nextIn
    rw [if_pos]
    rw [hsize]
    unfold LogReader.position at heq
    split at heq
    case isTrue hs => exact .inr ⟨hs, by omega⟩
    case isFalse => exact .inl heq.symm

end Valid

end LogBuffer

end Calvin
