import Calvin.Common.Types
import Calvin.Lib.Bisect

/-!
# The in-memory log

`LocalMemLog` and its reader (`log/local_mem_log.cc`), as far as the two Paxos
variants use them (`Append`, and `Reset`/`Next` of a reader), and `Seek`. The
entry array is the list of its first `size_` entries; growing the array does not
show in it.
-/

namespace Calvin

open Lib

/-- `LocalMemLog`: the entries in append order, each with its version. -/
structure LocalMemLog where
  maxVersion : Nat := 0
  entries : List (Nat × Sequence) := []
deriving DecidableEq, Repr

namespace LocalMemLog

/-- `Append`; `none` is the failed `CHECK_GE(version, max_version_)`. -/
def append (log : LocalMemLog) (version : Nat) (entry : Sequence) : Option LocalMemLog :=
  if log.maxVersion ≤ version then
    some { maxVersion := version, entries := log.entries ++ [(version, entry)] }
  else
    none

/-- A series of calls of `Append`. -/
def appends (log : LocalMemLog) (es : List (Nat × Sequence)) : Option LocalMemLog :=
  es.foldlM (fun log e => log.append e.1 e.2) log

/-- `LastVersion`. -/
def lastVersion (log : LocalMemLog) : Nat := log.maxVersion

/-- `entries_[i]`, read below `size_` only. -/
def entry (log : LocalMemLog) (i : Nat) : Nat × Sequence := log.entries.getD i (0, [])

/-- The sequences of the log, in order. -/
def sequences (log : LocalMemLog) : List Sequence :=
  log.entries.map Prod.snd

theorem append_eq_some {log log' : LocalMemLog} {version : Nat} {entry : Sequence} :
    log.append version entry = some log' ↔
      log.maxVersion ≤ version ∧
        log' = { maxVersion := version, entries := log.entries ++ [(version, entry)] } := by
  unfold append
  by_cases h : log.maxVersion ≤ version
  · simp [h, eq_comm]
  · simp [h]

end LocalMemLog

/-- `LocalMemLogReader`: `offset` is meaningful once `started`. -/
structure LogReader where
  started : Bool := false
  offset : Nat := 0
deriving DecidableEq, Repr

namespace LogReader

/-- `Next`: advance if an entry follows, and expose it. -/
def next (r : LogReader) (log : LocalMemLog) : Option (LogReader × (Nat × Sequence)) :=
  if log.entries.length = 0 ∨ (r.started ∧ r.offset = log.entries.length - 1) then
    none
  else
    let offset := if r.started then r.offset + 1 else 0
    (log.entries[offset]?).map fun e => ({ started := true, offset }, e)

/-- `Seek`: the reader afterwards and, where the answer is `true`, the entry it
exposes; `none` is a failed `CHECK`. -/
def seek (r : LogReader) (log : LocalMemLog) (target : Nat) :
    Option (LogReader × Option (Nat × Sequence)) :=
  if target = 0 then
    none
  else if log.lastVersion < target then
    some (r, none)
  else
    let exposed offset := some ({ started := true, offset }, some (log.entry offset))
    let min := 0
    let max := log.entries.length - 1
    if (log.entry min).1 = target then exposed min
    else if (log.entry max).1 = target then exposed max
    else
      match bisect (fun i => (log.entry i).1) target min max with
      | .at mid => exposed mid
      | .between min max =>
          -- the two `CHECK`s behind the loop
          if (log.entry min).1 < target ∧ target < (log.entry max).1 then exposed max else none

/-- `while (find == true) ... find = r->Next()`: advance until nothing follows.
The bound is never what stops it (`drain_spec`). -/
def drainUpTo (log : LocalMemLog) : Nat → LogReader → LogReader × List (Nat × Sequence)
  | 0, r => (r, [])
  | bound + 1, r =>
      match r.next log with
      | none => (r, [])
      | some (r, e) =>
          let (r, es) := drainUpTo log bound r
          (r, e :: es)

def drain (r : LogReader) (log : LocalMemLog) : LogReader × List (Nat × Sequence) :=
  drainUpTo log (log.entries.length + 1) r

/-- How many entries the reader has exposed. -/
def position (r : LogReader) : Nat :=
  if r.started then r.offset + 1 else 0

/-- A reader with entries ahead exposes the next one. -/
theorem next_of_lt {r : LogReader} {log : LocalMemLog} (h : r.position < log.entries.length) :
    r.next log = some (⟨true, r.position⟩, log.entries[r.position]) := by
  have hne : ¬ (log.entries.length = 0 ∨ (r.started ∧ r.offset = log.entries.length - 1)) := by
    rintro (h0 | ⟨hs, ho⟩)
    · omega
    · simp only [position, hs, if_true] at h
      omega
  have hpos : (if r.started then r.offset + 1 else 0) = r.position := rfl
  unfold next
  rw [if_neg hne]
  simp only [hpos, List.getElem?_eq_getElem h, Option.map_some]

/-- A reader at the end stays where it is. -/
theorem next_of_eq {r : LogReader} {log : LocalMemLog} (h : r.position = log.entries.length) :
    r.next log = none := by
  unfold position at h
  unfold next
  rw [if_pos]
  split at h
  · exact .inr ⟨by assumption, by omega⟩
  · exact .inl h.symm

theorem drainUpTo_spec {log : LocalMemLog} (bound : Nat) (r : LogReader)
    (h : r.position ≤ log.entries.length) (hb : log.entries.length < r.position + bound) :
    (drainUpTo log bound r).1.position = log.entries.length ∧
      (drainUpTo log bound r).2 = log.entries.drop r.position := by
  induction bound generalizing r with
  | zero => omega
  | succ bound ih =>
      rcases Nat.lt_or_eq_of_le h with hlt | heq
      · have hpos : (⟨true, r.position⟩ : LogReader).position = r.position + 1 := rfl
        obtain ⟨h1, h2⟩ := ih ⟨true, r.position⟩ (by rw [hpos]; omega) (by rw [hpos]; omega)
        simp only [drainUpTo, next_of_lt hlt]
        refine ⟨h1, ?_⟩
        rw [h2, hpos, ← List.drop_eq_getElem_cons hlt]
      · simp only [drainUpTo, next_of_eq heq]
        exact ⟨heq, by rw [heq, List.drop_length]⟩

/-- The reading loops of the leaders expose exactly the rest of the log. -/
theorem drain_spec {log : LocalMemLog} {r : LogReader} (h : r.position ≤ log.entries.length) :
    (r.drain log).1.position = log.entries.length ∧
      (r.drain log).2 = log.entries.drop r.position :=
  drainUpTo_spec _ r h (by omega)

end LogReader

end Calvin
