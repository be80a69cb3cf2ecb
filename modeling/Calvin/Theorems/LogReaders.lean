import Calvin.Lib.Machine
import Calvin.Log.LogBuffer

/-!
# Readers of a growing log

A log that grows while any number of readers go through it: each reader is at the
end of a part of the log from its start, whenever the log grew and whenever the
reader was reset. `readers_in_order` says so, and that every access of the array
is in bounds.
-/

namespace Calvin

open Function Lib

/-- A log with its readers; readers are told apart by numbers. -/
structure LogReaders where
  log : LogBuffer := {}
  readers : Nat → LogReader := fun _ => {}
  /-- The entries in the order they were appended. -/
  appended : List (Nat × Sequence) := []
  /-- What each reader has exposed since it was reset last. -/
  exposed : Nat → List (Nat × Sequence) := fun _ => []

inductive LogCall
  | append (version : Nat) (entry : Sequence)
  | next (reader : Nat)
  | reset (reader : Nat)
deriving DecidableEq

namespace LogReaders

/-- A call of `Append`, `Next` or `Reset`; it has no result where a `CHECK` fails or
an access is out of bounds. -/
def call (s : LogReaders) : LogCall → Option LogReaders
  | .append version entry =>
      (s.log.append version entry).map fun log =>
        { s with log, appended := s.appended ++ [(version, entry)] }
  | .next i =>
      ((s.readers i).nextIn s.log).map fun (r, e) =>
        { s with
          readers := update s.readers i r
          exposed := update s.exposed i (s.exposed i ++ e.toList) }
  | .reset i =>
      some { s with
        readers := update s.readers i (s.readers i).reset
        exposed := update s.exposed i [] }

/-- All calls in any order. -/
def machine : Machine LogReaders LogCall where
  init := {}
  next := call

/-- The log of the entries appended so far. -/
def listed (s : LogReaders) : LocalMemLog where
  maxVersion := s.log.maxVersion
  entries := s.appended

/-- The array holds the entries, and each reader has exposed the entries up to its
position. -/
structure Inv (s : LogReaders) : Prop where
  valid : s.log.Valid s.listed
  within : ∀ i, (s.readers i).position ≤ s.appended.length
  exposed : ∀ i, s.exposed i = s.appended.take (s.readers i).position

theorem inv_init : Inv {} where
  valid := LogBuffer.valid_init
  within _ := Nat.le_refl _
  exposed _ := rfl

namespace Inv

variable {s s' : LogReaders}

/-- `Next` where it has entries ahead, and where it has none. -/
theorem next_cases (h : Inv s) (i : Nat) :
    (∃ e r, (s.readers i).nextIn s.log = some (r, some e) ∧
      s.appended[(s.readers i).position]? = some e ∧ r.position = (s.readers i).position + 1) ∨
    ((s.readers i).nextIn s.log = some (s.readers i, none) ∧
      (s.readers i).position = s.appended.length) := by
  have hnext := h.valid.next (r := s.readers i) (h.within i)
  rcases Nat.lt_or_eq_of_le (h.within i) with hlt | heq
  · rw [@LogReader.next_of_lt _ s.listed hlt] at hnext
    exact .inl ⟨_, _, hnext, List.getElem?_eq_getElem hlt, rfl⟩
  · rw [@LogReader.next_of_eq _ s.listed heq] at hnext
    exact .inr ⟨hnext, heq⟩

/-- Replacing one reader keeps the invariant if the reader keeps it. -/
theorem setReader (h : Inv s) {i : Nat} {r : LogReader} (hr : r.position ≤ s.appended.length) :
    Inv { s with
      readers := update s.readers i r
      exposed := update s.exposed i (s.appended.take r.position) } := by
  refine ⟨h.valid, fun j => ?_, fun j => ?_⟩
  · show (update s.readers i r j).position ≤ s.appended.length
    by_cases hj : j = i
    · rwa [hj, update_self]
    · rw [update_of_ne hj]
      exact h.within j
  · show update s.exposed i _ j = s.appended.take (update s.readers i r j).position
    by_cases hj : j = i
    · rw [hj, update_self, update_self]
    · rw [update_of_ne hj, update_of_ne hj]
      exact h.exposed j

theorem append (h : Inv s) {version : Nat} {entry : Sequence}
    (hn : call s (.append version entry) = some s') : Inv s' := by
  rw [call, Option.map_eq_some_iff] at hn
  obtain ⟨log, hlog, rfl⟩ := hn
  have hv : s.log.maxVersion ≤ version := by
    rw [LogBuffer.append] at hlog
    by_contra hlt
    rw [if_neg hlt] at hlog
    cases hlog
  obtain ⟨b, hb, hvalid⟩ := h.valid.append hv entry
  obtain rfl : b = log := Option.some.inj (hb.symm.trans hlog)
  refine ⟨?_, fun i => ?_, fun i => ?_⟩
  · have hlisted : listed { s with log := b, appended := s.appended ++ [(version, entry)] } =
        { maxVersion := version, entries := s.appended ++ [(version, entry)] } := by
      rw [listed, hvalid.maxVersion]
    rw [hlisted]
    exact hvalid
  · show (s.readers i).position ≤ (s.appended ++ [(version, entry)]).length
    rw [List.length_append]
    exact Nat.le_add_right_of_le (h.within i)
  · -- an entry behind a reader's position does not show in what it exposed
    show s.exposed i = (s.appended ++ [(version, entry)]).take (s.readers i).position
    rw [List.take_append_of_le_length (h.within i)]
    exact h.exposed i

theorem next (h : Inv s) {i : Nat} (hn : call s (.next i) = some s') : Inv s' := by
  rw [call, Option.map_eq_some_iff] at hn
  obtain ⟨⟨r, e⟩, hr, rfl⟩ := hn
  rcases h.next_cases i with ⟨e', r', hr', he', hpos⟩ | ⟨hr', -⟩
  · rw [hr'] at hr
    obtain ⟨rfl, rfl⟩ := Prod.mk.inj (Option.some.inj hr)
    have hlt : (s.readers i).position < s.appended.length :=
      (List.getElem?_eq_some_iff.mp he').1
    have hexposed : s.exposed i ++ (some e').toList = s.appended.take r'.position := by
      rw [hpos, List.take_add_one, he', h.exposed i]
    dsimp only
    rw [hexposed]
    exact h.setReader (by omega)
  · rw [hr'] at hr
    obtain ⟨rfl, rfl⟩ := Prod.mk.inj (Option.some.inj hr)
    have hsame := h.setReader (i := i) (h.within i)
    rw [← h.exposed i] at hsame
    dsimp only
    rwa [Option.toList_none, List.append_nil]

theorem reset (h : Inv s) {i : Nat} (hn : call s (.reset i) = some s') : Inv s' := by
  obtain rfl := Option.some.inj hn
  have hzero : (s.readers i).reset.position = 0 := rfl
  have hset := h.setReader (i := i) (r := (s.readers i).reset) (by omega)
  rwa [hzero, List.take_zero] at hset

theorem reachable (h : machine.Reachable s) : Inv s := by
  refine h.invariant inv_init ?_
  intro s c s' _ _ hi hn
  cases c with
  | append version entry => exact hi.append hn
  | next i => exact hi.next hn
  | reset i => exact hi.reset hn

end Inv

/-- In every order of calls, a reader has exposed the first entries of the log,
`Next` exposes the one that follows or, only where all are exposed, leaves the
reader alone; and `Append` of a version that is not below the last one, like
`Next`, stays within the array. -/
theorem readers_in_order {s : LogReaders} (h : machine.Reachable s) :
    (∀ i, s.exposed i <+: s.appended) ∧
      (∀ i, (∃ e r, (s.readers i).nextIn s.log = some (r, some e) ∧
          s.exposed i ++ [e] <+: s.appended) ∨
        ((s.readers i).nextIn s.log = some (s.readers i, none) ∧ s.exposed i = s.appended)) ∧
      ∀ version entry, s.log.maxVersion ≤ version → (s.log.append version entry).isSome := by
  have hi := Inv.reachable h
  refine ⟨fun i => ?_, fun i => ?_, fun version entry hv => ?_⟩
  · rw [hi.exposed i]
    exact List.take_prefix _ _
  · rcases hi.next_cases i with ⟨e, r, hr, he, -⟩ | ⟨hr, hend⟩
    · refine .inl ⟨e, r, hr, ?_⟩
      have hnext : s.exposed i ++ [e] = s.appended.take ((s.readers i).position + 1) := by
        rw [List.take_add_one, he, hi.exposed i]
        rfl
      rw [hnext]
      exact List.take_prefix _ _
    · refine .inr ⟨hr, ?_⟩
      rw [hi.exposed i, hend, List.take_length]
  · obtain ⟨b, hb, -⟩ := hi.valid.append hv entry
    rw [hb]
    rfl

/-- A reader that met the end, and another that was reset. -/
theorem readers_in_order_two : ∃ s : LogReaders, s.appended = [(1, [5]), (1, [6])] ∧
    s.exposed 0 = [(1, [5]), (1, [6])] ∧ s.exposed 1 = [(1, [5])] ∧
    ∀ i, s.exposed i <+: s.appended := by
  obtain ⟨s, hs, happended, h0, h1⟩ := Machine.exists_of_trace (m := machine)
    (P := fun s => s.appended = [(1, [5]), (1, [6])] ∧ s.exposed 0 = [(1, [5]), (1, [6])] ∧
      s.exposed 1 = [(1, [5])])
    [.next 0, .append 1 [5], .next 0, .next 1, .next 0, .append 1 [6], .next 0, .next 1,
      .reset 1, .next 1] (by decide)
  exact ⟨s, happended, h0, h1, (readers_in_order hs).1⟩

end LogReaders

end Calvin
