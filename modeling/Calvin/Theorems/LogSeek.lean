import Calvin.Log.LocalMemLog

/-!
# Positioning a reader at a version

`Seek(target)` is to position the reader at the first entry whose version is at
least `target`, and to leave it alone where there is none. The search works on
the interval from the first entry to the last one and relies on the target
lying above the version of the first. Nothing but the comparison with the last
version is checked before it starts.

* `seek_below`: a target below the first version fails the `CHECK` behind the
  loop, whatever the log holds;
* `seek_iff`: `Seek` does what it is for exactly when the first version is not
  above the target.
-/

namespace Calvin.LogSeek

open Lib

/-- The first entry with at least the given version is the `i`-th. -/
def FirstAt (log : LocalMemLog) (target i : Nat) : Prop :=
  i < log.entries.length ∧ target ≤ (log.entry i).1 ∧ ∀ j < i, (log.entry j).1 < target

/-- What `Seek` is for: no `CHECK` fails; the answer is `false`, with the reader
where it was, if there is no entry with at least the given version, and
otherwise the reader exposes the first one. -/
def Seeks (r : LogReader) (log : LocalMemLog) (target : Nat) : Prop :=
  ((∀ e ∈ log.entries, e.1 < target) → r.seek log target = some (r, none)) ∧
    ((∃ e ∈ log.entries, target ≤ e.1) → ∃ i, FirstAt log target i ∧
      r.seek log target = some (⟨true, i⟩, some (log.entry i)))

/-- Versions as the appends of a log make them: positive, each above the one
before. -/
def Increasing (es : List (Nat × Sequence)) : Prop :=
  (es.map Prod.fst).Pairwise (· < ·) ∧ ∀ e ∈ es, 0 < e.1

instance (es : List (Nat × Sequence)) : Decidable (Increasing es) :=
  inferInstanceAs (Decidable (_ ∧ _))

/-! ## The log that is read -/

/-- A series of appends to a log none of whose versions is above theirs. -/
theorem appends_eq {es : List (Nat × Sequence)} (log : LocalMemLog)
    (hs : (es.map Prod.fst).Pairwise (· < ·)) (hge : ∀ e ∈ es, log.maxVersion ≤ e.1) :
    log.appends es = some
      { maxVersion := ((es.getLast?).map Prod.fst).getD log.maxVersion
        entries := log.entries ++ es } := by
  induction es generalizing log with
  | nil => simp [LocalMemLog.appends]
  | cons e es ih =>
      rw [List.map_cons, List.pairwise_cons] at hs
      have happ : log.append e.1 e.2 =
          some { maxVersion := e.1, entries := log.entries ++ [(e.1, e.2)] } :=
        LocalMemLog.append_eq_some.mpr ⟨hge e List.mem_cons_self, rfl⟩
      have hrest := ih { maxVersion := e.1, entries := log.entries ++ [(e.1, e.2)] } hs.2
        fun x hx => le_of_lt (hs.1 x.1 (List.mem_map_of_mem hx))
      show (log.append e.1 e.2).bind (fun log => log.appends es) = _
      rw [happ, Option.bind_some, hrest]
      cases es with
      | nil => simp
      | cons y es => simp [List.getLast?_eq_some_getLast]

/-- The log that increasing appends make. -/
theorem appends_increasing {es : List (Nat × Sequence)} (h : Increasing es) :
    LocalMemLog.appends {} es =
      some { maxVersion := ((es.getLast?).map Prod.fst).getD 0, entries := es } := by
  rw [appends_eq {} h.1 fun e _ => Nat.zero_le _]
  rfl

variable {log : LocalMemLog}

/-- The `i`-th entry of the log, where there is one. -/
theorem entry_of_lt {i : Nat} (h : i < log.entries.length) : log.entry i = log.entries[i] := by
  rw [LocalMemLog.entry, List.getD_eq_getElem?_getD, List.getElem?_eq_getElem h, Option.getD_some]

/-- Later entries have greater versions. -/
theorem entry_lt (hs : Increasing log.entries) {i j : Nat} (hij : i < j)
    (hj : j < log.entries.length) : (log.entry i).1 < (log.entry j).1 := by
  rw [entry_of_lt hj, entry_of_lt (by omega)]
  have h := List.pairwise_iff_getElem.mp hs.1 i j (by rw [List.length_map]; omega)
    (by rwa [List.length_map]) hij
  simpa using h

/-- Entries are in the order of their versions. -/
theorem entry_le (hs : Increasing log.entries) {i j : Nat} (hij : i ≤ j)
    (hj : j < log.entries.length) : (log.entry i).1 ≤ (log.entry j).1 := by
  rcases Nat.lt_or_eq_of_le hij with hlt | rfl
  · exact le_of_lt (entry_lt hs hlt hj)
  · exact le_rfl

/-- The first entry with at least some version is the one with that version. -/
theorem firstAt_of_eq (hs : Increasing log.entries) {target i : Nat}
    (hi : i < log.entries.length) (h : (log.entry i).1 = target) : FirstAt log target i := by
  refine ⟨hi, le_of_eq h.symm, fun j hj => ?_⟩
  rw [← h]
  exact entry_lt hs hj hi

/-! ## Seek -/

/-- Above the last version there is nothing to seek. -/
theorem seek_above {r : LogReader} {target : Nat} (h0 : 0 < target)
    (h : log.lastVersion < target) : r.seek log target = some (r, none) := by
  rw [LogReader.seek, if_neg (by omega), if_pos h]

/-- Up to the last version and from the first on the search ends at the first
entry that is far enough. -/
theorem seek_found (hs : Increasing log.entries) {r : LogReader} {target : Nat} (h0 : 0 < target)
    (hne : 0 < log.entries.length)
    (hlast : (log.entry (log.entries.length - 1)).1 = log.lastVersion)
    (hle : target ≤ log.lastVersion) (hfirst : (log.entry 0).1 ≤ target) :
    ∃ i, FirstAt log target i ∧ r.seek log target = some (⟨true, i⟩, some (log.entry i)) := by
  have hmax : log.entries.length - 1 < log.entries.length := by omega
  rw [LogReader.seek, if_neg (by omega), if_neg (by omega)]
  by_cases hmin : (log.entry 0).1 = target
  · exact ⟨0, firstAt_of_eq hs hne hmin, if_pos hmin⟩
  by_cases htop : (log.entry (log.entries.length - 1)).1 = target
  · refine ⟨_, firstAt_of_eq hs hmax htop, ?_⟩
    dsimp only
    rw [if_neg hmin, if_pos htop]
  -- the loop starts with the target strictly between the two ends
  have hlow : (log.entry 0).1 < target := by omega
  have hhigh : target < (log.entry (log.entries.length - 1)).1 := by omega
  have hlt : 0 < log.entries.length - 1 := by
    rcases Nat.eq_zero_or_pos (log.entries.length - 1) with h | h
    · rw [h] at hhigh
      omega
    · exact h
  dsimp only
  rw [if_neg hmin, if_neg htop]
  cases hb : bisect (fun i => (log.entry i).1) target 0 (log.entries.length - 1) with
  | «at» mid =>
      obtain ⟨heq, -, hmid⟩ := bisect_at hb
      exact ⟨mid, firstAt_of_eq hs (by omega) heq, rfl⟩
  | between a b =>
      obtain ⟨-, hbmax, hba, hab, ha, hbt⟩ := bisect_between hb
      have hab := hab hlt
      refine ⟨b, ⟨by omega, le_of_lt (hbt hhigh), fun j hj => ?_⟩, if_pos ⟨ha hlow, hbt hhigh⟩⟩
      exact below_of_lower (fun i j hij hj => entry_lt hs hij hj)
        (show a < log.entries.length by omega) (ha hlow) (by omega)

/-- A target below the first version fails the `CHECK` on the lower end, which
never leaves the versions above the target. -/
theorem seek_below (hs : Increasing log.entries) {r : LogReader} {target : Nat}
    (hne : 0 < log.entries.length)
    (hlast : (log.entry (log.entries.length - 1)).1 = log.lastVersion)
    (hfirst : target < (log.entry 0).1) : r.seek log target = none := by
  have hall : ∀ i < log.entries.length, target < (log.entry i).1 := fun i hi =>
    lt_of_lt_of_le hfirst (entry_le hs (Nat.zero_le i) hi)
  have hmax : log.entries.length - 1 < log.entries.length := by omega
  have htop := hall _ hmax
  rw [LogReader.seek]
  by_cases h0 : target = 0
  · rw [if_pos h0]
  rw [if_neg h0, if_neg (by omega)]
  dsimp only
  rw [if_neg (by omega), if_neg (by omega)]
  cases hb : bisect (fun i => (log.entry i).1) target 0 (log.entries.length - 1) with
  | «at» mid =>
      obtain ⟨heq, -, hmid⟩ := bisect_at hb
      have := hall mid (by omega)
      omega
  | between a b =>
      obtain ⟨-, hbmax, hba, hab, -, -⟩ := bisect_between hb
      have hlen : a < log.entries.length := by
        by_cases hlt : 0 < log.entries.length - 1
        · have := hab hlt
          omega
        · rw [bisect, if_neg (by omega), Found.between.injEq] at hb
          omega
      have := hall a hlen
      exact if_neg fun h => by omega

/-- `Seek` finds the lower bound exactly if the log is empty or its first version
is not above the target. -/
theorem seek_iff {es : List (Nat × Sequence)} (hs : Increasing es) (r : LogReader) {target : Nat}
    (h0 : 0 < target) :
    ∃ log, LocalMemLog.appends {} es = some log ∧
      (Seeks r log target ↔ ∀ e ∈ es.head?, e.1 ≤ target) := by
  refine ⟨_, appends_increasing hs, ?_⟩
  cases es with
  | nil =>
      refine ⟨fun _ e he => (Option.not_mem_none e he).elim, fun _ => ⟨fun _ => ?_, ?_⟩⟩
      · exact seek_above h0 h0
      · rintro ⟨e, he, -⟩
        exact (List.not_mem_nil he).elim
  | cons e es =>
      generalize hlog : (⟨(((e :: es).getLast?).map Prod.fst).getD 0, e :: es⟩ : LocalMemLog) = log
      have hentries : log.entries = e :: es := by rw [← hlog]
      have hne : 0 < log.entries.length := by simp [hentries]
      have hsorted : Increasing log.entries := by rwa [hentries]
      have hzero : log.entry 0 = e := by simp [LocalMemLog.entry, hentries]
      have hlast : (log.entry (log.entries.length - 1)).1 = log.lastVersion := by
        rw [entry_of_lt (by omega)]
        subst hlog
        simp [LocalMemLog.lastVersion, List.getLast?_eq_some_getLast, List.getLast_eq_getElem]
      have hmem : e ∈ log.entries := by simp [hentries]
      have hhead : (∀ x ∈ (e :: es).head?, x.1 ≤ target) ↔ e.1 ≤ target := by
        simp
      rw [hhead]
      constructor
      · -- below the first version the search would have to find the first entry
        intro h
        by_contra hfirst
        obtain ⟨i, -, hi⟩ := h.2 ⟨e, hmem, by omega⟩
        rw [seek_below hsorted hne hlast (by rw [hzero]; omega)] at hi
        cases hi
      · intro hfirst
        constructor
        · intro hall
          refine seek_above h0 ?_
          rw [← hlast, entry_of_lt (by omega)]
          exact hall _ (List.getElem_mem _)
        · rintro ⟨x, hx, hxt⟩
          refine seek_found hsorted h0 hne hlast ?_ (by rwa [hzero])
          -- the last version is the greatest
          obtain ⟨i, hi, rfl⟩ := List.getElem_of_mem hx
          rw [← entry_of_lt hi] at hxt
          rw [← hlast]
          exact le_trans hxt (entry_le hsorted (by omega) (by omega))

/-- A log without versions 6 and 7, sought at version 6: the search ends at version 8. -/
theorem seek_iff_gap :
    ∃ log, LocalMemLog.appends {} [(2, [1001]), (3, []), (5, [1002]), (8, [1003]), (9, [1004])] =
        some log ∧
      (Seeks {} log 6 ↔
        ∀ e ∈ [(2, [1001]), (3, []), (5, [1002]), (8, [1003]), (9, [1004])].head?, e.1 ≤ 6) :=
  seek_iff (by decide) {} (by decide)

/-- In a log with version 2 alone, seeking version 1 is not answered with that entry. -/
theorem seek_one_fails :
    ∃ log, LocalMemLog.appends {} [(2, [1001])] = some log ∧
      (∃ e ∈ log.entries, 1 ≤ e.1) ∧ LogReader.seek {} log 1 = none ∧ ¬ Seeks {} log 1 := by
  have hseek : LogReader.seek {} ⟨2, [(2, [1001])]⟩ 1 = none := by
    simp [LogReader.seek, LocalMemLog.lastVersion, LocalMemLog.entry, bisect]
  refine ⟨⟨2, [(2, [1001])]⟩, rfl, ⟨_, List.mem_singleton.mpr rfl, by decide⟩, hseek, fun h => ?_⟩
  obtain ⟨i, -, hi⟩ := h.2 ⟨_, List.mem_singleton.mpr rfl, by decide⟩
  rw [hseek] at hi
  cases hi

end Calvin.LogSeek
