import Mathlib.Data.List.Basic
import Mathlib.Data.List.Sublists

/-!
# Queues of shared and exclusive requests

A lock that is granted in request order: the granted requests are the first one
and, if it is shared, the shared ones right behind it. The requests that are
not granted are therefore always a suffix of the queue (`ungranted`).

* `ungranted_concat`: when a new request is granted at once;
* `ungranted_remove`: which requests the removal of one grants (`inherit`);
* `alone_of_granted`: what a grant excludes;
* `notMem_ungranted`: a grant in terms of what stands before the request.
-/

namespace Calvin.Lib

inductive LockMode
  | read
  | write
deriving DecidableEq, Repr

structure Request (α : Type) where
  mode : LockMode
  owner : α
deriving DecidableEq, Repr

namespace LockQueue

variable {α : Type}

/-- Two requests of which at least one is exclusive. -/
def Conflict (m n : LockMode) : Prop := m = .write ∨ n = .write

instance (m n : LockMode) : Decidable (Conflict m n) := inferInstanceAs (Decidable (_ ∨ _))

theorem Conflict.symm {m n : LockMode} (h : Conflict m n) : Conflict n m := Or.symm h

/-- The request is shared. -/
def shared (r : Request α) : Bool := r.mode = .read

/-- The requests of a queue that are not granted. -/
def ungranted : List (Request α) → List (Request α)
  | [] => []
  | r :: rest => if r.mode = .write then rest else rest.dropWhile shared

/-- A request behind the given queue is granted at once. -/
def Grantable (q : List (Request α)) (r : Request α) : Prop :=
  q = [] ∨ (r.mode = .read ∧ ∀ x ∈ q, x.mode = .read)

instance [DecidableEq α] (q : List (Request α)) (r : Request α) : Decidable (Grantable q r) :=
  inferInstanceAs (Decidable (_ ∨ _))

/-- The requests that the removal of `t` grants, in terms of what stands before
and behind it in the queue. -/
def inherit (pre : List (Request α)) (t : Request α) : List (Request α) → List (Request α)
  | [] => []
  | n :: post =>
      if pre = [] ∧ (t.mode = .write ∨ n.mode = .write) then
        if n.mode = .write then [n] else (n :: post).takeWhile shared
      else if (∀ x ∈ pre, x.mode = .read) ∧ t.mode = .write then (n :: post).takeWhile shared
      else []

theorem shared_iff {r : Request α} : shared r = true ↔ r.mode = .read := by
  simp [shared]

theorem mode_ne_write {r : Request α} : r.mode ≠ .write ↔ r.mode = .read := by
  cases r.mode <;> simp

theorem ungranted_sublist (q : List (Request α)) : (ungranted q).Sublist q := by
  cases q with
  | nil => exact List.Sublist.refl _
  | cons x rest =>
      rw [ungranted]
      by_cases hx : x.mode = .write
      · rw [if_pos hx]
        exact List.sublist_cons_self x rest
      · rw [if_neg hx]
        exact (List.dropWhile_suffix _).sublist.trans (List.sublist_cons_self x rest)

theorem mem_of_mem_ungranted {q : List (Request α)} {r : Request α} (h : r ∈ ungranted q) :
    r ∈ q :=
  (ungranted_sublist q).subset h

/-- If every request before is shared, the shared ones are passed over. -/
theorem dropWhile_shared_append {a b : List (Request α)} (h : ∀ x ∈ a, x.mode = .read) :
    (a ++ b).dropWhile shared = b.dropWhile shared := by
  induction a with
  | nil => rfl
  | cons x a ih =>
      have hx : shared x = true := shared_iff.mpr (h x List.mem_cons_self)
      rw [List.cons_append, List.dropWhile_cons_of_pos hx]
      exact ih fun y hy => h y (List.mem_cons_of_mem _ hy)

/-- An exclusive request before stops the search. -/
theorem dropWhile_append_of_write {a b : List (Request α)} (h : ∃ x ∈ a, x.mode = .write) :
    (a ++ b).dropWhile shared = a.dropWhile shared ++ b := by
  induction a with
  | nil => simp at h
  | cons x a ih =>
      by_cases hx : shared x = true
      · rw [List.cons_append, List.dropWhile_cons_of_pos hx, List.dropWhile_cons_of_pos hx]
        refine ih ?_
        obtain ⟨y, hy, hw⟩ := h
        rcases List.mem_cons.mp hy with rfl | hy
        · rw [shared_iff, hw] at hx
          cases hx
        · exact ⟨y, hy, hw⟩
      · rw [List.cons_append, List.dropWhile_cons_of_neg hx, List.dropWhile_cons_of_neg hx]
        rfl

theorem write_or_all_read (q : List (Request α)) :
    (∃ x ∈ q, x.mode = .write) ∨ ∀ x ∈ q, x.mode = .read := by
  by_cases h : ∃ x ∈ q, x.mode = .write
  · exact .inl h
  · refine .inr fun x hx => ?_
    rw [← mode_ne_write]
    exact fun hw => h ⟨x, hx, hw⟩

/-- A new request is granted exactly if it is grantable. -/
theorem ungranted_concat (q : List (Request α)) (r : Request α) :
    (Grantable q r → ungranted (q ++ [r]) = ungranted q) ∧
      (¬ Grantable q r → ungranted (q ++ [r]) = ungranted q ++ [r]) := by
  cases q with
  | nil =>
      refine ⟨fun _ => ?_, fun h => absurd (.inl rfl) h⟩
      cases hr : r.mode <;> simp [ungranted, hr]
  | cons x rest =>
      simp only [List.cons_append, ungranted]
      by_cases hx : x.mode = .write
      · -- the first request is exclusive: nothing behind it is granted
        rw [if_pos hx, if_pos hx]
        refine ⟨?_, fun _ => rfl⟩
        rintro (h | ⟨-, h⟩)
        · cases h
        · rw [h x List.mem_cons_self] at hx
          cases hx
      · rw [if_neg hx, if_neg hx]
        rcases write_or_all_read rest with hw | hall
        · rw [dropWhile_append_of_write hw]
          refine ⟨?_, fun _ => rfl⟩
          rintro (h | ⟨-, h⟩)
          · cases h
          · obtain ⟨y, hy, hyw⟩ := hw
            rw [h y (List.mem_cons_of_mem _ hy)] at hyw
            cases hyw
        · -- all are shared: the new one is granted if it is
          rw [dropWhile_shared_append hall]
          have hnone : rest.dropWhile shared = [] := by
            have := dropWhile_shared_append (b := []) hall
            simpa using this
          rw [hnone]
          refine ⟨?_, fun h => ?_⟩
          · rintro (h | ⟨hr, -⟩)
            · cases h
            · rw [List.dropWhile_cons_of_pos (shared_iff.mpr hr)]
              rfl
          · have hr : ¬ shared r = true := by
              intro hr
              refine h (.inr ⟨shared_iff.mp hr, fun y hy => ?_⟩)
              rcases List.mem_cons.mp hy with rfl | hy
              · exact mode_ne_write.mp hx
              · exact hall y hy
            rw [List.dropWhile_cons_of_neg hr]
            rfl

/-- The requests not granted before the removal of `t`, but for `t` itself, are
those it grants and those not granted afterwards. -/
theorem ungranted_remove [DecidableEq α] (pre post : List (Request α)) (t : Request α)
    (hpre : ∀ r ∈ pre, r.owner ≠ t.owner) (hpost : ∀ r ∈ post, r.owner ≠ t.owner) :
    (ungranted (pre ++ t :: post)).filter (fun r => r.owner ≠ t.owner) =
      inherit pre t post ++ ungranted (pre ++ post) := by
  have keep : ∀ l : List (Request α), (∀ r ∈ l, r.owner ≠ t.owner) →
      l.filter (fun r => r.owner ≠ t.owner) = l := fun l hl =>
    List.filter_eq_self.mpr fun r hr => by simpa using hl r hr
  have hself : (t :: post).filter (fun r => r.owner ≠ t.owner) = post := by
    rw [List.filter_cons_of_neg (by simp), keep post hpost]
  have keepDrop : (post.dropWhile shared).filter (fun r => r.owner ≠ t.owner) =
      post.dropWhile shared :=
    keep _ fun r hr => hpost r ((List.dropWhile_suffix _).subset hr)
  cases pre with
  | nil =>
      -- `t` is the first request
      simp only [List.nil_append, ungranted]
      cases post with
      | nil => cases t.mode <;> simp [inherit]
      | cons n post =>
          by_cases hn : n.mode = .write
          · have hstop : (n :: post).dropWhile shared = n :: post :=
              List.dropWhile_cons_of_neg (by simp [shared, hn])
            rw [hstop, ite_self, keep _ hpost]
            simp [inherit, hn]
          · have hn' := mode_ne_write.mp hn
            have hpass : (n :: post).dropWhile shared = post.dropWhile shared :=
              List.dropWhile_cons_of_pos (shared_iff.mpr hn')
            by_cases ht : t.mode = .write
            · rw [if_pos ht, keep _ hpost]
              simp only [inherit, ht, hn, or_false, and_self, if_true, if_false]
              rw [← hpass, List.takeWhile_append_dropWhile]
            · rw [if_neg ht, keepDrop, hpass]
              simp [inherit, ht, hn]
  | cons x pre =>
      have hne : ¬ ((x :: pre) = [] ∧ (t.mode = .write ∨ ∃ n ∈ post.head?, n.mode = .write)) :=
        fun h => by cases h.1
      simp only [List.cons_append, ungranted]
      by_cases hx : x.mode = .write
      · have hw : ¬ ((∀ y ∈ x :: pre, y.mode = .read) ∧ t.mode = .write) := fun h => by
          rw [h.1 x List.mem_cons_self] at hx
          cases hx
        rw [if_pos hx, if_pos hx, List.filter_append, hself,
          keep pre fun r hr => hpre r (List.mem_cons_of_mem _ hr)]
        cases post with
        | nil => rfl
        | cons n post =>
            rw [inherit, if_neg (fun h => by cases h.1), if_neg hw]
            rfl
      · rw [if_neg hx, if_neg hx]
        rcases write_or_all_read pre with hw | hall
        · have hno : ¬ ((∀ y ∈ x :: pre, y.mode = .read) ∧ t.mode = .write) := fun h => by
            obtain ⟨y, hy, hyw⟩ := hw
            rw [h.1 y (List.mem_cons_of_mem _ hy)] at hyw
            cases hyw
          have hkeep : (pre.dropWhile shared).filter (fun r => r.owner ≠ t.owner) =
              pre.dropWhile shared :=
            keep _ fun r hr =>
              hpre r (List.mem_cons_of_mem _ ((List.dropWhile_suffix _).subset hr))
          rw [dropWhile_append_of_write hw, dropWhile_append_of_write hw, List.filter_append,
            hself, hkeep]
          cases post with
          | nil => rfl
          | cons n post =>
              rw [inherit, if_neg (fun h => by cases h.1), if_neg hno]
              rfl
        · have hxall : ∀ y ∈ x :: pre, y.mode = .read := fun y hy => by
            rcases List.mem_cons.mp hy with rfl | hy
            · exact mode_ne_write.mp hx
            · exact hall y hy
          rw [dropWhile_shared_append hall, dropWhile_shared_append hall]
          by_cases ht : t.mode = .write
          · rw [List.dropWhile_cons_of_neg (by simp [shared, ht]), hself]
            cases post with
            | nil => rfl
            | cons n post =>
                rw [inherit, if_neg (fun h => by cases h.1), if_pos ⟨hxall, ht⟩,
                  List.takeWhile_append_dropWhile]
          · rw [List.dropWhile_cons_of_pos (shared_iff.mpr (mode_ne_write.mp ht)), keepDrop]
            cases post with
            | nil => rfl
            | cons n post =>
                rw [inherit, if_neg (fun h => by cases h.1), if_neg (fun h => ht h.2)]
                rfl

/-- A granted request conflicts with none before it. -/
theorem alone_of_granted {pre post : List (Request α)} {r x : Request α}
    (hr : r ∉ ungranted (pre ++ r :: post)) (hx : x ∈ pre) : ¬ Conflict x.mode r.mode := by
  cases pre with
  | nil => cases hx
  | cons y pre =>
      simp only [List.cons_append, ungranted] at hr
      by_cases hy : y.mode = .write
      · rw [if_pos hy] at hr
        exact absurd (List.mem_append_right _ List.mem_cons_self) hr
      · rw [if_neg hy] at hr
        rcases write_or_all_read pre with hw | hall
        · rw [dropWhile_append_of_write hw] at hr
          exact absurd (List.mem_append_right _ List.mem_cons_self) hr
        · rw [dropWhile_shared_append hall] at hr
          by_cases hm : r.mode = .write
          · rw [List.dropWhile_cons_of_neg (by simp [shared, hm])] at hr
            exact absurd List.mem_cons_self hr
          · rintro (hc | hc)
            · rcases List.mem_cons.mp hx with rfl | hx
              · exact hy hc
              · rw [hall x hx] at hc
                cases hc
            · exact hm hc

/-- The grant of a request depends on what stands before it only. -/
theorem notMem_ungranted {pre post : List (Request α)} {r : Request α} (hpost : r ∉ post) :
    r ∉ ungranted (pre ++ r :: post) ↔ Grantable pre r := by
  constructor
  · intro h
    cases pre with
    | nil => exact .inl rfl
    | cons x pre =>
        have hread : ∀ y ∈ x :: pre, y.mode = .read ∧ r.mode = .read := fun y hy => by
          have hno := alone_of_granted h hy
          rw [Conflict, not_or] at hno
          exact ⟨mode_ne_write.mp hno.1, mode_ne_write.mp hno.2⟩
        exact .inr ⟨(hread x List.mem_cons_self).2, fun y hy => (hread y hy).1⟩
  · rintro (rfl | ⟨hr, hall⟩) hmem
    · -- the first request is never among those not granted
      rw [List.nil_append, ungranted] at hmem
      split at hmem
      · exact hpost hmem
      · exact hpost ((List.dropWhile_suffix _).subset hmem)
    · cases pre with
      | nil =>
          rw [List.nil_append, ungranted] at hmem
          split at hmem
          · exact hpost hmem
          · exact hpost ((List.dropWhile_suffix _).subset hmem)
      | cons x pre =>
          have hx : x.mode ≠ .write := mode_ne_write.mpr (hall x List.mem_cons_self)
          rw [List.cons_append, ungranted, if_neg hx,
            dropWhile_shared_append fun y hy => hall y (List.mem_cons_of_mem _ hy),
            List.dropWhile_cons_of_pos (shared_iff.mpr hr)] at hmem
          exact hpost ((List.dropWhile_suffix _).subset hmem)

end LockQueue

end Calvin.Lib
