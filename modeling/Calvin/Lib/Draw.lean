import Mathlib.Data.List.Basic

/-!
# Programs that draw numbers

A program asks an unknown source for numbers. `retry stop next` draws until a
number passes `stop` and goes on with that number; a single draw is the loop
whose first number always passes.

* `Draw.run` feeds a program a finite part of the source: the program returns,
  fails, or has used the numbers up inside a loop;
* `Draw.Ensures p P` is the weakest precondition of `P`: whatever is drawn, `p`
  does not fail, and what it returns meets `P` (`Ensures.run`);
* `Draw.CanEnd` says of every loop a run can be in that some number ends it.
-/

namespace Calvin.Lib

inductive Draw (α : Type) where
  | done (a : α)
  | fail
  | retry (stop : Nat → Bool) (next : Nat → Draw α)

namespace Draw

variable {α β : Type}

/-- What a program does with a finite list of numbers. -/
inductive Outcome (α : Type) where
  | returned (a : α) (rest : List Nat)
  | failed
  | waiting
deriving DecidableEq

def bind : Draw α → (α → Draw β) → Draw β
  | done a, f => f a
  | fail, _ => fail
  | retry stop next, f => retry stop fun r => (next r).bind f

instance : Monad Draw where
  pure := done
  bind := bind

/-- One number. -/
def draw : Draw Nat := retry (fun _ => true) done

/-- The first number that passes `stop`. -/
def drawUntil (stop : Nat → Bool) : Draw Nat := retry stop done

/-- Fail unless the condition holds. -/
def check (c : Prop) [Decidable c] : Draw Unit := if c then done () else fail

def run : Draw α → List Nat → Outcome α
  | done a, rs => .returned a rs
  | fail, _ => .failed
  | retry _ _, [] => .waiting
  | retry stop next, r :: rs =>
      if stop r then (next r).run rs else (retry stop next).run rs

@[simp] theorem retry_bind (stop : Nat → Bool) (next : Nat → Draw α) (f : α → Draw β) :
    (retry stop next >>= f) = retry stop fun r => next r >>= f := rfl

/-! ## Weakest preconditions -/

def Ensures : Draw α → (α → Prop) → Prop
  | done a, P => P a
  | fail, _ => False
  | retry stop next, P => ∀ r, stop r = true → (next r).Ensures P

@[simp] theorem ensures_done {a : α} {P : α → Prop} : (done a).Ensures P ↔ P a := Iff.rfl

@[simp] theorem ensures_fail {P : α → Prop} : ¬ (fail : Draw α).Ensures P := fun h => h

@[simp] theorem ensures_retry {stop : Nat → Bool} {next : Nat → Draw α} {P : α → Prop} :
    (retry stop next).Ensures P ↔ ∀ r, stop r = true → (next r).Ensures P := Iff.rfl

@[simp] theorem ensures_check {c : Prop} [Decidable c] {P : Unit → Prop} :
    (check c).Ensures P ↔ c ∧ P () := by
  unfold check
  split
  · next h => simp [h]
  · next h => simp [h]

theorem ensures_bind {p : Draw α} {f : α → Draw β} {P : β → Prop} :
    (p >>= f).Ensures P ↔ p.Ensures fun a => (f a).Ensures P := by
  induction p with
  | done a => exact Iff.rfl
  | fail => exact Iff.rfl
  | retry stop next ih =>
      rw [retry_bind, ensures_retry, ensures_retry]
      exact forall₂_congr fun r _ => ih r

theorem Ensures.mono {p : Draw α} {P Q : α → Prop} (h : p.Ensures P) (hPQ : ∀ a, P a → Q a) :
    p.Ensures Q := by
  induction p with
  | done a => exact hPQ a h
  | fail => exact h
  | retry stop next ih =>
      intro r hr
      exact ih r (h r hr)

/-- The rule for a program in sequence: a middle condition. -/
theorem Ensures.bind {p : Draw α} {f : α → Draw β} {P : α → Prop} {Q : β → Prop}
    (h : p.Ensures P) (hf : ∀ a, P a → (f a).Ensures Q) : (p >>= f).Ensures Q :=
  ensures_bind.mpr (h.mono hf)

/-- Weakest preconditions are sound: the program runs into no failure, and what
it returns meets the postcondition. -/
theorem Ensures.run {p : Draw α} {P : α → Prop} (h : p.Ensures P) (rs : List Nat) :
    p.run rs = .waiting ∨ ∃ a rest, p.run rs = .returned a rest ∧ P a := by
  induction rs generalizing p with
  | nil =>
      cases p with
      | done a => exact .inr ⟨a, [], rfl, h⟩
      | fail => exact absurd h ensures_fail
      | retry stop next => exact .inl rfl
  | cons r rs ih =>
      cases p with
      | done a => exact .inr ⟨a, r :: rs, rfl, h⟩
      | fail => exact absurd h ensures_fail
      | retry stop next =>
          simp only [Draw.run]
          split
          · next hr => exact ih (h r hr)
          · exact ih h

/-- A program that returns meets every postcondition it ensures. -/
theorem Ensures.of_returned {p : Draw α} {P : α → Prop} (h : p.Ensures P) {rs rest : List Nat}
    {a : α} (hrun : p.run rs = .returned a rest) : P a := by
  obtain hw | ⟨b, rest', hb, hP⟩ := h.run rs
  · rw [hrun] at hw
    cases hw
  · rw [hrun, Outcome.returned.injEq] at hb
    rw [hb.1]
    exact hP

/-! ## Loops that can end -/

/-- The loop a run is in when its numbers are used up. -/
def waitsIn : Draw α → List Nat → Option (Nat → Bool)
  | done _, _ => none
  | fail, _ => none
  | retry stop _, [] => some stop
  | retry stop next, r :: rs =>
      if stop r then (next r).waitsIn rs else (retry stop next).waitsIn rs

/-- Whatever numbers up to `max` were drawn, some number up to `max` ends the
loop the program is in. -/
def CanEnd (max : Nat) (p : Draw α) : Prop :=
  ∀ rs : List Nat, (∀ r ∈ rs, r ≤ max) → ∀ stop, p.waitsIn rs = some stop →
    ∃ r ≤ max, stop r = true

section CanEnd

variable {max : Nat}

@[simp] theorem canEnd_done {a : α} : CanEnd max (done a) := by
  intro rs _ stop h
  simp [waitsIn] at h

theorem canEnd_retry {stop : Nat → Bool} {next : Nat → Draw α} :
    CanEnd max (retry stop next) ↔
      (∃ r ≤ max, stop r = true) ∧ ∀ r ≤ max, stop r = true → CanEnd max (next r) := by
  constructor
  · intro h
    refine ⟨h [] (by simp) stop rfl, ?_⟩
    intro r hr hstop rs hrs stop' hw
    apply h (r :: rs)
    · simp only [List.mem_cons, forall_eq_or_imp]
      exact ⟨hr, hrs⟩
    · simp only [waitsIn, hstop, if_true]
      exact hw
  · rintro ⟨hend, hnext⟩ rs
    -- numbers that do not pass leave the program in the same loop
    induction rs with
    | nil =>
        intro _ stop' hw
        simp only [waitsIn, Option.some.injEq] at hw
        rw [← hw]
        exact hend
    | cons r rs ih =>
        intro hrs stop' hw
        simp only [List.mem_cons, forall_eq_or_imp] at hrs
        simp only [waitsIn] at hw
        split at hw
        · next hstop => exact hnext r hrs.1 hstop rs hrs.2 stop' hw
        · exact ih hrs.2 stop' hw

/-- The rule for a program in sequence. -/
theorem CanEnd.bind {p : Draw α} {f : α → Draw β} {P : α → Prop} (hp : CanEnd max p)
    (h : p.Ensures P) (hf : ∀ a, P a → CanEnd max (f a)) : CanEnd max (p >>= f) := by
  induction p with
  | done a => exact hf a h
  | fail => exact absurd h ensures_fail
  | retry stop next ih =>
      rw [canEnd_retry] at hp
      rw [retry_bind, canEnd_retry]
      exact ⟨hp.1, fun r hr hstop => ih r (hp.2 r hr hstop) (h r hstop)⟩

/-- A single draw ends at any number. -/
theorem canEnd_draw {next : Nat → Draw α} :
    CanEnd max (retry (fun _ => true) next) ↔ ∀ r ≤ max, CanEnd max (next r) := by
  rw [canEnd_retry]
  constructor
  · intro h r hr
    exact h.2 r hr rfl
  · intro h
    exact ⟨⟨0, Nat.zero_le _, rfl⟩, fun r hr _ => h r hr⟩

end CanEnd

/-! ## Total correctness -/

/-- Nothing fails, every loop can end, and what is returned meets `P`. -/
def Yields (max : Nat) (p : Draw α) (P : α → Prop) : Prop := CanEnd max p ∧ p.Ensures P

section Yields

variable {max : Nat} {p : Draw α} {P Q : α → Prop}

theorem Yields.done {a : α} (h : P a) : Yields max (done a) P := ⟨canEnd_done, h⟩

theorem Yields.mono (h : Yields max p P) (hPQ : ∀ a, P a → Q a) : Yields max p Q :=
  ⟨h.1, h.2.mono hPQ⟩

theorem Yields.bind {f : α → Draw β} {Q : β → Prop} (h : Yields max p P)
    (hf : ∀ a, P a → Yields max (f a) Q) : Yields max (p >>= f) Q :=
  ⟨h.1.bind h.2 fun a ha => (hf a ha).1, h.2.bind fun a ha => (hf a ha).2⟩

theorem Yields.check {c : Prop} [Decidable c] {f : Unit → Draw α} (hc : c)
    (h : Yields max (f ()) P) : Yields max (check c >>= f) P := by
  unfold Draw.check
  rw [if_pos hc]
  exact h

/-- A loop that some number ends. -/
theorem Yields.drawUntil {stop : Nat → Bool} (h : ∃ r ≤ max, stop r = true) :
    Yields max (drawUntil stop) fun r => stop r = true :=
  ⟨canEnd_retry.mpr ⟨h, fun _ _ _ => canEnd_done⟩, fun _ hr => hr⟩

theorem Yields.draw : Yields max draw fun _ => True :=
  ⟨canEnd_draw.mpr fun _ _ => canEnd_done, fun _ _ => trivial⟩

/-- What this says about a run. -/
theorem Yields.runs (h : Yields max p P) (rs : List Nat) :
    p.run rs ≠ .failed ∧ ∀ a rest, p.run rs = .returned a rest → P a := by
  refine ⟨fun hfailed => ?_, fun a rest hrun => h.2.of_returned hrun⟩
  rcases h.2.run rs with hw | ⟨a, rest, hreturned, -⟩
  · rw [hfailed] at hw
    cases hw
  · rw [hfailed] at hreturned
    cases hreturned

end Yields

end Draw

end Calvin.Lib
