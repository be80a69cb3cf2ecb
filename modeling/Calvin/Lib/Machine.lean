import Mathlib.Data.List.Basic

/-!
# Event-driven machines

A machine answers each event with at most one next state; every source of
nondeterminism (schedulers, networks, other threads) is in the choice of the
event. This keeps runs executable: a concrete trace is evaluated by `run`,
while the theorems quantify over every trace through `Reach`.

* `Machine.run` replays a list of events;
* `Machine.Reach m good` holds of the states reached by runs all of whose
  steps meet `good`; `Machine.Reachable` puts no condition on the steps;
* `Machine.Reach.invariant` is the induction rule every invariant uses, and
  `Machine.Reach.simulate` the one for simulations;
* `Machine.Leads` says that a state with a property can be reached from here.
-/

namespace Calvin.Lib

/-- A deterministic response to each event; `none` says the event cannot
happen in this state. -/
structure Machine (σ ε : Type) where
  init : σ
  next : σ → ε → Option σ

namespace Machine

variable {σ ε : Type} (m : Machine σ ε)

/-- Replay a trace from a state. -/
def run : σ → List ε → Option σ
  | s, [] => some s
  | s, e :: es => (m.next s e).bind fun s' => run s' es

/-- The states of runs from the initial state in which every step `s —e→ s'`
meets the condition `good s e`. -/
inductive Reach (good : σ → ε → Prop) : σ → Prop
  | init : Reach good m.init
  | step {s s' e} : Reach good s → good s e → m.next s e = some s' → Reach good s'

/-- Reachable with no condition on the steps. -/
abbrev Reachable : σ → Prop := m.Reach fun _ _ => True

/-- Replay a trace from the initial state. -/
abbrev trace (es : List ε) : Option σ := m.run m.init es

variable {m}

/-- An invariant of every step that meets the condition holds in every state
such runs reach. The step case may use that the source state is reached. -/
theorem Reach.invariant {good : σ → ε → Prop} {P : σ → Prop} (h0 : P m.init)
    (hstep : ∀ s e s', m.Reach good s → good s e → P s → m.next s e = some s' → P s')
    {s : σ} (h : m.Reach good s) : P s := by
  induction h with
  | init => exact h0
  | step hr hg hn ih => exact hstep _ _ _ hr hg ih hn

/-- Weakening the condition keeps the reached states. -/
theorem Reach.mono {good good' : σ → ε → Prop} (hle : ∀ s e, good s e → good' s e)
    {s : σ} (h : m.Reach good s) : m.Reach good' s := by
  induction h with
  | init => exact .init
  | step _ hg hn ih => exact .step ih (hle _ _ hg) hn

/-- Forward simulation: a machine that can follow each step of another one, in any
number of steps, follows its runs. -/
theorem Reach.simulate {σ' ε' : Type} {m' : Machine σ' ε'} {good : σ → ε → Prop}
    {good' : σ' → ε' → Prop} {R : σ → σ' → Prop} (h0 : R m.init m'.init)
    (hstep : ∀ s e t s', good s e → R s s' → m.next s e = some t → m'.Reach good' s' →
      ∃ t', m'.Reach good' t' ∧ R t t')
    {s : σ} (h : m.Reach good s) : ∃ s', m'.Reach good' s' ∧ R s s' := by
  induction h with
  | init => exact ⟨_, .init, h0⟩
  | step _ hg hn ih =>
      obtain ⟨s', hr, hrel⟩ := ih
      exact hstep _ _ _ s' hg hrel hn hr

/-- The same for a run from related states, step by step. -/
theorem run_simulate {σ' ε' : Type} {m' : Machine σ' ε'} {R : σ → σ' → Prop}
    (hstep : ∀ s e t s', R s s' → m.next s e = some t → ∃ e' t', m'.next s' e' = some t' ∧ R t t')
    {s t : σ} {s' : σ'} (hR : R s s') {es : List ε} (h : m.run s es = some t) :
    ∃ es' t', m'.run s' es' = some t' ∧ es'.length = es.length ∧ R t t' := by
  induction es generalizing s s' with
  | nil => cases h; exact ⟨[], s', rfl, rfl, hR⟩
  | cons e es ih =>
      obtain ⟨s₁, hs₁, hrest⟩ := Option.bind_eq_some_iff.mp h
      obtain ⟨e', s₁', hs₁', hR₁⟩ := hstep s e s₁ s' hR hs₁
      obtain ⟨es', t', hrun, hlen, hRt⟩ := ih hR₁ hrest
      exact ⟨e' :: es', t', Option.bind_eq_some_iff.mpr ⟨s₁', hs₁', hrun⟩,
        congrArg Nat.succ hlen, hRt⟩

theorem Reach.reachable {good : σ → ε → Prop} {s : σ} (h : m.Reach good s) :
    m.Reachable s :=
  h.mono fun _ _ _ => trivial

@[simp] theorem run_nil (s : σ) : m.run s [] = some s := rfl

@[simp] theorem run_cons (s : σ) (e : ε) (es : List ε) :
    m.run s (e :: es) = (m.next s e).bind fun s' => m.run s' es := rfl

/-- Replaying from a reachable state stays among the reachable ones. -/
theorem Reachable.run {s t : σ} (h : m.Reachable s) {es : List ε}
    (hrun : m.run s es = some t) : m.Reachable t := by
  induction es generalizing s with
  | nil => cases hrun; exact h
  | cons e es ih =>
      rw [run_cons, Option.bind_eq_some_iff] at hrun
      obtain ⟨s', hs', hrest⟩ := hrun
      exact ih (.step h trivial hs') hrest

/-! ## Runs that end -/

/-- A measure that every step makes smaller bounds the length of the runs. -/
theorem length_le_of_decreases {μ : σ → Nat}
    (hdec : ∀ s e s', m.Reachable s → m.next s e = some s' → μ s' < μ s) {es : List ε} {s t : σ}
    (h : m.Reachable s) (hrun : m.run s es = some t) : es.length + μ t ≤ μ s := by
  induction es generalizing s with
  | nil => cases hrun; exact Nat.le_of_eq (Nat.zero_add _)
  | cons e es ih =>
      rw [run_cons, Option.bind_eq_some_iff] at hrun
      obtain ⟨s', hs', hrest⟩ := hrun
      have hle := ih (h.step trivial hs') hrest
      have hlt := hdec s e s' h hs'
      rw [List.length_cons]
      omega

theorem run_append (s : σ) (es es' : List ε) :
    m.run s (es ++ es') = (m.run s es).bind fun t => m.run t es' := by
  induction es generalizing s with
  | nil => rfl
  | cons e es ih =>
      rw [List.cons_append, run_cons, run_cons, Option.bind_assoc]
      exact Option.bind_congr fun t _ => ih t

theorem trace_concat {es : List ε} {e : ε} {s t : σ} (h : m.trace es = some s)
    (hn : m.next s e = some t) : m.trace (es ++ [e]) = some t := by
  rw [trace] at h
  rw [trace, run_append, h, Option.bind_some, run_cons, hn]
  rfl

theorem Reach.exists_trace {good : σ → ε → Prop} {s : σ} (h : m.Reach good s) :
    ∃ es, m.trace es = some s := by
  induction h with
  | init => exact ⟨[], rfl⟩
  | step _ _ hn ih =>
      obtain ⟨es, hes⟩ := ih
      exact ⟨_, trace_concat hes hn⟩

/-- When the runs are bounded, each can be continued to a state without a step. -/
theorem exists_end {n : Nat} (hbound : ∀ es t, m.trace es = some t → es.length ≤ n) {s : σ}
    (h : m.Reachable s) : ∃ es t, m.run s es = some t ∧ ∀ e, m.next t e = none := by
  obtain ⟨es₀, htrace⟩ := h.exists_trace
  induction hk : n - es₀.length using Nat.strongRecOn generalizing s es₀ with
  | _ k ih =>
      by_cases hend : ∀ e, m.next s e = none
      · exact ⟨[], s, rfl, hend⟩
      · obtain ⟨e, he⟩ := not_forall.mp hend
        obtain ⟨s', hs'⟩ := Option.ne_none_iff_exists'.mp he
        have htrace' : m.trace (es₀ ++ [e]) = some s' := trace_concat htrace hs'
        have hle := hbound _ _ htrace'
        rw [List.length_append, List.length_singleton] at hle
        obtain ⟨es, t, hrun, ht⟩ := ih (n - (es₀ ++ [e]).length)
          (by rw [List.length_append, List.length_singleton]; omega) (h.step trivial hs') _
          htrace' rfl
        exact ⟨e :: es, t, by rw [run_cons, hs', Option.bind_some, hrun], ht⟩

/-! ## What a state leads to -/

/-- Some run of allowed steps leads to a state with a property. -/
def Leads (m : Machine σ ε) (allowed : ε → Prop) (P : σ → Prop) (s : σ) : Prop :=
  ∃ es t, (∀ e ∈ es, allowed e) ∧ m.run s es = some t ∧ P t

namespace Leads

variable {allowed : ε → Prop} {P Q : σ → Prop} {s : σ}

theorem refl (h : P s) : m.Leads allowed P s :=
  ⟨[], s, fun _ he => absurd he List.not_mem_nil, rfl, h⟩

theorem head {e : ε} {s' : σ} (he : allowed e) (hn : m.next s e = some s')
    (h : m.Leads allowed P s') : m.Leads allowed P s := by
  obtain ⟨es, t, hes, hrun, ht⟩ := h
  refine ⟨e :: es, t, fun e' he' => ?_, by rw [run_cons, hn, Option.bind_some, hrun], ht⟩
  rcases List.mem_cons.mp he' with rfl | he'
  · exact he
  · exact hes e' he'

theorem trans (h : m.Leads allowed P s) (hP : ∀ t, P t → m.Leads allowed Q t) :
    m.Leads allowed Q s := by
  obtain ⟨es, t, hes, hrun, ht⟩ := h
  obtain ⟨es', t', hes', hrun', ht'⟩ := hP t ht
  refine ⟨es ++ es', t', fun e he => ?_, by rw [run_append, hrun, Option.bind_some, hrun'], ht'⟩
  rcases List.mem_append.mp he with he | he
  · exact hes e he
  · exact hes' e he

theorem mono (h : m.Leads allowed P s) (hP : ∀ t, P t → Q t) : m.Leads allowed Q s :=
  h.trans fun t ht => refl (hP t ht)

/-- As long as the property fails, an allowed step keeps the invariant and makes a
measure smaller. -/
theorem of_measure {I : σ → Prop} (μ : σ → Nat)
    (hstep : ∀ s, I s → ¬ P s → ∃ e s', allowed e ∧ m.next s e = some s' ∧ I s' ∧ μ s' < μ s)
    (h : I s) : m.Leads allowed (fun t => I t ∧ P t) s := by
  induction hk : μ s using Nat.strongRecOn generalizing s with
  | _ k ih =>
      by_cases hP : P s
      · exact refl ⟨h, hP⟩
      · obtain ⟨e, s', he, hn, hI, hlt⟩ := hstep s h hP
        exact head he hn (ih (μ s') (hk ▸ hlt) hI rfl)

/-- Allowed steps that meet a condition everywhere lead to reachable states. -/
theorem reach {good : σ → ε → Prop} (hgood : ∀ s e, allowed e → good s e) (hs : m.Reach good s)
    (h : m.Leads allowed P s) : m.Leads allowed (fun t => m.Reach good t ∧ P t) s := by
  obtain ⟨es, t, hes, hrun, ht⟩ := h
  refine ⟨es, t, hes, hrun, ?_, ht⟩
  clear ht
  induction es generalizing s with
  | nil => cases hrun; exact hs
  | cons e es ih =>
      obtain ⟨s', hs', hrest⟩ := Option.bind_eq_some_iff.mp hrun
      exact ih (hs.step (hgood s e (hes e List.mem_cons_self)) hs')
        (fun e' he' => hes e' (List.mem_cons_of_mem _ he')) hrest

end Leads

/-- Replay a trace whose steps all meet a condition. -/
def runIf (m : Machine σ ε) (good : σ → ε → Prop) [∀ s e, Decidable (good s e)] :
    σ → List ε → Option σ
  | s, [] => some s
  | s, e :: es => if good s e then (m.next s e).bind fun s' => runIf m good s' es else none

theorem Reach.runIf {good : σ → ε → Prop} [∀ s e, Decidable (good s e)] {s t : σ}
    (h : m.Reach good s) {es : List ε} (hrun : m.runIf good s es = some t) : m.Reach good t := by
  induction es generalizing s with
  | nil => cases hrun; exact h
  | cons e es ih =>
      rw [Machine.runIf, Option.ite_none_right_eq_some, Option.bind_eq_some_iff] at hrun
      obtain ⟨hg, s', hs', hrest⟩ := hrun
      exact ih (.step h hg hs') hrest

/-- `exists_of_trace` for runs whose steps all meet a condition. -/
theorem exists_of_runIf (good : σ → ε → Prop) [∀ s e, Decidable (good s e)] {P : σ → Prop}
    [DecidablePred P] (es : List ε)
    (h : ((m.runIf good m.init es).any fun s => P s) = true) : ∃ s, m.Reach good s ∧ P s := by
  rw [Option.any_eq_true] at h
  obtain ⟨s, hs, hP⟩ := h
  exact ⟨s, Reach.runIf .init hs, of_decide_eq_true hP⟩

/-- A trace that can be replayed to a state with a decidable property shows
that such a state is reachable. -/
theorem exists_of_trace {P : σ → Prop} [DecidablePred P] (es : List ε)
    (h : ((m.trace es).any fun s => P s) = true) : ∃ s, m.Reachable s ∧ P s := by
  rw [Option.any_eq_true] at h
  obtain ⟨s, hs, hP⟩ := h
  exact ⟨s, Reachable.run .init hs, of_decide_eq_true hP⟩

end Machine

end Calvin.Lib
