import Calvin.Theorems.LockGrants

/-!
# The lock manager does not get stuck

Every queue is in the order of the calls of `Lock`. The earliest transaction that
has not been released is therefore the first in each of its queues, and has all
its locks. As long as the transactions that have been pushed to `ready_txns_` are
released, each of the others becomes the earliest in its turn.

* `earliest_ready`: the earliest unreleased transaction has been pushed;
* `release_all`: releasing pushed transactions only, all are released;
* `all_granted`: both, for every run that releases pushed transactions only.
-/

namespace Calvin.LockCalls

open Function Lib LockManager LockQueue Machine

variable {cfg : ClusterConfig} {mode : Nat} {txns : Ptr → TxnProto}

/-- What comes before the earliest unreleased transaction is released. -/
theorem earliest_cases {s : LockCalls} {p : Ptr} (h : earliest s = some p) :
    p ∈ s.locked ∧ p ∉ s.released ∧ ∀ q, Before s.locked q p → q ∈ s.released := by
  obtain ⟨hp, before, after, hsplit, hall⟩ := List.find?_eq_some_iff_append.mp h
  have hpr : p ∉ s.released := of_decide_eq_true hp
  refine ⟨by rw [hsplit]; simp, hpr, fun q hlt => ?_⟩
  have hdone : ∀ x ∈ before, x ∈ s.released := fun x hx => by simpa using hall x hx
  have hpb : p ∉ before := fun hpb => hpr (hdone p hpb)
  rw [Before, hsplit, List.idxOf_append_of_notMem hpb, List.idxOf_cons_self, Nat.add_zero] at hlt
  by_cases hq : q ∈ before
  · exact hdone q hq
  · rw [List.idxOf_append_of_notMem hq] at hlt
    omega

/-- While a transaction is unreleased there is an earliest one. -/
theorem earliest_isSome {s : LockCalls} {p : Ptr} (hp : p ∈ s.locked) (hr : p ∉ s.released) :
    ∃ q, earliest s = some q := by
  rw [← Option.isSome_iff_exists, earliest, List.find?_isSome]
  exact ⟨p, hp, decide_eq_true hr⟩

/-- In each of its queues the earliest unreleased transaction stands first. -/
theorem earliest_first {freed : Ptr → List Key} {s : LockCalls} {p : Ptr}
    (hi : Granting cfg mode txns freed s) (h : earliest s = some p) {a : Key × LockMode}
    (ha : a ∈ lockRequests cfg mode (txns p)) :
    ∃ post, s.lockManager.queue a.1 = ⟨a.2, p⟩ :: post := by
  obtain ⟨hp, hr, hbefore⟩ := earliest_cases h
  obtain ⟨pre, post, hsplit⟩ := List.append_of_mem (hi.held hp hr ha)
  cases pre with
  | nil => exact ⟨post, hsplit⟩
  | cons x pre =>
      -- what stands before it was locked before it, and has left the queue
      exfalso
      have hord := hi.grant.ordered a.1
      rw [hsplit, List.cons_append, owners_cons, owners_append, owners_cons] at hord
      have hlt := List.rel_of_pairwise_cons hord
        (List.mem_append_right (owners pre) List.mem_cons_self)
      refine hi.left x.owner (hbefore x.owner hlt) a.1 (mem_owners.mpr ⟨x, ?_, rfl⟩)
      rw [hsplit]
      exact List.mem_cons_self

/-- The earliest unreleased transaction has been pushed. -/
theorem earliest_ready {freed : Ptr → List Key} {s : LockCalls} {p : Ptr}
    (hi : Granting cfg mode txns freed s) (h : earliest s = some p) : p ∈ s.readyTxns := by
  obtain ⟨hp, hr, -⟩ := earliest_cases h
  refine (ready_iff hi hp hr).mpr (List.countP_eq_zero.mpr fun a ha hnot => ?_)
  obtain ⟨post, hqueue⟩ := earliest_first hi h ha
  rw [hqueue] at hnot
  simp [granted, Grantable] at hnot

/-- With all pushed transactions released, all are released. -/
theorem all_released {freed : Ptr → List Key} {s : LockCalls} (hi : Granting cfg mode txns freed s)
    (hready : ∀ p ∈ s.readyTxns, p ∈ s.released) : ∀ p ∈ s.locked, p ∈ s.released := by
  intro p hp
  by_contra hr
  obtain ⟨q, hq⟩ := earliest_isSome hp hr
  exact (earliest_cases hq).2.1 (hready q (earliest_ready hi hq))

/-- Released has been what was pushed, if the condition is met. -/
theorem released_ready {s : LockCalls} (h : (machine cfg mode txns).Reach OnlyReady s) :
    ∀ p ∈ s.released, p ∈ s.readyTxns := by
  refine h.invariant (P := fun s => ∀ p ∈ s.released, p ∈ s.readyTxns)
    (fun p hp => (List.not_mem_nil hp).elim) ?_
  intro s c s' _ hgood ih hn
  cases c with
  | lock p =>
      obtain ⟨-, rfl⟩ := lock_cases hn
      exact fun q hq => List.mem_append_left _ (ih q hq)
  | release p =>
      obtain ⟨-, -, lm, out, -, rfl⟩ := release_cases hn
      intro q hq
      rcases List.mem_cons.mp hq with rfl | hq
      · exact List.mem_append_left _ hgood
      · exact List.mem_append_left _ (ih q hq)

/-- The transactions not released. -/
def unreleased (s : LockCalls) : List Ptr :=
  s.locked.filter fun p => p ∉ s.released

/-- Calls of `Release` for pushed transactions only, until all are released. -/
theorem release_all (hkeys : ∀ p, (txns p).client.keys.Nodup) {s : LockCalls}
    (h : (machine cfg mode txns).Reach OnlyReady s) :
    ∃ (ps : List Ptr) (s' : LockCalls), (machine cfg mode txns).run s (ps.map .release) = some s' ∧
      (machine cfg mode txns).Reach OnlyReady s' ∧
      s'.locked = s.locked ∧ ∀ p ∈ s'.locked, p ∈ s'.released := by
  -- each call leaves one transaction less unreleased
  induction hn : (unreleased s).length using Nat.strong_induction_on generalizing s with
  | h n ih =>
      obtain ⟨freed, hi⟩ := Granting.reachable hkeys h.reachable
      cases hearliest : earliest s with
      | none =>
          refine ⟨[], s, rfl, h, rfl, fun p hp => ?_⟩
          by_contra hr
          obtain ⟨q, hq⟩ := earliest_isSome hp hr
          rw [hearliest] at hq
          cases hq
      | some p =>
          obtain ⟨hp, hr, -⟩ := earliest_cases hearliest
          obtain ⟨s₁, -, -, hrel, -⟩ := hi.release_defined hkeys hp hr
          have h₁ : (machine cfg mode txns).Reach OnlyReady s₁ :=
            .step (e := .release p) h (earliest_ready hi hearliest) hrel
          obtain ⟨-, -, lm, out, -, rfl⟩ := release_cases hrel
          have hless : (s.locked.filter fun q => q ∉ p :: s.released) =
              (unreleased s).filter fun q => q ≠ p := by
            rw [unreleased, List.filter_filter]
            exact List.filter_congr fun q _ => by simp [not_or]
          obtain ⟨ps, s', hrun, hreach, hlocked, hall⟩ := ih _ (by
            show (s.locked.filter fun q => q ∉ p :: s.released).length < n
            rw [hless, ← hn]
            refine List.length_filter_lt_length_iff_exists.mpr ⟨p, ?_, by simp⟩
            exact List.mem_filter.mpr ⟨hp, decide_eq_true hr⟩) h₁ rfl
          refine ⟨p :: ps, s', ?_, hreach, hlocked, hall⟩
          rw [List.map_cons, run_cons]
          show (release cfg mode txns s p).bind _ = _
          rw [hrel]
          exact hrun

/-- In every run that releases pushed transactions only: the earliest unreleased
transaction has been pushed, any pushed one can be released, and once all of them
are, none waits any more; calls of `Release` for pushed transactions lead there
from every state. -/
theorem all_granted (hkeys : ∀ p, (txns p).client.keys.Nodup) {s : LockCalls}
    (h : (machine cfg mode txns).Reach OnlyReady s) :
    (∀ p, earliest s = some p → p ∈ s.readyTxns) ∧
      (∀ p ∈ s.readyTxns, p ∉ s.released → (release cfg mode txns s p).isSome) ∧
      ((∀ p ∈ s.readyTxns, p ∈ s.released) → ∀ p ∈ s.locked, p ∈ s.readyTxns) ∧
      ∃ (ps : List Ptr) (s' : LockCalls),
        (machine cfg mode txns).run s (ps.map .release) = some s' ∧
        (machine cfg mode txns).Reach OnlyReady s' ∧ s'.locked = s.locked ∧
        ∀ p ∈ s'.locked, p ∈ s'.readyTxns := by
  obtain ⟨freed, hi⟩ := Granting.reachable hkeys h.reachable
  refine ⟨fun p hp => earliest_ready hi hp, fun p hp hr => ?_, fun hready p hp => ?_, ?_⟩
  · obtain ⟨s', -, -, hrel, -⟩ := hi.release_defined hkeys (hi.grant.pushedLocked p hp) hr
    rw [hrel]
    rfl
  · exact released_ready h p (all_released hi hready p hp)
  · obtain ⟨ps, s', hrun, hreach, hlocked, hall⟩ := release_all hkeys h
    exact ⟨ps, s', hrun, hreach, hlocked, fun p hp => released_ready hreach p (hall p hp)⟩

/-- Two writers of one key: after the first is released, the second has the lock. -/
theorem all_granted_second : ∃ s : LockCalls, s.locked = [0, 1, 2] ∧ s.released = [0] ∧
    earliest s = some 1 ∧ 1 ∈ s.readyTxns := by
  obtain ⟨s, hs, hlocked, hreleased, hearliest⟩ := exists_of_runIf
    (m := machine {} 0 writersAndReader) OnlyReady
    (P := fun s => s.locked = [0, 1, 2] ∧ s.released = [0] ∧ earliest s = some 1)
    [.lock 0, .lock 1, .lock 2, .release 0] (by decide)
  exact ⟨s, hlocked, hreleased, hearliest, (all_granted writersAndReader_keys hs).1 1 hearliest⟩

end Calvin.LockCalls
