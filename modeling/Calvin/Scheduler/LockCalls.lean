import Calvin.Lib.Machine
import Calvin.Scheduler.LockManager

/-!
# Calls of the lock manager

A lock manager that is called from outside in any order: each transaction is
locked at most once and released at most once, after it was locked, whether it
has its locks by then or not. What is pushed to `ready_txns_` is kept in the
order it was pushed.
-/

namespace Calvin

open Lib

inductive LockCall
  | lock (p : Ptr)
  | release (p : Ptr)
deriving DecidableEq, Repr

structure LockCalls where
  lockManager : LockManager := {}
  /-- In the order of the calls of `Lock`. -/
  locked : List Ptr := []
  released : List Ptr := []
  readyTxns : List Ptr := []

namespace LockCalls

def lock (cfg : ClusterConfig) (mode : Nat) (txns : Ptr → TxnProto) (s : LockCalls) (p : Ptr) :
    Option LockCalls :=
  if p ∉ s.locked then
    let (lockManager, pushed) := s.lockManager.lock cfg mode p (txns p)
    some { s with lockManager, locked := s.locked ++ [p], readyTxns := s.readyTxns ++ pushed }
  else none

def release (cfg : ClusterConfig) (mode : Nat) (txns : Ptr → TxnProto) (s : LockCalls) (p : Ptr) :
    Option LockCalls :=
  if p ∈ s.locked ∧ p ∉ s.released then
    (s.lockManager.release cfg mode p (txns p)).map fun (lockManager, pushed) =>
      { s with lockManager, released := p :: s.released, readyTxns := s.readyTxns ++ pushed }
  else none

/-- One call. -/
def call (cfg : ClusterConfig) (mode : Nat) (txns : Ptr → TxnProto) (s : LockCalls) :
    LockCall → Option LockCalls
  | .lock p => lock cfg mode txns s p
  | .release p => release cfg mode txns s p

def machine (cfg : ClusterConfig) (mode : Nat) (txns : Ptr → TxnProto) :
    Machine LockCalls LockCall where
  init := {}
  next := call cfg mode txns

/-- Only transactions that have been pushed to `ready_txns_` are released. -/
def OnlyReady (s : LockCalls) : LockCall → Prop
  | .lock _ => True
  | .release p => p ∈ s.readyTxns

instance (s : LockCalls) : (c : LockCall) → Decidable (OnlyReady s c)
  | .lock _ => .isTrue trivial
  | .release p => inferInstanceAs (Decidable (p ∈ s.readyTxns))

/-- The first transaction in the order of the calls of `Lock` that has not been
released. -/
def earliest (s : LockCalls) : Option Ptr :=
  s.locked.find? fun p => p ∉ s.released

variable {cfg : ClusterConfig} {mode : Nat} {txns : Ptr → TxnProto}

theorem lock_cases {s s' : LockCalls} {p : Ptr} (h : lock cfg mode txns s p = some s') :
    p ∉ s.locked ∧ s' =
      { s with
        lockManager := (s.lockManager.lock cfg mode p (txns p)).1
        locked := s.locked ++ [p]
        readyTxns := s.readyTxns ++ (s.lockManager.lock cfg mode p (txns p)).2 } := by
  rw [lock, Option.ite_none_right_eq_some] at h
  exact ⟨h.1, (Option.some.inj h.2).symm⟩

theorem release_cases {s s' : LockCalls} {p : Ptr} (h : release cfg mode txns s p = some s') :
    p ∈ s.locked ∧ p ∉ s.released ∧ ∃ lockManager pushed,
      s.lockManager.release cfg mode p (txns p) = some (lockManager, pushed) ∧ s' =
        { s with
          lockManager
          released := p :: s.released
          readyTxns := s.readyTxns ++ pushed } := by
  rw [release, Option.ite_none_right_eq_some, Option.map_eq_some_iff] at h
  obtain ⟨⟨hl, hr⟩, ⟨lockManager, pushed⟩, hrel, heq⟩ := h
  exact ⟨hl, hr, lockManager, pushed, hrel, heq.symm⟩

end LockCalls

end Calvin
