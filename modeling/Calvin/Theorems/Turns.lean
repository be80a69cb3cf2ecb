import Calvin.Scheduler.LockOwners
import Calvin.Theorems.EarlyWakeUp
import Calvin.Theorems.LockOrder

/-!
# Transactions in their turn

The conditions of the order of locks and of the wake-ups, together with one on
remaster transactions: none is started before the stored counter has reached
that of its entry. What is locked while they are met has been locked in its turn.

* `InTurn`: the conditions on a step of a node;
* `Turns`: the invariant of the lock manager thread, with `Turns.step`.
-/

namespace Calvin.DeterministicScheduler

open Function Lib RemasterWaits

variable {cfg : ClusterConfig} {txns : Ptr → TxnProto} {compute : Compute} {s s' : Node}

/-- The manager of a remaster transaction is created while the stored counter is
behind that of its entry. -/
def remasterAhead (txns : Ptr → TxnProto) (s : Node) : Event → Bool
  | .start =>
      match s.txnsQueue with
      | p :: _ =>
          (txns p).remasterTxn && (txns p).readWriteSet.head?.any fun entry =>
            (s.store entry.key).counter < entry.counter
      | [] => false
  | _ => false

/-- No remaster transaction overtakes one that is blocked, nothing is woken that
still has to wait, and no remaster transaction comes before its turn. -/
def InTurn (cfg : ClusterConfig) (txns : Ptr → TxnProto) (s : Node) (e : Event) : Prop :=
  overtakes cfg txns s e = false ∧ WakesInTime txns s e ∧ remasterAhead txns s e = false

instance (s : Node) (e : Event) : Decidable (InTurn cfg txns s e) :=
  inferInstanceAs (Decidable (_ ∧ _))

/-- What is past `Lock`, in terms of the records. -/
structure Turns (cfg : ClusterConfig) (txns : Ptr → TxnProto) (s : Node) : Prop where
  order : OrderInv cfg txns s
  counters : CountersInv cfg txns s
  /-- Remaster transactions are locked at once. -/
  taken : ∀ p < s.next, p ∈ s.locked ∨ (txns p).remasterTxn = false ∧
    (p ∈ s.waits.blockingTxns (txns p).originReplica ∨ s.status p = .abortedWithoutLock)
  unmarked : ∀ p, (txns p).remasterTxn = true → s.status p ≠ .abortedWithoutLock
  verifying : s.verifying.isSome → (txns s.next).remasterTxn = false
  /-- Others are locked when the counters of their entries are reached. -/
  reached : ∀ p ∈ s.locked, (txns p).remasterTxn = false → ∀ entry,
    ¬ Ahead cfg s.store (txns p) entry

theorem turns_init (hnew : ∀ p, (txns p).status ≠ .abortedWithoutLock) (store : Key → Record) :
    Turns cfg txns (initial txns store) where
  order := orderInv_init store
  counters := countersInv_init store
  taken p hp := absurd hp (Nat.not_lt_zero p)
  unmarked p _ := hnew p
  verifying h := absurd h Bool.false_ne_true
  reached _ hp := absurd hp List.not_mem_nil

theorem Ahead.mono {store store' : Key → Record} {txn : TxnProto} {entry : KeyEntry}
    (h : Ahead cfg store' txn entry) (hle : ∀ k, (store k).counter ≤ (store' k).counter) :
    Ahead cfg store txn entry :=
  ⟨h.1, h.2.1, h.2.2.1, Nat.lt_of_le_of_lt (hle _) h.2.2.2⟩

namespace Turns

/-- Steps of the workers. -/
theorem worker (hi : Turns cfg txns s) (horder : OrderInv cfg txns s')
    (hcounters : CountersInv cfg txns s') (hsame : SameThread s s')
    (hmarked : ∀ p, s'.status p = .abortedWithoutLock ↔ s.status p = .abortedWithoutLock)
    (hle : ∀ k, (s.store k).counter ≤ (s'.store k).counter) : Turns cfg txns s' where
  order := horder
  counters := hcounters
  taken p hp := by
    rw [hsame.next] at hp
    rw [hsame.locked, hsame.waits, hmarked]
    exact hi.taken p hp
  unmarked p hr hs := hi.unmarked p hr ((hmarked p).mp hs)
  verifying h := by
    rw [hsame.verifying] at h
    rw [hsame.next]
    exact hi.verifying h
  reached p hp hr entry hahead := by
    rw [hsame.locked] at hp
    exact hi.reached p hp hr entry (hahead.mono hle)

/-- The next transaction is taken. -/
theorem take (hi : Turns cfg txns s) (horder : OrderInv cfg txns s')
    (hcounters : CountersInv cfg txns s') (hn : s'.next = s.next + 1) (hv : s'.verifying = none)
    (hstore : s'.store = s.store)
    (hlocked : ∀ p, p ∈ s'.locked ↔ p ∈ s.locked ∨ p = s.next ∧ s.next ∈ s'.locked)
    (hblocked : ∀ r, ∀ p ∈ s.waits.blockingTxns r, p ∈ s'.waits.blockingTxns r)
    (hmarked : ∀ p, s'.status p = .abortedWithoutLock ↔
      s.status p = .abortedWithoutLock ∨ p = s.next ∧ s'.status s.next = .abortedWithoutLock)
    (hnext : s.next ∈ s'.locked ∧ ((txns s.next).remasterTxn = false →
        ∀ entry, ¬ Ahead cfg s.store (txns s.next) entry) ∨
      s.next ∉ s'.locked ∧ (s.next ∈ s'.waits.blockingTxns (txns s.next).originReplica ∨
        s'.status s.next = .abortedWithoutLock))
    (hremaster : (txns s.next).remasterTxn = false ∨
      s.next ∈ s'.locked ∧ s'.status s.next ≠ .abortedWithoutLock) : Turns cfg txns s' where
  order := horder
  counters := hcounters
  taken p hp := by
    rcases Nat.lt_or_eq_of_le (Nat.lt_succ_iff.mp (hn ▸ hp)) with hlt | rfl
    · rcases hi.taken p hlt with hl | ⟨hr, hb | hs⟩
      · exact .inl ((hlocked p).mpr (.inl hl))
      · exact .inr ⟨hr, .inl (hblocked _ p hb)⟩
      · exact .inr ⟨hr, .inr ((hmarked p).mpr (.inl hs))⟩
    · rcases hnext with ⟨hl, -⟩ | ⟨hnot, hway⟩
      · exact .inl hl
      · exact .inr ⟨hremaster.resolve_right fun h => hnot h.1, hway⟩
  unmarked p hr hs := by
    rcases (hmarked p).mp hs with hs | ⟨rfl, hs⟩
    · exact hi.unmarked p hr hs
    · rcases hremaster with hnot | ⟨-, hnot⟩
      · rw [hnot] at hr
        cases hr
      · exact hnot hs
  verifying h := by
    rw [hv] at h
    exact absurd h Bool.false_ne_true
  reached p hp hr entry := by
    rw [hstore]
    rcases (hlocked p).mp hp with hp | ⟨rfl, hl⟩
    · exact hi.reached p hp hr entry
    · exact (hnext.resolve_right fun h => h.1 hl).2 hr entry

theorem parse (hi : Turns cfg txns s) (horder : OrderInv cfg txns s')
    (hcounters : CountersInv cfg txns s') (h : parse cfg 2 txns s = some s') :
    Turns cfg txns s' := by
  obtain ⟨hv, ⟨hr, rfl⟩ | ⟨hr, rfl⟩⟩ := parse_cases h
  · exact
      { order := horder, counters := hcounters, taken := hi.taken, unmarked := hi.unmarked
        verifying := fun _ => hr, reached := hi.reached }
  · have hmem : s.next ∈ s.locked ++ [s.next] := List.mem_append_right _ List.mem_cons_self
    refine hi.take horder hcounters rfl hv rfl (fun p => ?_) (fun r p hp => hp) (fun p => ?_)
      (.inl ⟨hmem, fun hnot => ?_⟩) (.inr ⟨hmem, hi.unmarked _ hr⟩)
    · show p ∈ s.locked ++ [s.next] ↔ p ∈ s.locked ∨ p = s.next ∧ s.next ∈ s.locked ++ [s.next]
      simp
    · refine ⟨.inl, fun h => h.elim id ?_⟩
      rintro ⟨rfl, hs⟩
      exact hs
    · rw [hr] at hnot
      cases hnot

theorem route (hi : Turns cfg txns s) (horder : OrderInv cfg txns s')
    (hcounters : CountersInv cfg txns s') (h : route cfg 2 txns s = some s') :
    Turns cfg txns s' := by
  obtain ⟨v, hv, rfl⟩ := route_eq h
  have hr : (txns s.next).remasterTxn = false := hi.verifying (by rw [hv]; rfl)
  have hfresh : s.next ∉ s.locked := hi.order.next_not_locked
  have hstatus : ∀ p, marks s v p = .abortedWithoutLock ↔ s.status p = .abortedWithoutLock ∨
      p = s.next ∧ marks s v s.next = .abortedWithoutLock := by
    intro p
    by_cases hp : p = s.next
    · subst hp
      refine ⟨fun h => .inr ⟨rfl, h⟩, fun h => h.elim (fun h => ?_) And.right⟩
      exact (marks_iff s v s.next).mpr (.inl h)
    · rw [marks_of_ne v hp]
      exact ⟨.inl, fun h => h.resolve_right fun h => hp h.1⟩
  have hsame : ∀ p, p ∈ s.locked ↔ p ∈ s.locked ∨ p = s.next ∧ s.next ∈ s.locked := fun p =>
    ⟨.inl, fun h => h.elim id fun h => h.1 ▸ h.2⟩
  rcases routeVerified_cases cfg 2 txns { s with status := marks s v } s.next v with
    ⟨-, heq⟩ | ⟨-, hmarked, heq⟩ | ⟨-, -, heq⟩ | ⟨hexec, -, heq⟩
  · rw [heq] at horder hcounters ⊢
    exact hi.take horder hcounters rfl rfl rfl hsame
      (fun r p hp => mem_block.mpr (.inl hp)) hstatus
      (.inr ⟨hfresh, .inl (mem_block.mpr (.inr ⟨rfl, rfl⟩))⟩) (.inl hr)
  · rw [heq] at horder hcounters ⊢
    exact hi.take horder hcounters rfl rfl rfl hsame (fun r p hp => hp) hstatus
      (.inr ⟨hfresh, .inr hmarked⟩) (.inl hr)
  · rw [heq] at horder hcounters ⊢
    exact hi.take horder hcounters rfl rfl rfl hsame
      (fun r p hp => mem_block.mpr (.inl hp)) hstatus
      (.inr ⟨hfresh, .inl (mem_block.mpr (.inr ⟨rfl, rfl⟩))⟩) (.inl hr)
  · rw [heq] at horder hcounters ⊢
    have hmem : s.next ∈ s.locked ++ [s.next] := List.mem_append_right _ List.mem_cons_self
    refine hi.take horder hcounters rfl rfl rfl (fun p => ?_) (fun r p hp => hp) hstatus
      (.inl ⟨hmem, fun _ => (hi.counters.verified _ v hv).not_ahead hexec⟩) (.inl hr)
    show p ∈ s.locked ++ [s.next] ↔ p ∈ s.locked ∨ p = s.next ∧ s.next ∈ s.locked ++ [s.next]
    simp

/-- What is woken is locked when its counters are reached. -/
theorem handleDone (hi : Turns cfg txns s) (horder : OrderInv cfg txns s')
    (hgood : wakesInVain txns s .handleDone = false) (h : handleDone cfg 2 txns s = some s') :
    Turns cfg txns s' := by
  obtain ⟨hcounters, ready, hready, hstore, hnone⟩ := hi.counters.handleDone hgood h
  obtain ⟨hv, q, rest, waits, ready', -, hwake, lockManager, readyTxns, rfl⟩ :=
    handleDone_cases h
  obtain rfl : ready' = ready := List.append_cancel_left hready
  obtain ⟨-, hpre⟩ := wakeUp_prefix hi.order.filed hwake
  refine
    { order := horder, counters := hcounters, taken := fun p hp => ?_, unmarked := hi.unmarked
      verifying := hi.verifying, reached := fun p hp hr => ?_ }
  · rcases hi.taken p hp with hl | ⟨hr, hb | hs⟩
    · exact .inl (List.mem_append_left _ hl)
    · rw [hpre] at hb
      rcases List.mem_append.mp hb with hb | hb
      · exact .inl (List.mem_append_right _ (List.mem_filter.mp hb).1)
      · exact .inr ⟨hr, .inl hb⟩
    · exact .inr ⟨hr, .inr hs⟩
  · rcases List.mem_append.mp hp with hp | hp
    · exact hi.reached p hp hr
    · exact hnone p hp

theorem step (hform : ∀ p, (txns p).remasterTxn = true → RemasterForm cfg (txns p)) {e : Event}
    (hi : Turns cfg txns s) (hgood : InTurn cfg txns s e)
    (h : step cfg 2 txns compute s e = some s') : Turns cfg txns s' := by
  have horder := hi.order.step hgood.1 h
  have hcounters := hi.counters.step hform hgood.2.1 h
  have hsame : SameThread s s' → (∀ p, s'.status p = .abortedWithoutLock ↔
      s.status p = .abortedWithoutLock) → (∀ k, (s.store k).counter ≤ (s'.store k).counter) →
      Turns cfg txns s' := hi.worker horder hcounters
  cases e with
  | parse => exact hi.parse horder hcounters h
  | verify =>
      obtain ⟨entry, rest, v, hv, rfl⟩ := verify_cases h
      exact
        { order := horder, counters := hcounters, taken := hi.taken, unmarked := hi.unmarked
          verifying := fun _ => hi.verifying (by rw [hv]; rfl), reached := hi.reached }
  | route => exact hi.route horder hcounters h
  | dispatch =>
      have hthread := dispatch_frame h
      obtain ⟨-, q, rest, -, rfl⟩ := dispatch_cases h
      exact hsame hthread (fun _ => Iff.rfl) fun _ => Nat.le_refl _
  | handleDone => exact hi.handleDone horder hgood.2.1.2 h
  | start =>
      have hthread := start_frame h
      obtain ⟨⟨s₁, sent⟩, hstart, rfl⟩ := Option.map_eq_some_iff.mp h
      obtain ⟨q, rest, -, -, rfl⟩ := start_cases hstart
      exact hsame hthread (fun _ => Iff.rfl) fun _ => Nat.le_refl _
  | readResult q entries =>
      have hthread := readResult_frame h
      obtain ⟨sm, -, -, rfl⟩ := readResult_cases h
      exact hsame hthread (fun _ => Iff.rfl) fun _ => Nat.le_refl _
  | run q guid random =>
      have hthread := run_frame h
      obtain ⟨⟨s₁, forword⟩, hrun, rfl⟩ := Option.map_eq_some_iff.mp h
      refine hsame hthread (run_sameLocks (fun _ => rfl) hrun).marked ?_
      obtain ⟨sm, -, -, ⟨store, hexec, rfl⟩ | ⟨status, -, rfl⟩⟩ := run_cases hrun
      · exact Microbenchmark.execute_counter hexec
      · exact fun _ => Nat.le_refl _

end Turns

end Calvin.DeterministicScheduler
