import Calvin.Machine.LowlatencySequencer
import Calvin.Scheduler.Pipeline

/-!
# The order of the lock requests of one origin

Transactions of one log that conflict on a record of that log request their
locks in log order, unless a remaster transaction overtakes one that waits: it
is passed to `Lock` without a look at the blocking queue.

* `lock_order`: the order, in runs in which no remaster transaction conflicts
  with a blocked transaction of its origin when it is taken;
* `remaster_overtakes`: without the condition it fails.
-/

namespace Calvin.DeterministicScheduler

open Function Lib Machine RemasterWaits

variable {cfg : ClusterConfig} {txns : Ptr → TxnProto} {compute : Compute}

/-- Two transactions of one origin have a local record of that origin in
common, and one of them writes it. -/
def LogConflict (cfg : ClusterConfig) (a b : TxnProto) : Prop :=
  a.originReplica = b.originReplica ∧
    ∃ ea ∈ a.readSet ++ a.readWriteSet, ∃ eb ∈ b.readSet ++ b.readWriteSet,
      ea.key = eb.key ∧ cfg.isLocal ea.key = true ∧
      ea.master = a.originReplica ∧ eb.master = b.originReplica ∧
      (ea ∈ a.readWriteSet ∨ eb ∈ b.readWriteSet)

instance (a b : TxnProto) : Decidable (LogConflict cfg a b) :=
  inferInstanceAs (Decidable (_ ∧ _))

/-- The next transaction is a remaster transaction that conflicts with one that
is blocked. -/
def overtakes (cfg : ClusterConfig) (txns : Ptr → TxnProto) (s : Node) : Event → Bool
  | .parse =>
      (txns s.next).remasterTxn &&
        (s.waits.blockingTxns (txns s.next).originReplica).any fun a =>
          LogConflict cfg (txns a) (txns s.next)
  | _ => false

/-- Between two calls of `Lock`. -/
structure OrderInv (cfg : ClusterConfig) (txns : Ptr → TxnProto) (s : Node) : Prop
    extends Pipeline txns s where
  /-- Nothing that conflicts with a locked transaction and comes before it is
  blocked; what was locked of it was locked before. -/
  order : ∀ a b, a < b → LogConflict cfg (txns a) (txns b) → b ∈ s.locked →
    a ∉ s.waits.blockingTxns (txns a).originReplica ∧ (a ∈ s.locked → [a, b].Sublist s.locked)

theorem orderInv_init (store : Key → Record) : OrderInv cfg txns (initial txns store) where
  toPipeline := pipeline_init store
  order := by intro a b _ _ hb; exact absurd hb List.not_mem_nil

theorem pair_sublist_append {l m : List Ptr} {a b : Ptr} (ha : a ∈ l) (hb : b ∈ m) :
    [a, b].Sublist (l ++ m) :=
  (List.singleton_sublist.mpr ha).append (List.singleton_sublist.mpr hb)

theorem pair_sublist_of_sorted {l : List Ptr} (hl : l.Pairwise (· < ·)) {a b : Ptr} (ha : a ∈ l)
    (hb : b ∈ l) (hab : a < b) : [a, b].Sublist l := by
  induction l with
  | nil => exact absurd ha List.not_mem_nil
  | cons x l ih =>
      obtain ⟨hx, hl⟩ := List.pairwise_cons.mp hl
      have hb' : b ∈ l := by
        refine (List.mem_cons.mp hb).resolve_left fun hbx => ?_
        rcases List.mem_cons.mp ha with rfl | ha
        · exact Nat.ne_of_lt hab hbx.symm
        · exact Nat.lt_asymm hab (hbx ▸ hx a ha)
      rcases List.mem_cons.mp ha with rfl | ha
      · exact (List.singleton_sublist.mpr hb').cons_cons a
      · exact (ih hl ha hb').cons x

namespace OrderInv

theorem congr {s s' : Node} (hi : OrderInv cfg txns s) (h : SameThread s s') :
    OrderInv cfg txns s' where
  toPipeline := hi.toPipeline.congr h
  order := by rw [h.waits, h.locked]; exact hi.order

/-- The next transaction is passed on without locks. -/
theorem skip {s s' : Node} (hi : OrderInv cfg txns s) (hw : s'.waits = s.waits)
    (hl : s'.locked = s.locked) (hn : s'.next = s.next + 1) : OrderInv cfg txns s' where
  toPipeline := hi.toPipeline.skip hw hl hn
  order := by rw [hw, hl]; exact hi.order

/-- The next transaction is passed to `Lock`; nothing that is blocked conflicts
with it. -/
theorem lockNext {s s' : Node} (hi : OrderInv cfg txns s) (hw : s'.waits = s.waits)
    (hl : s'.locked = s.locked ++ [s.next]) (hn : s'.next = s.next + 1)
    (hfree : ∀ a ∈ s.waits.blockingTxns (txns s.next).originReplica,
      ¬ LogConflict cfg (txns a) (txns s.next)) : OrderInv cfg txns s' where
  toPipeline := hi.toPipeline.lockNext hw hl hn
  order := by
    intro a b hab hc hb
    rw [hl] at hb ⊢
    rw [hw]
    rcases List.mem_append.mp hb with hb | hb
    · -- an older transaction was locked: `a` is not the new one
      obtain ⟨hfreeA, hbefore⟩ := hi.order a b hab hc hb
      refine ⟨hfreeA, fun ha => ?_⟩
      rcases List.mem_append.mp ha with ha | ha
      · exact (hbefore ha).trans (List.sublist_append_left _ _)
      · have hlt := Nat.lt_trans hab (hi.lockedOld b hb)
        rw [List.mem_singleton.mp ha] at hlt
        exact absurd hlt (Nat.lt_irrefl _)
    · rw [List.mem_singleton.mp hb] at hab hc ⊢
      refine ⟨fun ha => hfree a (hc.1 ▸ ha) hc, fun ha => ?_⟩
      rcases List.mem_append.mp ha with ha | ha
      · exact pair_sublist_append ha List.mem_cons_self
      · rw [List.mem_singleton.mp ha] at hab
        exact absurd hab (Nat.lt_irrefl _)

/-- The next transaction is blocked. -/
theorem blockNext {s s' : Node} (hi : OrderInv cfg txns s)
    (hw : s'.waits.blockingTxns = (s.waits.block txns s.next).blockingTxns)
    (hl : s'.locked = s.locked) (hn : s'.next = s.next + 1) : OrderInv cfg txns s' where
  toPipeline := hi.toPipeline.blockNext hw hl hn
  order := by
    intro a b hab hc hb
    rw [hl] at hb ⊢
    rw [hw]
    obtain ⟨hfree, hbefore⟩ := hi.order a b hab hc hb
    refine ⟨fun ha => ?_, hbefore⟩
    rcases mem_block.mp ha with ha | ⟨rfl, -⟩
    · exact hfree ha
    · exact Nat.lt_asymm hab (hi.lockedOld b hb)

/-- The first transactions of the queues are passed to `Lock`, origin by origin
in queue order. -/
theorem wake {s s' : Node} {ready : List Ptr} (hi : OrderInv cfg txns s)
    (hfiled : Filed txns s'.waits)
    (hpre : ∀ r, s.waits.blockingTxns r =
      ready.filter (fun p => (txns p).originReplica = r) ++ s'.waits.blockingTxns r)
    (hl : s'.locked = s.locked ++ ready) (hn : s'.next = s.next) : OrderInv cfg txns s' where
  toPipeline := hi.toPipeline.wake hfiled hpre hl hn
  order := by
    intro a b hab hc hb
    rw [hl] at hb ⊢
    rcases List.mem_append.mp hb with hb | hb
    · -- `b` was locked before, so `a` was not blocked and is not ready
      obtain ⟨hfree, hbefore⟩ := hi.order a b hab hc hb
      refine ⟨fun ha => hfree (Pipeline.rest_blocked hpre ha), fun ha => ?_⟩
      rcases List.mem_append.mp ha with ha | ha
      · exact (hbefore ha).trans (List.sublist_append_left _ _)
      · exact absurd (Pipeline.ready_blocked hpre ha) hfree
    · refine ⟨fun ha => ?_, fun ha => ?_⟩
      · exact Nat.lt_asymm hab ((hi.split hpre _).2 b hb hc.1.symm a ha)
      · rcases List.mem_append.mp ha with ha | ha
        · exact pair_sublist_append ha hb
        · -- both are ready, in the order of their queue
          have hpair := pair_sublist_of_sorted (hi.split hpre (txns a).originReplica).1
            (List.mem_filter.mpr ⟨ha, decide_eq_true rfl⟩)
            (List.mem_filter.mpr ⟨hb, decide_eq_true hc.1.symm⟩) hab
          exact (hpair.trans List.filter_sublist).trans (List.sublist_append_right _ _)

theorem parse {s s' : Node} (hi : OrderInv cfg txns s)
    (hgood : overtakes cfg txns s .parse = false) (h : parse cfg 2 txns s = some s') :
    OrderInv cfg txns s' := by
  obtain ⟨-, ⟨-, rfl⟩ | ⟨hr, rfl⟩⟩ := parse_cases h
  · exact { hi with }
  · refine hi.lockNext rfl rfl rfl fun a ha hc => ?_
    -- a remaster transaction goes to `Lock` past the blocked ones
    rw [overtakes, hr, Bool.true_and, List.any_eq_false] at hgood
    exact hgood a ha (decide_eq_true hc)

theorem route {s s' : Node} (hi : OrderInv cfg txns s) (h : route cfg 2 txns s = some s') :
    OrderInv cfg txns s' := by
  obtain ⟨v, status, -, -, rfl⟩ := route_cases h
  rcases routeVerified_cases cfg 2 txns { s with status } s.next v with
    ⟨-, heq⟩ | ⟨-, -, heq⟩ | ⟨-, -, heq⟩ | ⟨-, hempty, heq⟩
  · rw [heq]
    exact hi.blockNext rfl rfl rfl
  · rw [heq]
    exact hi.skip rfl rfl rfl
  · rw [heq]
    exact hi.blockNext rfl rfl rfl
  · rw [heq]
    refine hi.lockNext rfl rfl rfl fun a ha => ?_
    change a ∈ s.waits.blockingTxns _ at ha
    rw [show s.waits.blockingTxns (txns s.next).originReplica = [] from hempty] at ha
    exact absurd ha List.not_mem_nil

theorem handleDone {s s' : Node} (hi : OrderInv cfg txns s)
    (h : handleDone cfg 2 txns s = some s') : OrderInv cfg txns s' := by
  obtain ⟨-, p, rest, waits, ready, -, hwake, lockManager, readyTxns, rfl⟩ := handleDone_cases h
  obtain ⟨hfiled, hpre⟩ := wakeUp_prefix hi.filed hwake
  exact hi.wake hfiled hpre rfl rfl

theorem step {s s' : Node} {e : Event} (hi : OrderInv cfg txns s)
    (hgood : overtakes cfg txns s e = false) (h : step cfg 2 txns compute s e = some s') :
    OrderInv cfg txns s' := by
  cases e with
  | parse => exact hi.parse hgood h
  | verify =>
      obtain ⟨entry, rest, v, -, rfl⟩ := verify_cases h
      exact { hi with }
  | route => exact hi.route h
  | dispatch => exact hi.congr (dispatch_frame h)
  | handleDone => exact hi.handleDone h
  | start => exact hi.congr (start_frame h)
  | readResult p entries => exact hi.congr (readResult_frame h)
  | run p guid random => exact hi.congr (run_frame h)

end OrderInv

theorem idxOf_lt_of_pair_sublist {l : List Ptr} (hn : l.Nodup) {a b : Ptr}
    (h : [a, b].Sublist l) : l.idxOf a < l.idxOf b := by
  induction l with
  | nil => exact absurd h (by simp)
  | cons x l ih =>
      obtain ⟨hx, hn⟩ := List.nodup_cons.mp hn
      by_cases hax : x = a
      · subst hax
        have hab : x ≠ b := by
          rintro rfl
          exact absurd (h.nodup (List.nodup_cons.mpr ⟨hx, hn⟩)) (by simp)
        rw [List.idxOf_cons_self, List.idxOf_cons_ne _ hab]
        exact Nat.succ_pos _
      · have hl : [a, b].Sublist l := by
          cases h with
          | cons _ h => exact h
          | cons_cons _ _ => exact absurd rfl hax
        have hbx : x ≠ b := by
          rintro rfl
          exact hx (hl.subset (by simp))
        rw [List.idxOf_cons_ne _ hax, List.idxOf_cons_ne _ hbx]
        exact Nat.succ_lt_succ (ih hn hl)

/-- In every run in which no remaster transaction is taken while one that
conflicts with it is blocked, conflicting transactions of one origin are passed
to `Lock` in stream order, each once. -/
theorem lock_order {store : Key → Record} {s : Node}
    (h : (machine cfg 2 txns compute store).Reach (fun s e => overtakes cfg txns s e = false) s) :
    s.locked.Nodup ∧
      ∀ a b, a < b → LogConflict cfg (txns a) (txns b) → a ∈ s.locked → b ∈ s.locked →
        s.locked.idxOf a < s.locked.idxOf b := by
  have hi : OrderInv cfg txns s :=
    h.invariant (orderInv_init store) fun _ _ _ _ hgood hi hn => hi.step hgood hn
  refine ⟨hi.nodup, fun a b hab hc ha hb => ?_⟩
  exact idxOf_lt_of_pair_sublist hi.nodup ((hi.order a b hab hc hb).2 ha)

/-! ## A remaster transaction that overtakes -/

/-- A transaction of log 0 waits for the remaster of key `1`, and a remaster
transaction of the same log follows, for key `0`. The remaster of key `1` is in
log 1. -/
def overtaken (p : Ptr) : TxnProto :=
  LowlatencySequencer.withReaders {} <| match p with
    | 0 => { txnId := 0, readWriteSet := [⟨[48], 0, 0⟩, ⟨[49], 0, 1⟩] }
    | 1 =>
        { txnId := 1, readWriteSet := [⟨[48], 0, 0⟩]
          remasterTxn := true, remasterFrom := 0, remasterTo := 1 }
    | 2 =>
        { txnId := 2, readWriteSet := [⟨[49], 1, 0⟩], originReplica := 1
          remasterTxn := true, remasterFrom := 1, remasterTo := 0 }
    | p => { txnId := p }

/-- Key `1` has its master at replica 1, the others at replica 0. -/
def mastered : Key → Record := fun k => ⟨[], if k = [49] then 1 else 0, 0⟩

/-- All three are taken, and the remaster of key `1` is executed. -/
def overtakingRun : List Event :=
  [.parse, .verify, .verify, .route, .parse, .parse, .dispatch, .dispatch, .start, .start,
    .run 2 0 0, .handleDone]

/-- A transaction blocked behind the first instead: both are woken in order. -/
def queued (p : Ptr) : TxnProto :=
  if p = 1 then
    LowlatencySequencer.withReaders {} { txnId := 1, readWriteSet := [⟨[48], 0, 0⟩] }
  else overtaken p

theorem lock_order_behind :
    ∃ s : Node, s.locked = [2, 0, 1] ∧ s.locked.idxOf 0 < s.locked.idxOf 1 := by
  obtain ⟨s, hs, hlocked⟩ := exists_of_runIf
    (m := machine {} 2 queued (fun _ _ _ => []) mastered)
    (fun s e => overtakes {} queued s e = false) (P := fun s => s.locked = [2, 0, 1])
    [.parse, .verify, .verify, .route, .parse, .verify, .route, .parse, .dispatch, .start,
      .run 2 0 0, .handleDone] (by decide)
  refine ⟨s, hlocked, (lock_order hs).2 0 1 (by decide) (by decide) ?_ ?_⟩
  · rw [hlocked]; decide
  · rw [hlocked]; decide

/-- The remaster transaction has its lock before the transaction that comes
first in the log. -/
theorem remaster_overtakes :
    ¬ ∀ (cfg : ClusterConfig) (txns : Ptr → TxnProto) (compute : Compute) (store : Key → Record)
        (s : Node), (machine cfg 2 txns compute store).Reachable s →
        ∀ a b, a < b → LogConflict cfg (txns a) (txns b) → a ∈ s.locked → b ∈ s.locked →
          s.locked.idxOf a < s.locked.idxOf b := by
  intro hclaim
  obtain ⟨s, hs, ha, hb, hafter⟩ := exists_of_trace
    (m := machine {} 2 overtaken (fun _ _ _ => []) mastered)
    (P := fun s => 0 ∈ s.locked ∧ 1 ∈ s.locked ∧ s.locked.idxOf 1 < s.locked.idxOf 0)
    overtakingRun (by decide)
  exact Nat.lt_asymm hafter (hclaim _ _ _ _ s hs 0 1 (by decide) (by decide) ha hb)

end Calvin.DeterministicScheduler
