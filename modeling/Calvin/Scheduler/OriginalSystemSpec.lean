import Calvin.Scheduler.Lifecycle
import Calvin.Scheduler.OriginalSystem
import Calvin.Theorems.OriginalRuns

/-!
# A replica that follows an order

A node steps in the same way whatever comes behind the transactions it has parsed.
So a replica of the system is in a state of `OriginalReplica.machine`, for every
order that begins with what its nodes have parsed.
-/

namespace Calvin

open Function Lib

namespace DeterministicScheduler

variable {cfg : ClusterConfig} {mode : Nat} {txns txns' : Ptr → TxnProto} {compute : Compute}
  {s s' : Node}

/-- Outside of mode 2 no counters are looked up, and only what is parsed counts. -/
theorem step_plain {e : Event} (hmode : mode ≠ 2) (hv : s.verifying = none)
    (h : step cfg mode txns compute s e = some s') :
    s'.verifying = none ∧ s'.next = s.next + if e = .parse then 1 else 0 := by
  cases e with
  | parse =>
      obtain ⟨-, ⟨htwo, -⟩ | rfl⟩ := parse_any h
      · exact absurd htwo hmode
      · exact ⟨hv, rfl⟩
  | verify =>
      obtain ⟨entry, rest, v, hsome, -⟩ := verify_cases h
      rw [hv] at hsome
      cases hsome
  | route =>
      obtain ⟨v, status, hsome, -, -⟩ := route_cases h
      rw [hv] at hsome
      cases hsome
  | dispatch =>
      obtain ⟨-, p, rest, -, rfl⟩ := dispatch_cases h
      exact ⟨hv, rfl⟩
  | handleDone =>
      obtain ⟨-, p, rest, waits, ready, -, -, lockManager, readyTxns, rfl⟩ := handleDone_cases h
      exact ⟨hv, rfl⟩
  | start =>
      obtain ⟨⟨node, sent⟩, hstart, rfl⟩ := Option.map_eq_some_iff.mp h
      obtain ⟨p, rest, -, -, rfl⟩ := start_cases hstart
      exact ⟨hv, rfl⟩
  | readResult p entries =>
      obtain ⟨sm, -, -, rfl⟩ := readResult_cases h
      exact ⟨hv, rfl⟩
  | run p guid random =>
      obtain ⟨⟨node, forword⟩, hrun, rfl⟩ := Option.map_eq_some_iff.mp h
      obtain ⟨sm, store, -, -, -, rfl⟩ := run_plain hmode hrun
      exact ⟨hv, rfl⟩

/-! ## Transactions that are not parsed yet -/

theorem txnOf_congr {p : Ptr} (h : txns p = txns' p) : txnOf txns s p = txnOf txns' s p := by
  simp [txnOf, h]

theorem start_congr (hi : Lifecycle txns' s) (h : ∀ p < s.next, txns p = txns' p) :
    start cfg mode txns s = start cfg mode txns' s := by
  unfold start
  cases hq : s.txnsQueue with
  | nil => rfl
  | cons p rest =>
      have hp : p < s.next := hi.lt_next (by simp [stages, hq])
      dsimp only
      rw [txnOf_congr (h p hp)]

theorem readResult_congr (hi : Lifecycle txns' s) (h : ∀ p < s.next, txns p = txns' p) (p : Ptr)
    (entries : List (Key × Record)) :
    readResult txns s p entries = readResult txns' s p entries := by
  unfold readResult
  cases hsm : s.managers p with
  | none => rfl
  | some sm =>
      have hp : p < s.next := hi.lt_next (by simp [stages, hsm])
      rw [h p hp]

/-- A step depends on the transactions parsed before, and on the next one if it is
parsed now. -/
theorem step_congr (hmode : mode ≠ 2) (hi : Lifecycle txns' s) (hv : s.verifying = none)
    (h : ∀ p < s.next, txns p = txns' p) {e : Event}
    (hparse : e = .parse → txns s.next = txns' s.next) :
    step cfg mode txns compute s e = step cfg mode txns' compute s e := by
  cases e with
  | parse => simp only [step, parse, lock, hparse rfl]
  | verify => simp only [step, verify, hv]
  | route => simp only [step, route, hv]
  | dispatch => rfl
  | handleDone =>
      simp only [step, OriginalReplica.handleDone_eq hmode hv]
      cases hq : s.doneQueue with
      | nil => rfl
      | cons p rest =>
          have hp : p < s.next := hi.lt_next (by simp [stages, hq])
          simp only [releaseDone, h p hp]
  | start => simp only [step, start_congr hi h]
  | readResult p entries => exact readResult_congr hi h p entries
  | run p guid random =>
      simp only [step, run]
      cases hsm : s.managers p with
      | none => rfl
      | some sm =>
          have hp : p < s.next := hi.lt_next (by simp [stages, hsm])
          simp only [h p hp, txnOf_congr (h p hp)]

end DeterministicScheduler

/-! ## Replicas -/

namespace OriginalSystem

open DeterministicScheduler (Lifecycle stages)
open Replica (nodeConfig setNode)

variable {cfg : ClusterConfig} {compute : Compute} {parsed parsed' : Nat → List TxnProto}
  {s s' : Replica} {e : Replica.Event}

/-- A step of a replica is a step of one node, which locks only what is parsed. -/
theorem replicaNext_node (h : replicaNext cfg compute parsed s e = some s') :
    ∃ node e', s'.nodes = update s.nodes (nodeOf e) node ∧
      DeterministicScheduler.step (nodeConfig cfg (nodeOf e)) 0 (txnAt parsed (nodeOf e)) compute
        (s.nodes (nodeOf e)) e' = some node ∧
      (e' = .parse → (s.nodes (nodeOf e)).next < (parsed (nodeOf e)).length) := by
  cases e with
  | node m e =>
      simp only [replicaNext, nodeStep] at h
      split at h
      case h_1 =>
          obtain ⟨hlt, h⟩ := Option.ite_none_right_eq_some.mp h
          obtain ⟨node, hnode, rfl⟩ := Option.map_eq_some_iff.mp h
          exact ⟨node, _, rfl, hnode, fun _ => hlt⟩
      case h_2 => cases h
      case h_3 => cases h
      case h_4 hparse _ _ =>
          obtain ⟨node, hnode, rfl⟩ := Option.map_eq_some_iff.mp h
          exact ⟨node, _, rfl, hnode, fun he => absurd he hparse⟩
  | start m =>
      obtain ⟨⟨node, sent⟩, hstart, rfl⟩ := Option.map_eq_some_iff.mp h
      exact ⟨node, .start, rfl, Option.map_eq_some_iff.mpr ⟨_, hstart, rfl⟩, fun he => by cases he⟩
  | deliver m p i =>
      obtain ⟨msg, -, h⟩ := Option.bind_eq_some_iff.mp h
      obtain ⟨-, h⟩ := Option.ite_none_right_eq_some.mp h
      obtain ⟨node, hread, rfl⟩ := Option.map_eq_some_iff.mp h
      exact ⟨node, .readResult p msg.entries, rfl, hread, fun he => by cases he⟩

/-- The nodes look up no counters, and lock no more than what has been parsed. -/
theorem replicaNext_plain (h : replicaNext cfg compute parsed s e = some s') {m : Nat}
    (hi : (s.nodes m).verifying = none ∧ (s.nodes m).next ≤ (parsed m).length) :
    (s'.nodes m).verifying = none ∧ (s'.nodes m).next ≤ (parsed m).length := by
  obtain ⟨node, e', hnodes, hstep, hparse⟩ := replicaNext_node h
  rw [hnodes]
  by_cases hm : m = nodeOf e
  · subst hm
    obtain ⟨hv, hnext⟩ := DeterministicScheduler.step_plain (by decide) hi.1 hstep
    rw [update_self, hnext]
    refine ⟨hv, ?_⟩
    split
    case isTrue he => exact hparse he
    case isFalse => exact hi.2
  · rw [update_of_ne hm]
    exact hi

theorem txnAt_congr {m : Nat} {p : Ptr} (h : parsed m <+: parsed' m)
    (hp : p < (parsed m).length) : txnAt parsed m p = txnAt parsed' m p := by
  obtain ⟨rest, hrest⟩ := h
  rw [txnAt, txnAt, ← hrest, List.getElem?_append_left hp]

/-- A step of a replica is possible whatever comes behind what is parsed. -/
theorem replicaNext_congr (h : parsed (nodeOf e) <+: parsed' (nodeOf e))
    (hlen : (s.nodes (nodeOf e)).next ≤ (parsed (nodeOf e)).length)
    (hv : (s.nodes (nodeOf e)).verifying = none)
    (hi : Lifecycle (txnAt parsed' (nodeOf e)) (s.nodes (nodeOf e)))
    (hn : replicaNext cfg compute parsed s e = some s') :
    replicaNext cfg compute parsed' s e = some s' := by
  have hsame : ∀ p < (s.nodes (nodeOf e)).next,
      txnAt parsed (nodeOf e) p = txnAt parsed' (nodeOf e) p := fun p hp =>
    txnAt_congr h (Nat.lt_of_lt_of_le hp hlen)
  cases e with
  | node m e =>
      have hstep : (e = .parse → (s.nodes m).next < (parsed m).length) →
          DeterministicScheduler.step (nodeConfig cfg m) 0 (txnAt parsed m) compute (s.nodes m) e =
            DeterministicScheduler.step (nodeConfig cfg m) 0 (txnAt parsed' m) compute
              (s.nodes m) e := fun hparse =>
        DeterministicScheduler.step_congr (by decide) hi hv hsame fun he =>
          txnAt_congr h (hparse he)
      cases e with
      | parse =>
          obtain ⟨hlt, hn⟩ := Option.ite_none_right_eq_some.mp hn
          rw [hstep fun _ => hlt] at hn
          exact Option.ite_none_right_eq_some.mpr ⟨Nat.lt_of_lt_of_le hlt h.length_le, hn⟩
      | start => cases hn
      | readResult p entries => cases hn
      | _ =>
          simp only [replicaNext, nodeStep] at hn ⊢
          rw [← hstep fun he => by cases he]
          exact hn
  | start m =>
      have hstart : DeterministicScheduler.start (nodeConfig cfg m) 0 (txnAt parsed m) (s.nodes m) =
          DeterministicScheduler.start (nodeConfig cfg m) 0 (txnAt parsed' m) (s.nodes m) :=
        DeterministicScheduler.start_congr hi hsame
      simp only [replicaNext, start] at hn ⊢
      rw [← hstart]
      exact hn
  | deliver m p i =>
      obtain ⟨msg, hmsg, hn⟩ := Option.bind_eq_some_iff.mp hn
      obtain ⟨hto, hn⟩ := Option.ite_none_right_eq_some.mp hn
      obtain ⟨node, hread, rfl⟩ := Option.map_eq_some_iff.mp hn
      have hp : p < (s.nodes m).next := by
        obtain ⟨sm, hsm, -⟩ := DeterministicScheduler.readResult_cases hread
        exact hi.lt_next (by simp [nodeOf, stages, hsm])
      have hread' : DeterministicScheduler.readResult (txnAt parsed' m) (s.nodes m) p msg.entries =
          some node := by
        rw [← hread]
        exact (DeterministicScheduler.readResult_congr hi hsame p msg.entries).symm
      have htxn : txnAt parsed m p = txnAt parsed' m p := hsame p hp
      rw [htxn] at hto
      exact Option.bind_eq_some_iff.mpr ⟨msg, hmsg, Option.ite_none_right_eq_some.mpr
        ⟨hto, Option.map_eq_some_iff.mpr ⟨node, hread', rfl⟩⟩⟩

/-! ## Orders -/

variable {order : List TxnProto} {init : Key → Record}

theorem next_stream (s : Replica) (e : Replica.Event) :
    (OriginalReplica.machine cfg order compute init).next s e =
      replicaNext cfg compute (OriginalReplica.stream cfg order) s e := by
  cases e <;> rfl

/-- Every node of a replica keeps its transactions in one place each. -/
theorem lifecycle (h : (OriginalReplica.machine cfg order compute init).Reachable s) (m : Nat) :
    Lifecycle (txnAt (OriginalReplica.stream cfg order) m) (s.nodes m) := by
  revert m
  refine h.invariant (P := fun s => ∀ m,
    Lifecycle (txnAt (OriginalReplica.stream cfg order) m) (s.nodes m))
    (fun m => DeterministicScheduler.lifecycle_init init) ?_
  intro s e s' _ _ hi hn m
  rw [next_stream] at hn
  obtain ⟨node, e', hnodes, hstep, -⟩ := replicaNext_node hn
  rw [hnodes]
  by_cases hm : m = nodeOf e
  · subst hm
    rw [update_self]
    exact (hi _).step hstep
  · rw [update_of_ne hm]
    exact hi m

/-- The nodes look up no counters, and lock no more than their streams. -/
theorem plain_of_stream (h : (OriginalReplica.machine cfg order compute init).Reachable s)
    (m : Nat) : (s.nodes m).verifying = none ∧
      (s.nodes m).next ≤ (OriginalReplica.stream cfg order m).length := by
  revert m
  refine h.invariant (P := fun s => ∀ m, (s.nodes m).verifying = none ∧
    (s.nodes m).next ≤ (OriginalReplica.stream cfg order m).length)
    (fun m => ⟨rfl, Nat.zero_le _⟩) ?_
  intro s e s' _ _ hi hn m
  rw [next_stream] at hn
  exact replicaNext_plain hn (hi m)

/-- With distinct names a message is handed to the only transaction with its name. -/
theorem reach_of_names (hnames : (order.map fun txn => txn.txnId % UInt32.size).Nodup)
    (h : (OriginalReplica.machine cfg order compute init).Reachable s) :
    (OriginalReplica.machine cfg order compute init).Reach
      (OriginalReplica.OneName cfg order) s := by
  refine h.invariant .init fun s e s' hr _ hi hn => hi.step ?_ hn
  cases e with
  | node m e => trivial
  | start m => trivial
  | deliver m p i =>
      intro q hq hname
      obtain ⟨msg, -, hn⟩ := Option.bind_eq_some_iff.mp hn
      obtain ⟨-, hn⟩ := Option.ite_none_right_eq_some.mp hn
      obtain ⟨node, hread, -⟩ := Option.map_eq_some_iff.mp hn
      obtain ⟨sm, hsm, -⟩ := DeterministicScheduler.readResult_cases hread
      have hp : p < (OriginalReplica.stream cfg order m).length :=
        Nat.lt_of_lt_of_le ((lifecycle hr m).lt_next (by simp [stages, hsm]))
          (plain_of_stream hr m).2
      have hstream : ((OriginalReplica.stream cfg order m).map
          fun txn => txn.txnId % UInt32.size).Nodup := by
        refine List.Nodup.sublist ?_ hnames
        rw [OriginalReplica.stream, Sequencer.subbatch, List.map_map]
        exact List.filter_sublist.map _
      have hget : ∀ i (hi : i < (OriginalReplica.stream cfg order m).length),
          (OriginalReplica.stream cfg order m)[i] = OriginalReplica.txnAt cfg order m i :=
        fun i hi => by rw [OriginalReplica.txnAt, List.getElem?_eq_getElem hi, Option.getD_some]
      have hq' : q < ((OriginalReplica.stream cfg order m).map
        fun txn => txn.txnId % UInt32.size).length := by rwa [List.length_map]
      have hp' : p < ((OriginalReplica.stream cfg order m).map
        fun txn => txn.txnId % UInt32.size).length := by rwa [List.length_map]
      have heq : ((OriginalReplica.stream cfg order m).map fun txn => txn.txnId % UInt32.size)[q] =
          ((OriginalReplica.stream cfg order m).map fun txn => txn.txnId % UInt32.size)[p] := by
        rw [List.getElem_map, List.getElem_map, hget q hq, hget p hp]
        exact hname
      exact hstream.getElem_inj_iff.mp heq

/-- Transactions as they come from a client. -/
def Fresh (order : List TxnProto) : Prop :=
  ∀ txn ∈ order, txn.status = .new ∧ txn.waitForRemasterPros = false

/-- Nothing of an order of such transactions is in the first state of a node. -/
theorem initial_eq (hf : Fresh order) (store : Key → Record) (m : Nat) :
    DeterministicScheduler.initial (OriginalReplica.txnAt cfg order m) store =
      DeterministicScheduler.initial (fun _ => { txnId := 0 }) store := by
  have htxn : ∀ p, (OriginalReplica.txnAt cfg order m p).status = .new ∧
      (OriginalReplica.txnAt cfg order m p).waitForRemasterPros = false := by
    intro p
    by_cases hp : p < (OriginalReplica.stream cfg order m).length
    · obtain ⟨txn, htxn, heq⟩ := OriginalReplica.txnAt_mem hp
      rw [heq]
      exact hf txn htxn
    · rw [OriginalReplica.txnAt_of_ge hp]
      exact ⟨rfl, rfl⟩
  simp only [DeterministicScheduler.initial, htxn]

end OriginalSystem

end Calvin
