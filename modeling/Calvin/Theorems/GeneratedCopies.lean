import Mathlib.Data.List.Infix
import Calvin.Log.LocalPaxosGeneration
import Calvin.Theorems.SequenceExchange

/-!
# The order of generated copies

The leaders of all replicas, with the batches they generate. What a leader
generates is in the order of the local log of replica 0.

* `System`: the cluster of leaders with the GUIDs in use and what is generated;
* `Inv.generation`: the invariant of each leader;
* `copies_follow_log`: the copies at a replica, in the order of its local
  sequences, are a prefix of the relevant transactions of replica 0's log.
-/

namespace Calvin.LocalPaxos.GeneratedCopies

open Function Lib LowlatencySequencer
open SequenceExchange (Topology Cluster move_leaders_self move_leaders_of_ne move_from_self
  move_from_of_ne)

structure System where
  cluster : Cluster := {}
  /-- History: the batches each leader has generated. -/
  generated : Nat → List (Nat × List TxnProto) := fun _ => []
  /-- History: the GUIDs drawn by the other threads at the node of a leader. -/
  drawn : Nat → List Nat := fun _ => []
  /-- History: the batches the sequencers of a replica have submitted. -/
  submitted : Nat → List Nat := fun _ => []

section

variable (top : Topology) (content : Nat → List TxnProto)

/-- The inputs from the sequencers: a batch is submitted once and has a GUID,
of another node or of another thread; an `MR_TXNS_BATCH` holds what `RunReader`
takes from the batch. -/
def admissible (s : System) : SequenceExchange.Event → Bool
  | .step r (.append b) =>
      b ∉ s.submitted r ∧
        (b ∈ s.drawn r ∨ b % top.allNodes ≠ (1 + top.leaderNode r) % top.allNodes)
  | .batch r b data => data = mrTxns r (content b)
  | .step .. | .deliver .. => true

/-- The batches that a leader generates in a step. -/
def generates (s : Cluster) (r : Nat) (e : LocalPaxos.Event) : List (Nat × List TxnProto) :=
  (((s.leaders r).step (top.config r) e).map fun (_, outs) => batches outs).getD []

/-- The histories after a step of the cluster. -/
def System.record (s : System) (cluster : Cluster) : SequenceExchange.Event → System
  | .step r e =>
      { cluster
        generated := update s.generated r (s.generated r ++ generates top s.cluster r e)
        drawn := update s.drawn r
          (s.drawn r ++ drawnGuids (top.config r) (s.cluster.leaders r) e)
        submitted := update s.submitted r (s.submitted r ++ e.submitted) }
  | .batch .. | .deliver .. => { s with cluster }

/-- The contents of the batches are given by their numbers. -/
def machine : Machine System SequenceExchange.Event where
  init := {}
  next s e :=
    if admissible top content s e then
      ((SequenceExchange.machine top).next s.cluster e).map fun cluster => s.record top cluster e
    else none

end

/-- The copies generated at a replica, in the order of the local sequences it
has proposed. -/
def System.copiesInOrder (s : System) (r : Nat) : List TxnProto :=
  ((s.cluster.proposed r).flatten.filterMap fun b => (s.generated r).lookup b).flatten

/-- The transactions of a log that a replica has to copy, in batch order. -/
def relevantTxns (content : Nat → List TxnProto) (r : Nat) (log : List Sequence) :
    List TxnProto :=
  log.flatten.flatMap fun b => (content b).filter (Relevant r)

/-- The local log of replica 0; for the closed replica with the sequence that it
has sent there and will append at the `SYNCHRONIZE_ACK`. -/
def System.logOfZero (top : Topology) (s : System) (r : Nat) : List Sequence :=
  (s.cluster.leaders 0).localLog.sequences ++
    if top.strong ∧ r = closedReplica 0 then (s.cluster.leaders 0).pc.waiting.toList else []

/-- Ids are unique among the transactions of all batches. -/
def DistinctIds (content : Nat → List TxnProto) : Prop :=
  ∀ b, ((content b).map TxnProto.txnId).Nodup ∧
    ∀ b', b' ≠ b → ∀ txn ∈ content b, ∀ txn' ∈ content b', txn.txnId ≠ txn'.txnId

/-! ## Invariant -/

structure Inv (top : Topology) (content : Nat → List TxnProto) (s : System) : Prop where
  exchange : SequenceExchange.Inv top s.cluster
  generation : ∀ r, Generation (top.config r) content (s.cluster.leaders r) (s.cluster.from 0 r)
    (s.cluster.proposed r) (s.generated r) (s.drawn r) (s.submitted r)

theorem inv_init (top : Topology) (content : Nat → List TxnProto) : Inv top content {} :=
  ⟨SequenceExchange.inv_init top, fun _ => .init⟩

section

variable {top : Topology} {content : Nat → List TxnProto}

/-- What a leader's step means for the generation of all. -/
theorem generation_move {s : System} {r : Nat} {e : LocalPaxos.Event} {l : Leader}
    {outs : List Output} {link : Nat → Nat → List LogMessage} (h0 : 0 < top.allNodes)
    (hi : Inv top content s)
    (hsubmit : ∀ b ∈ e.submitted,
      b ∉ s.submitted r ∧ (b ∈ s.drawn r ∨ ∀ k, b ≠ (top.config r).guid k))
    (hm : ∀ b data, e.received = some (.mrTxnsBatch b data) → data = mrTxns r (content b))
    (h : (s.cluster.leaders r).step (top.config r) e = some (l, outs)) (t : Nat) :
    Generation (top.config t) content ((s.cluster.move link r l outs).leaders t)
      ((s.cluster.move link r l outs).from 0 t) ((s.cluster.move link r l outs).proposed t)
      (update s.generated r (s.generated r ++ batches outs) t)
      (update s.drawn r
        (s.drawn r ++ drawnGuids (top.config r) (s.cluster.leaders r) e) t)
      (update s.submitted r (s.submitted r ++ e.submitted) t) := by
  by_cases ht : t = r
  · subst ht
    have hg := (hi.generation t).step h0 hsubmit hm h
    rw [move_leaders_self, move_from_self]
    simpa [Cluster.move] using hg
  · have hg := hi.generation t
    rw [move_leaders_of_ne ht, move_from_of_ne ht]
    simpa [Cluster.move, ht] using hg

/-- A message that a leader receives changes no history. -/
theorem generation_received {s : System} {r : Nat} {message : LogMessage} {l : Leader}
    {outs : List Output} {link : Nat → Nat → List LogMessage} (h0 : 0 < top.allNodes)
    (hi : Inv top content s)
    (hm : ∀ b data, message = .mrTxnsBatch b data → data = mrTxns r (content b))
    (h : (s.cluster.leaders r).step (top.config r) (.receive message) = some (l, outs)) (t : Nat) :
    Generation (top.config t) content ((s.cluster.move link r l outs).leaders t)
      ((s.cluster.move link r l outs).from 0 t) ((s.cluster.move link r l outs).proposed t)
      (s.generated t) (s.drawn t) (s.submitted t) := by
  have hg := @generation_move _ _ s r (.receive message) l outs link h0 hi
    (fun b hb => (List.not_mem_nil hb).elim)
    (fun b data heq => hm b data (Option.some.inj heq)) h t
  have hb : batches outs = [] := by
    simp only [Leader.step, Option.ite_none_right_eq_some, Option.some.injEq] at h
    have hnone : batches ((s.cluster.leaders r).receiveMessage (top.config r) message).2 = [] :=
      Leader.receiveMessage_batches message
    rwa [h.2] at hnone
  simpa [hb, drawnGuids, LocalPaxos.Event.submitted] using hg

theorem inv_step {s s' : System} {e : SequenceExchange.Event} (h0 : 0 < top.allNodes)
    (hi : Inv top content s)
    (h : (machine top content).next s e = some s') : Inv top content s' := by
  simp only [machine, Option.ite_none_right_eq_some, Option.map_eq_some_iff] at h
  obtain ⟨hadm, cluster, hnext, rfl⟩ := h
  have hex := SequenceExchange.inv_step hi.exchange hnext
  cases e with
  | step r e =>
      refine ⟨hex, ?_⟩
      simp only [SequenceExchange.machine, Option.ite_none_right_eq_some,
        Option.map_eq_some_iff] at hnext
      obtain ⟨⟨hr, hnone⟩, ⟨l, outs⟩, hs, rfl⟩ := hnext
      have hgen : generates top s.cluster r e = batches outs := by
        simp [generates, hs]
      simp only [System.record, hgen]
      refine generation_move h0 hi (fun b hb => ?_) (fun b data hreceived => ?_) hs
      · cases e with
        | append b' =>
            rw [List.mem_singleton.mp hb]
            obtain ⟨hnew, hguid⟩ := of_decide_eq_true hadm
            refine ⟨hnew, hguid.imp_right fun hmod k heq => hmod ?_⟩
            rw [heq]
            exact Nat.add_mul_mod_self_left ..
        | _ => exact (List.not_mem_nil hb).elim
      · rw [hnone] at hreceived
        cases hreceived
  | batch r b data =>
      simp only [SequenceExchange.machine, Option.ite_none_right_eq_some,
        Option.map_eq_some_iff] at hnext
      obtain ⟨-, ⟨l, outs⟩, hs, rfl⟩ := hnext
      refine ⟨hex, generation_received h0 hi (fun b' data' heq => ?_) hs⟩
      cases heq
      exact of_decide_eq_true hadm
  | deliver o r =>
      simp only [SequenceExchange.machine] at hnext
      split at hnext
      · cases hnext
      · rename_i message rest hlink
        simp only [Option.ite_none_right_eq_some, Option.map_eq_some_iff] at hnext
        obtain ⟨-, ⟨l, outs⟩, hs, rfl⟩ := hnext
        refine ⟨hex, generation_received h0 hi (fun b data heq => ?_) hs⟩
        -- between leaders no MR_TXNS_BATCH travels
        have hc := hi.exchange.carries o r message (by rw [hlink]; exact List.mem_cons_self)
        rw [heq] at hc
        exact hc.2.2.elim

theorem inv_of_reachable {s : System} (h0 : 0 < top.allNodes)
    (h : (machine top content).Reachable s) : Inv top content s :=
  h.invariant (inv_init top content) fun _ _ _ _ _ hi hn => inv_step h0 hi hn

end

/-! ## Tables -/

section

variable {α : Type} {table : List (Nat × α)} {xs : List Nat}

theorem filterMap_lookup_filter :
    (xs.filter (· ∈ table.map Prod.fst)).filterMap (fun b => table.lookup b) =
      xs.filterMap (fun b => table.lookup b) := by
  rw [List.filterMap_filter]
  refine List.filterMap_congr fun b _ => ?_
  by_cases hb : b ∈ table.map Prod.fst
  · rw [if_pos (decide_eq_true hb)]
  · rw [if_neg (by simpa using hb), eq_comm, List.lookup_eq_none_iff]
    intro p hp
    exact bne_iff_ne.mpr fun heq : b = p.1 => hb (heq ▸ List.mem_map_of_mem hp)

theorem filterMap_lookup_keys (h : (table.map Prod.fst).Nodup) :
    (table.map Prod.fst).filterMap (fun b => table.lookup b) = table.map Prod.snd := by
  induction table with
  | nil => rfl
  | cons p rest ih =>
      obtain ⟨hp, hrest⟩ := List.nodup_cons.mp h
      have hsame : (rest.map Prod.fst).filterMap (fun b => (p :: rest).lookup b) =
          (rest.map Prod.fst).filterMap (fun b => rest.lookup b) := by
        refine List.filterMap_congr fun b hb => ?_
        have hne : b ≠ p.1 := fun heq => hp (heq ▸ hb)
        rw [List.lookup_cons, beq_false_of_ne hne]
      have hself : (p :: rest).lookup p.1 = some p.2 := List.lookup_cons_self
      rw [List.map_cons, List.map_cons,
        List.filterMap_cons_some (f := fun b => (p :: rest).lookup b) hself, hsame, ih hrest]

/-- Looking up keys of a table in the order of the table gives its values in
order. -/
theorem filterMap_lookup_le (hkeys : (table.map Prod.fst).Nodup)
    (h : xs.filter (· ∈ table.map Prod.fst) <+: table.map Prod.fst) :
    xs.filterMap (fun b => table.lookup b) <+: table.map Prod.snd := by
  rw [← filterMap_lookup_filter, ← filterMap_lookup_keys hkeys]
  exact h.filterMap _

end

/-! ## Main result -/

/-- What is handled of a sequence of replica 0 is the front of what is pending
from it. -/
theorem handled_le {cfg : Config} {l : Leader} (h : l.pc.Placed cfg) :
    l.pc.handled <+: (only 0 l.view.pending).flatten := by
  cases hpc : l.pc with
  | generate rest encoded replica ret =>
      rw [hpc] at h
      obtain ⟨-, rfl, -⟩ := h
      simp only [Leader.view, hpc, Pc.remote, Pc.handled, if_pos, List.singleton_append, only_cons,
        List.flatten_cons]
      exact (List.take_prefix _ _).trans (List.prefix_append _ _)
  | collect encoded acks source =>
      cases source with
      | own => exact List.nil_prefix
      | remote replica ret =>
          by_cases hr : replica = 0
          · subst hr
            simp only [Leader.view, hpc, Pc.remote, Pc.handled, if_pos, List.singleton_append,
              only_cons, List.flatten_cons]
            exact List.prefix_append _ _
          · simp only [Pc.handled, if_neg hr]
            exact List.nil_prefix
  | idle | syncTest | syncReceive => exact List.nil_prefix

section

variable {top : Topology} {content : Nat → List TxnProto} {s : System} {r : Nat}

/-- What a replica has from replica 0 is a prefix of the log of replica 0. -/
theorem from_zero_le (hi : Inv top content s) (hr : r ≠ 0) :
    s.cluster.from 0 r ++ only 0 (s.cluster.leaders r).view.pending <+: s.logOfZero top r := by
  unfold System.logOfZero
  by_cases hc : top.strong = true ∧ r = closedReplica 0
  · have hclosed := hi.exchange.closed 0 r hc
    rw [← hi.exchange.logged 0] at hclosed
    rw [if_pos hc]
    exact ⟨_, hclosed⟩
  · have hhanded := hi.exchange.handed 0 r ⟨hr, hc⟩
    have hlog : (s.cluster.leaders 0).view.handed r <+:
        (s.cluster.leaders 0).localLog.sequences := List.take_prefix ..
    rw [if_neg hc, List.append_nil]
    exact List.IsPrefix.trans ⟨_, hhanded⟩ hlog

/-- The copies made of the batches a leader is through with. -/
theorem flatten_copies {cfg : Config}
    (hset : ∀ b, ∀ txn ∈ content b, txn.involvedReplicas.Nodup) (batchIds : Sequence) :
    ((batchIds.map (copies cfg content)).filter (· ≠ [])).flatten =
      (batchIds.flatMap fun b => (content b).filter (Relevant cfg.localReplica)).map
        (Leader.generatedTxn cfg) := by
  have hcopies : ∀ b, copies cfg content b =
      ((content b).filter (Relevant cfg.localReplica)).map (Leader.generatedTxn cfg) := fun b => by
    rw [copies, mrTxns_eq_filter (hset b)]
  rw [List.flatten_filter_ne_nil, ← List.flatMap_def, List.map_flatMap]
  exact List.flatMap_congr fun b _ => hcopies b

/-- The batches submitted at replica 0 are in its log once. -/
theorem logOfZero_nodup (hi : Inv top content s) : (s.logOfZero top r).flatten.Nodup := by
  have hlog : s.logOfZero top r <+: s.cluster.proposed 0 := by
    have hlogged := hi.exchange.logged 0
    have hown := hi.exchange.own 0
    rw [← hown, ← hlogged, List.append_assoc]
    unfold System.logOfZero
    refine (List.prefix_append_right_inj _).mpr ?_
    split
    · exact List.prefix_append _ _
    · exact List.nil_prefix
  have hnodup := (List.nodup_append.mp (hi.generation 0).nodup).1
  exact hnodup.sublist hlog.flatten.sublist

/-- The batches a leader is through with are a prefix of the log. -/
theorem handled_prefix_log (hi : Inv top content s) (hr : r ≠ 0) :
    (s.cluster.from 0 r).flatten ++ (s.cluster.leaders r).pc.handled <+:
      (s.logOfZero top r).flatten := by
  have hpending := (List.prefix_append_right_inj (s.cluster.from 0 r).flatten).mpr
    (handled_le (hi.generation r).placed)
  rw [← List.flatten_append] at hpending
  exact hpending.trans (from_zero_le hi hr).flatten

/-- Relevant transactions of a log without repetitions have unique ids. -/
theorem relevantTxns_nodup (hids : DistinctIds content) {log : List Sequence}
    (hlog : log.flatten.Nodup) : ((relevantTxns content r log).map TxnProto.txnId).Nodup := by
  rw [relevantTxns, List.map_flatMap, List.nodup_flatMap]
  refine ⟨fun b _ => (hids b).1.sublist (List.filter_sublist.map _), hlog.imp fun {b b'} hne => ?_⟩
  refine List.disjoint_left.mpr ?_
  intro n hn hn'
  obtain ⟨txn, htxn, rfl⟩ := List.mem_map.mp hn
  obtain ⟨txn', htxn', heq⟩ := List.mem_map.mp hn'
  exact (hids b).2 b' hne.symm txn (List.mem_of_mem_filter htxn) txn'
    (List.mem_of_mem_filter htxn') heq.symm

/-- At every other replica, the copies that the leader has generated, in the
order of its local sequences, are a prefix of the relevant transactions of
replica 0's log; with unique ids each is there once. -/
theorem copies_follow_log (top : Topology) (content : Nat → List TxnProto) (s : System)
    (h0 : 0 < top.allNodes) (hset : ∀ b, ∀ txn ∈ content b, txn.involvedReplicas.Nodup)
    (h : (machine top content).Reachable s) (r : Nat) (hr : r ≠ 0) :
    s.copiesInOrder r <+:
        (relevantTxns content r (s.logOfZero top r)).map (Leader.generatedTxn (top.config r)) ∧
      (DistinctIds content → ((s.copiesInOrder r).map TxnProto.txnId).Nodup) := by
  have hi := inv_of_reachable h0 h
  have hg := hi.generation r
  have hfollow : s.copiesInOrder r <+:
      (relevantTxns content r (s.logOfZero top r)).map (Leader.generatedTxn (top.config r)) := by
    -- by proposal order the copies are a prefix of what is generated
    have horder : (s.cluster.proposed r).flatten.filter (· ∈ (s.generated r).map Prod.fst) <+:
        (s.generated r).map Prod.fst := by
      have hall := hg.order
      rw [List.filter_append] at hall
      exact ⟨_, hall⟩
    have hgenerated : s.copiesInOrder r <+: ((s.generated r).map Prod.snd).flatten :=
      (filterMap_lookup_le (List.nodup_append.mp hg.fresh).2.1 horder).flatten
    -- what is generated follows what has come from replica 0
    rw [hg.contents hr, flatten_copies hset] at hgenerated
    exact hgenerated.trans (((handled_prefix_log hi hr).flatMap _).map _)
  refine ⟨hfollow, fun hids => ?_⟩
  have hall := relevantTxns_nodup (r := r) hids (logOfZero_nodup (r := r) hi)
  refine List.Nodup.sublist (hfollow.sublist.map _) ?_
  rw [List.map_map]
  exact hall

end

/-- Six replicas of two nodes each. -/
def sixReplicas (strong : Bool) : Topology where
  replicas := 6
  strong := strong
  paired _ := rfl
  participants _ := 2
  leaderNode r := 2 * r
  allNodes := 12

/-- A transaction on two keys, mastered at replica 0 and at another. -/
def twoMasters (txnId replica : Nat) : TxnProto where
  txnId := txnId
  readWriteSet := [⟨[48], 0, 0⟩, ⟨[49], replica, 0⟩]
  involvedReplicas := [0, replica]

def oneBatch (replica batchId : Nat) : List TxnProto :=
  if batchId = 12002 then [twoMasters 7 replica] else []

theorem oneBatch_nodup {replica : Nat} (hr : replica ≠ 0) :
    ∀ b, ∀ txn ∈ oneBatch replica b, txn.involvedReplicas.Nodup := by
  intro b txn htxn
  unfold oneBatch at htxn
  split at htxn
  · rw [List.mem_singleton.mp htxn]
    simp [twoMasters, hr.symm]
  · cases htxn

/-- `RunLeader`: replica 1 copies a transaction of replica 0. -/
theorem copies_follow_log_one :
    ∃ s : System, s.copiesInOrder 1 = [Leader.generatedTxn ((sixReplicas false).config 1)
        (twoMasters 7 1)] ∧
      s.copiesInOrder 1 <+: (relevantTxns (oneBatch 1) 1 (s.logOfZero (sixReplicas false) 1)).map
        (Leader.generatedTxn ((sixReplicas false).config 1)) := by
  obtain ⟨s, hr, hs⟩ := Machine.exists_of_trace (m := machine (sixReplicas false) (oneBatch 1))
    (P := fun s => s.copiesInOrder 1 =
      [Leader.generatedTxn ((sixReplicas false).config 1) (twoMasters 7 1)])
    [.step 0 (.append 12002), .step 0 .pick, .step 0 (.gotAck 1), .step 0 .finish, .deliver 0 1,
      .step 1 .pick, .batch 1 12002 [twoMasters 7 1], .step 1 .generate, .step 1 .generate,
      .step 1 (.gotAck 1), .step 1 .finish, .step 1 .pick]
    (by decide)
  exact ⟨s, hs, (copies_follow_log (sixReplicas false) (oneBatch 1) s (by decide)
    (oneBatch_nodup (by decide)) hr 1 (by decide)).1⟩

/-- `RunLeaderStrong`: the closed replica copies a transaction of a sequence that
replica 0, waiting for the `SYNCHRONIZE_ACK`, has not appended to its local
log. -/
theorem copies_ahead_of_log :
    ∃ s : System, (machine (sixReplicas true) (oneBatch 3)).Reachable s ∧
      ¬ s.copiesInOrder 3 <+:
        (relevantTxns (oneBatch 3) 3 (s.cluster.leaders 0).localLog.sequences).map
          (Leader.generatedTxn ((sixReplicas true).config 3)) :=
  Machine.exists_of_trace (m := machine (sixReplicas true) (oneBatch 3))
    (P := fun s => ¬ s.copiesInOrder 3 <+:
        (relevantTxns (oneBatch 3) 3 (s.cluster.leaders 0).localLog.sequences).map
          (Leader.generatedTxn ((sixReplicas true).config 3)))
    [.step 0 (.append 12002), .step 0 .pick, .step 0 (.gotAck 1), .step 0 .finish, .deliver 0 3,
      .step 3 .pick, .batch 3 12002 [twoMasters 7 3], .step 3 .generate, .step 3 .generate,
      .step 3 (.gotAck 1), .step 3 .finish, .step 3 .pick]
    (by decide)

end Calvin.LocalPaxos.GeneratedCopies
