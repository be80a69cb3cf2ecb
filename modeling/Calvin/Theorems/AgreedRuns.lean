import Calvin.Theorems.AgreedRecords
import Calvin.Theorems.PaxosProgress

/-!
# The original system finishes

When the clients submit nothing more, what is under way can always be finished.

* `Ordering.leads_rest`: every message arrives, and the batches are in the log;
* `Ordering.leads_parsed`: the main loops parse the agreed order;
* `OriginalSystem.can_finish`: all replicas execute it, and agree.
-/

namespace Calvin

open Function Lib

namespace Ordering

open BatchVotes (Vote)

variable {cfg : ClusterConfig} {maxBatchSize : Nat} {s s' : Ordering}

/-- The steps that take nothing from a client. -/
def Inner : Event → Prop
  | .epoch _ _ => False
  | _ => True

instance (e : Event) : Decidable (Inner e) :=
  match e with
  | .epoch _ _ => isFalse id
  | .gotBatch _ | .gotVote _ | .propose | .gotAck _ | .commit | .receive _ | .deliver _ _
  | .round _ _ => isTrue trivial

theorem fits_of_inner {e : Event} (he : Inner e) (s : Ordering) : Fits cfg s e := by
  cases e with
  | epoch n txns => exact he.elim
  | _ => trivial

theorem batches_of_inner {e : Event} (he : Inner e)
    (h : (machine cfg maxBatchSize).next s e = some s') : s'.batches = s.batches := by
  rcases next_batches h with hsame | ⟨n, txns, rfl, -⟩
  · exact hsame
  · exact he.elim

/-! ## Everything arrives -/

/-- A state of a run, with the batches that have been made. -/
structure Made (cfg : ClusterConfig) (maxBatchSize : Nat) (made : List (Nat × List TxnProto))
    (s : Ordering) : Prop where
  reach : (machine cfg maxBatchSize).Reach (Fits cfg) s
  batches : s.batches = made

variable {made : List (Nat × List TxnProto)}

theorem Made.step (hm : Made cfg maxBatchSize made s) {e : Event} (he : Inner e)
    (h : (machine cfg maxBatchSize).next s e = some s') : Made cfg maxBatchSize made s' where
  reach := hm.reach.step (fits_of_inner he s) h
  batches := by rw [batches_of_inner he h, hm.batches]

theorem leads_txnBatches (hm : Made cfg maxBatchSize made s) :
    (machine cfg maxBatchSize).Leads Inner
      (fun t => Made cfg maxBatchSize made t ∧ t.txnBatches = []) s := by
  refine Machine.Leads.of_measure (fun s => s.txnBatches.length) (fun s hm hne => ?_) hm
  obtain ⟨message, rest, hlist⟩ := List.exists_cons_of_ne_nil hne
  have hnext : (machine cfg maxBatchSize).next s (.gotBatch 0) = gotBatch cfg s 0 := rfl
  rw [gotBatch, hlist, List.getElem?_cons_zero, Option.map_some] at hnext
  refine ⟨.gotBatch 0, _, trivial, hnext, hm.step (e := .gotBatch 0) trivial hnext, ?_⟩
  simp [sendSchedulers, hlist]

theorem leads_voteMessages (hm : Made cfg maxBatchSize made s) (hbatches : s.txnBatches = []) :
    (machine cfg maxBatchSize).Leads Inner (fun t =>
      (Made cfg maxBatchSize made t ∧ t.txnBatches = []) ∧ t.voteMessages = []) s := by
  refine Machine.Leads.of_measure (fun s => s.voteMessages.length) (fun s hm hne => ?_)
    ⟨hm, hbatches⟩
  obtain ⟨vote, rest, hlist⟩ := List.exists_cons_of_ne_nil hne
  have hnext : (machine cfg maxBatchSize).next s (.gotVote 0) = gotVote cfg s 0 := rfl
  rw [gotVote, hlist, List.getElem?_cons_zero, Option.map_some] at hnext
  refine ⟨.gotVote 0, _, trivial, hnext, ⟨hm.1.step (e := .gotVote 0) trivial hnext, hm.2⟩, ?_⟩
  simp [hlist]

/-- What the participants do is a step of the system. -/
theorem exists_paxosStep (maxBatchSize : Nat) {e : Paxos.Group.Event} {paxos : Paxos.Group}
    (he : ∀ blockid, e ≠ .append blockid)
    (h : Paxos.Group.next cfg.replicasSize s.paxos e = some paxos) :
    ∃ e' messages, Inner e' ∧ (machine cfg maxBatchSize).next s e' =
      some (sendSchedulers cfg { s with paxos } (Paxos.Group.participant e) messages) := by
  have hstep : paxosStep cfg s (Paxos.Group.participant e) e =
      some (sendSchedulers cfg { s with paxos } (Paxos.Group.participant e) fun _ =>
        (paxos.orders.drop s.paxos.orders.length).map fun p => .paxosBatchOrder p.1 p.2) := by
    rw [paxosStep, h]
    rfl
  cases e with
  | append blockid => exact absurd rfl (he blockid)
  | propose => exact ⟨.propose, _, trivial, hstep⟩
  | gotAck i => exact ⟨.gotAck i, _, trivial, hstep⟩
  | commit => exact ⟨.commit, _, trivial, hstep⟩
  | receive i => exact ⟨.receive i, _, trivial, hstep⟩

theorem leads_paxos (hn : 0 < cfg.nodesPerReplica) (hm : Made cfg maxBatchSize made s)
    (hbatches : s.txnBatches = []) (hvotes : s.voteMessages = []) :
    (machine cfg maxBatchSize).Leads Inner (fun t =>
      (Made cfg maxBatchSize made t ∧ t.txnBatches = [] ∧ t.voteMessages = []) ∧
        Paxos.Group.AtRest cfg.replicasSize t.paxos) s := by
  refine Machine.Leads.of_measure (fun s => Paxos.Group.work cfg.replicasSize s.paxos)
    (fun s hm hrest => ?_) ⟨hm, hbatches, hvotes⟩
  obtain ⟨e, paxos, he, hpaxos, hlt⟩ :=
    Paxos.Group.exists_step (Inv.reach hn hm.1.reach).paxos hrest
  obtain ⟨e', messages, hinner, hnext⟩ := exists_paxosStep maxBatchSize he hpaxos
  exact ⟨e', _, hinner, hnext, ⟨hm.1.step hinner hnext, hm.2⟩, hlt⟩

theorem leads_schedulers (hm : Made cfg maxBatchSize made s) (hbatches : s.txnBatches = [])
    (hvotes : s.voteMessages = []) (hpaxos : Paxos.Group.AtRest cfg.replicasSize s.paxos) :
    (machine cfg maxBatchSize).Leads Inner (fun t =>
      (Made cfg maxBatchSize made t ∧ t.txnBatches = [] ∧ t.voteMessages = [] ∧
        Paxos.Group.AtRest cfg.replicasSize t.paxos) ∧
        ∀ n < cfg.allNodesSize, (t.loops n).stream.inFlight = []) s := by
  refine Machine.Leads.of_measure
    (fun s => ∑ n ∈ Finset.range cfg.allNodesSize, (s.loops n).stream.inFlight.length)
    (fun s hm hne => ?_) ⟨hm, hbatches, hvotes, hpaxos⟩
  simp only [not_forall] at hne
  obtain ⟨n, hlt, hne⟩ := hne
  obtain ⟨m, rest, hlist⟩ := List.exists_cons_of_ne_nil hne
  have hnext : (machine cfg maxBatchSize).next s (.deliver n 0) =
      some (setLoop s n { s.loops n with stream := { (s.loops n).stream with
        inFlight := rest, channel := (s.loops n).stream.channel ++ [m] } }) := by
    show ((s.loops n).stream.deliver 0).map _ = _
    rw [BatchStream.deliver, hlist]
    rfl
  refine ⟨.deliver n 0, _, trivial, hnext, ⟨hm.1.step (e := .deliver n 0) trivial hnext, hm.2⟩, ?_⟩
  refine Finset.sum_lt_sum (fun j _ => ?_) ⟨n, Finset.mem_range.mpr hlt, ?_⟩
  · by_cases hj : j = n
    · subst hj
      simp [setLoop, hlist]
    · simp [setLoop, hj]
  · simp [setLoop, hlist]

/-- What is under way can be finished. -/
theorem leads_rest (hn : 0 < cfg.nodesPerReplica) (hm : Made cfg maxBatchSize made s) :
    (machine cfg maxBatchSize).Leads Inner
      (fun t => Made cfg maxBatchSize made t ∧ AtRest cfg t) s := by
  refine (leads_txnBatches hm).trans fun s ⟨hm, hbatches⟩ => ?_
  refine (leads_voteMessages hm hbatches).trans fun s ⟨⟨hm, hbatches⟩, hvotes⟩ => ?_
  refine (leads_paxos hn hm hbatches hvotes).trans fun s ⟨⟨hm, hbatches, hvotes⟩, hpaxos⟩ => ?_
  refine (leads_schedulers hm hbatches hvotes hpaxos).mono
    fun t ⟨⟨hm, hbatches, hvotes, hpaxos⟩, hschedulers⟩ => ⟨hm, ?_⟩
  refine ⟨hbatches, hvotes, hpaxos.idle, hpaxos.count, fun i hi => ?_, hschedulers⟩
  by_cases hf : Paxos.Group.IsFollower cfg.replicasSize i
  · exact hpaxos.links i hf
  · exact ((Paxos.Group.inv_of_reachable (Inv.reach hn hm.reach).paxos).silent i hf).2

/-! ## The main loops -/

/-- The log has no more entries than there are batches. -/
theorem Inv.log_length_le (hi : Inv cfg s) :
    s.paxos.leader.log.entries.length ≤ s.batches.length := by
  have hsub : s.paxos.leader.log.sequences.flatten ⊆ s.batches.map Prod.fst := by
    intro batchId hb
    have hordered : BatchVotes.ordered s.paxos.leader = s.appended :=
      BatchVotes.ordered_once hi.head
    have happended : batchId ∈ s.appended := by
      rw [← hordered, BatchVotes.ordered, List.append_assoc]
      exact List.mem_append_left _ hb
    have hmajority := (hi.appended_iff batchId).mp happended
    obtain ⟨replicas, -, hvotes, hvoted⟩ := hi.voters batchId
    obtain ⟨r, hr⟩ := List.exists_mem_of_length_pos (l := replicas) (by omega)
    exact (hi.mem_places (List.mem_append_right _ (hvoted r hr).2)).2
  have hlength : ∀ entries : List (Nat × Sequence), (∀ p ∈ entries, p.2 ≠ []) →
      entries.length ≤ (entries.map Prod.snd).flatten.length := by
    intro entries hne
    induction entries with
    | nil => exact Nat.le_refl 0
    | cons p rest ih =>
        have hpos := List.length_pos_of_ne_nil (hne p List.mem_cons_self)
        have hrest := ih fun q hq => hne q (List.mem_cons_of_mem _ hq)
        rw [List.map_cons, List.flatten_cons, List.length_append, List.length_cons]
        omega
  have hle := (List.subperm_of_subset hi.log_nodup hsub).length_le
  rw [List.length_map] at hle
  exact Nat.le_trans (hlength _ hi.log_nonempty) hle

/-- The main loops have parsed their parts of the order, up to some node. -/
def ParsedAll (cfg : ClusterConfig) (bound : Nat) (s : Ordering) : Prop :=
  ∀ n < bound, (s.loops n).parsed = Sequencer.subbatch cfg s.agreed (n % cfg.nodesPerReplica)

/-- The rounds of one main loop leave everything else as it is. -/
theorem leads_round (hn : 0 < cfg.nodesPerReplica) (hm : Made cfg maxBatchSize made s)
    (hlen : made.length < UInt32.size) (hrest : AtRest cfg s) {n : Nat}
    (hlt : n < cfg.allNodesSize) (hparsed : ParsedAll cfg n s) :
    (machine cfg maxBatchSize).Leads Inner (fun t =>
      Made cfg maxBatchSize made t ∧ AtRest cfg t ∧ t.agreed = s.agreed ∧
        ParsedAll cfg (n + 1) t) s := by
  have hlog : s.paxos.leader.log.entries.length < UInt32.size := by
    have hle := (Inv.reach hn hm.reach).log_length_le
    rw [hm.batches] at hle
    exact Nat.lt_of_le_of_lt hle hlen
  obtain ⟨k, hk⟩ := rounds_of_rest hn hm.reach hlog hrest hlt
  obtain ⟨loop, hrun, hall, hflight⟩ := hk k (Nat.le_refl k)
  have hleads : (machine cfg maxBatchSize).Leads Inner (fun t => t = setLoop s n loop) s := by
    refine ⟨_, _, fun e he => ?_, hrun, rfl⟩
    rw [List.eq_of_mem_replicate he]
    trivial
  refine (hleads.reach (fun s e he => fits_of_inner he s) hm.reach).mono ?_
  rintro t ⟨hreach, rfl⟩
  refine ⟨⟨hreach, hm.batches⟩, ⟨hrest.txnBatches, hrest.voteMessages, hrest.idle, hrest.count,
    hrest.followers, fun j hj => ?_⟩, rfl, fun j hj => ?_⟩
  · by_cases hjn : j = n
    · subst hjn
      simpa [setLoop] using hflight.trans (hrest.schedulers j hj)
    · simpa [setLoop, hjn] using hrest.schedulers j hj
  · have hagreed : (setLoop s n loop).agreed = s.agreed := rfl
    rw [hagreed]
    by_cases hjn : j = n
    · subst hjn
      simpa [setLoop] using hall
    · simpa [setLoop, hjn] using hparsed j (by omega)

theorem leads_parsed (hn : 0 < cfg.nodesPerReplica) (hm : Made cfg maxBatchSize made s)
    (hlen : made.length < UInt32.size) (hrest : AtRest cfg s) (bound : Nat)
    (hbound : bound ≤ cfg.allNodesSize) :
    (machine cfg maxBatchSize).Leads Inner (fun t =>
      Made cfg maxBatchSize made t ∧ AtRest cfg t ∧ t.agreed = s.agreed ∧
        ParsedAll cfg bound t) s := by
  induction bound with
  | zero => exact .refl ⟨hm, hrest, rfl, fun n hlt => absurd hlt (Nat.not_lt_zero n)⟩
  | succ bound ih =>
      refine (ih (by omega)).trans fun t ⟨hm, hrest, hagreed, hparsed⟩ => ?_
      rw [← hagreed]
      exact leads_round hn hm hlen hrest (by omega) hparsed

end Ordering

namespace OriginalSystem

open OriginalReplica (stream)
open Replica (runAlone records nodeConfig)

variable {cfg : ClusterConfig} {maxBatchSize : Nat} {compute : Compute} {init : Key → Record}
  {s t : OriginalSystem}

/-- The steps that take nothing from a client. -/
def Inner : Event → Prop
  | .ordering e => Ordering.Inner e
  | .replica _ _ => True

instance (e : Event) : Decidable (Inner e) :=
  match e with
  | .ordering e => inferInstanceAs (Decidable (Ordering.Inner e))
  | .replica _ _ => isTrue trivial

theorem fits_of_inner (s : OriginalSystem) (e : Event) (he : Inner e) :
    Fits cfg maxBatchSize s e := by
  cases e with
  | ordering e =>
      cases e with
      | epoch n txns => exact he.elim
      | _ => trivial
  | replica r e => trivial

/-- What the ordering leads to, with the replicas as they are. -/
theorem leads_ordering (compute : Compute) (init : Key → Record) {P : Ordering → Prop}
    (h : (Ordering.machine cfg maxBatchSize).Leads Ordering.Inner P s.ordering) :
    (machine cfg maxBatchSize compute init).Leads Inner
      (fun t => t.replicas = s.replicas ∧ P t.ordering) s := by
  obtain ⟨es, ordering, hes, hrun, hP⟩ := h
  induction es generalizing s with
  | nil =>
      cases hrun
      exact .refl ⟨rfl, hP⟩
  | cons e es ih =>
      obtain ⟨o, ho, hrest⟩ := Option.bind_eq_some_iff.mp hrun
      have hnext : (machine cfg maxBatchSize compute init).next s (.ordering e) =
          some { s with ordering := o } := Option.map_eq_some_iff.mpr ⟨o, ho, rfl⟩
      exact Machine.Leads.head (e := .ordering e) (hes e List.mem_cons_self) hnext
        (ih (s := { s with ordering := o }) (fun e he => hes e (List.mem_cons_of_mem _ he)) hrest)

/-! ## The replicas -/

/-- No node behind the last partition has a step. -/
theorem nodeOf_lt (hn : 0 < cfg.nodesPerReplica) {order : List TxnProto}
    {replica replica' : Replica}
    (hs : (OriginalReplica.machine cfg order compute init).Reachable replica) {e : Replica.Event}
    (h : (OriginalReplica.machine cfg order compute init).next replica e = some replica') :
    nodeOf e < cfg.nodesPerReplica := by
  by_contra hge
  have hnil : stream cfg order (nodeOf e) = [] := by
    rw [← List.length_eq_zero_iff, ← OriginalReplica.length_stream_copies,
      Replica.stream_eq_nil hn (Nat.le_of_not_lt hge)]
    rfl
  obtain ⟨hv, hnext⟩ := plain_of_stream hs (nodeOf e)
  have hlife := lifecycle hs (nodeOf e)
  rw [hnil, List.length_nil] at hnext
  have hnone : ∀ p, DeterministicScheduler.stages (replica.nodes (nodeOf e)) p = 0 := by
    intro p
    by_contra hne
    exact Nat.not_lt_zero p
      (Nat.lt_of_lt_of_le (hlife.lt_next (Nat.pos_of_ne_zero hne)) hnext)
  rw [next_stream] at h
  obtain ⟨node, e', -, hstep, hparse⟩ := replicaNext_node h
  cases e' with
  | parse =>
      have hlt := hparse rfl
      rw [hnil] at hlt
      exact Nat.not_lt_zero _ hlt
  | verify =>
      obtain ⟨entry, rest, v, hsome, -⟩ := DeterministicScheduler.verify_cases hstep
      rw [hv] at hsome
      cases hsome
  | route =>
      obtain ⟨v, status, hsome, -, -⟩ := DeterministicScheduler.route_cases hstep
      rw [hv] at hsome
      cases hsome
  | dispatch =>
      obtain ⟨-, p, rest, hq, -⟩ := DeterministicScheduler.dispatch_cases hstep
      have hzero := hnone p
      simp [DeterministicScheduler.stages, hq] at hzero
  | handleDone =>
      obtain ⟨-, p, rest, waits, ready, hq, -⟩ := DeterministicScheduler.handleDone_cases hstep
      have hzero := hnone p
      simp [DeterministicScheduler.stages, hq] at hzero
  | start =>
      obtain ⟨⟨node', sent⟩, hstart, -⟩ := Option.map_eq_some_iff.mp hstep
      obtain ⟨p, rest, hq, -⟩ := DeterministicScheduler.start_cases hstart
      have hzero := hnone p
      simp [DeterministicScheduler.stages, hq] at hzero
  | readResult p entries =>
      obtain ⟨sm, hsm, -⟩ := DeterministicScheduler.readResult_cases hstep
      have hzero := hnone p
      simp [DeterministicScheduler.stages, hsm] at hzero
  | run p guid random =>
      obtain ⟨⟨node', forword⟩, hrun, -⟩ := Option.map_eq_some_iff.mp hstep
      obtain ⟨sm, store, hsm, -⟩ := DeterministicScheduler.run_plain (by decide) hrun
      have hzero := hnone p
      simp [DeterministicScheduler.stages, hsm] at hzero

theorem replicaNext_eq {parsed parsed' : Nat → List TxnProto} (replica : Replica)
    (e : Replica.Event) (h : parsed (nodeOf e) = parsed' (nodeOf e)) :
    replicaNext cfg compute parsed replica e = replicaNext cfg compute parsed' replica e := by
  have htxns : txnAt parsed (nodeOf e) = txnAt parsed' (nodeOf e) := by
    funext p
    rw [txnAt, txnAt, h]
  cases e with
  | node m e =>
      simp only [nodeOf] at h htxns
      simp only [replicaNext, nodeStep, h, htxns]
  | start m =>
      simp only [nodeOf] at htxns
      simp only [replicaNext, start, htxns]
  | deliver m p i =>
      simp only [nodeOf] at htxns
      simp only [replicaNext, deliver, htxns]

/-- A run of a replica over an order is one of the system, once all has been parsed. -/
theorem leads_replica (hn : 0 < cfg.nodesPerReplica) {r : Nat} (hr : r < cfg.replicasSize)
    {order : List TxnProto} (hparsed : ∀ m < cfg.nodesPerReplica,
      parsed cfg s r m = stream (replicaConfig cfg r) order m)
    (hs : (OriginalReplica.machine (replicaConfig cfg r) order compute init).Reachable
      (s.replicas r)) {es : List Replica.Event} {replica : Replica}
    (hrun : (OriginalReplica.machine (replicaConfig cfg r) order compute init).run
      (s.replicas r) es =
      some replica) :
    (machine cfg maxBatchSize compute init).Leads Inner
      (fun t => t = { s with replicas := update s.replicas r replica }) s := by
  induction es generalizing s with
  | nil =>
      cases hrun
      exact .refl (by rw [update_eq_self])
  | cons e es ih =>
      obtain ⟨replica', hnext, hrest⟩ := Option.bind_eq_some_iff.mp hrun
      have hpos : 0 < (replicaConfig cfg r).nodesPerReplica := hn
      have hm : nodeOf e < cfg.nodesPerReplica := nodeOf_lt hpos hs hnext
      have hsystem : (machine cfg maxBatchSize compute init).next s (.replica r e) =
          some { s with replicas := update s.replicas r replica' } := by
        refine Option.ite_none_right_eq_some.mpr ⟨⟨hr, hm⟩, Option.map_eq_some_iff.mpr ?_⟩
        refine ⟨replica', ?_, rfl⟩
        rw [replicaNext_eq _ e (hparsed _ hm), ← next_stream]
        exact hnext
      have hself : update s.replicas r replica' r = replica' := update_self ..
      refine Machine.Leads.head (e := .replica r e) trivial hsystem ?_
      refine (ih (s := { s with replicas := update s.replicas r replica' }) hparsed ?_ ?_).mono ?_
      · dsimp only
        rw [hself]
        exact hs.step trivial hnext
      · dsimp only
        rw [hself]
        exact hrest
      · rintro t rfl
        dsimp only
        rw [update_idem]

/-- A replica has executed the agreed order and released all locks. -/
structure Finished (cfg : ClusterConfig) (compute : Compute) (init : Key → Record)
    (s : OriginalSystem) (r : Nat) : Prop where
  deleted : ∀ m < cfg.nodesPerReplica, ∀ p < (stream cfg s.ordering.agreed m).length,
    p ∈ ((s.replicas r).nodes m).deleted
  records : Replica.records (replicaConfig cfg r) (s.replicas r) =
    (s.ordering.agreed.map TxnProto.client).foldl (runAlone compute) init

/-- Once all has been parsed a replica can finish. -/
theorem leads_finished (hn : 0 < cfg.nodesPerReplica)
    (h : (machine cfg maxBatchSize compute init).Reach (Fits cfg maxBatchSize) s)
    (hwrites : ∀ txn ∈ s.ordering.agreed, ∀ entry ∈ txn.client.entries, ∃ w ∈ txn.readWriteSet,
      cfg.lookupPartition w.key = cfg.lookupPartition entry.key)
    {r : Nat} (hr : r < cfg.replicasSize) (hparsed : ∀ m < cfg.nodesPerReplica,
      parsed cfg s r m = stream cfg s.ordering.agreed m) :
    (machine cfg maxBatchSize compute init).Leads Inner (fun t =>
      (machine cfg maxBatchSize compute init).Reach (Fits cfg maxBatchSize) t ∧
        t.ordering = s.ordering ∧ (∀ r' ≠ r, t.replicas r' = s.replicas r') ∧
        Finished cfg compute init t r) s := by
  have hagreed := agreed_of_reach hn h
  have hs := follows h (r := r) hagreed.fresh fun m hm => by
    rw [hparsed m hm]
    exact List.prefix_rfl
  have hpos : 0 < (replicaConfig cfg r).nodesPerReplica := hn
  obtain ⟨es, replica, hrun, hend⟩ :=
    OriginalReplica.exists_end hagreed.toOrder hagreed.names hpos hs
  refine ((leads_replica hn hr hparsed hs hrun).reach fits_of_inner h).mono ?_
  rintro t ⟨hreach, rfl⟩
  have hwrites' : ∀ txn ∈ s.ordering.agreed, ∀ entry ∈ txn.client.entries, ∃ w ∈ txn.readWriteSet,
      (replicaConfig cfg r).lookupPartition w.key =
        (replicaConfig cfg r).lookupPartition entry.key := hwrites
  obtain ⟨hdeleted, hrecords⟩ := OriginalReplica.end_executed hagreed.toOrder hagreed.names hwrites'
    (Machine.Reachable.run hs hrun) hend
  refine ⟨hreach, rfl, fun r' hr' => update_of_ne hr' .., fun m _ p hp => ?_, ?_⟩
  · dsimp only
    rw [update_self]
    exact hdeleted m p hp
  · dsimp only
    rw [update_self]
    exact hrecords

theorem leads_replicas (hn : 0 < cfg.nodesPerReplica)
    (h : (machine cfg maxBatchSize compute init).Reach (Fits cfg maxBatchSize) s)
    (hwrites : ∀ txn ∈ s.ordering.agreed, ∀ entry ∈ txn.client.entries, ∃ w ∈ txn.readWriteSet,
      cfg.lookupPartition w.key = cfg.lookupPartition entry.key)
    (hparsed : Ordering.ParsedAll cfg cfg.allNodesSize s.ordering) (bound : Nat)
    (hbound : bound ≤ cfg.replicasSize) :
    (machine cfg maxBatchSize compute init).Leads Inner (fun t =>
      (machine cfg maxBatchSize compute init).Reach (Fits cfg maxBatchSize) t ∧
        t.ordering = s.ordering ∧ ∀ r < bound, Finished cfg compute init t r) s := by
  induction bound with
  | zero => exact .refl ⟨h, rfl, fun r hr => absurd hr (Nat.not_lt_zero r)⟩
  | succ bound ih =>
      refine (ih (by omega)).trans fun t ⟨ht, hordering, hfinished⟩ => ?_
      refine (leads_finished hn ht (by rw [hordering]; exact hwrites) (r := bound) (by omega)
        fun m hm => ?_).mono fun u ⟨hu, hsame, hothers, hlast⟩ => ⟨hu, hsame.trans hordering,
          fun r hr => ?_⟩
      · have hlt : cfg.lookupMachineId m bound < cfg.allNodesSize := by
          rw [ClusterConfig.lookupMachineId, ClusterConfig.allNodesSize, Nat.mul_comm]
          calc cfg.nodesPerReplica * bound + m < cfg.nodesPerReplica * (bound + 1) := by
                rw [Nat.mul_add]; omega
            _ ≤ cfg.nodesPerReplica * cfg.replicasSize := Nat.mul_le_mul_left _ hbound
        have hmod : cfg.lookupMachineId m bound % cfg.nodesPerReplica = m := by
          rw [ClusterConfig.lookupMachineId, Nat.add_comm, Nat.add_mul_mod_self_right,
            Nat.mod_eq_of_lt hm]
        have hall := hparsed _ hlt
        rw [hmod] at hall
        rw [parsed, hordering]
        exact hall
      · by_cases hlast' : r = bound
        · subst hlast'
          exact hlast
        · have hold := hfinished r (by omega)
          refine ⟨fun m hm p hp => ?_, ?_⟩
          · rw [hothers r hlast']
            rw [hsame] at hp
            exact hold.deleted m hm p hp
          · rw [hothers r hlast', hsame]
            exact hold.records

/-- Everything can be finished. -/
theorem leads_all (hn : 0 < cfg.nodesPerReplica) (hr : 0 < cfg.replicasSize)
    (h : (machine cfg maxBatchSize compute init).Reach (Fits cfg maxBatchSize) s)
    (hbatches : s.ordering.batches.length < UInt32.size)
    (hwrites : ∀ b ∈ s.ordering.batches, ∀ txn ∈ b.2, ∀ entry ∈ txn.client.entries,
      ∃ w ∈ txn.readWriteSet, cfg.lookupPartition w.key = cfg.lookupPartition entry.key) :
    (machine cfg maxBatchSize compute init).Leads Inner (fun t =>
      t.ordering.batches = s.ordering.batches ∧
      (∀ b ∈ s.ordering.batches,
        b.1 ∈ (t.ordering.paxos.leader.log.sequences.take 1).flatten ∨ b.1 ∈ t.ordering.order) ∧
      ∀ r < cfg.replicasSize, Finished cfg compute init t r) s := by
  have hmade : Ordering.Made cfg maxBatchSize s.ordering.batches s.ordering :=
    ⟨(ordering_of_reach h).1, rfl⟩
  have hordering := leads_ordering compute init (s := s)
    ((Ordering.leads_rest hn hmade).trans fun o ⟨hm, hrest⟩ =>
      (Ordering.leads_parsed hn hm hbatches hrest cfg.allNodesSize (Nat.le_refl _)).mono
        fun o' ⟨hm, hrest, _, hparsed⟩ => And.intro hm (And.intro hrest hparsed))
  refine (hordering.reach fits_of_inner h).trans
    fun t ⟨ht, hreplicas, hm, hrest, hparsed⟩ =>
      (leads_replicas hn ht (fun txn htxn => by
        obtain ⟨b, hb, hmem⟩ := mem_agreed htxn
        exact hwrites b (hm.batches ▸ hb) txn hmem) hparsed cfg.replicasSize (Nat.le_refl _)).mono
          ?_
  rintro u ⟨hu, hsame, hfinished⟩
  rw [← hsame] at hm hrest
  refine ⟨hm.batches, fun b hb => ?_, hfinished⟩
  refine (Ordering.Inv.reach hn hm.reach).all_logged hrest ?_ hr
  rw [hm.batches]
  exact List.mem_map_of_mem hb

/-- From every state that a run reaches, what the clients have submitted can be
finished without anything new: every batch is in the agreed order, or in the first
sequence of the log, and every replica has executed the agreed order, released all
locks and has the records of the serial execution. The condition on the batches is
that every participant has a record to write. -/
theorem can_finish (cfg : ClusterConfig) (maxBatchSize : Nat) (compute : Compute)
    (init : Key → Record) (hn : 0 < cfg.nodesPerReplica) (hr : 0 < cfg.replicasSize)
    (s : OriginalSystem)
    (h : (machine cfg maxBatchSize compute init).Reach (Fits cfg maxBatchSize) s)
    (hbatches : s.ordering.batches.length < UInt32.size)
    (hwrites : ∀ b ∈ s.ordering.batches, ∀ txn ∈ b.2, ∀ entry ∈ txn.client.entries,
      ∃ w ∈ txn.readWriteSet, cfg.lookupPartition w.key = cfg.lookupPartition entry.key) :
    ∃ es t, (machine cfg maxBatchSize compute init).run s es = some t ∧ (∀ e ∈ es, Inner e) ∧
      t.ordering.batches = s.ordering.batches ∧
      (∀ b ∈ s.ordering.batches,
        b.1 ∈ (t.ordering.paxos.leader.log.sequences.take 1).flatten ∨ b.1 ∈ t.ordering.order) ∧
      ∀ r < cfg.replicasSize, Finished cfg compute init t r := by
  obtain ⟨es, t, hes, hrun, hbatches', hlogged, hfinished⟩ := leads_all hn hr h hbatches hwrites
  exact ⟨es, t, hrun, hes, hbatches', hlogged, hfinished⟩

/-- Two replicas of one machine, and a batch of each; the first one is committed, and
the other one is still to be ordered and executed. -/
theorem can_finish_twoReplicas :
    let cfg : ClusterConfig := { replicasSize := 2 }
    let compute : Compute := fun _ _ _ => []
    let init : Key → Record := fun _ => ⟨[], 0, 0⟩
    ∃ s, s.ordering.batches.map Prod.fst = [2001, 2002] ∧
      s.ordering.paxos.leader.log.sequences = [[2001]] ∧
      ∃ es t, (machine cfg 10 compute init).run s es = some t ∧ (∀ e ∈ es, Inner e) ∧
        t.ordering.batches = s.ordering.batches ∧
        (∀ b ∈ s.ordering.batches,
          b.1 ∈ (t.ordering.paxos.leader.log.sequences.take 1).flatten ∨ b.1 ∈ t.ordering.order) ∧
        ∀ r < cfg.replicasSize, Finished cfg compute init t r := by
  intro cfg compute init
  obtain ⟨s, hs, hnumbers, hlogged, hlen, hwrites⟩ :=
    Machine.exists_of_runIf (m := machine cfg 10 compute init) (Fits cfg 10) (P := fun s =>
      s.ordering.batches.map Prod.fst = [2001, 2002] ∧
        s.ordering.paxos.leader.log.sequences = [[2001]] ∧
        s.ordering.batches.length < UInt32.size ∧
        ∀ b ∈ s.ordering.batches, ∀ txn ∈ b.2, ∀ entry ∈ txn.client.entries,
          ∃ w ∈ txn.readWriteSet, cfg.lookupPartition w.key = cfg.lookupPartition entry.key)
      (let txn : ClientTxn := { txnId := 0, readWriteSet := [⟨[48], 0, 0⟩] }
        let ordering : List Ordering.Event := [.epoch 0 [txn], .epoch 1 [txn, txn], .gotBatch 1,
          .gotBatch 0, .gotVote 0, .gotVote 0, .propose, .receive 1, .gotAck 1, .commit,
          .receive 1]
        ordering.map .ordering)
      (by decide)
  exact ⟨s, hnumbers, hlogged,
    can_finish cfg 10 compute init (by decide) (by decide) s hs hlen hwrites⟩

end OriginalSystem

end Calvin
