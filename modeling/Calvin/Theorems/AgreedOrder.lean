import Mathlib.Data.List.Infix
import Calvin.Scheduler.OrderingSpec
import Calvin.Theorems.BatchOrder

/-!
# One order for all schedulers

The leader proposes from version 0, the schedulers take sequences from version 1.
What is in the first sequence of the leader's log is taken nowhere; the batches of
the others are the agreed order.

* `round_whole`: a scheduler does the same with and without the first order;
* `parsed_of_reach`: a scheduler follows whatever the order becomes;
* `one_order`: all schedulers parse the agreed order, and all of it.
-/

namespace Calvin

open Function Lib

/-! ## The order of version 0 -/

/-- The messages without the order of version 0. -/
def later (messages : List SchedulerMessage) : List SchedulerMessage :=
  messages.filter fun
    | .txnSubbatch _ => true
    | .paxosBatchOrder version _ => version ≠ 0

theorem later_subbatch (batch : Subbatch) (rest : List SchedulerMessage) :
    later (.txnSubbatch batch :: rest) = .txnSubbatch batch :: later rest := rfl

theorem later_first (data : Sequence) (rest : List SchedulerMessage) :
    later (.paxosBatchOrder 0 data :: rest) = later rest := rfl

theorem later_order {version : Nat} (h : version ≠ 0) (data : Sequence)
    (rest : List SchedulerMessage) :
    later (.paxosBatchOrder version data :: rest) = .paxosBatchOrder version data :: later rest :=
  List.filter_cons_of_pos (decide_eq_true h)

theorem mem_later {messages : List SchedulerMessage} {m : SchedulerMessage} :
    m ∈ later messages ↔ m ∈ messages ∧ ∀ data, m ≠ .paxosBatchOrder 0 data := by
  unfold later
  rw [List.mem_filter]
  refine and_congr_right fun _ => ?_
  cases m with
  | txnSubbatch batch => simp
  | paxosBatchOrder version data => simp

namespace BatchReader

/-- The reader without the order of version 0. -/
def later (r : BatchReader) : BatchReader :=
  { r with globalBatchesOrder := update r.globalBatchesOrder 0 none }

theorem later_currentSequenceId (r : BatchReader) :
    (later r).currentSequenceId = r.currentSequenceId := rfl

theorem later_currentSequence (r : BatchReader) :
    (later r).currentSequence = r.currentSequence := rfl

theorem later_store_first (r : BatchReader) (data : Sequence) :
    later { r with globalBatchesOrder := update r.globalBatchesOrder 0 (some data) } = later r := by
  simp only [later, update_idem]

theorem later_store_order (r : BatchReader) {version : Nat} (h : version ≠ 0)
    (data : Option Sequence) :
    later { r with globalBatchesOrder := update r.globalBatchesOrder version data } =
      { later r with globalBatchesOrder := update (later r).globalBatchesOrder version data } := by
  simp only [later, update_comm h]

theorem later_advance (r : BatchReader) (size : Nat) :
    later (r.advance size) = (later r).advance size := by
  unfold advance
  dsimp only
  split
  case isTrue h => rw [if_pos (show size ≤ (later r).currentSequenceBatchIndex + 1 from h)]; rfl
  case isFalse h => rw [if_neg (show ¬ size ≤ (later r).currentSequenceBatchIndex + 1 from h)]; rfl

/-- Waiting for another order, the first one makes no difference. -/
theorem receiveOrder_later (channel : List SchedulerMessage) (r : BatchReader)
    (h : r.currentSequenceId ≠ 0) :
    r.later.receiveOrder (Calvin.later channel) =
      ((r.receiveOrder channel).1.later, Calvin.later (r.receiveOrder channel).2) := by
  induction channel generalizing r with
  | nil => rfl
  | cons m rest ih =>
      cases m with
      | txnSubbatch batch =>
          rw [later_subbatch]
          exact ih { r with
            batchesData := update r.batchesData batch.batchNumber (some batch) } h
      | paxosBatchOrder version data =>
          by_cases h0 : version = 0
          · subst h0
            rw [later_first, receiveOrder, if_neg (Ne.symm h), ← later_store_first r data]
            exact ih _ h
          · rw [later_order h0, receiveOrder, receiveOrder, later_currentSequenceId]
            by_cases hv : version = r.currentSequenceId
            · rw [if_pos hv, if_pos hv]
              rfl
            · rw [if_neg hv, if_neg hv]
              exact (congrArg (receiveOrder · (Calvin.later rest))
                (later_store_order r h0 (some data)).symm).trans (ih _ h)

theorem receiveSubbatch_later (wanted size : Nat) (channel : List SchedulerMessage)
    (r : BatchReader) :
    r.later.receiveSubbatch wanted size (Calvin.later channel) =
      ((r.receiveSubbatch wanted size channel).1.later,
        Calvin.later (r.receiveSubbatch wanted size channel).2.1,
        (r.receiveSubbatch wanted size channel).2.2) := by
  induction channel generalizing r with
  | nil => rfl
  | cons m rest ih =>
      cases m with
      | txnSubbatch batch =>
          rw [later_subbatch, receiveSubbatch, receiveSubbatch]
          by_cases hb : batch.batchNumber = wanted
          · rw [if_pos hb, if_pos hb, later_advance]
          · rw [if_neg hb, if_neg hb]
            exact ih { r with
              batchesData := update r.batchesData batch.batchNumber (some batch) }
      | paxosBatchOrder version data =>
          by_cases h0 : version = 0
          · subst h0
            rw [later_first, receiveSubbatch, ← later_store_first r data]
            exact ih _
          · rw [later_order h0, receiveSubbatch, receiveSubbatch]
            exact (congrArg (receiveSubbatch · wanted size (Calvin.later rest))
              (later_store_order r h0 (some data)).symm).trans (ih _)

theorem fetchSequence_later (channel : List SchedulerMessage) (r : BatchReader)
    (h : r.currentSequence = none → r.currentSequenceId ≠ 0) :
    r.later.fetchSequence (Calvin.later channel) =
      ((r.fetchSequence channel).1.later, Calvin.later (r.fetchSequence channel).2) := by
  unfold fetchSequence
  cases hcur : r.currentSequence with
  | some data => rw [later_currentSequence, hcur]
  | none =>
      have hbuf : r.later.globalBatchesOrder r.later.currentSequenceId =
          r.globalBatchesOrder r.currentSequenceId := update_of_ne (h hcur) ..
      rw [later_currentSequence, hcur, hbuf]
      cases r.globalBatchesOrder r.currentSequenceId with
      | some data =>
          dsimp only
          congr 1
          exact (later_store_order { r with
            currentSequence := some data, currentSequenceBatchIndex := 0 } (h hcur) none).symm
      | none => exact receiveOrder_later channel r (h hcur)

theorem fetchBatch_later (channel : List SchedulerMessage) (r : BatchReader) :
    r.later.fetchBatch (Calvin.later channel) =
      (r.fetchBatch channel).map fun (r, channel, out) => (r.later, Calvin.later channel, out) := by
  unfold fetchBatch
  cases hcur : r.currentSequence with
  | none =>
      rw [later_currentSequence, hcur]
      rfl
  | some data =>
      rw [later_currentSequence, hcur, Option.map_map]
      refine congrFun (congrArg Option.map (funext fun wanted => ?_)) _
      have hbuf : r.later.batchesData wanted = r.batchesData wanted := rfl
      rw [comp_apply, hbuf]
      cases r.batchesData wanted with
      | some batch =>
          dsimp only
          rw [later_advance]
          rfl
      | none => exact receiveSubbatch_later wanted data.length channel r

/-- A call of `GetBatch` does the same without the order of version 0. -/
theorem getBatch_later (channel : List SchedulerMessage) (r : BatchReader)
    (h : r.currentSequence = none → r.currentSequenceId ≠ 0) :
    r.later.getBatch (Calvin.later channel) =
      (r.getBatch channel).map fun (r, channel, out) => (r.later, Calvin.later channel, out) := by
  unfold getBatch
  rw [fetchSequence_later channel r h]
  exact fetchBatch_later _ _

end BatchReader

namespace BatchStream

variable {seqs : List Sequence} {subbatch : Nat → Subbatch} {sent : List SchedulerMessage}

/-! ## The stream of a scheduler -/

variable (seqs subbatch sent) in
/-- The stream as if everything had been sent at the start, except for the order of
version 0. -/
def whole (stream : BatchStream) : BatchStream where
  inFlight := (messages seqs subbatch).filter (· ∉ sent) ++ later stream.inFlight
  channel := later stream.channel
  reader := stream.reader.later
  returned := stream.returned

variable (seqs subbatch sent) in
def Loop.whole (loop : Loop) : Loop :=
  { loop with stream := BatchStream.whole seqs subbatch sent loop.stream }

theorem getBatch_whole (stream : BatchStream)
    (h : stream.reader.currentSequence = none → stream.reader.currentSequenceId ≠ 0) :
    (whole seqs subbatch sent stream).getBatch =
      stream.getBatch.map fun (stream, out) => (whole seqs subbatch sent stream, out) := by
  unfold getBatch whole
  rw [BatchReader.getBatch_later _ _ h, Option.map_map, Option.map_map]
  rfl

/-- A round of the loop does the same. -/
theorem round_whole (loop : Loop) (room : Bool)
    (h : loop.stream.reader.currentSequence = none → loop.stream.reader.currentSequenceId ≠ 0) :
    (Loop.whole seqs subbatch sent loop).round room =
      (loop.round room).map (Loop.whole seqs subbatch sent) := by
  have hget : (BatchStream.whole seqs subbatch sent loop.stream).getBatch =
      loop.stream.getBatch.map fun (stream, out) =>
        (BatchStream.whole seqs subbatch sent stream, out) := getBatch_whole loop.stream h
  have hmessage : (Loop.whole seqs subbatch sent loop).batchMessage = loop.batchMessage := rfl
  unfold Loop.round
  rw [hmessage]
  cases loop.batchMessage with
  | none =>
      show ((BatchStream.whole seqs subbatch sent loop.stream).getBatch.map _) = _
      rw [hget, Option.map_map, Option.map_map]
      rfl
  | some batch =>
      dsimp only
      rw [show (Loop.whole seqs subbatch sent loop).batchOffset = loop.batchOffset from rfl]
      split
      · show ((BatchStream.whole seqs subbatch sent loop.stream).getBatch.map _) = _
        rw [hget, Option.map_map, Option.map_map]
        rfl
      · split
        · rfl
        · rfl

/-- More messages of the order may be on their way. -/
theorem Stream.congr {taken : Nat} {pending pending' : List SchedulerMessage} {r : BatchReader}
    {returned : List Subbatch} (h : Stream seqs subbatch taken pending r returned)
    (hsub : ∀ x ∈ pending, x ∈ pending') (hvalid : ∀ x ∈ pending', Valid seqs subbatch x) :
    Stream seqs subbatch taken pending' r returned :=
  { h with
    pendingValid := hvalid
    orderLeft := fun i data hi hdata => (h.orderLeft i data hi hdata).imp_left (hsub _)
    batchLeft := fun id hid => (h.batchLeft id hid).imp_left (hsub _) }

theorem Parsed.congr {loop loop' : Loop} (h : Parsed seqs subbatch loop)
    (hloop : loop' = { loop with stream := { loop.stream with
      inFlight := loop'.stream.inFlight, channel := loop'.stream.channel } })
    (hsub : ∀ x ∈ loop.stream.inFlight ++ loop.stream.channel,
      x ∈ loop'.stream.inFlight ++ loop'.stream.channel)
    (hvalid : ∀ x ∈ loop'.stream.inFlight ++ loop'.stream.channel, Valid seqs subbatch x) :
    Parsed seqs subbatch loop' := by
  rw [hloop]
  obtain ⟨taken, hstream⟩ := h.flows
  exact ⟨⟨taken, hstream.congr hsub hvalid⟩, h.parsed, h.offset⟩

/-- What is pending belongs to the order. -/
theorem Parsed.valid {loop : Loop} (h : Parsed seqs subbatch loop) :
    ∀ x ∈ loop.stream.inFlight ++ loop.stream.channel, Valid seqs subbatch x := by
  obtain ⟨taken, hstream⟩ := h.flows
  exact hstream.pendingValid

theorem valid_messages (hsub : ∀ id, (subbatch id).batchNumber = id) :
    ∀ x ∈ messages seqs subbatch, Valid seqs subbatch x := by
  obtain ⟨taken, h⟩ : Flows seqs subbatch { inFlight := messages seqs subbatch } :=
    flows_init hsub
  exact fun x hx => h.pendingValid x (List.mem_append_left _ hx)

/-- No scheduler that is short of a sequence waits for version 0. -/
theorem Parsed.waits {loop : Loop} (h : Parsed seqs subbatch (Loop.whole seqs subbatch sent loop))
    (hlen : seqs.length + 1 < UInt32.size) (hnone : loop.stream.reader.currentSequence = none) :
    loop.stream.reader.currentSequenceId ≠ 0 := by
  obtain ⟨taken, hstream⟩ := h.flows
  have hwanted : loop.stream.reader.currentSequenceId =
      (if loop.stream.reader.currentSequence.isSome
    then taken else taken + 1) % UInt32.size := hstream.wanted
  have hle := hstream.takenLe
  rw [hnone, Option.isSome_none, if_neg Bool.false_ne_true, Nat.mod_eq_of_lt (by omega)] at hwanted
  omega

/-- Before anything is sent. -/
theorem parsed_init (hsub : ∀ id, (subbatch id).batchNumber = id) :
    Parsed seqs subbatch (Loop.whole seqs subbatch [] { stream := { inFlight := [] } }) := by
  refine ⟨?_, rfl, fun _ => rfl⟩
  have hall : (messages seqs subbatch).filter (· ∉ ([] : List SchedulerMessage)) ++
      later [] = messages seqs subbatch := by
    rw [List.filter_eq_self.mpr fun x _ => decide_eq_true List.not_mem_nil]
    exact List.append_nil _
  obtain ⟨taken, hstream⟩ : Flows seqs subbatch { inFlight := messages seqs subbatch } :=
    flows_init hsub
  refine ⟨taken, ?_⟩
  have hreader : BatchReader.later {} = {} := by
    rw [BatchReader.later]
    congr 1
    funext v
    exact congrFun (update_eq_self (f := fun _ : Nat => (none : Option Sequence)) 0) v
  show Stream seqs subbatch taken
    (((messages seqs subbatch).filter (· ∉ ([] : List SchedulerMessage)) ++
    later []) ++ []) (BatchReader.later {}) []
  rw [hall, hreader]
  exact hstream

/-- Messages of the order are sent, or the order of version 0. -/
theorem Parsed.send {loop : Loop} (h : Parsed seqs subbatch (Loop.whole seqs subbatch sent loop))
    {new : List SchedulerMessage}
    (hnew : ∀ m ∈ new, Valid seqs subbatch m ∨ ∃ data, m = .paxosBatchOrder 0 data)
    (hsub : ∀ id, (subbatch id).batchNumber = id) :
    Parsed seqs subbatch (Loop.whole seqs subbatch (sent ++ new)
      { loop with stream := { loop.stream with inFlight := loop.stream.inFlight ++ new } }) := by
  have hfirst : ∀ m ∈ messages seqs subbatch, ∀ data, m ≠ .paxosBatchOrder 0 data := by
    rintro m hm data rfl
    obtain ⟨i, hi, -⟩ := valid_messages hsub _ hm
    omega
  refine h.congr rfl (fun x hx => ?_) fun x hx => ?_
  · rcases List.mem_append.mp hx with hx | hx
    · rcases List.mem_append.mp hx with hx | hx
      · -- it may be one of the new messages
        obtain ⟨hmem, hunsent⟩ := List.mem_filter.mp hx
        have hunsent : x ∉ sent := of_decide_eq_true hunsent
        refine List.mem_append_left _ (List.mem_append.mpr ?_)
        by_cases hn : x ∈ new
        · exact .inr (mem_later.mpr ⟨List.mem_append_right _ hn, hfirst x hmem⟩)
        · refine .inl (List.mem_filter.mpr ⟨hmem, decide_eq_true fun hs => ?_⟩)
          exact (List.mem_append.mp hs).elim hunsent hn
      · obtain ⟨hmem, hx⟩ := mem_later.mp hx
        exact List.mem_append_left _ (List.mem_append_right _
          (mem_later.mpr ⟨List.mem_append_left _ hmem, hx⟩))
    · exact List.mem_append_right _ hx
  · rcases List.mem_append.mp hx with hx | hx
    · rcases List.mem_append.mp hx with hx | hx
      · exact valid_messages hsub x (List.mem_filter.mp hx).1
      · obtain ⟨hmem, hx⟩ := mem_later.mp hx
        rcases List.mem_append.mp hmem with hmem | hmem
        · exact h.valid x (List.mem_append_left _ (List.mem_append_right _
            (mem_later.mpr ⟨hmem, hx⟩)))
        · refine (hnew x hmem).resolve_right fun ⟨data, heq⟩ => hx data heq
    · exact h.valid x (List.mem_append_right _ hx)

/-- A message arrives. -/
theorem Parsed.deliver {loop : Loop} {stream : BatchStream} {index : Nat}
    (h : Parsed seqs subbatch (Loop.whole seqs subbatch sent loop))
    (hn : loop.stream.deliver index = some stream) :
    Parsed seqs subbatch (Loop.whole seqs subbatch sent { loop with stream }) := by
  obtain ⟨m, hm, rfl⟩ := Option.map_eq_some_iff.mp hn
  have hmem : ∀ x, x ∈ loop.stream.inFlight.eraseIdx index ∨ x ∈ loop.stream.channel ++ [m] ↔
      x ∈ loop.stream.inFlight ∨ x ∈ loop.stream.channel := fun x => by
    rw [← (cons_eraseIdx_perm hm).mem_iff, List.mem_append, List.mem_singleton, List.mem_cons]
    tauto
  have hiff : ∀ x, x ∈ (Loop.whole seqs subbatch sent { loop with stream := { loop.stream with
        inFlight := loop.stream.inFlight.eraseIdx index
        channel := loop.stream.channel ++ [m] } }).stream.inFlight ++
      (Loop.whole seqs subbatch sent { loop with stream := { loop.stream with
        inFlight := loop.stream.inFlight.eraseIdx index
        channel := loop.stream.channel ++ [m] } }).stream.channel ↔
      x ∈ (Loop.whole seqs subbatch sent loop).stream.inFlight ++
        (Loop.whole seqs subbatch sent loop).stream.channel := fun x => by
    have hx := hmem x
    simp only [Loop.whole, whole, List.mem_append, mem_later] at hx ⊢
    tauto
  exact h.congr rfl (fun x hx => (hiff x).mpr hx) fun x hx => h.valid x ((hiff x).mp hx)

end BatchStream

namespace Ordering

open BatchStream (Parsed Valid messages)
open BatchVotes (Vote)

variable {cfg : ClusterConfig} {maxBatchSize : Nat} {s s' : Ordering} {seqs : List Sequence}
  {content : Nat → List TxnProto}

/-! ## Runs -/

/-- The sequences that the schedulers take. -/
def taken (s : Ordering) : List Sequence := s.paxos.leader.log.sequences.drop 1

/-- Sequences and batches that a state may lead to. -/
structure Future (seqs : List Sequence) (content : Nat → List TxnProto) (s : Ordering) : Prop where
  order : s.taken <+: seqs
  content : ∀ b ∈ s.batches, content b.1 = b.2

/-- The sub-batches of a scheduler. -/
def subbatches (cfg : ClusterConfig) (content : Nat → List TxnProto) (n batchId : Nat) : Subbatch :=
  subbatchAt cfg n batchId (content batchId)

theorem subbatches_number (cfg : ClusterConfig) (content : Nat → List TxnProto) (n batchId : Nat) :
    (subbatches cfg content n batchId).batchNumber = batchId := rfl

/-- A step adds to the log and to the batches. -/
theorem grows {e : Event} (hi : Inv cfg s) (h : (machine cfg maxBatchSize).next s e = some s') :
    s.paxos.leader.log.entries <+: s'.paxos.leader.log.entries ∧ s.batches ⊆ s'.batches := by
  have hstep : ∀ {e : Paxos.Group.Event} {t : Ordering},
      paxosStep cfg s (Paxos.Group.participant e) e = some t →
        s.paxos.leader.log.entries <+: t.paxos.leader.log.entries ∧ s.batches ⊆ t.batches := by
    intro e t ht
    obtain ⟨paxos, hnext, rfl⟩ := Option.map_eq_some_iff.mp ht
    obtain ⟨new, -, hlog, hothers⟩ :=
      Paxos.Group.next_logs (Paxos.Group.inv_of_reachable hi.paxos) hnext
    refine ⟨?_, fun _ h => h⟩
    show s.paxos.leader.log.entries <+: paxos.leader.log.entries
    rw [← Paxos.Group.logOf_leader, ← Paxos.Group.logOf_leader]
    by_cases h0 : 0 = Paxos.Group.participant e
    · rw [h0, hlog]
      exact List.prefix_append _ _
    · rw [hothers 0 h0]
  cases e with
  | epoch n txns =>
      obtain ⟨-, h⟩ := Option.ite_none_right_eq_some.mp h
      obtain rfl := Option.some.inj h
      exact ⟨List.prefix_rfl, List.subset_append_left _ _⟩
  | gotBatch i =>
      obtain ⟨message, -, rfl⟩ := Option.map_eq_some_iff.mp h
      exact ⟨List.prefix_rfl, fun _ h => h⟩
  | gotVote i =>
      obtain ⟨v, -, rfl⟩ := Option.map_eq_some_iff.mp h
      refine ⟨?_, fun _ h => h⟩
      show s.paxos.leader.log.entries <+: (Sequencer.batchVote cfg.replicasSize
        ⟨s.batchVotes, s.paxos.leader⟩ v.batchId).1.paxosLog.log.entries
      unfold Sequencer.batchVote
      dsimp only
      split <;> exact List.prefix_rfl
  | propose => exact hstep (e := .propose) h
  | gotAck i => exact hstep (e := .gotAck i) h
  | commit => exact hstep (e := .commit) h
  | receive i => exact hstep (e := .receive i) h
  | deliver n index =>
      obtain ⟨stream, -, rfl⟩ := Option.map_eq_some_iff.mp h
      exact ⟨List.prefix_rfl, fun _ h => h⟩
  | round n room =>
      obtain ⟨loop, -, rfl⟩ := Option.map_eq_some_iff.mp h
      exact ⟨List.prefix_rfl, fun _ h => h⟩

theorem Future.before {e : Event} (hf : Future seqs content s') (hi : Inv cfg s)
    (h : (machine cfg maxBatchSize).next s e = some s') : Future seqs content s := by
  obtain ⟨hlog, hbatches⟩ := grows hi h
  exact ⟨(List.IsPrefix.drop (hlog.map Prod.snd) 1).trans hf.order, fun b hb =>
    hf.content b (hbatches hb)⟩

/-- What a scheduler is sent belongs to every order the state may lead to. -/
theorem Future.valid (hf : Future seqs content s) (hi : Inv cfg s) {n : Nat} {m : SchedulerMessage}
    (h : Sent cfg s n m) :
    Valid seqs (subbatches cfg content n) m ∨ ∃ data, m = .paxosBatchOrder 0 data := by
  cases m with
  | txnSubbatch batch =>
      obtain ⟨data, hdata, heq⟩ := h
      refine .inl ?_
      show batch = subbatchAt cfg n batch.batchNumber (content batch.batchNumber)
      rw [hf.content _ hdata]
      exact heq
  | paxosBatchOrder version data =>
      obtain ⟨i, hlt, hget⟩ := List.mem_iff_getElem.mp h
      have hget : s.paxos.leader.log.entries[i]? = some (version, data) :=
        List.getElem?_eq_some_iff.mpr ⟨hlt, hget⟩
      have hversion : version = i := hi.log_version hget
      cases i with
      | zero => exact .inr ⟨data, by rw [hversion]⟩
      | succ j =>
          refine .inl ⟨j, hversion, ?_⟩
          have htaken : s.taken[j]? = some data := by
            rw [taken, LocalMemLog.sequences, List.getElem?_drop, List.getElem?_map,
              Nat.add_comm, hget]
            rfl
          obtain ⟨rest, hrest⟩ := hf.order
          rw [← hrest, List.getElem?_append_left (List.getElem?_eq_some_iff.mp htaken).1]
          exact htaken

section

variable (hn : 0 < cfg.nodesPerReplica) (hne : ∀ d ∈ seqs, d ≠ [])
  (hlen : seqs.length + 1 < UInt32.size) (hids : seqs.flatten.Nodup)

include hn hne hlen hids

/-- A scheduler follows every order that the state may lead to. -/
theorem parsed_of_reach (h : (machine cfg maxBatchSize).Reach (Fits cfg) s)
    (hf : Future seqs content s) (n : Nat) :
    Parsed seqs (subbatches cfg content n)
      (BatchStream.Loop.whole seqs (subbatches cfg content n) (s.sent n) (s.loops n)) := by
  revert hf n
  refine h.invariant (P := fun s => Future seqs content s → ∀ n,
    Parsed seqs (subbatches cfg content n)
      (BatchStream.Loop.whole seqs (subbatches cfg content n) (s.sent n) (s.loops n)))
    (fun _ n => BatchStream.parsed_init (subbatches_number cfg content n)) ?_
  intro s e s' hr hfits hparsed hnext hf n
  have hi := Inv.reach hn hr
  have hi' := hi.step hn hfits hnext
  have hold := hparsed (hf.before hi hnext)
  -- messages of the order are sent to a replica
  have hsend : ∀ (t : Ordering) (r : Nat) (new : Nat → List SchedulerMessage),
      s' = sendSchedulers cfg t r new → t.loops = s.loops → t.sent = s.sent →
      Parsed seqs (subbatches cfg content n)
        (BatchStream.Loop.whole seqs (subbatches cfg content n) (s'.sent n) (s'.loops n)) := by
    intro t r new heq hloops hsent
    have hnew : n / cfg.nodesPerReplica = r → ∀ m ∈ new (n % cfg.nodesPerReplica),
        Valid seqs (subbatches cfg content n) m ∨ ∃ data, m = .paxosBatchOrder 0 data := by
      intro hrep m hm
      refine hf.valid hi' (hi'.sent n m ?_)
      rw [heq]
      exact mem_sent_sendSchedulers.mpr (.inr ⟨hrep, hm⟩)
    rw [heq, sendSchedulers]
    dsimp only
    by_cases hrep : n / cfg.nodesPerReplica = r
    · rw [if_pos hrep, if_pos hrep, hloops, hsent]
      exact (hold n).send (hnew hrep) (subbatches_number cfg content n)
    · rw [if_neg hrep, if_neg hrep, hloops, hsent]
      exact hold n
  cases e with
  | epoch m txns =>
      obtain ⟨-, hnext⟩ := Option.ite_none_right_eq_some.mp hnext
      obtain rfl := Option.some.inj hnext
      exact hold n
  | gotBatch i =>
      obtain ⟨message, -, rfl⟩ := Option.map_eq_some_iff.mp hnext
      exact hsend _ _ _ rfl rfl rfl
  | gotVote i =>
      obtain ⟨v, -, rfl⟩ := Option.map_eq_some_iff.mp hnext
      exact hold n
  | propose | gotAck _ | commit | receive _ =>
      obtain ⟨paxos, -, rfl⟩ := Option.map_eq_some_iff.mp hnext
      exact hsend _ _ _ rfl rfl rfl
  | deliver m index =>
      obtain ⟨stream, hstream, rfl⟩ := Option.map_eq_some_iff.mp hnext
      show Parsed seqs _ (BatchStream.Loop.whole seqs _ (s.sent n) (update s.loops m _ n))
      by_cases hm : n = m
      · subst hm
        rw [update_self]
        exact (hold n).deliver hstream
      · rw [update_of_ne hm]
        exact hold n
  | round m room =>
      obtain ⟨loop, hround, rfl⟩ := Option.map_eq_some_iff.mp hnext
      show Parsed seqs _ (BatchStream.Loop.whole seqs _ (s.sent n) (update s.loops m loop n))
      by_cases hm : n = m
      · subst hm
        rw [update_self]
        obtain ⟨loop', hloop', hparsed', -⟩ := (hold n).round (subbatches_number cfg content n) hne
          (Nat.lt_of_succ_lt hlen) hids room
        rw [BatchStream.round_whole _ _ ((hold n).waits hlen), hround] at hloop'
        obtain rfl := Option.some.inj hloop'
        exact hparsed'
      · rw [update_of_ne hm]
        exact hold n

end

/-! ## What is agreed on -/

/-- The batches that the schedulers take, in order. -/
def order (s : Ordering) : List Nat := s.taken.flatten

/-- The transactions of a batch. -/
def contentOf (s : Ordering) (batchId : Nat) : List TxnProto := (s.batches.lookup batchId).getD []

/-- The transactions of the batches in order. -/
def agreed (s : Ordering) : List TxnProto := s.order.flatMap s.contentOf

/-- A replica has the batch at all of its schedulers. -/
def Holds (cfg : ClusterConfig) (s : Ordering) (batchId r : Nat) : Prop :=
  ∀ m < cfg.nodesPerReplica,
    .txnSubbatch (subbatchAt cfg (cfg.lookupMachineId m r) batchId (s.contentOf batchId)) ∈
      s.sent (cfg.lookupMachineId m r)

/-- Nothing is under way, and the leader has nothing to propose. -/
structure AtRest (cfg : ClusterConfig) (s : Ordering) : Prop where
  txnBatches : s.txnBatches = []
  voteMessages : s.voteMessages = []
  idle : s.paxos.leader.pc = .idle
  count : s.paxos.leader.count = 0
  followers : ∀ i < cfg.replicasSize, s.paxos.toFollower i = []
  schedulers : ∀ n < cfg.allNodesSize, (s.loops n).stream.inFlight = []

namespace Inv

theorem contentOf_eq (hi : Inv cfg s) {batchId : Nat} {data : List TxnProto}
    (h : (batchId, data) ∈ s.batches) : s.contentOf batchId = data := by
  obtain ⟨before, after, hsplit⟩ := List.append_of_mem h
  have hlookup : s.batches.lookup batchId = some data := by
    rw [List.lookup_eq_some_iff]
    refine ⟨before, after, hsplit, fun p hp => bne_iff_ne.mpr fun heq => ?_⟩
    have hnodup := hi.numbers
    rw [hsplit, List.map_append] at hnodup
    exact (List.nodup_append.mp hnodup).2.2 p.1 (List.mem_map_of_mem hp) batchId
      List.mem_cons_self heq.symm
  rw [contentOf, hlookup]
  rfl

/-- The state itself is a future. -/
theorem future (hi : Inv cfg s) : Future s.taken s.contentOf s where
  order := List.prefix_rfl
  content _ hb := hi.contentOf_eq hb

theorem nodup_order (hi : Inv cfg s) : s.order.Nodup := by
  have hsplit : s.paxos.leader.log.sequences.flatten =
      (s.paxos.leader.log.sequences.take 1).flatten ++ s.order := by
    rw [order, taken, ← List.flatten_append, List.take_append_drop]
  have hlog := hi.log_nodup
  rw [hsplit] at hlog
  exact (List.nodup_append.mp hlog).2.1

theorem taken_nonempty (hi : Inv cfg s) : ∀ d ∈ s.taken, d ≠ [] := by
  intro d hd
  obtain ⟨p, hp, rfl⟩ := List.mem_map.mp (List.mem_of_mem_drop hd)
  exact hi.log_nonempty p hp

theorem taken_length (hlen : s.paxos.leader.log.entries.length < UInt32.size) :
    s.taken.length + 1 < UInt32.size := by
  rw [taken, List.length_drop, LocalMemLog.sequences, List.length_map]
  simp only [UInt32.size] at hlen ⊢
  omega

/-- What is in the log has been appended. -/
theorem appended_of_order (hi : Inv cfg s) {batchId : Nat} (h : batchId ∈ s.order) :
    batchId ∈ s.appended := by
  have hordered : BatchVotes.ordered s.paxos.leader = s.appended :=
    BatchVotes.ordered_once hi.head
  rw [← hordered, BatchVotes.ordered, List.append_assoc]
  refine List.mem_append_left _ ?_
  obtain ⟨d, hd, hmem⟩ := List.mem_flatten.mp h
  exact List.mem_flatten.mpr ⟨d, List.mem_of_mem_drop hd, hmem⟩

/-- A batch is appended when a majority of the replicas has voted for it. -/
theorem appended_iff (hi : Inv cfg s) (batchId : Nat) :
    batchId ∈ s.appended ↔
      cfg.replicasSize / 2 + 1 ≤ BatchVotes.votes (headMachine s) batchId := by
  have honce : s.appended.count batchId =
      BatchVotes.appendsOf cfg.replicasSize (BatchVotes.votes (headMachine s) batchId) :=
    (BatchVotes.Inv.reachable hi.head).once batchId
  rw [← List.count_pos_iff, honce, BatchVotes.appendsOf]
  split
  case isTrue h => exact iff_of_true Nat.one_pos h
  case isFalse h => exact iff_of_false (Nat.lt_irrefl 0) h

/-- The replicas that have voted for a batch. -/
theorem voters (hi : Inv cfg s) (batchId : Nat) :
    ∃ replicas : List Nat, replicas.Nodup ∧
      replicas.length = BatchVotes.votes (headMachine s) batchId ∧
      ∀ r ∈ replicas, r < cfg.replicasSize ∧ ⟨r, batchId⟩ ∈ s.handled := by
  have hnodup := (BatchVotes.Inv.reachable hi.head).nodup
  refine ⟨(s.handled.filter fun v => v.batchId = batchId).map Vote.replica, ?_, ?_, fun r hr => ?_⟩
  · refine List.Nodup.map_on (fun v hv w hw heq => ?_) (hnodup.filter _)
    have hv := of_decide_eq_true (List.mem_filter.mp hv).2
    have hw := of_decide_eq_true (List.mem_filter.mp hw).2
    exact (Vote.mk.injEq ..).mpr ⟨heq, hv.trans hw.symm⟩
  · rw [List.length_map, ← List.countP_eq_length_filter, BatchVotes.votes, List.count,
      List.countP_map]
    exact List.countP_congr fun v _ => by simp
  · obtain ⟨v, hv, rfl⟩ := List.mem_map.mp hr
    obtain ⟨hmem, heq⟩ := List.mem_filter.mp hv
    obtain rfl := of_decide_eq_true heq
    exact ⟨(hi.mem_places (List.mem_append_right _ hmem)).1, hmem⟩

/-- A replica that has voted holds the batch. -/
theorem holds_of_vote (hi : Inv cfg s) {r batchId : Nat} (hv : ⟨r, batchId⟩ ∈ s.handled) :
    Holds cfg s batchId r := by
  intro m hm
  have hrep : cfg.lookupMachineId m r / cfg.nodesPerReplica = r := by
    rw [ClusterConfig.lookupMachineId, Nat.mul_comm, Nat.mul_add_div (by omega),
      Nat.div_eq_of_lt hm, Nat.add_zero]
  obtain ⟨data, hdata, hsent⟩ := hi.subbatches ⟨r, batchId⟩ (List.mem_append_right _ hv)
    (cfg.lookupMachineId m r) hrep
  rw [hi.contentOf_eq hdata]
  exact hsent

/-! ## Everything arrives -/

/-- At rest all votes have been handled. -/
theorem all_voted (hi : Inv cfg s) (hrest : AtRest cfg s) {batchId r : Nat}
    (hb : batchId ∈ s.batches.map Prod.fst) (hr : r < cfg.replicasSize) :
    ⟨r, batchId⟩ ∈ s.handled := by
  have hvotes := hi.votes
  rw [places, hrest.txnBatches, hrest.voteMessages] at hvotes
  exact hvotes.symm.subset (List.mem_flatMap.mpr ⟨batchId, hb, mem_votesFor.mpr ⟨hr, rfl⟩⟩)

/-- At rest every batch has been appended. -/
theorem all_appended (hi : Inv cfg s) (hrest : AtRest cfg s) {batchId : Nat}
    (hb : batchId ∈ s.batches.map Prod.fst) (hpos : 0 < cfg.replicasSize) :
    batchId ∈ s.appended := by
  have hsub : (votesFor cfg batchId).Subperm s.handled := by
    refine List.subperm_of_subset (nodup_votesFor batchId) fun v hv => ?_
    obtain ⟨hr, rfl⟩ := mem_votesFor.mp hv
    exact hi.all_voted hrest hb hr
  have hcount : cfg.replicasSize ≤ BatchVotes.votes (headMachine s) batchId := by
    have hle := List.Subperm.countP_le (fun v => v.batchId == batchId) hsub
    have hall : (votesFor cfg batchId).countP (fun v => v.batchId == batchId) =
        cfg.replicasSize := by
      rw [List.countP_eq_length.mpr fun v hv => beq_iff_eq.mpr (mem_votesFor.mp hv).2, votesFor,
        List.length_map, List.length_range]
    rw [hall] at hle
    rw [BatchVotes.votes, List.count, List.countP_map]
    exact hle
  rw [hi.appended_iff]
  omega

/-- At rest every batch is in the log. -/
theorem all_logged (hi : Inv cfg s) (hrest : AtRest cfg s) {batchId : Nat}
    (hb : batchId ∈ s.batches.map Prod.fst) (hpos : 0 < cfg.replicasSize) :
    batchId ∈ (s.paxos.leader.log.sequences.take 1).flatten ∨ batchId ∈ s.order := by
  have hmem := hi.all_appended hrest hb hpos
  have hordered : BatchVotes.ordered s.paxos.leader = s.appended :=
    BatchVotes.ordered_once hi.head
  have hnone : s.paxos.leader.sequence = [] := by
    rw [← List.length_eq_zero_iff, ← (Paxos.Group.proposals_nonempty hi.paxos).1]
    exact hrest.count
  rw [← hordered, BatchVotes.ordered, hrest.idle, hnone, List.append_nil, List.append_nil,
    ← List.take_append_drop 1 s.paxos.leader.log.sequences, List.flatten_append] at hmem
  exact List.mem_append.mp hmem

/-- At rest all participants have the log of the leader. -/
theorem all_logs (hi : Inv cfg s) (hrest : AtRest cfg s) {r : Nat} (hr : r < cfg.replicasSize) :
    (s.paxos.logOf r).entries = s.paxos.leader.log.entries := by
  by_cases h0 : r = 0
  · rw [h0, Paxos.Group.logOf_leader]
  · rw [Paxos.Group.logOf_follower _ h0]
    have hpaxos := Paxos.Group.inv_of_reachable hi.paxos
    have hfollower : Paxos.Group.IsFollower cfg.replicasSize r := ⟨Nat.pos_of_ne_zero h0, hr⟩
    have hdelivered := hpaxos.delivered r hfollower
    have hcommits := hpaxos.commits r hfollower
    rw [hrest.followers r hr] at hdelivered hcommits
    have hlog : (s.paxos.followers r).log.entries <+: s.paxos.proposals := by
      rw [← hdelivered, Paxos.Group.received, List.append_assoc]
      exact List.prefix_append _ _
    refine (List.prefix_of_prefix_length_le hlog hi.log_proposals
      (Nat.le_of_eq hcommits)).eq_of_length
      hcommits

end Inv

/-- The transactions of a batch are those of the agreed order for a scheduler. -/
theorem txns_taken (s : Ordering) (n : Nat) :
    BatchStream.txns s.taken (subbatches cfg s.contentOf n) =
      Sequencer.subbatch cfg s.agreed (n % cfg.nodesPerReplica) := by
  rw [BatchStream.txns, BatchStream.batches, List.flatMap_map, agreed, order]
  generalize s.taken.flatten = ids
  induction ids with
  | nil => rfl
  | cons id rest ih =>
      rw [List.flatMap_cons, List.flatMap_cons, ih, Sequencer.subbatch, Sequencer.subbatch,
        List.filter_append, List.map_append]
      rfl

/-- A round does not touch the messages under way. -/
theorem round_inFlight {loop loop' : BatchStream.Loop} {room : Bool}
    (h : loop.round room = some loop') : loop'.stream.inFlight = loop.stream.inFlight := by
  have hget : ∀ {stream out}, loop.stream.getBatch = some (stream, out) →
      stream.inFlight = loop.stream.inFlight := by
    intro stream out h
    obtain ⟨x, -, heq⟩ := Option.map_eq_some_iff.mp h
    cases heq
    rfl
  unfold BatchStream.Loop.round at h
  split at h
  · obtain ⟨x, hx, rfl⟩ := Option.map_eq_some_iff.mp h
    exact hget hx
  · split at h
    · obtain ⟨x, hx, rfl⟩ := Option.map_eq_some_iff.mp h
      exact hget hx
    · split at h
      · cases h
        rfl
      · cases h
        rfl

/-- Rounds of one scheduler parse what its stream still has. -/
theorem run_rounds (n : Nat) (hne : ∀ d ∈ seqs, d ≠ []) (hlen : seqs.length + 1 < UInt32.size)
    (hids : seqs.flatten.Nodup) (rounds : Nat) {t : BatchStream.Loop}
    (hparsed : Parsed seqs (subbatches cfg content n)
      (BatchStream.Loop.whole seqs (subbatches cfg content n) (s.sent n) (s.loops n)))
    (hrun : (BatchStream.loopMachine seqs (subbatches cfg content n)).run
      (BatchStream.Loop.whole seqs (subbatches cfg content n) (s.sent n) (s.loops n))
      (List.replicate rounds (.round true)) = some t) :
    ∃ loop, (machine cfg maxBatchSize).run s (List.replicate rounds (.round n true)) =
      some (setLoop s n loop) ∧ loop.parsed = t.parsed ∧
        loop.stream.inFlight = (s.loops n).stream.inFlight := by
  induction rounds generalizing s with
  | zero =>
      cases hrun
      refine ⟨s.loops n, ?_, rfl, rfl⟩
      rw [setLoop, update_eq_self]
      rfl
  | succ rounds ih =>
      obtain ⟨loop', hloop', hparsed', -⟩ := hparsed.round (subbatches_number cfg content n) hne
        (Nat.lt_of_succ_lt hlen) hids true
      rw [List.replicate_succ, Machine.run_cons] at hrun ⊢
      have hstatic : (BatchStream.loopMachine seqs (subbatches cfg content n)).next
          (BatchStream.Loop.whole seqs (subbatches cfg content n) (s.sent n) (s.loops n))
          (.round true) = some loop' := hloop'
      rw [hstatic, Option.bind_some] at hrun
      rw [BatchStream.round_whole _ _ (hparsed.waits hlen)] at hloop'
      obtain ⟨loop, hloop, rfl⟩ := Option.map_eq_some_iff.mp hloop'
      have hnext : (machine cfg maxBatchSize).next s (.round n true) = some (setLoop s n loop) :=
        Option.map_eq_some_iff.mpr ⟨loop, hloop, rfl⟩
      have hself : (setLoop s n loop).loops n = loop := update_self ..
      obtain ⟨last, hs', heq, hflight⟩ := ih (s := setLoop s n loop)
        (by rw [hself]; exact hparsed') (by rw [hself]; exact hrun)
      refine ⟨last, ?_, heq, hflight.trans (by rw [hself, round_inFlight hloop])⟩
      rw [hnext, Option.bind_some, hs', setLoop, setLoop, setLoop, update_idem]

/-- Everything that is left for a scheduler has been sent to it. -/
theorem all_sent (hi : Inv cfg s) (hrest : AtRest cfg s) {n : Nat}
    (hrep : n / cfg.nodesPerReplica < cfg.replicasSize) :
    ∀ m ∈ messages s.taken (subbatches cfg s.contentOf n), m ∈ s.sent n := by
  intro m hm
  rcases List.mem_append.mp hm with hm | hm
  · obtain ⟨⟨data, version⟩, hmem, rfl⟩ := List.mem_map.mp hm
    obtain ⟨hle, hget⟩ := List.mk_mem_zipIdx_iff_le_and_getElem?_sub.mp hmem
    refine hi.orders n (version, data) ?_
    rw [hi.all_logs hrest hrep]
    rw [taken, LocalMemLog.sequences, List.getElem?_drop, List.getElem?_map,
      Nat.add_sub_of_le hle, Option.map_eq_some_iff] at hget
    obtain ⟨p, hp, rfl⟩ := hget
    obtain rfl := hi.log_version hp
    exact List.mem_of_getElem? hp
  · obtain ⟨batchId, hb, rfl⟩ := List.mem_map.mp hm
    have hmajority := (hi.appended_iff batchId).mp (hi.appended_of_order hb)
    obtain ⟨replicas, -, hvotes, hvoted⟩ := hi.voters batchId
    obtain ⟨r, hmem⟩ := List.exists_mem_of_length_pos (l := replicas) (by omega)
    have hbatch := (hi.mem_places (List.mem_append_right _ (hvoted r hmem).2)).2
    obtain ⟨data, hdata, hsent⟩ := hi.subbatches ⟨n / cfg.nodesPerReplica, batchId⟩
      (List.mem_append_right _ (hi.all_voted hrest hbatch hrep)) n rfl
    rw [subbatches, hi.contentOf_eq hdata]
    exact hsent

/-- At rest some number of rounds later a scheduler has parsed its part of the order. -/
theorem rounds_of_rest (hn : 0 < cfg.nodesPerReplica)
    (h : (machine cfg maxBatchSize).Reach (Fits cfg) s)
    (hlen : s.paxos.leader.log.entries.length < UInt32.size) (hrest : AtRest cfg s) {n : Nat}
    (hlt : n < cfg.allNodesSize) :
    ∃ k, ∀ rounds ≥ k, ∃ loop,
      (machine cfg maxBatchSize).run s (List.replicate rounds (.round n true)) =
        some (setLoop s n loop) ∧
      loop.parsed = Sequencer.subbatch cfg s.agreed (n % cfg.nodesPerReplica) ∧
      loop.stream.inFlight = (s.loops n).stream.inFlight := by
  have hi := Inv.reach hn h
  have hfits := Inv.taken_length hlen
  have hparsed := parsed_of_reach hn hi.taken_nonempty hfits hi.nodup_order h hi.future
  have hsent := all_sent hi hrest (Nat.div_lt_of_lt_mul hlt)
  have hnil : (BatchStream.Loop.whole s.taken (subbatches cfg s.contentOf n) (s.sent n)
      (s.loops n)).stream.inFlight = [] := by
    show (messages s.taken (subbatches cfg s.contentOf n)).filter (· ∉ s.sent n) ++
      later (s.loops n).stream.inFlight = []
    rw [hrest.schedulers n hlt, List.filter_eq_nil_iff.mpr fun m hm hd =>
      absurd (hsent m hm) (of_decide_eq_true hd)]
    rfl
  refine ⟨BatchStream.Loop.left s.taken (subbatches cfg s.contentOf n)
    (BatchStream.Loop.whole s.taken (subbatches cfg s.contentOf n) (s.sent n) (s.loops n)),
    fun rounds hrounds => ?_⟩
  obtain ⟨t, hrun, ht⟩ := Parsed.rounds (subbatches_number cfg s.contentOf n) hi.taken_nonempty
    (Nat.lt_of_succ_lt hfits) hi.nodup_order rounds (hparsed n) hnil (.inl hrounds)
  obtain ⟨loop, hloop, heq, hflight⟩ :=
    run_rounds n hi.taken_nonempty hfits hi.nodup_order rounds (hparsed n) hrun
  exact ⟨loop, hloop, by rw [heq, ht, txns_taken], hflight⟩

/-- In mode 0, in runs in which no batch number is cut and the versions fit the
`uint32` of the schedulers: no batch is twice in the agreed order, and one that is in
it is at all schedulers of a majority of the replicas; what any scheduler has parsed
is a prefix of its part of the agreed order. At rest every batch is in the order or in
the first sequence of the log, and some number of rounds later a scheduler has parsed
its part of the order. -/
theorem one_order (cfg : ClusterConfig) (maxBatchSize : Nat) (hn : 0 < cfg.nodesPerReplica)
    (hr : 0 < cfg.replicasSize) (s : Ordering)
    (h : (machine cfg maxBatchSize).Reach (Fits cfg) s)
    (hlen : s.paxos.leader.log.entries.length < UInt32.size) :
    s.order.Nodup ∧
      (∀ batchId ∈ s.order, ∃ replicas : List Nat, replicas.Nodup ∧
        cfg.replicasSize < 2 * replicas.length ∧
        ∀ r ∈ replicas, r < cfg.replicasSize ∧ Holds cfg s batchId r) ∧
      (∀ n, (s.loops n).parsed <+: Sequencer.subbatch cfg s.agreed (n % cfg.nodesPerReplica)) ∧
      (AtRest cfg s →
        (∀ b ∈ s.batches, b.1 ∈ (s.paxos.leader.log.sequences.take 1).flatten ∨ b.1 ∈ s.order) ∧
        ∀ n < cfg.allNodesSize, ∃ k, ∀ rounds ≥ k, ∃ t,
          (machine cfg maxBatchSize).run s (List.replicate rounds (.round n true)) = some t ∧
            (t.loops n).parsed = Sequencer.subbatch cfg s.agreed (n % cfg.nodesPerReplica)) := by
  have hi := Inv.reach hn h
  have hparsed := parsed_of_reach hn hi.taken_nonempty (Inv.taken_length hlen) hi.nodup_order h
    hi.future
  refine ⟨hi.nodup_order, fun batchId hb => ?_, fun n => ?_, fun hrest => ⟨fun b hb => ?_,
    fun n hlt => ?_⟩⟩
  · obtain ⟨replicas, hnodup, hvotes, hvoted⟩ := hi.voters batchId
    have hmajority := (hi.appended_iff batchId).mp (hi.appended_of_order hb)
    exact ⟨replicas, hnodup, by omega,
      fun r hr => ⟨(hvoted r hr).1, hi.holds_of_vote (hvoted r hr).2⟩⟩
  · rw [← txns_taken]
    exact (hparsed n).parsed_eq
  · exact hi.all_logged hrest (List.mem_map_of_mem hb) hr
  · obtain ⟨k, hk⟩ := rounds_of_rest hn h hlen hrest hlt
    refine ⟨k, fun rounds hrounds => ?_⟩
    obtain ⟨loop, hrun, heq, -⟩ := hk rounds hrounds
    refine ⟨setLoop s n loop, hrun, ?_⟩
    show (update s.loops n loop n).parsed = _
    rw [update_self, heq]

/-- Two replicas of one machine; the second batch is the agreed order. Its parts
arrive in the wrong order at the other replica. -/
theorem one_order_twoBatches :
    let cfg : ClusterConfig := { replicasSize := 2 }
    ∃ s, (machine cfg 10).Reach (Fits cfg) s ∧ s.order = [2002] ∧ (s.loops 1).parsed = [] ∧
      ∃ k, ∀ rounds ≥ k, ∃ t,
        (machine cfg 10).run s (List.replicate rounds (.round 1 true)) = some t ∧
          (t.loops 1).parsed = Sequencer.subbatch cfg s.agreed (1 % cfg.nodesPerReplica) := by
  intro cfg
  let txns : List ClientTxn := [{ txnId := 0, readWriteSet := [⟨[48], 0, 0⟩] }]
  obtain ⟨s, hs, ⟨horder, hparsed, hlen⟩, hrest⟩ := Machine.exists_of_runIf (m := machine cfg 10)
    (Fits cfg) (P := fun s => (s.order = [2002] ∧ (s.loops 1).parsed = [] ∧
        s.paxos.leader.log.entries.length < UInt32.size) ∧
      s.txnBatches = [] ∧ s.voteMessages = [] ∧ s.paxos.leader.pc = .idle ∧
      s.paxos.leader.count = 0 ∧ (∀ i < cfg.replicasSize, s.paxos.toFollower i = []) ∧
      ∀ n < cfg.allNodesSize, (s.loops n).stream.inFlight = [])
    [.epoch 0 txns, .epoch 1 txns, .gotBatch 1, .gotBatch 0, .gotVote 0, .gotVote 0, .propose,
      .receive 1, .gotAck 1, .commit, .receive 1, .gotBatch 1, .gotBatch 0, .gotVote 1, .gotVote 0,
      .propose, .receive 1, .gotAck 1, .commit, .receive 1, .deliver 0 0, .deliver 0 0,
      .deliver 0 0, .deliver 0 0, .deliver 1 3, .deliver 1 2, .deliver 1 1, .deliver 1 0]
    (by decide)
  obtain ⟨hbatches, hvotes, hidle, hcount, hfollowers, hschedulers⟩ := hrest
  have hone := (one_order cfg 10 (by decide) (by decide) s hs hlen).2.2.2
    ⟨hbatches, hvotes, hidle, hcount, hfollowers, hschedulers⟩
  exact ⟨s, hs, horder, hparsed, hone.2 1 (by decide)⟩

end Ordering

end Calvin
