import Calvin.Log.LocalPaxos

/-!
# What the steps of a local Paxos leader change

Spec lemmas for the functions of the leader: the messages of a step by kind
(`orders`, `proposals`, `sentTo`), and for each function the fields it leaves
alone. The theorems about runs use these instead of the definitions.
-/

namespace Calvin.LocalPaxos

open Function

/-! ## The messages of a step, by kind -/

/-- The `PAXOS_BATCH_ORDER`s: version, sequence, origin. -/
def orders (outs : List Output) : List (Nat × Sequence × Nat) :=
  outs.filterMap fun
    | .order version encoded origin => some (version, encoded, origin)
    | _ => none

/-- The `PAXOS_DATA`s: global version, local version, sequence. -/
def proposals (outs : List Output) : List (Nat × Option Nat × Sequence) :=
  outs.filterMap fun
    | .data version localVersion encoded => some (version, localVersion, encoded)
    | _ => none

/-- The messages to the leader of a replica. -/
def sentTo (replica : Nat) (outs : List Output) : List LogMessage :=
  outs.filterMap fun
    | .peer r message => if r = replica then some message else none
    | _ => none

@[simp] theorem orders_nil : orders [] = [] := rfl
@[simp] theorem proposals_nil : proposals [] = [] := rfl
@[simp] theorem sentTo_nil (r : Nat) : sentTo r [] = [] := rfl

@[simp] theorem orders_append (a b : List Output) : orders (a ++ b) = orders a ++ orders b :=
  List.filterMap_append

@[simp] theorem proposals_append (a b : List Output) :
    proposals (a ++ b) = proposals a ++ proposals b :=
  List.filterMap_append

@[simp] theorem sentTo_append (r : Nat) (a b : List Output) :
    sentTo r (a ++ b) = sentTo r a ++ sentTo r b :=
  List.filterMap_append

@[simp] theorem orders_peer (r : Nat) (m : LogMessage) (outs : List Output) :
    orders (.peer r m :: outs) = orders outs := rfl
@[simp] theorem orders_data (g : Nat) (v : Option Nat) (e : Sequence) (outs : List Output) :
    orders (.data g v e :: outs) = orders outs := rfl
@[simp] theorem orders_order (g : Nat) (e : Sequence) (o : Nat) (outs : List Output) :
    orders (.order g e o :: outs) = (g, e, o) :: orders outs := rfl
@[simp] theorem orders_commit (g : Nat) (outs : List Output) :
    orders (.commit g :: outs) = orders outs := rfl
@[simp] theorem orders_batch (b : Nat) (d : List TxnProto) (outs : List Output) :
    orders (.batch b d :: outs) = orders outs := rfl

@[simp] theorem proposals_peer (r : Nat) (m : LogMessage) (outs : List Output) :
    proposals (.peer r m :: outs) = proposals outs := rfl
@[simp] theorem proposals_data (g : Nat) (v : Option Nat) (e : Sequence) (outs : List Output) :
    proposals (.data g v e :: outs) = (g, v, e) :: proposals outs := rfl
@[simp] theorem proposals_order (g : Nat) (e : Sequence) (o : Nat) (outs : List Output) :
    proposals (.order g e o :: outs) = proposals outs := rfl
@[simp] theorem proposals_commit (g : Nat) (outs : List Output) :
    proposals (.commit g :: outs) = proposals outs := rfl
@[simp] theorem proposals_batch (b : Nat) (d : List TxnProto) (outs : List Output) :
    proposals (.batch b d :: outs) = proposals outs := rfl

@[simp] theorem sentTo_peer (r r' : Nat) (m : LogMessage) (outs : List Output) :
    sentTo r (.peer r' m :: outs) = (if r' = r then [m] else []) ++ sentTo r outs := by
  by_cases h : r' = r <;> simp [sentTo, h]
@[simp] theorem sentTo_data (r g : Nat) (v : Option Nat) (e : Sequence) (outs : List Output) :
    sentTo r (.data g v e :: outs) = sentTo r outs := rfl
@[simp] theorem sentTo_order (r g : Nat) (e : Sequence) (o : Nat) (outs : List Output) :
    sentTo r (.order g e o :: outs) = sentTo r outs := rfl
@[simp] theorem sentTo_commit (r g : Nat) (outs : List Output) :
    sentTo r (.commit g :: outs) = sentTo r outs := rfl
@[simp] theorem sentTo_batch (r b : Nat) (d : List TxnProto) (outs : List Output) :
    sentTo r (.batch b d :: outs) = sentTo r outs := rfl

namespace Leader

variable {cfg : Config} {l l' : Leader} {outs : List Output}

/-! ## Receiving -/

/-- An ack when nothing new was logged: the replica waits in the todo set. -/
theorem receiveMessage_ack_eq {r v : Nat} (h : (l.readNew r v).2.1 = v) :
    l.receiveMessage cfg (.newSequenceAck r v) =
      ({ (l.readNew r v).1 with
          newSequenceTodo := insertTodo (l.readNew r v).1.newSequenceTodo r }, []) := by
  simp only [receiveMessage]
  exact if_pos h

/-- An ack when something new was logged: it is sent at once. -/
theorem receiveMessage_ack_ne {r v : Nat} (h : (l.readNew r v).2.1 ≠ v) :
    l.receiveMessage cfg (.newSequenceAck r v) =
      ((l.readNew r v).1,
        [.peer r (.newSequence cfg.localReplica (l.readNew r v).2.1 (l.readNew r v).2.2)]) := by
  simp only [receiveMessage]
  exact if_neg h

/-- Receiving a message proposes and orders nothing, and leaves the logs, the
version counters and the thread where they are. -/
theorem receiveMessage_frame (cfg : Config) (l : Leader) (message : LogMessage) :
    (∃ mr q rd todo ack, (l.receiveMessage cfg message).1 =
      { l with
        mrTxnBatches := mr
        sequencesOtherReplicas := q
        readersForLocalLog := rd
        newSequenceTodo := todo
        receivedSynchronizeAck := ack }) ∧
      orders (l.receiveMessage cfg message).2 = [] ∧
      proposals (l.receiveMessage cfg message).2 = [] := by
  cases message with
  | mrTxnsBatch b d => exact ⟨⟨_, _, _, _, _, rfl⟩, rfl, rfl⟩
  | newSequence r v d => exact ⟨⟨_, _, _, _, _, rfl⟩, rfl, rfl⟩
  | synchronize r d => exact ⟨⟨_, _, _, _, _, rfl⟩, rfl, rfl⟩
  | synchronizeAck => exact ⟨⟨_, _, _, _, _, rfl⟩, rfl, rfl⟩
  | paxosCommit v => exact ⟨⟨_, _, _, _, _, rfl⟩, rfl, rfl⟩
  | newSequenceAck r v =>
      by_cases hv : (l.readNew r v).2.1 = v
      · rw [receiveMessage_ack_eq hv]
        exact ⟨⟨_, _, _, _, _, rfl⟩, rfl, rfl⟩
      · rw [receiveMessage_ack_ne hv]
        exact ⟨⟨_, _, _, _, _, rfl⟩, rfl, rfl⟩

/-! ## Handing the local log over -/

/-- Sending the local log moves only the readers. -/
theorem sendSequences_frame {check : Bool} {targets : List Nat}
    (h : sendSequences cfg check l targets = some (l', outs)) :
    (∃ rd, l' = { l with readersForLocalLog := rd }) ∧
      orders outs = [] ∧ proposals outs = [] := by
  induction targets generalizing l outs with
  | nil =>
      cases h
      exact ⟨⟨_, rfl⟩, rfl, rfl⟩
  | cons replica rest ih =>
      simp only [sendSequences] at h
      by_cases hc : check = true ∧ (l.readNew replica 0).2.1 = 0
      · rw [if_pos hc] at h
        cases h
      · rw [if_neg hc] at h
        simp only [Option.map_eq_some_iff, Prod.mk.injEq] at h
        obtain ⟨⟨l₁, outs₁⟩, hrest, rfl, rfl⟩ := h
        obtain ⟨⟨rd, rfl⟩, ho, hp⟩ := ih hrest
        exact ⟨⟨rd, rfl⟩, ho, hp⟩

/-- The leader once a local sequence is in both logs, under the counters as
they are now. -/
def logged (l : Leader) (encoded : Sequence) (todo : List Nat) : Leader :=
  { l with
    localLog := ⟨l.localNextVersion, l.localLog.entries ++ [(l.localNextVersion, encoded)]⟩
    globalLog := ⟨l.globalNextVersion, l.globalLog.entries ++ [(l.globalNextVersion, encoded)]⟩
    newSequenceTodo := todo
    isFirst := false
    pc := .idle }

/-- The end of a local iteration logs the sequence and hands the local log to
every replica, the first time, or to those that wait for it. -/
theorem finishLocal_cases {encoded : Sequence}
    (h : l.finishLocal cfg encoded = some (l', outs)) :
    sendSequences cfg false (l.logged encoded l.newSequenceTodo) (firstTargets cfg) =
        some (l', outs) ∨
      sendSequences cfg true (l.logged encoded []) l.newSequenceTodo = some (l', outs) := by
  simp only [finishLocal, Option.bind_eq_some_iff, LocalMemLog.append_eq_some] at h
  obtain ⟨_, ⟨-, rfl⟩, _, ⟨-, rfl⟩, h⟩ := h
  split at h
  · exact .inl h
  · rename_i hf
    simp only [Bool.not_eq_true] at hf
    have hl : l.logged encoded [] =
        { l with
          localLog := ⟨l.localNextVersion, l.localLog.entries ++ [(l.localNextVersion, encoded)]⟩
          globalLog :=
            ⟨l.globalNextVersion, l.globalLog.entries ++ [(l.globalNextVersion, encoded)]⟩
          newSequenceTodo := []
          pc := .idle } := by
      simp [logged, hf]
    exact .inr (by rw [hl]; exact h)

/-- The end of a local iteration appends to both logs and returns to the top of
the loop. -/
theorem finishLocal_frame {encoded : Sequence}
    (h : l.finishLocal cfg encoded = some (l', outs)) :
    (∃ rd todo, l' = { l.logged encoded todo with readersForLocalLog := rd }) ∧
      orders outs = [] ∧ proposals outs = [] := by
  rcases finishLocal_cases h with h | h
  · obtain ⟨⟨rd, rfl⟩, ho, hp⟩ := sendSequences_frame h
    exact ⟨⟨rd, _, rfl⟩, ho, hp⟩
  · obtain ⟨⟨rd, rfl⟩, ho, hp⟩ := sendSequences_frame h
    exact ⟨⟨rd, _, rfl⟩, ho, hp⟩

/-! ## Taking a sequence up -/

/-- Taking a remote sequence up removes it from the queue and holds it in the
thread, under the next global version. -/
theorem handleRemoteBatch_eq {ret : Ret}
    (h : l.handleRemoteBatch cfg ret = some (l', outs)) :
    ∃ sequence replica rest,
      l.sequencesOtherReplicas = (sequence, replica) :: rest ∧
      orders outs = [] ∧ (∀ r, sentTo r outs = []) ∧
      ((l' =
          { l with
            globalNextVersion := l.globalNextVersion + 1
            sequencesOtherReplicas := rest
            pc := .generate sequence sequence replica ret } ∧ proposals outs = []) ∨
        (l' =
          { l with
            globalNextVersion := l.globalNextVersion + 1
            sequencesOtherReplicas := rest
            pc := .collect sequence 1 (.remote replica ret) } ∧
          proposals outs = [(l.globalNextVersion + 1, none, sequence)])) := by
  unfold handleRemoteBatch at h
  split at h
  · cases h
  · rename_i sequence replica rest heq
    split at h
    · cases h
      exact ⟨sequence, replica, rest, heq, rfl, fun _ => rfl, .inl ⟨rfl, rfl⟩⟩
    · cases h
      exact ⟨sequence, replica, rest, heq, rfl, fun _ => rfl, .inr ⟨rfl, rfl⟩⟩

/-- The top of the loop takes the local sequence or the next remote one. -/
theorem pick_cases (h : l.pick cfg = some (l', outs)) :
    l.pc = .idle ∧ ∃ alternate,
      ({ l with alternate }.proposeLocal = (l', outs) ∧
          (l.sequencesOtherReplicas = [] ∨ 0 < l.localCount)) ∨
        { l with alternate }.handleRemoteBatch cfg .top = some (l', outs) := by
  unfold pick at h
  split at h
  · rename_i hpc
    refine ⟨hpc, ?_⟩
    split at h
    · cases h
    · split at h
      · split at h
        · exact ⟨l.alternate, .inr h⟩
        · rename_i hq
          simp only [ne_eq, Decidable.not_not] at hq
          exact ⟨l.alternate, .inl ⟨Option.some.inj h, .inl hq⟩⟩
      · dsimp only at h
        split at h
        · rename_i hc
          refine ⟨(l.alternate + 1) % 10, .inl ⟨Option.some.inj h, ?_⟩⟩
          rcases hc with ⟨-, hc⟩ | hc
          · exact .inr hc
          · exact .inl hc
        · exact ⟨(l.alternate + 1) % 10, .inr h⟩
  · cases h

/-- A round of the loop over remote batches stays in the loop, or starts the
ack loop for the same sequence. -/
theorem generate_cases (h : l.generate cfg = some (l', outs)) :
    ∃ remaining encoded replica ret, l.pc = .generate remaining encoded replica ret ∧
      orders outs = [] ∧ (∀ r, sentTo r outs = []) ∧
      ((∃ rest sequence count guid,
          l' =
            { l with
              sequence := sequence
              localCount := count
              nextGuid := guid
              pc := .generate rest encoded replica ret } ∧ proposals outs = []) ∨
        (l' = { l with pc := .collect encoded 1 (.remote replica ret) } ∧
          proposals outs = [(l.globalNextVersion, none, encoded)])) := by
  unfold generate at h
  split at h
  · rename_i encoded replica ret hpc
    cases h
    exact ⟨[], encoded, replica, ret, hpc, rfl, fun _ => rfl, .inr ⟨rfl, rfl⟩⟩
  · rename_i batchId rest encoded replica ret hpc
    simp only [Option.map_eq_some_iff] at h
    obtain ⟨data, -, h⟩ := h
    split at h
    · cases h
      exact ⟨_, encoded, replica, ret, hpc, rfl, fun _ => rfl, .inl ⟨rest, _, _, _, rfl, rfl⟩⟩
    · cases h
      exact ⟨_, encoded, replica, ret, hpc, rfl, fun _ => rfl, .inl ⟨rest, _, _, _, rfl, rfl⟩⟩
  · cases h

/-- An ack only counts acks. -/
theorem gotAck_cases {version : Nat} (h : l.gotAck cfg version = some l') :
    ∃ encoded acks acks' source, l.pc = .collect encoded acks source ∧
      l' = { l with pc := .collect encoded acks' source } := by
  unfold gotAck at h
  split at h
  · rename_i encoded acks source hpc
    split at h
    · cases h
      exact ⟨encoded, acks, _, source, hpc, rfl⟩
    · cases h
  · cases h

/-- With a quorum the order and the commit go out: a remote sequence is logged
and returns, a local one is logged or, if strong, first synchronized. -/
theorem finish_cases (h : l.finish cfg = some (l', outs)) :
    ∃ encoded acks source, l.pc = .collect encoded acks source ∧
      ((∃ replica ret, source = .remote replica ret ∧
          l' =
            { l with
              globalLog :=
                ⟨l.globalNextVersion, l.globalLog.entries ++ [(l.globalNextVersion, encoded)]⟩
              pc := ret.pc } ∧
          outs = [.order l.globalNextVersion encoded replica, .commit l.globalNextVersion]) ∨
        (source = .own ∧ cfg.strong = true ∧ l' = { l with pc := .syncTest encoded } ∧
          outs =
            [.order l.globalNextVersion encoded cfg.localReplica, .commit l.globalNextVersion,
              .peer (closedReplica cfg.localReplica) (.synchronize cfg.localReplica encoded)]) ∨
        (source = .own ∧ cfg.strong = false ∧ ∃ sent,
          l.finishLocal cfg encoded = some (l', sent) ∧
          outs =
            [.order l.globalNextVersion encoded cfg.localReplica, .commit l.globalNextVersion] ++
              sent)) := by
  unfold finish at h
  split at h
  · rename_i encoded acks source hpc
    refine ⟨encoded, acks, source, hpc, ?_⟩
    split at h
    · cases h
    · split at h
      · rename_i replica ret
        simp only [Option.map_eq_some_iff, LocalMemLog.append_eq_some, Prod.mk.injEq] at h
        obtain ⟨_, ⟨-, rfl⟩, rfl, rfl⟩ := h
        exact .inl ⟨replica, ret, rfl, rfl, rfl⟩
      · dsimp only at h
        split at h
        · rename_i hs
          cases h
          exact .inr (.inl ⟨rfl, hs, rfl, rfl⟩)
        · rename_i hs
          simp only [Option.map_eq_some_iff, Prod.mk.injEq] at h
          obtain ⟨⟨_, sent⟩, hf, rfl, rfl⟩ := h
          exact .inr (.inr ⟨rfl, by simpa using hs, sent, hf, rfl⟩)
  · cases h

/-- The wait for `SYNCHRONIZE_ACK` ends the local iteration or goes on. -/
theorem syncTest_cases (h : l.syncTest cfg = some (l', outs)) :
    ∃ encoded, l.pc = .syncTest encoded ∧
      ((l.receivedSynchronizeAck = true ∧
          { l with receivedSynchronizeAck := false }.finishLocal cfg encoded = some (l', outs)) ∨
        (l' = { l with pc := .syncReceive encoded } ∧ outs = [])) := by
  unfold syncTest at h
  split at h
  · rename_i encoded hpc
    refine ⟨encoded, hpc, ?_⟩
    split at h
    · rename_i hack
      exact .inl ⟨hack, h⟩
    · cases h
      exact .inr ⟨rfl, rfl⟩
  · cases h

/-- Having received in that wait, the leader takes a remote sequence up if
there is one. -/
theorem syncReceived_cases (h : l.syncReceived cfg = some (l', outs)) :
    ∃ encoded, l.pc = .syncReceive encoded ∧
      ((l.sequencesOtherReplicas ≠ [] ∧
          l.handleRemoteBatch cfg (.sync encoded) = some (l', outs)) ∨
        (l.sequencesOtherReplicas = [] ∧ l' = { l with pc := .syncTest encoded } ∧
          outs = [])) := by
  unfold syncReceived at h
  split at h
  · rename_i encoded hpc
    refine ⟨encoded, hpc, ?_⟩
    split at h
    · rename_i hq
      exact .inl ⟨hq, h⟩
    · rename_i hq
      cases h
      exact .inr ⟨by simpa using hq, rfl, rfl⟩
  · cases h

end Leader

/-! ## The numbering of the orders -/

/-- The local sequence that is ordered but not yet appended to the logs. -/
def Ret.waiting : Ret → Option Sequence
  | .top => none
  | .sync encoded => some encoded

namespace Pc

/-- A sequence has a global version and is not ordered yet. -/
def busy : Pc → Nat
  | .generate .. | .collect .. => 1
  | .idle | .syncTest _ | .syncReceive _ => 0

/-- The local sequence that waits for its `SYNCHRONIZE_ACK`. -/
def waiting : Pc → Option Sequence
  | .idle | .collect _ _ .own => none
  | .generate _ _ _ ret | .collect _ _ (.remote _ ret) => ret.waiting
  | .syncTest encoded | .syncReceive encoded => some encoded

end Pc

@[simp] theorem Ret.busy_pc (ret : Ret) : ret.pc.busy = 0 := by cases ret <;> rfl
@[simp] theorem Ret.waiting_pc (ret : Ret) : ret.pc.waiting = ret.waiting := by cases ret <;> rfl

/-- A step orders nothing and takes up a version at most once, or it orders the
sequence in hand under the version taken up for it. -/
theorem Leader.step_numbering {cfg : Config} {l l' : Leader} {e : Event} {outs : List Output}
    (h : l.step cfg e = some (l', outs)) :
    (orders outs = [] ∧ l'.globalNextVersion + l.pc.busy = l.globalNextVersion + l'.pc.busy) ∨
      (∃ encoded origin, orders outs = [(l.globalNextVersion, encoded, origin)] ∧
        l.pc.busy = 1 ∧ l'.pc.busy = 0 ∧ l'.globalNextVersion = l.globalNextVersion) := by
  cases e with
  | append blockid => cases h; exact .inl ⟨rfl, rfl⟩
  | drawGuid => cases h; exact .inl ⟨rfl, rfl⟩
  | receive message =>
      simp only [step, Option.ite_none_right_eq_some, Option.some.injEq] at h
      obtain ⟨-, h⟩ := h
      obtain ⟨⟨_, _, _, _, _, hl⟩, ho, -⟩ := receiveMessage_frame cfg l message
      rw [h] at hl ho
      dsimp only at hl
      exact .inl ⟨ho, by rw [hl]⟩
  | gotAck version =>
      simp only [step, Option.map_eq_some_iff, Prod.mk.injEq] at h
      obtain ⟨_, hg, rfl, rfl⟩ := h
      obtain ⟨_, _, _, _, hpc, rfl⟩ := gotAck_cases hg
      exact .inl ⟨rfl, by simp [hpc, Pc.busy]⟩
  | pick =>
      obtain ⟨hpc, _, ⟨hp, -⟩ | hr⟩ := pick_cases h
      · cases hp
        exact .inl ⟨rfl, by simp [hpc, Pc.busy]⟩
      · obtain ⟨_, _, _, -, ho, -, ⟨rfl, -⟩ | ⟨rfl, -⟩⟩ := handleRemoteBatch_eq hr <;>
          exact .inl ⟨ho, by simp [hpc, Pc.busy]⟩
  | generate =>
      obtain ⟨_, _, _, _, hpc, ho, -, ⟨_, _, _, _, rfl, -⟩ | ⟨rfl, -⟩⟩ := generate_cases h <;>
        exact .inl ⟨ho, by simp [hpc, Pc.busy]⟩
  | finish =>
      obtain ⟨encoded, _, _, hpc, hc⟩ := finish_cases h
      rcases hc with ⟨replica, ret, -, rfl, rfl⟩ | ⟨-, -, rfl, rfl⟩ | ⟨-, -, sent, hf, rfl⟩
      · exact .inr ⟨encoded, replica, rfl, by simp [hpc, Pc.busy], by simp, rfl⟩
      · exact .inr ⟨encoded, cfg.localReplica, rfl, by simp [hpc, Pc.busy], rfl, rfl⟩
      · obtain ⟨⟨_, _, rfl⟩, ho, -⟩ := finishLocal_frame hf
        exact .inr ⟨encoded, cfg.localReplica, by simp [ho], by simp [hpc, Pc.busy], rfl, rfl⟩
  | syncTest =>
      obtain ⟨_, hpc, ⟨-, hf⟩ | ⟨rfl, rfl⟩⟩ := syncTest_cases h
      · obtain ⟨⟨_, _, rfl⟩, ho, -⟩ := finishLocal_frame hf
        exact .inl ⟨ho, by simp [hpc, logged, Pc.busy]⟩
      · exact .inl ⟨rfl, by simp [hpc, Pc.busy]⟩
  | syncReceived =>
      obtain ⟨_, hpc, ⟨-, hr⟩ | ⟨-, rfl, rfl⟩⟩ := syncReceived_cases h
      · obtain ⟨_, _, _, -, ho, -, ⟨rfl, -⟩ | ⟨rfl, -⟩⟩ := handleRemoteBatch_eq hr <;>
          exact .inl ⟨ho, by simp [hpc, Pc.busy]⟩
      · exact .inl ⟨rfl, by simp [hpc, Pc.busy]⟩

/-- The versions ordered so far are 1, 2, 3, ...; the counter is ahead by the
sequence in hand. -/
structure Numbered (l : Leader) (versions : List Nat) : Prop where
  consecutive : versions = List.range' 1 versions.length
  next : l.globalNextVersion = versions.length + l.pc.busy

theorem Numbered.init : Numbered {} [] := ⟨rfl, rfl⟩

/-- Every step of a leader keeps the numbering of what it has ordered. -/
theorem Numbered.step {cfg : Config} {l l' : Leader} {e : Event} {outs : List Output}
    {versions : List Nat} (hn : Numbered l versions) (h : l.step cfg e = some (l', outs)) :
    Numbered l' (versions ++ (orders outs).map Prod.fst) := by
  rcases Leader.step_numbering h with ⟨ho, hv⟩ | ⟨encoded, origin, ho, hb, hb', hv⟩
  · rw [ho, List.map_nil, List.append_nil]
    exact ⟨hn.consecutive, by have := hn.next; omega⟩
  · have hnext := hn.next
    rw [ho]
    refine ⟨?_, ?_⟩
    · simp only [List.map_cons, List.map_nil, List.length_append, List.length_singleton]
      rw [List.range'_concat, ← hn.consecutive]
      simp only [Nat.one_mul]
      rw [hnext, hb, Nat.add_comm 1]
    · simp only [List.map_cons, List.map_nil, List.length_append, List.length_singleton]
      omega

end Calvin.LocalPaxos
