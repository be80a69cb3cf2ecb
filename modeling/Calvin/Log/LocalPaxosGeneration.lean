import Calvin.Log.LocalPaxosEffects
import Calvin.Machine.LowlatencySequencer

/-!
# The transactions a local Paxos leader generates

A leader of a replica other than 0 copies the multi-replica transactions of the
sequences of replica 0 into batches of its own. `Generation` relates the batches
it has generated to the sequences it has gone through and to its own sequences;
`Generation.step` is the step lemma.
-/

namespace Calvin.LocalPaxos

open Function LowlatencySequencer

/-- The `TXN_BATCH`es of a step, with their numbers. -/
def batches (outs : List Output) : List (Nat × List TxnProto) :=
  outs.filterMap fun
    | .batch batchNumber data => some (batchNumber, data)
    | _ => none

@[simp] theorem batches_nil : batches [] = [] := rfl

@[simp] theorem batches_append (a b : List Output) : batches (a ++ b) = batches a ++ batches b :=
  List.filterMap_append

@[simp] theorem batches_peer (r : Nat) (m : LogMessage) (outs : List Output) :
    batches (.peer r m :: outs) = batches outs := rfl
@[simp] theorem batches_data (g : Nat) (v : Option Nat) (e : Sequence) (outs : List Output) :
    batches (.data g v e :: outs) = batches outs := rfl
@[simp] theorem batches_order (g : Nat) (e : Sequence) (o : Nat) (outs : List Output) :
    batches (.order g e o :: outs) = batches outs := rfl
@[simp] theorem batches_commit (g : Nat) (outs : List Output) :
    batches (.commit g :: outs) = batches outs := rfl
@[simp] theorem batches_batch (b : Nat) (d : List TxnProto) (outs : List Output) :
    batches (.batch b d :: outs) = (b, d) :: batches outs := rfl

/-- A batch that a sequencer thread of the replica submits. -/
def Event.submitted : Event → List Nat
  | .append blockid => [blockid]
  | _ => []

/-- The answer of `GetGUID` at the node of a leader. -/
def Config.guid (cfg : Config) (n : Nat) : Nat := 1 + cfg.localNodeId + cfg.allNodes * n

/-- The GUIDs that other threads of the node draw in a step. -/
def drawnGuids (cfg : Config) (l : Leader) : Event → List Nat
  | .drawGuid => [cfg.guid l.nextGuid]
  | _ => []

namespace Leader

variable {cfg : Config} {l l' : Leader} {outs : List Output}

/-- A round of the loop over the batches of a remote sequence. -/
theorem generate_eq (h : l.generate cfg = some (l', outs)) :
    ∃ remaining encoded replica ret, l.pc = .generate remaining encoded replica ret ∧
      ((remaining = [] ∧
          l' = { l with pc := .collect encoded 1 (.remote replica ret) } ∧ batches outs = []) ∨
        ∃ batchId rest data, remaining = batchId :: rest ∧ l.mrTxnBatches batchId = some data ∧
          ((data = [] ∧ l' = { l with pc := .generate rest encoded replica ret } ∧ outs = []) ∨
            (data ≠ [] ∧
              l' =
                { l with
                  sequence := l.sequence ++ [cfg.guid l.nextGuid]
                  localCount := l.localCount + 1
                  nextGuid := l.nextGuid + 1
                  pc := .generate rest encoded replica ret } ∧
              outs = [.batch (cfg.guid l.nextGuid) (data.map (generatedTxn cfg))]))) := by
  unfold generate at h
  split at h
  · rename_i encoded replica ret hpc
    cases h
    exact ⟨[], encoded, replica, ret, hpc, .inl ⟨rfl, rfl, rfl⟩⟩
  · rename_i batchId rest encoded replica ret hpc
    simp only [Option.map_eq_some_iff] at h
    obtain ⟨data, hdata, h⟩ := h
    refine ⟨_, encoded, replica, ret, hpc, .inr ⟨batchId, rest, data, rfl, hdata, ?_⟩⟩
    split at h
    · rename_i hnil
      cases h
      exact .inl ⟨hnil, rfl, rfl⟩
    · rename_i hne
      cases h
      exact .inr ⟨hne, rfl, rfl⟩
  · cases h

/-- Taking a remote sequence up enters the loop over its batches, or proposes it
at once if there is nothing to generate from it. -/
theorem handleRemoteBatch_placed {ret : Ret} (h : l.handleRemoteBatch cfg ret = some (l', outs)) :
    ∃ sequence replica rest pc,
      l' =
        { l with
          globalNextVersion := l.globalNextVersion + 1
          sequencesOtherReplicas := rest
          pc := pc } ∧
      ordered outs = [] ∧ ownProposals outs = [] ∧ batches outs = [] ∧
      ((cfg.localReplica ≠ 0 ∧ replica = 0 ∧ pc = .generate sequence sequence replica ret) ∨
        (¬ (cfg.localReplica ≠ 0 ∧ replica = 0) ∧
          pc = .collect sequence 1 (.remote replica ret))) := by
  unfold handleRemoteBatch at h
  split at h
  · cases h
  · rename_i sequence replica rest heq
    split at h
    · rename_i hc
      cases h
      exact ⟨sequence, replica, rest, _, rfl, rfl, rfl, rfl, .inl ⟨hc.1, hc.2, rfl⟩⟩
    · rename_i hc
      cases h
      exact ⟨sequence, replica, rest, _, rfl, rfl, rfl, rfl, .inr ⟨hc, rfl⟩⟩

theorem receiveMessage_batches (message : LogMessage) :
    batches (l.receiveMessage cfg message).2 = [] := by
  cases message with
  | newSequenceAck r v =>
      by_cases hv : (l.readNew r v).2.1 = v
      · rw [receiveMessage_ack_eq hv]
        rfl
      · rw [receiveMessage_ack_ne hv]
        rfl
  | mrTxnsBatch | newSequence | synchronize | synchronizeAck | paxosCommit => rfl

theorem sendSequences_batches {check : Bool} {targets : List Nat}
    (h : sendSequences cfg check l targets = some (l', outs)) : batches outs = [] := by
  induction targets generalizing l outs with
  | nil =>
      cases h
      rfl
  | cons replica rest ih =>
      simp only [sendSequences] at h
      split at h
      · cases h
      · simp only [Option.map_eq_some_iff, Prod.mk.injEq] at h
        obtain ⟨⟨l₁, sent⟩, hrest, rfl, rfl⟩ := h
        rw [batches_peer]
        exact ih hrest

theorem finishLocal_batches {encoded : Sequence}
    (h : l.finishLocal cfg encoded = some (l', outs)) : batches outs = [] := by
  rcases finishLocal_cases h with h | h <;> exact sendSequences_batches h

end Leader

/-! ## The invariant -/

/-- The batches of the remote sequence in hand that the leader is through
with. -/
def Pc.handled : Pc → Sequence
  | .generate rest encoded replica _ =>
      if replica = 0 then encoded.take (encoded.length - rest.length) else []
  | .collect encoded _ (.remote replica _) => if replica = 0 then encoded else []
  | .idle | .collect _ _ .own | .syncTest _ | .syncReceive _ => []

/-- The loop runs over the rest of a sequence of replica 0, away from it. -/
def Pc.Placed (cfg : Config) : Pc → Prop
  | .generate rest encoded replica _ => cfg.localReplica ≠ 0 ∧ replica = 0 ∧ rest <:+ encoded
  | _ => True

/-- The copies of the transactions of a batch. -/
def copies (cfg : Config) (content : Nat → List TxnProto) (batchId : Nat) : List TxnProto :=
  (mrTxns cfg.localReplica (content batchId)).map (Leader.generatedTxn cfg)

/-- What a leader has generated, between the sequences of replica 0 it has
ordered, the sequences it has proposed, and the GUIDs in use. -/
structure Generation (cfg : Config) (content : Nat → List TxnProto) (l : Leader)
    (remote proposed : List Sequence) (generated : List (Nat × List TxnProto))
    (drawn submitted : List Nat) : Prop where
  placed : l.pc.Placed cfg
  delivered : ∀ b data, l.mrTxnBatches b = some data → data = mrTxns cfg.localReplica (content b)
  contents : cfg.localReplica ≠ 0 →
    generated.map Prod.snd =
      ((remote.flatten ++ l.pc.handled).map (copies cfg content)).filter (· ≠ [])
  guids : ∀ n ∈ drawn ++ generated.map Prod.fst, ∃ k < l.nextGuid, n = cfg.guid k
  fresh : (drawn ++ generated.map Prod.fst).Nodup
  /-- A submitted batch has the GUID of another node or another thread. -/
  clients : ∀ n ∈ submitted, n ∈ drawn ∨ ∀ k, n ≠ cfg.guid k
  order : (proposed.flatten ++ l.sequence).filter (· ∈ generated.map Prod.fst) =
    generated.map Prod.fst
  origin : ∀ n ∈ proposed.flatten ++ l.sequence, n ∈ submitted ∨ n ∈ generated.map Prod.fst
  nodup : (proposed.flatten ++ l.sequence).Nodup

section

variable {cfg : Config} {content : Nat → List TxnProto} {l l' : Leader} {e : Event}
  {outs : List Output} {remote remote' proposed proposed' : List Sequence}
  {generated : List (Nat × List TxnProto)} {drawn submitted : List Nat}

theorem Generation.init : Generation cfg content {} [] [] [] [] [] where
  placed := trivial
  delivered _ _ h := by cases h
  contents _ := rfl
  guids _ h := (List.not_mem_nil h).elim
  fresh := List.nodup_nil
  clients _ h := (List.not_mem_nil h).elim
  order := rfl
  origin _ h := (List.not_mem_nil h).elim
  nodup := List.nodup_nil

/-- A step that generates nothing and draws no GUID. -/
theorem Generation.quiet (hg : Generation cfg content l remote proposed generated drawn submitted)
    (hmr : l'.mrTxnBatches = l.mrTxnBatches) (hguid : l'.nextGuid = l.nextGuid)
    (hsequence : proposed'.flatten ++ l'.sequence = proposed.flatten ++ l.sequence)
    (hhandled : cfg.localReplica ≠ 0 →
      remote'.flatten ++ l'.pc.handled = remote.flatten ++ l.pc.handled)
    (hplaced : l'.pc.Placed cfg) :
    Generation cfg content l' remote' proposed' generated drawn submitted where
  placed := hplaced
  delivered := by rw [hmr]; exact hg.delivered
  contents h := by rw [hhandled h]; exact hg.contents h
  guids := by rw [hguid]; exact hg.guids
  fresh := hg.fresh
  clients := hg.clients
  order := by rw [hsequence]; exact hg.order
  origin := by rw [hsequence]; exact hg.origin
  nodup := by rw [hsequence]; exact hg.nodup

/-- The next GUID of the node is in use nowhere. -/
theorem Generation.guid_new (h0 : 0 < cfg.allNodes)
    (hg : Generation cfg content l remote proposed generated drawn submitted) :
    cfg.guid l.nextGuid ∉ drawn ++ generated.map Prod.fst ∧ cfg.guid l.nextGuid ∉ submitted := by
  have hnew : cfg.guid l.nextGuid ∉ drawn ++ generated.map Prod.fst := by
    intro hmem
    obtain ⟨k, hk, heq⟩ := hg.guids _ hmem
    have : l.nextGuid = k := Nat.eq_of_mul_eq_mul_left h0 (Nat.add_left_cancel heq)
    omega
  refine ⟨hnew, fun hmem => ?_⟩
  rcases hg.clients _ hmem with h | h
  · exact hnew (List.mem_append_left _ h)
  · exact h _ rfl

/-- A sequencer submits a batch. -/
theorem Generation.submit (hg : Generation cfg content l remote proposed generated drawn submitted)
    {b : Nat} (hb : b ∉ submitted) (hclient : b ∈ drawn ∨ ∀ k, b ≠ cfg.guid k) :
    Generation cfg content (l.append b) remote proposed generated drawn (submitted ++ [b]) := by
  have hnot : b ∉ generated.map Prod.fst := by
    intro hmem
    rcases hclient with h | h
    · exact (List.nodup_append.mp hg.fresh).2.2 b h b hmem rfl
    · obtain ⟨k, -, heq⟩ := hg.guids b (List.mem_append_right _ hmem)
      exact h k heq
  have hseq : proposed.flatten ++ (l.append b).sequence = (proposed.flatten ++ l.sequence) ++ [b] :=
    (List.append_assoc ..).symm
  refine ⟨hg.placed, hg.delivered, hg.contents, hg.guids, hg.fresh, fun n hn => ?_, ?_,
    fun n hn => ?_, ?_⟩
  · rcases List.mem_append.mp hn with hn | hn
    · exact hg.clients n hn
    · rw [List.mem_singleton.mp hn]
      exact hclient
  · rw [hseq, List.filter_append, hg.order, List.filter_singleton]
    simp [hnot]
  · rw [hseq] at hn
    rcases List.mem_append.mp hn with hn | hn
    · exact (hg.origin n hn).imp_left (List.mem_append_left _)
    · exact .inl (List.mem_append_right _ hn)
  · rw [hseq, List.nodup_append]
    refine ⟨hg.nodup, List.nodup_singleton b, fun x hx y hy hxy => ?_⟩
    rw [List.mem_singleton.mp hy] at hxy
    subst hxy
    rcases hg.origin x hx with h | h
    · exact hb h
    · exact hnot h

/-- The batches the leader is through with grow by one in a round of its
loop. -/
theorem Pc.handled_generate {batchId : Nat} {rest encoded : Sequence} (ret : Ret)
    (h : batchId :: rest <:+ encoded) :
    (Pc.generate rest encoded 0 ret).handled =
      (Pc.generate (batchId :: rest) encoded 0 ret).handled ++ [batchId] := by
  obtain ⟨front, rfl⟩ := h
  simp only [Pc.handled, if_pos, List.length_append, List.length_cons]
  have h1 : front.length + (rest.length + 1) - (rest.length + 1) = front.length := by omega
  have h2 : front.length + (rest.length + 1) - rest.length = front.length + 1 := by omega
  rw [h1, h2, List.take_left, List.take_append, List.take_of_length_le (Nat.le_succ _)]
  simp

/-- A round of the loop that finds a batch there. -/
theorem Generation.generate (h0 : 0 < cfg.allNodes)
    (hg : Generation cfg content l remote proposed generated drawn submitted)
    (h : l.generate cfg = some (l', outs)) :
    Generation cfg content l' remote proposed (generated ++ batches outs) drawn submitted := by
  obtain ⟨remaining, encoded, replica, ret, hpc, hc⟩ := Leader.generate_eq h
  have hplaced := hg.placed
  rw [hpc] at hplaced
  obtain ⟨hreplica, rfl, hsuffix⟩ := hplaced
  rcases hc with ⟨rfl, rfl, hb⟩ | ⟨batchId, rest, data, rfl, hdata, hc⟩
  · -- the loop is over: every batch of the sequence is handled
    rw [hb, List.append_nil]
    refine hg.quiet rfl rfl rfl (fun _ => ?_) trivial
    rw [hpc]
    simp [Pc.handled]
  · have hhandled := Pc.handled_generate ret hsuffix
    have hrest : rest <:+ encoded := (List.suffix_cons batchId rest).trans hsuffix
    have hcopies : copies cfg content batchId = data.map (Leader.generatedTxn cfg) := by
      rw [copies, ← hg.delivered batchId data hdata]
    have hcontents := hg.contents hreplica
    rw [hpc] at hcontents
    rcases hc with ⟨rfl, rfl, rfl⟩ | ⟨hne, rfl, rfl⟩
    · -- nothing to copy in this batch
      rw [batches_nil, List.append_nil]
      refine { hg with
        placed := ⟨hreplica, rfl, hrest⟩
        contents := fun _ => ?_ }
      rw [hhandled, hcontents]
      simp [hcopies]
    · obtain ⟨hnew, hnewSubmitted⟩ := hg.guid_new h0
      have hkeys : (generated ++ batches [.batch (cfg.guid l.nextGuid)
          (data.map (Leader.generatedTxn cfg))]).map Prod.fst =
            generated.map Prod.fst ++ [cfg.guid l.nextGuid] := by
        simp
      have hold : cfg.guid l.nextGuid ∉ proposed.flatten ++ l.sequence := by
        intro hmem
        rcases hg.origin _ hmem with h | h
        · exact hnewSubmitted h
        · exact hnew (List.mem_append_right _ h)
      have hlist : proposed.flatten ++ (l.sequence ++ [cfg.guid l.nextGuid]) =
          (proposed.flatten ++ l.sequence) ++ [cfg.guid l.nextGuid] := (List.append_assoc ..).symm
      refine ⟨⟨hreplica, rfl, hrest⟩, hg.delivered, fun _ => ?_, fun n hn => ?_, ?_, hg.clients,
        ?_, fun n hn => ?_, ?_⟩
      · rw [hhandled]
        simp only [List.map_append, hcontents, ← List.append_assoc, List.filter_append,
          List.map_cons, List.map_nil, hcopies, batches_batch, batches_nil]
        simp [hne]
      · rw [hkeys, ← List.append_assoc, List.mem_append] at hn
        rcases hn with hn | hn
        · obtain ⟨k, hk, rfl⟩ := hg.guids n hn
          exact ⟨k, Nat.lt_succ_of_lt hk, rfl⟩
        · exact ⟨l.nextGuid, Nat.lt_succ_self _, List.mem_singleton.mp hn⟩
      · rw [hkeys, ← List.append_assoc, ← List.concat_eq_append]
        exact hg.fresh.concat hnew
      · -- the new batch is the last one appended
        have hsame : (proposed.flatten ++ l.sequence).filter
            (· ∈ generated.map Prod.fst ++ [cfg.guid l.nextGuid]) =
              (proposed.flatten ++ l.sequence).filter (· ∈ generated.map Prod.fst) := by
          refine List.filter_congr fun n hn => ?_
          have hne : n ≠ cfg.guid l.nextGuid := fun heq => hold (heq ▸ hn)
          simp [hne]
        show (proposed.flatten ++ (l.sequence ++ [cfg.guid l.nextGuid])).filter _ = _
        rw [hkeys, hlist, List.filter_append, hsame, hg.order, List.filter_singleton]
        simp
      · rw [hkeys]
        rw [hlist, List.mem_append] at hn
        rcases hn with hn | hn
        · exact (hg.origin n hn).imp_right (List.mem_append_left _)
        · exact .inr (List.mem_append_right _ hn)
      · show (proposed.flatten ++ (l.sequence ++ [cfg.guid l.nextGuid])).Nodup
        rw [hlist, ← List.concat_eq_append]
        exact hg.nodup.concat hold

/-- Another thread of the node draws a GUID. -/
theorem Generation.draw (h0 : 0 < cfg.allNodes)
    (hg : Generation cfg content l remote proposed generated drawn submitted) :
    Generation cfg content { l with nextGuid := l.nextGuid + 1 } remote proposed generated
      (drawn ++ [cfg.guid l.nextGuid]) submitted := by
  obtain ⟨hnew, -⟩ := hg.guid_new h0
  refine ⟨hg.placed, hg.delivered, hg.contents, fun n hn => ?_, ?_, fun n hn => ?_, hg.order,
    hg.origin, hg.nodup⟩
  · rw [List.append_assoc, List.mem_append, List.mem_append, List.mem_singleton] at hn
    rcases hn with hn | rfl | hn
    · obtain ⟨k, hk, rfl⟩ := hg.guids n (List.mem_append_left _ hn)
      exact ⟨k, Nat.lt_succ_of_lt hk, rfl⟩
    · exact ⟨l.nextGuid, Nat.lt_succ_self _, rfl⟩
    · obtain ⟨k, hk, rfl⟩ := hg.guids n (List.mem_append_right _ hn)
      exact ⟨k, Nat.lt_succ_of_lt hk, rfl⟩
  · have hperm : (drawn ++ [cfg.guid l.nextGuid] ++ generated.map Prod.fst).Perm
        (cfg.guid l.nextGuid :: (drawn ++ generated.map Prod.fst)) := by
      rw [List.append_assoc]
      exact List.perm_middle
    exact hperm.nodup_iff.mpr (List.nodup_cons.mpr ⟨hnew, hg.fresh⟩)
  · exact (hg.clients n hn).imp_left (List.mem_append_left _)

@[simp] theorem Ret.handled_pc (ret : Ret) : ret.pc.handled = [] := by cases ret <;> rfl

theorem Ret.placed_pc (ret : Ret) : ret.pc.Placed cfg := by cases ret <;> trivial

/-- A message leaves what is generated as it is; an `MR_TXNS_BATCH` holds the
relevant transactions of its batch. -/
theorem Generation.receive (hg : Generation cfg content l remote proposed generated drawn submitted)
    (message : LogMessage)
    (hm : ∀ b data, message = .mrTxnsBatch b data → data = mrTxns cfg.localReplica (content b)) :
    Generation cfg content (l.receiveMessage cfg message).1 remote proposed generated drawn
      submitted := by
  cases message with
  | mrTxnsBatch b data =>
      refine { hg with delivered := fun b' data' hmr => ?_ }
      change update l.mrTxnBatches b (some data) b' = some data' at hmr
      by_cases hb : b' = b
      · subst hb
        rw [update_self, Option.some.injEq] at hmr
        rw [← hmr]
        exact hm b' data rfl
      · rw [update_of_ne hb] at hmr
        exact hg.delivered b' data' hmr
  | newSequenceAck r v =>
      by_cases hv : (l.readNew r v).2.1 = v
      · rw [Leader.receiveMessage_ack_eq hv]
        exact hg.quiet rfl rfl rfl (fun _ => rfl) hg.placed
      · rw [Leader.receiveMessage_ack_ne hv]
        exact hg.quiet rfl rfl rfl (fun _ => rfl) hg.placed
  | newSequence | synchronize | synchronizeAck | paxosCommit =>
      exact hg.quiet rfl rfl rfl (fun _ => rfl) hg.placed

/-- Taking a remote sequence up leaves the batches handled as they are. -/
theorem Generation.takeUp (hg : Generation cfg content l remote proposed generated drawn submitted)
    {ret : Ret} (hpc : l.pc.handled = [])
    (h : l.handleRemoteBatch cfg ret = some (l', outs)) :
    Generation cfg content l' (remote ++ only 0 (ordered outs)) (proposed ++ ownProposals outs)
      (generated ++ batches outs) drawn submitted := by
  obtain ⟨sequence, replica, rest, pc, rfl, ho, hp, hb, hc⟩ := Leader.handleRemoteBatch_placed h
  rw [ho, hp, hb, only_nil, List.append_nil, List.append_nil, List.append_nil]
  rcases hc with ⟨hreplica, rfl, rfl⟩ | ⟨hno, rfl⟩
  · refine hg.quiet rfl rfl rfl (fun _ => ?_) ⟨hreplica, rfl, List.suffix_refl _⟩
    rw [hpc]
    simp [Pc.handled]
  · refine hg.quiet rfl rfl rfl (fun hreplica => ?_) trivial
    have hne : replica ≠ 0 := fun h0 => hno ⟨hreplica, h0⟩
    rw [hpc]
    simp [Pc.handled, hne]

/-- A local sequence goes to the logs. -/
theorem Generation.logged (hg : Generation cfg content l remote proposed generated drawn submitted)
    {encoded : Sequence} {a : Bool} (hpc : l.pc.handled = [])
    (h : { l with receivedSynchronizeAck := a }.finishLocal cfg encoded = some (l', outs)) :
    Generation cfg content l' (remote ++ only 0 (ordered outs)) (proposed ++ ownProposals outs)
      (generated ++ batches outs) drawn submitted := by
  obtain ⟨⟨_, _, rfl⟩, ho, hp⟩ := Leader.finishLocal_frame h
  have hb := Leader.finishLocal_batches h
  simp only [ordered, ownProposals, ho, hp, hb, List.map_nil, only_nil, List.filterMap_nil,
    List.append_nil]
  refine hg.quiet rfl rfl rfl (fun _ => ?_) trivial
  rw [hpc]
  rfl

/-- Every step of a leader keeps what it has generated in step with what it has
ordered and proposed. -/
theorem Generation.step (h0 : 0 < cfg.allNodes)
    (hg : Generation cfg content l remote proposed generated drawn submitted)
    (hsubmit : ∀ b ∈ e.submitted, b ∉ submitted ∧ (b ∈ drawn ∨ ∀ k, b ≠ cfg.guid k))
    (hm : ∀ b data, e.received = some (.mrTxnsBatch b data) →
      data = mrTxns cfg.localReplica (content b))
    (h : l.step cfg e = some (l', outs)) :
    Generation cfg content l' (remote ++ only 0 (ordered outs)) (proposed ++ ownProposals outs)
      (generated ++ batches outs) (drawn ++ drawnGuids cfg l e) (submitted ++ e.submitted) := by
  cases e with
  | append b =>
      cases h
      obtain ⟨hb, hclient⟩ := hsubmit b (List.mem_singleton_self b)
      simpa [ordered, ownProposals, drawnGuids, Event.submitted] using hg.submit hb hclient
  | drawGuid =>
      cases h
      simpa [ordered, ownProposals, drawnGuids, Event.submitted] using hg.draw h0
  | receive message =>
      simp only [Leader.step, Option.ite_none_right_eq_some, Option.some.injEq] at h
      obtain ⟨-, h⟩ := h
      obtain ⟨-, ho, hp⟩ := Leader.receiveMessage_frame cfg l message
      have hg' := hg.receive message fun b data heq => hm b data (congrArg some heq)
      have hb : batches (l.receiveMessage cfg message).2 = [] :=
        Leader.receiveMessage_batches message
      rw [h] at hg' ho hp hb
      simpa [ordered, ownProposals, drawnGuids, Event.submitted, ho, hp, hb] using hg'
  | gotAck version =>
      simp only [Leader.step, Option.map_eq_some_iff, Prod.mk.injEq] at h
      obtain ⟨_, hack, rfl, rfl⟩ := h
      obtain ⟨encoded, _, acks, source, hpc, rfl⟩ := Leader.gotAck_cases hack
      have hg' : Generation cfg content { l with pc := .collect encoded acks source } remote
          proposed
          generated drawn submitted := hg.quiet rfl rfl rfl
        (fun _ => by rw [hpc]; cases source <;> rfl) trivial
      simpa [ordered, ownProposals, drawnGuids, Event.submitted] using hg'
  | pick =>
      show Generation cfg content l' _ _ _ (drawn ++ []) (submitted ++ [])
      rw [List.append_nil drawn, List.append_nil submitted]
      obtain ⟨hpc, alternate, ⟨hp, -⟩ | hr⟩ := Leader.pick_cases h
      · cases hp
        have hg' : Generation cfg content ({ l with alternate }.proposeLocal).1 remote
            (proposed ++ [l.sequence]) generated drawn submitted :=
          hg.quiet rfl rfl (by simp [Leader.proposeLocal, Leader.startCollect])
            (fun _ => by rw [hpc]; rfl) trivial
        simpa [ordered, ownProposals, Leader.proposeLocal, Leader.startCollect] using hg'
      · have hg' : Generation cfg content { l with alternate } remote proposed generated drawn
            submitted := hg.quiet rfl rfl rfl (fun _ => rfl) hg.placed
        exact hg'.takeUp (by simp only [hpc]; rfl) hr
  | generate =>
      obtain ⟨_, _, _, _, -, ho, -, hc⟩ := Leader.generate_cases h
      have hp : ownProposals outs = [] := by
        rcases hc with ⟨_, _, _, _, -, hp⟩ | ⟨-, hp⟩ <;> simp [ownProposals, hp]
      simpa [ordered, drawnGuids, Event.submitted, ho, hp] using hg.generate h0 h
  | finish =>
      show Generation cfg content l' _ _ _ (drawn ++ []) (submitted ++ [])
      rw [List.append_nil drawn, List.append_nil submitted]
      obtain ⟨encoded, acks, source, hpc, hc⟩ := Leader.finish_cases h
      rcases hc with ⟨replica, ret, rfl, rfl, rfl⟩ | ⟨rfl, -, rfl, rfl⟩ | ⟨rfl, -, sent, hf, rfl⟩
      · -- a remote sequence: what was handled of it is now ordered
        have hg' : Generation cfg content
            { l with
              globalLog :=
                ⟨l.globalNextVersion, l.globalLog.entries ++ [(l.globalNextVersion, encoded)]⟩
              pc := ret.pc } (remote ++ only 0 [(encoded, replica)]) proposed generated drawn
            submitted := hg.quiet rfl rfl rfl
          (fun _ => by
            rw [Ret.handled_pc, hpc]
            by_cases hr : replica = 0 <;> simp [Pc.handled, hr])
          (Ret.placed_pc ret)
        simpa [ordered, ownProposals] using hg'
      · have hg' : Generation cfg content { l with pc := .syncTest encoded }
            (remote ++ only 0 [(encoded, cfg.localReplica)]) proposed generated drawn submitted :=
          hg.quiet rfl rfl rfl (fun hreplica => by
            rw [hpc]
            simp [Pc.handled, hreplica])
          trivial
        simpa [ordered, ownProposals] using hg'
      · have hg' : Generation cfg content l (remote ++ only 0 [(encoded, cfg.localReplica)])
          proposed
            generated drawn submitted := hg.quiet rfl rfl rfl
          (fun hreplica => by simp [hreplica]) hg.placed
        simpa [ordered, ownProposals] using
          hg'.logged (a := l.receivedSynchronizeAck) (by rw [hpc]; rfl) hf
  | syncTest =>
      show Generation cfg content l' _ _ _ (drawn ++ []) (submitted ++ [])
      rw [List.append_nil drawn, List.append_nil submitted]
      obtain ⟨encoded, hpc, ⟨-, hf⟩ | ⟨rfl, rfl⟩⟩ := Leader.syncTest_cases h
      · exact hg.logged (by rw [hpc]; rfl) hf
      · have hg' : Generation cfg content { l with pc := .syncReceive encoded } remote proposed
            generated drawn submitted := hg.quiet rfl rfl rfl
          (fun _ => by rw [hpc]; rfl) trivial
        simpa [ordered, ownProposals] using hg'
  | syncReceived =>
      show Generation cfg content l' _ _ _ (drawn ++ []) (submitted ++ [])
      rw [List.append_nil drawn, List.append_nil submitted]
      obtain ⟨encoded, hpc, ⟨-, hr⟩ | ⟨-, rfl, rfl⟩⟩ := Leader.syncReceived_cases h
      · exact hg.takeUp (by rw [hpc]; rfl) hr
      · have hg' : Generation cfg content { l with pc := .syncTest encoded } remote proposed
            generated drawn submitted := hg.quiet rfl rfl rfl
          (fun _ => by rw [hpc]; rfl) trivial
        simpa [ordered, ownProposals] using hg'

end

end Calvin.LocalPaxos
