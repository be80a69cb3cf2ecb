import Calvin.Log.LocalPaxosEffects

/-!
# What a strong leader synchronizes

`RunLeaderStrong` sends each local sequence to the closed replica and appends it
to the local log only when `received_synchronize_ack` is set. The ack carries no
version: it belongs to the sequence that waits.

* `Synchronizes`: the contract of a leader's step. The local log with the
  sequence that waits grows by what is sent to the closed replica, and acks are
  counted against it.
-/

namespace Calvin.LocalPaxos

open Function

/-! ## The messages -/

/-- The sequences of the `SYNCHRONIZE`s among messages. -/
def synchronizes (messages : List LogMessage) : List Sequence :=
  messages.filterMap fun
    | .synchronize _ data => some data
    | _ => none

@[simp] theorem synchronizes_nil : synchronizes [] = [] := rfl

@[simp] theorem synchronizes_append (a b : List LogMessage) :
    synchronizes (a ++ b) = synchronizes a ++ synchronizes b :=
  List.filterMap_append

/-- What a leader guarantees of a message to a replica, in reaction to the one
it received, with its local log afterwards. -/
def LogMessage.Reply (cfg : Config) (received : Option LogMessage) (log : LocalMemLog) (t : Nat) :
    LogMessage → Prop
  | .newSequence _ _ data => ∀ encoded ∈ data, encoded ∈ log.sequences
  | .synchronize fromReplica _ =>
      fromReplica = cfg.localReplica ∧ t = closedReplica cfg.localReplica
  | .synchronizeAck => ∃ data, received = some (.synchronize t data)
  | .mrTxnsBatch .. | .newSequenceAck .. | .paxosCommit _ => True

/-- The acks to a replica that a received message asks for. -/
def acksTo (t : Nat) : Option LogMessage → Nat
  | some (.synchronize fromReplica _) => if fromReplica = t then 1 else 0
  | _ => 0

/-- A step of a strong leader. -/
structure Synchronizes (cfg : Config) (received : Option LogMessage) (l l' : Leader)
    (outs : List Output) : Prop where
  /-- What is sent to the closed replica waits, and is then logged. -/
  logged : l'.localLog.sequences ++ l'.pc.waiting.toList =
    l.localLog.sequences ++ l.pc.waiting.toList ++
      synchronizes (sentTo (closedReplica cfg.localReplica) outs)
  grows : l.localLog.sequences <+: l'.localLog.sequences
  /-- An ack is noted when it is received and used up by the log. -/
  noted : l'.receivedSynchronizeAck.toNat + l.pc.waiting.toList.length +
      (synchronizes (sentTo (closedReplica cfg.localReplica) outs)).length =
    l.receivedSynchronizeAck.toNat + received.toList.count .synchronizeAck +
      l'.pc.waiting.toList.length
  /-- Each `SYNCHRONIZE` is answered. -/
  acks : ∀ t, (sentTo t outs).count .synchronizeAck = acksTo t received
  sends : ∀ t, ∀ m ∈ sentTo t outs, m.Reply cfg received l'.localLog t

namespace Leader

variable {cfg : Config} {l l' : Leader} {outs : List Output}

/-! ## Reading the log -/

theorem mem_drain {log : LocalMemLog} {r : LogReader} {e : Nat × Sequence}
    (h : e ∈ (r.drain log).2) : e ∈ log.entries := by
  have hbound : ∀ (bound : Nat) (r : LogReader), e ∈ (LogReader.drainUpTo log bound r).2 →
      e ∈ log.entries := by
    intro bound
    induction bound with
    | zero => exact fun r hr => absurd hr List.not_mem_nil
    | succ bound ih =>
        intro r hr
        unfold LogReader.drainUpTo at hr
        split at hr
        · exact absurd hr List.not_mem_nil
        · rename_i r' e' hnext
          rcases List.mem_cons.mp hr with rfl | hr
          · unfold LogReader.next at hnext
            rw [Option.ite_none_left_eq_some, Option.map_eq_some_iff] at hnext
            obtain ⟨-, e'', he, heq⟩ := hnext
            cases heq
            exact List.mem_of_getElem? he
          · exact ih r' hr
  exact hbound _ r h

/-- What is read for a replica is in the log. -/
theorem mem_readNew (l : Leader) {t latest : Nat} {encoded : Sequence}
    (h : encoded ∈ (l.readNew t latest).2.2) : encoded ∈ l.localLog.sequences := by
  obtain ⟨e, he, rfl⟩ := List.mem_map.mp h
  exact List.mem_map_of_mem (mem_drain he)

/-- The hand-over sends sequences of the log only. -/
theorem sendSequences_sends {check : Bool} {targets : List Nat} {received : Option LogMessage}
    (h : sendSequences cfg check l targets = some (l', outs)) :
    ∀ t, (sentTo t outs).count .synchronizeAck = 0 ∧ synchronizes (sentTo t outs) = [] ∧
      ∀ m ∈ sentTo t outs, m.Reply cfg received l.localLog t := by
  induction targets generalizing l outs with
  | nil =>
      cases h
      exact fun t => ⟨rfl, rfl, fun m hm => absurd hm List.not_mem_nil⟩
  | cons replica rest ih =>
      simp only [sendSequences] at h
      rw [Option.ite_none_left_eq_some] at h
      simp only [Option.map_eq_some_iff, Prod.mk.injEq] at h
      obtain ⟨-, ⟨l₁, outs₁⟩, hrest, rfl, rfl⟩ := h
      intro t
      obtain ⟨hacks, hsyncs, hsends⟩ := ih hrest t
      rw [sentTo_peer]
      by_cases ht : replica = t
      · rw [if_pos ht, List.singleton_append]
        refine ⟨?_, hsyncs, fun m hm => ?_⟩
        · rw [List.count_cons_of_ne (by simp)]
          exact hacks
        · rcases List.mem_cons.mp hm with rfl | hm
          · exact fun encoded he => mem_readNew l he
          · exact hsends m hm
      · rw [if_neg ht, List.nil_append]
        exact ⟨hacks, hsyncs, hsends⟩

theorem finishLocal_sends {encoded : Sequence} (received : Option LogMessage)
    (h : l.finishLocal cfg encoded = some (l', outs)) :
    ∀ t, (sentTo t outs).count .synchronizeAck = 0 ∧ synchronizes (sentTo t outs) = [] ∧
      ∀ m ∈ sentTo t outs, m.Reply cfg received l'.localLog t := by
  obtain ⟨⟨rd, todo, hl⟩, -, -⟩ := finishLocal_frame h
  have hlog : ∀ todo, l'.localLog = (l.logged encoded todo).localLog := by
    intro todo
    rw [hl]
    rfl
  rcases finishLocal_cases h with h | h
  · rw [hlog l.newSequenceTodo]
    exact sendSequences_sends h
  · rw [hlog []]
    exact sendSequences_sends h

/-! ## The steps -/

/-- A step that keeps the sequence that waits and the log, and sends nothing to
another replica. -/
theorem synchronizes_keep (hwaiting : l'.pc.waiting = l.pc.waiting)
    (hack : l'.receivedSynchronizeAck = l.receivedSynchronizeAck)
    (hlog : l'.localLog = l.localLog) (hs : ∀ t, sentTo t outs = []) :
    Synchronizes cfg none l l' outs where
  logged := by rw [hwaiting, hlog, hs, synchronizes_nil, List.append_nil]
  grows := hlog ▸ List.prefix_refl _
  noted := by
    rw [hwaiting, hack, hs]
    rfl
  acks t := by
    rw [hs]
    rfl
  sends t m hm := by
    rw [hs] at hm
    cases hm

theorem handleRemoteBatch_synchronizes {ret : Ret} (hwaiting : l.pc.waiting = ret.waiting)
    (h : l.handleRemoteBatch cfg ret = some (l', outs)) : Synchronizes cfg none l l' outs := by
  obtain ⟨_, _, _, -, -, hs, ⟨rfl, -⟩ | ⟨rfl, -⟩⟩ := handleRemoteBatch_eq h
  · exact synchronizes_keep hwaiting.symm rfl rfl hs
  · exact synchronizes_keep hwaiting.symm rfl rfl hs

theorem pick_synchronizes (h : l.pick cfg = some (l', outs)) :
    Synchronizes cfg none l l' outs := by
  obtain ⟨hpc, alternate, ⟨hp, -⟩ | hr⟩ := pick_cases h
  · cases hp
    exact synchronizes_keep (by rw [hpc]; rfl) rfl rfl fun t => rfl
  · have hs := handleRemoteBatch_synchronizes (l := { l with alternate }) (by rw [hpc]; rfl) hr
    exact ⟨hs.logged, hs.grows, hs.noted, hs.acks, hs.sends⟩

theorem generate_synchronizes (h : l.generate cfg = some (l', outs)) :
    Synchronizes cfg none l l' outs := by
  obtain ⟨_, _, _, _, hpc, -, hs, ⟨_, _, _, _, rfl, -⟩ | ⟨rfl, -⟩⟩ := generate_cases h
  · exact synchronizes_keep (by rw [hpc]; rfl) rfl rfl hs
  · exact synchronizes_keep (by rw [hpc]; rfl) rfl rfl hs

/-- The local sequence goes to the closed replica, and waits. -/
theorem finish_synchronizes (hstrong : cfg.strong = true) (h : l.finish cfg = some (l', outs)) :
    Synchronizes cfg none l l' outs := by
  obtain ⟨encoded, acks, source, hpc, hc⟩ := finish_cases h
  rcases hc with ⟨replica, ret, rfl, rfl, rfl⟩ | ⟨rfl, -, rfl, rfl⟩ | ⟨-, hweak, -⟩
  · refine synchronizes_keep ?_ rfl rfl fun t => rfl
    rw [Ret.waiting_pc, hpc]
    rfl
  · have hnone : l.pc.waiting = none := by
      rw [hpc]
      rfl
    refine ⟨?_, ?_, ?_, fun t => ?_, fun t m hm => ?_⟩
    · rw [hnone]
      simp [synchronizes, Pc.waiting]
    · exact List.prefix_refl _
    · rw [hnone]
      simp [synchronizes, Pc.waiting]
    · by_cases ht : closedReplica cfg.localReplica = t
      · simp [ht, acksTo]
      · simp [ht, acksTo]
    · simp only [sentTo_order, sentTo_commit, sentTo_peer, sentTo_nil, List.append_nil] at hm
      by_cases ht : closedReplica cfg.localReplica = t
      · rw [if_pos ht, List.mem_singleton] at hm
        subst hm
        exact ⟨rfl, ht.symm⟩
      · rw [if_neg ht] at hm
        cases hm
  · rw [hstrong] at hweak
    cases hweak

/-- With the ack the sequence that waits is logged. -/
theorem syncTest_synchronizes (h : l.syncTest cfg = some (l', outs)) :
    Synchronizes cfg none l l' outs := by
  obtain ⟨encoded, hpc, ⟨hack, hf⟩ | ⟨rfl, rfl⟩⟩ := syncTest_cases h
  · have hsends := finishLocal_sends none hf
    obtain ⟨⟨rd, todo, rfl⟩, -, -⟩ := finishLocal_frame hf
    have hwaiting : l.pc.waiting = some encoded := by
      rw [hpc]
      rfl
    refine ⟨?_, ?_, ?_, fun t => (hsends t).1, fun t => (hsends t).2.2⟩
    · rw [(hsends _).2.1, hwaiting]
      simp [logged, LocalMemLog.sequences, Pc.waiting]
    · simp [logged, LocalMemLog.sequences]
    · rw [(hsends _).2.1, hwaiting, hack]
      simp [logged, Pc.waiting]
  · refine synchronizes_keep ?_ rfl rfl fun t => rfl
    rw [hpc]
    rfl

theorem syncReceived_synchronizes (h : l.syncReceived cfg = some (l', outs)) :
    Synchronizes cfg none l l' outs := by
  obtain ⟨encoded, hpc, ⟨-, hr⟩ | ⟨-, rfl, rfl⟩⟩ := syncReceived_cases h
  · exact handleRemoteBatch_synchronizes (by rw [hpc]; rfl) hr
  · refine synchronizes_keep ?_ rfl rfl fun t => rfl
    rw [hpc]
    rfl

/-- Receiving a message other than an ack keeps the sequence that waits. -/
theorem receive_synchronizes {message : LogMessage} {reply : List Output}
    (hmessage : message ≠ .synchronizeAck) (hpc : l'.pc = l.pc) (hlog : l'.localLog = l.localLog)
    (hack : l'.receivedSynchronizeAck = l.receivedSynchronizeAck)
    (hsyncs : ∀ t, synchronizes (sentTo t reply) = [])
    (hacks : ∀ t, (sentTo t reply).count .synchronizeAck = acksTo t (some message))
    (hsends : ∀ t, ∀ m ∈ sentTo t reply, m.Reply cfg (some message) l'.localLog t) :
    Synchronizes cfg (some message) l l' reply where
  logged := by rw [hpc, hlog, hsyncs, List.append_nil]
  grows := hlog ▸ List.prefix_refl _
  noted := by
    have hnone : (some message).toList.count .synchronizeAck = 0 := by
      rw [Option.toList_some, List.count_singleton]
      simpa using hmessage
    rw [hpc, hack, hsyncs, hnone]
    rfl
  acks := hacks
  sends := hsends

/-- An ack that comes when none is noted is noted. -/
theorem receiveMessage_synchronizes (cfg : Config) (l : Leader) (message : LogMessage)
    (hack : message = .synchronizeAck → l.receivedSynchronizeAck = false) :
    Synchronizes cfg (some message) l (l.receiveMessage cfg message).1
      (l.receiveMessage cfg message).2 := by
  cases message with
  | mrTxnsBatch | paxosCommit =>
      exact ⟨(List.append_nil _).symm, List.prefix_refl _, rfl, fun t => rfl,
        fun t m hm => absurd hm List.not_mem_nil⟩
  | newSequence fromReplica latestVersion data =>
      refine receive_synchronizes (by simp) rfl rfl rfl (fun t => ?_) (fun t => ?_) fun t m hm => ?_
      · by_cases ht : fromReplica = t <;> simp [receiveMessage, ht, synchronizes]
      · by_cases ht : fromReplica = t <;> simp [receiveMessage, ht, acksTo]
      · by_cases ht : fromReplica = t
        · simp only [receiveMessage, ht, sentTo_peer, if_true, sentTo_nil, List.append_nil,
            List.mem_singleton] at hm
          subst hm
          trivial
        · simp [receiveMessage, ht] at hm
  | newSequenceAck fromReplica acked =>
      by_cases hacked : (l.readNew fromReplica acked).2.1 = acked
      · rw [receiveMessage_ack_eq hacked]
        exact receive_synchronizes (by simp) rfl rfl rfl (fun t => rfl) (fun t => rfl)
          fun t m hm => absurd hm List.not_mem_nil
      · rw [receiveMessage_ack_ne hacked]
        refine receive_synchronizes (by simp) rfl rfl rfl (fun t => ?_) (fun t => ?_) fun t m hm =>
          ?_
        · by_cases ht : fromReplica = t <;> simp [ht, synchronizes]
        · by_cases ht : fromReplica = t <;> simp [ht, acksTo]
        · by_cases ht : fromReplica = t
          · simp only [ht, sentTo_peer, if_true, sentTo_nil, List.append_nil,
              List.mem_singleton] at hm
            subst hm
            intro encoded he
            exact mem_readNew l he
          · simp [ht] at hm
  | synchronize fromReplica data =>
      refine receive_synchronizes (by simp) rfl rfl rfl (fun t => ?_) (fun t => ?_) fun t m hm => ?_
      · by_cases ht : fromReplica = t <;> simp [receiveMessage, ht, synchronizes]
      · by_cases ht : fromReplica = t <;> simp [receiveMessage, ht, acksTo]
      · by_cases ht : fromReplica = t
        · simp only [receiveMessage, ht, sentTo_peer, if_true, sentTo_nil, List.append_nil,
            List.mem_singleton] at hm
          subst hm
          exact ⟨data, by rw [ht]⟩
        · simp [receiveMessage, ht] at hm
  | synchronizeAck =>
      refine ⟨(List.append_nil _).symm, List.prefix_refl _, ?_, fun t => rfl,
        fun t m hm => absurd hm List.not_mem_nil⟩
      rw [hack rfl]
      show 1 + l.pc.waiting.toList.length + 0 = 0 + 1 + l.pc.waiting.toList.length
      omega

/-- Every step of a strong leader keeps to the contract. -/
theorem step_synchronizes {e : Event} (hstrong : cfg.strong = true)
    (h : l.step cfg e = some (l', outs))
    (hack : e.received = some .synchronizeAck → l.receivedSynchronizeAck = false) :
    Synchronizes cfg e.received l l' outs := by
  cases e with
  | append blockid =>
      cases h
      exact synchronizes_keep rfl rfl rfl fun t => rfl
  | drawGuid =>
      cases h
      exact synchronizes_keep rfl rfl rfl fun t => rfl
  | receive message =>
      simp only [step, Option.ite_none_right_eq_some, Option.some.injEq] at h
      have hm := receiveMessage_synchronizes cfg l message fun heq =>
        hack (congrArg some heq)
      rw [h.2] at hm
      exact hm
  | gotAck version =>
      simp only [step, Option.map_eq_some_iff, Prod.mk.injEq] at h
      obtain ⟨_, hg, rfl, rfl⟩ := h
      obtain ⟨_, _, _, source, hpc, rfl⟩ := gotAck_cases hg
      refine synchronizes_keep ?_ rfl rfl fun t => rfl
      rw [hpc]
      cases source <;> rfl
  | pick => exact pick_synchronizes h
  | generate => exact generate_synchronizes h
  | finish => exact finish_synchronizes hstrong h
  | syncTest => exact syncTest_synchronizes h
  | syncReceived => exact syncReceived_synchronizes h

end Leader

end Calvin.LocalPaxos
