import Calvin.Log.LocalPaxosSteps

/-!
# The effect of a leader's step on the exchange of sequences

A leader seen through what the exchange depends on (`View`): the remote
sequences it holds, its own sequence on the way to the logs, the local log with
its readers, and the replicas that wait for it. `Leader.effect` says once what
a step can do to the view and what it sends.
-/

namespace Calvin.LocalPaxos

open Function

/-! ## Sequences by origin -/

/-- The sequences of one origin, in order. -/
def only (origin : Nat) (xs : List (Sequence × Nat)) : List Sequence :=
  xs.filterMap fun p => if p.2 = origin then some p.1 else none

@[simp] theorem only_nil (o : Nat) : only o [] = [] := rfl

@[simp] theorem only_append (o : Nat) (a b : List (Sequence × Nat)) :
    only o (a ++ b) = only o a ++ only o b :=
  List.filterMap_append

@[simp] theorem only_cons (o : Nat) (p : Sequence × Nat) (xs : List (Sequence × Nat)) :
    only o (p :: xs) = (if p.2 = o then [p.1] else []) ++ only o xs := by
  by_cases h : p.2 = o <;> simp [only, h]

theorem only_map_same (o : Nat) (data : List Sequence) :
    only o (data.map fun sequence => (sequence, o)) = data := by
  induction data with
  | nil => rfl
  | cons d ds ih => simp [ih]

theorem only_of_ne {o : Nat} {xs : List (Sequence × Nat)} (h : ∀ p ∈ xs, p.2 ≠ o) :
    only o xs = [] := by
  induction xs with
  | nil => rfl
  | cons p xs ih =>
      rw [only_cons, if_neg (h p List.mem_cons_self),
        ih fun q hq => h q (List.mem_cons_of_mem _ hq)]
      rfl

/-- Sequence and origin of the orders of a step. -/
def ordered (outs : List Output) : List (Sequence × Nat) :=
  (orders outs).map Prod.snd

/-- The sequences a step proposes as local ones. -/
def ownProposals (outs : List Output) : List Sequence :=
  (proposals outs).filterMap fun p => p.2.1.map fun _ => p.2.2

/-- The sequences a message hands over, with the replica they are from. -/
def LogMessage.sequences : LogMessage → List (Sequence × Nat)
  | .newSequence fromReplica _ data => data.map fun sequence => (sequence, fromReplica)
  | .synchronize fromReplica data => [(data, fromReplica)]
  | .mrTxnsBatch .. | .newSequenceAck .. | .synchronizeAck | .paxosCommit _ => []

/-- The sequences a list of messages hands over. -/
def payload (messages : List LogMessage) : List Sequence :=
  messages.flatMap fun m => m.sequences.map Prod.fst

@[simp] theorem payload_nil : payload [] = [] := rfl

@[simp] theorem payload_cons (m : LogMessage) (ms : List LogMessage) :
    payload (m :: ms) = m.sequences.map Prod.fst ++ payload ms := rfl

@[simp] theorem payload_append (a b : List LogMessage) :
    payload (a ++ b) = payload a ++ payload b :=
  List.flatMap_append

/-! ## Views -/

namespace Pc

/-- The remote sequence in hand. -/
def remote : Pc → List (Sequence × Nat)
  | .generate _ encoded replica _ | .collect encoded _ (.remote replica _) => [(encoded, replica)]
  | .idle | .collect _ _ .own | .syncTest _ | .syncReceive _ => []

/-- The local sequence in hand, not yet ordered. -/
def own : Pc → List Sequence
  | .collect encoded _ .own => [encoded]
  | .idle | .generate .. | .collect _ _ (.remote ..) | .syncTest _ | .syncReceive _ => []

end Pc

structure View where
  /-- Remote sequences that are not ordered yet, the one in hand first. -/
  pending : List (Sequence × Nat)
  own : List Sequence
  /-- The local sequence that is ordered and not yet in the local log. -/
  waiting : List Sequence
  localLog : LocalMemLog
  localNextVersion : Nat
  readers : Nat → LogReader
  todo : List Nat

def Leader.view (l : Leader) : View where
  pending := l.pc.remote ++ l.sequencesOtherReplicas
  own := l.pc.own
  waiting := l.pc.waiting.toList
  localLog := l.localLog
  localNextVersion := l.localNextVersion
  readers := l.readersForLocalLog
  todo := l.newSequenceTodo

namespace Leader

variable (l : Leader)

@[simp] theorem view_localLog : l.view.localLog = l.localLog := rfl
@[simp] theorem view_localNextVersion : l.view.localNextVersion = l.localNextVersion := rfl
@[simp] theorem view_readers : l.view.readers = l.readersForLocalLog := rfl
@[simp] theorem view_todo : l.view.todo = l.newSequenceTodo := rfl

theorem view_logged (encoded : Sequence) (todo : List Nat) :
    (l.logged encoded todo).view =
      { pending := l.sequencesOtherReplicas
        own := []
        waiting := []
        localLog := ⟨l.localNextVersion, l.localLog.entries ++ [(l.localNextVersion, encoded)]⟩
        localNextVersion := l.localNextVersion
        readers := l.readersForLocalLog
        todo := todo } := rfl

end Leader

/-- What a step can do, by the message it receives, if any. -/
inductive Effect (cfg : Config) (l : Leader) :
    Option LogMessage → Leader → List Output → Prop
  /-- Nothing the exchange depends on. -/
  | quiet {l' : Leader} {outs : List Output} (hview : l'.view = l.view) (ho : ordered outs = [])
      (hp : ownProposals outs = []) (hs : ∀ r, sentTo r outs = []) : Effect cfg l none l' outs
  | receive (message : LogMessage) :
      Effect cfg l (some message) (l.receiveMessage cfg message).1
        (l.receiveMessage cfg message).2
  /-- The local sequence gets its versions. -/
  | propose {l' : Leader} {outs : List Output} (encoded : Sequence)
      (hown : l.view.own = []) (hwaiting : l.view.waiting = [])
      (hview : l'.view =
        { l.view with own := [encoded], localNextVersion := l.localNextVersion + 1 })
      (ho : ordered outs = []) (hp : ownProposals outs = [encoded])
      (hs : ∀ r, sentTo r outs = []) : Effect cfg l none l' outs
  /-- The oldest remote sequence is ordered. -/
  | orderRemote {l' : Leader} {outs : List Output} (p : Sequence × Nat)
      (rest : List (Sequence × Nat)) (hpending : l.view.pending = p :: rest)
      (hview : l'.view = { l.view with pending := rest })
      (ho : ordered outs = [p]) (hp : ownProposals outs = [])
      (hs : ∀ r, sentTo r outs = []) : Effect cfg l none l' outs
  /-- The local sequence is ordered, and goes to the closed replica. -/
  | orderOwn {l' : Leader} {outs : List Output} (encoded : Sequence)
      (hstrong : cfg.strong = true) (hown : l.view.own = [encoded])
      (hwaiting : l.view.waiting = [])
      (hview : l'.view = { l.view with own := [], waiting := [encoded] })
      (ho : ordered outs = [(encoded, cfg.localReplica)]) (hp : ownProposals outs = [])
      (hs : ∀ r, sentTo r outs = if closedReplica cfg.localReplica = r then
        [.synchronize cfg.localReplica encoded] else []) : Effect cfg l none l' outs
  /-- The local sequence is logged and handed over; the leader that does not
  synchronize orders it in the same step. -/
  | logOwn {l₁ l' : Leader} {outs sent : List Output} (encoded : Sequence) (todo : List Nat)
      (targets : List Nat) (check : Bool)
      (hheld : (l.view.own = [] ∧ l.view.waiting = [encoded] ∧ ordered outs = []) ∨
        (cfg.strong = false ∧ l.view.own = [encoded] ∧ l.view.waiting = [] ∧
          ordered outs = [(encoded, cfg.localReplica)]))
      (hpending : l.view.pending = l.sequencesOtherReplicas)
      (htodo : (targets = Leader.firstTargets cfg ∧ todo = l.newSequenceTodo) ∨
        (targets = l.newSequenceTodo ∧ todo = []))
      (hlogged : l₁.view = (l.logged encoded todo).view)
      (hsend : Leader.sendSequences cfg check l₁ targets = some (l', sent))
      (hp : ownProposals outs = [])
      (hs : ∀ r, sentTo r outs = sentTo r sent) : Effect cfg l none l' outs

/-- The message a step receives. -/
def Event.received : Event → Option LogMessage
  | .receive message => some message
  | .append _ | .drawGuid | .gotAck _ | .pick | .generate | .finish | .syncTest
  | .syncReceived => none

namespace Leader

variable {cfg : Config} {l l' : Leader} {outs : List Output}

@[simp] theorem remote_ret_pc (ret : Ret) : ret.pc.remote = [] := by cases ret <;> rfl
@[simp] theorem own_ret_pc (ret : Ret) : ret.pc.own = [] := by cases ret <;> rfl

/-- Taking a remote sequence up moves it from the queue to the hand. -/
theorem handleRemoteBatch_quiet {ret : Ret} (hremote : l.pc.remote = []) (hown : l.pc.own = [])
    (hwaiting : l.pc.waiting = ret.waiting) (h : l.handleRemoteBatch cfg ret = some (l', outs)) :
    l'.view = l.view ∧ ordered outs = [] ∧ ownProposals outs = [] ∧ ∀ r, sentTo r outs = [] := by
  obtain ⟨sequence, replica, rest, hq, ho, hs, ⟨rfl, hp⟩ | ⟨rfl, hp⟩⟩ := handleRemoteBatch_eq h
  · refine ⟨?_, by simp [ordered, ho], by simp [ownProposals, hp], hs⟩
    simp only [view, hremote, hown, hwaiting, hq]
    rfl
  · refine ⟨?_, by simp [ordered, ho], by simp [ownProposals, hp], hs⟩
    simp only [view, hremote, hown, hwaiting, hq]
    rfl

theorem pick_effect (h : l.pick cfg = some (l', outs)) : Effect cfg l none l' outs := by
  obtain ⟨hpc, alternate, ⟨hp, -⟩ | hr⟩ := pick_cases h
  · cases hp
    refine .propose l.sequence ?_ ?_ ?_ rfl rfl fun _ => rfl <;>
      · simp only [view, hpc]
        rfl
  · obtain ⟨hview, ho, hp, hs⟩ := handleRemoteBatch_quiet (l := { l with alternate })
      (by simp only [hpc]; rfl) (by simp only [hpc]; rfl) (by simp only [hpc]; rfl) hr
    exact .quiet hview ho hp hs

theorem generate_effect (h : l.generate cfg = some (l', outs)) : Effect cfg l none l' outs := by
  obtain ⟨_, _, _, _, hpc, ho, hs, ⟨_, _, _, _, rfl, hp⟩ | ⟨rfl, hp⟩⟩ := generate_cases h
  · refine .quiet ?_ (by simp [ordered, ho]) (by simp [ownProposals, hp]) hs
    simp only [view, hpc]
    rfl
  · refine .quiet ?_ (by simp [ordered, ho]) (by simp [ownProposals, hp]) hs
    simp only [view, hpc]
    rfl

/-- The end of a local iteration; whether an ack was noted does not matter. -/
theorem finishLocal_effect {encoded : Sequence} {sent : List Output} {a : Bool}
    (hheld : (l.view.own = [] ∧ l.view.waiting = [encoded] ∧ ordered outs = []) ∨
      (cfg.strong = false ∧ l.view.own = [encoded] ∧ l.view.waiting = [] ∧
        ordered outs = [(encoded, cfg.localReplica)]))
    (hremote : l.pc.remote = []) (hp : ownProposals outs = [])
    (hs : ∀ r, sentTo r outs = sentTo r sent)
    (h : { l with receivedSynchronizeAck := a }.finishLocal cfg encoded = some (l', sent)) :
    Effect cfg l none l' outs := by
  have hpending : l.view.pending = l.sequencesOtherReplicas := by simp [view, hremote]
  rcases finishLocal_cases h with h | h
  · exact .logOwn encoded _ _ _ hheld hpending (.inl ⟨rfl, rfl⟩) (by rfl) h hp hs
  · exact .logOwn encoded _ _ _ hheld hpending (.inr ⟨rfl, rfl⟩) (by rfl) h hp hs

theorem finish_effect (h : l.finish cfg = some (l', outs)) : Effect cfg l none l' outs := by
  obtain ⟨encoded, acks, source, hpc, hc⟩ := finish_cases h
  rcases hc with ⟨replica, ret, rfl, rfl, rfl⟩ | ⟨rfl, hstrong, rfl, rfl⟩ |
    ⟨rfl, hweak, sent, hf, rfl⟩
  · refine .orderRemote (encoded, replica) l.sequencesOtherReplicas ?_ ?_ rfl rfl fun _ => rfl
    · simp only [view, hpc]
      rfl
    · simp only [view, hpc, remote_ret_pc, own_ret_pc, Ret.waiting_pc]
      rfl
  · refine .orderOwn encoded hstrong ?_ ?_ ?_ rfl rfl fun r => ?_
    · simp only [view, hpc]
      rfl
    · simp only [view, hpc]
      rfl
    · simp only [view, hpc]
      rfl
    · simp
  · obtain ⟨-, ho, hp⟩ := finishLocal_frame hf
    refine finishLocal_effect (a := l.receivedSynchronizeAck)
      (.inr ⟨hweak, ?_, ?_, ?_⟩) ?_ ?_ ?_ hf
    · simp only [view, hpc]
      rfl
    · simp only [view, hpc]
      rfl
    · simp [ordered, ho]
    · rw [hpc]
      rfl
    · simp [ownProposals, hp]
    · simp

theorem syncTest_effect (h : l.syncTest cfg = some (l', outs)) : Effect cfg l none l' outs := by
  obtain ⟨encoded, hpc, ⟨-, hf⟩ | ⟨rfl, rfl⟩⟩ := syncTest_cases h
  · obtain ⟨-, ho, hp⟩ := finishLocal_frame hf
    refine finishLocal_effect (.inl ⟨?_, ?_, ?_⟩) ?_ ?_ (fun _ => rfl) hf
    · simp only [view, hpc]
      rfl
    · simp only [view, hpc]
      rfl
    · simp [ordered, ho]
    · simp only [hpc]
      rfl
    · simp [ownProposals, hp]
  · refine .quiet ?_ rfl rfl fun _ => rfl
    simp only [view, hpc]
    rfl

theorem syncReceived_effect (h : l.syncReceived cfg = some (l', outs)) :
    Effect cfg l none l' outs := by
  obtain ⟨encoded, hpc, ⟨-, hr⟩ | ⟨-, rfl, rfl⟩⟩ := syncReceived_cases h
  · obtain ⟨hview, ho, hp, hs⟩ := handleRemoteBatch_quiet
      (by rw [hpc]; rfl) (by rw [hpc]; rfl) (by rw [hpc]; rfl) hr
    exact .quiet hview ho hp hs
  · refine .quiet ?_ rfl rfl fun _ => rfl
    simp only [view, hpc]
    rfl

/-- Every step of a leader has one of the effects. -/
theorem effect {e : Event} (h : l.step cfg e = some (l', outs)) :
    Effect cfg l e.received l' outs := by
  cases e with
  | append blockid => cases h; exact .quiet rfl rfl rfl fun _ => rfl
  | drawGuid => cases h; exact .quiet rfl rfl rfl fun _ => rfl
  | receive message =>
      simp only [step, Option.ite_none_right_eq_some, Option.some.injEq] at h
      have heff : Effect cfg l (some message) (l.receiveMessage cfg message).1
          (l.receiveMessage cfg message).2 := .receive message
      rw [h.2] at heff
      exact heff
  | gotAck version =>
      simp only [step, Option.map_eq_some_iff, Prod.mk.injEq] at h
      obtain ⟨_, hg, rfl, rfl⟩ := h
      obtain ⟨_, _, _, source, hpc, rfl⟩ := gotAck_cases hg
      refine .quiet ?_ rfl rfl fun _ => rfl
      simp only [view, hpc]
      cases source <;> rfl
  | pick => exact pick_effect h
  | generate => exact generate_effect h
  | finish => exact finish_effect h
  | syncTest => exact syncTest_effect h
  | syncReceived => exact syncReceived_effect h

end Leader

end Calvin.LocalPaxos
