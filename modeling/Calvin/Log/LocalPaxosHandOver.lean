import Calvin.Log.LocalPaxosEffects

/-!
# Handing the local log over

What the effects of a step mean for the exchange with the other replicas: each
reader of the local log stands where its replica has been handed the log up to
(`View.handed`), and moves exactly by what is sent.
-/

namespace Calvin.LocalPaxos

open Function

/-- The replica that a strong leader hands every sequence by `SYNCHRONIZE`. -/
def Config.Closed (cfg : Config) (t : Nat) : Prop :=
  cfg.strong = true ∧ t = closedReplica cfg.localReplica

/-- A replica that is handed the local log by `NEW_SEQUENCE`. -/
def Config.Open (cfg : Config) (t : Nat) : Prop :=
  t ≠ cfg.localReplica ∧ ¬ cfg.Closed t

theorem closedReplica_ne (r : Nat) : closedReplica r ≠ r := by
  unfold closedReplica
  split <;> omega

/-- What a replica has been handed of the local log. -/
def View.handed (v : View) (t : Nat) : List Sequence :=
  v.localLog.sequences.take (v.readers t).position

/-- The local log is numbered 1, 2, ... and no reader is ahead of it. -/
structure Readable (log : LocalMemLog) (readers : Nat → LogReader) : Prop where
  versions : log.entries.map Prod.fst = List.range' 1 log.entries.length
  behind : ∀ t, (readers t).position ≤ log.entries.length

/-- The well-formed views of the leader of a configuration. -/
structure View.Wf (cfg : Config) (v : View) : Prop where
  readable : Readable v.localLog v.readers
  next : v.localNextVersion = v.localLog.entries.length + v.own.length + v.waiting.length
  todo : ∀ t ∈ v.todo, cfg.Open t
  foreign : ∀ p ∈ v.pending, p.2 ≠ cfg.localReplica

theorem View.Wf.init (cfg : Config) : View.Wf cfg (Leader.view {}) where
  readable := ⟨rfl, fun _ => Nat.zero_le _⟩
  next := rfl
  todo _ h := (List.not_mem_nil h).elim
  foreign _ h := (List.not_mem_nil h).elim

/-- What a leader may assume of the messages of the others. -/
def Accepts (cfg : Config) (v : View) : LogMessage → Prop
  | .newSequence fromReplica _ _ => cfg.Open fromReplica
  | .newSequenceAck fromReplica acked =>
      cfg.Open fromReplica ∧ acked ≤ (v.readers fromReplica).position
  | .synchronize fromReplica _ => fromReplica ≠ cfg.localReplica
  | .mrTxnsBatch .. | .synchronizeAck | .paxosCommit _ => True

/-- What a leader guarantees of the messages it sends to a replica, where `v'`
is its view afterwards and `received` what it reacts to. -/
def Sends (cfg : Config) (v' : View) (received : Option LogMessage) (t : Nat)
    (message : LogMessage) : Prop :=
  t ≠ cfg.localReplica ∧ match message with
  | .newSequence fromReplica latest _ =>
      fromReplica = cfg.localReplica ∧ cfg.Open t ∧ latest ≤ (v'.readers t).position
  | .newSequenceAck fromReplica acked =>
      fromReplica = cfg.localReplica ∧ ∃ data, received = some (.newSequence t acked data)
  | .synchronize fromReplica _ => fromReplica = cfg.localReplica ∧ cfg.Closed t
  | .mrTxnsBatch .. => False
  | .synchronizeAck | .paxosCommit _ => True

namespace Leader

variable {cfg : Config} {l l' : Leader} {outs : List Output}

/-! ## Reading the local log -/

@[simp] theorem readNew_localLog (t latest : Nat) :
    (l.readNew t latest).1.localLog = l.localLog := rfl

theorem readNew_readers_self (t latest : Nat) :
    (l.readNew t latest).1.readersForLocalLog t = ((l.readersForLocalLog t).drain l.localLog).1 :=
  update_self ..

theorem readNew_readers_of_ne {t u : Nat} (latest : Nat) (h : u ≠ t) :
    (l.readNew t latest).1.readersForLocalLog u = l.readersForLocalLog u :=
  update_of_ne h ..

/-- Reading all new entries for a replica hands exactly these over, and leaves
the other readers. -/
theorem readNew_handed (hr : Readable l.localLog l.readersForLocalLog) (t latest : Nat) :
    Readable l.localLog (l.readNew t latest).1.readersForLocalLog ∧
      (∀ u, (l.readersForLocalLog u).position ≤
        ((l.readNew t latest).1.readersForLocalLog u).position) ∧
      (∀ u, (l.readNew t latest).1.view.handed u =
        l.view.handed u ++ if t = u then (l.readNew t latest).2.2 else []) := by
  have hbehind : (l.readersForLocalLog t).position ≤ l.localLog.entries.length := hr.behind t
  obtain ⟨hpos, hes⟩ := LogReader.drain_spec hbehind
  refine ⟨⟨hr.versions, fun u => ?_⟩, fun u => ?_, fun u => ?_⟩
  · by_cases hu : u = t
    · subst hu
      have hend : ((l.readNew u latest).1.readersForLocalLog u).position =
          l.localLog.entries.length := by
        rw [readNew_readers_self, hpos]
      exact le_of_eq hend
    · show ((l.readNew t latest).1.readersForLocalLog u).position ≤ _
      rw [readNew_readers_of_ne latest hu]
      exact hr.behind u
  · by_cases hu : u = t
    · subst hu
      rw [readNew_readers_self, hpos]
      exact hbehind
    · rw [readNew_readers_of_ne latest hu]
  · by_cases hu : u = t
    · subst hu
      show (l.localLog.sequences.take ((l.readNew u latest).1.readersForLocalLog u).position) = _
      rw [readNew_readers_self, hpos, if_pos rfl]
      simp only [readNew, hes, View.handed, view, LocalMemLog.sequences, List.map_drop]
      rw [List.take_append_drop, List.take_of_length_le (by simp)]
    · show (l.localLog.sequences.take ((l.readNew t latest).1.readersForLocalLog u).position) = _
      rw [readNew_readers_of_ne latest hu, if_neg (Ne.symm hu), List.append_nil]
      rfl

/-- The version that goes with the entries read: the given one if there are
none, and else the new position of the reader, since the log is numbered. -/
theorem readNew_latest (hr : Readable l.localLog l.readersForLocalLog) (t latest : Nat) :
    ((l.readNew t latest).2.1 = latest ∧ (l.readNew t latest).2.2 = []) ∨
      ((l.readNew t latest).2.1 = ((l.readNew t latest).1.readersForLocalLog t).position ∧
        (l.readersForLocalLog t).position <
          ((l.readNew t latest).1.readersForLocalLog t).position) := by
  have hbehind : (l.readersForLocalLog t).position ≤ l.localLog.entries.length := hr.behind t
  obtain ⟨hpos, hes⟩ := LogReader.drain_spec hbehind
  rcases Nat.lt_or_eq_of_le hbehind with hlt | heq
  · right
    have hv : l.localLog.entries.map Prod.fst = List.range' 1 l.localLog.entries.length :=
      hr.versions
    have hlast :
        (l.localLog.entries.drop (l.readersForLocalLog t).position).getLast?.map Prod.fst =
          some l.localLog.entries.length := by
      rw [List.getLast?_drop, if_neg (by omega), ← List.getLast?_map, hv, List.getLast?_range',
        if_neg (by omega)]
      congr 1
      omega
    rw [readNew_readers_self, hpos]
    exact ⟨by simp only [readNew, hes, hlast, Option.getD_some], hlt⟩
  · left
    simp only [readNew, hes, heq, List.drop_length]
    exact ⟨rfl, rfl⟩

/-- Sending the local log to some replicas: exactly the entries between the old
and the new position of each reader go out. -/
theorem sendSequences_handed {check : Bool} {targets : List Nat}
    (hr : Readable l.localLog l.readersForLocalLog)
    (h : sendSequences cfg check l targets = some (l', outs)) :
    Readable l'.localLog l'.readersForLocalLog ∧
      (∀ t, (l.readersForLocalLog t).position ≤ (l'.readersForLocalLog t).position) ∧
      (∀ t, l'.view.handed t = l.view.handed t ++ payload (sentTo t outs)) ∧
      (∀ t, ∀ m ∈ sentTo t outs, t ∈ targets ∧ ∃ latest data,
        m = .newSequence cfg.localReplica latest data ∧
          latest ≤ (l'.readersForLocalLog t).position) := by
  induction targets generalizing l outs with
  | nil =>
      cases h
      exact ⟨hr, fun _ => le_rfl, fun _ => by simp, fun _ _ hm => (List.not_mem_nil hm).elim⟩
  | cons replica rest ih =>
      simp only [sendSequences] at h
      by_cases hc : check = true ∧ (l.readNew replica 0).2.1 = 0
      · rw [if_pos hc] at h
        cases h
      · rw [if_neg hc] at h
        simp only [Option.map_eq_some_iff, Prod.mk.injEq] at h
        obtain ⟨⟨l₂, outs₂⟩, hrest, rfl, rfl⟩ := h
        obtain ⟨hr₁, hmono₁, hhanded₁⟩ := readNew_handed hr replica 0
        obtain ⟨hr₂, hmono₂, hhanded₂, hsent⟩ := ih hr₁ hrest
        refine ⟨hr₂, fun t => (hmono₁ t).trans (hmono₂ t), fun t => ?_, fun t m hm => ?_⟩
        · rw [hhanded₂ t, hhanded₁ t, sentTo_peer, payload_append, List.append_assoc]
          by_cases ht : replica = t <;> simp [ht, LogMessage.sequences, Function.comp_def]
        · rw [sentTo_peer, List.mem_append] at hm
          rcases hm with hm | hm
          · by_cases ht : replica = t
            · subst ht
              rw [if_pos rfl, List.mem_singleton] at hm
              refine ⟨List.mem_cons_self, _, _, hm, ?_⟩
              rcases readNew_latest hr replica 0 with ⟨h0, -⟩ | ⟨h1, -⟩
              · rw [h0]
                exact Nat.zero_le _
              · rw [h1]
                exact hmono₂ replica
            · rw [if_neg ht] at hm
              cases hm
          · obtain ⟨ht, hex⟩ := hsent t m hm
            exact ⟨List.mem_cons_of_mem _ ht, hex⟩

/-- The targets of the first hand-over, and all that wait later, are open. -/
theorem open_firstTargets {t : Nat} (h : t ∈ firstTargets cfg) : cfg.Open t := by
  simp only [firstTargets, List.mem_filter, decide_eq_true_eq] at h
  exact h.2

theorem mem_insertTodo {todo : List Nat} {replica t : Nat} (h : t ∈ insertTodo todo replica) :
    t = replica ∨ t ∈ todo := by
  unfold insertTodo at h
  split at h
  · exact .inr h
  · simpa using h

/-! ## Receiving -/

/-- Receiving puts the sequences of the message at the end of the queue and
leaves the leader's own sequence. -/
theorem receiveMessage_view (cfg : Config) (l : Leader) (message : LogMessage) :
    (l.receiveMessage cfg message).1.view.pending = l.view.pending ++ message.sequences ∧
      (l.receiveMessage cfg message).1.view.own = l.view.own ∧
      (l.receiveMessage cfg message).1.view.waiting = l.view.waiting ∧
      (l.receiveMessage cfg message).1.view.localLog = l.view.localLog ∧
      (l.receiveMessage cfg message).1.view.localNextVersion = l.view.localNextVersion := by
  cases message with
  | newSequence | synchronize => exact ⟨(List.append_assoc ..).symm, rfl, rfl, rfl, rfl⟩
  | mrTxnsBatch | synchronizeAck | paxosCommit =>
      exact ⟨(List.append_nil _).symm, rfl, rfl, rfl, rfl⟩
  | newSequenceAck r v =>
      by_cases hv : (l.readNew r v).2.1 = v
      · rw [receiveMessage_ack_eq hv]
        exact ⟨(List.append_nil _).symm, rfl, rfl, rfl, rfl⟩
      · rw [receiveMessage_ack_ne hv]
        exact ⟨(List.append_nil _).symm, rfl, rfl, rfl, rfl⟩

/-- An acceptable message makes the leader hand over what is new, or nothing. -/
theorem receiveMessage_handed (hw : l.view.Wf cfg) (message : LogMessage)
    (ha : Accepts cfg l.view message) :
    Readable (l.receiveMessage cfg message).1.view.localLog
        (l.receiveMessage cfg message).1.view.readers ∧
      (∀ t ∈ (l.receiveMessage cfg message).1.view.todo, cfg.Open t) ∧
      (∀ t, (l.view.readers t).position ≤
        ((l.receiveMessage cfg message).1.view.readers t).position) ∧
      (∀ t, (l.receiveMessage cfg message).1.view.handed t =
        l.view.handed t ++ payload (sentTo t (l.receiveMessage cfg message).2)) ∧
      (∀ t, ¬ cfg.Open t → payload (sentTo t (l.receiveMessage cfg message).2) = []) ∧
      (∀ t, ∀ m ∈ sentTo t (l.receiveMessage cfg message).2,
        Sends cfg (l.receiveMessage cfg message).1.view (some message) t m) := by
  cases message with
  | mrTxnsBatch | synchronizeAck | paxosCommit =>
      exact ⟨hw.readable, hw.todo, fun _ => le_rfl, fun _ => (List.append_nil _).symm,
        fun _ _ => rfl, fun _ _ hm => (List.not_mem_nil hm).elim⟩
  | newSequence r v d =>
      refine ⟨hw.readable, hw.todo, fun _ => le_rfl, fun t => ?_, fun t _ => ?_, fun t m hm => ?_⟩
      · by_cases ht : r = t <;> simp [receiveMessage, ht, LogMessage.sequences] <;> rfl
      · by_cases ht : r = t <;> simp [receiveMessage, ht, LogMessage.sequences]
      · by_cases ht : r = t
        · subst ht
          simp only [receiveMessage, sentTo_peer, sentTo_nil, if_true, List.append_nil,
            List.mem_singleton] at hm
          subst hm
          exact ⟨ha.1, rfl, d, rfl⟩
        · simp [receiveMessage, ht] at hm
  | synchronize r d =>
      refine ⟨hw.readable, hw.todo, fun _ => le_rfl, fun t => ?_, fun t _ => ?_, fun t m hm => ?_⟩
      · by_cases ht : r = t <;> simp [receiveMessage, ht, LogMessage.sequences] <;> rfl
      · by_cases ht : r = t <;> simp [receiveMessage, ht, LogMessage.sequences]
      · by_cases ht : r = t
        · subst ht
          simp only [receiveMessage, sentTo_peer, sentTo_nil, if_true, List.append_nil,
            List.mem_singleton] at hm
          subst hm
          exact ⟨ha, trivial⟩
        · simp [receiveMessage, ht] at hm
  | newSequenceAck r v =>
      obtain ⟨hopen, hv⟩ := ha
      obtain ⟨hr, hmono, hhanded⟩ := readNew_handed hw.readable r v
      by_cases heq : (l.readNew r v).2.1 = v
      · -- nothing new: the reader is where it was, and the replica waits
        have hnone : (l.readNew r v).2.2 = [] := by
          rcases readNew_latest hw.readable r v with ⟨-, h⟩ | ⟨h1, h2⟩
          · exact h
          · exfalso
            have hv' : v ≤ (l.readersForLocalLog r).position := hv
            omega
        rw [receiveMessage_ack_eq heq]
        refine ⟨hr, fun t ht => ?_, hmono, fun t => ?_, fun _ _ => rfl,
          fun _ _ hm => (List.not_mem_nil hm).elim⟩
        · rcases mem_insertTodo ht with rfl | ht
          · exact hopen
          · exact hw.todo t ht
        · have hh := hhanded t
          rw [hnone, ite_self] at hh
          exact hh
      · rw [receiveMessage_ack_ne heq]
        refine ⟨hr, hw.todo, hmono, fun t => ?_, fun t hclosed => ?_, fun t m hm => ?_⟩
        · rw [hhanded t]
          by_cases ht : r = t <;> simp [ht, LogMessage.sequences, Function.comp_def]
        · have ht : r ≠ t := fun h => hclosed (h ▸ hopen)
          simp [ht]
        · by_cases ht : r = t
          · subst ht
            simp only [sentTo_peer, sentTo_nil, if_true, List.append_nil, List.mem_singleton] at hm
            subst hm
            refine ⟨hopen.1, rfl, hopen, ?_⟩
            rcases readNew_latest hw.readable r v with ⟨h, -⟩ | ⟨h, -⟩
            · exact absurd h heq
            · exact le_of_eq h
          · simp [ht] at hm

end Leader

/-! ## The exchange contract of a step -/

/-- What a step of a leader means for the exchange, between its views before
and after, the message it receives and what it sends. -/
structure Exchanges (cfg : Config) (v : View) (received : Option LogMessage) (v' : View)
    (outs : List Output) : Prop where
  wf : v'.Wf cfg
  /-- What came in from an origin is ordered in order, or still pending. -/
  remote : ∀ o, o ≠ cfg.localReplica → only o (ordered outs) ++ only o v'.pending =
    only o v.pending ++ only o (received.elim [] LogMessage.sequences)
  /-- Own sequences are ordered as they were proposed. -/
  own : only cfg.localReplica (ordered outs) ++ v'.own = v.own ++ ownProposals outs
  /-- Own sequences are logged as they were ordered. -/
  logged : v'.localLog.sequences ++ v'.waiting =
    v.localLog.sequences ++ v.waiting ++ only cfg.localReplica (ordered outs)
  position : ∀ t, (v.readers t).position ≤ (v'.readers t).position
  /-- An open replica is handed exactly what the reader moves over. -/
  handed : ∀ t, cfg.Open t → v'.handed t = v.handed t ++ payload (sentTo t outs)
  /-- The closed replica is handed what is ordered. -/
  closed : ∀ t, cfg.Closed t → payload (sentTo t outs) = only cfg.localReplica (ordered outs)
  sends : ∀ t, ∀ m ∈ sentTo t outs, Sends cfg v' received t m

section

variable {cfg : Config} {l l' : Leader} {outs : List Output} {received : Option LogMessage}

/-- A step that changes nothing the exchange depends on. -/
private theorem exchanges_quiet (hw : l.view.Wf cfg) (hview : l'.view = l.view)
    (ho : ordered outs = []) (hp : ownProposals outs = []) (hs : ∀ r, sentTo r outs = []) :
    Exchanges cfg l.view none l'.view outs := by
  rw [hview]
  refine ⟨hw, ?_, ?_, ?_, fun _ => le_rfl, ?_, ?_, ?_⟩
  · simp [ho]
  · simp [ho, hp]
  · simp [ho]
  · simp [hs]
  · simp [hs, ho]
  · simp [hs]

private theorem exchanges_receive (hw : l.view.Wf cfg) (message : LogMessage)
    (ha : Accepts cfg l.view message) :
    Exchanges cfg l.view (some message) (l.receiveMessage cfg message).1.view
      (l.receiveMessage cfg message).2 := by
  obtain ⟨hpending, hown, hwaiting, hlog, hnext⟩ :=
    Leader.receiveMessage_view cfg l message
  obtain ⟨hr, htodo, hmono, hhanded, hclosed, hsends⟩ := Leader.receiveMessage_handed hw message ha
  obtain ⟨-, ho, hp⟩ := Leader.receiveMessage_frame cfg l message
  refine ⟨⟨hr, ?_, htodo, ?_⟩, ?_, ?_, ?_, hmono, fun t _ => hhanded t, ?_, hsends⟩
  · rw [hnext, hlog, hown, hwaiting]
    exact hw.next
  · intro p hmem
    rw [hpending, List.mem_append] at hmem
    rcases hmem with hmem | hmem
    · exact hw.foreign p hmem
    · cases message with
      | newSequence r v d =>
          obtain ⟨_, -, rfl⟩ := List.mem_map.mp hmem
          exact ha.1
      | synchronize r d =>
          rw [List.mem_singleton.mp hmem]
          exact ha
      | mrTxnsBatch | newSequenceAck | synchronizeAck | paxosCommit => cases hmem
  · intro o _
    simp [ordered, ho, hpending]
  · simp [ordered, ho, hown, ownProposals, hp]
  · rw [hlog, hwaiting]
    simp [ordered, ho]
  · intro t ht
    simp [hclosed t fun h => h.2 ht, ordered, ho]

private theorem exchanges_logOwn {l₁ : Leader} {sent : List Output} {encoded : Sequence}
    {todo targets : List Nat} {check : Bool} (hw : l.view.Wf cfg)
    (hheld : (l.view.own = [] ∧ l.view.waiting = [encoded] ∧ ordered outs = []) ∨
      (cfg.strong = false ∧ l.view.own = [encoded] ∧ l.view.waiting = [] ∧
        ordered outs = [(encoded, cfg.localReplica)]))
    (hpending : l.view.pending = l.sequencesOtherReplicas)
    (htodo : (targets = Leader.firstTargets cfg ∧ todo = l.newSequenceTodo) ∨
      (targets = l.newSequenceTodo ∧ todo = []))
    (hlogged : l₁.view = (l.logged encoded todo).view)
    (hsend : Leader.sendSequences cfg check l₁ targets = some (l', sent))
    (hp : ownProposals outs = []) (hs : ∀ r, sentTo r outs = sentTo r sent) :
    Exchanges cfg l.view none l'.view outs := by
  have hlog : l₁.localLog = (l.logged encoded todo).localLog := congrArg View.localLog hlogged
  have hreaders : l₁.readersForLocalLog = l.readersForLocalLog := congrArg View.readers hlogged
  have hbehind : ∀ t, (l.readersForLocalLog t).position ≤ l.localLog.entries.length :=
    hw.readable.behind
  have hnext : l.localNextVersion = l.localLog.entries.length + 1 := by
    have hn := hw.next
    rcases hheld with ⟨h1, h2, -⟩ | ⟨-, h1, h2, -⟩ <;> rw [h1, h2] at hn <;> exact hn
  have hr₁ : Readable l₁.localLog l₁.readersForLocalLog := by
    rw [hlog, hreaders]
    refine ⟨?_, fun t => ?_⟩
    · have hv : l.localLog.entries.map Prod.fst = List.range' 1 l.localLog.entries.length :=
        hw.readable.versions
      simp [Leader.logged, hv, hnext, List.range'_concat, Nat.add_comm]
    · have := hbehind t
      simp only [Leader.logged, List.length_append, List.length_singleton]
      omega
  obtain ⟨⟨rd, hl'⟩, -, -⟩ := Leader.sendSequences_frame hsend
  obtain ⟨hr', hmono, hhanded, hsent⟩ := Leader.sendSequences_handed hr₁ hsend
  have hview : l'.view =
      { (l.logged encoded todo).view with readers := l'.readersForLocalLog } := by
    rw [← hlogged, hl']
    rfl
  rw [Leader.view_logged] at hview
  have hopen : ∀ t ∈ targets, cfg.Open t := by
    rcases htodo with ⟨rfl, -⟩ | ⟨rfl, -⟩
    · exact fun t ht => Leader.open_firstTargets ht
    · exact hw.todo
  have hclosed : ∀ t, ¬ cfg.Open t → sentTo t sent = [] := fun t ht =>
    List.eq_nil_iff_forall_not_mem.mpr fun m hm => ht (hopen t (hsent t m hm).1)
  refine ⟨⟨?_, ?_, ?_, ?_⟩, ?_, ?_, ?_, ?_, ?_, ?_, ?_⟩
  · exact hr'
  · rw [hview]
    simp [hnext]
  · rw [hview]
    rcases htodo with ⟨-, rfl⟩ | ⟨-, rfl⟩
    · exact hw.todo
    · exact fun _ h => (List.not_mem_nil h).elim
  · rw [hview]
    dsimp only
    rw [← hpending]
    exact hw.foreign
  · intro o ho
    have hnone : only o (ordered outs) = [] := by
      rcases hheld with ⟨-, -, h⟩ | ⟨-, -, -, h⟩
      · rw [h]; rfl
      · simp [h, Ne.symm ho]
    rw [hnone, hview, hpending]
    simp
  · rw [hp, hview]
    rcases hheld with ⟨h1, -, h⟩ | ⟨-, h1, -, h⟩ <;> simp [h, h1]
  · rw [hview]
    rcases hheld with ⟨-, h2, h⟩ | ⟨-, -, h2, h⟩ <;> simp [h, h2, LocalMemLog.sequences]
  · intro t
    have := hmono t
    rwa [hreaders] at this
  · intro t _
    have hsame : l₁.view.handed t = l.view.handed t := by
      simp only [View.handed, Leader.view, hlog, hreaders, Leader.logged, LocalMemLog.sequences,
        List.map_append]
      exact List.take_append_of_le_length (by simpa using hbehind t)
    rw [hhanded t, hsame, hs t]
  · intro t ht
    rw [hs t, hclosed t fun h => h.2 ht]
    rcases hheld with ⟨-, -, h⟩ | ⟨hweak, -⟩
    · rw [h]; rfl
    · rw [ht.1] at hweak
      cases hweak
  · intro t m hm
    rw [hs t] at hm
    obtain ⟨ht, latest, data, rfl, hle⟩ := hsent t m hm
    exact ⟨(hopen t ht).1, rfl, hopen t ht, hle⟩

/-- Every step of a leader with a well-formed view, on an acceptable message,
meets the contract. -/
theorem Effect.exchanges (he : Effect cfg l received l' outs) (hw : l.view.Wf cfg)
    (ha : ∀ m ∈ received, Accepts cfg l.view m) :
    Exchanges cfg l.view received l'.view outs := by
  cases he with
  | quiet hview ho hp hs => exact exchanges_quiet hw hview ho hp hs
  | receive message => exact exchanges_receive hw message (ha message rfl)
  | logOwn encoded todo targets check hheld hpending htodo hlogged hsend hp hs =>
      exact exchanges_logOwn hw hheld hpending htodo hlogged hsend hp hs
  | propose encoded hown hwaiting hview ho hp hs =>
      rw [hview]
      refine ⟨⟨hw.readable, ?_, hw.todo, hw.foreign⟩, ?_, ?_, ?_, fun _ => le_rfl, ?_, ?_, ?_⟩
      · have hn := hw.next
        simp only [hown, hwaiting] at hn ⊢
        simpa using hn
      · simp [ho]
      · simp [ho, hp, hown]
      · simp [ho]
      · intro t _
        simp [hs]
        rfl
      · simp [hs, ho]
      · simp [hs]
  | orderRemote p rest hpending hview ho hp hs =>
      have hp0 : p.2 ≠ cfg.localReplica := hw.foreign p (by rw [hpending]; exact List.mem_cons_self)
      rw [hview]
      refine ⟨⟨hw.readable, hw.next, hw.todo, fun q hq => hw.foreign q ?_⟩, ?_, ?_, ?_,
        fun _ => le_rfl, ?_, ?_, ?_⟩
      · rw [hpending]
        exact List.mem_cons_of_mem _ hq
      · intro o _
        simp [ho, hpending]
      · simp [ho, hp, hp0]
      · simp [ho, hp0]
      · intro t _
        simp [hs]
        rfl
      · simp [hs, ho, hp0]
      · simp [hs]
  | orderOwn encoded hstrong hown hwaiting hview ho hp hs =>
      rw [hview]
      refine ⟨⟨hw.readable, ?_, hw.todo, hw.foreign⟩, ?_, ?_, ?_, fun _ => le_rfl, ?_, ?_, ?_⟩
      · have hn := hw.next
        simp only [hown, hwaiting] at hn ⊢
        simpa using hn
      · intro o ho'
        simp [ho, Ne.symm ho']
      · simp [ho, hp, hown]
      · simp [ho, hwaiting]
      · intro t ht
        have hne : closedReplica cfg.localReplica ≠ t := fun h =>
          ht.2 ⟨hstrong, h.symm⟩
        simp [hs, hne]
        rfl
      · intro t ht
        have heq : closedReplica cfg.localReplica = t := ht.2.symm
        simp [hs, heq, ho, LogMessage.sequences]
      · intro t m hm
        rw [hs t] at hm
        split at hm
        · rename_i heq
          rw [List.mem_singleton.mp hm]
          exact ⟨heq ▸ closedReplica_ne cfg.localReplica, rfl, hstrong, heq.symm⟩
        · cases hm

end

end Calvin.LocalPaxos
