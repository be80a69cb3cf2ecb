import Calvin.Lib.Links
import Calvin.Scheduler.Workers

/-!
# Who a message is for

With one channel for each participant of a node, a message that has left the
network is at the worker that waits for it.

* `*_cases`: what each step does;
* `Linked`: the channels and the workers of the participants;
* `inFlight_*`: the messages for a participant through each step.
-/

namespace Calvin.Workers

open Function Lib ReadExchange

variable {cfg : ClusterConfig} {mode : Nat} {txns : Nat → TxnProto} {s s' : Workers}

/-! ## The steps -/

theorem start_cases {thread : Nat} {p : Part} {store : Key → Record}
    (h : start cfg mode txns s thread p store = some s') :
    p.2 ∈ participants cfg mode (txns p.1) ∧ p ∉ s.started ∧
      ∃ manager sent, created cfg mode (txns p.1) (fun _ => store) p.2 = (manager, sent) ∧
        ((manager.readyToExecute (txns p.1) = true ∧
            s' = { s with
              started := p :: s.started
              network := s.network ++ sent
              finished := p :: s.finished }) ∨
          manager.readyToExecute (txns p.1) = false ∧ s' = { s with
            started := p :: s.started
            network := s.network ++ sent
            multiplexers := update s.multiplexers p.2.1
              { s.multiplexers p.2.1 with
                linkUnlinkQueue := (s.multiplexers p.2.1).linkUnlinkQueue ++
                  [.link (channel txns p) thread] }
            workers := update s.workers (p.2.1, thread)
              { messages := (s.workers (p.2.1, thread)).messages
                activeTxns := update (s.workers (p.2.1, thread)).activeTxns (channel txns p)
                  (some (p, manager)) }
            threadOf := update s.threadOf p thread }) := by
  unfold start at h
  rw [Option.ite_none_right_eq_some] at h
  obtain ⟨⟨hp, hnew⟩, h⟩ := h
  refine ⟨hp, hnew, _, _, rfl, ?_⟩
  dsimp only at h
  split at h
  · rename_i hready
    exact .inl ⟨hready, (Option.some.inj h).symm⟩
  · rename_i hready
    exact .inr ⟨eq_false_of_ne_true hready, (Option.some.inj h).symm⟩

theorem receive_cases {m i : Nat} (h : receive cfg s m i = some s') :
    ∃ message, s.network[i]? = some message ∧
      message.destinationNode = cfg.lookupMachineId m cfg.localReplicaId ∧
      ((∃ thread, (s.multiplexers m).channelResults message.destinationChannel = some thread ∧
          s' = { s with
            network := s.network.eraseIdx i
            workers := update s.workers (m, thread)
              { s.workers (m, thread) with
                messages := (s.workers (m, thread)).messages ++ [message] } }) ∨
        s' = { s with
          network := s.network.eraseIdx i
          multiplexers := update s.multiplexers m
            { s.multiplexers m with
              undeliveredMessages := update (s.multiplexers m).undeliveredMessages
                message.destinationChannel
                ((s.multiplexers m).undeliveredMessages message.destinationChannel ++
                  [message]) } }) := by
  unfold receive at h
  rw [Option.bind_eq_some_iff] at h
  obtain ⟨message, hmessage, h⟩ := h
  rw [Option.ite_none_right_eq_some] at h
  obtain ⟨hnode, h⟩ := h
  refine ⟨message, hmessage, hnode, ?_⟩
  dsimp only at h
  split at h
  · rename_i thread hlinked
    exact .inl ⟨thread, hlinked, (Option.some.inj h).symm⟩
  · exact .inr (Option.some.inj h).symm

theorem linkUnlink_cases {m : Nat} (h : linkUnlink s m = some s') :
    (∃ c thread rest, (s.multiplexers m).linkUnlinkQueue = .link c thread :: rest ∧
      s' = { s with
        multiplexers := update s.multiplexers m
          { linkUnlinkQueue := rest
            channelResults := update (s.multiplexers m).channelResults c (some thread)
            undeliveredMessages := update (s.multiplexers m).undeliveredMessages c [] }
        workers := update s.workers (m, thread)
          { s.workers (m, thread) with
            messages := (s.workers (m, thread)).messages ++
              (s.multiplexers m).undeliveredMessages c } }) ∨
    ∃ c rest, (s.multiplexers m).linkUnlinkQueue = .unlink c :: rest ∧
      s' = { s with
        multiplexers := update s.multiplexers m
          { s.multiplexers m with
            linkUnlinkQueue := rest
            channelResults := update (s.multiplexers m).channelResults c none } } := by
  unfold linkUnlink at h
  dsimp only at h
  split at h
  · cases h
  · rename_i c thread rest hqueue
    exact .inl ⟨c, thread, rest, hqueue, (Option.some.inj h).symm⟩
  · rename_i c rest hqueue
    exact .inr ⟨c, rest, hqueue, (Option.some.inj h).symm⟩

theorem gotMessage_cases {m thread : Nat} (h : gotMessage txns s m thread = some s') :
    ∃ message rest p manager, (s.workers (m, thread)).messages = message :: rest ∧
      (s.workers (m, thread)).activeTxns message.destinationChannel = some (p, manager) ∧
      (((manager.handleReadResult message.entries).readyToExecute (txns p.1) = true ∧
          s' = { s with
            workers := update s.workers (m, thread)
              { messages := rest
                activeTxns := update (s.workers (m, thread)).activeTxns
                  message.destinationChannel none }
            multiplexers := update s.multiplexers m
              { s.multiplexers m with
                linkUnlinkQueue := (s.multiplexers m).linkUnlinkQueue ++
                  [.unlink message.destinationChannel] }
            finished := p :: s.finished
            handled := update s.handled p (s.handled p ++ [message]) }) ∨
        (manager.handleReadResult message.entries).readyToExecute (txns p.1) = false ∧ s' = { s with
          workers := update s.workers (m, thread)
            { messages := rest
              activeTxns := update (s.workers (m, thread)).activeTxns
                message.destinationChannel
                (some (p, manager.handleReadResult message.entries)) }
          handled := update s.handled p (s.handled p ++ [message]) }) := by
  unfold gotMessage at h
  dsimp only at h
  split at h
  · cases h
  · rename_i message rest hqueue
    obtain ⟨⟨p, manager⟩, hactive, h⟩ := Option.map_eq_some_iff.mp h
    refine ⟨message, rest, p, manager, hqueue, hactive, ?_⟩
    dsimp only at h
    split at h
    · rename_i hready
      refine .inl ⟨hready, ?_⟩
      rw [← h]
      simp [request, setActive, setWorker, setMultiplexer]
    · rename_i hready
      refine .inr ⟨eq_false_of_ne_true hready, ?_⟩
      rw [← h]
      simp [setActive, setWorker]

/-! ## Channels and workers -/

/-- The channel at this node belongs to a participant of this worker. -/
def Owns (txns : Nat → TxnProto) (s : Workers) (m thread : Nat) (c : Channel) : Prop :=
  ∃ p ∈ s.started, p.2.1 = m ∧ channel txns p = c ∧ s.threadOf p = thread

/-- A participant that waits at this worker, on this channel. -/
def Waits (txns : Nat → TxnProto) (s : Workers) (a : Nat × Nat) (c : Channel) (p : Part) : Prop :=
  p ∈ s.started ∧ p ∉ s.finished ∧ (p.2.1, s.threadOf p) = a ∧ channel txns p = c

structure Served (owns : Nat → Channel → Prop) (x : Multiplexer) : Prop where
  asked : ∀ c thread, .link c thread ∈ x.linkUnlinkQueue → owns thread c
  linked : ∀ c thread, x.channelResults c = some thread → owns thread c
  kept : ∀ c, ∀ message ∈ x.undeliveredMessages c, message.destinationChannel = c

structure Works (owns : Channel → Prop) (waits : Channel → Part → Prop) (w : Worker) : Prop where
  queued : ∀ message ∈ w.messages, owns message.destinationChannel
  active : ∀ c p manager, w.activeTxns c = some (p, manager) → waits c p

structure Linked (cfg : ClusterConfig) (mode : Nat) (txns : Nat → TxnProto) (s : Workers) :
    Prop where
  valid : ∀ p ∈ s.started, p.2 ∈ participants cfg mode (txns p.1)
  finished : ∀ p ∈ s.finished, p ∈ s.started
  served : ∀ m, Served (Owns txns s m) (s.multiplexers m)
  works : ∀ a, Works (Owns txns s a.1 a.2) (Waits txns s a) (s.workers a)
  waiting : ∀ p ∈ s.started, p ∉ s.finished → ∃ manager,
    (s.workers (p.2.1, s.threadOf p)).activeTxns (channel txns p) = some (p, manager)

theorem linked_init : Linked cfg mode txns {} where
  valid := by simp
  finished := by simp
  served m := ⟨by simp, by simp, by simp⟩
  works a := ⟨by simp, by simp⟩
  waiting := by simp

/-- With distinct channels, the owner of a participant's channel is itself. -/
theorem Linked.owner (h : Linked cfg mode txns s) (hd : DistinctChannels cfg mode txns) {p : Part}
    (hp : p.2 ∈ participants cfg mode (txns p.1)) {thread : Nat}
    (ho : Owns txns s p.2.1 thread (channel txns p)) : p ∈ s.started ∧ s.threadOf p = thread := by
  obtain ⟨q, hq, hnode, hchannel, hthread⟩ := ho
  have heq : q = p := hd q p (h.valid q hq) hp hnode hchannel
  subst heq
  exact ⟨hq, hthread⟩

/-! ### What the steps keep -/

theorem Owns.mono (hstarted : ∀ q ∈ s.started, q ∈ s'.started ∧ s'.threadOf q = s.threadOf q)
    {m thread : Nat} {c : Channel} (h : Owns txns s m thread c) : Owns txns s' m thread c := by
  obtain ⟨q, hq, hnode, hchannel, hthread⟩ := h
  refine ⟨q, (hstarted q hq).1, hnode, hchannel, ?_⟩
  rw [(hstarted q hq).2]
  exact hthread

theorem Served.mono {owns owns' : Nat → Channel → Prop} (howns : ∀ t c, owns t c → owns' t c)
    {x : Multiplexer} (h : Served owns x) : Served owns' x where
  asked c thread hm := howns thread c (h.asked c thread hm)
  linked c thread hm := howns thread c (h.linked c thread hm)
  kept := h.kept

theorem Works.mono {owns owns' : Channel → Prop} {waits waits' : Channel → Part → Prop}
    (howns : ∀ c, owns c → owns' c) (hwaits : ∀ c p, waits c p → waits' c p) {w : Worker}
    (h : Works owns waits w) : Works owns' waits' w where
  queued message hm := howns _ (h.queued message hm)
  active c p manager hp := hwaits c p (h.active c p manager hp)

/-- A worker that takes messages only. -/
theorem activeTxns_update {f : Nat × Nat → Worker} {a : Nat × Nat} {messages : List ReadResult}
    (b : Nat × Nat) :
    (update f a { f a with messages := messages } b).activeTxns = (f b).activeTxns := by
  refine apply_update_of_eq Worker.activeTxns ?_ b
  rfl

/-- A worker that sets one of its active transactions. -/
theorem activeTxns_set {f : Nat × Nat → Worker} {a b : Nat × Nat} {messages : List ReadResult}
    {c c' : Channel} {entry : Option (Part × StorageManager)} (h : b = a → c' ≠ c) :
    (update f a { messages, activeTxns := update (f a).activeTxns c entry } b).activeTxns c' =
      (f b).activeTxns c' := by
  by_cases hb : b = a
  · subst hb
    rw [update_self]
    exact update_of_ne (h rfl) _ _
  · rw [update_of_ne hb]

/-- Where an entry comes from after that. -/
theorem activeTxns_set_cases {f : Nat × Nat → Worker} {a b : Nat × Nat}
    {messages : List ReadResult} {c c' : Channel} {entry : Option (Part × StorageManager)}
    {x : Part × StorageManager}
    (h : (update f a { messages, activeTxns := update (f a).activeTxns c entry } b).activeTxns c' =
      some x) :
    (b = a ∧ c' = c ∧ entry = some x) ∨
      (b = a → c' ≠ c) ∧ (f b).activeTxns c' = some x := by
  by_cases hne : b = a ∧ c' = c
  · obtain ⟨rfl, rfl⟩ := hne
    rw [update_self] at h
    dsimp only at h
    rw [update_self] at h
    exact .inl ⟨rfl, rfl, h⟩
  · have hne' : b = a → c' ≠ c := fun hb hc => hne ⟨hb, hc⟩
    exact .inr ⟨hne', (activeTxns_set hne').symm.trans h⟩

theorem Linked.start (h : Linked cfg mode txns s) (hd : DistinctChannels cfg mode txns)
    {thread : Nat} {p : Part} {store : Key → Record}
    (hs : Workers.start cfg mode txns s thread p store = some s') : Linked cfg mode txns s' := by
  obtain ⟨hp, hnew, manager, sent, -, hs⟩ := start_cases hs
  have hne : ∀ q ∈ s.started, q ≠ p := fun q hq => ne_of_mem_of_not_mem hq hnew
  have hvalid : ∀ q ∈ p :: s.started, q.2 ∈ participants cfg mode (txns q.1) := by
    intro q hq
    rcases List.mem_cons.mp hq with rfl | hq
    · exact hp
    · exact h.valid q hq
  rcases hs with ⟨-, rfl⟩ | ⟨-, rfl⟩
  · have hfinished : ∀ q ∈ s.started, q ∉ s.finished → q ∉ p :: s.finished :=
      fun q hq hunfinished => List.not_mem_cons_of_ne_of_not_mem (hne q hq) hunfinished
    have hstarted : ∀ q ∈ s.started, q ∈ p :: s.started ∧ s.threadOf q = s.threadOf q :=
      fun q hq => ⟨List.mem_cons_of_mem p hq, rfl⟩
    refine ⟨hvalid, fun q hq => ?_, fun m => (h.served m).mono fun t c => Owns.mono hstarted,
      fun a => (h.works a).mono (fun c => Owns.mono hstarted) fun c q hq => ?_,
      fun q hq hunfinished => ?_⟩
    · rcases List.mem_cons.mp hq with rfl | hq
      · exact List.mem_cons_self
      · exact List.mem_cons_of_mem p (h.finished q hq)
    · exact ⟨List.mem_cons_of_mem p hq.1, hfinished q hq.1 hq.2.1, hq.2.2⟩
    · rcases List.mem_cons.mp hq with rfl | hq
      · exact absurd List.mem_cons_self hunfinished
      · exact h.waiting q hq fun hmem => hunfinished (List.mem_cons_of_mem p hmem)
  · have hstarted : ∀ q ∈ s.started,
        q ∈ p :: s.started ∧ update s.threadOf p thread q = s.threadOf q :=
      fun q hq => ⟨List.mem_cons_of_mem p hq, update_of_ne (hne q hq) _ _⟩
    have hunfinished : p ∉ s.finished := fun hmem => hnew (h.finished p hmem)
    have hwaits : ∀ {a c q}, Waits txns s a c q →
        q ∈ p :: s.started ∧ q ∉ s.finished ∧
          (q.2.1, update s.threadOf p thread q) = a ∧ channel txns q = c := by
      rintro a c q ⟨hq, hu, ha, hc⟩
      refine ⟨List.mem_cons_of_mem p hq, hu, ?_, hc⟩
      rw [(hstarted q hq).2]
      exact ha
    have hself : update s.threadOf p thread p = thread := update_self p thread s.threadOf
    refine ⟨hvalid, fun q hq => List.mem_cons_of_mem p (h.finished q hq),
      (forall_update_iff _ fun m x => Served (Owns txns _ m) x).mpr
        ⟨⟨fun c t hm => ?_, fun c t hm => ?_, ?_⟩,
          fun m _ => (h.served m).mono fun t c => Owns.mono hstarted⟩,
      (forall_update_iff _ fun a w => Works (Owns txns _ a.1 a.2) (Waits txns _ a) w).mpr
        ⟨⟨fun message hm => ?_, fun c q sm hq => ?_⟩,
          fun a _ => (h.works a).mono (fun c => Owns.mono hstarted) fun c q => hwaits⟩,
        fun q hq hq' => ?_⟩
    · rcases List.mem_append.mp hm with hm | hm
      · exact ((h.served p.2.1).asked c t hm).mono hstarted
      · cases List.mem_singleton.mp hm
        exact ⟨p, List.mem_cons_self, rfl, rfl, hself⟩
    · exact ((h.served p.2.1).linked c t hm).mono hstarted
    · exact (h.served p.2.1).kept
    · exact ((h.works (p.2.1, thread)).queued message hm).mono hstarted
    · by_cases hc : c = channel txns p
      · subst hc
        dsimp only at hq
        rw [update_self] at hq
        cases hq
        exact ⟨List.mem_cons_self, hunfinished, congrArg (p.2.1, ·) hself, rfl⟩
      · dsimp only at hq
        rw [update_of_ne hc] at hq
        exact hwaits ((h.works (p.2.1, thread)).active c q sm hq)
    · rcases List.mem_cons.mp hq with rfl | hq
      · refine ⟨manager, ?_⟩
        show (update s.workers _ _ (q.2.1, update s.threadOf q thread q)).activeTxns _ = _
        rw [hself, update_self]
        exact update_self _ _ _
      · obtain ⟨sm, hsm⟩ := h.waiting q hq hq'
        refine ⟨sm, ?_⟩
        show (update s.workers _ _ (q.2.1, update s.threadOf p thread q)).activeTxns _ = _
        rw [update_of_ne (hne q hq)]
        -- two participants of one worker have different channels
        exact (activeTxns_set fun ha hc =>
          hne q hq (hd q p (h.valid q hq) hp (Prod.mk.inj ha).1 hc)).trans hsm

theorem Linked.receive (h : Linked cfg mode txns s) {m i : Nat}
    (hs : Workers.receive cfg s m i = some s') : Linked cfg mode txns s' := by
  obtain ⟨message, -, -, ⟨thread, hlinked, rfl⟩ | rfl⟩ := receive_cases hs
  · refine ⟨h.valid, h.finished, h.served,
      (forall_update_iff _ fun a w => Works (Owns txns _ a.1 a.2) (Waits txns _ a) w).mpr
      ⟨⟨fun msg hm => ?_, ?_⟩, fun a _ => h.works a⟩,
      fun p hp hunfinished => ?_⟩
    · rcases List.mem_append.mp hm with hm | hm
      · exact (h.works (m, thread)).queued msg hm
      · cases List.mem_singleton.mp hm
        exact (h.served m).linked _ _ hlinked
    · exact (h.works (m, thread)).active
    · rw [activeTxns_update]
      exact h.waiting p hp hunfinished
  · refine ⟨h.valid, h.finished, (forall_update_iff _ fun m x => Served (Owns txns _ m) x).mpr
      ⟨⟨?_, ?_, ?_⟩, fun m _ => h.served m⟩, h.works, h.waiting⟩
    · exact (h.served m).asked
    · exact (h.served m).linked
    refine (forall_update_iff _ fun (c : Channel) (messages : List ReadResult) =>
      ∀ msg ∈ messages, msg.destinationChannel = c).mpr
      ⟨fun msg hm => ?_, fun c _ => (h.served m).kept c⟩
    rcases List.mem_append.mp hm with hm | hm
    · exact (h.served m).kept _ msg hm
    · cases List.mem_singleton.mp hm
      rfl

theorem Linked.linkUnlink (h : Linked cfg mode txns s) {m : Nat}
    (hs : Workers.linkUnlink s m = some s') : Linked cfg mode txns s' := by
  rcases linkUnlink_cases hs with ⟨c, thread, rest, hqueue, rfl⟩ | ⟨c, rest, hqueue, rfl⟩
  · have howner : Owns txns s m thread c := by
      refine (h.served m).asked c thread ?_
      rw [hqueue]
      exact List.mem_cons_self
    refine ⟨h.valid, h.finished, (forall_update_iff _ fun m x => Served (Owns txns _ m) x).mpr
      ⟨⟨fun c t hm => ?_, fun c' t hm => ?_, ?_⟩, fun m _ => h.served m⟩,
      (forall_update_iff _ fun a w => Works (Owns txns _ a.1 a.2) (Waits txns _ a) w).mpr
        ⟨⟨fun msg hm => ?_, ?_⟩, fun a _ => h.works a⟩,
      fun p hp hunfinished => ?_⟩
    · refine (h.served m).asked c t ?_
      rw [hqueue]
      exact List.mem_cons_of_mem _ hm
    · dsimp only at hm
      by_cases hc : c' = c
      · subst hc
        rw [update_self] at hm
        cases hm
        exact howner
      · rw [update_of_ne hc] at hm
        exact (h.served m).linked c' t hm
    · exact (forall_update_iff _ fun (c : Channel) (messages : List ReadResult) =>
        ∀ msg ∈ messages, msg.destinationChannel = c).mpr
        ⟨fun msg hm => absurd hm List.not_mem_nil, fun c _ => (h.served m).kept c⟩
    · rcases List.mem_append.mp hm with hm | hm
      · exact (h.works (m, thread)).queued msg hm
      · rw [(h.served m).kept c msg hm]
        exact howner
    · exact (h.works (m, thread)).active
    · rw [activeTxns_update]
      exact h.waiting p hp hunfinished
  · refine ⟨h.valid, h.finished, (forall_update_iff _ fun m x => Served (Owns txns _ m) x).mpr
      ⟨⟨fun c t hm => ?_, fun c' t hm => ?_, ?_⟩, fun m _ => h.served m⟩,
      h.works, h.waiting⟩
    · refine (h.served m).asked c t ?_
      rw [hqueue]
      exact List.mem_cons_of_mem _ hm
    · dsimp only at hm
      by_cases hc : c' = c
      · rw [hc, update_self] at hm
        cases hm
      · rw [update_of_ne hc] at hm
        exact (h.served m).linked c' t hm
    · exact (h.served m).kept

theorem Linked.gotMessage (h : Linked cfg mode txns s) {m thread : Nat}
    (hs : Workers.gotMessage txns s m thread = some s') : Linked cfg mode txns s' := by
  obtain ⟨message, rest, p, manager, hqueue, hactive, hs⟩ := gotMessage_cases hs
  have hworks := h.works (m, thread)
  obtain ⟨hp, hunfinished, ha, hc⟩ := hworks.active _ _ _ hactive
  have hrest : ∀ msg ∈ rest, Owns txns s m thread msg.destinationChannel := by
    intro msg hm
    refine hworks.queued msg ?_
    rw [hqueue]
    exact List.mem_cons_of_mem message hm
  have hsame : ∀ q, (q.2.1, s.threadOf q) = (m, thread) →
      channel txns q = message.destinationChannel → q ∈ s.started → q ∉ s.finished → q = p := by
    intro q hqa hqc hq hqu
    obtain ⟨sm, hsm⟩ := h.waiting q hq hqu
    rw [hqa, hqc, hactive] at hsm
    cases hsm
    rfl
  rcases hs with ⟨-, rfl⟩ | ⟨-, rfl⟩
  · refine ⟨h.valid, fun q hq => ?_, (forall_update_iff _ fun m x => Served (Owns txns _ m) x).mpr
      ⟨⟨fun c t hm => ?_, ?_, ?_⟩, fun m _ => h.served m⟩,
      (forall_update_iff _ fun a w => Works (Owns txns _ a.1 a.2) (Waits txns _ a) w).mpr
        ⟨⟨hrest, fun c q sm hq => ?_⟩, fun a hne => ⟨(h.works a).queued, fun c q sm hq => ?_⟩⟩,
      fun q hq hqu => ?_⟩
    · rcases List.mem_cons.mp hq with rfl | hq
      · exact hp
      · exact h.finished q hq
    · rcases List.mem_append.mp hm with hm | hm
      · exact (h.served m).asked c t hm
      · cases List.mem_singleton.mp hm
    · exact (h.served m).linked
    · exact (h.served m).kept
    · dsimp only at hq
      by_cases hcm : c = message.destinationChannel
      · rw [hcm, update_self] at hq
        cases hq
      · rw [update_of_ne hcm] at hq
        obtain ⟨hq, hqu, hqa, hqc⟩ := hworks.active c q sm hq
        refine ⟨hq, List.not_mem_cons_of_ne_of_not_mem ?_ hqu, hqa, hqc⟩
        rintro rfl
        exact hcm (hqc.symm.trans hc)
    · obtain ⟨hq, hqu, hqa, hqc⟩ := (h.works a).active c q sm hq
      refine ⟨hq, List.not_mem_cons_of_ne_of_not_mem ?_ hqu, hqa, hqc⟩
      rintro rfl
      exact hne (hqa.symm.trans ha)
    · have hqu' : q ∉ s.finished := fun hmem => hqu (List.mem_cons_of_mem p hmem)
      have hqp : q ≠ p := fun heq => hqu (heq ▸ List.mem_cons_self)
      obtain ⟨sm, hsm⟩ := h.waiting q hq hqu'
      exact ⟨sm, (activeTxns_set fun hqa hqc => hqp (hsame q hqa hqc hq hqu')).trans hsm⟩
  · refine ⟨h.valid, h.finished, h.served,
      (forall_update_iff _ fun a w => Works (Owns txns _ a.1 a.2) (Waits txns _ a) w).mpr
        ⟨⟨hrest, fun c q sm hq => ?_⟩, fun a _ => h.works a⟩, fun q hq hqu => ?_⟩
    · dsimp only at hq
      by_cases hcm : c = message.destinationChannel
      · rw [hcm, update_self] at hq
        cases hq
        exact ⟨hp, hunfinished, ha, hc.trans hcm.symm⟩
      · rw [update_of_ne hcm] at hq
        exact hworks.active c q sm hq
    · by_cases hqp : q = p
      · subst hqp
        refine ⟨manager.handleReadResult message.entries, ?_⟩
        show (update s.workers (m, thread) _ (q.2.1, s.threadOf q)).activeTxns _ = _
        rw [ha, update_self, hc]
        exact update_self _ _ _
      · obtain ⟨sm, hsm⟩ := h.waiting q hq hqu
        exact ⟨sm, (activeTxns_set fun hqa hqc => hqp (hsame q hqa hqc hq hqu)).trans hsm⟩

theorem Linked.next (h : Linked cfg mode txns s) (hd : DistinctChannels cfg mode txns) {e : Event}
    (hs : Workers.next cfg mode txns s e = some s') : Linked cfg mode txns s' := by
  cases e with
  | start thread p store => exact h.start hd hs
  | receive m i => exact h.receive hs
  | linkUnlink m => exact h.linkUnlink hs
  | gotMessage m thread => exact h.gotMessage hs

/-! ## The messages for a participant -/

/-- Those in the queue of a worker. -/
def queueFor (workers : Nat × Nat → Worker) (a : Nat × Nat) (c : Channel) : List ReadResult :=
  (workers a).messages.filter fun message => message.destinationChannel = c

theorem queueFor_update {f : Nat × Nat → Worker} {a b : Nat × Nat} {messages : List ReadResult}
    {c : Channel} (h : b = a → ∀ message ∈ messages, message.destinationChannel ≠ c) :
    queueFor (update f a { f a with messages := (f a).messages ++ messages }) b c =
      queueFor f b c := by
  unfold queueFor
  by_cases hb : b = a
  · subst hb
    have hnil : (messages.filter fun message => message.destinationChannel = c) = [] := by
      refine List.filter_eq_nil_iff.mpr fun message hm => ?_
      rw [decide_eq_true_eq]
      exact h rfl message hm
    rw [update_self]
    show ((f b).messages ++ messages).filter _ = _
    rw [List.filter_append, hnil, List.append_nil]
  · rw [update_of_ne hb]

theorem queueFor_update_self {f : Nat × Nat → Worker} {a : Nat × Nat} {messages : List ReadResult}
    {c : Channel} (h : ∀ message ∈ messages, message.destinationChannel = c) :
    queueFor (update f a { f a with messages := (f a).messages ++ messages }) a c =
      queueFor f a c ++ messages := by
  unfold queueFor
  have hall : (messages.filter fun message => message.destinationChannel = c) = messages := by
    refine List.filter_eq_self.mpr fun message hm => ?_
    rw [decide_eq_true_eq]
    exact h message hm
  rw [update_self]
  show ((f a).messages ++ messages).filter _ = _
  rw [List.filter_append, hall]

theorem inFlight_receive (h : Linked cfg mode txns s) (hd : DistinctChannels cfg mode txns)
    {m i : Nat} (hs : Workers.receive cfg s m i = some s') {p : Part}
    (hp : p.2 ∈ participants cfg mode (txns p.1)) :
    (inFlight cfg txns s' p).Perm (inFlight cfg txns s p) := by
  obtain ⟨message, hi, hnode, hs⟩ := receive_cases hs
  have hnetwork : (s.network.filter fun msg => IsFor cfg txns p msg).Perm
      ((message :: s.network.eraseIdx i).filter fun msg => IsFor cfg txns p msg) :=
    (cons_eraseIdx_perm hi).symm.filter _
  -- whether the message is for the participant
  by_cases hfor : p.2.1 = m ∧ message.destinationChannel = channel txns p
  · have hisFor : IsFor cfg txns p message := ⟨by rw [hnode, hfor.1], hfor.2⟩
    rw [List.filter_cons_of_pos (by simpa using hisFor)] at hnetwork
    obtain ⟨rfl, hchannel⟩ := hfor
    rcases hs with ⟨thread, hlinked, rfl⟩ | rfl
    · rw [hchannel] at hlinked
      obtain ⟨-, rfl⟩ := h.owner hd hp ((h.served p.2.1).linked _ _ hlinked)
      show (_ ++ _ ++ queueFor (update s.workers _ _) _ _).Perm (_ ++ _ ++ _)
      rw [queueFor_update_self (by simpa using hchannel), ← List.append_assoc]
      refine List.perm_append_comm.trans ?_
      exact (hnetwork.symm.append_right _).append_right _
    · show (_ ++ (update s.multiplexers _ _ _).undeliveredMessages _ ++ _).Perm (_ ++ _ ++ _)
      rw [update_self, hchannel]
      show (_ ++ update (s.multiplexers _).undeliveredMessages _ _ _ ++ _).Perm (_ ++ _ ++ _)
      rw [update_self, ← List.append_assoc]
      refine List.Perm.append_right _ (List.perm_append_comm.trans ?_)
      exact hnetwork.symm.append_right _
  · have hnot : ¬ IsFor cfg txns p message := by
      rintro ⟨hn, hchannel⟩
      exact hfor ⟨Nat.add_left_cancel (hn.symm.trans hnode), hchannel⟩
    rw [List.filter_cons_of_neg (by simpa using hnot)] at hnetwork
    rcases hs with ⟨thread, hlinked, rfl⟩ | rfl
    · show (_ ++ _ ++ queueFor (update s.workers _ _) _ _).Perm (_ ++ _ ++ _)
      rw [queueFor_update fun ha => by
        simpa using fun hchannel => hfor ⟨(Prod.mk.inj ha).1, hchannel⟩]
      exact (hnetwork.symm.append_right _).append_right _
    · have hkept : (update s.multiplexers m
          { s.multiplexers m with
            undeliveredMessages := update (s.multiplexers m).undeliveredMessages
              message.destinationChannel
              ((s.multiplexers m).undeliveredMessages message.destinationChannel ++ [message]) }
          p.2.1).undeliveredMessages (channel txns p) =
          (s.multiplexers p.2.1).undeliveredMessages (channel txns p) := by
        by_cases hm : p.2.1 = m
        · subst hm
          rw [update_self]
          exact update_of_ne (fun hchannel => hfor ⟨rfl, hchannel.symm⟩) _ _
        · rw [update_of_ne hm]
      show (_ ++ (update s.multiplexers _ _ _).undeliveredMessages _ ++ _).Perm (_ ++ _ ++ _)
      rw [hkept]
      exact (hnetwork.symm.append_right _).append_right _

theorem inFlight_linkUnlink (h : Linked cfg mode txns s) (hd : DistinctChannels cfg mode txns)
    {m : Nat} (hs : Workers.linkUnlink s m = some s') {p : Part}
    (hp : p.2 ∈ participants cfg mode (txns p.1)) :
    (inFlight cfg txns s' p).Perm (inFlight cfg txns s p) := by
  rcases linkUnlink_cases hs with ⟨c, thread, rest, hqueue, rfl⟩ | ⟨c, rest, -, rfl⟩
  · have howner : Owns txns s m thread c := by
      refine (h.served m).asked c thread ?_
      rw [hqueue]
      exact List.mem_cons_self
    by_cases hfor : p.2.1 = m ∧ c = channel txns p
    · obtain ⟨rfl, rfl⟩ := hfor
      obtain ⟨-, rfl⟩ := h.owner hd hp howner
      show (_ ++ (update s.multiplexers _ _ _).undeliveredMessages _ ++
        queueFor (update s.workers _ _) _ _).Perm (_ ++ _ ++ _)
      rw [queueFor_update_self ((h.served p.2.1).kept _), update_self]
      show (_ ++ update (s.multiplexers _).undeliveredMessages _ _ _ ++ _).Perm (_ ++ _ ++ _)
      rw [update_self, List.append_nil, List.append_assoc]
      exact List.Perm.append_left _ List.perm_append_comm
    · have hkept : (update s.multiplexers m
          { linkUnlinkQueue := rest
            channelResults := update (s.multiplexers m).channelResults c (some thread)
            undeliveredMessages := update (s.multiplexers m).undeliveredMessages c [] }
          p.2.1).undeliveredMessages (channel txns p) =
          (s.multiplexers p.2.1).undeliveredMessages (channel txns p) := by
        by_cases hm : p.2.1 = m
        · subst hm
          rw [update_self]
          exact update_of_ne (fun hc => hfor ⟨rfl, hc.symm⟩) _ _
        · rw [update_of_ne hm]
      show (_ ++ (update s.multiplexers _ _ _).undeliveredMessages _ ++
        queueFor (update s.workers _ _) _ _).Perm (_ ++ _ ++ _)
      rw [hkept, queueFor_update fun ha msg hm hchannel => hfor ⟨(Prod.mk.inj ha).1,
        ((h.served m).kept c msg hm).symm.trans hchannel⟩]
      exact List.Perm.refl _
  · have hkept : (update s.multiplexers m
        { s.multiplexers m with
          linkUnlinkQueue := rest
          channelResults := update (s.multiplexers m).channelResults c none }
        p.2.1).undeliveredMessages (channel txns p) =
        (s.multiplexers p.2.1).undeliveredMessages (channel txns p) := by
      by_cases hm : p.2.1 = m
      · rw [hm, update_self]
      · rw [update_of_ne hm]
    show (_ ++ (update s.multiplexers _ _ _).undeliveredMessages _ ++ _).Perm (_ ++ _ ++ _)
    rw [hkept]

/-- The message a worker handles is no longer on its way. -/
theorem inFlight_gotMessage (h : Linked cfg mode txns s) (hd : DistinctChannels cfg mode txns)
    {m thread : Nat} (hs : Workers.gotMessage txns s m thread = some s') {message : ReadResult}
    {rest : List ReadResult} {p : Part} {manager : StorageManager}
    (hqueue : (s.workers (m, thread)).messages = message :: rest)
    (hactive : (s.workers (m, thread)).activeTxns message.destinationChannel = some (p, manager)) :
    (inFlight cfg txns s p).Perm (message :: inFlight cfg txns s' p) ∧
      ∀ q : Part, q.2 ∈ participants cfg mode (txns q.1) → q ≠ p →
        inFlight cfg txns s' q = inFlight cfg txns s q := by
  obtain ⟨hp, -, ha, hc⟩ := (h.works (m, thread)).active _ _ _ hactive
  obtain ⟨message', rest', p', manager', hqueue', hactive', hs⟩ := gotMessage_cases hs
  obtain ⟨rfl, rfl⟩ := List.cons.inj (hqueue.symm.trans hqueue')
  cases hactive.symm.trans hactive'
  have hstep : s'.network = s.network ∧ s'.threadOf = s.threadOf ∧
      (∀ n, (s'.multiplexers n).undeliveredMessages = (s.multiplexers n).undeliveredMessages) ∧
      (∀ b, b ≠ (m, thread) → s'.workers b = s.workers b) ∧
      (s'.workers (m, thread)).messages = rest := by
    rcases hs with ⟨-, rfl⟩ | ⟨-, rfl⟩
    · refine ⟨rfl, rfl, fun n => ?_, fun b hb => update_of_ne hb _ _, ?_⟩
      · refine apply_update_of_eq Multiplexer.undeliveredMessages ?_ n
        rfl
      · show (update s.workers _ _ _).messages = rest
        rw [update_self]
    · refine ⟨rfl, rfl, fun n => rfl, fun b hb => update_of_ne hb _ _, ?_⟩
      show (update s.workers _ _ _).messages = rest
      rw [update_self]
  obtain ⟨hnetwork, hthread, hkept, hothers, hrest⟩ := hstep
  refine ⟨?_, fun q hq hne => ?_⟩
  · unfold inFlight
    rw [hnetwork, hthread, hkept, ha, hrest, hqueue,
      List.filter_cons_of_pos (by simpa using hc.symm)]
    exact List.perm_middle
  · unfold inFlight
    rw [hnetwork, hthread, hkept]
    congr 1
    by_cases hqa : (q.2.1, s.threadOf q) = (m, thread)
    · have hqc : message.destinationChannel ≠ channel txns q := by
        intro hqc
        refine hne (hd q p hq (h.valid p hp) ?_ (hqc.symm.trans hc.symm))
        exact (Prod.mk.inj hqa).1.trans (Prod.mk.inj ha).1.symm
      rw [hqa, hrest, hqueue, List.filter_cons_of_neg (by simpa using hqc)]
    · rw [hothers _ hqa]

/-- What a participant that starts sends is on its way. -/
theorem inFlight_start (h : Linked cfg mode txns s) (hd : DistinctChannels cfg mode txns)
    {thread : Nat} {p : Part} {store : Key → Record}
    (hs : Workers.start cfg mode txns s thread p store = some s') {q : Part}
    (hq : q.2 ∈ participants cfg mode (txns q.1)) :
    (inFlight cfg txns s' q).Perm
      (((created cfg mode (txns p.1) (fun _ => store) p.2).2.filter fun message =>
        IsFor cfg txns q message) ++ inFlight cfg txns s q) := by
  obtain ⟨hp, hnew, manager, sent, hcreated, hs⟩ := start_cases hs
  rw [hcreated]
  have hstep : s'.network = s.network ++ sent ∧
      (∀ n, (s'.multiplexers n).undeliveredMessages = (s.multiplexers n).undeliveredMessages) ∧
      (∀ b, (s'.workers b).messages = (s.workers b).messages) ∧
      ∀ q, q ≠ p → s'.threadOf q = s.threadOf q := by
    rcases hs with ⟨-, rfl⟩ | ⟨-, rfl⟩
    · exact ⟨rfl, fun n => rfl, fun b => rfl, fun q _ => rfl⟩
    · refine ⟨rfl, fun n => ?_, fun b => ?_, fun q hne => update_of_ne hne _ _⟩
      · refine apply_update_of_eq Multiplexer.undeliveredMessages ?_ n
        rfl
      · refine apply_update_of_eq Worker.messages ?_ b
        rfl
  obtain ⟨hnetwork, hkept, hmessages, hthread⟩ := hstep
  have hqueue : queueFor s'.workers (q.2.1, s'.threadOf q) (channel txns q) =
      queueFor s.workers (q.2.1, s.threadOf q) (channel txns q) := by
    unfold queueFor
    rw [hmessages]
    by_cases hne : q = p
    · -- no queue has a message for who has not started
      have hnil : ∀ t, ((s.workers (q.2.1, t)).messages.filter fun message =>
          message.destinationChannel = channel txns q) = [] := by
        intro t
        refine List.filter_eq_nil_iff.mpr fun message hm => ?_
        rw [decide_eq_true_eq]
        intro hchannel
        have howns := (h.works (q.2.1, t)).queued message hm
        rw [hchannel] at howns
        exact hnew (hne ▸ (h.owner hd hq howns).1)
      rw [hnil, hnil]
    · rw [hthread q hne]
  show (_ ++ _ ++ queueFor _ _ _).Perm (_ ++ (_ ++ _ ++ _))
  rw [hqueue, hkept, hnetwork, List.filter_append, ← List.append_assoc, ← List.append_assoc]
  exact (List.perm_append_comm.append_right _).append_right _

end Calvin.Workers
