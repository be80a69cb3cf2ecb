import Calvin.Scheduler.WorkersSpec

/-!
# Ready after the last message

A participant counts the objects it has. Its messages come in any order, from
participants that start at any time, and may be there before its channel is
linked.

* `Exchange`: what has been sent is held or on its way, each key once; what is
  held is counted;
* `ready_after_last`: it is ready when the last message has been handled, and
  no message is left for a worker that no longer waits.
-/

namespace Calvin.Workers

open Function Lib ReadExchange StorageManager

section

variable (cfg : ClusterConfig) (mode : Nat) (txns : Nat → TxnProto) (s : Workers)

/-- The home of the entry has started, and a message with it was sent unless
the participant is the home itself. -/
def Arrived (p : Part) (entry : KeyEntry) : Prop :=
  (p.1, home cfg mode (txns p.1).originReplica entry) ∈ s.started ∧
    (home cfg mode (txns p.1).originReplica entry = p.2 ∨ Writes cfg mode (txns p.1) p.2)

structure Exchange : Prop where
  linked : Linked cfg mode txns s
  share : ∀ p : Part, p.2 ∈ participants cfg mode (txns p.1) →
    Share (txns p.1) (inFlight cfg txns s p) (held cfg mode txns s p) (Arrived cfg mode txns s p)
  /-- Each participant that has started has sent a message to each that writes. -/
  told : ∀ q ∈ s.started, ∀ p : Part, p.1 = q.1 → p ≠ q → Writes cfg mode (txns p.1) p.2 →
    ∃ message ∈ s.handled p ++ inFlight cfg txns s p,
      message.entries.map Prod.fst = ownKeys cfg mode (txns p.1) q.2
  unstarted : ∀ p, p ∉ s.started → s.handled p = []
  active : ∀ a c p manager, (s.workers a).activeTxns c = some (p, manager) →
    manager.objects.keys.Perm (held cfg mode txns s p) ∧
      manager.readyToExecute (txns p.1) = false
  finished : ∀ p ∈ s.finished,
    (held cfg mode txns s p).length = (txns p.1).client.keys.length

end

variable {cfg : ClusterConfig} {mode : Nat} {txns : Nat → TxnProto} {s s' : Workers}

theorem writes_participant {txn : TxnProto} {x : Nat × Nat} (h : Writes cfg mode txn x) :
    x ∈ participants cfg mode txn := by
  obtain ⟨entry, he, hhome⟩ := h
  exact mem_participants.mpr ⟨entry, List.mem_append_right _ he, hhome⟩

theorem exchange_init : Exchange cfg mode txns {} where
  linked := linked_init
  share p _ := ⟨List.nodup_nil, fun k => by simp [inFlight, held, resultKeys, Arrived], by
    simp [inFlight]⟩
  told := by simp
  unstarted _ _ := rfl
  active := by simp
  finished := by simp

/-! ## Messages pass through the multiplexer -/

theorem Exchange.frame (h : Exchange cfg mode txns s) (hlinked : Linked cfg mode txns s')
    (hstarted : s'.started = s.started) (hfinished : s'.finished = s.finished)
    (hhandled : s'.handled = s.handled)
    (hactive : ∀ a, (s'.workers a).activeTxns = (s.workers a).activeTxns)
    (hflight : ∀ p : Part, p.2 ∈ participants cfg mode (txns p.1) →
      (inFlight cfg txns s' p).Perm (inFlight cfg txns s p)) : Exchange cfg mode txns s' := by
  have hheld : ∀ p, held cfg mode txns s' p = held cfg mode txns s p := by
    intro p
    rw [held, held, hhandled, hstarted]
  refine ⟨hlinked, fun p hp => ?_, fun q hq p hpq hne hw => ?_, fun p hp => ?_,
    fun a c p manager hm => ?_, fun p hp => ?_⟩
  · refine (h.share p hp).perm (hflight p hp) (by rw [hheld]) fun entry _ => ?_
    rw [Arrived, Arrived, hstarted]
  · rw [hstarted] at hq
    obtain ⟨message, hm, hkeys⟩ := h.told q hq p hpq hne hw
    refine ⟨message, ?_, hkeys⟩
    rw [hhandled]
    exact ((hflight p (writes_participant hw)).append_left _).mem_iff.mpr hm
  · rw [hstarted] at hp
    rw [hhandled]
    exact h.unstarted p hp
  · rw [hactive] at hm
    rw [hheld]
    exact h.active a c p manager hm
  · rw [hfinished] at hp
    rw [hheld]
    exact h.finished p hp

theorem Exchange.receive (h : Exchange cfg mode txns s) (hd : DistinctChannels cfg mode txns)
    {m i : Nat} (hs : Workers.receive cfg s m i = some s') : Exchange cfg mode txns s' := by
  have hlinked := h.linked.receive hs
  have hflight := fun p hp => inFlight_receive h.linked hd hs (p := p) hp
  obtain ⟨message, -, -, ⟨thread, -, rfl⟩ | rfl⟩ := receive_cases hs
  · exact h.frame hlinked rfl rfl rfl (fun a => activeTxns_update a) hflight
  · exact h.frame hlinked rfl rfl rfl (fun a => rfl) hflight

theorem Exchange.linkUnlink (h : Exchange cfg mode txns s) (hd : DistinctChannels cfg mode txns)
    {m : Nat} (hs : Workers.linkUnlink s m = some s') : Exchange cfg mode txns s' := by
  have hlinked := h.linked.linkUnlink hs
  have hflight := fun p hp => inFlight_linkUnlink h.linked hd hs (p := p) hp
  rcases linkUnlink_cases hs with ⟨c, thread, rest, -, rfl⟩ | ⟨c, rest, -, rfl⟩
  · exact h.frame hlinked rfl rfl rfl (fun a => activeTxns_update a) hflight
  · exact h.frame hlinked rfl rfl rfl (fun a => rfl) hflight

/-! ## One participant moves -/

/-- The managers after a step that is about one participant. -/
theorem Exchange.managers (h : Exchange cfg mode txns s) {p : Part}
    (hheld : ∀ q, q ≠ p → held cfg mode txns s' q = held cfg mode txns s q)
    (hactive : ∀ a c q sm, (s'.workers a).activeTxns c = some (q, sm) →
      (q = p ∧ sm.objects.keys.Perm (held cfg mode txns s' p) ∧
        sm.readyToExecute (txns p.1) = false) ∨
      q ≠ p ∧ (s.workers a).activeTxns c = some (q, sm))
    (hfinished : ∀ q ∈ s'.finished,
      (q = p ∧ (held cfg mode txns s' p).length = (txns p.1).client.keys.length) ∨
      q ≠ p ∧ q ∈ s.finished) :
    (∀ a c q sm, (s'.workers a).activeTxns c = some (q, sm) →
      sm.objects.keys.Perm (held cfg mode txns s' q) ∧ sm.readyToExecute (txns q.1) = false) ∧
    ∀ q ∈ s'.finished, (held cfg mode txns s' q).length = (txns q.1).client.keys.length := by
  constructor
  · intro a c q sm hq
    rcases hactive a c q sm hq with ⟨rfl, hown⟩ | ⟨hne, hq⟩
    · exact hown
    · rw [hheld q hne]
      exact h.active a c q sm hq
  · intro q hq
    rcases hfinished q hq with ⟨rfl, hown⟩ | ⟨hne, hq⟩
    · exact hown
    · rw [hheld q hne]
      exact h.finished q hq

/-! ## A message is handled -/

theorem Exchange.gotMessage (h : Exchange cfg mode txns s) (hd : DistinctChannels cfg mode txns)
    {m thread : Nat} (hs : Workers.gotMessage txns s m thread = some s') :
    Exchange cfg mode txns s' := by
  have hlinked := h.linked.gotMessage hs
  obtain ⟨message, rest, p, manager, hqueue, hactive, hcases⟩ := gotMessage_cases hs
  obtain ⟨hflight, hothers⟩ := inFlight_gotMessage h.linked hd hs hqueue hactive
  obtain ⟨hp, hunfinished, ha, hc⟩ := (h.linked.works (m, thread)).active _ _ _ hactive
  have hvalid := h.linked.valid p hp
  have hstep : s'.started = s.started ∧
      s'.handled = update s.handled p (s.handled p ++ [message]) := by
    rcases hcases with ⟨-, rfl⟩ | ⟨-, rfl⟩
    · exact ⟨rfl, rfl⟩
    · exact ⟨rfl, rfl⟩
  obtain ⟨hstarted, hhandled⟩ := hstep
  have hheld_ne : ∀ q, q ≠ p → held cfg mode txns s' q = held cfg mode txns s q := by
    intro q hne
    rw [held, held, hhandled, hstarted, update_of_ne hne]
  have hheld : (held cfg mode txns s' p).Perm
      (message.entries.map Prod.fst ++ held cfg mode txns s p) := by
    rw [held, held, hhandled, hstarted, update_self, resultKeys, resultKeys, List.flatMap_append,
      List.flatMap_singleton, ← List.append_assoc]
    exact List.perm_append_comm.append_right _
  have hshare : Share (txns p.1) (message :: inFlight cfg txns s' p) (held cfg mode txns s p)
      (Arrived cfg mode txns s p) :=
    (h.share p hvalid).perm hflight.symm (List.Perm.refl _) fun entry _ => Iff.rfl
  -- the manager has what the participant holds
  have hkeys : (manager.handleReadResult message.entries).objects.keys.Perm
      (held cfg mode txns s' p) := by
    have hmanager := (h.active _ _ _ _ hactive).1
    have hnodup := hshare.handle.nodup.of_append_right
    refine (handleReadResult_keys ?_).trans ((hmanager.append_left _).trans hheld.symm)
    exact (hmanager.append_left _).nodup_iff.mpr hnodup
  have hready : ∀ q ∈ s'.finished, (q = p ∧
      (held cfg mode txns s' p).length = (txns p.1).client.keys.length) ∨
      q ≠ p ∧ q ∈ s.finished := by
    intro q hq
    rcases hcases with ⟨hready, rfl⟩ | ⟨-, rfl⟩
    · rcases List.mem_cons.mp hq with rfl | hq
      · rw [← hkeys.length_eq]
        exact .inl ⟨rfl, ready_iff_length.mp hready⟩
      · exact .inr ⟨ne_of_mem_of_not_mem hq hunfinished, hq⟩
    · exact .inr ⟨ne_of_mem_of_not_mem hq hunfinished, hq⟩
  have hactive' : ∀ a c q sm, (s'.workers a).activeTxns c = some (q, sm) →
      (q = p ∧ sm.objects.keys.Perm (held cfg mode txns s' p) ∧
        sm.readyToExecute (txns p.1) = false) ∨
      q ≠ p ∧ (s.workers a).activeTxns c = some (q, sm) := by
    intro a c q sm hq
    have hentry : (q = p ∧ sm = manager.handleReadResult message.entries ∧
        sm.readyToExecute (txns p.1) = false) ∨
        (a = (m, thread) → c ≠ message.destinationChannel) ∧
          (s.workers a).activeTxns c = some (q, sm) := by
      rcases hcases with ⟨-, rfl⟩ | ⟨hnot, rfl⟩
      · exact (activeTxns_set_cases hq).imp (fun hset => absurd hset.2.2 (by simp)) id
      · rcases activeTxns_set_cases hq with ⟨-, -, hset⟩ | hold
        · cases hset
          exact .inl ⟨rfl, rfl, hnot⟩
        · exact .inr hold
    rcases hentry with ⟨rfl, rfl, hnot⟩ | ⟨hne, hq'⟩
    · exact .inl ⟨rfl, hkeys, hnot⟩
    · refine .inr ⟨?_, hq'⟩
      -- the entry of `p` is the one of the message
      rintro rfl
      obtain ⟨-, -, ha', hc'⟩ := (h.linked.works a).active c q sm hq'
      exact hne (ha'.symm.trans ha) (hc'.symm.trans hc)
  obtain ⟨hactive', hfinished'⟩ := h.managers hheld_ne hactive' hready
  refine ⟨hlinked, fun q hq => ?_, fun q hq r hrq hne hw => ?_, fun q hq => ?_, ?_, ?_⟩
  · by_cases hqp : q = p
    · subst hqp
      refine hshare.handle.perm (List.Perm.refl _) hheld fun entry _ => ?_
      rw [Arrived, Arrived, hstarted]
    · refine (h.share q hq).perm (by rw [hothers q hq hqp]) (by rw [hheld_ne q hqp]) fun entry _ =>
        ?_
      rw [Arrived, Arrived, hstarted]
  · rw [hstarted] at hq
    obtain ⟨msg, hm, hk⟩ := h.told q hq r hrq hne hw
    refine ⟨msg, ?_, hk⟩
    rw [hhandled]
    by_cases hrp : r = p
    · subst hrp
      rw [update_self, List.append_assoc]
      exact (hflight.append_left _).mem_iff.mp hm
    · rw [update_of_ne hrp, hothers r (writes_participant hw) hrp]
      exact hm
  · rw [hstarted] at hq
    rw [hhandled, update_of_ne (ne_of_mem_of_not_mem hp hq).symm]
    exact h.unstarted q hq
  · exact hactive'
  · exact hfinished'

/-! ## A participant starts -/

/-- What a participant sends to another. -/
theorem sent_isFor (hd : DistinctChannels cfg mode txns) {p q : Part} (store : Key → Record)
    (hp : p.2 ∈ participants cfg mode (txns p.1)) (hq : q.2 ∈ participants cfg mode (txns q.1)) :
    ((created cfg mode (txns p.1) (fun _ => store) p.2).2.filter fun message =>
        IsFor cfg txns q message) =
      if q.1 = p.1 ∧ q ≠ p ∧ Writes cfg mode (txns q.1) q.2 then
        [resultOf cfg mode (txns p.1) (fun _ => store) p.2 q.2]
      else [] := by
  split
  · rename_i hto
    obtain ⟨htxn, hne, hw⟩ := hto
    obtain ⟨t, x⟩ := q
    cases htxn
    exact sent_filter _ hp (fun heq => hne (Prod.ext rfl heq)) hw
  · rename_i hto
    refine List.filter_eq_nil_iff.mpr fun message hm => ?_
    rw [decide_eq_true_eq]
    rintro ⟨hnode, hchannel⟩
    obtain ⟨writers, -, hmem, hsent⟩ := sent_eq (fun _ => store) hp
    rw [hsent] at hm
    obtain ⟨w, hw, rfl⟩ := List.mem_map.mp hm
    obtain ⟨hne, hw⟩ := (hmem w).mp hw
    have heq : (p.1, w) = q :=
      hd (p.1, w) q (writes_participant hw) hq (Nat.add_left_cancel hnode) hchannel
    subst heq
    exact hto ⟨rfl, fun heq => hne (congrArg Prod.snd heq), hw⟩

/-- The keys on their way and held, when a participant starts. -/
theorem Exchange.share_start (h : Exchange cfg mode txns s) (hd : DistinctChannels cfg mode txns)
    (hkeys : ∀ i, (txns i).client.keys.Nodup) {thread : Nat} {p : Part} {store : Key → Record}
    (hs : Workers.start cfg mode txns s thread p store = some s')
    (hstarted : s'.started = p :: s.started) (hhandled : s'.handled = s.handled) {q : Part}
    (hq : q.2 ∈ participants cfg mode (txns q.1)) :
    Share (txns q.1) (inFlight cfg txns s' q) (held cfg mode txns s' q)
      (Arrived cfg mode txns s' q) := by
  obtain ⟨hp, hnew, -⟩ := start_cases hs
  have hflight := inFlight_start h.linked hd hs hq
  rw [sent_isFor hd store hp hq] at hflight
  have hshare := h.share q hq
  by_cases hqp : q = p
  · subst hqp
    rw [if_neg fun hto => hto.2.1 rfl] at hflight
    have hown := hshare.own (hkeys q.1) hp fun entry _ hhome harrived => by
      rw [Arrived, hhome] at harrived
      exact hnew harrived.1
    refine hown.perm hflight ?_ fun entry _ => ?_
    · rw [held, held, hhandled, hstarted, if_pos List.mem_cons_self, if_neg hnew, List.append_nil]
      exact List.perm_append_comm
    · have hself : (q.1, home cfg mode (txns q.1).originReplica entry) = q ↔
          home cfg mode (txns q.1).originReplica entry = q.2 :=
        ⟨fun heq => congrArg Prod.snd heq, fun heq => Prod.ext rfl heq⟩
      rw [Arrived, Arrived, hstarted, List.mem_cons, hself]
      tauto
  · have hheld : held cfg mode txns s' q = held cfg mode txns s q := by
      rw [held, held, hhandled, hstarted]
      simp only [List.mem_cons, hqp, false_or]
    rw [hheld]
    by_cases hto : q.1 = p.1 ∧ q ≠ p ∧ Writes cfg mode (txns q.1) q.2
    · rw [if_pos hto] at hflight
      obtain ⟨htxn, -, hw⟩ := hto
      obtain ⟨t, x⟩ := q
      cases htxn
      have hsend := hshare.send (fun _ => store) x (hkeys p.1) hp fun entry _ hhome harrived => by
        rw [Arrived, hhome] at harrived
        exact hnew harrived.1
      refine hsend.perm hflight (List.Perm.refl _) fun entry _ => ?_
      have hself : (p.1, home cfg mode (txns p.1).originReplica entry) = p ↔
          home cfg mode (txns p.1).originReplica entry = p.2 :=
        ⟨fun heq => congrArg Prod.snd heq, fun heq => Prod.ext rfl heq⟩
      rw [Arrived, Arrived, hstarted, List.mem_cons, hself]
      tauto
    · rw [if_neg hto] at hflight
      refine hshare.perm hflight (List.Perm.refl _) fun entry _ => ?_
      rw [Arrived, Arrived, hstarted, List.mem_cons]
      refine and_congr_left fun hto' => or_iff_right fun heq => ?_
      -- the home is the participant itself, or it was sent a message
      obtain ⟨htxn, hpart⟩ := Prod.ext_iff.mp heq
      rcases hto' with hhome | hw
      · exact hqp (Prod.ext htxn (hhome.symm.trans hpart))
      · exact hto ⟨htxn, hqp, hw⟩

theorem Exchange.start (h : Exchange cfg mode txns s) (hd : DistinctChannels cfg mode txns)
    (hkeys : ∀ i, (txns i).client.keys.Nodup) {thread : Nat} {p : Part} {store : Key → Record}
    (hs : Workers.start cfg mode txns s thread p store = some s') : Exchange cfg mode txns s' := by
  have hlinked := h.linked.start hd hs
  obtain ⟨hp, hnew, manager, sent, hcreated, hcases⟩ := start_cases hs
  have hstep : s'.started = p :: s.started ∧ s'.handled = s.handled := by
    rcases hcases with ⟨-, rfl⟩ | ⟨-, rfl⟩
    · exact ⟨rfl, rfl⟩
    · exact ⟨rfl, rfl⟩
  obtain ⟨hstarted, hhandled⟩ := hstep
  have hheld_ne : ∀ q, q ≠ p → held cfg mode txns s' q = held cfg mode txns s q := by
    intro q hqp
    rw [held, held, hhandled, hstarted]
    simp only [List.mem_cons, hqp, false_or]
  -- at first it holds its own keys
  have hmanager : manager.objects.keys.Perm (held cfg mode txns s' p) := by
    have hown := @created_keys cfg mode (txns p.1) (fun _ => store) p.2 hp (hkeys p.1)
    rw [hcreated] at hown
    rw [held, hhandled, h.unstarted p hnew, hstarted, if_pos List.mem_cons_self]
    exact hown
  have hold : ∀ a c q sm, (s.workers a).activeTxns c = some (q, sm) → q ≠ p := by
    intro a c q sm hq
    exact ne_of_mem_of_not_mem ((h.linked.works a).active c q sm hq).1 hnew
  have hdone : ∀ q ∈ s.finished, q ≠ p :=
    fun q hq => ne_of_mem_of_not_mem (h.linked.finished q hq) hnew
  obtain ⟨hactive, hfinished⟩ := h.managers (p := p) hheld_ne (fun a c q sm hq => by
    rcases hcases with ⟨-, rfl⟩ | ⟨hready, rfl⟩
    · exact .inr ⟨hold a c q sm hq, hq⟩
    · rcases activeTxns_set_cases hq with ⟨-, -, hset⟩ | ⟨-, hq'⟩
      · cases hset
        exact .inl ⟨rfl, hmanager, hready⟩
      · exact .inr ⟨hold a c q sm hq', hq'⟩) fun q hq => by
    rcases hcases with ⟨hready, rfl⟩ | ⟨-, rfl⟩
    · rcases List.mem_cons.mp hq with rfl | hq
      · rw [← hmanager.length_eq]
        exact .inl ⟨rfl, ready_iff_length.mp hready⟩
      · exact .inr ⟨hdone q hq, hq⟩
    · exact .inr ⟨hdone q hq, hq⟩
  refine ⟨hlinked, fun q hq => h.share_start hd hkeys hs hstarted hhandled hq,
    fun q hq r hrq hne hw => ?_, fun q hq => ?_, ?_, ?_⟩
  · have hflight := inFlight_start h.linked hd hs (writes_participant hw)
    rw [sent_isFor hd store hp (writes_participant hw)] at hflight
    rw [hhandled]
    rw [hstarted] at hq
    rcases List.mem_cons.mp hq with rfl | hq
    · rw [if_pos ⟨hrq, hne, hw⟩] at hflight
      refine ⟨_, List.mem_append_right _ (hflight.mem_iff.mpr List.mem_cons_self), ?_⟩
      rw [resultOf, List.map_map, hrq]
      exact List.map_id _
    · obtain ⟨message, hm, hk⟩ := h.told q hq r hrq hne hw
      refine ⟨message, ?_, hk⟩
      rcases List.mem_append.mp hm with hm | hm
      · exact List.mem_append_left _ hm
      · exact List.mem_append_right _ (hflight.mem_iff.mpr (List.mem_append_right _ hm))
  · rw [hhandled]
    rw [hstarted] at hq
    exact h.unstarted q fun hmem => hq (List.mem_cons_of_mem p hmem)
  · exact hactive
  · exact hfinished

/-! ## Every run -/

theorem exchange_reachable (hkeys : ∀ i, (txns i).client.keys.Nodup)
    (hd : DistinctChannels cfg mode txns) (h : (machine cfg mode txns).Reachable s) :
    Exchange cfg mode txns s := by
  refine h.invariant exchange_init fun s e s' _ _ hs hnext => ?_
  cases e with
  | start thread p store => exact hs.start hd hkeys hnext
  | receive m i => exact hs.receive hd hnext
  | linkUnlink m => exact hs.linkUnlink hd hnext
  | gotMessage m thread => exact hs.gotMessage hd hnext

/-- A message in the queue of a worker is for a participant that waits. -/
theorem Exchange.queued (h : Exchange cfg mode txns s)
    (hnone : ∀ p ∈ s.finished, inFlight cfg txns s p = []) {m thread : Nat} {message : ReadResult}
    (hm : message ∈ (s.workers (m, thread)).messages) :
    ((s.workers (m, thread)).activeTxns message.destinationChannel).isSome := by
  obtain ⟨p, hp, rfl, hchannel, rfl⟩ := (h.linked.works (m, thread)).queued message hm
  by_cases hfinished : p ∈ s.finished
  · have hmem : message ∈ inFlight cfg txns s p :=
      List.mem_append_right _ (List.mem_filter.mpr ⟨hm, decide_eq_true hchannel.symm⟩)
    rw [hnone p hfinished] at hmem
    cases hmem
  · obtain ⟨manager, hactive⟩ := h.linked.waiting p hp hfinished
    rw [← hchannel, hactive]
    rfl

/-- A participant with a record to write is ready exactly when it has handled a
message from every other one. From then on no message is on its way to it, none
will be sent, and a worker finds the manager of each message it gets. -/
theorem ready_after_last (hkeys : ∀ i, (txns i).client.keys.Nodup)
    (hd : DistinctChannels cfg mode txns) (h : (machine cfg mode txns).Reachable s) :
    (∀ p ∈ s.started, Writes cfg mode (txns p.1) p.2 →
      (p ∈ s.finished ↔ ∀ y ∈ participants cfg mode (txns p.1), y ≠ p.2 →
        ∃ message ∈ s.handled p,
          message.entries.map Prod.fst = ownKeys cfg mode (txns p.1) y)) ∧
    (∀ p ∈ s.finished, inFlight cfg txns s p = [] ∧
      ∀ y ∈ participants cfg mode (txns p.1), (p.1, y) ∈ s.started) ∧
    ∀ m thread, ∀ message ∈ (s.workers (m, thread)).messages,
      ((s.workers (m, thread)).activeTxns message.destinationChannel).isSome := by
  have hs := exchange_reachable hkeys hd h
  have hcomplete : ∀ p ∈ s.finished, inFlight cfg txns s p = [] ∧
      ∀ y ∈ participants cfg mode (txns p.1), (p.1, y) ∈ s.started := by
    intro p hp
    have hshare := hs.share p (hs.linked.valid p (hs.linked.finished p hp))
    obtain ⟨hnone, harrived⟩ := hshare.complete (hkeys p.1) (hs.finished p hp)
    refine ⟨hnone, fun y hy => ?_⟩
    obtain ⟨entry, he, rfl⟩ := mem_participants.mp hy
    exact (harrived entry he).1
  refine ⟨fun p hp hw => ⟨fun hfinished y hy hne => ?_, fun hall => ?_⟩, hcomplete,
    fun m thread message hm => hs.queued (fun p hp => (hcomplete p hp).1) hm⟩
  · obtain ⟨hnone, hstarted⟩ := hcomplete p hfinished
    obtain ⟨message, hm, hk⟩ := hs.told (p.1, y) (hstarted y hy) p rfl
      (fun heq => hne (congrArg Prod.snd heq).symm) hw
    rw [hnone, List.append_nil] at hm
    exact ⟨message, hm, hk⟩
  · by_contra hunfinished
    obtain ⟨manager, hactive⟩ := hs.linked.waiting p hp hunfinished
    obtain ⟨hmanager, hready⟩ := hs.active _ _ _ _ hactive
    have hshare := hs.share p (hs.linked.valid p hp)
    have hsub : (txns p.1).client.keys ⊆ held cfg mode txns s p := by
      intro k hk
      obtain ⟨entry, he, rfl⟩ := List.mem_map.mp hk
      have hown : ∀ y, home cfg mode (txns p.1).originReplica entry = y →
          entry.key ∈ ownKeys cfg mode (txns p.1) y := by
        intro y hy
        exact List.mem_map_of_mem (List.mem_filter.mpr ⟨he, decide_eq_true hy⟩)
      rw [held, if_pos hp]
      by_cases hhome : home cfg mode (txns p.1).originReplica entry = p.2
      · exact List.mem_append_right _ (hown _ hhome)
      · obtain ⟨message, hm, hk⟩ := hall _ (mem_participants.mpr ⟨entry, he, rfl⟩) hhome
        refine List.mem_append_left _ (List.mem_flatMap.mpr ⟨message, hm, ?_⟩)
        rw [hk]
        exact hown _ rfl
    have hle := ((hkeys p.1).subperm hsub).length_le
    have hge := (List.subperm_of_subset hshare.nodup.of_append_right fun k hk => by
      obtain ⟨entry, he, rfl, -⟩ := (hshare.mem k).mp (List.mem_append_right _ hk)
      exact List.mem_map_of_mem he : (held cfg mode txns s p).Subperm (txns p.1).client.keys)
    have heq := Nat.le_antisymm hge.length_le hle
    rw [← hmanager.length_eq] at heq
    rw [ready_iff_length.mpr heq] at hready
    cases hready

/-- One transaction writes at two partitions; the message to one of them is
there before its channel is linked. -/
theorem ready_after_last_both : ∃ s, (machine { nodesPerReplica := 2 } 0 fun i =>
      { txnId := i,
        readWriteSet := if i = 7 then [⟨[48], 0, 0⟩, ⟨[49], 1, 0⟩] else [] }).Reachable s ∧
    s.finished = [(7, 1, 0), (7, 0, 0)] ∧
    ∀ p ∈ s.finished, inFlight { nodesPerReplica := 2 } (fun i =>
      { txnId := i,
        readWriteSet := if i = 7 then [⟨[48], 0, 0⟩, ⟨[49], 1, 0⟩] else [] }) s p = [] := by
  obtain ⟨s, hs, hfinished⟩ := Machine.exists_of_trace
    (m := machine { nodesPerReplica := 2 } 0 fun i =>
      { txnId := i, readWriteSet := if i = 7 then [⟨[48], 0, 0⟩, ⟨[49], 1, 0⟩] else [] })
    (P := fun s => s.finished = [(7, 1, 0), (7, 0, 0)])
    [.start 4 (7, 0, 0) fun _ => ⟨[], 0, 0⟩, .start 5 (7, 1, 0) fun _ => ⟨[], 0, 0⟩, .receive 1 0,
      .linkUnlink 0, .receive 0 0, .gotMessage 0 4, .linkUnlink 1, .gotMessage 1 5] (by decide)
  have hseven : ∀ p : Part, p.2 ∈ participants { nodesPerReplica := 2 } 0
      { txnId := p.1, readWriteSet := if p.1 = 7 then [⟨[48], 0, 0⟩, ⟨[49], 1, 0⟩] else [] } →
      p.1 = 7 := by
    intro p hp
    by_contra hne
    rw [if_neg hne] at hp
    exact absurd hp List.not_mem_nil
  refine ⟨s, hs, hfinished, fun p hp => ((ready_after_last (fun i => ?_) ?_ hs).2.1 p hp).1⟩
  · by_cases hi : i = 7
    · rw [if_pos hi]
      show [([48] : Key), [49]].Nodup
      decide
    · rw [if_neg hi]
      exact List.nodup_nil
  · intro p q hp hq hm hc
    have hp := hseven p hp
    have hq := hseven q hq
    exact Prod.ext (hp.trans hq.symm) (Prod.ext hm (Prod.mk.inj hc).2)

end Calvin.Workers
