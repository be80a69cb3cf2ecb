import Calvin.Lib.Links
import Calvin.Scheduler.LockOwners
import Calvin.Scheduler.ReplicaSpec
import Calvin.Theorems.RequestChopping

/-!
# No distributed deadlock without remasters

A copy waits for locks behind earlier copies of its origin, and for the records
of the other participants of its transaction. Both waits go down in one order,
that of the logs.

* `Exchange`: what a participant has read is on its way to each writer or has
  reached it;
* `progress`: as long as something is unfinished, some participant can take a
  step.
-/

namespace Calvin.Replica

open Function Lib LockManager DeterministicScheduler

/-- A participant that still has to take a step. -/
def Unfinished (cfg : ClusterConfig) (merge : List TxnProto) (s : Replica) (m : Nat) (p : Ptr) :
    Prop :=
  p < (stream cfg merge m).length ∧ p ∉ (s.nodes m).deleted

/-- The participant that a step is for: it has its locks and moves on to build
its manager, it executes, or it releases its locks. -/
def actor (s : Replica) : Event → Option (Nat × Ptr)
  | .node m .dispatch => (s.nodes m).readyTxns.head?.map fun p => (m, p)
  | .start m => (s.nodes m).txnsQueue.head?.map fun p => (m, p)
  | .node m (.run p _ _) => some (m, p)
  | .node m .handleDone => (s.nodes m).doneQueue.head?.map fun p => (m, p)
  | _ => none

/-- An unfinished participant can take a step. -/
def CanStep (cfg : ClusterConfig) (merge : List TxnProto) (compute : Compute) (init : Key → Record)
    (s : Replica) : Prop :=
  ∃ e m p, actor s e = some (m, p) ∧ Unfinished cfg merge s m p ∧
    ∃ s', (machine cfg 1 merge compute init).next s e = some s'

section

variable {cfg : ClusterConfig} {logs : Nat → List TxnProto} {master : Key → Nat}
  {serial : List ClientTxn} {merge : List TxnProto} {compute : Compute} {init : Key → Record}
  {s s' : Replica} {m : Nat} {p q : Ptr}

/-! ## The exchange of read results -/

/-- The manager of a participant has been created. -/
def HasRead (node : Node) (p : Ptr) : Prop := (node.managers p).isSome ∨ Executed node p

/-- A message brings the records of a participant to the writer of an entry. -/
structure Brings (cfg : ClusterConfig) (merge : List TxnProto) (master : Key → Nat) (m : Nat)
    (q : Ptr) (entry : KeyEntry) (msg : ReadResult) : Prop where
  channel : msg.destinationChannel = channelOf (txnAt cfg merge m q).txnId entry.master
  node : msg.destinationNode =
    cfg.lookupMachineId (cfg.lookupPartition entry.key) cfg.localReplicaId
  keys : ∀ k, OwnKey cfg merge master m q k → ∃ x ∈ msg.entries, x.1 = k

/-- The writer of an entry has the records of a participant. -/
def Arrived (cfg : ClusterConfig) (merge : List TxnProto) (master : Key → Nat) (s : Replica)
    (m : Nat) (q : Ptr) (entry : KeyEntry) : Prop :=
  ∃ p < (stream cfg merge (cfg.lookupPartition entry.key)).length,
    (txnAt cfg merge (cfg.lookupPartition entry.key) p).client = (txnAt cfg merge m q).client ∧
    (txnAt cfg merge (cfg.lookupPartition entry.key) p).originReplica = entry.master ∧
    HasRead (s.nodes (cfg.lookupPartition entry.key)) p ∧
    ∀ sm, (s.nodes (cfg.lookupPartition entry.key)).managers p = some sm →
      ∀ k, OwnKey cfg merge master m q k → k ∈ sm.objects

/-- An entry that a participant writes elsewhere. -/
def WritesElsewhere (cfg : ClusterConfig) (merge : List TxnProto) (m : Nat) (q : Ptr)
    (entry : KeyEntry) : Prop :=
  entry ∈ (txnAt cfg merge m q).client.readWriteSet ∧
    ¬ StorageManager.Own (nodeConfig cfg m) (txnAt cfg merge m q).originReplica entry

/-- The lock table of a node, on which what it has parsed was locked. -/
abbrev NodeTable (cfg : ClusterConfig) (merge : List TxnProto) (m : Nat) (node : Node) : Prop :=
  Table (nodeConfig cfg m) 1 (txnAt cfg merge m) node.lockManager
    (List.range node.next) node.deleted

/-- A message that a participant can be handed. -/
def IsFor (cfg : ClusterConfig) (merge : List TxnProto) (m : Nat) (p : Ptr) (msg : ReadResult) :
    Prop :=
  msg.destinationNode = cfg.lookupMachineId m cfg.localReplicaId ∧
    msg.destinationChannel =
      channelOf (txnAt cfg merge m p).txnId (txnAt cfg merge m p).originReplica

structure Exchange (cfg : ClusterConfig) (merge : List TxnProto) (master : Key → Nat)
    (s : Replica) : Prop where
  table : ∀ m, NodeTable cfg merge m (s.nodes m)
  own : ∀ m p sm, (s.nodes m).managers p = some sm →
    ∀ k, OwnKey cfg merge master m p k → k ∈ sm.objects
  sent : ∀ m q, q < (stream cfg merge m).length → HasRead (s.nodes m) q →
    ∀ entry, WritesElsewhere cfg merge m q entry →
      (∃ msg ∈ s.network, Brings cfg merge master m q entry msg) ∨
        Arrived cfg merge master s m q entry

theorem exchange_init : Exchange cfg merge master (machine cfg 1 merge compute init).init where
  table _ := ⟨fun _ => List.nodup_nil, fun _ _ h => absurd h List.not_mem_nil⟩
  own _ _ _ h := by cases h
  sent _ _ _ h := by
    rcases h with h | h | h
    · cases h
    · exact absurd h List.not_mem_nil
    · exact absurd h List.not_mem_nil

/-- A step of a node in which no manager loses an object. -/
theorem Exchange.setNode {node : Node} {network : List ReadResult}
    (hx : Exchange cfg merge master s) (htable : NodeTable cfg merge m node)
    (hown : ∀ p sm, node.managers p = some sm →
      ∀ k, OwnKey cfg merge master m p k → k ∈ sm.objects)
    (hread : ∀ p, HasRead (s.nodes m) p → HasRead node p)
    (hkept : ∀ p, HasRead (s.nodes m) p → ∀ sm', node.managers p = some sm' →
      ∃ sm, (s.nodes m).managers p = some sm ∧ ∀ k ∈ sm.objects, k ∈ sm'.objects)
    (hnew : ∀ q, HasRead node q → HasRead (s.nodes m) q ∨
      ∀ entry, WritesElsewhere cfg merge m q entry →
        ∃ msg ∈ network, Brings cfg merge master m q entry msg)
    (hnetwork : ∀ msg ∈ s.network, msg ∈ network ∨
      ∀ m' q entry, q < (stream cfg merge m').length → WritesElsewhere cfg merge m' q entry →
        Brings cfg merge master m' q entry msg →
        Arrived cfg merge master { setNode s m node with network } m' q entry) :
    Exchange cfg merge master { setNode s m node with network } := by
  have harrived : ∀ m' q entry, Arrived cfg merge master s m' q entry →
      Arrived cfg merge master { Replica.setNode s m node with network } m' q entry := by
    rintro m' q entry ⟨p, hp, hclient, horigin, hhas, hkeys⟩
    refine ⟨p, hp, hclient, horigin, ?_⟩
    by_cases hpart : cfg.lookupPartition entry.key = m
    · simp only [Replica.setNode, hpart, update_self]
      rw [hpart] at hhas hkeys
      refine ⟨hread p hhas, fun sm' hsm' k hk => ?_⟩
      obtain ⟨sm, hsm, hsub⟩ := hkept p hhas sm' hsm'
      exact hsub k (hkeys sm hsm k hk)
    · simp only [Replica.setNode, update_of_ne hpart]
      exact ⟨hhas, hkeys⟩
  refine ⟨fun m' => ?_, fun m' p sm hsm => ?_, fun m' q hq hhas entry hentry => ?_⟩
  · by_cases hm' : m' = m
    · subst hm'
      simp only [Replica.setNode, update_self]
      exact htable
    · simp only [Replica.setNode, update_of_ne hm']
      exact hx.table m'
  · by_cases hm' : m' = m
    · subst hm'
      simp only [Replica.setNode, update_self] at hsm
      exact hown p sm hsm
    · simp only [Replica.setNode, update_of_ne hm'] at hsm
      exact hx.own m' p sm hsm
  · have hold : HasRead (s.nodes m') q →
        (∃ msg ∈ network, Brings cfg merge master m' q entry msg) ∨
          Arrived cfg merge master { Replica.setNode s m node with network } m' q entry := by
      intro hhas
      rcases hx.sent m' q hq hhas entry hentry with ⟨msg, hmsg, hbrings⟩ | harr
      · rcases hnetwork msg hmsg with hmsg | hdelivered
        · exact .inl ⟨msg, hmsg, hbrings⟩
        · exact .inr (hdelivered m' q entry hq hentry hbrings)
      · exact .inr (harrived m' q entry harr)
    by_cases hm' : m' = m
    · subst hm'
      simp only [Replica.setNode, update_self] at hhas
      rcases hnew q hhas with hhas | hmsg
      · exact hold hhas
      · exact .inl (hmsg entry hentry)
    · simp only [Replica.setNode, update_of_ne hm'] at hhas
      exact hold hhas

/-- A step of a node that neither creates nor ends a manager. -/
theorem Exchange.quiet {node : Node} (hx : Exchange cfg merge master s)
    (htable : NodeTable cfg merge m node)
    (hmanagers : node.managers = (s.nodes m).managers)
    (hexec : ∀ p, Executed node p ↔ Executed (s.nodes m) p) :
    Exchange cfg merge master (Replica.setNode s m node) := by
  have hread : ∀ p, HasRead node p ↔ HasRead (s.nodes m) p := fun p => by
    rw [HasRead, HasRead, hmanagers, hexec]
  refine @Exchange.setNode _ _ _ _ _ node s.network hx htable (fun p sm hsm => ?_)
    (fun p => (hread p).mpr)
    (fun p _ sm' hsm' => ⟨sm', ?_, fun _ hk => hk⟩) (fun q hq => .inl ((hread q).mp hq))
    fun msg hmsg => .inl hmsg
  · rw [hmanagers] at hsm
    exact hx.own m p sm hsm
  · rwa [← hmanagers]

section

variable {node : Node}

variable (hl : Logs logs master serial) (hm : IsMerge logs merge)

include hl hm

/-- A worker creates a manager: it has its own records, and sends them to the
writers elsewhere. -/
theorem exchange_start {sent : List ReadResult}
    (hi : Inv cfg merge master serial compute init s) (hx : Exchange cfg merge master s)
    (h : DeterministicScheduler.start (nodeConfig cfg m) 1 (txnAt cfg merge m) (s.nodes m) =
      some (node, sent)) :
    Exchange cfg merge master { setNode s m node with network := s.network ++ sent } := by
  obtain ⟨phase, pushed, freed, hs⟩ := hi.scheduled m
  obtain ⟨p, rest, hq, hp, -⟩ := hs.start h
  obtain ⟨p', rest', hq', rfl, rfl⟩ := start_cases h
  rw [hq] at hq'
  obtain ⟨rfl, rfl⟩ := List.cons.inj hq'
  have hlen : p < (stream cfg merge m).length :=
    Nat.lt_of_lt_of_le (hs.lt_next (by rw [hp]; decide)) (hi.next m)
  have hreader : (nodeConfig cfg m).relativeNodeId ∈
      (txnOf (txnAt cfg merge m) (s.nodes m) p).readers := txnAt_readers hlen
  obtain ⟨hobjects, -⟩ := @StorageManager.create_spec (nodeConfig cfg m) 1
    (s.nodes m).store (txnOf (txnAt cfg merge m) (s.nodes m) p) (by decide) hreader
  -- it was queued, so it had no manager
  have hnot : ¬ HasRead (s.nodes m) p := by
    rintro (h | h)
    · rw [(hs.running p).mp h] at hp
      cases hp
    · rcases (executed_iff hs p).mp h with h | h <;> rw [h] at hp <;> cases hp
  refine hx.setNode (hx.table m) (fun q sm hsm k hk => ?_) (fun q hq => ?_)
    (fun q hq sm' hsm' => ?_)
    (fun q hq => ?_) fun msg hmsg => .inl (List.mem_append_left _ hmsg)
  · by_cases hqp : q = p
    · subst hqp
      simp only [update_self, Option.some.injEq] at hsm
      subst hsm
      have hstored := (hobjects k .stored).mpr ⟨rfl, (hl.ownKey_iff hm hlen).mp hk⟩
      exact AList.lookup_isSome.mp (by rw [hstored]; rfl)
    · simp only [update_of_ne hqp] at hsm
      exact hx.own m q sm hsm k hk
  · refine hq.imp_left fun h => ?_
    by_cases hqp : q = p
    · simp [hqp]
    · simpa only [update_of_ne hqp] using h
  · have hqp : q ≠ p := fun h => hnot (h ▸ hq)
    simp only [update_of_ne hqp] at hsm'
    exact ⟨sm', hsm', fun _ hk => hk⟩
  · by_cases hqp : q = p
    · subst hqp
      refine .inr fun entry hentry => ?_
      have hne : ¬ StorageManager.home (nodeConfig cfg m) 1 (txnAt cfg merge m q).originReplica
          entry = StorageManager.here (nodeConfig cfg m)
            (txnOf (txnAt cfg merge m) (s.nodes m) q) := fun h =>
        hentry.2 ((StorageManager.home_eq_here_iff_own (by decide)).mp h)
      obtain ⟨msg, hmsg, hchannel, hnode, hentries⟩ := StorageManager.mem_create_sent 1
        (s.nodes m).store hreader hentry.1 hne
      refine ⟨msg, List.mem_append_right _ hmsg, hchannel, hnode, fun k hk => ?_⟩
      obtain ⟨e, he, rfl, hown⟩ := (hl.ownKey_iff hm hlen).mp hk
      exact ⟨_, hentries e he ((StorageManager.home_eq_here_iff_own (by decide)).mpr hown), rfl⟩
    · refine .inl (hq.imp_left fun h => ?_)
      simpa only [update_of_ne hqp] using h

/-- A message reaches the writer it is for. -/
theorem exchange_deliver {i : Nat} (hi : Inv cfg merge master serial compute init s)
    (hx : Exchange cfg merge master s) (hone : OneChannel cfg merge s (.deliver m p i))
    (h : deliver cfg merge s m p i = some s') : Exchange cfg merge master s' := by
  obtain ⟨msg, hmsg, h⟩ := Option.bind_eq_some_iff.mp h
  obtain ⟨hdest, h⟩ := Option.ite_none_right_eq_some.mp h
  obtain ⟨node, hread, rfl⟩ := Option.map_eq_some_iff.mp h
  obtain ⟨phase, pushed, freed, hs⟩ := hi.scheduled m
  obtain ⟨sm, hsm, -, rfl⟩ := readResult_cases hread
  have hp : phase p = .running := (hs.running p).mp (by rw [hsm]; rfl)
  have hlen : p < (stream cfg merge m).length :=
    Nat.lt_of_lt_of_le (hs.lt_next (by rw [hp]; decide)) (hi.next m)
  have hold : ∀ q, HasRead { s.nodes m with
      managers := update (s.nodes m).managers p (some (sm.handleReadResult msg.entries)) } q ↔
        HasRead (s.nodes m) q := by
    intro q
    refine or_congr_left ?_
    by_cases hqp : q = p
    · simp [hqp, hsm]
    · simp only [update_of_ne hqp]
  refine hx.setNode (hx.table m) (fun q sm' hsm' k hk => ?_) (fun q => (hold q).mpr)
    (fun q hq sm' hsm' => ?_)
    (fun q hq => .inl ((hold q).mp hq)) fun msg' hmsg' => ?_
  · by_cases hqp : q = p
    · subst hqp
      simp only [update_self, Option.some.injEq] at hsm'
      subst hsm'
      exact StorageManager.mem_handleReadResult.mpr (.inr (hx.own m q sm hsm k hk))
    · simp only [update_of_ne hqp] at hsm'
      exact hx.own m q sm' hsm' k hk
  · by_cases hqp : q = p
    · subst hqp
      simp only [update_self, Option.some.injEq] at hsm'
      subst hsm'
      exact ⟨sm, hsm, fun k hk => StorageManager.mem_handleReadResult.mpr (.inr hk)⟩
    · simp only [update_of_ne hqp] at hsm'
      exact ⟨sm', hsm', fun _ hk => hk⟩
  · rcases List.mem_cons.mp ((cons_eraseIdx_perm hmsg).mem_iff.mpr hmsg') with rfl | hrest
    · -- the message delivered: `p` is the only copy with its channel
      refine .inr fun m' q entry hq hentry hbrings => ?_
      have hpart : cfg.lookupPartition entry.key = m :=
        Nat.add_left_cancel (hbrings.node.symm.trans hdest.1)
      subst hpart
      obtain ⟨p', hp', hclient, horigin⟩ := hl.exists_ptr cfg hm (hl.client_mem hm hq)
        (List.mem_append_right _ hentry.1)
      have hid : (txnAt cfg merge (cfg.lookupPartition entry.key) p').txnId =
          (txnAt cfg merge m' q).txnId := congrArg ClientTxn.txnId hclient
      have hpp : p' = p := by
        refine hone p' hp' ?_
        rw [← hdest.2, hbrings.channel, horigin, hid]
      subst hpp
      refine ⟨p', hp', hclient, horigin, ?_⟩
      simp only [setNode, update_self]
      refine ⟨(hold p').mpr (.inl (by rw [hsm]; rfl)), fun sm' hsm' k hk => ?_⟩
      simp only [Option.some.injEq] at hsm'
      subst hsm'
      exact StorageManager.mem_handleReadResult.mpr (.inl (hbrings.keys k hk))
    · exact .inl hrest

omit hl hm in
/-- A transaction is executed; its manager is gone. -/
theorem exchange_run {guid random : Nat} {forword : Option TxnForword}
    (hx : Exchange cfg merge master s)
    (h : DeterministicScheduler.run (nodeConfig cfg m) 1 (txnAt cfg merge m) compute (s.nodes m) p
      guid random = some (node, forword)) :
    Exchange cfg merge master (setNode s m node) := by
  obtain ⟨sm, store, hsm, -, -, rfl⟩ := run_plain (by decide) h
  have hhas : HasRead (s.nodes m) p := .inl (by rw [hsm]; rfl)
  refine @Exchange.setNode _ _ _ _ _ _ s.network hx (hx.table m) (fun q sm' hsm' => ?_)
    (fun q hq => ?_)
    (fun q _ sm' hsm' => ?_) (fun q hq => .inl ?_) fun msg hmsg => .inl hmsg
  · by_cases hqp : q = p
    · simp [finish, hqp] at hsm'
    · simp only [finish, update_of_ne hqp] at hsm'
      exact hx.own m q sm' hsm'
  · by_cases hqp : q = p
    · exact .inr (.inl (by simp [finish, hqp]))
    · refine hq.imp (fun h => ?_) fun h => h.imp_left fun h => List.mem_append_left _ h
      simpa only [finish, update_of_ne hqp] using h
  · by_cases hqp : q = p
    · simp [finish, hqp] at hsm'
    · simp only [finish, update_of_ne hqp] at hsm'
      exact ⟨sm', hsm', fun _ hk => hk⟩
  · by_cases hqp : q = p
    · exact hqp ▸ hhas
    · refine hq.imp (fun h => ?_) fun h => h.imp_left fun h => ?_
      · simpa only [finish, update_of_ne hqp] using h
      · exact (List.mem_append.mp h).resolve_right fun h => hqp (List.mem_singleton.mp h)

theorem exchange_step {e : Event} (hone : OneChannel cfg merge s e)
    (hi : Inv cfg merge master serial compute init s) (hx : Exchange cfg merge master s)
    (h : (machine cfg 1 merge compute init).next s e = some s') : Exchange cfg merge master s' := by
  cases e with
  | start m =>
      obtain ⟨⟨node, sent⟩, hstart, rfl⟩ := Option.map_eq_some_iff.mp h
      exact exchange_start hl hm hi hx hstart
  | deliver m p i => exact exchange_deliver hl hm hi hx hone h
  | node m e =>
      obtain ⟨phase, pushed, freed, hs⟩ := hi.scheduled m
      simp only [machine, nodeStep] at h
      cases e with
      | parse =>
          simp only [step] at h
          obtain ⟨-, h⟩ := Option.ite_none_right_eq_some.mp h
          obtain ⟨node, hparse, rfl⟩ := Option.map_eq_some_iff.mp h
          obtain ⟨_, _, -, -, -, -, hmanagers, hdone, hdeleted⟩ :=
            hs.parse (by decide) (hl.asks_nodup hm m) hparse
          refine hx.quiet ?_ hmanagers fun p => by rw [Executed, Executed, hdone, hdeleted]
          obtain ⟨-, ⟨hmode, -⟩ | rfl⟩ := parse_any hparse
          · cases hmode
          · have hnew : (s.nodes m).next ∉ (s.nodes m).deleted := fun h =>
              Nat.lt_irrefl _ (hs.lt_next (by rw [(hs.deleted _).mp h]; decide))
            have htable := (hx.table m).lock List.not_mem_range_self hnew
            rw [← List.range_succ] at htable
            exact htable
      | verify =>
          obtain ⟨node, hverify, -⟩ := Option.map_eq_some_iff.mp h
          obtain ⟨entry, rest, v, hv, -⟩ := verify_cases hverify
          rw [hs.verifying] at hv
          cases hv
      | route =>
          obtain ⟨node, hroute, -⟩ := Option.map_eq_some_iff.mp h
          obtain ⟨v, status, hv, -, -⟩ := route_cases hroute
          rw [hs.verifying] at hv
          cases hv
      | dispatch =>
          obtain ⟨node, hdispatch, rfl⟩ := Option.map_eq_some_iff.mp h
          obtain ⟨-, p, rest, -, rfl⟩ := dispatch_cases hdispatch
          exact hx.quiet (hx.table m) rfl fun p => Iff.rfl
      | handleDone =>
          obtain ⟨node, hdone, rfl⟩ := Option.map_eq_some_iff.mp h
          obtain ⟨p, rest, s₁, hq, hrel, rfl⟩ := handleDone_plain (by decide) hdone
          have hcommitted := hs.committed p (hq ▸ List.mem_cons_self)
          rcases releaseDone_cases hrel with ⟨hmarked, -⟩ | ⟨-, lockManager, out, hrelease, rfl⟩
          · exact absurd (hcommitted.symm.trans hmarked) (by decide)
          · refine hx.quiet ((hx.table m).release hrelease).1 rfl fun q => ?_
            simp only [Executed, hq, List.mem_cons]
            tauto
      | start => cases h
      | readResult p entries => cases h
      | run p guid random =>
          obtain ⟨node, hnode, rfl⟩ := Option.map_eq_some_iff.mp h
          obtain ⟨⟨node', forword⟩, hrun, rfl⟩ := Option.map_eq_some_iff.mp hnode
          exact exchange_run hx hrun

end

/-! ## What waits for what -/

section

variable {phase : Ptr → Phase} {pushed : List Ptr} {freed : Ptr → List Key}

/-- A finished transaction can give its locks back. -/
theorem exists_handleDone {node : Node}
    (hkeys : ∀ p, ((locksAt cfg merge m p).map Prod.fst).Nodup)
    (hs : Scheduled (nodeConfig cfg m) 1 (txnAt cfg merge m) node phase pushed freed)
    {rest : List Ptr} (hq : node.doneQueue = p :: rest) :
    ∃ node', DeterministicScheduler.handleDone (nodeConfig cfg m) 1 (txnAt cfg merge m) node =
      some node' := by
  have hpq : p ∈ node.doneQueue := hq ▸ List.mem_cons_self
  have hp : phase p = .done := (hs.done p).mp hpq
  have hpushed : p ∈ pushed := (hs.pushed p).mpr (by rw [hp]; decide)
  obtain ⟨lm, out, freed', hrelease, -⟩ :=
    hs.lock.release hkeys rfl hpushed (hs.unfreed p (by rw [hp]; decide))
  have hunmarked : ¬ node.status p = .abortedWithoutLock := by
    rw [hs.committed p hpq]
    decide
  have hwake : wakeUp 1 (txnAt cfg merge m) node p = some (node.waits, []) := if_neg fun h => by
    cases h.1
  unfold DeterministicScheduler.handleDone
  rw [hs.verifying, hq]
  simp only [Option.isNone_none, if_true, hwake, Option.bind_some, List.foldl_nil, releaseDone,
    if_neg hunmarked, hrelease, Option.map_some]
  exact ⟨_, rfl⟩

/-- A participant with its locks that does not execute, and one that is done,
can take a step. -/
theorem canStep_of_queued
    (hkeys : ∀ p, ((locksAt cfg merge m p).map Prod.fst).Nodup)
    (hnext : (s.nodes m).next ≤ (stream cfg merge m).length)
    (hs : Scheduled (nodeConfig cfg m) 1 (txnAt cfg merge m) (s.nodes m) phase pushed freed)
    (hp : phase p = .ready ∨ phase p = .queued ∨ phase p = .done) :
    CanStep cfg merge compute init s := by
  have hunfinished : ∀ q, phase q ≠ .waiting → phase q ≠ .released → Unfinished cfg merge s m q :=
    fun q hw hr => ⟨Nat.lt_of_lt_of_le (hs.lt_next hw) hnext, fun h => hr ((hs.deleted q).mp h)⟩
  rcases hp with hp | hp | hp
  · obtain ⟨q, rest, hq⟩ := List.exists_cons_of_ne_nil (List.ne_nil_of_mem ((hs.ready p).mpr hp))
    have hphase : phase q = .ready := (hs.ready q).mp (hq ▸ List.mem_cons_self)
    refine ⟨.node m .dispatch, m, q, by simp [actor, hq],
      hunfinished q (by rw [hphase]; decide) (by rw [hphase]; decide), ?_⟩
    simp only [machine, nodeStep, step, DeterministicScheduler.dispatch, hs.verifying, hq]
    exact ⟨_, rfl⟩
  · obtain ⟨q, rest, hq⟩ := List.exists_cons_of_ne_nil (List.ne_nil_of_mem ((hs.queued p).mpr hp))
    have hphase : phase q = .queued := (hs.queued q).mp (hq ▸ List.mem_cons_self)
    refine ⟨.start m, m, q, by simp [actor, hq],
      hunfinished q (by rw [hphase]; decide) (by rw [hphase]; decide), ?_⟩
    simp only [machine, Replica.start, DeterministicScheduler.start, hq]
    exact ⟨_, rfl⟩
  · obtain ⟨q, rest, hq⟩ := List.exists_cons_of_ne_nil (List.ne_nil_of_mem ((hs.done p).mpr hp))
    have hphase : phase q = .done := (hs.done q).mp (hq ▸ List.mem_cons_self)
    obtain ⟨node', hnode'⟩ := exists_handleDone hkeys hs hq
    refine ⟨.node m .handleDone, m, q, by simp [actor, hq],
      hunfinished q (by rw [hphase]; decide) (by rw [hphase]; decide), setNode s m node', ?_⟩
    simp only [machine, nodeStep, step, hnode', Option.map_some]

/-- The front of a queue is granted. -/
theorem not_head_of_ungranted {requests : List LockRequest} (hn : (owners requests).Nodup)
    (hp : p ∈ owners (LockQueue.ungranted requests)) :
    ∃ r rest, requests = r :: rest ∧ p ∈ owners rest := by
  cases requests with
  | nil => exact absurd hp List.not_mem_nil
  | cons r rest =>
      refine ⟨r, rest, rfl, ?_⟩
      obtain ⟨x, hx, rfl⟩ := mem_owners.mp hp
      rw [LockQueue.ungranted] at hx
      split at hx
      · exact mem_owners.mpr ⟨x, hx, rfl⟩
      · exact mem_owners.mpr ⟨x, (List.dropWhile_suffix _).subset hx, rfl⟩

variable (hl : Logs logs master serial) (hm : IsMerge logs merge)

include hl hm

/-- A lock is on a key of the transaction's origin. -/
theorem origin_of_asks (hp : p < (stream cfg merge m).length) {a : Key × LockMode}
    (ha : a ∈ locksAt cfg merge m p) : (txnAt cfg merge m p).originReplica = master a.1 := by
  have hentry : ∃ e ∈ (txnAt cfg merge m p).client.entries, a.1 = e.key ∧
      LockManager.locks (nodeConfig cfg m) 1 (txnAt cfg merge m p).originReplica e = true := by
    rcases List.mem_append.mp ha with ha | ha
    · obtain ⟨e, he, rfl⟩ := List.mem_map.mp ha
      obtain ⟨he, hlocks⟩ := List.mem_filter.mp he
      exact ⟨e, List.mem_append_right _ he, rfl, hlocks⟩
    · obtain ⟨e, he, rfl⟩ := List.mem_map.mp ha
      obtain ⟨he, hlocks⟩ := List.mem_filter.mp he
      exact ⟨e, List.mem_append_left _ he, rfl, hlocks⟩
  obtain ⟨e, he, hkey, hlocks⟩ := hentry
  have hmaster : e.master = (txnAt cfg merge m p).originReplica := by
    by_contra hne
    simp [LockManager.locks, hne] at hlocks
  rw [hkey, ← hl.masters _ (hl.client_mem hm hp) e he, hmaster]

/-- A participant without all its locks waits for an unfinished one of a
transaction that comes before. -/
theorem waits_for_earlier (hx : Exchange cfg merge master s)
    (hnext : (s.nodes m).next ≤ (stream cfg merge m).length)
    (hs : Scheduled (nodeConfig cfg m) 1 (txnAt cfg merge m) (s.nodes m) phase pushed freed)
    (hlt : p < (s.nodes m).next) (hp : phase p = .waiting) :
    ∃ q, Unfinished cfg merge s m q ∧
      rank serial (txnAt cfg merge m q) < rank serial (txnAt cfg merge m p) := by
  have hnotPushed : p ∉ pushed := fun h => (hs.pushed p).mp h hp
  have hmissing : missing (s.nodes m).lockManager (locksAt cfg merge m) p ≠ 0 := fun h =>
    hnotPushed ((hs.lock.pushedIff p (List.mem_range.mpr hlt)).mpr h)
  obtain ⟨a, ha, hwait⟩ := List.countP_pos_iff.mp (Nat.pos_of_ne_zero hmissing)
  -- somebody stands before it in the queue of the key
  obtain ⟨r, rest, hqueue, hrest⟩ :=
    not_head_of_ungranted (hs.lock.nodup a.1) (of_decide_eq_true hwait)
  have hr : r ∈ (s.nodes m).lockManager.queue a.1 := hqueue ▸ List.mem_cons_self
  obtain ⟨hlocked, hask⟩ := hs.lock.asked a.1 r hr
  have hrlt : r.owner < (s.nodes m).next := List.mem_range.mp hlocked
  have hbefore : r.owner < p := by
    have hord := hs.lock.ordered a.1
    rw [hqueue, owners_cons] at hord
    exact (before_range hrlt hlt).mp ((List.pairwise_cons.mp hord).1 p hrest)
  have hplen := Nat.lt_of_lt_of_le hlt hnext
  have hrlen := Nat.lt_of_lt_of_le hrlt hnext
  refine ⟨r.owner, ⟨hrlen, ((hx.table m).owner a.1 r hr).2.1⟩, hl.rank_lt hm hplen hbefore ?_⟩
  rw [origin_of_asks hl hm hrlen hask, origin_of_asks hl hm hplen ha]

/-- A participant that executes has all records once all participants of its
transaction have read theirs and no message for it is under way. -/
theorem ready_of_quiet (hi : Inv cfg merge master serial compute init s)
    (hx : Exchange cfg merge master s)
    (hwrites : ∀ txn ∈ serial, ∀ entry ∈ txn.entries, ∃ w ∈ txn.readWriteSet,
      cfg.lookupPartition w.key = cfg.lookupPartition entry.key ∧ w.master = entry.master)
    (hp : p < (stream cfg merge m).length) {sm : StorageManager}
    (hsm : (s.nodes m).managers p = some sm)
    (hquiet : ∀ msg ∈ s.network, ¬ IsFor cfg merge m p msg)
    (hall : ∀ m' q, q < (stream cfg merge m').length →
      (txnAt cfg merge m' q).client = (txnAt cfg merge m p).client → HasRead (s.nodes m') q) :
    sm.readyToExecute (txnAt cfg merge m p) = true := by
  have hserial := hl.client_mem hm hp
  have hsub : ∀ k ∈ sm.objects, k ∈ (txnAt cfg merge m p).client.keys := by
    intro k hk
    obtain ⟨o, ho⟩ := Option.isSome_iff_exists.mp (AList.lookup_isSome.mpr hk)
    cases o with
    | stored =>
        have hown : OwnKey cfg merge master m p k := hi.objects m p sm hsm k _ ho
        exact hown.mem
    | copied val => exact (hi.objects m p sm hsm k _ ho).1
  rw [StorageManager.ready_iff (hl.distinctKeys _ hserial) hsub]
  intro k hk
  obtain ⟨e, he, rfl⟩ := List.mem_map.mp hk
  obtain ⟨q, hq, hclient, horigin⟩ := hl.exists_ptr cfg hm hserial he
  by_cases hown : OwnKey cfg merge master m p e.key
  · exact hx.own m p sm hsm e.key hown
  · -- the participant at the home of the key sends to a key that `p` writes
    obtain ⟨c, -, -, hreader, heq⟩ := txnAt_mem hp
    obtain ⟨e₀, he₀, hmaster₀, hpart₀⟩ := LowlatencySequencer.mem_partitions.mp hreader
    have hclient₀ : c.client = (txnAt cfg merge m p).client := by rw [heq]; rfl
    have horigin₀ : c.originReplica = (txnAt cfg merge m p).originReplica := by rw [heq]; rfl
    obtain ⟨w, hw, hwpart, hwmaster⟩ := hwrites _ hserial e₀ (by rw [← hclient₀]; exact he₀)
    have hwm : cfg.lookupPartition w.key = m := hwpart.trans hpart₀
    have hwo : w.master = (txnAt cfg merge m p).originReplica :=
      hwmaster.trans (hmaster₀.trans horigin₀)
    have helsewhere : WritesElsewhere cfg merge (cfg.lookupPartition e.key) q w := by
      refine ⟨by rw [hclient]; exact hw, fun h => hown ⟨hk, ?_, ?_⟩⟩
      · exact h.2.symm.trans hwm
      · rw [← hl.masters _ hserial e he, ← horigin, ← h.1, hwo]
    have harrived := hx.sent _ q hq (hall _ q hq hclient) w helsewhere
    rcases harrived with ⟨msg, hmsg, hb⟩ | ⟨p', hp', hclient', horigin', -, hkeys⟩
    · refine absurd ⟨hb.node.trans (by rw [hwm]), hb.channel.trans ?_⟩ (hquiet msg hmsg)
      rw [hwo]
      exact congrArg (fun t : ClientTxn => channelOf t.txnId _) hclient
    · subst hwm
      have hpp : p' = p := hl.eq_of_rank_eq hm hp hp' (horigin'.trans hwo) (by
        rw [rank, hclient', hclient])
      subst hpp
      refine hkeys sm hsm e.key ⟨by rw [hclient]; exact hk, rfl, ?_⟩
      rw [← hl.masters _ hserial e he, horigin]

omit hm in
/-- A complete transaction is executed. -/
theorem exists_run (hm : IsMerge logs merge) (hp : p < (stream cfg merge m).length)
    {sm : StorageManager} (hsm : (s.nodes m).managers p = some sm)
    (hready : sm.readyToExecute (txnAt cfg merge m p) = true) :
    ∃ s', (machine cfg 1 merge compute init).next s (.node m (.run p 0 0)) = some s' := by
  have hnot : (txnOf (txnAt cfg merge m) (s.nodes m) p).remasterTxn = false :=
    hl.not_remaster hm hp
  have hexec : Microbenchmark.execute compute (txnOf (txnAt cfg merge m) (s.nodes m) p) sm
      (s.nodes m).store = some (Microbenchmark.writeValues compute
        (txnOf (txnAt cfg merge m) (s.nodes m) p) sm (s.nodes m).store) := by
    rw [Microbenchmark.execute, if_neg (by rw [hnot]; decide)]
  simp only [machine, nodeStep, step, DeterministicScheduler.run, hsm, Option.bind_some, hready,
    if_true, if_neg (show ¬ 1 = 2 by decide), hexec, Option.map_some]
  exact ⟨_, rfl⟩

/-- Nothing is unfinished in a state in which no participant can take a step, if
those that execute and are not complete cannot be handed a message. -/
theorem none_unfinished_of_quiet (hi : Inv cfg merge master serial compute init s)
    (hx : Exchange cfg merge master s)
    (hwrites : ∀ txn ∈ serial, ∀ entry ∈ txn.entries, ∃ w ∈ txn.readWriteSet,
      cfg.lookupPartition w.key = cfg.lookupPartition entry.key ∧ w.master = entry.master)
    (hparsed : ∀ m, ∀ p < (stream cfg merge m).length, p < (s.nodes m).next)
    (hquiet : ∀ m p sm, (s.nodes m).managers p = some sm →
      sm.readyToExecute (txnAt cfg merge m p) = false →
        ∀ msg ∈ s.network, ¬ IsFor cfg merge m p msg)
    (hstuck : ¬ CanStep cfg merge compute init s) (n : Nat) :
    ∀ m p, Unfinished cfg merge s m p → rank serial (txnAt cfg merge m p) = n → False := by
  induction n using Nat.strong_induction_on with
  | _ n ih =>
      -- what waits for a lock waits for something of a smaller rank
      have hwaiting : ∀ m p, p < (stream cfg merge m).length →
          rank serial (txnAt cfg merge m p) = n → ∀ phase pushed freed,
          Scheduled (nodeConfig cfg m) 1 (txnAt cfg merge m) (s.nodes m) phase pushed freed →
          phase p ≠ .waiting := by
        intro m p hp hrank phase pushed freed hs hw
        obtain ⟨q, hq, hlt⟩ := waits_for_earlier hl hm hx (hi.next m) hs (hparsed m p hp) hw
        exact ih _ (hrank ▸ hlt) m q hq rfl
      have hhas : ∀ m p, p < (stream cfg merge m).length →
          rank serial (txnAt cfg merge m p) = n → HasRead (s.nodes m) p := by
        intro m p hp hrank
        obtain ⟨phase, pushed, freed, hs⟩ := hi.scheduled m
        have hqueued : ¬ (phase p = .ready ∨ phase p = .queued ∨ phase p = .done) := fun h =>
          hstuck (canStep_of_queued (hl.asks_nodup hm m) (hi.next m) hs h)
        cases hphase : phase p with
        | waiting => exact absurd hphase (hwaiting m p hp hrank phase pushed freed hs)
        | ready => exact absurd (.inl hphase) hqueued
        | queued => exact absurd (.inr (.inl hphase)) hqueued
        | running => exact .inl ((hs.running p).mpr hphase)
        | done => exact absurd (.inr (.inr hphase)) hqueued
        | released => exact .inr (.inr ((hs.deleted p).mpr hphase))
      intro m p hun hrank
      have hread := hhas m p hun.1 hrank
      obtain ⟨phase, pushed, freed, hs⟩ := hi.scheduled m
      rcases hread with hread | hdone | hdeleted
      · obtain ⟨sm, hsm⟩ := Option.isSome_iff_exists.mp hread
        have hready : sm.readyToExecute (txnAt cfg merge m p) = true := by
          by_contra hnot
          rw [Bool.not_eq_true] at hnot
          have hready := ready_of_quiet hl hm hi hx hwrites hun.1 hsm (hquiet m p sm hsm hnot)
            fun m' q hq hclient => hhas m' q hq (by rw [rank, hclient]; exact hrank)
          rw [hnot] at hready
          cases hready
        exact hstuck ⟨.node m (.run p 0 0), m, p, rfl, hun, exists_run hl hm hun.1 hsm hready⟩
      · exact hstuck (canStep_of_queued (hl.asks_nodup hm m) (hi.next m) hs
          (.inr (.inr ((hs.done p).mp hdone))))
      · exact hun.2 hdeleted

/-- The same when no message is under way. -/
theorem none_unfinished (hi : Inv cfg merge master serial compute init s)
    (hx : Exchange cfg merge master s) (hnetwork : s.network = [])
    (hwrites : ∀ txn ∈ serial, ∀ entry ∈ txn.entries, ∃ w ∈ txn.readWriteSet,
      cfg.lookupPartition w.key = cfg.lookupPartition entry.key ∧ w.master = entry.master)
    (hparsed : ∀ m, ∀ p < (stream cfg merge m).length, p < (s.nodes m).next)
    (hstuck : ¬ CanStep cfg merge compute init s) (n : Nat) :
    ∀ m p, Unfinished cfg merge s m p → rank serial (txnAt cfg merge m p) = n → False :=
  none_unfinished_of_quiet hl hm hi hx hwrites hparsed
    (fun _ _ _ _ _ _ hmsg => absurd (hnetwork ▸ hmsg) List.not_mem_nil) hstuck n

end

theorem exchange_of_reach (hl : Logs logs master serial) (hm : IsMerge logs merge)
    (h : (machine cfg 1 merge compute init).Reach (OneChannel cfg merge) s) :
    Exchange cfg merge master s :=
  h.invariant exchange_init fun _ _ _ hr hone hx hn =>
    exchange_step hl hm hone (inv_of_reach hl hm hr) hx hn

end

/-! ## Main results -/

/-- In every run of a replica: when everything has been passed to `Lock`, no message is
under way and something is unfinished, an unfinished participant can take a step. The
ids come from the `int` of `GetTxn`, so distinct ones have distinct names. -/
theorem progress (logs : Nat → List TxnProto) (master : Key → Nat) (serial : List ClientTxn)
    (hl : Logs logs master serial)
    (hnames : (serial.map fun txn => txn.txnId % UInt32.size).Nodup) (compute : Compute)
    (init : Key → Record) (cfg : ClusterConfig)
    (hwrites : ∀ txn ∈ serial, ∀ entry ∈ txn.entries, ∃ w ∈ txn.readWriteSet,
      cfg.lookupPartition w.key = cfg.lookupPartition entry.key ∧ w.master = entry.master)
    (merge : List TxnProto) (hm : IsMerge logs merge) (s : Replica)
    (hs : (machine cfg 1 merge compute init).Reachable s)
    (hlocked : ∀ m, ∀ p < (stream cfg merge m).length, p ∈ (s.nodes m).locked)
    (hnetwork : s.network = []) (hun : ∃ m p, Unfinished cfg merge s m p) :
    CanStep cfg merge compute init s := by
  by_contra hstuck
  obtain ⟨m, p, hun⟩ := hun
  have h := reach_of_reachable hl hm hnames hs
  have hparsed : ∀ m, ∀ p < (stream cfg merge m).length, p < (s.nodes m).next := by
    intro m p hp
    have hi : Pipeline (txnAt cfg merge m) (s.nodes m) :=
      (reachable_node h m).invariant (pipeline_init init) fun _ _ _ _ _ hi hn => hi.step hn
    exact hi.lockedOld p (hlocked m p hp)
  exact none_unfinished hl hm (inv_of_reach hl hm h) (exchange_of_reach hl hm h) hnetwork hwrites
    hparsed hstuck _ m p hun rfl

/-- Two transactions of one origin on two partitions; at partition 0 the second
waits for a lock of the first. -/
theorem progress_twoPartitions :
    let serial : List ClientTxn := [{ txnId := 7, readWriteSet := [⟨[48], 0, 0⟩, ⟨[49], 0, 0⟩] },
      { txnId := 8, readWriteSet := [⟨[48], 0, 0⟩, ⟨[51], 0, 0⟩] }]
    let cfg : ClusterConfig := { nodesPerReplica := 2 }
    let init : Key → Record := fun _ => ⟨[], 0, 0⟩
    let compute : Compute := fun _ _ _ => []
    ∃ s : Replica, Unfinished cfg (logsOf serial 0) s 0 1 ∧
      CanStep cfg (logsOf serial 0) compute init s := by
  intro serial cfg init compute
  have hm : IsMerge (logsOf serial) (logsOf serial 0) := by
    intro r
    match r with
    | 0 => decide
    | r + 1 => simp [serial, logsOf, copyAt, Involves, ClientTxn.entries]
  obtain ⟨s, hs, hnetwork, hlocked, hun⟩ := Machine.exists_of_trace
    (m := machine cfg 1 (logsOf serial 0) compute init)
    (P := fun s : Replica => s.network = [] ∧
      (∀ m : Nat, m < 2 → ∀ p < (stream cfg (logsOf serial 0) m).length, p ∈ (s.nodes m).locked) ∧
      1 < (stream cfg (logsOf serial 0) 0).length ∧ 1 ∉ (s.nodes 0).deleted)
    [.node 0 .parse, .node 0 .parse, .node 1 .parse, .node 1 .parse, .node 0 .dispatch, .start 0,
      .node 1 .dispatch, .node 1 .dispatch, .start 1, .deliver 1 0 0, .deliver 0 0 0] (by decide)
  refine ⟨s, hun, progress (logsOf serial) (fun _ => 0) serial
    (logs_logsOf (by decide) (by decide) (by decide)) (by decide) compute init cfg (by decide)
    (logsOf serial 0) hm s hs (fun m p hp => ?_) hnetwork ⟨0, 1, hun⟩⟩
  by_cases hm : m < 2
  · exact hlocked m hm p hp
  · rw [stream_eq_nil (by decide) (Nat.le_of_not_lt hm)] at hp
    exact absurd hp (Nat.not_lt_zero p)

end Calvin.Replica
