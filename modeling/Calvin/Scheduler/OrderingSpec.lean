import Calvin.Lib.Links
import Calvin.Scheduler.Ordering
import Calvin.Theorems.PaxosAgreement

/-!
# What holds while batches are ordered

Every batch has one vote of each replica, which is in one of three places: the
batch is on its way to the replica, the vote is on its way to the head machine, or
it has been handled. The head machine and the Paxos group run by themselves, and a
scheduler is sent what its replica has voted for and what its participant has
logged.

* `Group.next_logs`: a participant sends the orders of what it logs;
* `Inv`: the invariant of the ordering, `Inv.step` and `Inv.reach`.
-/

namespace Calvin

open Function Lib

namespace Paxos.Group

variable {participants : Nat} {s s' : Group} {e : Event}

/-- The participant that takes a step. -/
def participant : Event → Nat
  | .append _ | .propose | .gotAck _ | .commit => 0
  | .receive i => i

/-- The log of a participant. -/
def logOf (s : Group) (r : Nat) : LocalMemLog :=
  if r = 0 then s.leader.log else (s.followers r).log

theorem logOf_leader (s : Group) : s.logOf 0 = s.leader.log := if_pos rfl

theorem logOf_follower (s : Group) {r : Nat} (hr : r ≠ 0) : s.logOf r = (s.followers r).log :=
  if_neg hr

theorem propose_log {l l' : Leader} (h : l.propose = some l') : l'.log = l.log := by
  unfold Leader.propose at h
  split at h
  · split at h
    · cases h
    · cases h
      rfl
  · cases h

theorem gotAck_log {q v : Nat} {l l' : Leader} (h : l.gotAck q v = some l') : l'.log = l.log := by
  unfold Leader.gotAck at h
  split at h
  · cases h
  · split at h
    · cases h
      rfl
    · cases h

theorem commit_log {q : Nat} {l l' : Leader} {m : SchedulerMessage}
    (h : l.commit q = some (l', m)) :
    ∃ version encoded, m = .paxosBatchOrder version encoded ∧
      l'.log.entries = l.log.entries ++ [(version, encoded)] := by
  unfold Leader.commit at h
  split at h
  · cases h
  · rename_i version encoded acks hpc
    split at h
    · cases h
    · simp only [Option.map_eq_some_iff, LocalMemLog.append_eq_some, Prod.mk.injEq] at h
      obtain ⟨log, ⟨-, rfl⟩, rfl, rfl⟩ := h
      exact ⟨version, encoded, rfl, rfl⟩

theorem receive_log {f f' : Follower} {message : Message} {acks : List Nat}
    {orders : List (Nat × Sequence)} (h : f.receive message = some (f', acks, orders)) :
    f'.log.entries = f.log.entries ++ orders := by
  unfold Follower.receive at h
  split at h
  · cases h
    simp
  · split at h
    · cases h
    · simp only [Option.map_eq_some_iff, LocalMemLog.append_eq_some, Prod.mk.injEq] at h
      obtain ⟨log, ⟨-, rfl⟩, rfl, -, rfl⟩ := h
      rfl

/-- A participant sends the orders of what it appends to its log. -/
theorem next_logs (hi : Inv participants s) (h : next participants s e = some s') :
    ∃ new, s'.orders = s.orders ++ new ∧
      (s'.logOf (participant e)).entries = (s.logOf (participant e)).entries ++ new ∧
      ∀ r, r ≠ participant e → s'.logOf r = s.logOf r := by
  cases e with
  | append blockid =>
      cases h
      exact ⟨[], (List.append_nil _).symm, (List.append_nil _).symm, fun _ _ => rfl⟩
  | propose =>
      obtain ⟨leader, hl, rfl⟩ := Option.map_eq_some_iff.mp h
      refine ⟨[], (List.append_nil _).symm, ?_, fun r hr => ?_⟩
      · rw [participant, logOf_leader, logOf_leader, List.append_nil]
        exact congrArg LocalMemLog.entries (propose_log hl)
      · rw [logOf_follower _ hr, logOf_follower _ hr]
  | gotAck i =>
      simp only [next] at h
      split at h
      · cases h
      · obtain ⟨leader, hl, rfl⟩ := Option.map_eq_some_iff.mp h
        refine ⟨[], (List.append_nil _).symm, ?_, fun r hr => ?_⟩
        · rw [participant, logOf_leader, logOf_leader, List.append_nil]
          exact congrArg LocalMemLog.entries (gotAck_log hl)
        · rw [logOf_follower _ hr, logOf_follower _ hr]
  | commit =>
      obtain ⟨⟨leader, order⟩, hl, h⟩ := Option.bind_eq_some_iff.mp h
      obtain ⟨version, encoded, rfl, hlog⟩ := commit_log hl
      cases h
      refine ⟨[(version, encoded)], rfl, ?_, fun r hr => ?_⟩
      · rw [participant, logOf_leader, logOf_leader]
        exact hlog
      · rw [logOf_follower _ hr, logOf_follower _ hr]
  | receive i =>
      simp only [next] at h
      split at h
      · cases h
      · rename_i message rest hlink
        obtain ⟨⟨follower, acks, orders⟩, hf, rfl⟩ := Option.map_eq_some_iff.mp h
        -- there is no message for the leader
        have hpos : i ≠ 0 := by
          rintro rfl
          rw [(hi.silent 0 fun hf => Nat.lt_irrefl 0 hf.1).2] at hlink
          cases hlink
        refine ⟨orders, rfl, ?_, fun r hr => ?_⟩
        · rw [participant, logOf_follower _ hpos, logOf_follower _ hpos]
          show (update s.followers i follower i).log.entries = _
          rw [update_self]
          exact receive_log hf
        · by_cases hr0 : r = 0
          · rw [hr0, logOf_leader, logOf_leader]
          · rw [logOf_follower _ hr0, logOf_follower _ hr0]
            exact congrArg Follower.log (update_of_ne hr ..)

/-- The leader counts what it has to propose, and proposes no empty sequence. -/
theorem proposals_nonempty (h : (machine participants).Reachable s) :
    s.leader.count = s.leader.sequence.length ∧ ∀ p ∈ s.proposals, p.2 ≠ [] := by
  refine h.invariant (P := fun s => s.leader.count = s.leader.sequence.length ∧
    ∀ p ∈ s.proposals, p.2 ≠ []) ⟨rfl, by simp [machine]⟩ ?_
  intro s e s' _ _ ⟨hcount, hne⟩ hn
  change next participants s e = some s' at hn
  cases e with
  | append blockid =>
      cases hn
      refine ⟨?_, hne⟩
      show s.leader.count + 1 = (s.leader.sequence ++ [blockid]).length
      rw [hcount, List.length_append, List.length_singleton]
  | propose =>
      obtain ⟨leader, hl, rfl⟩ := Option.map_eq_some_iff.mp hn
      unfold Leader.propose at hl
      split at hl
      · split at hl
        · cases hl
        · rename_i hzero
          cases hl
          refine ⟨rfl, fun p hp => ?_⟩
          rcases List.mem_append.mp hp with hp | hp
          · exact hne p hp
          · rw [List.mem_singleton.mp hp]
            rw [hcount] at hzero
            exact fun hnil => hzero (congrArg List.length hnil)
      · cases hl
  | gotAck i =>
      simp only [next] at hn
      split at hn
      · cases hn
      · obtain ⟨leader, hl, rfl⟩ := Option.map_eq_some_iff.mp hn
        unfold Leader.gotAck at hl
        split at hl
        · cases hl
        · split at hl
          · cases hl
            exact ⟨hcount, hne⟩
          · cases hl
  | commit =>
      obtain ⟨⟨leader, order⟩, hl, hn⟩ := Option.bind_eq_some_iff.mp hn
      obtain ⟨version, encoded, rfl, -⟩ := commit_log hl
      cases hn
      unfold Leader.commit at hl
      split at hl
      · cases hl
      · split at hl
        · cases hl
        · obtain ⟨log, -, hl⟩ := Option.map_eq_some_iff.mp hl
          cases hl
          exact ⟨hcount, hne⟩
  | receive i =>
      simp only [next] at hn
      split at hn
      · cases hn
      · obtain ⟨⟨follower, acks, orders⟩, -, rfl⟩ := Option.map_eq_some_iff.mp hn
        exact ⟨hcount, hne⟩

end Paxos.Group

namespace Ordering

open BatchVotes (Vote)
open SequencerWriter (nodeConfig)

variable (cfg : ClusterConfig)

/-- The head machine, as far as votes and their count go. -/
def headMachine (s : Ordering) : BatchVotes.HeadMachine where
  batchVotes := s.batchVotes
  paxosLog := s.paxos.leader
  handled := s.handled
  appended := s.appended

/-- The vote that a `TXN_BATCH` makes its reader send. -/
def voteOf (message : TxnBatch) : Vote where
  replica := message.destinationNode / cfg.nodesPerReplica
  batchId := message.batchNumber

/-- The votes for a batch. -/
def votesFor (batchId : Nat) : List Vote :=
  (List.range cfg.replicasSize).map fun r => ⟨r, batchId⟩

/-- The votes of all batches, wherever they are. -/
def places (s : Ordering) : List Vote :=
  s.txnBatches.map (voteOf cfg) ++ s.voteMessages ++ s.handled

/-- The sub-batch of a scheduler. -/
def subbatchAt (n : Nat) (batchId : Nat) (data : List TxnProto) : Subbatch where
  batchNumber := batchId
  data := Sequencer.subbatch cfg data (n % cfg.nodesPerReplica)

/-- A message for a scheduler holds its part of a batch, or what the leader has
logged. -/
def Sent (s : Ordering) (n : Nat) : SchedulerMessage → Prop
  | .txnSubbatch batch =>
      ∃ data, (batch.batchNumber, data) ∈ s.batches ∧
        batch = subbatchAt cfg n batch.batchNumber data
  | .paxosBatchOrder version data => (version, data) ∈ s.paxos.leader.log.entries

structure Inv (s : Ordering) : Prop where
  drawn : ∀ b ∈ s.batches, ∃ n k, n < cfg.allNodesSize ∧ k < s.nextGuid n ∧
    b.1 = 1 + n + cfg.allNodesSize * k
  numbers : (s.batches.map Prod.fst).Nodup
  messages : ∀ m ∈ s.txnBatches, (m.batchNumber, m.data) ∈ s.batches
  votes : (places cfg s).Perm ((s.batches.map Prod.fst).flatMap (votesFor cfg))
  paxos : (Paxos.Group.machine cfg.replicasSize).Reachable s.paxos
  head : (BatchVotes.machine cfg.replicasSize).Reachable (headMachine s)
  /-- A replica votes when it has sent the sub-batches. -/
  subbatches : ∀ v ∈ s.voteMessages ++ s.handled, ∀ n, n / cfg.nodesPerReplica = v.replica →
    ∃ data, (v.batchId, data) ∈ s.batches ∧
      .txnSubbatch (subbatchAt cfg n v.batchId data) ∈ s.sent n
  orders : ∀ n, ∀ p ∈ (s.paxos.logOf (n / cfg.nodesPerReplica)).entries,
    .paxosBatchOrder p.1 p.2 ∈ s.sent n
  sent : ∀ n, ∀ m ∈ s.sent n, Sent cfg s n m

variable {cfg} {maxBatchSize : Nat} {s s' : Ordering}

theorem mem_votesFor {batchId : Nat} {v : Vote} :
    v ∈ votesFor cfg batchId ↔ v.replica < cfg.replicasSize ∧ v.batchId = batchId := by
  unfold votesFor
  rw [List.mem_map]
  constructor
  · rintro ⟨r, hr, rfl⟩
    exact ⟨List.mem_range.mp hr, rfl⟩
  · rintro ⟨hr, rfl⟩
    exact ⟨v.replica, List.mem_range.mpr hr, rfl⟩

theorem nodup_votesFor (batchId : Nat) : (votesFor cfg batchId).Nodup :=
  List.nodup_range.map fun _ _ h => (Vote.mk.inj h).1

/-- Batches with different numbers have different votes. -/
theorem nodup_votes {numbers : List Nat} (h : numbers.Nodup) :
    (numbers.flatMap (votesFor cfg)).Nodup := by
  refine List.nodup_flatMap.mpr ⟨fun b _ => nodup_votesFor b, h.imp fun hne v hv hv' => hne ?_⟩
  rw [← (mem_votesFor.mp hv).2, (mem_votesFor.mp hv').2]

theorem map_voteOf_txnBatches (hn : 0 < cfg.nodesPerReplica) (batchNumber : Nat)
    (data : List TxnProto) :
    (Sequencer.txnBatches cfg batchNumber data).map (voteOf cfg) = votesFor cfg batchNumber := by
  rw [Sequencer.txnBatches, List.map_map]
  refine List.map_congr_left fun i _ => ?_
  exact congrArg (Vote.mk · batchNumber) (Sequencer.destination_replica hn batchNumber i)

theorem sent_sendSchedulers (s : Ordering) (r n : Nat) (messages : Nat → List SchedulerMessage) :
    (sendSchedulers cfg s r messages).sent n =
      if n / cfg.nodesPerReplica = r then s.sent n ++ messages (n % cfg.nodesPerReplica)
      else s.sent n := rfl

theorem mem_sent_sendSchedulers {r n : Nat} {messages : Nat → List SchedulerMessage}
    {m : SchedulerMessage} :
    m ∈ (sendSchedulers cfg s r messages).sent n ↔
      m ∈ s.sent n ∨ n / cfg.nodesPerReplica = r ∧ m ∈ messages (n % cfg.nodesPerReplica) := by
  rw [sent_sendSchedulers]
  by_cases hr : n / cfg.nodesPerReplica = r
  · rw [if_pos hr, List.mem_append]
    exact or_congr_right (and_iff_right hr).symm
  · rw [if_neg hr]
    exact (or_iff_left fun h => hr h.1).symm

/-- Only what is known of batches and orders matters for a message. -/
theorem Sent.mono {n : Nat} {m : SchedulerMessage} (h : Sent cfg s n m)
    (hbatches : s.batches ⊆ s'.batches)
    (hlog : s.paxos.leader.log.entries ⊆ s'.paxos.leader.log.entries) : Sent cfg s' n m := by
  cases m with
  | txnSubbatch batch =>
      obtain ⟨data, hdata, heq⟩ := h
      exact ⟨data, hbatches hdata, heq⟩
  | paxosBatchOrder version data => exact hlog h

theorem inv_init : Inv cfg ({} : Ordering) where
  drawn _ h := absurd h List.not_mem_nil
  numbers := List.nodup_nil
  messages _ h := absurd h List.not_mem_nil
  votes := List.Perm.refl _
  paxos := .init
  head := .init
  subbatches _ h := absurd h List.not_mem_nil
  orders n p h := by
    have hnil : (({} : Paxos.Group).logOf (n / cfg.nodesPerReplica)).entries = [] := by
      unfold Paxos.Group.logOf
      split <;> rfl
    rw [hnil] at h
    exact absurd h List.not_mem_nil
  sent _ _ h := absurd h List.not_mem_nil

namespace Inv

/-- A new batch has a number of its own. -/
theorem epoch (hi : Inv cfg s) (hn : 0 < cfg.nodesPerReplica) {n : Nat} {txns : List ClientTxn}
    (hfits : Fits cfg s (.epoch n txns)) (h : epoch cfg maxBatchSize s n txns = some s') :
    Inv cfg s' := by
  obtain ⟨⟨hlt, -⟩, h⟩ := Option.ite_none_right_eq_some.mp h
  obtain rfl := Option.some.inj h
  have hguid : TxnIds.getGUID cfg.allNodesSize n (s.nextGuid n) =
      1 + n + cfg.allNodesSize * s.nextGuid n := Nat.mod_eq_of_lt hfits
  have hmono : ∀ m, s.nextGuid m ≤ update s.nextGuid n (s.nextGuid n + 1) m := fun m => by
    by_cases hm : m = n
    · rw [hm, update_self]
      omega
    · exact Nat.le_of_eq (update_of_ne hm ..).symm
  have hnew : TxnIds.getGUID cfg.allNodesSize n (s.nextGuid n) ∉ s.batches.map Prod.fst := by
    intro hmem
    obtain ⟨b, hb, heq⟩ := List.mem_map.mp hmem
    obtain ⟨m, k, hm, hk, hnumber⟩ := hi.drawn b hb
    rw [hguid, hnumber] at heq
    obtain ⟨rfl, rfl⟩ := TxnIds.number_inj hm hlt heq
    exact Nat.lt_irrefl _ hk
  refine ⟨fun b hb => ?_, ?_, fun m hm => ?_, ?_, hi.paxos, hi.head, fun v hv m hm => ?_, hi.orders,
    fun m msg hmsg => (hi.sent m msg hmsg).mono (List.subset_append_left _ _) fun _ h => h⟩
  · rcases List.mem_append.mp hb with hb | hb
    · obtain ⟨m, k, hm, hk, hnumber⟩ := hi.drawn b hb
      exact ⟨m, k, hm, Nat.lt_of_lt_of_le hk (hmono m), hnumber⟩
    · rw [List.mem_singleton.mp hb]
      refine ⟨n, s.nextGuid n, hlt, ?_, hguid⟩
      show s.nextGuid n < update s.nextGuid n (s.nextGuid n + 1) n
      rw [update_self]
      omega
  · rw [List.map_append]
    refine List.nodup_append.mpr ⟨hi.numbers, List.nodup_singleton _, fun a ha b hb heq => hnew ?_⟩
    rw [heq, List.mem_singleton.mp hb] at ha
    exact ha
  · rcases List.mem_append.mp hm with hm | hm
    · exact List.mem_append_left _ (hi.messages m hm)
    · obtain ⟨i, -, rfl⟩ := List.mem_map.mp hm
      exact List.mem_append_right _ List.mem_cons_self
  · have hvotes := hi.votes
    rw [places] at hvotes ⊢
    dsimp only
    rw [List.map_append, map_voteOf_txnBatches hn, List.map_append, List.flatMap_append,
      List.map_singleton, List.flatMap_singleton]
    refine List.Perm.trans ?_ (hvotes.append_right _)
    rw [List.append_assoc, List.append_assoc, List.append_assoc, List.append_assoc]
    refine List.Perm.append_left _ ?_
    rw [← List.append_assoc s.voteMessages]
    exact List.perm_append_comm
  · obtain ⟨data, hdata, hsent⟩ := hi.subbatches v hv m hm
    exact ⟨data, List.mem_append_left _ hdata, hsent⟩

/-- The votes are all different. -/
theorem nodup_places (hi : Inv cfg s) : (places cfg s).Nodup :=
  hi.votes.nodup_iff.mpr (nodup_votes hi.numbers)

theorem mem_places (hi : Inv cfg s) {v : Vote} (hv : v ∈ places cfg s) :
    v.replica < cfg.replicasSize ∧ v.batchId ∈ s.batches.map Prod.fst := by
  obtain ⟨b, hb, hvb⟩ := List.mem_flatMap.mp (hi.votes.subset hv)
  obtain ⟨hr, rfl⟩ := mem_votesFor.mp hvb
  exact ⟨hr, hb⟩

theorem gotBatch (hi : Inv cfg s) {i : Nat} (h : gotBatch cfg s i = some s') : Inv cfg s' := by
  obtain ⟨message, hm, rfl⟩ := Option.map_eq_some_iff.mp h
  have hmem := hi.messages message (List.mem_of_getElem? hm)
  refine ⟨hi.drawn, hi.numbers, fun m hm => hi.messages m (List.mem_of_mem_eraseIdx hm), ?_,
    hi.paxos, hi.head, fun v hv n hr => ?_, fun n p hp => mem_sent_sendSchedulers.mpr
      (.inl (hi.orders n p hp)), fun n m hmsg => ?_⟩
  · -- the vote takes the place of the batch
    refine List.Perm.trans ?_ hi.votes
    have hperm := (cons_eraseIdx_perm hm).map (voteOf cfg)
    rw [List.map_cons] at hperm
    rw [places, places]
    refine List.Perm.append_right _ ?_
    show ((s.txnBatches.eraseIdx i).map (voteOf cfg) ++
      (s.voteMessages ++ [voteOf cfg message])).Perm _
    refine List.Perm.trans ?_ (hperm.append_right s.voteMessages)
    rw [← List.append_assoc]
    exact List.perm_append_singleton _ _
  · have hv : v ∈ s.voteMessages ++ s.handled ∨ v = voteOf cfg message := by
      rcases List.mem_append.mp hv with hv | hv
      · rcases List.mem_append.mp hv with hv | hv
        · exact .inl (List.mem_append_left _ hv)
        · exact .inr (List.mem_singleton.mp hv)
      · exact .inl (List.mem_append_right _ hv)
    rcases hv with hv | rfl
    · obtain ⟨data, hdata, hsent⟩ := hi.subbatches v hv n hr
      exact ⟨data, hdata, mem_sent_sendSchedulers.mpr (.inl hsent)⟩
    · exact ⟨message.data, hmem, mem_sent_sendSchedulers.mpr (.inr ⟨hr, List.mem_cons_self⟩)⟩
  · rcases mem_sent_sendSchedulers.mp hmsg with hmsg | ⟨-, hmsg⟩
    · exact (hi.sent n m hmsg).mono (fun _ h => h) fun _ h => h
    · rw [List.mem_singleton.mp hmsg]
      exact ⟨message.data, hmem, rfl⟩

/-- The head machine handles a vote it has not handled. -/
theorem gotVote (hi : Inv cfg s) {i : Nat} (h : gotVote cfg s i = some s') : Inv cfg s' := by
  obtain ⟨v, hv, rfl⟩ := Option.map_eq_some_iff.mp h
  have hmem : v ∈ s.voteMessages := List.mem_of_getElem? hv
  have hplaces := hi.nodup_places
  have hnew : v ∉ s.handled := fun hh =>
    (List.nodup_append.mp hplaces).2.2 v (List.mem_append_right _ hmem) v hh rfl
  have hr := (hi.mem_places (List.mem_append_left _ (List.mem_append_right _ hmem))).1
  have hlog : (Sequencer.batchVote cfg.replicasSize
        ⟨s.batchVotes, s.paxos.leader⟩ v.batchId).1.paxosLog = s.paxos.leader ∨
      (Sequencer.batchVote cfg.replicasSize
        ⟨s.batchVotes, s.paxos.leader⟩ v.batchId).1.paxosLog = s.paxos.leader.append v.batchId := by
    unfold Sequencer.batchVote
    dsimp only
    split
    · exact .inr rfl
    · exact .inl rfl
  have hhead : BatchVotes.step cfg.replicasSize (headMachine s) (.vote v) =
      some { toVoting := (Sequencer.batchVote cfg.replicasSize
               ⟨s.batchVotes, s.paxos.leader⟩ v.batchId).1
             handled := v :: s.handled
             appended := if (Sequencer.batchVote cfg.replicasSize
               ⟨s.batchVotes, s.paxos.leader⟩ v.batchId).2 then s.appended ++ [v.batchId]
               else s.appended } :=
    if_pos ⟨hr, hnew⟩
  generalize Sequencer.batchVote cfg.replicasSize ⟨s.batchVotes, s.paxos.leader⟩ v.batchId = res
    at hlog hhead ⊢
  obtain ⟨voting, submitted⟩ := res
  dsimp only at hlog hhead ⊢
  have hsame : ∀ r, ({ s.paxos with leader := voting.paxosLog } : Paxos.Group).logOf r =
      s.paxos.logOf r := fun r => by
    unfold Paxos.Group.logOf
    dsimp only
    rcases hlog with hl | hl
    · rw [hl]
    · rw [hl]
      rfl
  refine ⟨hi.drawn, hi.numbers, hi.messages, ?_, ?_, hi.head.step (e := .vote v) trivial hhead,
    fun w hw n hn => ?_, fun n p hp => ?_, fun n m hmsg => ?_⟩
  · refine List.Perm.trans ?_ hi.votes
    rw [places, places, List.append_assoc, List.append_assoc]
    refine List.Perm.append_left _ ?_
    exact List.perm_middle.trans ((cons_eraseIdx_perm hv).append_right s.handled)
  · rcases hlog with hl | hl
    · dsimp only
      rw [hl]
      exact hi.paxos
    · dsimp only
      rw [hl]
      exact hi.paxos.step (e := .append v.batchId) trivial rfl
  · refine hi.subbatches w ?_ n hn
    rcases List.mem_append.mp hw with hw | hw
    · exact List.mem_append_left _ (List.mem_of_mem_eraseIdx hw)
    · rcases List.mem_cons.mp hw with rfl | hw
      · exact List.mem_append_left _ hmem
      · exact List.mem_append_right _ hw
  · exact hi.orders n p (hsame _ ▸ hp)
  · refine (hi.sent n m hmsg).mono (fun _ h => h) fun p hp => ?_
    have hleader := congrArg LocalMemLog.entries (hsame 0)
    rw [Paxos.Group.logOf_leader, Paxos.Group.logOf_leader] at hleader
    exact hleader ▸ hp

/-- A participant sends to its replica what it logs. -/
theorem paxosStep (hi : Inv cfg s) {e : Paxos.Group.Event}
    (hhead : ∀ paxos, Paxos.Group.next cfg.replicasSize s.paxos e = some paxos →
      (BatchVotes.machine cfg.replicasSize).Reachable (headMachine { s with paxos }))
    (h : paxosStep cfg s (Paxos.Group.participant e) e = some s') : Inv cfg s' := by
  obtain ⟨paxos, hnext, rfl⟩ := Option.map_eq_some_iff.mp h
  have hpaxos : (Paxos.Group.machine cfg.replicasSize).Reachable paxos :=
    hi.paxos.step trivial hnext
  obtain ⟨new, horders, hlog, hothers⟩ :=
    Paxos.Group.next_logs (Paxos.Group.inv_of_reachable hi.paxos) hnext
  have hgrows : s.paxos.leader.log.entries ⊆ paxos.leader.log.entries := by
    rw [← Paxos.Group.logOf_leader, ← Paxos.Group.logOf_leader]
    by_cases h0 : 0 = Paxos.Group.participant e
    · rw [h0, hlog]
      exact List.subset_append_left _ _
    · rw [hothers 0 h0]
      exact fun _ h => h
  have hnew : paxos.orders.drop s.paxos.orders.length = new := by rw [horders, List.drop_left]
  rw [hnew]
  refine ⟨hi.drawn, hi.numbers, hi.messages, hi.votes, hpaxos, hhead paxos hnext,
    fun v hv n hr => ?_, fun n p hp => ?_, fun n m hmsg => ?_⟩
  · obtain ⟨data, hdata, hsent⟩ := hi.subbatches v hv n hr
    exact ⟨data, hdata, mem_sent_sendSchedulers.mpr (.inl hsent)⟩
  · change p ∈ (paxos.logOf (n / cfg.nodesPerReplica)).entries at hp
    rw [mem_sent_sendSchedulers]
    by_cases hr : n / cfg.nodesPerReplica = Paxos.Group.participant e
    · rw [hr, hlog] at hp
      rcases List.mem_append.mp hp with hp | hp
      · exact .inl (hi.orders n p (hr.symm ▸ hp))
      · exact .inr ⟨hr, List.mem_map.mpr ⟨p, hp, rfl⟩⟩
    · rw [hothers _ hr] at hp
      exact .inl (hi.orders n p hp)
  · rcases mem_sent_sendSchedulers.mp hmsg with hmsg | ⟨-, hmsg⟩
    · exact (hi.sent n m hmsg).mono (fun _ h => h) hgrows
    · obtain ⟨p, hp, rfl⟩ := List.mem_map.mp hmsg
      refine (Paxos.Group.inv_of_reachable hpaxos).orders p ?_
      rw [horders]
      exact List.mem_append_right _ hp

/-- What the loops do is their own affair. -/
theorem setLoop (hi : Inv cfg s) (n : Nat) (loop : BatchStream.Loop) : Inv cfg (setLoop s n loop) :=
  ⟨hi.drawn, hi.numbers, hi.messages, hi.votes, hi.paxos, hi.head, hi.subbatches, hi.orders,
    hi.sent⟩

theorem step (hi : Inv cfg s) (hn : 0 < cfg.nodesPerReplica) {e : Event} (hfits : Fits cfg s e)
    (h : (machine cfg maxBatchSize).next s e = some s') : Inv cfg s' := by
  cases e with
  | epoch n txns => exact hi.epoch hn hfits h
  | gotBatch i => exact hi.gotBatch h
  | gotVote i => exact hi.gotVote h
  | propose =>
      refine hi.paxosStep (e := .propose) (fun paxos hp => ?_) h
      obtain ⟨leader, hl, rfl⟩ := Option.map_eq_some_iff.mp hp
      exact hi.head.step (e := .propose) trivial (Option.map_eq_some_iff.mpr ⟨leader, hl, rfl⟩)
  | gotAck i =>
      refine hi.paxosStep (e := .gotAck i) (fun paxos hp => ?_) h
      simp only [Paxos.Group.next] at hp
      split at hp
      · cases hp
      · rename_i version rest hlink
        obtain ⟨leader, hl, rfl⟩ := Option.map_eq_some_iff.mp hp
        exact hi.head.step (e := .gotAck version) trivial
          (Option.map_eq_some_iff.mpr ⟨leader, hl, rfl⟩)
  | commit =>
      refine hi.paxosStep (e := .commit) (fun paxos hp => ?_) h
      obtain ⟨⟨leader, order⟩, hl, hp⟩ := Option.bind_eq_some_iff.mp hp
      obtain ⟨version, encoded, rfl, -⟩ := Paxos.Group.commit_log hl
      cases hp
      exact hi.head.step (e := .commit) trivial (Option.map_eq_some_iff.mpr ⟨_, hl, rfl⟩)
  | receive i =>
      refine hi.paxosStep (e := .receive i) (fun paxos hp => ?_) h
      simp only [Paxos.Group.next] at hp
      split at hp
      · cases hp
      · obtain ⟨⟨follower, acks, orders⟩, -, rfl⟩ := Option.map_eq_some_iff.mp hp
        exact hi.head
  | deliver n index =>
      obtain ⟨stream, -, rfl⟩ := Option.map_eq_some_iff.mp h
      exact hi.setLoop n _
  | round n room =>
      obtain ⟨loop, -, rfl⟩ := Option.map_eq_some_iff.mp h
      exact hi.setLoop n loop

theorem reach (hn : 0 < cfg.nodesPerReplica)
    (h : (machine cfg maxBatchSize).Reach (Fits cfg) s) : Inv cfg s :=
  h.invariant inv_init fun _ _ _ _ hfits hi hnext => hi.step hn hfits hnext

/-! ## The log of the leader -/

/-- The sequences of the leader's log are not empty, and no batch is in them twice. -/
theorem log_nodup (hi : Inv cfg s) : s.paxos.leader.log.sequences.flatten.Nodup := by
  have hnodup : s.appended.Nodup := by
    refine List.nodup_iff_count_le_one.mpr fun b => ?_
    have honce : s.appended.count b = _ := (BatchVotes.Inv.reachable hi.head).once b
    rw [honce, BatchVotes.appendsOf]
    split <;> omega
  have hordered : BatchVotes.ordered s.paxos.leader = s.appended :=
    BatchVotes.ordered_once hi.head
  rw [← hordered, BatchVotes.ordered, List.append_assoc] at hnodup
  exact (List.nodup_append.mp hnodup).1

theorem log_proposals (hi : Inv cfg s) : s.paxos.leader.log.entries <+: s.paxos.proposals :=
  ⟨_, (Paxos.Group.inv_of_reachable hi.paxos).committed⟩

theorem log_nonempty (hi : Inv cfg s) : ∀ p ∈ s.paxos.leader.log.entries, p.2 ≠ [] := fun p hp =>
  (Paxos.Group.proposals_nonempty hi.paxos).2 p (hi.log_proposals.subset hp)

/-- The versions are numbered from 0. -/
theorem log_version (hi : Inv cfg s) {i : Nat} {p : Nat × Sequence}
    (h : s.paxos.leader.log.entries[i]? = some p) : p.1 = i := by
  have hpaxos := Paxos.Group.inv_of_reachable hi.paxos
  have hget : s.paxos.proposals[i]? = some p := by
    obtain ⟨rest, hrest⟩ := hi.log_proposals
    rw [← hrest, List.getElem?_append_left (List.getElem?_eq_some_iff.mp h).1]
    exact h
  have hmap : (s.paxos.proposals.map Prod.fst)[i]? = some p.1 := by
    rw [List.getElem?_map, hget]
    rfl
  rw [hpaxos.numbered] at hmap
  obtain ⟨hlt, heq⟩ := List.getElem?_eq_some_iff.mp hmap
  rw [← heq, List.getElem_range]

end Inv

end Ordering

end Calvin
