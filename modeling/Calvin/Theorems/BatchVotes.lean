import Calvin.Lib.Machine
import Calvin.Machine.Sequencer

/-!
# Votes for a batch

The votes for many batches come in any order, and in between the Paxos leader
takes up what was submitted. The number of votes handled for a batch decides
everything: whether `batch_votes_` has an entry for it, and whether it was
submitted.

* `voted_once`: `Append` is called for a batch at the vote that makes a majority,
  and the entry is there from the first vote to the last but one;
* `ordered_once`: what was appended is in the leader's hands once, or in its log.
-/

namespace Calvin.BatchVotes

open Function Lib Sequencer

/-- The vote of a replica for a batch. -/
structure Vote where
  replica : Nat
  batchId : Nat
deriving DecidableEq, Repr

/-- The head machine with the votes it has handled and the calls of `Append` so
far. -/
structure HeadMachine extends Voting where
  handled : List Vote := []
  appended : List Nat := []

inductive Event
  /-- A `BATCH_VOTE`. -/
  | vote (v : Vote)
  | propose
  | gotAck (version : Nat)
  | commit
deriving DecidableEq

/-- A step of the reader thread or of the leader's; a replica votes once for a
batch. -/
def step (replicasSize : Nat) (s : HeadMachine) : Event → Option HeadMachine
  | .vote v =>
      if v.replica < replicasSize ∧ v ∉ s.handled then
        let (voting, submitted) := batchVote replicasSize s.toVoting v.batchId
        some { toVoting := voting
               handled := v :: s.handled
               appended := if submitted then s.appended ++ [v.batchId] else s.appended }
      else none
  | .propose => s.paxosLog.propose.map fun paxosLog => { s with paxosLog }
  | .gotAck version =>
      (s.paxosLog.gotAck (Paxos.quorum replicasSize) version).map fun paxosLog =>
        { s with paxosLog }
  | .commit =>
      (s.paxosLog.commit (Paxos.quorum replicasSize)).map fun (paxosLog, _) => { s with paxosLog }

def machine (replicasSize : Nat) : Machine HeadMachine Event where
  init := {}
  next := step replicasSize

/-- How many votes for a batch have been handled. -/
def votes (s : HeadMachine) (batchId : Nat) : Nat :=
  (s.handled.map Vote.batchId).count batchId

/-- The entry of a batch with so many votes. -/
def entryOf (replicasSize n : Nat) : Option Nat :=
  if 1 ≤ n ∧ n < replicasSize then some n else none

/-- How often a batch with so many votes has been appended. -/
def appendsOf (replicasSize n : Nat) : Nat :=
  if replicasSize / 2 + 1 ≤ n then 1 else 0

variable {replicasSize : Nat}

/-- What a vote does, from the entry of its batch. -/
theorem batchVote_spec {s : Voting} {batchId n : Nat} (hn : n < replicasSize)
    (hentry : s.batchVotes batchId = entryOf replicasSize n) :
    (batchVote replicasSize s batchId).1.batchVotes =
        update s.batchVotes batchId (entryOf replicasSize (n + 1)) ∧
      ((batchVote replicasSize s batchId).2 = true ↔ n + 1 = replicasSize / 2 + 1) ∧
      (batchVote replicasSize s batchId).1.paxosLog =
        if (batchVote replicasSize s batchId).2 then s.paxosLog.append batchId
        else s.paxosLog := by
  have hvotes : votesAfter (s.batchVotes batchId) = n + 1 := by
    rw [hentry, entryOf]
    by_cases h1 : 1 ≤ n
    · rw [if_pos ⟨h1, hn⟩]
      rfl
    · rw [if_neg fun h => h1 h.1]
      show 1 = n + 1
      omega
  have hmap : (if n + 1 = replicasSize then
      update (update s.batchVotes batchId (some (n + 1))) batchId none
      else update s.batchVotes batchId (some (n + 1))) =
        update s.batchVotes batchId (entryOf replicasSize (n + 1)) := by
    rw [entryOf]
    by_cases hall : n + 1 = replicasSize
    · rw [if_pos hall, if_neg (by omega), update_idem]
    · rw [if_neg hall, if_pos (by omega)]
  unfold batchVote
  dsimp only
  rw [hvotes]
  by_cases hmajority : n + 1 = replicasSize / 2 + 1
  · rw [if_pos hmajority]
    exact ⟨hmap, ⟨fun _ => hmajority, fun _ => rfl⟩, rfl⟩
  · rw [if_neg hmajority]
    exact ⟨hmap, ⟨fun h => (Bool.false_ne_true h).elim, fun h => absurd h hmajority⟩, rfl⟩

/-- The batches that the leader has logged, proposes or has to propose. -/
def ordered (l : Paxos.Leader) : List Nat :=
  l.log.sequences.flatten ++
    (match l.pc with
      | .idle => []
      | .collect _ encoded _ => encoded) ++ l.sequence

structure Inv (replicasSize : Nat) (s : HeadMachine) : Prop where
  nodup : s.handled.Nodup
  replica : ∀ v ∈ s.handled, v.replica < replicasSize
  entry : ∀ batchId, s.batchVotes batchId = entryOf replicasSize (votes s batchId)
  once : ∀ batchId, s.appended.count batchId = appendsOf replicasSize (votes s batchId)
  ordered : ordered s.paxosLog = s.appended

theorem inv_init : Inv replicasSize {} where
  nodup := List.nodup_nil
  replica _ h := (List.not_mem_nil h).elim
  entry batchId := by
    show none = entryOf replicasSize 0
    rw [entryOf, if_neg (by omega)]
  once batchId := by
    show 0 = appendsOf replicasSize 0
    rw [appendsOf, if_neg (by omega)]
  ordered := rfl

namespace Inv

variable {s s' : HeadMachine}

/-- A replica that has not voted for a batch leaves room for its vote. -/
theorem votes_lt (hi : Inv replicasSize s) {v : Vote} (hr : v.replica < replicasSize)
    (hnew : v ∉ s.handled) : votes s v.batchId < replicasSize := by
  -- the replicas that voted for the batch are distinct, and this one is not among them
  let voters := (s.handled.filter fun w => w.batchId = v.batchId).map Vote.replica
  have hlen : voters.length = votes s v.batchId := by
    rw [votes, List.count, List.countP_map, List.length_map, ← List.countP_eq_length_filter]
    exact List.countP_congr fun v _ => by simp
  have hnodup : voters.Nodup := by
    refine List.Nodup.map_on ?_ (hi.nodup.filter _)
    intro a ha b hb h
    have ha := of_decide_eq_true (List.mem_filter.mp ha).2
    have hb := of_decide_eq_true (List.mem_filter.mp hb).2
    exact (Vote.mk.injEq ..).mpr ⟨h, ha.trans hb.symm⟩
  have hsub : v.replica :: voters ⊆ List.range replicasSize := by
    intro r hmem
    rw [List.mem_range]
    rcases List.mem_cons.mp hmem with rfl | hmem
    · exact hr
    · obtain ⟨w, hw, rfl⟩ := List.mem_map.mp hmem
      exact hi.replica w (List.mem_filter.mp hw).1
  have hcons : (v.replica :: voters).Nodup := by
    refine List.nodup_cons.mpr ⟨fun hmem => ?_, hnodup⟩
    obtain ⟨w, hw, hwr⟩ := List.mem_map.mp hmem
    obtain ⟨hw, hb⟩ := List.mem_filter.mp hw
    have heq : w = v := (Vote.mk.injEq ..).mpr ⟨hwr, of_decide_eq_true hb⟩
    exact hnew (heq ▸ hw)
  have hle := (List.subperm_of_subset hcons hsub).length_le
  rw [List.length_cons, hlen, List.length_range] at hle
  omega

theorem vote (hi : Inv replicasSize s) {v : Vote}
    (h : step replicasSize s (.vote v) = some s') : Inv replicasSize s' := by
  rw [step, Option.ite_none_right_eq_some] at h
  obtain ⟨⟨hr, hnew⟩, h⟩ := h
  obtain ⟨hmap, hflag, hlog⟩ := batchVote_spec (hi.votes_lt hr hnew) (hi.entry v.batchId)
  generalize batchVote replicasSize s.toVoting v.batchId = res at h hmap hflag hlog
  obtain ⟨voting, submitted⟩ := res
  obtain rfl := Option.some.inj h
  dsimp only at hmap hflag hlog
  have hvotes : ∀ b, ((v :: s.handled).map Vote.batchId).count b =
      if b = v.batchId then votes s b + 1 else votes s b := fun b => by
    rw [List.map_cons]
    by_cases hb : b = v.batchId
    · rw [hb, List.count_cons_self, if_pos rfl, votes]
    · rw [List.count_cons_of_ne (Ne.symm hb), if_neg hb, votes]
  refine ⟨List.nodup_cons.mpr ⟨hnew, hi.nodup⟩, fun w hw => ?_, fun b => ?_, fun b => ?_, ?_⟩
  · rcases List.mem_cons.mp hw with rfl | hw
    · exact hr
    · exact hi.replica w hw
  · show voting.batchVotes b = _
    rw [votes, hvotes, hmap]
    by_cases hb : b = v.batchId
    · rw [hb, update_self, if_pos rfl]
    · rw [update_of_ne hb, if_neg hb]
      exact hi.entry b
  · rw [votes, hvotes]
    show (if submitted then s.appended ++ [v.batchId] else s.appended).count b = _
    have hold := hi.once b
    by_cases hb : b = v.batchId
    · rw [hb] at hold ⊢
      rw [if_pos rfl]
      cases hs : submitted with
      | true =>
          -- the votes make a majority with this one
          have hmajority := hflag.mp hs
          rw [appendsOf, if_neg (by omega)] at hold
          rw [if_pos rfl, List.count_append, hold, List.count_singleton_self, appendsOf,
            if_pos (by omega)]
      | false =>
          have hnot : ¬ votes s v.batchId + 1 = replicasSize / 2 + 1 := fun h => by
            rw [hflag.mpr h] at hs
            cases hs
          rw [if_neg Bool.false_ne_true, hold]
          unfold appendsOf
          split <;> split <;> omega
    · rw [if_neg hb, ← hold]
      cases submitted with
      | true => rw [if_pos rfl, List.count_append, List.count_singleton, beq_eq_false_iff_ne.mpr
          (Ne.symm hb), if_neg Bool.false_ne_true, Nat.add_zero]
      | false => rw [if_neg Bool.false_ne_true]
  · show BatchVotes.ordered voting.paxosLog =
      if submitted then s.appended ++ [v.batchId] else s.appended
    rw [hlog, ← hi.ordered]
    cases submitted with
    | true =>
        rw [if_pos rfl, if_pos rfl]
        unfold BatchVotes.ordered Paxos.Leader.append
        rw [List.append_assoc _ _ [v.batchId]]
    | false => rw [if_neg Bool.false_ne_true, if_neg Bool.false_ne_true]

/-- A step of the leader that keeps what it has in hand. -/
theorem leader (hi : Inv replicasSize s) {l : Paxos.Leader}
    (h : BatchVotes.ordered l = BatchVotes.ordered s.paxosLog) :
    Inv replicasSize { s with paxosLog := l } :=
  { hi with ordered := h.trans hi.ordered }

end Inv

/-- The leader moves what is appended through its hands to the log. -/
theorem ordered_propose {l l' : Paxos.Leader} (h : l.propose = some l') :
    ordered l' = ordered l := by
  unfold Paxos.Leader.propose at h
  cases hpc : l.pc with
  | idle =>
      rw [hpc] at h
      dsimp only at h
      split at h
      · cases h
      · obtain rfl := Option.some.inj h
        unfold ordered
        rw [hpc]
        simp
  | collect version encoded acks =>
      rw [hpc] at h
      cases h

theorem ordered_gotAck {quorum version : Nat} {l l' : Paxos.Leader}
    (h : l.gotAck quorum version = some l') : ordered l' = ordered l := by
  unfold Paxos.Leader.gotAck at h
  cases hpc : l.pc with
  | idle =>
      rw [hpc] at h
      cases h
  | collect version encoded acks =>
      rw [hpc] at h
      dsimp only at h
      split at h
      · obtain rfl := Option.some.inj h
        unfold ordered
        rw [hpc]
      · cases h

theorem ordered_commit {quorum : Nat} {l l' : Paxos.Leader} {order : SchedulerMessage}
    (h : l.commit quorum = some (l', order)) : ordered l' = ordered l := by
  unfold Paxos.Leader.commit at h
  cases hpc : l.pc with
  | idle =>
      rw [hpc] at h
      cases h
  | collect version encoded acks =>
      rw [hpc] at h
      dsimp only at h
      split at h
      · cases h
      · rw [Option.map_eq_some_iff] at h
        obtain ⟨log, hlog, h⟩ := h
        obtain ⟨rfl, -⟩ := Prod.mk.inj h
        obtain ⟨-, rfl⟩ := LocalMemLog.append_eq_some.mp hlog
        unfold ordered
        rw [hpc]
        simp [LocalMemLog.sequences]

theorem Inv.reachable {s : HeadMachine} (h : (machine replicasSize).Reachable s) :
    Inv replicasSize s := by
  refine h.invariant inv_init ?_
  intro s e s' _ _ hi hn
  change step replicasSize s e = some s' at hn
  cases e with
  | vote v => exact hi.vote hn
  | propose =>
      obtain ⟨l, hl, rfl⟩ := Option.map_eq_some_iff.mp hn
      exact hi.leader (ordered_propose hl)
  | gotAck version =>
      obtain ⟨l, hl, rfl⟩ := Option.map_eq_some_iff.mp hn
      exact hi.leader (ordered_gotAck hl)
  | commit =>
      obtain ⟨⟨l, order⟩, hl, rfl⟩ := Option.map_eq_some_iff.mp hn
      exact hi.leader (ordered_commit hl)

/-- After any votes of any replicas for any batches: `Append` has been called once
for a batch if a majority of its votes has been handled, and not at all before; and
`batch_votes_` has an entry for it, with the number of its votes, from the first
vote to the last but one. -/
theorem voted_once {s : HeadMachine} (h : (machine replicasSize).Reachable s) (batchId : Nat) :
    s.appended.count batchId = (if replicasSize / 2 + 1 ≤ votes s batchId then 1 else 0) ∧
      s.batchVotes batchId = (if 1 ≤ votes s batchId ∧ votes s batchId ≤ replicasSize - 1 then
        some (votes s batchId) else none) := by
  have hi := Inv.reachable h
  refine ⟨hi.once batchId, ?_⟩
  have hbound : 1 ≤ votes s batchId ∧ votes s batchId < replicasSize ↔
      1 ≤ votes s batchId ∧ votes s batchId ≤ replicasSize - 1 := by omega
  rw [hi.entry batchId, entryOf]
  simp only [hbound]

/-- Three replicas and two batches: one has its majority, the other one vote. -/
theorem voted_once_three : ∃ s, (machine 3).Reachable s ∧
    s.appended.count 7 = 1 ∧ s.batchVotes 7 = some 2 ∧
    s.appended.count 9 = 0 ∧ s.batchVotes 9 = some 1 := by
  obtain ⟨s, hs, h7, h9⟩ := Machine.exists_of_trace (m := machine 3)
    (P := fun s => votes s 7 = 2 ∧ votes s 9 = 1)
    [.vote ⟨1, 7⟩, .vote ⟨0, 9⟩, .vote ⟨2, 7⟩, .propose]
    (by decide)
  obtain ⟨hseven, hentry⟩ := voted_once hs 7
  obtain ⟨hnine, hentry'⟩ := voted_once hs 9
  rw [h7] at hseven hentry
  rw [h9] at hnine hentry'
  exact ⟨s, hs, hseven, hentry, hnine, hentry'⟩

/-- What was appended is in the leader's log or in its hands, in order. -/
theorem ordered_once {s : HeadMachine} (h : (machine replicasSize).Reachable s) :
    ordered s.paxosLog = s.appended :=
  (Inv.reachable h).ordered

end Calvin.BatchVotes
