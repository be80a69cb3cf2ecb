import Calvin.Theorems.LogEpochs

/-!
# Decisions by the logs

In a replica in which each message reaches its transaction and each transaction
comes in its turn, the participants decide what the logs say, and the records have
the masters and the counters of the logs in the end.

* `InOrder`: the condition on a step;
* `Ordered`: the invariant of all nodes, with `Ordered.next`;
* `Ordered.committed_iff`: the decisions;
* `Ordered.records_lastEpoch`: the masters and the counters.
-/

namespace Calvin.Replica

open Function Lib DeterministicScheduler StorageManager

/-- A step in which each message reaches its transaction, and each transaction
comes in its turn. -/
def InOrder (cfg : ClusterConfig) (merge : List TxnProto) (s : Replica) (e : Event) : Prop :=
  OneId cfg merge s e ∧
    match e with
    | .node m e => InTurn (nodeConfig cfg m) (txnAt cfg merge m) (s.nodes m) e
    | .start m => InTurn (nodeConfig cfg m) (txnAt cfg merge m) (s.nodes m) .start
    | .deliver _ _ _ => True

instance (cfg : ClusterConfig) (merge : List TxnProto) (s : Replica) (e : Event) :
    Decidable (InOrder cfg merge s e) :=
  match e with
  | .node _ _ => inferInstanceAs (Decidable (_ ∧ InTurn _ _ _ _))
  | .start _ => inferInstanceAs (Decidable (_ ∧ InTurn _ _ _ _))
  | .deliver _ _ _ => inferInstanceAs (Decidable (_ ∧ True))

section

variable {cfg : ClusterConfig} {logs : Nat → List TxnProto} {merge : List TxnProto}
  {compute : Compute} {init : Key → Record} {seen : Nat → Ptr → Key → Record} {s s' : Replica}
  {m m' : Nat} {p q : Ptr}

theorem InOrder.inTurn {e : Event} (h : InOrder cfg merge s e) {e' : DeterministicScheduler.Event}
    (he : nodeEvent s e = some (m, e')) :
    InTurn (nodeConfig cfg m) (txnAt cfg merge m) (s.nodes m) e' := by
  cases e with
  | node m e =>
      obtain ⟨rfl, rfl⟩ := Prod.mk.inj (Option.some.inj he)
      exact h.2
  | start m =>
      obtain ⟨rfl, rfl⟩ := Prod.mk.inj (Option.some.inj he)
      exact h.2
  | deliver m p i =>
      obtain ⟨msg, -, heq⟩ := Option.map_eq_some_iff.mp he
      obtain ⟨rfl, rfl⟩ := Prod.mk.inj heq
      exact ⟨rfl, ⟨rfl, rfl⟩, rfl⟩

theorem found_eq {e : Event} {e' : DeterministicScheduler.Event}
    (he : nodeEvent s e = some (m, e')) :
    found seen s e = update seen m (taken (seen m) (s.nodes m) e') := by
  cases e with
  | node m e =>
      obtain ⟨rfl, rfl⟩ := Prod.mk.inj (Option.some.inj he)
      rfl
  | start m =>
      obtain ⟨rfl, rfl⟩ := Prod.mk.inj (Option.some.inj he)
      rfl
  | deliver m p i =>
      obtain ⟨msg, -, heq⟩ := Option.map_eq_some_iff.mp he
      obtain ⟨rfl, rfl⟩ := Prod.mk.inj heq
      exact (update_eq_self _ _).symm

/-! ## The epochs at all nodes -/

structure Ordered (cfg : ClusterConfig) (logs : Nat → List TxnProto) (merge : List TxnProto)
    (init : Key → Record) (seen : Nat → Ptr → Key → Record) (s : Replica) : Prop where
  exchanged : Exchanged cfg merge seen s
  turns : ∀ m, Turns (nodeConfig cfg m) (txnAt cfg merge m) (s.nodes m)
  epochs : ∀ m, Epochs (nodeConfig cfg m) (txnAt cfg merge m) (masterAt (forwarded logs) init)
    (seen m) (s.nodes m)

theorem ordered_init (hl : OriginLogs logs) (hm : IsMerge logs merge)
    (seen : Nat → Ptr → Key → Record) :
    Ordered cfg logs merge init seen (machine cfg 2 merge compute init).init where
  exchanged := exchanged_init (hl.copies hm) seen
  turns m := turns_init ((hl.copies hm).txnAt_new cfg m) init
  epochs m := epochs_init (hl.masters hm init m) ((hl.copies hm).txnAt_new cfg m) (seen m)

namespace Ordered

theorem next {e : Event} (hl : OriginLogs logs) (hm : IsMerge logs merge)
    (hi : Ordered cfg logs merge init seen s) (hgood : InOrder cfg merge s e)
    (h : (machine cfg 2 merge compute init).next s e = some s') :
    Ordered cfg logs merge init (found seen s e) s' := by
  have hexchanged := hi.exchanged.next (hl.copies hm) hgood.1 h
  obtain ⟨m, node, e', hevent, hnodes, hstep⟩ := next_node h
  have hturn := hgood.inTurn hevent
  refine ⟨hexchanged, fun m' => ?_, fun m' => ?_⟩
  · rw [hnodes]
    by_cases hne : m' = m
    · subst hne
      rw [update_self]
      exact (hi.turns m').step (hl.form hm m') hturn hstep
    · rw [update_of_ne hne]
      exact hi.turns m'
  · rw [hnodes, found_eq hevent]
    by_cases hne : m' = m
    · subst hne
      rw [update_self, update_self]
      exact (hi.epochs m').step (hl.form hm m') (hl.masters hm init m') (hi.turns m')
        (hi.exchanged.node m') hturn hstep
    · rw [update_of_ne hne, update_of_ne hne]
      exact hi.epochs m'

/-- A participant of a transaction that all entries of which are up to date is not
marked. -/
theorem unmarked (hl : OriginLogs logs) (hm : IsMerge logs merge)
    (hi : Ordered cfg logs merge init seen s) (hp : p < (stream cfg merge m).length)
    (h : Verdict cfg merge seen s (txnAt cfg merge m p) true) (hq : Opened (s.nodes m') q)
    (hid : (txnAt cfg merge m' q).txnId = (txnAt cfg merge m p).txnId) :
    (s.nodes m').status q ≠ .abortedWithoutLock := by
  intro hmarked
  have hclient := (hl.copies hm).ptr_client (hi.exchanged.opened_lt hq) hp hid
  have hfalse : Verdict cfg merge seen s (txnAt cfg merge m' q) false := by
    rcases hq with hsome | hexecuted
    · obtain ⟨sm, hsm⟩ := Option.isSome_iff_exists.mp hsome
      obtain ⟨entry, he, hown, hlt⟩ := ((hi.exchanged.node m').participant q sm hsm).marked hmarked
      exact ⟨entry, he, _, Exchanged.seen_own (.inl hsome) hown,
        decide_eq_false fun h => absurd h.2 (Nat.ne_of_lt hlt)⟩
    · have hverdict := hi.exchanged.verdict m' q hexecuted
      rw [hmarked] at hverdict
      exact hverdict
  exact absurd (hi.exchanged.verdict_unique (hl.copies hm) hid.symm hclient.symm h hfalse)
    (by decide)

/-- The verdict on a transaction is what the logs say. -/
theorem verdict_iff (hl : OriginLogs logs) (hm : IsMerge logs merge)
    (hi : Ordered cfg logs merge init seen s) (hp : p < (stream cfg merge m).length)
    {commit : Bool} (h : Verdict cfg merge seen s (txnAt cfg merge m p) commit) :
    commit = true ↔ Commits (forwarded logs) init (txnAt cfg merge m p).client := by
  have hclient : ∀ {m' q}, Opened (s.nodes m') q →
      (txnAt cfg merge m' q).txnId = (txnAt cfg merge m p).txnId →
      (txnAt cfg merge m' q).client = (txnAt cfg merge m p).client := fun hq hid =>
    (hl.copies hm).ptr_client (hi.exchanged.opened_lt hq) hp hid
  cases commit with
  | true =>
      refine iff_of_true rfl fun entry he => ?_
      obtain ⟨val, ⟨q, hq, hid, hmaster, rfl⟩, hup⟩ := h entry he
      have hown : Own (nodeConfig cfg (cfg.lookupPartition entry.key))
          (txnAt cfg merge (cfg.lookupPartition entry.key) q).originReplica entry :=
        ⟨hmaster.symm, rfl⟩
      have hin := ((hi.epochs _).seen q hq (hi.unmarked hl hm hp h hq hid) entry
        (by rw [hclient hq hid]; exact he) hown).mp hup
      have hcurrent := (hl.inEpoch_iff hm (hi.exchanged.opened_lt hq) hown).mp hin
      rw [hid] at hcurrent
      exact hcurrent
  | false =>
      refine iff_of_false Bool.false_ne_true fun hcommits => ?_
      obtain ⟨entry, he, val, ⟨q, hq, hid, hmaster, rfl⟩, hstale⟩ := h
      have hlt := hi.exchanged.opened_lt hq
      -- the participant that has found it names an entry that is not in its epoch
      have hnot : ∃ e ∈ (txnAt cfg merge (cfg.lookupPartition entry.key) q).client.entries,
          Own (nodeConfig cfg (cfg.lookupPartition entry.key))
            (txnAt cfg merge (cfg.lookupPartition entry.key) q).originReplica e ∧
          ¬ InEpoch (masterAt (forwarded logs) init)
            (txnAt cfg merge (cfg.lookupPartition entry.key)) q e := by
        by_cases hmarked : (s.nodes (cfg.lookupPartition entry.key)).status q = .abortedWithoutLock
        · exact (hi.epochs _).stale q hmarked
        · have he' : entry ∈
              (txnAt cfg merge (cfg.lookupPartition entry.key) q).client.entries := by
            rw [hclient hq hid]
            exact he
          refine ⟨entry, he', ⟨hmaster.symm, rfl⟩, fun hin => ?_⟩
          have hup := ((hi.epochs _).seen q hq hmarked entry he' ⟨hmaster.symm, rfl⟩).mpr hin
          exact absurd (hup.symm.trans hstale) (by decide)
      obtain ⟨e, he', hown, hnot⟩ := hnot
      rw [hclient hq hid] at he'
      rw [hl.inEpoch_iff hm hlt hown, hid] at hnot
      exact hnot (hcommits e he')

/-- What has been executed is committed if the logs say so. -/
theorem committed_iff (hl : OriginLogs logs) (hm : IsMerge logs merge)
    (hi : Ordered cfg logs merge init seen s) (h : Executed (s.nodes m) p) :
    (s.nodes m).status p = .committed ↔
      Commits (forwarded logs) init (txnAt cfg merge m p).client := by
  rw [← hi.verdict_iff hl hm (hi.exchanged.opened_lt (.inr h)) (hi.exchanged.verdict m p h),
    decide_eq_true_iff]

/-- When all has been executed, each record is in the last epoch of the logs. -/
theorem records_lastEpoch (hl : OriginLogs logs) (hm : IsMerge logs merge)
    (hi : Ordered cfg logs merge init seen s) (h : Complete cfg merge s) (k : Key) :
    LastEpoch (forwarded logs) init k (records cfg s k).counter (records cfg s k).master := by
  have hnow : masterAt (forwarded logs) init k (records cfg s k).counter =
      some (records cfg s k).master :=
    (hi.epochs (cfg.lookupPartition k)).now k (decide_eq_true rfl)
  refine ⟨hnow, ?_⟩
  rw [masterAt_succ hnow, Option.map_eq_none_iff, List.find?_eq_none]
  intro txn htxn hends
  have hends' := of_decide_eq_true hends
  -- a remaster transaction that ends the epoch has been executed
  obtain ⟨q, hq, heq⟩ := hl.exists_end cfg hm htxn hends'
  have hlt := (hi.epochs (cfg.lookupPartition k)).ended q k _ _
    (h (cfg.lookupPartition k) q hq) (by rw [heq]; exact hends') hnow
  exact Nat.lt_irrefl _ hlt

end Ordered

end

end Calvin.Replica
