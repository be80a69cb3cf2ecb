import Calvin.Scheduler.ReadExchange

/-!
# Which participants can finish

The participants of a transaction read the records they are the home of and
send them to the other participants that write. One that only reads is sent
nothing, and waits for the records of the others forever.

* `all_ready_iff`: all participants become ready to execute exactly if each of
  them has a record to write, or there is only one;
* `reader_waits`: a participant that only reads does not.
-/

namespace Calvin.ReadExchange

open StorageManager Replica

section

variable {cfg : ClusterConfig} {mode : Nat} {txn : TxnProto} {store : Nat × Nat → Key → Record}

/-- When a participant is ready: the other records reach it if it writes. -/
theorem received_ready {x : Nat × Nat} (hx : x ∈ participants cfg mode txn)
    (hkeys : txn.client.keys.Nodup) {messages : List ReadResult}
    (hl : messages.Perm (inbox cfg mode txn store x)) :
    (received cfg mode txn store x messages).readyToExecute txn = true ↔
      (∃ entry ∈ txn.readWriteSet, home cfg mode txn.originReplica entry = x) ∨
        ∀ entry ∈ txn.client.entries, home cfg mode txn.originReplica entry = x := by
  have hmem : ∀ k, k ∈ (received cfg mode txn store x messages).objects ↔
      (((∃ entry ∈ txn.readWriteSet, home cfg mode txn.originReplica entry = x) ∧
        ∃ entry ∈ txn.client.entries, entry.key = k ∧
          home cfg mode txn.originReplica entry ≠ x) ∨
        ∃ entry ∈ txn.client.entries, entry.key = k ∧
          home cfg mode txn.originReplica entry = x) := by
    intro k
    rw [mem_received, ← mem_inbox store, mem_created hx]
    exact or_congr_left (exists_congr fun msg => and_congr_left fun _ => hl.mem_iff)
  rw [ready_iff hkeys]
  · constructor
    · intro hall
      by_contra hne
      obtain ⟨hwrites, hother⟩ := not_or.mp hne
      obtain ⟨entry, hentry, hhome⟩ := not_forall₂.mp hother
      rcases (hmem entry.key).mp (hall _ (List.mem_map_of_mem hentry)) with h | ⟨e, he, heq, hx'⟩
      · exact hwrites h.1
      · -- the keys are distinct, so `e` is `entry`
        rw [List.inj_on_of_nodup_map hkeys he hentry heq] at hx'
        exact hhome hx'
    · intro h k hk
      obtain ⟨entry, hentry, rfl⟩ := List.mem_map.mp hk
      refine (hmem _).mpr ?_
      by_cases hhome : home cfg mode txn.originReplica entry = x
      · exact .inr ⟨entry, hentry, rfl, hhome⟩
      · rcases h with hwrites | hown
        · exact .inl ⟨hwrites, entry, hentry, rfl, hhome⟩
        · exact absurd (hown entry hentry) hhome
  · intro k hk
    rcases (hmem k).mp hk with ⟨-, entry, hentry, rfl, -⟩ | ⟨entry, hentry, rfl, -⟩
    · exact List.mem_map_of_mem hentry
    · exact List.mem_map_of_mem hentry

end

/-! ## Main results -/

/-- Once all messages have been handled, in any order, all participants are
ready to execute if and only if each has a record to write or there is only
one. -/
theorem all_ready_iff (cfg : ClusterConfig) (mode : Nat) (txn : TxnProto)
    (store : Nat × Nat → Key → Record) (hkeys : txn.client.keys.Nodup) :
    (∀ x ∈ participants cfg mode txn, ∀ messages,
        messages.Perm (inbox cfg mode txn store x) →
          (received cfg mode txn store x messages).readyToExecute txn = true) ↔
      (participants cfg mode txn).length ≤ 1 ∨ ∀ x ∈ participants cfg mode txn,
        ∃ entry ∈ txn.readWriteSet, home cfg mode txn.originReplica entry = x := by
  constructor
  · intro hall
    by_cases hwrites : ∀ x ∈ participants cfg mode txn,
        ∃ entry ∈ txn.readWriteSet, home cfg mode txn.originReplica entry = x
    · exact .inr hwrites
    · -- one that only reads is ready, so it is the home of everything
      obtain ⟨x, hx, hnone⟩ := not_forall₂.mp hwrites
      have hown := ((received_ready hx hkeys (List.Perm.refl _)).mp
        (hall x hx _ (List.Perm.refl _))).resolve_left hnone
      have hsingle : ∀ y ∈ participants cfg mode txn, y ∈ [x] := by
        intro y hy
        obtain ⟨entry, he, rfl⟩ := mem_participants.mp hy
        exact List.mem_singleton.mpr (hown entry he)
      exact .inl (participants_nodup.subperm hsingle).length_le
  · rintro h x hx messages hl
    rw [received_ready hx hkeys hl]
    rcases h with hone | hwrites
    · refine .inr fun entry hentry => ?_
      have hy : home cfg mode txn.originReplica entry ∈ participants cfg mode txn :=
        mem_participants.mpr ⟨entry, hentry, rfl⟩
      obtain ⟨z, hz⟩ := List.length_eq_one_iff.mp
        (Nat.le_antisymm hone (List.length_pos_of_mem hx))
      rw [hz, List.mem_singleton] at hx hy
      rw [hx, hy]
    · exact .inl (hwrites x hx)

/-- A transaction that writes a record at each of two partitions. -/
theorem all_ready_iff_writers :
    (∀ x ∈ participants { nodesPerReplica := 2 } 0
        { txnId := 1, readWriteSet := [⟨[48], 0, 0⟩, ⟨[49], 1, 0⟩] }, ∀ messages,
      messages.Perm (inbox { nodesPerReplica := 2 } 0
        { txnId := 1, readWriteSet := [⟨[48], 0, 0⟩, ⟨[49], 1, 0⟩] }
          (fun _ _ => ⟨[], 0, 0⟩) x) →
        (received { nodesPerReplica := 2 } 0
          { txnId := 1, readWriteSet := [⟨[48], 0, 0⟩, ⟨[49], 1, 0⟩] }
          (fun _ _ => ⟨[], 0, 0⟩) x messages).readyToExecute
            { txnId := 1, readWriteSet := [⟨[48], 0, 0⟩, ⟨[49], 1, 0⟩] } = true) ∧
    (participants { nodesPerReplica := 2 } 0
        { txnId := 1, readWriteSet := [⟨[48], 0, 0⟩, ⟨[49], 1, 0⟩] }).length = 2 := by
  refine ⟨?_, by decide⟩
  exact (all_ready_iff { nodesPerReplica := 2 } 0
    { txnId := 1, readWriteSet := [⟨[48], 0, 0⟩, ⟨[49], 1, 0⟩] } (fun _ _ => ⟨[], 0, 0⟩)
    (by decide)).mpr (.inr (by decide))

/-- Partition 0 only reads: it is sent nothing and waits for key `1`. -/
theorem reader_waits :
    ¬ ∀ (cfg : ClusterConfig) (mode : Nat) (txn : TxnProto) (store : Nat × Nat → Key → Record),
        txn.client.keys.Nodup → ∀ x ∈ participants cfg mode txn, ∀ messages,
          messages.Perm (inbox cfg mode txn store x) →
            (received cfg mode txn store x messages).readyToExecute txn = true := by
  intro hclaim
  have h := hclaim { nodesPerReplica := 2 } 1
    { txnId := 1, readSet := [⟨[48], 0, 0⟩], readWriteSet := [⟨[49], 0, 0⟩] }
    (fun _ _ => ⟨[], 0, 0⟩) (by decide) (0, 0) (by decide) _ (List.Perm.refl _)
  exact absurd h (by decide)

end Calvin.ReadExchange
