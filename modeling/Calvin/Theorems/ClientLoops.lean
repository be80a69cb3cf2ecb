import Calvin.Machine.Client

/-!
# The loops of the clients

`MClient` and `TClient` draw another node only where there is one. The two
low latency clients draw another replica on a percentage alone, and
`Lowlatency_TClient` another node too: with one replica, or with one node a
replica, no value of `rand()` ends that loop.
-/

namespace Calvin

open Lib (Draw)
open Lib.Draw

namespace Client

def OtherNode (c : Client) : Prop :=
  ∃ node < c.config.nodesPerReplica, node ≠ c.config.relativeNodeId

def OtherReplica (c : Client) : Prop :=
  ∃ replica < c.config.replicasSize, replica ≠ c.config.localReplicaId

end Client

/-- When no client can be caught in a loop: the low latency clients need another
replica, and the TPC-C one another node, where their percentages ask for one. -/
def ClientKind.LoopsEnd : ClientKind → Client → Prop
  | .mClient, _ => True
  | .tClient, _ => True
  | .lowlatencyMClient, c => c.percentMr = 0 ∨ c.OtherReplica
  | .lowlatencyTClient, c =>
      c.percentMp = 0 ∨ c.OtherNode ∧ (c.percentMr = 0 ∨ c.OtherReplica)

namespace Client

variable {α : Type}

/-- Zero or one is drawn where there is another value at all. -/
theorem exists_other {size self : Nat} :
    (∃ r ≤ randMax, decide (r % size ≠ self) = true) ∧ 0 < size ↔
      ∃ i < size, i ≠ self := by
  constructor
  · rintro ⟨⟨r, -, hr⟩, hpos⟩
    exact ⟨r % size, Nat.mod_lt r hpos, of_decide_eq_true hr⟩
  · rintro ⟨i, hi, hne⟩
    refine ⟨?_, by omega⟩
    by_cases h0 : self = 0
    · refine ⟨1, by decide, decide_eq_true ?_⟩
      rw [Nat.mod_eq_of_lt (by omega), h0]
      omega
    · refine ⟨0, by decide, decide_eq_true ?_⟩
      rw [Nat.zero_mod]
      omega

/-- A loop that draws another one, before a rest that can end or not whatever
was drawn. -/
theorem canEnd_drawOther {size self : Nat} {f : Nat → Draw α} {rest : Prop} (hpos : 0 < size)
    (hf : ∀ i, CanEnd randMax (f i) ↔ rest) :
    CanEnd randMax (drawOther size self >>= f) ↔ (∃ i < size, i ≠ self) ∧ rest := by
  rw [drawOther, if_neg (by omega), ← exists_other]
  show CanEnd randMax (retry _ fun r => f (r % size)) ↔ _
  rw [canEnd_retry]
  constructor
  · rintro ⟨⟨r, hr, hstop⟩, hnext⟩
    exact ⟨⟨⟨r, hr, hstop⟩, hpos⟩, (hf _).mp (hnext r hr hstop)⟩
  · rintro ⟨⟨hstop, -⟩, hrest⟩
    exact ⟨hstop, fun r _ _ => (hf _).mpr hrest⟩

theorem canEnd_otherNode (c : Client) {f : Nat → Draw α} {rest : Prop}
    (hpos : 0 < c.config.nodesPerReplica) (hf : ∀ i, CanEnd randMax (f i) ↔ rest) :
    CanEnd randMax (c.otherNode >>= f) ↔ c.OtherNode ∧ rest :=
  canEnd_drawOther hpos hf

theorem canEnd_otherReplica (c : Client) {f : Nat → Draw α} {rest : Prop}
    (hpos : 0 < c.config.replicasSize) (hf : ∀ i, CanEnd randMax (f i) ↔ rest) :
    CanEnd randMax (c.otherReplica >>= f) ↔ c.OtherReplica ∧ rest :=
  canEnd_drawOther hpos hf

/-- A percentage picks its first branch unless it is zero, and its second one
unless it is a hundred. -/
theorem canEnd_percent {limit : Nat} {f : Bool → Draw α} :
    CanEnd randMax (percent limit >>= f) ↔
      (0 < limit → CanEnd randMax (f true)) ∧ (limit < 100 → CanEnd randMax (f false)) := by
  show CanEnd randMax (retry (fun _ => true) fun r => f (decide (r % 100 < limit))) ↔ _
  rw [canEnd_draw]
  constructor
  · intro h
    constructor
    · intro hpos
      have h0 := h 0 (by decide)
      rwa [decide_eq_true (by omega)] at h0
    · intro hlt
      have h99 := h 99 (by decide)
      rwa [decide_eq_false (by omega)] at h99
  · rintro ⟨htrue, hfalse⟩ r _
    by_cases hr : r % 100 < limit
    · rw [decide_eq_true hr]
      exact htrue (by omega)
    · rw [decide_eq_false hr]
      exact hfalse (by omega)

/-- The guarded node loop: it is entered only with two nodes or more. -/
theorem canEnd_guardedNode (c : Client) {f : Nat → Draw α} {d : Draw α}
    (hf : ∀ i, CanEnd randMax (f i)) (hd : CanEnd randMax d) :
    CanEnd randMax (do
      let multi ← c.multiPartition
      if multi then
        let node ← c.otherNode
        f node
      else d) := by
  unfold multiPartition
  split
  · next hnodes =>
      rw [canEnd_percent]
      refine ⟨?_, fun _ => hd⟩
      intro _
      refine (c.canEnd_otherNode (by omega) fun i => iff_of_true (hf i) trivial).mpr ⟨?_, trivial⟩
      by_cases h0 : c.config.relativeNodeId = 0
      · exact ⟨1, hnodes, by omega⟩
      · exact ⟨0, by omega, by omega⟩
  · exact hd

end Client

theorem mClient_loops_end (c : Client) : CanEnd randMax (MClient.getTxn c) :=
  c.canEnd_guardedNode (fun _ => canEnd_done) canEnd_done

theorem tClient_loops_end (c : Client) : CanEnd randMax (TClient.getTxn c) :=
  c.canEnd_guardedNode (fun _ => canEnd_done) canEnd_done

theorem lowlatencyMClient_loops_end (c : Client) (hreplicas : 0 < c.config.replicasSize) :
    CanEnd randMax (LowlatencyMClient.getTxn c) ↔ c.percentMr = 0 ∨ c.OtherReplica := by
  have hreplica := c.canEnd_otherReplica hreplicas fun other => iff_true_intro <|
    c.canEnd_guardedNode (f := fun node => done (TxnCall.mrmp c.config.relativeNodeId node
        c.config.localReplicaId other)) (fun _ => canEnd_done)
      (canEnd_done (a := .mrsp c.config.relativeNodeId c.config.localReplicaId other))
  have hsingle := c.canEnd_guardedNode (f := fun node => done (TxnCall.srmp
      c.config.relativeNodeId node c.config.localReplicaId)) (fun _ => canEnd_done)
    (canEnd_done (a := .srsp c.config.relativeNodeId c.config.localReplicaId))
  refine Client.canEnd_percent.trans ?_
  constructor
  · intro h
    by_cases h0 : c.percentMr = 0
    · exact .inl h0
    · exact .inr (hreplica.mp (h.1 (by omega))).1
  · intro h
    refine ⟨?_, fun _ => hsingle⟩
    intro hpos
    exact hreplica.mpr ⟨h.resolve_left (by omega), trivial⟩

theorem lowlatencyTClient_loops_end (c : Client) (hnodes : 0 < c.config.nodesPerReplica)
    (hreplicas : 0 < c.config.replicasSize) (hmr : c.percentMr ≤ 100) :
    CanEnd randMax (LowlatencyTClient.getTxn c) ↔
      c.percentMp = 0 ∨ c.OtherNode ∧ (c.percentMr = 0 ∨ c.OtherReplica) := by
  have hnode := c.canEnd_otherNode (f := fun node => done (TxnCall.srmp
    c.config.relativeNodeId node c.config.localReplicaId)) hnodes
    fun _ => iff_true_intro canEnd_done
  have hreplica := c.canEnd_otherReplica hreplicas fun other =>
    c.canEnd_otherNode (f := fun node => done (TxnCall.mrmp c.config.relativeNodeId node
      c.config.localReplicaId other)) hnodes fun _ => iff_true_intro canEnd_done
  refine Client.canEnd_percent.trans ?_
  constructor
  · intro h
    by_cases h0 : c.percentMp = 0
    · exact .inl h0
    refine .inr ?_
    have hmulti := Client.canEnd_percent.mp (h.1 (by omega))
    by_cases hr0 : c.percentMr = 0
    · exact ⟨(hnode.mp (hmulti.2 (by omega))).1, .inl hr0⟩
    · have hboth := hreplica.mp (hmulti.1 (by omega))
      exact ⟨hboth.2.1, .inr hboth.1⟩
  · intro h
    refine ⟨?_, fun _ => canEnd_done⟩
    intro hpos
    obtain ⟨hother, hmr0⟩ := h.resolve_left (by omega)
    refine Client.canEnd_percent.mpr ⟨?_, ?_⟩
    · intro hr
      exact hreplica.mpr ⟨hmr0.resolve_left (by omega), hother, trivial⟩
    · intro _
      exact hnode.mpr ⟨hother, trivial⟩

/-- The four clients and all their loops: whatever `rand()` has returned, some
value of it ends the loop `GetTxn` is in, exactly when `LoopsEnd` holds. -/
theorem client_loops_end (kind : ClientKind) (c : Client) (hnodes : 0 < c.config.nodesPerReplica)
    (hreplicas : 0 < c.config.replicasSize) (hmr : c.percentMr ≤ 100) :
    CanEnd randMax (kind.getTxn c) ↔ kind.LoopsEnd c := by
  cases kind with
  | mClient => exact iff_of_true (mClient_loops_end c) trivial
  | tClient => exact iff_of_true (tClient_loops_end c) trivial
  | lowlatencyMClient => exact lowlatencyMClient_loops_end c hreplicas
  | lowlatencyTClient => exact lowlatencyTClient_loops_end c hnodes hreplicas hmr

/-- Three replicas of two nodes: the TPC-C client can leave all its loops. -/
theorem client_loops_end_three :
    CanEnd randMax (ClientKind.lowlatencyTClient.getTxn
      { config := { nodesPerReplica := 2, replicasSize := 3 }
        percentMp := 10
        percentMr := 50 }) :=
  (client_loops_end .lowlatencyTClient _ (by decide) (by decide) (by decide)).mpr
    (.inr ⟨⟨1, by decide, by decide⟩, .inr ⟨1, by decide, by decide⟩⟩)

/-- A cluster with one replica and `percent_mr` above zero: the first draw that
asks for another replica is the last one that does anything. -/
theorem lowlatencyMClient_spins :
    ¬ ∀ (kind : ClientKind) (c : Client),
      c.config.relativeNodeId < c.config.nodesPerReplica →
      c.config.localReplicaId < c.config.replicasSize →
      c.percentMp ≤ 100 → c.percentMr ≤ 100 → CanEnd randMax (kind.getTxn c) := by
  intro h
  have hloop := h .lowlatencyMClient { config := {}, percentMp := 0, percentMr := 10 }
    (by decide) (by decide) (by decide) (by decide) [0] (by decide)
    (fun r => decide (r % 1 ≠ 0)) rfl
  obtain ⟨r, -, hr⟩ := hloop
  rw [Nat.mod_one] at hr
  cases hr

end Calvin
