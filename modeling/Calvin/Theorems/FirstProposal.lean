import Calvin.Log.Paxos
import Calvin.Scheduler.GetBatch

/-!
# The first proposal of the Paxos leader is never executed

The leader numbers its proposals from version 0 (`next_version = 0`), while
`GetBatch` starts at `current_sequence_id_ = 1` and only moves upwards. The
system here puts the two together with any interleaving of `Append` calls,
leader steps, deliveries in any order and `GetBatch` calls.

* `FirstProposal.Inv` — the oldest batch travels under version 0 only, and
  version 0 is not looked at before a batch has been returned;
* `all_returned_iff` — so the returned batches are all appended ones exactly
  when nothing was appended at all.
-/

namespace Calvin.FirstProposal

open Calvin Calvin.Lib Calvin.Paxos Function

/-- The leader, one scheduler that receives its order, and the messages of
channel `scheduler_` between them. -/
structure State where
  leader : Leader
  /-- How many of the batches have been passed to `Append`. -/
  appended : Nat
  /-- Sent and not yet delivered. -/
  inFlight : List SchedulerMessage
  /-- Delivered and not yet read. -/
  channel : List SchedulerMessage
  reader : BatchReader
  /-- The batches `GetBatch` has returned. -/
  returned : List Nat

inductive Event
  | append
  | propose
  | gotAck (version : Nat)
  | commit
  /-- The multiplexer delivers one of the messages in flight. -/
  | deliver (index : Nat)
  | getBatch

/-- The run for a list of batches: they are appended in this order, and the
`TXN_SUBBATCH` message of each is on its way from the start. -/
def machine (participants : Nat) (batches : List Subbatch) : Machine State Event where
  init :=
    { leader := {}
      appended := 0
      inFlight := batches.map .txnSubbatch
      channel := []
      reader := {}
      returned := [] }
  next s
    | .append =>
        (batches[s.appended]?).map fun batch =>
          { s with leader := s.leader.append batch.batchNumber, appended := s.appended + 1 }
    | .propose => s.leader.propose.map fun leader => { s with leader }
    | .gotAck version =>
        (s.leader.gotAck (quorum participants) version).map fun leader => { s with leader }
    | .commit =>
        (s.leader.commit (quorum participants)).map fun (leader, order) =>
          { s with leader, inFlight := s.inFlight ++ [order] }
    | .deliver index =>
        (s.inFlight[index]?).map fun message =>
          { s with
            inFlight := s.inFlight.eraseIdx index
            channel := s.channel ++ [message] }
    | .getBatch =>
        (s.reader.getBatch s.channel).map fun (reader, channel, batch) =>
          { s with
            reader
            channel
            returned := s.returned ++ (batch.map (·.batchNumber)).toList }

/-- Everything appended, proposed, ordered and delivered. -/
def Delivered (batches : List Subbatch) (s : State) : Prop :=
  s.appended = batches.length ∧ s.leader.pc = .idle ∧ s.leader.count = 0 ∧ s.inFlight = []

instance (batches : List Subbatch) : DecidablePred (Delivered batches) :=
  fun _ => inferInstanceAs (Decidable (_ ∧ _))

/-- From here on, enough further calls of `GetBatch` have returned every batch
once, in append order. -/
def ReturnsAll (participants : Nat) (batches : List Subbatch) (s : State) : Prop :=
  ∃ calls, ∀ more ≥ calls, ∃ t,
    (machine participants batches).run s (List.replicate more .getBatch) = some t ∧
      t.returned = batches.map (·.batchNumber)

/-! ## What `GetBatch` can return -/

/-- `first` is in no sequence that `GetBatch` could take up under a version
other than 0. -/
def OrderAvoids (first : Nat) (message : SchedulerMessage) : Prop :=
  ∀ version data, message = .paxosBatchOrder version data → version ≠ 0 → first ∉ data

/-- Both buffers and the current sequence keep `first` under version 0, which
is not the one `GetBatch` waits for. -/
structure ReaderAvoids (first : Nat) (r : BatchReader) : Prop where
  atOne : r.currentSequenceId = 1
  buffered : ∀ version data, r.globalBatchesOrder version = some data → version ≠ 0 → first ∉ data
  current : ∀ data, r.currentSequence = some data → first ∉ data
  stored : ∀ id batch, r.batchesData id = some batch → batch.batchNumber = id

theorem ReaderAvoids.store {first : Nat} {r : BatchReader} (h : ReaderAvoids first r)
    (batch : Subbatch) :
    ReaderAvoids first
      { r with batchesData := update r.batchesData batch.batchNumber (some batch) } :=
  { h with
    stored := by
      intro id b hb
      by_cases hid : id = batch.batchNumber
      · subst hid
        simp only [update_self, Option.some.injEq] at hb
        rw [hb]
      · simp only [update_of_ne hid] at hb
        exact h.stored id b hb }

theorem ReaderAvoids.order {first : Nat} {r : BatchReader} (h : ReaderAvoids first r)
    {version : Nat} {data : Sequence} (hdata : version ≠ 0 → first ∉ data) :
    ReaderAvoids first
      { r with globalBatchesOrder := update r.globalBatchesOrder version (some data) } :=
  { h with
    buffered := by
      intro v d hd hv
      by_cases heq : v = version
      · subst heq
        simp only [update_self, Option.some.injEq] at hd
        rw [← hd]
        exact hdata hv
      · simp only [update_of_ne heq] at hd
        exact h.buffered v d hd hv }

/-- Reading for the next sequence keeps `first` away. -/
theorem receiveOrder_avoids {first : Nat} (channel : List SchedulerMessage) (r : BatchReader)
    (h : ReaderAvoids first r) (hch : ∀ m ∈ channel, OrderAvoids first m) :
    ReaderAvoids first (r.receiveOrder channel).1 ∧
      ∀ m ∈ (r.receiveOrder channel).2, OrderAvoids first m := by
  induction channel generalizing r with
  | nil => exact ⟨h, by simp [BatchReader.receiveOrder]⟩
  | cons m rest ih =>
      have hrest : ∀ m ∈ rest, OrderAvoids first m :=
        fun m hm => hch m (List.mem_cons_of_mem _ hm)
      cases m with
      | txnSubbatch batch => exact ih _ (h.store batch) hrest
      | paxosBatchOrder version data =>
          have hdata : version ≠ 0 → first ∉ data :=
            hch _ List.mem_cons_self version data rfl
          unfold BatchReader.receiveOrder
          by_cases hv : version = r.currentSequenceId
          · rw [if_pos hv]
            have hne : version ≠ 0 := by rw [hv, h.atOne]; decide
            refine ⟨{ h with current := ?_ }, hrest⟩
            intro d hd
            simp only [Option.some.injEq] at hd
            exact hd ▸ hdata hne
          · rw [if_neg hv]
            exact ih _ (h.order hdata) hrest

theorem fetchSequence_avoids {first : Nat} (channel : List SchedulerMessage) (r : BatchReader)
    (h : ReaderAvoids first r) (hch : ∀ m ∈ channel, OrderAvoids first m) :
    ReaderAvoids first (r.fetchSequence channel).1 ∧
      ∀ m ∈ (r.fetchSequence channel).2, OrderAvoids first m := by
  unfold BatchReader.fetchSequence
  split
  · exact ⟨h, hch⟩
  · split
    · rename_i data hdata
      have hnot : first ∉ data :=
        h.buffered _ _ hdata (by rw [h.atOne]; decide)
      refine ⟨{ h with buffered := ?_, current := ?_ }, hch⟩
      · intro v d hd hv
        by_cases heq : v = r.currentSequenceId
        · subst heq
          simp at hd
        · simp only [update_of_ne heq] at hd
          exact h.buffered v d hd hv
      · intro d hd
        simp only [Option.some.injEq] at hd
        exact hd ▸ hnot
    · exact receiveOrder_avoids channel r h hch

/-- Reading for the wanted sub-batch either finds it, or keeps `first` away. -/
theorem receiveSubbatch_avoids {first : Nat} (wanted size : Nat) (channel : List SchedulerMessage)
    (r : BatchReader) (h : ReaderAvoids first r)
    (hch : ∀ m ∈ channel, OrderAvoids first m) :
    (∃ r' rest batch, r.receiveSubbatch wanted size channel = (r', rest, some batch) ∧
        batch.batchNumber = wanted) ∨
      (∃ r' rest, r.receiveSubbatch wanted size channel = (r', rest, none) ∧
        ReaderAvoids first r' ∧ ∀ m ∈ rest, OrderAvoids first m) := by
  induction channel generalizing r with
  | nil => exact .inr ⟨r, [], rfl, h, by simp⟩
  | cons m rest ih =>
      have hrest : ∀ m ∈ rest, OrderAvoids first m :=
        fun m hm => hch m (List.mem_cons_of_mem _ hm)
      cases m with
      | txnSubbatch batch =>
          unfold BatchReader.receiveSubbatch
          by_cases hb : batch.batchNumber = wanted
          · rw [if_pos hb]
            exact .inl ⟨_, _, batch, rfl, hb⟩
          · rw [if_neg hb]
            exact ih _ (h.store batch) hrest
      | paxosBatchOrder version data =>
          exact ih _ (h.order (hch _ List.mem_cons_self version data rfl)) hrest

/-- A call of `GetBatch` returns another batch than `first`, or none and
keeps `first` away. -/
theorem getBatch_avoids {first : Nat} {channel channel' : List SchedulerMessage}
    {r r' : BatchReader} {batch : Option Subbatch} (h : ReaderAvoids first r)
    (hch : ∀ m ∈ channel, OrderAvoids first m)
    (hget : r.getBatch channel = some (r', channel', batch)) :
    (∃ b, batch = some b ∧ b.batchNumber ≠ first) ∨
      (batch = none ∧ ReaderAvoids first r' ∧ ∀ m ∈ channel', OrderAvoids first m) := by
  obtain ⟨hr, hc⟩ := fetchSequence_avoids channel r h hch
  unfold BatchReader.getBatch at hget
  generalize r.fetchSequence channel = fetched at hget hr hc
  obtain ⟨r₁, channel₁⟩ := fetched
  simp only [BatchReader.fetchBatch] at hget
  cases hcur : r₁.currentSequence with
  | none =>
      simp only [hcur, Option.some.injEq, Prod.mk.injEq] at hget
      obtain ⟨rfl, rfl, rfl⟩ := hget
      exact .inr ⟨rfl, hr, hc⟩
  | some sequence =>
      simp only [hcur, Option.map_eq_some_iff] at hget
      obtain ⟨wanted, hwanted, hget⟩ := hget
      have hne : wanted ≠ first := by
        rintro rfl
        exact hr.current sequence hcur (List.mem_of_getElem? hwanted)
      cases hdata : r₁.batchesData wanted with
      | some b =>
          simp only [hdata, Prod.mk.injEq] at hget
          obtain ⟨-, -, rfl⟩ := hget
          exact .inl ⟨b, rfl, by rw [hr.stored wanted b hdata]; exact hne⟩
      | none =>
          simp only [hdata] at hget
          rcases receiveSubbatch_avoids wanted sequence.length channel₁ r₁ hr hc with
            ⟨_, _, b, hb, hnum⟩ | ⟨_, _, hb, hr', hc'⟩
          · rw [hb] at hget
            simp only [Prod.mk.injEq] at hget
            exact .inl ⟨b, hget.2.2.symm, by rw [hnum]; exact hne⟩
          · rw [hb] at hget
            simp only [Prod.mk.injEq] at hget
            obtain ⟨rfl, rfl, rfl⟩ := hget
            exact .inr ⟨rfl, hr', hc'⟩

/-! ## The leader puts the oldest batch under version 0 -/

/-- The leader holds `first` in its pending sequence only before its first
proposal, and proposes it under version 0 only. -/
structure LeaderAvoids (first : Nat) (l : Leader) : Prop where
  counted : l.count = l.sequence.length
  pending : l.nextVersion ≠ 0 → first ∉ l.sequence
  proposed : ∀ version data acks, l.pc = .collect version data acks →
    version ≠ 0 → first ∉ data

theorem LeaderAvoids.append {first id : Nat} {l : Leader} (h : LeaderAvoids first l)
    (hid : l.nextVersion ≠ 0 → id ≠ first) : LeaderAvoids first (l.append id) where
  counted := by simp [Leader.append, h.counted]
  pending := by
    intro hv hmem
    simp only [Leader.append, List.mem_append, List.mem_singleton] at hv hmem
    rcases hmem with hmem | hmem
    · exact h.pending hv hmem
    · exact hid hv hmem.symm
  proposed := h.proposed

/-- Only a leader with requests proposes. -/
theorem LeaderAvoids.propose {first : Nat} {l l' : Leader} (h : LeaderAvoids first l)
    (hp : l.propose = some l') : LeaderAvoids first l' ∧ l.sequence ≠ [] := by
  unfold Leader.propose at hp
  cases hpc : l.pc with
  | collect => simp [hpc] at hp
  | idle =>
      simp only [hpc] at hp
      split at hp
      · cases hp
      · rename_i hcount
        cases hp
        refine ⟨⟨rfl, by simp, ?_⟩, ?_⟩
        · intro version data acks heq
          simp only [LeaderPc.collect.injEq] at heq
          obtain ⟨rfl, rfl, -⟩ := heq
          exact h.pending
        · intro hnil
          exact hcount (by rw [h.counted, hnil]; rfl)

theorem LeaderAvoids.gotAck {first quorum version : Nat} {l l' : Leader}
    (h : LeaderAvoids first l) (hp : l.gotAck quorum version = some l') :
    LeaderAvoids first l' ∧ l'.nextVersion = l.nextVersion ∧ l'.sequence = l.sequence := by
  unfold Leader.gotAck at hp
  cases hpc : l.pc with
  | idle => simp [hpc] at hp
  | collect v data acks =>
      simp only [hpc] at hp
      split at hp
      · cases hp
        refine ⟨{ h with proposed := ?_ }, rfl, rfl⟩
        intro v' data' acks' heq
        simp only [LeaderPc.collect.injEq] at heq
        obtain ⟨rfl, rfl, -⟩ := heq
        exact h.proposed _ _ _ hpc
      · cases hp

theorem LeaderAvoids.commit {first quorum : Nat} {l l' : Leader} {order : SchedulerMessage}
    (h : LeaderAvoids first l) (hp : l.commit quorum = some (l', order)) :
    LeaderAvoids first l' ∧ OrderAvoids first order ∧ l'.nextVersion = l.nextVersion ∧
      l'.sequence = l.sequence := by
  unfold Leader.commit at hp
  cases hpc : l.pc with
  | idle => simp [hpc] at hp
  | collect v data acks =>
      simp only [hpc] at hp
      split at hp
      · cases hp
      · simp only [Option.map_eq_some_iff, Prod.mk.injEq] at hp
        obtain ⟨log, -, rfl, rfl⟩ := hp
        refine ⟨{ h with proposed := by simp }, ?_, rfl, rfl⟩
        intro v' data' heq
        simp only [SchedulerMessage.paxosBatchOrder.injEq] at heq
        obtain ⟨rfl, rfl⟩ := heq
        exact h.proposed _ _ _ hpc

/-! ## Whole runs -/

variable {participants : Nat} {batches : List Subbatch}

/-- The oldest batch stays under version 0 everywhere, and nothing returned
starts with it. -/
structure Inv (first : Nat) (s : State) : Prop where
  leader : LeaderAvoids first s.leader
  fresh : s.appended = 0 → s.leader.nextVersion = 0 ∧ s.leader.sequence = []
  inFlight : ∀ m ∈ s.inFlight, OrderAvoids first m
  reading : s.returned = [] →
    ReaderAvoids first s.reader ∧ ∀ m ∈ s.channel, OrderAvoids first m
  returned : ∀ id ∈ s.returned.head?, id ≠ first

theorem inv_init (first : Nat) : Inv first (machine participants batches).init where
  leader := ⟨rfl, by simp [machine], by simp [machine]⟩
  fresh := fun _ => ⟨rfl, rfl⟩
  inFlight := by
    intro m hm version data heq
    simp only [machine, List.mem_map] at hm
    obtain ⟨b, -, rfl⟩ := hm
    cases heq
  reading := fun _ =>
    ⟨⟨rfl, by simp [machine], by simp [machine], by simp [machine]⟩, by simp [machine]⟩
  returned := by simp [machine]

theorem inv_step {first : Nat} (hfirst : batches.head?.map (·.batchNumber) = some first)
    (hnodup : (batches.map (·.batchNumber)).Nodup) {s s' : State} {e : Event}
    (h : Inv first s) (hn : (machine participants batches).next s e = some s') :
    Inv first s' := by
  cases e with
  | append =>
      simp only [machine, Option.map_eq_some_iff] at hn
      obtain ⟨batch, hb, rfl⟩ := hn
      refine { h with leader := h.leader.append ?_, fresh := by simp }
      -- a later batch than the first has another number
      intro hv heq
      have hpos : s.appended ≠ 0 := fun h0 => hv (h.fresh h0).1
      obtain ⟨b0, hb0, rfl⟩ := Option.map_eq_some_iff.mp hfirst
      rw [List.head?_eq_getElem?] at hb0
      have h1 : (batches.map (·.batchNumber))[s.appended]? = some b0.batchNumber := by
        rw [List.getElem?_map, hb, Option.map_some, heq]
      have h2 : (batches.map (·.batchNumber))[0]? = some b0.batchNumber := by
        rw [List.getElem?_map, hb0, Option.map_some]
      have hlt := (List.getElem?_eq_some_iff.mp h1).1
      exact hpos ((List.getElem?_inj hlt hnodup).mp (h1.trans h2.symm))
  | propose =>
      simp only [machine, Option.map_eq_some_iff] at hn
      obtain ⟨l', hl, rfl⟩ := hn
      obtain ⟨hl', hne⟩ := h.leader.propose hl
      exact { h with leader := hl', fresh := fun h0 => absurd (h.fresh h0).2 hne }
  | gotAck version =>
      simp only [machine, Option.map_eq_some_iff] at hn
      obtain ⟨l', hl, rfl⟩ := hn
      obtain ⟨hl', hv, hs⟩ := h.leader.gotAck hl
      exact { h with leader := hl', fresh := fun h0 => by rw [hv, hs]; exact h.fresh h0 }
  | commit =>
      simp only [machine, Option.map_eq_some_iff] at hn
      obtain ⟨⟨l', order⟩, hl, rfl⟩ := hn
      obtain ⟨hl', ho, hv, hs⟩ := h.leader.commit hl
      refine
        { h with
          leader := hl'
          fresh := fun h0 => by rw [hv, hs]; exact h.fresh h0
          inFlight := ?_ }
      intro m hm
      rcases List.mem_append.mp hm with hm | hm
      · exact h.inFlight m hm
      · rw [List.mem_singleton.mp hm]
        exact ho
  | deliver index =>
      simp only [machine, Option.map_eq_some_iff] at hn
      obtain ⟨message, hm, rfl⟩ := hn
      have hmsg : OrderAvoids first message := h.inFlight message (List.mem_of_getElem? hm)
      refine
        { h with
          inFlight := fun m hmem => h.inFlight m (List.mem_of_mem_eraseIdx hmem)
          reading := fun h0 => ⟨(h.reading h0).1, fun m hmem => ?_⟩ }
      rcases List.mem_append.mp hmem with hmem | hmem
      · exact (h.reading h0).2 m hmem
      · rw [List.mem_singleton.mp hmem]
        exact hmsg
  | getBatch =>
      simp only [machine, Option.map_eq_some_iff] at hn
      obtain ⟨⟨r', channel', batch⟩, hget, rfl⟩ := hn
      by_cases hempty : s.returned = []
      · obtain ⟨hr, hc⟩ := h.reading hempty
        rcases getBatch_avoids hr hc hget with ⟨b, rfl, hb⟩ | ⟨rfl, hr', hc'⟩
        · exact
            { h with
              reading := by simp [hempty]
              returned := by simpa [hempty] using hb }
        · exact
            { h with
              reading := fun _ => ⟨hr', hc'⟩
              returned := by simp [hempty] }
      · exact
          { h with
            reading := by simp [hempty]
            returned := by
              intro id hid
              obtain ⟨x, xs, hx⟩ := List.exists_cons_of_ne_nil hempty
              refine h.returned id ?_
              simpa [hx] using hid }

/-- In every run the returned batches do not start with the oldest one. -/
theorem inv_reachable {first : Nat} (hfirst : batches.head?.map (·.batchNumber) = some first)
    (hnodup : (batches.map (·.batchNumber)).Nodup) {s : State}
    (h : (machine participants batches).Reachable s) : Inv first s :=
  h.invariant (inv_init first) fun _ _ _ _ _ hs hn => inv_step hfirst hnodup hs hn

/-- With a batch appended, no number of calls returns all of them. -/
theorem not_returnsAll {b : Subbatch} {rest : List Subbatch}
    (hnodup : ((b :: rest).map (·.batchNumber)).Nodup) {s : State}
    (h : (machine participants (b :: rest)).Reachable s) :
    ¬ ReturnsAll participants (b :: rest) s := by
  rintro ⟨calls, hcalls⟩
  obtain ⟨t, hrun, ht⟩ := hcalls calls (Nat.le_refl _)
  have hinv : Inv b.batchNumber t := inv_reachable rfl hnodup (h.run hrun)
  exact hinv.returned b.batchNumber (by simp [ht]) rfl

/-- Without an `Append` nothing ever happens, so nothing is missing. -/
theorem reachable_nil {s : State} (h : (machine participants []).Reachable s) :
    s = (machine participants []).init := by
  refine h.invariant (P := fun s => s = (machine participants []).init) rfl ?_
  intro s e s' _ _ hs hn
  subst hs
  cases e <;> simp_all [machine, Leader.propose, Leader.gotAck, Leader.commit,
    BatchReader.getBatch, BatchReader.fetchSequence, BatchReader.receiveOrder,
    BatchReader.fetchBatch]

theorem returnsAll_nil {s : State} (h : (machine participants []).Reachable s) :
    ReturnsAll participants [] s := by
  refine ⟨0, fun more hmore => ⟨(machine participants []).init, ?_, rfl⟩⟩
  rw [reachable_nil h]
  clear hmore
  induction more with
  | zero => rfl
  | succ n ih => exact ih

/-- Once everything is delivered, repeated calls of `GetBatch` return every
appended batch in append order exactly when no batch was appended: the batches
of the first proposal are never returned first. -/
theorem all_returned_iff (participants : Nat) (batches : List Subbatch)
    (hnodup : (batches.map (·.batchNumber)).Nodup) (s : State)
    (h : (machine participants batches).Reachable s) (_hall : Delivered batches s) :
    ReturnsAll participants batches s ↔ batches = [] := by
  cases batches with
  | nil => exact ⟨fun _ => rfl, fun _ => returnsAll_nil h⟩
  | cons b rest => exact ⟨fun hret => absurd hret (not_returnsAll hnodup h), fun h0 => by cases h0⟩

/-- One batch, appended, proposed by a leader without followers, ordered and
delivered with its sub-batch. -/
def oneBatch : List Subbatch := [{ batchNumber := 1001, data := [] }]

def oneBatchTrace : List Event :=
  [.append, .propose, .commit, .deliver 0, .deliver 0]

theorem oneBatch_delivered :
    ∃ s, (machine 1 oneBatch).Reachable s ∧ Delivered oneBatch s :=
  Machine.exists_of_trace oneBatchTrace (by decide)

/-- The run of one batch loses it. -/
theorem first_batch_lost :
    ¬ ∀ (participants : Nat) (batches : List Subbatch),
      (batches.map (·.batchNumber)).Nodup → ∀ s,
      (machine participants batches).Reachable s → Delivered batches s →
        ReturnsAll participants batches s := by
  intro hclaim
  obtain ⟨s, hs, hall⟩ := oneBatch_delivered
  exact not_returnsAll (by decide) hs (hclaim 1 oneBatch (by decide) s hs hall)

/-- The run of one batch meets the conditions of `all_returned_iff`. -/
theorem all_returned_iff_oneBatch :
    ∃ s, Delivered oneBatch s ∧ (ReturnsAll 1 oneBatch s ↔ oneBatch = []) := by
  obtain ⟨s, hs, hall⟩ := oneBatch_delivered
  exact ⟨s, hall, all_returned_iff 1 oneBatch (by decide) s hs hall⟩

end Calvin.FirstProposal
