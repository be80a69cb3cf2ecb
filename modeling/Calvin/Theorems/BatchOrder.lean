import Calvin.Lib.Links
import Calvin.Scheduler.BatchStream

/-!
# Batches come in the agreed order

`GetBatch` keeps what arrives early in two buffers, whichever of its loops meets
it, and a message it has not used is in a buffer or still on its way (`Stream`).
What it returns is therefore the stream of the agreed sequences, for every order
of arrival and every pattern of calls.

* `Stream.getBatch`: what one call does to the stream;
* `Parsed`: the loop parses the batches as they are returned;
* `stream_in_order`: prefix, `CHECK` and completeness for both.
-/

namespace Calvin.BatchStream

open Function Lib Machine BatchReader

variable {seqs : List Sequence} {subbatch : Nat → Subbatch}

/-- The sequence with the given number, counted from 1. -/
def OrderAt (seqs : List Sequence) (version : Nat) (data : Sequence) : Prop :=
  ∃ i, version = i + 1 ∧ seqs[i]? = some data

/-- A message of the global order. -/
def Valid (seqs : List Sequence) (subbatch : Nat → Subbatch) : SchedulerMessage → Prop
  | .txnSubbatch batch => batch = subbatch batch.batchNumber
  | .paxosBatchOrder version data => OrderAt seqs version data

/-- The batch ids that are still to be returned, with `taken` sequences taken up
so far. -/
def ahead (seqs : List Sequence) (taken : Nat) (r : BatchReader) : Sequence :=
  (r.currentSequence.getD []).drop r.currentSequenceBatchIndex ++ (seqs.drop taken).flatten

/-- Keep a message for later. -/
def store (r : BatchReader) : SchedulerMessage → BatchReader
  | .txnSubbatch batch =>
      { r with batchesData := update r.batchesData batch.batchNumber (some batch) }
  | .paxosBatchOrder version data =>
      { r with globalBatchesOrder := update r.globalBatchesOrder version (some data) }

/-- Nothing of the stream is lost: what is not returned is in a buffer or among
the `pending` messages. -/
structure Stream (seqs : List Sequence) (subbatch : Nat → Subbatch) (taken : Nat)
    (pending : List SchedulerMessage) (r : BatchReader) (returned : List Subbatch) : Prop where
  takenLe : taken ≤ seqs.length
  wanted : r.currentSequenceId =
    (if r.currentSequence.isSome then taken else taken + 1) % UInt32.size
  index : ∀ data, r.currentSequence = some data → r.currentSequenceBatchIndex < data.length
  stream : returned.map Subbatch.batchNumber ++ ahead seqs taken r = seqs.flatten
  returnedData : ∀ batch ∈ returned, batch = subbatch batch.batchNumber
  pendingValid : ∀ m ∈ pending, Valid seqs subbatch m
  storedBatch : ∀ id batch, r.batchesData id = some batch → batch = subbatch id
  storedOrder : ∀ version data, r.globalBatchesOrder version = some data →
    OrderAt seqs version data
  orderLeft : ∀ i data, taken ≤ i → seqs[i]? = some data →
    .paxosBatchOrder (i + 1) data ∈ pending ∨ r.globalBatchesOrder (i + 1) = some data
  batchLeft : ∀ id ∈ ahead seqs taken r,
    .txnSubbatch (subbatch id) ∈ pending ∨ r.batchesData id = some (subbatch id)

namespace Stream

variable {taken : Nat} {pending pending' : List SchedulerMessage} {r : BatchReader}
  {returned : List Subbatch}

/-- A message of the stream is kept. -/
theorem store (hsub : ∀ id, (subbatch id).batchNumber = id) {m : SchedulerMessage}
    (h : Stream seqs subbatch taken pending r returned) (hm : m ∈ pending)
    (hback : ∀ x ∈ pending', x ∈ pending) (hrest : ∀ x ∈ pending, x = m ∨ x ∈ pending') :
    Stream seqs subbatch taken pending' (store r m) returned := by
  have hvalid := h.pendingValid m hm
  cases m with
  | txnSubbatch batch =>
      have hb : batch = subbatch batch.batchNumber := hvalid
      refine { h with
        pendingValid := fun x hx => h.pendingValid x (hback x hx)
        storedBatch := fun id b hid => ?_
        orderLeft := fun i data hi hdata => ?_
        batchLeft := fun id hid => ?_ }
      · by_cases heq : id = batch.batchNumber
        · subst heq
          rw [BatchStream.store] at hid
          simp only [update_self, Option.some.injEq] at hid
          rw [← hid]
          exact hb
        · simp only [BatchStream.store, update_of_ne heq] at hid
          exact h.storedBatch id b hid
      · rcases h.orderLeft i data hi hdata with hp | hs
        · exact .inl ((hrest _ hp).resolve_left fun h => by cases h)
        · exact .inr hs
      · by_cases heq : id = batch.batchNumber
        · subst heq
          right
          rw [← hb]
          exact update_self ..
        · rcases h.batchLeft id hid with hp | hs
          · refine .inl ((hrest _ hp).resolve_left fun h => heq ?_)
            rw [← hsub id, SchedulerMessage.txnSubbatch.inj h]
          · right
            rw [← hs]
            exact update_of_ne heq ..
  | paxosBatchOrder version d =>
      obtain ⟨j, hj, hd⟩ := hvalid
      refine { h with
        pendingValid := fun x hx => h.pendingValid x (hback x hx)
        storedOrder := fun v e hv => ?_
        orderLeft := fun i data hi hdata => ?_
        batchLeft := fun id hid => ?_ }
      · by_cases heq : v = version
        · subst heq
          rw [BatchStream.store] at hv
          simp only [update_self, Option.some.injEq] at hv
          exact ⟨j, hj, hv ▸ hd⟩
        · simp only [BatchStream.store, update_of_ne heq] at hv
          exact h.storedOrder v e hv
      · by_cases heq : i = j
        · subst heq
          right
          rw [hd] at hdata
          cases hdata
          rw [← hj]
          exact update_self ..
        · rcases h.orderLeft i data hi hdata with hp | hs
          · refine .inl ((hrest _ hp).resolve_left fun h => heq ?_)
            injection h with hv
            omega
          · right
            rw [← hs]
            exact update_of_ne (by omega) ..
      · rcases h.batchLeft id hid with hp | hs
        · exact .inl ((hrest _ hp).resolve_left fun h => by cases h)
        · exact .inr hs

/-- The next sequence is taken up, from a buffer or from what was pending. -/
theorem take {orders : Nat → Option Sequence} {data : Sequence}
    (hne : ∀ d ∈ seqs, d ≠ []) (hlen : seqs.length < UInt32.size)
    (h : Stream seqs subbatch taken pending r returned) (hnone : r.currentSequence = none)
    (hdata : OrderAt seqs r.currentSequenceId data) (hback : ∀ x ∈ pending', x ∈ pending)
    (hrest : ∀ x ∈ pending, x = .paxosBatchOrder r.currentSequenceId data ∨ x ∈ pending')
    (hkept : ∀ v, v ≠ r.currentSequenceId → orders v = r.globalBatchesOrder v)
    (hold : ∀ v d, orders v = some d → r.globalBatchesOrder v = some d) :
    Stream seqs subbatch (taken + 1) pending'
      { r with
        currentSequence := some data, currentSequenceBatchIndex := 0, globalBatchesOrder := orders }
      returned := by
  have hwanted := h.wanted
  rw [hnone] at hwanted
  obtain ⟨i, hi, hd⟩ := hdata
  obtain ⟨hlt, hget⟩ := List.getElem?_eq_some_iff.mp hd
  have hle := h.takenLe
  -- the number that is waited for is that of the next sequence
  have hik : i = taken := by
    rw [hi] at hwanted
    simp only [Option.isSome_none, Bool.false_eq_true, if_false] at hwanted
    rcases Nat.lt_or_ge (taken + 1) UInt32.size with h1 | h1
    · rw [Nat.mod_eq_of_lt h1] at hwanted
      omega
    · rw [show taken + 1 = UInt32.size by omega, Nat.mod_self] at hwanted
      omega
  subst hik
  have hahead : data.drop 0 ++ (seqs.drop (i + 1)).flatten = ahead seqs i r := by
    rw [ahead, hnone, List.drop_eq_getElem_cons hlt, hget]
    simp
  refine ⟨hlt, ?_, fun d hd' => ?_, ?_, h.returnedData, fun x hx => h.pendingValid x (hback x hx),
    h.storedBatch, fun v d hv => h.storedOrder v d (hold v d hv), fun j d hj hjd => ?_,
    fun id hid => ?_⟩
  · rw [hi]
    exact (Nat.mod_eq_of_lt (by omega)).symm
  · cases hd'
    exact List.length_pos_iff.mpr (hne data (List.mem_of_getElem? hd))
  · show returned.map Subbatch.batchNumber ++ (data.drop 0 ++ (seqs.drop (i + 1)).flatten) = _
    rw [hahead]
    exact h.stream
  · rcases h.orderLeft j d (by omega) hjd with hp | hs
    · refine .inl ((hrest _ hp).resolve_left fun h => ?_)
      injection h with hv
      omega
    · right
      show orders (j + 1) = some d
      rw [hkept _ (by omega)]
      exact hs
  · have hid' : id ∈ ahead seqs i r := by
      rw [← hahead]
      exact hid
    rcases h.batchLeft id hid' with hp | hs
    · exact .inl ((hrest _ hp).resolve_left fun h => by cases h)
    · exact .inr hs

variable (seqs taken) in
/-- The batch at the current index comes first in what is ahead. -/
theorem ahead_advance (batches : Nat → Option Subbatch) {data : Sequence} {id : Nat}
    (hcur : r.currentSequence = some data) (hid : data[r.currentSequenceBatchIndex]? = some id) :
    ahead seqs taken r =
      id :: ahead seqs taken
        (BatchReader.advance { r with batchesData := batches } data.length) := by
  obtain ⟨hlt, hget⟩ := List.getElem?_eq_some_iff.mp hid
  have hdrop : data.drop r.currentSequenceBatchIndex =
      id :: data.drop (r.currentSequenceBatchIndex + 1) := by
    rw [List.drop_eq_getElem_cons hlt, hget]
  rw [ahead, hcur, Option.getD_some, hdrop, List.cons_append]
  congr 1
  unfold BatchReader.advance
  dsimp only
  split
  case isTrue hge =>
      rw [List.drop_eq_nil_of_le hge]
      rfl
  case isFalse => simp only [ahead, Option.getD_some]

/-- The batch at the current index is returned, from a buffer or from what was
pending. -/
theorem emit {data : Sequence} {id : Nat} {batches : Nat → Option Subbatch}
    (hsub : ∀ id, (subbatch id).batchNumber = id) (hids : seqs.flatten.Nodup)
    (h : Stream seqs subbatch taken pending r returned) (hcur : r.currentSequence = some data)
    (hid : data[r.currentSequenceBatchIndex]? = some id) (hback : ∀ x ∈ pending', x ∈ pending)
    (hrest : ∀ x ∈ pending, x = .txnSubbatch (subbatch id) ∨ x ∈ pending')
    (hkept : ∀ j, j ≠ id → batches j = r.batchesData j)
    (hold : ∀ j b, batches j = some b → r.batchesData j = some b) :
    Stream seqs subbatch taken pending'
      (BatchReader.advance { r with batchesData := batches } data.length)
      (returned ++ [subbatch id]) := by
  have hahead := ahead_advance seqs taken batches hcur hid
  have hstream := h.stream
  rw [hahead] at hstream
  have hnew : id ∉
      ahead seqs taken (BatchReader.advance { r with batchesData := batches } data.length) := by
    rw [← hstream] at hids
    exact (List.nodup_cons.mp (List.nodup_append.mp hids).2.1).1
  have horders :
      (BatchReader.advance { r with batchesData := batches } data.length).globalBatchesOrder =
      r.globalBatchesOrder := by
    unfold BatchReader.advance
    dsimp only
    split <;> rfl
  have hbatches : (BatchReader.advance { r with batchesData := batches } data.length).batchesData =
      batches := by
    unfold BatchReader.advance
    dsimp only
    split <;> rfl
  have hwanted := h.wanted
  rw [hcur] at hwanted
  simp only [Option.isSome_some, if_true] at hwanted
  refine ⟨h.takenLe, ?_, ?_, ?_, fun b hb => ?_, fun x hx => h.pendingValid x (hback x hx), ?_, ?_,
    fun j d hj hjd => ?_, fun j hj => ?_⟩
  · unfold BatchReader.advance
    dsimp only
    split
    · simp only [Option.isSome_none, Bool.false_eq_true, if_false]
      rw [hwanted, Nat.mod_add_mod]
    · rw [hcur]
      simpa using hwanted
  · intro d hd
    unfold BatchReader.advance at hd ⊢
    dsimp only at hd ⊢
    split at hd
    · cases hd
    · rw [hcur] at hd
      cases hd
      rw [if_neg (by assumption)]
      dsimp only
      omega
  · rw [List.map_append, List.append_assoc, List.map_singleton, hsub]
    exact hstream
  · rcases List.mem_append.mp hb with hb | hb
    · exact h.returnedData b hb
    · rw [List.mem_singleton.mp hb, hsub]
  · rw [hbatches]
    exact fun j b hj => h.storedBatch j b (hold j b hj)
  · rw [horders]
    exact h.storedOrder
  · rw [horders]
    rcases h.orderLeft j d hj hjd with hp | hs
    · exact .inl ((hrest _ hp).resolve_left fun h => by cases h)
    · exact .inr hs
  · have hne : j ≠ id := fun h => hnew (h ▸ hj)
    rw [hbatches, hkept j hne]
    rcases h.batchLeft j (by rw [hahead]; exact List.mem_cons_of_mem _ hj) with hp | hs
    · refine .inl ((hrest _ hp).resolve_left fun h => hne ?_)
      rw [← hsub j, SchedulerMessage.txnSubbatch.inj h, hsub]
    · exact .inr hs

/-- The messages left when the first of the channel is read. -/
theorem read_first (inFlight rest : List SchedulerMessage) (m : SchedulerMessage) :
    (∀ x ∈ inFlight ++ rest, x ∈ inFlight ++ m :: rest) ∧
      ∀ x ∈ inFlight ++ m :: rest, x = m ∨ x ∈ inFlight ++ rest := by
  constructor
  · intro x hx
    rcases List.mem_append.mp hx with hx | hx
    · exact List.mem_append_left _ hx
    · exact List.mem_append_right _ (List.mem_cons_of_mem _ hx)
  · intro x hx
    rcases List.mem_append.mp hx with hx | hx
    · exact .inr (List.mem_append_left _ hx)
    · rcases List.mem_cons.mp hx with hx | hx
      · exact .inl hx
      · exact .inr (List.mem_append_right _ hx)

/-- The loop that waits for a sequence: it reads the channel to its end unless it
meets the one with the wanted number. -/
theorem receiveOrder (hsub : ∀ id, (subbatch id).batchNumber = id) (hne : ∀ d ∈ seqs, d ≠ [])
    (hlen : seqs.length < UInt32.size) {inFlight : List SchedulerMessage}
    (channel : List SchedulerMessage) {r : BatchReader}
    (h : Stream seqs subbatch taken (inFlight ++ channel) r returned)
    (hnone : r.currentSequence = none) :
    ∃ taken' r' rest, r.receiveOrder channel = (r', rest) ∧
      Stream seqs subbatch taken' (inFlight ++ rest) r' returned ∧
      (r'.currentSequence = none → rest = [] ∧
        r'.globalBatchesOrder r'.currentSequenceId = r.globalBatchesOrder r.currentSequenceId) := by
  induction channel generalizing r with
  | nil => exact ⟨taken, r, [], rfl, h, fun _ => ⟨rfl, rfl⟩⟩
  | cons m rest ih =>
      obtain ⟨hback, hrest⟩ := read_first inFlight rest m
      cases m with
      | txnSubbatch batch =>
          exact ih (h.store hsub (by simp) hback hrest) hnone
      | paxosBatchOrder version data =>
          by_cases hv : version = r.currentSequenceId
          · subst hv
            have hdata : OrderAt seqs r.currentSequenceId data :=
              h.pendingValid (.paxosBatchOrder r.currentSequenceId data) (by simp)
            refine ⟨taken + 1, _, rest, if_pos rfl, ?_, fun hcur => by cases hcur⟩
            exact h.take hne hlen hnone hdata hback hrest (fun _ _ => rfl) fun _ _ hv => hv
          · obtain ⟨taken', r', rest', heq, hstream, hleft⟩ :=
              ih (h.store hsub (by simp) hback hrest) hnone
            refine ⟨taken', r', rest', ?_, hstream, fun hcur => ?_⟩
            · rw [BatchReader.receiveOrder, if_neg hv]
              exact heq
            · obtain ⟨hnil, hsame⟩ := hleft hcur
              refine ⟨hnil, hsame.trans ?_⟩
              exact update_of_ne (Ne.symm hv) ..

/-- A sequence is made current if there is one to be had. -/
theorem fetchSequence (hsub : ∀ id, (subbatch id).batchNumber = id) (hne : ∀ d ∈ seqs, d ≠ [])
    (hlen : seqs.length < UInt32.size) {inFlight channel : List SchedulerMessage}
    (h : Stream seqs subbatch taken (inFlight ++ channel) r returned) :
    ∃ taken' r' rest, r.fetchSequence channel = (r', rest) ∧
      Stream seqs subbatch taken' (inFlight ++ rest) r' returned ∧
      (r'.currentSequence = none → rest = [] ∧
        r'.globalBatchesOrder r'.currentSequenceId = none) := by
  cases hcur : r.currentSequence with
  | some data =>
      refine ⟨taken, r, channel, ?_, h, fun hnone => ?_⟩
      · rw [BatchReader.fetchSequence, hcur]
      · rw [hcur] at hnone
        cases hnone
  | none =>
      cases hbuf : r.globalBatchesOrder r.currentSequenceId with
      | some data =>
          have hold : ∀ v d, update r.globalBatchesOrder r.currentSequenceId none v = some d →
              r.globalBatchesOrder v = some d := fun v d hv => by
            by_cases heq : v = r.currentSequenceId
            · subst heq
              rw [update_self] at hv
              cases hv
            · rwa [update_of_ne heq] at hv
          have htaken := h.take hne hlen hcur (h.storedOrder _ _ hbuf) (fun x hx => hx)
            (fun x hx => .inr hx) (fun v hv => update_of_ne hv ..) hold
          refine ⟨taken + 1, _, channel, ?_, htaken, fun hnone => by cases hnone⟩
          rw [BatchReader.fetchSequence, hcur]
          dsimp only
          rw [hbuf]
      | none =>
          obtain ⟨taken', r', rest, heq, hstream, hleft⟩ :=
            h.receiveOrder hsub hne hlen channel hcur
          refine ⟨taken', r', rest, ?_, hstream, fun hnone => ?_⟩
          · rw [BatchReader.fetchSequence, hcur, hbuf]
            exact heq
          · rw [← hbuf]
            exact hleft hnone

/-- The loop that waits for a batch: it reads the channel to its end unless it
meets the one with the wanted id. -/
theorem receiveSubbatch {data : Sequence} {wanted : Nat}
    (hsub : ∀ id, (subbatch id).batchNumber = id) (hids : seqs.flatten.Nodup)
    {inFlight : List SchedulerMessage} (channel : List SchedulerMessage) {r : BatchReader}
    (h : Stream seqs subbatch taken (inFlight ++ channel) r returned)
    (hcur : r.currentSequence = some data)
    (hwanted : data[r.currentSequenceBatchIndex]? = some wanted)
    (hnone : r.batchesData wanted = none) :
    ∃ r' rest out, r.receiveSubbatch wanted data.length channel = (r', rest, out) ∧
      Stream seqs subbatch taken (inFlight ++ rest) r' (returned ++ out.toList) ∧
      (out = none → rest = [] ∧ r'.batchesData wanted = none ∧ wanted ∈ ahead seqs taken r') := by
  induction channel generalizing r with
  | nil =>
      refine ⟨r, [], none, rfl, ?_, fun _ => ⟨rfl, hnone, ?_⟩⟩
      · rw [Option.toList_none, List.append_nil returned]
        exact h
      · rw [ahead_advance seqs taken r.batchesData hcur hwanted]
        exact List.mem_cons_self
  | cons m rest ih =>
      obtain ⟨hback, hrest⟩ := read_first inFlight rest m
      cases m with
      | paxosBatchOrder version d =>
          exact ih (h.store hsub (by simp) hback hrest) hcur hwanted hnone
      | txnSubbatch batch =>
          have hb : batch = subbatch batch.batchNumber :=
            h.pendingValid (.txnSubbatch batch) (by simp)
          by_cases hbw : batch.batchNumber = wanted
          · rw [hbw] at hb
            subst hb
            refine ⟨_, rest, some (subbatch wanted), if_pos hbw, ?_, fun hout => by cases hout⟩
            exact h.emit hsub hids hcur hwanted hback hrest (fun _ _ => rfl) fun _ _ hj => hj
          · obtain ⟨r', rest', out, heq, hstream, hleft⟩ :=
              ih (h.store hsub (by simp) hback hrest) hcur hwanted
                (by rw [← hnone]; exact update_of_ne (Ne.symm hbw) ..)
            refine ⟨r', rest', out, ?_, hstream, hleft⟩
            rw [BatchReader.receiveSubbatch, if_neg hbw]
            exact heq

/-- A call of `GetBatch` does not fail its `CHECK` and returns the next batch of the
stream, or none while messages are on their way or everything is returned. -/
theorem getBatch (hsub : ∀ id, (subbatch id).batchNumber = id) (hne : ∀ d ∈ seqs, d ≠ [])
    (hlen : seqs.length < UInt32.size) (hids : seqs.flatten.Nodup)
    {inFlight channel : List SchedulerMessage}
    (h : Stream seqs subbatch taken (inFlight ++ channel) r returned) :
    ∃ taken' r' rest out, r.getBatch channel = some (r', rest, out) ∧
      Stream seqs subbatch taken' (inFlight ++ rest) r' (returned ++ out.toList) ∧
      (out = none → inFlight = [] → returned.map Subbatch.batchNumber = seqs.flatten) := by
  obtain ⟨taken', r₁, rest₁, hfetch, h₁, hleft₁⟩ := h.fetchSequence hsub hne hlen
  have hget : r.getBatch channel = r₁.fetchBatch rest₁ := by
    rw [BatchReader.getBatch, hfetch]
  rw [hget]
  cases hcur : r₁.currentSequence with
  | none =>
      refine ⟨taken', r₁, rest₁, none, ?_, ?_, fun _ hnil => ?_⟩
      · rw [BatchReader.fetchBatch, hcur]
      · rwa [Option.toList_none, List.append_nil]
      · -- no sequence is left: the next one would be in the buffer
        obtain ⟨hrest, hbuf⟩ := hleft₁ hcur
        have hwanted := h₁.wanted
        rw [hcur] at hwanted
        simp only [Option.isSome_none, Bool.false_eq_true, if_false] at hwanted
        have hall : seqs.length ≤ taken' := by
          by_contra hlt
          have hd := List.getElem?_eq_getElem (Nat.lt_of_not_le hlt)
          rcases h₁.orderLeft taken' _ (Nat.le_refl _) hd with hp | hs
          · rw [hnil, hrest] at hp
            exact List.not_mem_nil hp
          · rw [Nat.mod_eq_of_lt (by omega)] at hwanted
            rw [hwanted, hs] at hbuf
            cases hbuf
        have hstream := h₁.stream
        rwa [ahead, hcur, List.drop_eq_nil_of_le hall, List.flatten_nil, Option.getD_none,
          List.drop_nil, List.append_nil, List.append_nil] at hstream
  | some data =>
      have hlt := h₁.index data hcur
      have hwanted := List.getElem?_eq_getElem hlt
      generalize data[r₁.currentSequenceBatchIndex] = wanted at hwanted
      cases hbuf : r₁.batchesData wanted with
      | some batch =>
          have hb := h₁.storedBatch wanted batch hbuf
          subst hb
          have hold : ∀ j b, update r₁.batchesData wanted none j = some b →
              r₁.batchesData j = some b := fun j b hj => by
            by_cases heq : j = wanted
            · subst heq
              rw [update_self] at hj
              cases hj
            · rwa [update_of_ne heq] at hj
          have hemit := h₁.emit hsub hids hcur hwanted (fun x hx => hx) (fun x hx => .inr hx)
            (fun j hj => update_of_ne hj ..) hold
          refine ⟨taken', _, rest₁, some (subbatch wanted), ?_, hemit, fun hout => by cases hout⟩
          rw [BatchReader.fetchBatch, hcur]
          dsimp only
          rw [hwanted, Option.map_some, hbuf]
      | none =>
          obtain ⟨r', rest, out, hrecv, hstream, hleft⟩ :=
            h₁.receiveSubbatch hsub hids rest₁ hcur hwanted hbuf
          refine ⟨taken', r', rest, out, ?_, hstream, fun hout hnil => ?_⟩
          · rw [BatchReader.fetchBatch, hcur]
            dsimp only
            rw [hwanted, Option.map_some, hbuf, hrecv]
          · -- the wanted batch would be in the buffer
            obtain ⟨hrest, hbuf', hahead⟩ := hleft hout
            rcases hstream.batchLeft wanted hahead with hp | hs
            · rw [hnil, hrest] at hp
              exact absurd hp List.not_mem_nil
            · rw [hbuf'] at hs
              cases hs

end Stream

/-! ## Runs -/

/-- The batches of the global order. -/
def batches (seqs : List Sequence) (subbatch : Nat → Subbatch) : List Subbatch :=
  seqs.flatten.map subbatch

/-- The stream of a state. -/
def Flows (seqs : List Sequence) (subbatch : Nat → Subbatch) (s : BatchStream) : Prop :=
  ∃ taken, Stream seqs subbatch taken (s.inFlight ++ s.channel) s.reader s.returned

theorem flows_init (hsub : ∀ id, (subbatch id).batchNumber = id) :
    Flows seqs subbatch { inFlight := messages seqs subbatch } := by
  refine ⟨0, Nat.zero_le _, rfl, (fun _ h => by cases h), rfl,
    fun _ h => (List.not_mem_nil h).elim, fun m hm => ?_, (fun _ _ h => by cases h),
    (fun _ _ h => by cases h), fun i data _ hi => ?_, fun id hid => ?_⟩
  · rw [List.append_nil, messages, List.mem_append] at hm
    rcases hm with hm | hm
    · obtain ⟨⟨data, version⟩, hmem, rfl⟩ := List.mem_map.mp hm
      obtain ⟨hle, hget⟩ := List.mk_mem_zipIdx_iff_le_and_getElem?_sub.mp hmem
      exact ⟨version - 1, by omega, hget⟩
    · obtain ⟨id, -, rfl⟩ := List.mem_map.mp hm
      show subbatch id = subbatch (subbatch id).batchNumber
      rw [hsub]
  · left
    rw [List.append_nil, messages, Nat.add_comm i 1]
    refine List.mem_append_left _ (List.mem_map.mpr ⟨(data, 1 + i), ?_, rfl⟩)
    exact List.mk_add_mem_zipIdx_iff_getElem?.mpr hi
  · left
    rw [List.append_nil, messages]
    exact List.mem_append_right _ (List.mem_map.mpr ⟨id, hid, rfl⟩)

namespace Flows

variable {s s' : BatchStream}

theorem deliver (h : Flows seqs subbatch s) {index : Nat} (hn : s.deliver index = some s') :
    Flows seqs subbatch s' ∧ s'.returned = s.returned := by
  obtain ⟨taken, h⟩ := h
  rw [BatchStream.deliver, Option.map_eq_some_iff] at hn
  obtain ⟨m, hm, rfl⟩ := hn
  -- the same messages are pending
  have hperm : (s.inFlight.eraseIdx index ++ (s.channel ++ [m])).Perm
      (s.inFlight ++ s.channel) := by
    rw [← List.append_assoc]
    refine (List.perm_append_singleton _ _).trans ?_
    exact (cons_eraseIdx_perm hm).append_right s.channel
  refine ⟨⟨taken, { h with
    pendingValid := fun x hx => h.pendingValid x (hperm.mem_iff.mp hx)
    orderLeft := fun i data hi hd => (h.orderLeft i data hi hd).imp hperm.mem_iff.mpr fun h => h
    batchLeft := fun id hid => (h.batchLeft id hid).imp hperm.mem_iff.mpr fun h => h }⟩, rfl⟩

/-- What has been returned is a prefix of the batches. -/
theorem returned_eq (h : Flows seqs subbatch s) : s.returned <+: batches seqs subbatch := by
  obtain ⟨taken, h⟩ := h
  refine ⟨(ahead seqs taken s.reader).map subbatch, ?_⟩
  have hreturned : s.returned = (s.returned.map Subbatch.batchNumber).map subbatch := by
    rw [List.map_map]
    refine (List.map_id s.returned).symm.trans (List.map_congr_left fun b hb => ?_)
    exact h.returnedData b hb
  rw [hreturned, ← List.map_append, h.stream]
  rfl

section

variable (hsub : ∀ id, (subbatch id).batchNumber = id) (hne : ∀ d ∈ seqs, d ≠ [])
  (hlen : seqs.length < UInt32.size) (hids : seqs.flatten.Nodup)

include hsub hne hlen hids

/-- A call of `GetBatch` is defined; it returns none only while something is in
flight or everything has been returned. -/
theorem getBatch (h : Flows seqs subbatch s) :
    ∃ s' out, s.getBatch = some (s', out) ∧ Flows seqs subbatch s' ∧ s'.inFlight = s.inFlight ∧
      s'.returned = s.returned ++ out.toList ∧
      (out = none → s.inFlight = [] → s.returned.length = seqs.flatten.length) := by
  obtain ⟨taken, h⟩ := h
  obtain ⟨taken', r', rest, out, hget, hstream, hall⟩ := h.getBatch hsub hne hlen hids
  refine ⟨{ s with reader := r', channel := rest, returned := s.returned ++ out.toList }, out, ?_,
    ⟨taken', hstream⟩, rfl, rfl, fun hout hnil => ?_⟩
  · rw [BatchStream.getBatch, hget]
    rfl
  · rw [← hall hout hnil, List.length_map]

/-- Every reachable state has a stream. -/
theorem reachable (h : (machine seqs subbatch).Reachable s) : Flows seqs subbatch s := by
  refine h.invariant (flows_init hsub) ?_
  intro s e s' _ _ hi hn
  cases e with
  | deliver index => exact (hi.deliver hn).1
  | getBatch =>
      obtain ⟨s₁, out, hget, h₁, -⟩ := hi.getBatch hsub hne hlen hids
      rw [show (machine seqs subbatch).next s .getBatch = s.getBatch.map Prod.fst from rfl,
        hget] at hn
      cases hn
      exact h₁

/-- Once everything has arrived, as many calls as there are batches left return
them all. -/
theorem calls (calls : Nat) (h : Flows seqs subbatch s) (hnil : s.inFlight = [])
    (hcalls : (batches seqs subbatch).length ≤ s.returned.length + calls) :
    ∃ t, (machine seqs subbatch).run s (List.replicate calls .getBatch) = some t ∧
      t.returned = batches seqs subbatch := by
  induction calls generalizing s with
  | zero => exact ⟨s, rfl, h.returned_eq.eq_of_length_le hcalls⟩
  | succ calls ih =>
      obtain ⟨s₁, out, hget, h₁, hin, hreturned, hout⟩ := h.getBatch hsub hne hlen hids
      obtain ⟨t, hrun, ht⟩ := ih h₁ (hin.trans hnil) (by
        rw [hreturned, List.length_append]
        cases out with
        | none =>
            have := hout rfl hnil
            rw [batches, List.length_map]
            omega
        | some batch =>
            rw [Option.toList_some, List.length_singleton]
            omega)
      refine ⟨t, ?_, ht⟩
      rw [List.replicate_succ, run_cons]
      show (s.getBatch.map Prod.fst).bind _ = _
      rw [hget]
      exact hrun

end

end Flows

/-! ## Parsing -/

/-- The transactions of the global order, batch by batch. -/
def txns (seqs : List Sequence) (subbatch : Nat → Subbatch) : List TxnProto :=
  (batches seqs subbatch).flatMap Subbatch.data

/-- What the loop has not parsed of its current batch. -/
def Loop.rest (s : Loop) : List TxnProto :=
  match s.batchMessage with
  | none => []
  | some batch => batch.data.drop s.batchOffset

/-- The loop has parsed what was returned, up to the rest of its current batch. -/
structure Parsed (seqs : List Sequence) (subbatch : Nat → Subbatch) (s : Loop) : Prop where
  flows : Flows seqs subbatch s.stream
  parsed : s.parsed ++ s.rest = s.stream.returned.flatMap Subbatch.data
  offset : s.batchMessage = none → s.batchOffset = 0

/-- What is left to do: batches to be returned, and transactions to be parsed. -/
def Loop.left (seqs : List Sequence) (subbatch : Nat → Subbatch) (s : Loop) : Nat :=
  ((batches seqs subbatch).length - s.stream.returned.length) +
    ((txns seqs subbatch).length - s.parsed.length)

namespace Parsed

variable {s s' : Loop}

/-- What has been parsed is a prefix of the transactions. -/
theorem parsed_eq (h : Parsed seqs subbatch s) : s.parsed <+: txns seqs subbatch := by
  obtain ⟨more, hmore⟩ := h.flows.returned_eq
  refine ⟨s.rest ++ more.flatMap Subbatch.data, ?_⟩
  rw [← List.append_assoc, h.parsed, ← List.flatMap_append, hmore]
  rfl

/-- The loop parses some more of its current batch. -/
theorem parse (h : Parsed seqs subbatch s) {batch : Subbatch} (hb : s.batchMessage = some batch)
    (hlt : s.batchOffset < batch.data.length) :
    let grabbed := (batch.data.drop s.batchOffset).take numTxnsOnce
    let s' := { s with
      batchOffset := s.batchOffset + grabbed.length, parsed := s.parsed ++ grabbed }
    Parsed seqs subbatch s' ∧ s.parsed <+: s'.parsed ∧
      Loop.left seqs subbatch s' < Loop.left seqs subbatch s := by
  intro grabbed s'
  have hsplit : grabbed ++ batch.data.drop (s.batchOffset + grabbed.length) =
      batch.data.drop s.batchOffset := by
    rw [← List.drop_drop, show grabbed.length = min numTxnsOnce _ from List.length_take]
    conv_rhs => rw [← List.take_append_drop numTxnsOnce (batch.data.drop s.batchOffset)]
    congr 1
    rcases Nat.le_total numTxnsOnce (batch.data.drop s.batchOffset).length with hle | hle
    · rw [Nat.min_eq_left hle]
    · rw [Nat.min_eq_right hle, List.drop_length, List.drop_eq_nil_of_le hle]
  have hparsed : s.parsed ++ batch.data.drop s.batchOffset =
      s.stream.returned.flatMap Subbatch.data := by
    have := h.parsed
    rwa [Loop.rest, hb] at this
  have hrest : s'.rest = batch.data.drop (s.batchOffset + grabbed.length) := by
    show (match s.batchMessage with
      | none => []
      | some batch => batch.data.drop (s.batchOffset + grabbed.length)) = _
    rw [hb]
  have hnew : Parsed seqs subbatch s' := by
    refine ⟨h.flows, ?_, fun hnone => ?_⟩
    · rw [hrest]
      show (s.parsed ++ grabbed) ++ _ = _
      rw [List.append_assoc, hsplit]
      exact hparsed
    · exact absurd (hb.symm.trans hnone) (by simp)
  refine ⟨hnew, List.prefix_append _ _, ?_⟩
  have hle : s.parsed.length + grabbed.length ≤ (txns seqs subbatch).length := by
    rw [← List.length_append]
    exact hnew.parsed_eq.length_le
  have hpos : 0 < grabbed.length := by
    show 0 < ((batch.data.drop s.batchOffset).take numTxnsOnce).length
    rw [List.length_take, List.length_drop]
    unfold numTxnsOnce
    omega
  have hlength : s'.parsed.length = s.parsed.length + grabbed.length := List.length_append
  show (_ - s.stream.returned.length) + (_ - s'.parsed.length) < (_ - _) + (_ - s.parsed.length)
  omega

section

variable (hsub : ∀ id, (subbatch id).batchNumber = id) (hne : ∀ d ∈ seqs, d ≠ [])
  (hlen : seqs.length < UInt32.size) (hids : seqs.flatten.Nodup)

include hsub hne hlen hids

/-- The loop takes up the next batch when it is through with the current one. -/
theorem next_batch (h : Parsed seqs subbatch s) (hrest : s.rest = []) :
    ∃ stream out, s.stream.getBatch = some (stream, out) ∧
      Parsed seqs subbatch { s with stream, batchMessage := out, batchOffset := 0 } ∧
      stream.inFlight = s.stream.inFlight ∧ (s.stream.inFlight = [] →
        Loop.left seqs subbatch { s with stream, batchMessage := out, batchOffset := 0 } <
          Loop.left seqs subbatch s ∨ s.parsed = txns seqs subbatch) := by
  obtain ⟨stream, out, hget, hflows, hin, hreturned, hout⟩ := h.flows.getBatch hsub hne hlen hids
  have hparsed := h.parsed
  rw [hrest, List.append_nil] at hparsed
  refine ⟨stream, out, hget, ⟨hflows, ?_, fun _ => rfl⟩, hin, fun hnil => ?_⟩
  · rw [hreturned, List.flatMap_append, ← hparsed]
    congr 1
    cases out with
    | none => rfl
    | some batch => simp [Loop.rest]
  · cases out with
    | none =>
        -- everything has been returned, and parsed
        right
        have hall : s.stream.returned = batches seqs subbatch :=
          h.flows.returned_eq.eq_of_length (by rw [hout rfl hnil, batches, List.length_map])
        rw [hparsed, hall]
        rfl
    | some batch =>
        left
        have hle := hflows.returned_eq.length_le
        unfold Loop.left
        rw [hreturned] at hle ⊢
        simp only [Option.toList_some, List.length_append, List.length_singleton] at hle ⊢
        omega

/-- One round keeps what has been parsed in order, and brings the end nearer
when everything has arrived and there is room. -/
theorem round (h : Parsed seqs subbatch s) (room : Bool) :
    ∃ s', s.round room = some s' ∧ Parsed seqs subbatch s' ∧
      s'.stream.inFlight = s.stream.inFlight ∧ s.parsed <+: s'.parsed ∧
      (s.stream.inFlight = [] → room = true →
        Loop.left seqs subbatch s' < Loop.left seqs subbatch s ∨
          s.parsed = txns seqs subbatch) := by
  cases hb : s.batchMessage with
  | none =>
      have hrest : s.rest = [] := by rw [Loop.rest, hb]
      obtain ⟨stream, out, hget, hparsed, hin, hless⟩ := h.next_batch hsub hne hlen hids hrest
      have hoffset := h.offset hb
      refine ⟨_, ?_, hparsed, hin, List.prefix_rfl, fun hnil _ => hless hnil⟩
      rw [Loop.round, hb]
      dsimp only
      rw [hget, Option.map_some, ← hoffset]
  | some batch =>
      by_cases hdone : batch.data.length ≤ s.batchOffset
      · have hrest : s.rest = [] := by
          rw [Loop.rest, hb]
          exact List.drop_eq_nil_of_le hdone
        obtain ⟨stream, out, hget, hparsed, hin, hless⟩ := h.next_batch hsub hne hlen hids hrest
        refine ⟨_, ?_, hparsed, hin, List.prefix_rfl, fun hnil _ => hless hnil⟩
        rw [Loop.round, hb]
        dsimp only
        rw [if_pos hdone, hget, Option.map_some]
      · cases room with
        | false =>
            refine ⟨s, ?_, h, rfl, List.prefix_rfl, fun _ h => by cases h⟩
            rw [Loop.round, hb]
            exact if_neg hdone
        | true =>
            obtain ⟨hnew, hprefix, hless⟩ := h.parse hb (by omega)
            refine ⟨_, ?_, hnew, rfl, hprefix, fun _ _ => .inl hless⟩
            rw [Loop.round, hb]
            dsimp only
            rw [if_neg hdone, if_pos rfl]

theorem reachable (h : (loopMachine seqs subbatch).Reachable s) : Parsed seqs subbatch s := by
  refine h.invariant ⟨flows_init hsub, rfl, fun _ => rfl⟩ ?_
  intro s e s' _ _ hi hn
  cases e with
  | deliver index =>
      obtain ⟨stream, hstream, rfl⟩ := Option.map_eq_some_iff.mp hn
      obtain ⟨hflows, hreturned⟩ := hi.flows.deliver hstream
      refine ⟨hflows, ?_, hi.offset⟩
      show s.parsed ++ s.rest = _
      rw [hreturned]
      exact hi.parsed
  | round room =>
      obtain ⟨s₁, hround, h₁, -⟩ := hi.round hsub hne hlen hids room
      rw [show (loopMachine seqs subbatch).next s (.round room) = s.round room from rfl,
        hround] at hn
      cases hn
      exact h₁

/-- Once everything has arrived, enough rounds with room parse the rest. -/
theorem rounds (rounds : Nat) (h : Parsed seqs subbatch s) (hnil : s.stream.inFlight = [])
    (hleft : Loop.left seqs subbatch s ≤ rounds ∨ s.parsed = txns seqs subbatch) :
    ∃ t, (loopMachine seqs subbatch).run s (List.replicate rounds (.round true)) = some t ∧
      t.parsed = txns seqs subbatch := by
  induction rounds generalizing s with
  | zero =>
      refine ⟨s, rfl, hleft.elim (fun hzero => ?_) fun h => h⟩
      refine h.parsed_eq.eq_of_length_le ?_
      unfold Loop.left at hzero
      omega
  | succ rounds ih =>
      obtain ⟨s₁, hround, h₁, hin, hprefix, hless⟩ := h.round hsub hne hlen hids true
      have hdone : s.parsed = txns seqs subbatch → s₁.parsed = txns seqs subbatch := fun heq =>
        h₁.parsed_eq.eq_of_length_le (by rw [← heq]; exact hprefix.length_le)
      obtain ⟨t, hrun, ht⟩ := ih h₁ (hin.trans hnil) (by
        rcases hleft with hleft | heq
        · rcases hless hnil rfl with hlt | heq
          · exact .inl (by omega)
          · exact .inr (hdone heq)
        · exact .inr (hdone heq))
      refine ⟨t, ?_, ht⟩
      rw [List.replicate_succ, run_cons]
      show (s.round true).bind _ = _
      rw [hround]
      exact hrun

end

end Parsed

/-- For non-empty sequences with distinct batch ids, in every reachable state: the
`CHECK` of `GetBatch` does not fail, the batches returned are a prefix of the
batches of the sequences, and once all messages have arrived, some number of
further calls has returned them all; the loop parses the transactions of the
batches once each, in order, and all of them in some number of rounds. -/
theorem stream_in_order (hsub : ∀ id, (subbatch id).batchNumber = id) (hne : ∀ d ∈ seqs, d ≠ [])
    (hlen : seqs.length < UInt32.size) (hids : seqs.flatten.Nodup) :
    (∀ s, (machine seqs subbatch).Reachable s →
      s.getBatch.isSome ∧ s.returned <+: batches seqs subbatch ∧
        (s.inFlight = [] → ∃ n, ∀ calls ≥ n, ∃ t,
          (machine seqs subbatch).run s (List.replicate calls .getBatch) = some t ∧
            t.returned = batches seqs subbatch)) ∧
      ∀ s, (loopMachine seqs subbatch).Reachable s →
        (∀ room, (s.round room).isSome) ∧ s.parsed <+: txns seqs subbatch ∧
          (s.stream.inFlight = [] → ∃ n, ∀ rounds ≥ n, ∃ t,
            (loopMachine seqs subbatch).run s (List.replicate rounds (.round true)) = some t ∧
              t.parsed = txns seqs subbatch) := by
  constructor
  · intro s hs
    have h := Flows.reachable hsub hne hlen hids hs
    refine ⟨?_, h.returned_eq, fun hnil => ⟨(batches seqs subbatch).length, fun calls hcalls => ?_⟩⟩
    · obtain ⟨s', out, hget, -⟩ := h.getBatch hsub hne hlen hids
      rw [hget]
      rfl
    · exact Flows.calls hsub hne hlen hids calls h hnil (by omega)
  · intro s hs
    have h := Parsed.reachable hsub hne hlen hids hs
    refine ⟨fun room => ?_, h.parsed_eq, fun hnil => ⟨Loop.left seqs subbatch s, fun n hn => ?_⟩⟩
    · obtain ⟨s', hround, -⟩ := h.round hsub hne hlen hids room
      rw [hround]
      rfl
    · exact Parsed.rounds hsub hne hlen hids n h hnil (.inl hn)

/-- Two sequences whose messages arrive the other way round. -/
theorem stream_in_order_reversed :
    ∃ s, (machine [[1001], [1002]] fun id => ⟨id, []⟩).Reachable s ∧
      s.channel = [.txnSubbatch ⟨1002, []⟩, .txnSubbatch ⟨1001, []⟩, .paxosBatchOrder 2 [1002],
        .paxosBatchOrder 1 [1001]] ∧
      ∃ n, ∀ calls ≥ n, ∃ t,
        (machine [[1001], [1002]] fun id => ⟨id, []⟩).run s (List.replicate calls .getBatch) =
          some t ∧
          t.returned = [⟨1001, []⟩, ⟨1002, []⟩] := by
  obtain ⟨s, hs, hnil, hchannel⟩ := exists_of_trace
    (m := machine [[1001], [1002]] fun id => ⟨id, []⟩)
    (P := fun s => s.inFlight = [] ∧
      s.channel = [.txnSubbatch ⟨1002, []⟩, .txnSubbatch ⟨1001, []⟩, .paxosBatchOrder 2 [1002],
        .paxosBatchOrder 1 [1001]])
    [.deliver 3, .deliver 2, .deliver 1, .deliver 0] (by decide)
  refine ⟨s, hs, hchannel, ?_⟩
  exact ((stream_in_order (fun _ => rfl) (by decide) (by decide) (by decide)).1 s hs).2.2 hnil

end Calvin.BatchStream
