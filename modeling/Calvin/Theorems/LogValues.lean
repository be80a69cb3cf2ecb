import Calvin.Theorems.LogDecisions
import Calvin.Theorems.OwnRecords

/-!
# Values by the logs

In an orderly replica the value of a record is what those writers of its epoch
leave that have been executed, in the order of their log; so each transaction
finds the records as its log leaves them.

* `Values`, `Finds`: the records, and what has been found of them;
* `Ordered.store_eq`: a transaction that has its locks finds what the log says;
* `Replayed`: the invariant, with `Replayed.next`.
-/

namespace Calvin.Replica

open Function Lib DeterministicScheduler StorageManager

variable {cfg : ClusterConfig} {logs : Nat → List TxnProto} {merge : List TxnProto}
  {compute : Compute} {init : Key → Record} {seen : Nat → Ptr → Key → Record} {s s' : Replica}
  {m m' : Nat} {p q : Ptr} {k : Key} {c r : Nat} {txn : TxnProto}

/-! ## The writers of a record -/

/-- A transaction of the logs has been executed at the node of a record. -/
def DoneAt (cfg : ClusterConfig) (merge : List TxnProto) (s : Replica) (k : Key)
    (txn : TxnProto) : Prop :=
  ∃ q < (stream cfg merge (cfg.lookupPartition k)).length,
    txnAt cfg merge (cfg.lookupPartition k) q = LowlatencySequencer.withReaders cfg txn ∧
      Executed (s.nodes (cfg.lookupPartition k)) q

theorem doneAt_iff (hl : OriginLogs logs) (hm : IsMerge logs merge)
    (hq : q < (stream cfg merge (cfg.lookupPartition k)).length)
    (heq : txnAt cfg merge (cfg.lookupPartition k) q = LowlatencySequencer.withReaders cfg txn) :
    DoneAt cfg merge s k txn ↔ Executed (s.nodes (cfg.lookupPartition k)) q := by
  refine ⟨?_, fun h => ⟨q, hq, heq, h⟩⟩
  rintro ⟨q', hq', heq', h⟩
  have hsame := (hl.copies hm).ptr_unique hq' hq (by rw [heq', heq]) (by rw [heq', heq])
  rwa [← hsame]

theorem mem_writers {log : Nat → List TxnProto} (hr : masterAt log init k c = some r) :
    txn ∈ writers log init k c ↔ txn ∈ log r ∧ txn.remasterTxn = false ∧
      (⟨k, r, c⟩ : KeyEntry) ∈ txn.readWriteSet ∧ Commits log init txn.client := by
  simp only [writers, hr, List.mem_filter, decide_eq_true_iff]

theorem writers_eq_nil {log : Nat → List TxnProto} (hr : masterAt log init k c = none) :
    writers log init k c = [] := by
  simp only [writers, hr]

theorem valueAt_early {log : Nat → List TxnProto} {view : Nat → Key → Record} :
    ∀ c ≤ (init k).counter, valueAt log init compute view k c = (init k).value := by
  intro c
  induction c with
  | zero => exact fun _ => rfl
  | succ c ih =>
      intro hle
      rw [valueAt, writers_eq_nil (masterAt_early k c hle), overwrite, List.foldl_nil]
      exact ih (Nat.le_of_succ_le hle)

namespace OriginLogs

variable (hl : OriginLogs logs) (hm : IsMerge logs merge)

include hl in
theorem pairwise_writers (hr : masterAt (forwarded logs) init k c = some r) :
    (writers (forwarded logs) init k c).Pairwise fun a b =>
      place (forwarded logs) r a.txnId < place (forwarded logs) r b.txnId := by
  simp only [writers, hr]
  exact (hl.pairwise_place r).sublist List.filter_sublist

include hl in
theorem place_inj {a b : TxnProto} (ha : a ∈ forwarded logs r) (hb : b ∈ forwarded logs r)
    (h : place (forwarded logs) r a.txnId = place (forwarded logs) r b.txnId) : a = b := by
  have hid := (List.idxOf_inj (List.mem_map_of_mem ha)).mp h
  exact List.inj_on_of_nodup_map (hl.ids r) ha hb hid

include hl hm

/-- A writer is scheduled at the node of the record, where it writes it itself. -/
theorem exists_writer (cfg : ClusterConfig) (hr : masterAt (forwarded logs) init k c = some r)
    (h : txn ∈ writers (forwarded logs) init k c) :
    ∃ q < (stream cfg merge (cfg.lookupPartition k)).length,
      txnAt cfg merge (cfg.lookupPartition k) q = LowlatencySequencer.withReaders cfg txn ∧
      (⟨k, r, c⟩ : KeyEntry) ∈ (txnAt cfg merge (cfg.lookupPartition k) q).readWriteSet ∧
      Own (nodeConfig cfg (cfg.lookupPartition k))
        (txnAt cfg merge (cfg.lookupPartition k) q).originReplica ⟨k, r, c⟩ ∧
      Commits (forwarded logs) init (txnAt cfg merge (cfg.lookupPartition k) q).client := by
  obtain ⟨hmem, -, hw, hcommits⟩ := (mem_writers hr).mp h
  have he : (⟨k, r, c⟩ : KeyEntry) ∈ txn.client.entries := List.mem_append_right _ hw
  obtain ⟨q, hq, heq⟩ := hl.exists_ptr cfg hm hmem he rfl
  refine ⟨q, hq, heq, ?_⟩
  dsimp only at heq ⊢
  rw [heq]
  exact ⟨hw, ⟨((hl.mem_forwarded hm).mp hmem).2.2.symm, rfl⟩, hcommits⟩

end OriginLogs

namespace Ordered

variable (hl : OriginLogs logs) (hm : IsMerge logs merge)

include hl hm

/-- What commits is not marked. -/
theorem commits_unmarked (hi : Ordered cfg logs merge init seen s)
    (hp : p < (stream cfg merge m).length)
    (h : Commits (forwarded logs) init (txnAt cfg merge m p).client) :
    (s.nodes m).status p ≠ .abortedWithoutLock := by
  intro hmarked
  obtain ⟨entry, he, hown, hnot⟩ := (hi.epochs m).stale p hmarked
  exact hnot ((hl.inEpoch_iff hm hp hown).mpr (h entry he))

/-- The writers of a record that have been executed when a transaction has its
lock: those before it in the log. -/
theorem done_iff (hi : Ordered cfg logs merge init seen s) (hp : Started (s.nodes m) p)
    (hlen : p < (stream cfg merge m).length) (hnot : ¬ Executed (s.nodes m) p)
    (hcommits : Commits (forwarded logs) init (txnAt cfg merge m p).client) {entry : KeyEntry}
    (he : entry ∈ (txnAt cfg merge m p).client.entries)
    (hown : Own (nodeConfig cfg m) (txnAt cfg merge m p).originReplica entry)
    (htxn : txn ∈ writers (forwarded logs) init entry.key entry.counter) :
    DoneAt cfg merge s entry.key txn ↔
      place (forwarded logs) entry.master txn.txnId <
        place (forwarded logs) entry.master (txnAt cfg merge m p).txnId := by
  have hpart : cfg.lookupPartition entry.key = m := hown.2
  have hr := (hcommits entry he).1
  obtain ⟨q, hq, heq, hw, hownq, hcommitsq⟩ := hl.exists_writer hm cfg hr htxn
  rw [doneAt_iff hl hm hq heq]
  rw [hpart] at hq heq hw hownq hcommitsq ⊢
  have horigin : (txnAt cfg merge m q).originReplica = (txnAt cfg merge m p).originReplica :=
    hownq.1.symm.trans hown.1
  have hplace := hl.lt_iff_place hm hlen hq horigin
  rw [← hown.1, heq] at hplace
  refine Iff.trans ?_ hplace
  by_cases hqp : q = p
  · rw [hqp]
    exact iff_of_false hnot (Nat.lt_irrefl p)
  · refine (hi.turns m).executed_iff (hi.exchanged.node m) hp
      (hi.commits_unmarked hl hm hlen hcommits)
      hnot hqp (hi.commits_unmarked hl hm hq hcommitsq) ?_ ?_
    · exact logConflict (List.mem_append_right _ hw) he rfl rfl hownq hown (.inl hw)
    · exact logConflict he (List.mem_append_right _ hw) rfl rfl hown hownq (.inr hw)

end Ordered

/-! ## The values -/

/-- A record holds what the writers of its epoch leave that have been executed, the
first ones of their log. -/
def HoldsValue (cfg : ClusterConfig) (logs : Nat → List TxnProto) (merge : List TxnProto)
    (compute : Compute) (init : Key → Record) (view : Nat → Key → Record) (s : Replica) (k : Key) :
    Prop :=
  ∃ done rest,
    writers (forwarded logs) init k (records cfg s k).counter = done ++ rest ∧
    (∀ txn ∈ done, DoneAt cfg merge s k txn) ∧ (∀ txn ∈ rest, ¬ DoneAt cfg merge s k txn) ∧
    (records cfg s k).value = overwrite compute view k
      (valueAt (forwarded logs) init compute view k (records cfg s k).counter) done

/-- Each record does. -/
def Values (cfg : ClusterConfig) (logs : Nat → List TxnProto) (merge : List TxnProto)
    (compute : Compute) (init : Key → Record) (view : Nat → Key → Record) (s : Replica) : Prop :=
  ∀ k, HoldsValue cfg logs merge compute init view s k

/-- What the participants of the transactions that commit have found. -/
def Finds (cfg : ClusterConfig) (logs : Nat → List TxnProto) (merge : List TxnProto)
    (init : Key → Record) (seen : Nat → Ptr → Key → Record) (s : Replica)
    (f : Nat → KeyEntry → Record) : Prop :=
  ∀ m p, Opened (s.nodes m) p → Commits (forwarded logs) init (txnAt cfg merge m p).client →
    ∀ entry ∈ (txnAt cfg merge m p).client.entries,
      Own (nodeConfig cfg m) (txnAt cfg merge m p).originReplica entry →
        seen m p entry.key = f (txnAt cfg merge m p).txnId entry

section

variable {view : Nat → Key → Record} {f : Nat → KeyEntry → Record}

theorem values_init :
    Values cfg logs merge compute init view (machine cfg 2 merge compute init).init := by
  intro k
  refine ⟨[], _, rfl, fun _ h => absurd h List.not_mem_nil, fun txn _ => ?_, ?_⟩
  · rintro ⟨q, -, -, h | h⟩
    · exact absurd h List.not_mem_nil
    · exact absurd h List.not_mem_nil
  · exact (valueAt_early _ (Nat.le_refl _)).symm

theorem finds_init : Finds cfg logs merge init seen (machine cfg 2 merge compute init).init f := by
  intro m p h
  rcases h with h | h | h
  · exact absurd h Bool.false_ne_true
  · exact absurd h List.not_mem_nil
  · exact absurd h List.not_mem_nil

/-- Steps that neither change the record nor execute one of its writers. -/
theorem HoldsValue.frame (h : HoldsValue cfg logs merge compute init view s k)
    (hrecord : records cfg s' k = records cfg s k)
    (hdone : ∀ txn ∈ writers (forwarded logs) init k (records cfg s k).counter,
      DoneAt cfg merge s' k txn ↔ DoneAt cfg merge s k txn) :
    HoldsValue cfg logs merge compute init view s' k := by
  obtain ⟨done, rest, hwriters, hd, hr, hvalue⟩ := h
  rw [hwriters] at hdone
  refine ⟨done, rest, by rw [hrecord, hwriters], fun txn htxn => ?_, fun txn htxn => ?_,
    by rw [hrecord, hvalue]⟩
  · exact (hdone txn (List.mem_append_left _ htxn)).mpr (hd txn htxn)
  · exact fun h => hr txn htxn ((hdone txn (List.mem_append_right _ htxn)).mp h)

/-- A step of one node in which no transaction is ended. -/
theorem Values.step {node : Node} {e : DeterministicScheduler.Event}
    (h : Values cfg logs merge compute init view s) (hnodes : s'.nodes = update s.nodes m node)
    (hrun : ∀ p guid random, e ≠ .run p guid random)
    (hstep : DeterministicScheduler.step (nodeConfig cfg m) 2 (txnAt cfg merge m) compute
      (s.nodes m) e = some node) : Values cfg logs merge compute init view s' := by
  obtain ⟨hstore, hexecuted⟩ := step_records hrun hstep
  intro k
  refine (h k).frame ?_ fun txn _ => ?_
  · rw [records, records, hnodes]
    by_cases hpart : cfg.lookupPartition k = m
    · rw [hpart, update_self, hstore]
    · rw [update_of_ne hpart]
  · rw [DoneAt, DoneAt, hnodes]
    by_cases hpart : cfg.lookupPartition k = m
    · subst hpart
      simp only [update_self, hexecuted]
    · rw [update_of_ne hpart]

/-- The messages do not matter. -/
theorem Values.congr (h : Values cfg logs merge compute init view s) (hnodes : s'.nodes = s.nodes) :
    Values cfg logs merge compute init view s' := by
  intro k
  refine (h k).frame ?_ fun txn _ => ?_
  · rw [records, records, hnodes]
  · rw [DoneAt, DoneAt, hnodes]

/-! ### What has been found -/

/-- What has been found was found before, or is found by the step. -/
theorem Finds.step {node : Node} {e : DeterministicScheduler.Event}
    (h : Finds cfg logs merge init seen s f) (hlife : Lifecycle (txnAt cfg merge m) (s.nodes m))
    (hnodes : s'.nodes = update s.nodes m node)
    (hstep : DeterministicScheduler.step (nodeConfig cfg m) 2 (txnAt cfg merge m) compute
      (s.nodes m) e = some node)
    (hstart : e = .start → ∀ p, (s.nodes m).txnsQueue.head? = some p →
      Commits (forwarded logs) init (txnAt cfg merge m p).client →
        ∀ entry ∈ (txnAt cfg merge m p).client.entries,
          Own (nodeConfig cfg m) (txnAt cfg merge m p).originReplica entry →
            (s.nodes m).store entry.key = f (txnAt cfg merge m p).txnId entry) :
    Finds cfg logs merge init (update seen m (taken (seen m) (s.nodes m) e)) s' f := by
  intro m' p hopened hcommits entry he hown
  rw [hnodes] at hopened
  by_cases hm' : m' = m
  · subst hm'
    rw [update_self] at hopened ⊢
    rcases Opened.of_step hstep hopened with hold | ⟨rfl, hq, htaken⟩
    · rw [(hold.step hlife hstep).2]
      exact h m' p hold hcommits entry he hown
    · rw [htaken]
      exact hstart rfl p hq hcommits entry he hown
  · rw [update_of_ne hm'] at hopened ⊢
    exact h m' p hopened hcommits entry he hown

/-- What had been found is found after the step. -/
theorem Finds.before {node : Node} {e : DeterministicScheduler.Event}
    (h : Finds cfg logs merge init (update seen m (taken (seen m) (s.nodes m) e)) s' f)
    (hlife : Lifecycle (txnAt cfg merge m) (s.nodes m)) (hnodes : s'.nodes = update s.nodes m node)
    (hstep : DeterministicScheduler.step (nodeConfig cfg m) 2 (txnAt cfg merge m) compute
      (s.nodes m) e = some node) : Finds cfg logs merge init seen s f := by
  intro m' p hopened hcommits entry he hown
  have hafter := h m' p
  rw [hnodes] at hafter
  by_cases hm' : m' = m
  · subst hm'
    obtain ⟨hopened', hsame⟩ := hopened.step hlife hstep
    rw [update_self, update_self, hsame] at hafter
    exact hafter hopened' hcommits entry he hown
  · rw [update_of_ne hm', update_of_ne hm'] at hafter
    exact hafter hopened hcommits entry he hown

namespace Ordered

variable (hl : OriginLogs logs) (hm : IsMerge logs merge)

include hl hm

/-- A transaction that has its locks finds the records as its log leaves them. -/
theorem store_eq (hi : Ordered cfg logs merge init seen s)
    (hvalues : Values cfg logs merge compute init view s) (hp : Started (s.nodes m) p)
    (hlen : p < (stream cfg merge m).length) (hnot : ¬ Executed (s.nodes m) p)
    (hcommits : Commits (forwarded logs) init (txnAt cfg merge m p).client) {entry : KeyEntry}
    (he : entry ∈ (txnAt cfg merge m p).client.entries)
    (hown : Own (nodeConfig cfg m) (txnAt cfg merge m p).originReplica entry)
    (hreached : (txnAt cfg merge m p).remasterTxn = true →
      entry.counter ≤ ((s.nodes m).store entry.key).counter) :
    (s.nodes m).store entry.key =
      readAt (forwarded logs) init compute view (txnAt cfg merge m p).txnId entry := by
  have hin := (hl.inEpoch_iff hm hlen hown).mpr (hcommits entry he)
  have hup := ((hi.epochs m).upToDate_store (hl.form hm m) (hi.turns m) (hi.exchanged.node m) hp
    (hi.commits_unmarked hl hm hlen hcommits) hnot he hown hreached).mpr hin
  obtain ⟨hmaster, hcounter⟩ := upToDate_iff.mp hup
  have hrecords : records cfg s entry.key = (s.nodes m).store entry.key := by
    rw [records, show cfg.lookupPartition entry.key = m from hown.2]
  obtain ⟨done, rest, hwriters, hdone, hrest, hvalue⟩ := hvalues entry.key
  rw [hrecords, ← hcounter] at hwriters hvalue
  -- what has been executed of the writers is what comes before the transaction
  have hiff := fun txn (h : txn ∈ done ++ rest) =>
    hi.done_iff hl hm hp hlen hnot hcommits he hown (hwriters ▸ h)
  have hfilter : ((writers (forwarded logs) init entry.key entry.counter).filter fun txn =>
      place (forwarded logs) entry.master txn.txnId <
        place (forwarded logs) entry.master (txnAt cfg merge m p).txnId) = done := by
    rw [hwriters, List.filter_append, List.filter_eq_self.mpr, List.filter_eq_nil_iff.mpr,
      List.append_nil]
    · intro txn htxn hlt
      exact hrest txn htxn
        ((hiff txn (List.mem_append_right _ htxn)).mpr (of_decide_eq_true hlt))
    · intro txn htxn
      exact decide_eq_true ((hiff txn (List.mem_append_left _ htxn)).mp (hdone txn htxn))
  have hrecord : (s.nodes m).store entry.key =
      ⟨((s.nodes m).store entry.key).value, entry.master, entry.counter⟩ := by
    rw [hmaster, hcounter]
  rw [hrecord, hvalue, readAt, hfilter]

/-- A complete manager shows a transaction that commits the records of the view. -/
theorem readObject_eq (hi : Ordered cfg logs merge init seen s)
    (hvalues : Values cfg logs merge compute init view s)
    (hview : Finds cfg logs merge init seen s fun txnId entry => view txnId entry.key)
    (hlog : Finds cfg logs merge init seen s (readAt (forwarded logs) init compute view))
    {sm : StorageManager} (hsm : (s.nodes m).managers p = some sm)
    (hready : sm.readyToExecute (txnAt cfg merge m p) = true)
    (hcommits : Commits (forwarded logs) init (txnAt cfg merge m p).client)
    (hnormal : (txnAt cfg merge m p).remasterTxn = false) :
    sm.readObject (s.nodes m).store = fun k =>
      if k ∈ (txnAt cfg merge m p).client.keys then some (view (txnAt cfg merge m p).txnId k)
      else none := by
  have hopened : Opened (s.nodes m) p := .inl (by rw [hsm]; rfl)
  have hlen := hi.exchanged.opened_lt hopened
  obtain ⟨-, hdone, hdeleted⟩ := (hi.exchanged.node m).life.of_manager hsm
  have hobject : ∀ k o, sm.objects.lookup k = some o →
      k ∈ (txnAt cfg merge m p).client.keys ∧
        sm.readObject (s.nodes m).store k = some (view (txnAt cfg merge m p).txnId k) := by
    intro k o ho
    rw [readObject, ho]
    cases o with
    | stored =>
        obtain ⟨e, he, rfl, hown⟩ :=
          ((hi.exchanged.node m).participant p sm hsm).stored _ ho
        refine ⟨List.mem_map_of_mem he, congrArg some ?_⟩
        -- it has stayed as it was found
        have hstore := hi.store_eq hl hm hvalues (.inr (.inr (.inl (by rw [hsm]; rfl)))) hlen
          (fun h => h.elim hdone hdeleted) hcommits he hown fun hr => by
            rw [hnormal] at hr
            cases hr
        exact hstore.trans ((hlog m p hopened hcommits e he hown).symm.trans
          (hview m p hopened hcommits e he hown))
    | copied val =>
        obtain ⟨e, he, rfl, q, hq, hid, hmaster, hval⟩ := hi.exchanged.copied m p sm hsm _ _ ho
        refine ⟨List.mem_map_of_mem he, congrArg some ?_⟩
        have hclient := (hl.copies hm).ptr_client (hi.exchanged.opened_lt hq) hlen hid
        have hseen := hview _ q hq (by rw [hclient]; exact hcommits) e (by rw [hclient]; exact he)
          ⟨hmaster.symm, rfl⟩
        rw [hval, hid] at hseen
        exact hseen
  funext k
  by_cases hk : k ∈ (txnAt cfg merge m p).client.keys
  · obtain ⟨o, ho⟩ := lookup_of_ready hready (fun k o ho => (hobject k o ho).1) hk
    rw [if_pos hk]
    exact (hobject k o ho).2
  · rw [if_neg hk, readObject]
    cases ho : sm.objects.lookup k with
    | none => rfl
    | some o => exact absurd (hobject k o ho).1 hk

end Ordered

/-! ### A transaction is executed -/

theorem records_finish {store : Key → Record} {status : Status}
    (hpart : cfg.lookupPartition k = m) :
    records cfg (setNode s m (finish { s.nodes m with store } p status)) k = store k := by
  simp only [records, setNode, hpart, update_self, finish]

theorem records_finish_of_ne {node : Node} (hpart : cfg.lookupPartition k ≠ m) :
    records cfg (setNode s m node) k = records cfg s k := by
  simp only [records, setNode, update_of_ne hpart]

theorem doneAt_finish {store : Key → Record} {status : Status} :
    DoneAt cfg merge (setNode s m (finish { s.nodes m with store } p status)) k txn ↔
      DoneAt cfg merge s k txn ∨ cfg.lookupPartition k = m ∧ p < (stream cfg merge m).length ∧
        txnAt cfg merge m p = LowlatencySequencer.withReaders cfg txn := by
  by_cases hpart : cfg.lookupPartition k = m
  · subst hpart
    simp only [DoneAt, setNode, update_self, Executed, finish, List.mem_append, List.mem_singleton]
    constructor
    · rintro ⟨q, hq, heq, (h | rfl) | h⟩
      · exact .inl ⟨q, hq, heq, .inl h⟩
      · exact .inr ⟨trivial, hq, heq⟩
      · exact .inl ⟨q, hq, heq, .inr h⟩
    · rintro (⟨q, hq, heq, h | h⟩ | ⟨-, hp, heq⟩)
      · exact ⟨q, hq, heq, .inl (.inl h)⟩
      · exact ⟨q, hq, heq, .inr h⟩
      · exact ⟨p, hp, heq, .inl (.inr rfl)⟩
  · simp only [DoneAt, setNode, update_of_ne hpart, hpart, false_and, or_false]

namespace Ordered

variable (hl : OriginLogs logs) (hm : IsMerge logs merge)

/-- The execution of a transaction that is none of the writers. -/
theorem holdsValue_finish (h : HoldsValue cfg logs merge compute init view s k)
    {store : Key → Record} {status : Status}
    (hrecord : cfg.lookupPartition k = m → store k = (s.nodes m).store k)
    (hnot : cfg.lookupPartition k = m →
      ∀ txn ∈ writers (forwarded logs) init k (records cfg s k).counter,
        txnAt cfg merge m p ≠ LowlatencySequencer.withReaders cfg txn) :
    HoldsValue cfg logs merge compute init view
      (setNode s m (finish { s.nodes m with store } p status)) k := by
  refine h.frame ?_ fun txn htxn => ?_
  · by_cases hpart : cfg.lookupPartition k = m
    · rw [records_finish hpart, hrecord hpart, records, hpart]
    · exact records_finish_of_ne hpart
  · rw [doneAt_finish, or_iff_left]
    rintro ⟨hpart, -, heq⟩
    exact hnot hpart txn htxn heq

include hl hm

/-- The next writer of a record is executed. -/
theorem holdsValue_write (hi : Ordered cfg logs merge init seen s)
    (h : HoldsValue cfg logs merge compute init view s k) {sm : StorageManager}
    (hsm : (s.nodes m).managers p = some sm)
    (hcommits : Commits (forwarded logs) init (txnAt cfg merge m p).client)
    (hnormal : (txnAt cfg merge m p).remasterTxn = false) {entry : KeyEntry}
    (hw : entry ∈ (txnAt cfg merge m p).readWriteSet) (hkey : entry.key = k)
    (hown : Own (nodeConfig cfg m) (txnAt cfg merge m p).originReplica entry)
    {store : Key → Record} {status : Status}
    (hstore : store k = { (s.nodes m).store k with
      value := written compute view (txnAt cfg merge m p).client k }) :
    HoldsValue cfg logs merge compute init view
      (setNode s m (finish { s.nodes m with store } p status)) k := by
  subst hkey
  have hlen : p < (stream cfg merge m).length :=
    hi.exchanged.opened_lt (.inl (by rw [hsm]; rfl))
  obtain ⟨-, hdone, hdeleted⟩ := (hi.exchanged.node m).life.of_manager hsm
  have hnot : ¬ Executed (s.nodes m) p := fun h => h.elim hdone hdeleted
  have hstarted : Started (s.nodes m) p := .inr (.inr (.inl (by rw [hsm]; rfl)))
  have he : entry ∈ (txnAt cfg merge m p).client.entries := List.mem_append_right _ hw
  have hpart : cfg.lookupPartition entry.key = m := hown.2
  have hcurrent := hcommits entry he
  -- the record is in the epoch of the entry
  have hup := ((hi.epochs m).upToDate_store (hl.form hm m) (hi.turns m) (hi.exchanged.node m)
    hstarted (hi.commits_unmarked hl hm hlen hcommits) hnot he hown fun hr => by
      rw [hnormal] at hr
      cases hr).mpr ((hl.inEpoch_iff hm hlen hown).mpr hcurrent)
  obtain ⟨-, hcounter⟩ := upToDate_iff.mp hup
  have hrecords : records cfg s entry.key = (s.nodes m).store entry.key := by
    rw [records, hpart]
  obtain ⟨done, rest, hwriters, hd, hr, hvalue⟩ := h
  rw [hrecords, ← hcounter] at hwriters hvalue
  obtain ⟨c, hc, -, heq⟩ := hl.txnAt_forwarded hm hlen
  have hmem : c ∈ writers (forwarded logs) init entry.key entry.counter := by
    rw [mem_writers hcurrent.1]
    rw [heq] at hcommits hnormal hw
    exact ⟨by rw [hown.1]; exact hc, hnormal, hw, hcommits⟩
  have hiff := fun txn (h : txn ∈ done ++ rest) =>
    hi.done_iff hl hm hstarted hlen hnot hcommits he hown (hwriters ▸ h)
  have hid : (txnAt cfg merge m p).txnId = c.txnId := by rw [heq]; rfl
  have hpairs := hl.pairwise_writers hcurrent.1
  -- it is the first one that has not been executed
  rw [hwriters] at hmem hpairs
  have hrest : c ∈ rest := (List.mem_append.mp hmem).resolve_left fun h =>
    Nat.lt_irrefl _ (hid ▸ (hiff c hmem).mp (hd c h))
  obtain ⟨before, after, rfl⟩ := List.append_of_mem hrest
  have hnil : before = [] := by
    refine List.eq_nil_iff_forall_not_mem.mpr fun txn htxn => ?_
    have hlt := (List.pairwise_append.mp (List.pairwise_append.mp hpairs).2.1).2.2 txn htxn c
      List.mem_cons_self
    refine hr txn (List.mem_append_left _ htxn) ((hiff txn ?_).mpr (hid ▸ hlt))
    exact List.mem_append_right _ (List.mem_append_left _ htxn)
  subst hnil
  have hrecord : records cfg (setNode s m (finish { s.nodes m with store } p status)) entry.key =
      { (s.nodes m).store entry.key with
        value := written compute view (txnAt cfg merge m p).client entry.key } := by
    rw [records_finish hpart, hstore]
  refine ⟨done ++ [c], after, ?_, fun txn htxn => ?_, fun txn htxn => ?_, ?_⟩
  · rw [hrecord, ← hcounter, hwriters, List.append_assoc]
    rfl
  · rw [doneAt_finish]
    rcases List.mem_append.mp htxn with htxn | htxn
    · exact .inl (hd txn htxn)
    · obtain rfl := List.mem_singleton.mp htxn
      exact .inr ⟨hpart, hlen, heq⟩
  · rw [doneAt_finish, not_or]
    refine ⟨hr txn (List.mem_cons_of_mem _ htxn), ?_⟩
    rintro ⟨-, -, heq'⟩
    have hsame : txn.txnId = c.txnId := by
      rw [← hid, heq']
      rfl
    have hlt := (List.pairwise_cons.mp (List.pairwise_append.mp hpairs).2.1).1 txn htxn
    rw [hsame] at hlt
    exact Nat.lt_irrefl _ hlt
  · rw [hrecord, overwrite, List.foldl_append, heq]
    rfl

/-- A remaster transaction is executed when all writers of the epoch have been, and
none of the next epoch. -/
theorem holdsValue_remaster (hi : Ordered cfg logs merge init seen s)
    (h : HoldsValue cfg logs merge compute init view s k) {sm : StorageManager}
    (hsm : (s.nodes m).managers p = some sm) {e : KeyEntry}
    (hends : EndsEpoch e.key e.master e.counter (txnAt cfg merge m p))
    (hup : upToDate ((s.nodes m).store e.key) e = true) (hkey : e.key = k) {status : Status} :
    HoldsValue cfg logs merge compute init view (setNode s m (finish { s.nodes m with
      store := remasteredTo (s.nodes m).store e (txnAt cfg merge m p).remasterTo } p
      status)) k := by
  subst hkey
  have hlen : p < (stream cfg merge m).length :=
    hi.exchanged.opened_lt (.inl (by rw [hsm]; rfl))
  obtain ⟨-, hdone, hdeleted⟩ := (hi.exchanged.node m).life.of_manager hsm
  have hnot : ¬ Executed (s.nodes m) p := fun h => h.elim hdone hdeleted
  have hstarted : Started (s.nodes m) p := .inr (.inr (.inl (by rw [hsm]; rfl)))
  obtain ⟨hmaster, hcounter⟩ := upToDate_iff.mp hup
  obtain ⟨hmem, hown⟩ := hends.own (hl.form hm m)
  have he : e ∈ (txnAt cfg merge m p).client.entries := List.mem_append_right _ hmem
  have hpart : cfg.lookupPartition e.key = m := hown.2
  -- it has no other entry, so that it commits
  have hcurrent : Current (forwarded logs) init (txnAt cfg merge m p).txnId e :=
    (hl.inEpoch_iff hm hlen hown).mp
      (((hi.epochs m).upToDate_store (hl.form hm m) (hi.turns m) (hi.exchanged.node m) hstarted
        ((hi.turns m).unmarked p hends.1) hnot he hown fun _ => Nat.le_of_eq hcounter).mp hup)
  have hcommits : Commits (forwarded logs) init (txnAt cfg merge m p).client := by
    intro e' he'
    have h := ((hl.form hm m p hends.1).endsEpoch hends.1 he').2
    rw [hends.2] at h
    rw [← (Option.some.inj h : e = e')]
    exact hcurrent
  have hrecords : records cfg s e.key = (s.nodes m).store e.key := by rw [records, hpart]
  have hrecord : records cfg (setNode s m (finish { s.nodes m with
      store := remasteredTo (s.nodes m).store e (txnAt cfg merge m p).remasterTo } p status))
      e.key = { (s.nodes m).store e.key with
        master := (txnAt cfg merge m p).remasterTo, counter := e.counter + 1 } := by
    rw [records_finish hpart, remasteredTo, update_self]
  obtain ⟨done, rest, hwriters, hd, hr, hvalue⟩ := h
  rw [hrecords, ← hcounter] at hwriters hvalue
  obtain ⟨-, -, txn₀, htxn₀, hends₀, heq₀⟩ := hl.end_forwarded hm hends
  have hnil : rest = [] := by
    refine List.eq_nil_iff_forall_not_mem.mpr fun txn htxn => hr txn htxn ?_
    have htxn' : txn ∈ writers (forwarded logs) init e.key e.counter := by
      rw [hwriters]
      exact List.mem_append_right _ htxn
    obtain ⟨hmem', hnormal, hw, hcommits'⟩ := (mem_writers hcurrent.1).mp htxn'
    rw [hi.done_iff hl hm hstarted hlen hnot hcommits he hown htxn']
    -- its entry is not over before it
    have hle := (hcommits' e (List.mem_append_right _ hw)).2 txn₀ htxn₀ hends₀
    have hid : (txnAt cfg merge m p).txnId = txn₀.txnId := by rw [heq₀]; rfl
    rw [hid]
    refine Nat.lt_of_le_of_ne hle fun hsame => ?_
    rw [hl.place_inj hmem' htxn₀ hsame, hends₀.1] at hnormal
    cases hnormal
  subst hnil
  rw [List.append_nil] at hwriters
  refine ⟨[], _, rfl, fun _ h => absurd h List.not_mem_nil, fun txn htxn => ?_, ?_⟩
  · rw [hrecord] at htxn
    change txn ∈ writers (forwarded logs) init e.key (e.counter + 1) at htxn
    rw [doneAt_finish, not_or]
    cases hr' : masterAt (forwarded logs) init e.key (e.counter + 1) with
    | none =>
        rw [writers_eq_nil hr'] at htxn
        exact absurd htxn List.not_mem_nil
    | some r' =>
        refine ⟨fun hdone' => ?_, fun h => ?_⟩
        · obtain ⟨q, hq, heq, hw, hownq, hcommitsq⟩ := hl.exists_writer hm cfg hr' htxn
          rw [doneAt_iff hl hm hq heq, hpart] at hdone'
          rw [hpart] at hq hw hownq hcommitsq
          have hle := (hi.epochs m).executed_le (hl.form hm m) (hi.turns m) (hi.exchanged.node m)
            hdone' (hi.commits_unmarked hl hm hq hcommitsq) (List.mem_append_right _ hw) hownq
          rw [← hcounter] at hle
          exact Nat.not_succ_le_self _ hle
        · have hnormal := ((mem_writers hr').mp htxn).2.1
          have hremaster := hends.1
          rw [h.2.2] at hremaster
          exact absurd (hnormal.symm.trans hremaster) Bool.false_ne_true
  · rw [hrecord, overwrite, List.foldl_nil, valueAt, hwriters]
    exact hvalue

/-- Executions keep the values. -/
theorem values_run {node : Node} {guid random : Nat} {forword : Option TxnForword}
    (hi : Ordered cfg logs merge init seen s) (hown : OwnStored cfg merge s)
    (hvalues : Values cfg logs merge compute init view s)
    (hview : Finds cfg logs merge init seen s fun txnId entry => view txnId entry.key)
    (hlog : Finds cfg logs merge init seen s (readAt (forwarded logs) init compute view))
    (h : DeterministicScheduler.run (nodeConfig cfg m) 2 (txnAt cfg merge m) compute (s.nodes m) p
      guid random = some (node, forword)) :
    Values cfg logs merge compute init view (setNode s m node) := by
  obtain ⟨sm, hsm, hready, hcases⟩ := run_ways (hl.form hm m) (hi.turns m) h
  have hopened : Opened (s.nodes m) p := .inl (by rw [hsm]; rfl)
  have hlen := hi.exchanged.opened_lt hopened
  intro k
  have hnow : masterAt (forwarded logs) init k (records cfg s k).counter =
      some (records cfg s k).master :=
    (hi.epochs (cfg.lookupPartition k)).now k (decide_eq_true rfl)
  rcases hcases with ⟨e, hends, hup, rfl⟩ | ⟨hnormal, ⟨status, hdec⟩, rfl⟩ | ⟨status, -, hdec, rfl⟩
  · -- a remaster transaction
    by_cases hk : e.key = k
    · exact hi.holdsValue_remaster hl hm (hvalues k) hsm hends hup hk
    · refine holdsValue_finish (hvalues k) (fun _ => update_of_ne (Ne.symm hk) _ _)
        fun _ txn htxn heq => ?_
      have hremaster := hends.1
      rw [heq] at hremaster
      exact absurd (((mem_writers hnow).mp htxn).2.1.symm.trans hremaster) Bool.false_ne_true
  · have hcommits : Commits (forwarded logs) init (txnAt cfg merge m p).client :=
      (hi.verdict_iff hl hm hlen
        (hi.exchanged.decision_verdict (hl.copies hm) hsm hdec)).mp rfl
    have hread := hi.readObject_eq hl hm hvalues hview hlog hsm hready hcommits hnormal
    by_cases hk : k ∈ (txnAt cfg merge m p).client.writeKeys ∧ sm.objects.lookup k = some .stored
    · -- it writes the record
      obtain ⟨hw, hstored⟩ := hk
      obtain ⟨entry, hw, hkey⟩ := List.mem_map.mp hw
      obtain ⟨e, he, hkey', howne⟩ :=
        ((hi.exchanged.node m).participant p sm hsm).stored k hstored
      obtain rfl := List.inj_on_of_nodup_map ((hl.copies hm).txnAt_keys cfg m p) he
        (List.mem_append_right _ hw) (hkey'.trans hkey.symm)
      refine hi.holdsValue_write hl hm (hvalues k) hsm hcommits hnormal hw hkey howne ?_
      rw [Microbenchmark.writeValues, if_pos ⟨hkey ▸ List.mem_map_of_mem hw, hstored⟩, hread]
      rfl
    · refine holdsValue_finish (hvalues k) (fun _ => ?_) fun hpart txn htxn heq => hk ?_
      · rw [Microbenchmark.writeValues, if_neg]
        exact hk
      · obtain ⟨hmem, -, hw, -⟩ := (mem_writers hnow).mp htxn
        have hw' : (⟨k, (records cfg s k).master, (records cfg s k).counter⟩ : KeyEntry) ∈
            (txnAt cfg merge m p).readWriteSet := by
          rw [heq]
          exact hw
        refine ⟨List.mem_map_of_mem hw', hown.stored m p sm hsm _ (List.mem_append_right _ hw') ?_⟩
        refine ⟨?_, hpart⟩
        rw [heq]
        exact ((hl.mem_forwarded hm).mp hmem).2.2.symm
  · -- it aborts
    have hcommits : ¬ Commits (forwarded logs) init (txnAt cfg merge m p).client := fun h =>
      Bool.false_ne_true ((hi.verdict_iff hl hm hlen
        (hi.exchanged.decision_verdict (hl.copies hm) hsm hdec)).mpr h)
    show HoldsValue cfg logs merge compute init view
      (setNode s m (finish { s.nodes m with store := (s.nodes m).store } p status)) k
    refine holdsValue_finish (hvalues k) (fun _ => rfl) fun _ txn htxn heq => hcommits ?_
    rw [heq]
    exact ((mem_writers hnow).mp htxn).2.2.2

end Ordered

end

/-! ## The invariant -/

/-- Whatever view agrees with what has been found, the records hold its values and
what has been found is what the logs say; and the view of the logs agrees. -/
structure Replayed (cfg : ClusterConfig) (logs : Nat → List TxnProto) (merge : List TxnProto)
    (compute : Compute) (init : Key → Record) (seen : Nat → Ptr → Key → Record) (s : Replica) :
    Prop where
  ordered : Ordered cfg logs merge init seen s
  own : OwnStored cfg merge s
  values : ∀ view, (Finds cfg logs merge init seen s fun txnId entry => view txnId entry.key) →
    Values cfg logs merge compute init view s ∧
      Finds cfg logs merge init seen s (readAt (forwarded logs) init compute view)
  replays : ∀ view, Replays (forwarded logs) init compute view →
    Finds cfg logs merge init seen s fun txnId entry => view txnId entry.key

theorem replayed_init (hl : OriginLogs logs) (hm : IsMerge logs merge)
    (seen : Nat → Ptr → Key → Record) :
    Replayed cfg logs merge compute init seen (machine cfg 2 merge compute init).init where
  ordered := ordered_init hl hm seen
  own := ownStored_init
  values _ _ := ⟨values_init, finds_init⟩
  replays _ _ := finds_init

namespace Replayed

/-- A manager is created over the records that the log leaves. -/
theorem started_store (hl : OriginLogs logs) (hm : IsMerge logs merge)
    (hi : Ordered cfg logs merge init seen s) {view : Nat → Key → Record}
    (hvalues : Values cfg logs merge compute init view s)
    (hgood : remasterAhead (txnAt cfg merge m) (s.nodes m) .start = false)
    (hp : (s.nodes m).txnsQueue.head? = some p)
    (hcommits : Commits (forwarded logs) init (txnAt cfg merge m p).client) {entry : KeyEntry}
    (he : entry ∈ (txnAt cfg merge m p).client.entries)
    (hown : Own (nodeConfig cfg m) (txnAt cfg merge m p).originReplica entry) :
    (s.nodes m).store entry.key =
      readAt (forwarded logs) init compute view (txnAt cfg merge m p).txnId entry := by
  have hmem : p ∈ (s.nodes m).txnsQueue := List.mem_of_head? hp
  obtain ⟨-, hdone, hdeleted⟩ := (hi.exchanged.node m).life.of_queued hmem
  refine hi.store_eq hl hm hvalues (.inr (.inl hmem)) (hi.exchanged.queued_lt hmem)
    (fun h => h.elim hdone hdeleted) hcommits he hown fun hr => ?_
  -- a remaster transaction comes in its turn
  have hends := (hl.form hm m p hr).endsEpoch hr he
  obtain ⟨rest, hrest⟩ := List.head?_eq_some_iff.mp hp
  rw [remasterAhead, hrest] at hgood
  simpa [hends.1, hends.2] using hgood

theorem next {e : Event} (hl : OriginLogs logs) (hm : IsMerge logs merge)
    (hi : Replayed cfg logs merge compute init seen s) (hgood : InOrder cfg merge s e)
    (h : (machine cfg 2 merge compute init).next s e = some s') :
    Replayed cfg logs merge compute init (found seen s e) s' := by
  have hordered := hi.ordered.next hl hm hgood h
  have hown := hi.own.next (hl.copies hm) hi.ordered.exchanged hgood.1 h
  obtain ⟨m, node, e', hevent, hnodes, hstep⟩ := next_node h
  have hturn := hgood.inTurn hevent
  have hlife := (hi.ordered.exchanged.node m).life
  rw [found_eq hevent] at hordered ⊢
  refine ⟨hordered, hown, fun view hview => ?_, fun view hview => ?_⟩
  · have hbefore := hview.before hlife hnodes hstep
    obtain ⟨hvalues, hlog⟩ := hi.values view hbefore
    refine ⟨?_, hlog.step hlife hnodes hstep fun hstart p hp hcommits entry he howne => ?_⟩
    · by_cases hrun : ∃ p guid random, e' = .run p guid random
      · obtain ⟨p, guid, random, rfl⟩ := hrun
        obtain ⟨⟨s₁, forword⟩, hrun, rfl⟩ := Option.map_eq_some_iff.mp hstep
        have hset : Values cfg logs merge compute init view (setNode s m s₁) :=
          hi.ordered.values_run hl hm hi.own hvalues hbefore hlog hrun
        exact hset.congr hnodes
      · refine hvalues.step hnodes (fun p guid random heq => ?_) hstep
        exact hrun ⟨p, guid, random, heq⟩
    · subst hstart
      exact started_store hl hm hi.ordered hvalues hturn.2.2 hp hcommits he howne
  · have hbefore := hi.replays view hview
    refine hbefore.step hlife hnodes hstep fun hstart p hp hcommits entry he howne => ?_
    subst hstart
    rw [started_store hl hm hi.ordered (hi.values view hbefore).1 hturn.2.2 hp hcommits he howne]
    obtain ⟨c, hc, -, heq⟩ :=
      hl.txnAt_forwarded hm (hi.ordered.exchanged.queued_lt (List.mem_of_head? hp))
    have hreplay := hview _ c hc
    rw [heq] at hcommits he howne ⊢
    exact (hreplay hcommits entry he (howne.1.trans (by rw [heq]))).symm

end Replayed

end Calvin.Replica
