import Mathlib.Data.List.Nodup
import Mathlib.Data.List.TakeWhile
import Calvin.Scheduler.RemasterWaits

/-!
# The maps of the transactions that wait for remasters

* `wakeOne_cases`: what one round of the wake-up loop can do;
* `wake_prefix`: what is woken is, origin by origin, a prefix of what was
  blocked;
* `WaitsInv`: the three maps and the flag agree, as long as no two transactions
  of one id wait at a time.
-/

namespace Calvin.RemasterWaits

open Function

variable {txns : Ptr → TxnProto}

/-- A transaction that is blocked and waits for a remaster. -/
def Waiting (txns : Ptr → TxnProto) (w : RemasterWaits) (p : Ptr) : Prop :=
  p ∈ w.blockingTxns (txns p).originReplica ∧ w.waitForRemasterPros p = true

/-- The transactions of one origin are in the queue of that origin. -/
def Filed (txns : Ptr → TxnProto) (w : RemasterWaits) : Prop :=
  ∀ r, ∀ p ∈ w.blockingTxns r, (txns p).originReplica = r

/-! ## One round of the wake-up -/

/-- The pairs of a transaction that stay outstanding after `kc`. -/
def left (txns : Ptr → TxnProto) (w : RemasterWaits) (kc : Key × Nat) (a : Ptr) :
    List (Key × Nat) :=
  (w.waitingTxnsByTxnid (txns a).txnId).erase kc

/-- The pair is crossed off for the id of the transaction, which does not wait
any more if it was the last. -/
def crossOff (txns : Ptr → TxnProto) (w : RemasterWaits) (kc : Key × Nat) (a : Ptr) :
    RemasterWaits :=
  { w with
    waitingTxnsByTxnid := update w.waitingTxnsByTxnid (txns a).txnId (left txns w kc a)
    waitForRemasterPros :=
      if left txns w kc a = [] then update w.waitForRemasterPros a false
      else w.waitForRemasterPros }

theorem wakeOne_cases {kc : Key × Nat} {w w' : RemasterWaits} {ready ready' : List Ptr} {a : Ptr}
    (h : wakeOne txns kc (w, ready) a = some (w', ready')) :
    (w' = crossOff txns w kc a ∧ ready' = ready ∧
      (left txns w kc a = [] → (w.blockingTxns (txns a).originReplica).head? ≠ some a)) ∨
    (left txns w kc a = [] ∧ (w.blockingTxns (txns a).originReplica).head? = some a ∧
      w' = (popReady (crossOff txns w kc a) (txns a).originReplica).1 ∧
      ready' = ready ++ (popReady (crossOff txns w kc a) (txns a).originReplica).2) := by
  simp only [wakeOne] at h
  split at h
  case isFalse hleft =>
      cases h
      refine .inl ⟨?_, rfl, fun hl => absurd hl hleft⟩
      simp only [crossOff, left, hleft, if_false]
  case isTrue hleft =>
      have hcross : crossOff txns w kc a =
          { w with
            waitingTxnsByTxnid := update w.waitingTxnsByTxnid (txns a).txnId
              ((w.waitingTxnsByTxnid (txns a).txnId).erase kc)
            waitForRemasterPros := update w.waitForRemasterPros a false } := by
        simp only [crossOff, left, hleft, if_true]
      cases hq : w.blockingTxns (txns a).originReplica with
      | nil =>
          rw [hq] at h
          exact absurd h (by simp)
      | cons front rest =>
          rw [hq] at h
          by_cases hf : front = a
          · simp only [hf, if_true] at h
            obtain ⟨rfl, rfl⟩ := Prod.mk.inj (Option.some.inj h)
            refine .inr ⟨hleft, by rw [hf]; rfl, ?_, ?_⟩
            · rw [hcross]
            · rw [hcross]
          · simp only [hf, if_false] at h
            cases h
            refine .inl ⟨hcross.symm, rfl, fun _ hhead => ?_⟩
            exact hf (Option.some.inj hhead)

/-- The pops take a prefix from the queue of one origin. -/
theorem popReady_append (w : RemasterWaits) (origin : Nat) :
    (popReady w origin).2 ++ (popReady w origin).1.blockingTxns origin = w.blockingTxns origin := by
  simp only [popReady, update_self]
  exact List.takeWhile_append_dropWhile

theorem popReady_other (w : RemasterWaits) {origin r : Nat} (hr : r ≠ origin) :
    (popReady w origin).1.blockingTxns r = w.blockingTxns r := by
  simp only [popReady, update_of_ne hr]

/-! ## What is woken -/

/-- One round moves a prefix of the queue of one origin. -/
theorem wakeOne_prefix {kc : Key × Nat} {w w' : RemasterWaits} {ready ready' : List Ptr} {a : Ptr}
    (hfiled : Filed txns w) (h : wakeOne txns kc (w, ready) a = some (w', ready')) :
    Filed txns w' ∧ ∀ r,
      ready'.filter (fun p => (txns p).originReplica = r) ++ w'.blockingTxns r =
        ready.filter (fun p => (txns p).originReplica = r) ++ w.blockingTxns r := by
  rcases wakeOne_cases h with ⟨rfl, rfl, -⟩ | ⟨-, -, rfl, rfl⟩
  · exact ⟨hfiled, fun _ => rfl⟩
  · let w₀ := crossOff txns w kc a
    have happ := popReady_append w₀ (txns a).originReplica
    have hpop : ∀ p ∈ (popReady w₀ (txns a).originReplica).2,
        (txns p).originReplica = (txns a).originReplica := by
      intro p hp
      refine hfiled (txns a).originReplica p ?_
      change p ∈ w₀.blockingTxns (txns a).originReplica
      rw [← happ]
      exact List.mem_append_left _ hp
    refine ⟨?_, ?_⟩
    · intro r p hp
      by_cases hr : r = (txns a).originReplica
      · subst hr
        refine hfiled _ p ?_
        change p ∈ w₀.blockingTxns (txns a).originReplica
        rw [← happ]
        exact List.mem_append_right _ hp
      · rw [popReady_other _ hr] at hp
        exact hfiled r p hp
    · intro r
      rw [List.filter_append, List.append_assoc]
      congr 1
      by_cases hr : r = (txns a).originReplica
      · subst hr
        rw [List.filter_eq_self.mpr fun p hp => decide_eq_true (hpop p hp)]
        exact happ
      · rw [popReady_other _ hr, List.filter_eq_nil_iff.mpr fun p hp => ?_, List.nil_append]
        · rfl
        · rw [hpop p hp]
          simpa using fun h => hr h.symm

theorem foldlM_wakeOne_prefix {kc : Key × Nat} (as : List Ptr) {w w' : RemasterWaits}
    {ready ready' : List Ptr} (hfiled : Filed txns w)
    (h : as.foldlM (wakeOne txns kc) (w, ready) = some (w', ready')) :
    Filed txns w' ∧ ∀ r,
      ready'.filter (fun p => (txns p).originReplica = r) ++ w'.blockingTxns r =
        ready.filter (fun p => (txns p).originReplica = r) ++ w.blockingTxns r := by
  induction as generalizing w ready with
  | nil =>
      cases h
      exact ⟨hfiled, fun _ => rfl⟩
  | cons a as ih =>
      rw [List.foldlM_cons, Option.bind_eq_bind, Option.bind_eq_some_iff] at h
      obtain ⟨⟨w₁, ready₁⟩, hone, hrest⟩ := h
      obtain ⟨hfiled₁, hpre₁⟩ := wakeOne_prefix hfiled hone
      obtain ⟨hfiled', hpre'⟩ := ih hfiled₁ hrest
      exact ⟨hfiled', fun r => (hpre' r).trans (hpre₁ r)⟩

/-- Origin by origin, the woken transactions are the first of the queue, in
its order. -/
theorem wake_prefix {kc : Key × Nat} {w w' : RemasterWaits} {ready : List Ptr}
    (hfiled : Filed txns w) (h : w.wake txns kc = some (w', ready)) :
    Filed txns w' ∧ ∀ r,
      w.blockingTxns r =
        ready.filter (fun p => (txns p).originReplica = r) ++ w'.blockingTxns r := by
  rw [wake, Option.map_eq_some_iff] at h
  obtain ⟨⟨w₁, ready₁⟩, hfold, heq⟩ := h
  obtain ⟨rfl, rfl⟩ := Prod.mk.inj heq
  obtain ⟨hfiled', hpre⟩ := foldlM_wakeOne_prefix _ hfiled hfold
  refine ⟨hfiled', fun r => ?_⟩
  have h' := hpre r
  rw [List.filter_nil, List.nil_append] at h'
  exact h'.symm

/-! ## The maps agree -/

/-- What holds of the three maps and the flags also within a wake-up. -/
structure MapsInv (txns : Ptr → TxnProto) (w : RemasterWaits) : Prop where
  filed : Filed txns w
  nodup : ∀ r, (w.blockingTxns r).Nodup
  /-- A waiting transaction has outstanding pairs. -/
  pairs : ∀ p, Waiting txns w p → w.waitingTxnsByTxnid (txns p).txnId ≠ []
  /-- Each of them lists it. -/
  listed : ∀ p, Waiting txns w p → ∀ kc ∈ w.waitingTxnsByTxnid (txns p).txnId,
    p ∈ w.waitingTxnsByKey kc
  ofListed : ∀ kc, ∀ p ∈ w.waitingTxnsByKey kc,
    Waiting txns w p ∧ kc ∈ w.waitingTxnsByTxnid (txns p).txnId
  ids : ∀ p q, Waiting txns w p → Waiting txns w q → (txns p).txnId = (txns q).txnId → p = q
  keyNodup : ∀ kc, (w.waitingTxnsByKey kc).Nodup
  idNodup : ∀ t, (w.waitingTxnsByTxnid t).Nodup

/-- The front of every queue waits. -/
def FrontWaits (w : RemasterWaits) : Prop :=
  ∀ r p, (w.blockingTxns r).head? = some p → w.waitForRemasterPros p = true

/-- The invariant between two steps of the lock manager thread. -/
structure WaitsInv (txns : Ptr → TxnProto) (w : RemasterWaits) : Prop where
  maps : MapsInv txns w
  front : FrontWaits w

theorem waitsInv_init (flags : Ptr → Bool) :
    WaitsInv txns { waitForRemasterPros := flags } where
  maps :=
    { filed := by intro r p hp; exact absurd hp List.not_mem_nil
      nodup := by intro r; exact List.nodup_nil
      pairs := by intro p hp; exact absurd hp.1 List.not_mem_nil
      listed := by intro p hp; exact absurd hp.1 List.not_mem_nil
      ofListed := by intro kc p hp; exact absurd hp List.not_mem_nil
      ids := by intro p q hp; exact absurd hp.1 List.not_mem_nil
      keyNodup := by intro kc; exact List.nodup_nil
      idNodup := by intro t; exact List.nodup_nil }
  front := by intro r p hp; cases hp

/-- The state in which only `rest` is still to be processed for `kc`. -/
def remaining (w : RemasterWaits) (kc : Key × Nat) (rest : List Ptr) : RemasterWaits :=
  { w with waitingTxnsByKey := update w.waitingTxnsByKey kc rest }

theorem mem_remaining {byKey : Key × Nat → List Ptr} {kc kc' : Key × Nat} {a p : Ptr}
    {rest : List Ptr} :
    p ∈ update byKey kc (a :: rest) kc' ↔ (kc' = kc ∧ p = a) ∨ p ∈ update byKey kc rest kc' := by
  by_cases hk : kc' = kc
  · subst hk
    simp only [update_self, List.mem_cons, true_and]
  · simp only [update_of_ne hk, hk, false_and, false_or]

/-- Only a transaction whose last pair is crossed off stops waiting. -/
theorem waiting_crossOff {kc : Key × Nat} {w : RemasterWaits} {a p : Ptr} :
    Waiting txns (crossOff txns w kc a) p ↔
      Waiting txns w p ∧ (p = a → left txns w kc a ≠ []) := by
  by_cases hl : left txns w kc a = []
  · by_cases hpa : p = a
    · subst hpa
      simp [Waiting, crossOff, hl]
    · simp [Waiting, crossOff, hl, hpa]
  · simp [Waiting, crossOff, hl]

/-- Crossing off the pair keeps the maps in agreement. -/
theorem MapsInv.cross {kc : Key × Nat} {w : RemasterWaits} {a : Ptr} {rest : List Ptr}
    (hi : MapsInv txns (remaining w kc (a :: rest))) :
    MapsInv txns (remaining (crossOff txns w kc a) kc rest) := by
  obtain ⟨hawait, -⟩ := hi.ofListed kc a (mem_remaining.mpr (.inl ⟨rfl, rfl⟩))
  have hnodup : (a :: rest).Nodup := by
    have h := hi.keyNodup kc
    simpa only [remaining, update_self] using h
  have hstill : ∀ p, Waiting txns (crossOff txns w kc a) p →
      Waiting txns w p ∧ (p = a → left txns w kc a ≠ []) := fun p => waiting_crossOff.mp
  have hkept : ∀ p, Waiting txns w p → (p = a → left txns w kc a ≠ []) →
      Waiting txns (crossOff txns w kc a) p := fun p h hne => waiting_crossOff.mpr ⟨h, hne⟩
  -- no other waiting transaction has the id of `a`
  have hother : ∀ p, Waiting txns w p → p ≠ a →
      (crossOff txns w kc a).waitingTxnsByTxnid (txns p).txnId =
        w.waitingTxnsByTxnid (txns p).txnId := by
    intro p hp hne
    have hid : (txns p).txnId ≠ (txns a).txnId := fun h => hne (hi.ids p a hp hawait h)
    simp only [crossOff, update_of_ne hid]
  have hsame : (crossOff txns w kc a).waitingTxnsByTxnid (txns a).txnId = left txns w kc a := by
    simp only [crossOff, update_self]
  have hmem_left : ∀ kc', kc' ∈ left txns w kc a ↔
      kc' ≠ kc ∧ kc' ∈ w.waitingTxnsByTxnid (txns a).txnId := fun kc' =>
    List.Nodup.mem_erase_iff (hi.idNodup _)
  refine
    { filed := hi.filed
      nodup := hi.nodup
      pairs := ?_
      listed := ?_
      ofListed := ?_
      ids := fun p q hp hq => hi.ids p q (hstill p hp).1 (hstill q hq).1
      keyNodup := ?_
      idNodup := ?_ }
  · intro p hp
    obtain ⟨hwait, hlast⟩ := hstill p hp
    change (crossOff txns w kc a).waitingTxnsByTxnid _ ≠ []
    by_cases hne : p = a
    · subst hne
      rw [hsame]
      exact hlast rfl
    · rw [hother p hwait hne]
      exact hi.pairs p hwait
  · intro p hp kc' hkc'
    obtain ⟨hwait, -⟩ := hstill p hp
    change kc' ∈ (crossOff txns w kc a).waitingTxnsByTxnid _ at hkc'
    by_cases hne : p = a
    · subst hne
      rw [hsame] at hkc'
      obtain ⟨hk, hin⟩ := (hmem_left kc').mp hkc'
      exact (mem_remaining.mp (hi.listed p hwait kc' hin)).resolve_left fun h => hk h.1
    · rw [hother p hwait hne] at hkc'
      exact (mem_remaining.mp (hi.listed p hwait kc' hkc')).resolve_left fun h => hne h.2
  · intro kc' p hp
    obtain ⟨hwait, hpair⟩ := hi.ofListed kc' p (mem_remaining.mpr (.inr hp))
    change _ ∧ kc' ∈ (crossOff txns w kc a).waitingTxnsByTxnid _
    by_cases hne : p = a
    · subst hne
      have hk : kc' ≠ kc := by
        rintro rfl
        change p ∈ update w.waitingTxnsByKey kc' rest kc' at hp
        rw [update_self] at hp
        exact (List.nodup_cons.mp hnodup).1 hp
      have hin := (hmem_left kc').mpr ⟨hk, hpair⟩
      rw [hsame]
      exact ⟨hkept p hwait fun _ => List.ne_nil_of_mem hin, hin⟩
    · rw [hother p hwait hne]
      exact ⟨hkept p hwait fun h => absurd h hne, hpair⟩
  · intro kc'
    have h := hi.keyNodup kc'
    by_cases hk : kc' = kc
    · subst hk
      simp only [remaining, update_self]
      exact (List.nodup_cons.mp hnodup).2
    · simp only [remaining, update_of_ne hk] at h ⊢
      exact h
  · intro t
    have h := hi.idNodup t
    by_cases ht : t = (txns a).txnId
    · subst ht
      change ((crossOff txns w kc a).waitingTxnsByTxnid _).Nodup
      rw [hsame]
      exact h.erase _
    · simp only [remaining, crossOff, update_of_ne ht] at h ⊢
      exact h

/-- Popping those that do not wait changes nothing for the waiting ones. -/
theorem waiting_popReady {w : RemasterWaits} {origin : Nat} {p : Ptr} :
    Waiting txns (popReady w origin).1 p ↔ Waiting txns w p := by
  unfold Waiting
  by_cases ho : (txns p).originReplica = origin
  · subst ho
    constructor
    · rintro ⟨hp, hflag⟩
      refine ⟨?_, hflag⟩
      rw [← popReady_append]
      exact List.mem_append_right _ hp
    · rintro ⟨hp, hflag⟩
      refine ⟨?_, hflag⟩
      rw [← popReady_append] at hp
      refine (List.mem_append.mp hp).resolve_left fun hpop => ?_
      have hready := List.mem_takeWhile_imp hpop
      simp only [hflag, not_true_eq_false, decide_false] at hready
      exact Bool.false_ne_true hready
  · rw [popReady_other w ho]
    rfl

theorem MapsInv.popReady {w : RemasterWaits} (hi : MapsInv txns w) (origin : Nat) :
    MapsInv txns (popReady w origin).1 where
  filed := by
    intro r p hp
    by_cases hr : r = origin
    · subst hr
      refine hi.filed r p ?_
      rw [← popReady_append]
      exact List.mem_append_right _ hp
    · rw [popReady_other w hr] at hp
      exact hi.filed r p hp
  nodup := by
    intro r
    by_cases hr : r = origin
    · subst hr
      have h := hi.nodup r
      rw [← popReady_append] at h
      exact (List.nodup_append.mp h).2.1
    · rw [popReady_other w hr]
      exact hi.nodup r
  pairs := fun p hp => hi.pairs p (waiting_popReady.mp hp)
  listed := fun p hp => hi.listed p (waiting_popReady.mp hp)
  ofListed := fun kc p hp =>
    ⟨waiting_popReady.mpr (hi.ofListed kc p hp).1, (hi.ofListed kc p hp).2⟩
  ids := fun p q hp hq => hi.ids p q (waiting_popReady.mp hp) (waiting_popReady.mp hq)
  keyNodup := hi.keyNodup
  idNodup := hi.idNodup

/-- The flag of another transaction stays. -/
theorem crossOff_flag (txns : Ptr → TxnProto) (w : RemasterWaits) (kc : Key × Nat) {a p : Ptr}
    (hp : p = a → left txns w kc a ≠ []) :
    (crossOff txns w kc a).waitForRemasterPros p = w.waitForRemasterPros p := by
  by_cases hl : left txns w kc a = []
  · simp only [crossOff, hl, if_true, update_of_ne fun h => hp h hl]
  · simp only [crossOff, hl, if_false]

theorem WaitsInv.wakeOne {kc : Key × Nat} {w w' : RemasterWaits} {ready ready' : List Ptr}
    {a : Ptr} {rest : List Ptr} (hi : WaitsInv txns (remaining w kc (a :: rest)))
    (h : wakeOne txns kc (w, ready) a = some (w', ready')) :
    WaitsInv txns (remaining w' kc rest) := by
  rcases wakeOne_cases h with ⟨rfl, rfl, hhead⟩ | ⟨-, hhead, rfl, rfl⟩
  · refine ⟨hi.maps.cross, ?_⟩
    intro r p hp
    change (w.blockingTxns r).head? = some p at hp
    -- if `a` stops waiting, it is not the front of its queue
    have hflag := crossOff_flag txns w kc (a := a) (p := p) fun hpa hl => by
      subst hpa
      have hr := hi.maps.filed r p (List.mem_of_mem_head? hp)
      rw [← hr] at hp
      exact hhead hl hp
    exact hflag.trans (hi.front r p hp)
  · refine ⟨hi.maps.cross.popReady (txns a).originReplica, ?_⟩
    intro r p hp
    change ((RemasterWaits.popReady (crossOff txns w kc a) (txns a).originReplica).1.blockingTxns
      r).head? = some p at hp
    change (crossOff txns w kc a).waitForRemasterPros p = true
    by_cases hr : r = (txns a).originReplica
    · -- the pops stop at a transaction that waits
      subst hr
      simp only [RemasterWaits.popReady, update_self] at hp
      have hstop := List.head?_dropWhile_not
        (fun b => decide ¬(crossOff txns w kc a).waitForRemasterPros b = true)
        ((crossOff txns w kc a).blockingTxns (txns a).originReplica)
      rw [hp] at hstop
      simpa using hstop
    · rw [popReady_other _ hr] at hp
      refine (crossOff_flag _ _ _ fun hpa => ?_).trans (hi.front r p hp)
      subst hpa
      exact absurd (hi.maps.filed r p (List.mem_of_mem_head? hp)).symm hr

theorem WaitsInv.foldlM_wakeOne {kc : Key × Nat} (as : List Ptr) {w w' : RemasterWaits}
    {ready ready' : List Ptr} (hi : WaitsInv txns (remaining w kc as))
    (h : as.foldlM (RemasterWaits.wakeOne txns kc) (w, ready) = some (w', ready')) :
    WaitsInv txns (remaining w' kc []) := by
  induction as generalizing w ready with
  | nil =>
      cases h
      exact hi
  | cons a as ih =>
      rw [List.foldlM_cons, Option.bind_eq_bind, Option.bind_eq_some_iff] at h
      obtain ⟨⟨w₁, ready₁⟩, hone, hrest⟩ := h
      exact ih (hi.wakeOne hone) hrest

/-- The wake-up after a remaster keeps the maps in agreement. -/
theorem WaitsInv.wake {kc : Key × Nat} {w w' : RemasterWaits} {ready : List Ptr}
    (hi : WaitsInv txns w) (h : w.wake txns kc = some (w', ready)) : WaitsInv txns w' := by
  rw [RemasterWaits.wake, Option.map_eq_some_iff] at h
  obtain ⟨⟨w₁, ready₁⟩, hfold, heq⟩ := h
  obtain ⟨rfl, rfl⟩ := Prod.mk.inj heq
  refine WaitsInv.foldlM_wakeOne _ ?_ hfold
  rw [remaining, update_eq_self]
  exact hi

/-- A blocked transaction has a queue, so its round does not go wrong. -/
theorem exists_wakeOne (kc : Key × Nat) {w : RemasterWaits} (ready : List Ptr) {a : Ptr}
    (ha : a ∈ w.blockingTxns (txns a).originReplica) :
    ∃ w' ready', RemasterWaits.wakeOne txns kc (w, ready) a = some (w', ready') := by
  obtain ⟨front, rest, hq⟩ := List.exists_cons_of_ne_nil (List.ne_nil_of_mem ha)
  simp only [RemasterWaits.wakeOne]
  split
  · rw [hq]
    by_cases hf : front = a
    · exact ⟨_, _, if_pos hf⟩
    · exact ⟨_, _, if_neg hf⟩
  · exact ⟨_, _, rfl⟩

/-- A round for another transaction leaves a front and its pairs alone. -/
theorem WaitsInv.wakeOne_other {kc : Key × Nat} {w w' : RemasterWaits} {ready ready' : List Ptr}
    {a p : Ptr} {r : Nat} {rest : List Ptr} (hi : WaitsInv txns (remaining w kc (a :: rest)))
    (h : RemasterWaits.wakeOne txns kc (w, ready) a = some (w', ready'))
    (hp : (w.blockingTxns r).head? = some p) (hpa : p ≠ a) :
    (w'.blockingTxns r).head? = some p ∧
      w'.waitingTxnsByTxnid (txns p).txnId = w.waitingTxnsByTxnid (txns p).txnId := by
  have hpr : (txns p).originReplica = r := hi.maps.filed r p (List.mem_of_mem_head? hp)
  obtain ⟨hawait, -⟩ := hi.maps.ofListed kc a (mem_remaining.mpr (.inl ⟨rfl, rfl⟩))
  have hpwait : Waiting txns w p :=
    ⟨hpr ▸ List.mem_of_mem_head? hp, hi.front r p hp⟩
  have hid : (txns p).txnId ≠ (txns a).txnId := fun h => hpa (hi.maps.ids p a hpwait hawait h)
  have hpairs : (crossOff txns w kc a).waitingTxnsByTxnid (txns p).txnId =
      w.waitingTxnsByTxnid (txns p).txnId := by
    simp only [crossOff, update_of_ne hid]
  rcases wakeOne_cases h with ⟨rfl, -, -⟩ | ⟨-, hhead, rfl, -⟩
  · exact ⟨hp, hpairs⟩
  · refine ⟨?_, hpairs⟩
    have hr : r ≠ (txns a).originReplica := by
      rintro rfl
      exact hpa (Option.some.inj (hp.symm.trans hhead))
    rw [popReady_other _ hr]
    exact hp

/-- The round for a front crosses the pair off, and pops it if it was the
last. -/
theorem wakeOne_front {kc : Key × Nat} {w w' : RemasterWaits} {ready ready' : List Ptr}
    {p : Ptr} (h : RemasterWaits.wakeOne txns kc (w, ready) p = some (w', ready'))
    (hp : (w.blockingTxns (txns p).originReplica).head? = some p) :
    (left txns w kc p = [] → p ∈ ready') ∧
      (left txns w kc p ≠ [] →
        (w'.blockingTxns (txns p).originReplica).head? = some p ∧
          w'.waitingTxnsByTxnid (txns p).txnId = left txns w kc p) := by
  rcases wakeOne_cases h with ⟨rfl, -, hhead⟩ | ⟨hl, -, -, rfl⟩
  · refine ⟨fun hl => absurd hp (hhead hl), fun _ => ⟨hp, ?_⟩⟩
    simp only [crossOff, update_self]
  · refine ⟨fun _ => List.mem_append_right _ ?_, fun h => absurd hl h⟩
    obtain ⟨rest, hq⟩ := List.head?_eq_some_iff.mp hp
    simp only [RemasterWaits.popReady, crossOff, hl, if_true, hq, List.takeWhile_cons, update_self,
      Bool.false_eq_true, not_false_eq_true, decide_true, List.mem_cons_self]

/-- A wake-up can only add to what is ready. -/
theorem wakeOne_ready {kc : Key × Nat} {w w' : RemasterWaits} {ready ready' : List Ptr} {a : Ptr}
    (h : RemasterWaits.wakeOne txns kc (w, ready) a = some (w', ready')) {p : Ptr}
    (hp : p ∈ ready) : p ∈ ready' := by
  rcases wakeOne_cases h with ⟨-, rfl, -⟩ | ⟨-, -, -, rfl⟩
  · exact hp
  · exact List.mem_append_left _ hp

/-- After the loop: what was ready stays ready, a front that is not listed
stays, and a front that is listed has its pair crossed off or is ready. -/
theorem WaitsInv.foldlM_front {kc : Key × Nat} (as : List Ptr) {w : RemasterWaits}
    (ready : List Ptr) (hi : WaitsInv txns (remaining w kc as)) :
    ∃ w' ready', as.foldlM (RemasterWaits.wakeOne txns kc) (w, ready) = some (w', ready') ∧
      (∀ p ∈ ready, p ∈ ready') ∧
      ∀ p, (w.blockingTxns (txns p).originReplica).head? = some p →
        (p ∉ as → (w'.blockingTxns (txns p).originReplica).head? = some p ∧
          w'.waitingTxnsByTxnid (txns p).txnId = w.waitingTxnsByTxnid (txns p).txnId) ∧
        (p ∈ as → (left txns w kc p = [] → p ∈ ready') ∧
          (left txns w kc p ≠ [] →
            (w'.blockingTxns (txns p).originReplica).head? = some p ∧
              w'.waitingTxnsByTxnid (txns p).txnId = left txns w kc p)) := by
  induction as generalizing w ready with
  | nil =>
      refine ⟨w, ready, rfl, fun p hp => hp, fun p hp => ⟨fun _ => ⟨hp, rfl⟩, fun h => ?_⟩⟩
      exact absurd h List.not_mem_nil
  | cons a as ih =>
      obtain ⟨hawait, -⟩ := hi.maps.ofListed kc a (mem_remaining.mpr (.inl ⟨rfl, rfl⟩))
      have hnodup : (a :: as).Nodup := by
        have h := hi.maps.keyNodup kc
        simpa only [remaining, update_self] using h
      have hblocked : a ∈ w.blockingTxns (txns a).originReplica := hawait.1
      obtain ⟨w₁, ready₁, hone⟩ := exists_wakeOne kc ready hblocked
      obtain ⟨w', ready', hrest, hready, hfront⟩ := ih ready₁ (hi.wakeOne hone)
      refine ⟨w', ready', ?_, fun p hp => hready p (wakeOne_ready hone hp), fun p hp => ?_⟩
      · rw [List.foldlM_cons, Option.bind_eq_bind, hone, Option.bind_some]
        exact hrest
      · by_cases hpa : p = a
        · subst hpa
          obtain ⟨hlast, hmore⟩ := wakeOne_front hone hp
          refine ⟨fun h => absurd List.mem_cons_self h, fun _ => ⟨fun hl => ?_, fun hl => ?_⟩⟩
          · exact hready p (hlast hl)
          · -- the later rounds are for other transactions
            obtain ⟨hp₁, hpairs₁⟩ := hmore hl
            obtain ⟨hp', hpairs'⟩ := (hfront p hp₁).1 (List.nodup_cons.mp hnodup).1
            exact ⟨hp', hpairs'.trans hpairs₁⟩
        · obtain ⟨hp₁, hpairs₁⟩ := hi.wakeOne_other hone hp hpa
          obtain ⟨hout, hin⟩ := hfront p hp₁
          have hleft : left txns w₁ kc p = left txns w kc p := by
            rw [left, left, hpairs₁]
          refine ⟨fun h => ?_, fun h => ?_⟩
          · obtain ⟨hp', hpairs'⟩ := hout fun h' => h (List.mem_cons_of_mem _ h')
            exact ⟨hp', hpairs'.trans hpairs₁⟩
          · have hmem := (List.mem_cons.mp h).resolve_left hpa
            rw [hleft] at hin
            exact hin hmem

/-- A finished remaster that a front waits for is crossed off, and the last one
takes the front out of its queue. -/
theorem WaitsInv.wake_front {w : RemasterWaits} (hi : WaitsInv txns w) {r : Nat} {p : Ptr}
    (hp : (w.blockingTxns r).head? = some p) {kc : Key × Nat}
    (hkc : kc ∈ w.waitingTxnsByTxnid (txns p).txnId) :
    ∃ w' ready, w.wake txns kc = some (w', ready) ∧
      (left txns w kc p = [] → p ∈ ready) ∧
      (left txns w kc p ≠ [] → (w'.blockingTxns r).head? = some p ∧
        w'.waitingTxnsByTxnid (txns p).txnId = left txns w kc p) := by
  have hpr : (txns p).originReplica = r := hi.maps.filed r p (List.mem_of_mem_head? hp)
  subst hpr
  have hwait : Waiting txns w p := ⟨List.mem_of_mem_head? hp, hi.front _ p hp⟩
  have hi' : WaitsInv txns (remaining w kc (w.waitingTxnsByKey kc)) := by
    rw [remaining, update_eq_self]
    exact hi
  obtain ⟨w₁, ready, hfold, -, hfront⟩ := WaitsInv.foldlM_front _ [] hi'
  obtain ⟨hlast, hmore⟩ := (hfront p hp).2 (hi.maps.listed p hwait kc hkc)
  refine ⟨{ w₁ with waitingTxnsByKey := update w₁.waitingTxnsByKey kc [] }, ready, ?_, hlast, hmore⟩
  rw [RemasterWaits.wake, hfold]
  rfl

/-- A wake-up for `kc` clears the flags of those listed under `kc` only. -/
theorem flag_wake {kc : Key × Nat} {w w' : RemasterWaits} {ready : List Ptr}
    (h : w.wake txns kc = some (w', ready)) {p : Ptr} (hp : p ∉ w.waitingTxnsByKey kc) :
    w'.waitForRemasterPros p = w.waitForRemasterPros p := by
  rw [RemasterWaits.wake, Option.map_eq_some_iff] at h
  obtain ⟨⟨w₁, ready₁⟩, hfold, heq⟩ := h
  obtain ⟨rfl, rfl⟩ := Prod.mk.inj heq
  change w₁.waitForRemasterPros p = w.waitForRemasterPros p
  have hfold' : ∀ (as : List Ptr) (w : RemasterWaits) (ready : List Ptr), p ∉ as →
      as.foldlM (RemasterWaits.wakeOne txns kc) (w, ready) = some (w₁, ready₁) →
      w₁.waitForRemasterPros p = w.waitForRemasterPros p := by
    intro as
    induction as with
    | nil =>
        intro w ready _ h
        cases h
        rfl
    | cons a as ih =>
        intro w ready hp h
        have hpa : p ≠ a := fun h => hp (h ▸ List.mem_cons_self)
        have hpas : p ∉ as := fun h => hp (List.mem_cons_of_mem _ h)
        rw [List.foldlM_cons, Option.bind_eq_bind, Option.bind_eq_some_iff] at h
        obtain ⟨⟨w₂, ready₂⟩, hone, hrest⟩ := h
        have hflag := crossOff_flag txns w kc (a := a) (p := p)
          fun h => absurd h hpa
        rw [ih w₂ ready₂ hpas hrest, ← hflag]
        rcases wakeOne_cases hone with ⟨rfl, -, -⟩ | ⟨-, -, rfl, -⟩
        · rfl
        · rfl
  exact hfold' _ w [] hp hfold

/-! ## Blocking a transaction -/

theorem mem_listUnder {p q : Ptr} {keys : List (Key × Nat)} {byKey : Key × Nat → List Ptr}
    {kc : Key × Nat} :
    q ∈ listUnder p byKey keys kc ↔ q ∈ byKey kc ∨ (q = p ∧ kc ∈ keys) := by
  induction keys generalizing byKey with
  | nil => simp [listUnder]
  | cons k keys ih =>
      have hstep : listUnder p byKey (k :: keys) =
          listUnder p (update byKey k (byKey k ++ [p])) keys := rfl
      rw [hstep, ih]
      by_cases hk : kc = k
      · subst hk
        simp only [update_self, List.mem_append, List.mem_cons]
        tauto
      · simp only [update_of_ne hk, List.mem_cons, hk, false_or]

theorem nodup_listUnder {p : Ptr} {keys : List (Key × Nat)} (hkeys : keys.Nodup)
    {byKey : Key × Nat → List Ptr} (hb : ∀ kc, (byKey kc).Nodup)
    (hp : ∀ kc ∈ keys, p ∉ byKey kc) (kc : Key × Nat) : (listUnder p byKey keys kc).Nodup := by
  induction keys generalizing byKey with
  | nil => exact hb kc
  | cons k keys ih =>
      have hstep : listUnder p byKey (k :: keys) =
          listUnder p (update byKey k (byKey k ++ [p])) keys := rfl
      obtain ⟨hk, hkeys'⟩ := List.nodup_cons.mp hkeys
      rw [hstep]
      refine ih hkeys' ?_ ?_
      · intro kc'
        by_cases h : kc' = k
        · subst h
          rw [update_self]
          exact (hb kc').append (List.nodup_singleton p) fun a ha hap =>
            hp kc' List.mem_cons_self (List.mem_singleton.mp hap ▸ ha)
        · rw [update_of_ne h]
          exact hb kc'
      · intro kc' hkc'
        have h : kc' ≠ k := fun h => hk (h ▸ hkc')
        rw [update_of_ne h]
        exact hp kc' (List.mem_cons_of_mem _ hkc')

/-- A transaction that is nowhere in the queues. -/
def Fresh (w : RemasterWaits) (p : Ptr) : Prop := ∀ r, p ∉ w.blockingTxns r

theorem mem_block {w : RemasterWaits} {p q : Ptr} {r : Nat} :
    q ∈ (block txns w p).blockingTxns r ↔
      q ∈ w.blockingTxns r ∨ (q = p ∧ r = (txns p).originReplica) := by
  by_cases hr : r = (txns p).originReplica
  · subst hr
    simp only [block, update_self, List.mem_append, List.mem_singleton, and_true]
  · simp only [block, update_of_ne hr, hr, and_false, or_false]

theorem filed_block {w : RemasterWaits} {p : Ptr} (h : Filed txns w) :
    Filed txns (block txns w p) := by
  intro r q hq
  rcases mem_block.mp hq with hq | ⟨rfl, rfl⟩
  · exact h r q hq
  · rfl

theorem nodup_block {w : RemasterWaits} {p : Ptr} (h : ∀ r, (w.blockingTxns r).Nodup)
    (hp : Fresh w p) (r : Nat) : ((block txns w p).blockingTxns r).Nodup := by
  by_cases hr : r = (txns p).originReplica
  · subst hr
    simp only [block, update_self]
    exact (h _).append (List.nodup_singleton p) fun a ha hap =>
      hp _ (List.mem_singleton.mp hap ▸ ha)
  · simp only [block, update_of_ne hr]
    exact h r

/-- A new transaction that waits: no other one with its id may wait already. -/
theorem WaitsInv.putToWait {w : RemasterWaits} {p : Ptr} {keys : List (Key × Nat)}
    (hi : WaitsInv txns w) (hp : Fresh w p) (hid : w.waitingTxnsByTxnid (txns p).txnId = [])
    (hne : keys ≠ []) (hkeys : keys.Nodup) : WaitsInv txns (w.putToWait txns p keys) := by
  -- the others have other ids, and their flags stay
  have hold : ∀ q, Waiting txns (w.putToWait txns p keys) q → q = p ∨
      (q ≠ p ∧ (txns q).txnId ≠ (txns p).txnId ∧ Waiting txns w q) := by
    rintro q ⟨hq, hflag⟩
    by_cases hqp : q = p
    · exact .inl hqp
    · simp only [RemasterWaits.putToWait, update_of_ne hqp] at hflag
      have hq' := (mem_block.mp hq).resolve_right fun h => hqp h.1
      exact .inr ⟨hqp, fun h => hi.maps.pairs q ⟨hq', hflag⟩ (h ▸ hid), hq', hflag⟩
  have hnew : Waiting txns (w.putToWait txns p keys) p :=
    ⟨mem_block.mpr (.inr ⟨rfl, rfl⟩), by simp only [RemasterWaits.putToWait, update_self]⟩
  have hnewIds : (w.putToWait txns p keys).waitingTxnsByTxnid (txns p).txnId = keys := by
    simp only [RemasterWaits.putToWait, update_self]
  have holdIds : ∀ t, t ≠ (txns p).txnId →
      (w.putToWait txns p keys).waitingTxnsByTxnid t = w.waitingTxnsByTxnid t := by
    intro t ht
    simp only [RemasterWaits.putToWait, update_of_ne ht]
  have hunlisted : ∀ kc, p ∉ w.waitingTxnsByKey kc := fun kc h =>
    hp _ (hi.maps.ofListed kc p h).1.1
  have hmaps : MapsInv txns (w.putToWait txns p keys) := by
    refine
      { filed := filed_block hi.maps.filed
        nodup := nodup_block hi.maps.nodup hp
        pairs := ?_
        listed := ?_
        ofListed := ?_
        ids := ?_
        keyNodup := nodup_listUnder hkeys hi.maps.keyNodup fun kc _ => hunlisted kc
        idNodup := ?_ }
    · intro q hq
      rcases hold q hq with rfl | ⟨-, hids, hwait⟩
      · rw [hnewIds]
        exact hne
      · rw [holdIds _ hids]
        exact hi.maps.pairs q hwait
    · intro q hq kc hkc
      rcases hold q hq with rfl | ⟨-, hids, hwait⟩
      · rw [hnewIds] at hkc
        exact mem_listUnder.mpr (.inr ⟨rfl, hkc⟩)
      · rw [holdIds _ hids] at hkc
        exact mem_listUnder.mpr (.inl (hi.maps.listed q hwait kc hkc))
    · intro kc q hq
      rcases mem_listUnder.mp hq with hq | ⟨rfl, hkc⟩
      · obtain ⟨hwait, hpair⟩ := hi.maps.ofListed kc q hq
        have hqp : q ≠ p := fun h => hunlisted kc (h ▸ hq)
        have hids : (txns q).txnId ≠ (txns p).txnId := fun h =>
          hi.maps.pairs q hwait (h ▸ hid)
        refine ⟨⟨mem_block.mpr (.inl hwait.1), ?_⟩, ?_⟩
        · simp only [RemasterWaits.putToWait, update_of_ne hqp]
          exact hwait.2
        · rw [holdIds _ hids]
          exact hpair
      · exact ⟨hnew, by rw [hnewIds]; exact hkc⟩
    · intro q q' hq hq' heq
      rcases hold q hq with rfl | ⟨-, hids, hwait⟩
      · rcases hold q' hq' with rfl | ⟨-, hids', -⟩
        · rfl
        · exact absurd heq.symm hids'
      · rcases hold q' hq' with rfl | ⟨-, -, hwait'⟩
        · exact absurd heq hids
        · exact hi.maps.ids q q' hwait hwait' heq
    · intro t
      by_cases ht : t = (txns p).txnId
      · subst ht
        rw [hnewIds]
        exact hkeys
      · rw [holdIds _ ht]
        exact hi.maps.idNodup t
  refine ⟨hmaps, ?_⟩
  intro r q hq
  by_cases hqp : q = p
  · rw [hqp]
    exact hnew.2
  · -- a front that is not new was the front before
    have hq' : (w.blockingTxns r).head? = some q := by
      change ((block txns w p).blockingTxns r).head? = some q at hq
      by_cases hr : r = (txns p).originReplica
      · subst hr
        simp only [block, update_self, List.head?_append, List.head?_cons, Option.or_some] at hq
        cases hh : (w.blockingTxns (txns p).originReplica).head? with
        | none => rw [hh] at hq; exact absurd (Option.some.inj hq).symm hqp
        | some x => rw [hh] at hq; exact hq
      · simpa only [block, update_of_ne hr] using hq
    have hflag : (w.putToWait txns p keys).waitForRemasterPros q = w.waitForRemasterPros q := by
      simp only [RemasterWaits.putToWait, update_of_ne hqp]
    rw [hflag]
    exact hi.front r q hq'

/-- A new transaction behind others: it does not wait itself. -/
theorem WaitsInv.block {w : RemasterWaits} {p : Ptr} (hi : WaitsInv txns w) (hp : Fresh w p)
    (hflag : w.waitForRemasterPros p = false)
    (hbehind : w.blockingTxns (txns p).originReplica ≠ []) :
    WaitsInv txns (w.block txns p) := by
  have hwait : ∀ q, Waiting txns (w.block txns p) q ↔ Waiting txns w q := by
    intro q
    constructor
    · rintro ⟨hq, hf⟩
      refine ⟨(mem_block.mp hq).resolve_right ?_, hf⟩
      rintro ⟨rfl, -⟩
      exact Bool.false_ne_true (hflag.symm.trans hf)
    · rintro ⟨hq, hf⟩
      exact ⟨mem_block.mpr (.inl hq), hf⟩
  refine ⟨?_, ?_⟩
  · exact
      { filed := filed_block hi.maps.filed
        nodup := nodup_block hi.maps.nodup hp
        pairs := fun q hq => hi.maps.pairs q ((hwait q).mp hq)
        listed := fun q hq => hi.maps.listed q ((hwait q).mp hq)
        ofListed := fun kc q hq =>
          ⟨(hwait q).mpr (hi.maps.ofListed kc q hq).1, (hi.maps.ofListed kc q hq).2⟩
        ids := fun q q' hq hq' => hi.maps.ids q q' ((hwait q).mp hq) ((hwait q').mp hq')
        keyNodup := hi.maps.keyNodup
        idNodup := hi.maps.idNodup }
  · intro r q hq
    refine hi.front r q ?_
    by_cases hr : r = (txns p).originReplica
    · subst hr
      obtain ⟨x, rest, hx⟩ := List.exists_cons_of_ne_nil hbehind
      simp only [RemasterWaits.block, update_self, hx, List.cons_append, List.head?_cons] at hq ⊢
      exact hq
    · simpa only [RemasterWaits.block, update_of_ne hr] using hq

end Calvin.RemasterWaits
