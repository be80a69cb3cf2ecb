import Calvin.Scheduler.LockQueues

/-!
# The lock manager's invariant

The invariant that ties the wait counts and the pushed transactions to the
queues. `GrantInv` is about the transactions that are `live`, so that those may
be left out that are released before all their locks are granted; with all of
them live, and only pushed ones released, it is `LockInv`.

* `GrantInv.lock`, `GrantInv.release`: `Lock` and `Release` keep it;
* `LockInv.lock`, `LockInv.release`: the same for `LockInv`;
* `LockInv.safe`: a pushed transaction runs alone: those locked before it that
  conflict with it on a key have released the key.
-/

namespace Calvin.LockManager

open Function Lib Lib.LockQueue

/-- The queues, the wait counts and the pushed transactions fit together:
`pushed` lists the transactions pushed so far, and `freed` the keys each
transaction has released. -/
structure LockInv (asks : Ptr → List (Key × LockMode)) (locked pushed : List Ptr)
    (freed : Ptr → List Key) (lm : LockManager) : Prop extends QueueInv asks locked lm where
  pushedNodup : pushed.Nodup
  pushedLocked : ∀ p ∈ pushed, p ∈ locked
  /-- A request stands in its queue until it is released. -/
  held : ∀ p ∈ locked, ∀ a ∈ asks p, a.1 ∉ freed p → ⟨a.2, p⟩ ∈ lm.queue a.1
  gone : ∀ p, ∀ k ∈ freed p, p ∉ owners (lm.queue k)
  waits : ∀ p, lm.txnWaits p =
    if lm.missing asks p = 0 then none else some (lm.missing asks p : Int)
  pushedIff : ∀ p ∈ locked, p ∈ pushed ↔ lm.missing asks p = 0
  freedPushed : ∀ p, freed p ≠ [] → p ∈ pushed
  /-- What conflicts with a pushed transaction and was locked before it has
  released the key. -/
  safe : ∀ p ∈ pushed, ∀ q, Before locked q p → ∀ a ∈ asks p, ∀ b ∈ asks q, a.1 = b.1 →
    Conflict a.2 b.2 → q ∉ owners (lm.queue a.1)

theorem lockInv_init (asks : Ptr → List (Key × LockMode)) :
    LockInv asks [] [] (fun _ => []) {} where
  lockedNodup := List.nodup_nil
  ordered _ := List.Pairwise.nil
  asked _ _ h := (List.not_mem_nil h).elim
  pushedNodup := List.nodup_nil
  pushedLocked _ h := (List.not_mem_nil h).elim
  held _ h := (List.not_mem_nil h).elim
  gone _ _ h := (List.not_mem_nil h).elim
  waits p := by
    have hzero : missing {} asks p = 0 :=
      List.countP_eq_zero.mpr fun _ _ => by simp [queue, ungranted]
    rw [hzero]
    rfl
  pushedIff _ h := (List.not_mem_nil h).elim
  freedPushed _ h := absurd rfl h
  safe _ h := (List.not_mem_nil h).elim

/-- The part of the invariant about what is `live`: `pushed` lists the
transactions pushed so far, and `freed` the keys each transaction has released. -/
structure GrantInv (asks : Ptr → List (Key × LockMode)) (live : Ptr → Prop)
    (locked pushed : List Ptr) (freed : Ptr → List Key) (lm : LockManager) : Prop
    extends QueueInv asks locked lm where
  pushedNodup : pushed.Nodup
  pushedLocked : ∀ p ∈ pushed, p ∈ locked
  /-- A request stands in its queue until it is released. -/
  held : ∀ p ∈ locked, ∀ a ∈ asks p, a.1 ∉ freed p → ⟨a.2, p⟩ ∈ lm.queue a.1
  gone : ∀ p, ∀ k ∈ freed p, p ∉ owners (lm.queue k)
  waits : ∀ p, live p → lm.txnWaits p =
    if lm.missing asks p = 0 then none else some (lm.missing asks p : Int)
  pushedIff : ∀ p ∈ locked, live p → (p ∈ pushed ↔ lm.missing asks p = 0)
  freedLocked : ∀ p, freed p ≠ [] → p ∈ locked
  freedPushed : ∀ p, live p → freed p ≠ [] → p ∈ pushed
  /-- What conflicts with a pushed transaction and was locked before it has
  released the key. -/
  safe : ∀ p ∈ pushed, ∀ q, Before locked q p → ∀ a ∈ asks p, ∀ b ∈ asks q, a.1 = b.1 →
    Conflict a.2 b.2 → q ∉ owners (lm.queue a.1)

namespace GrantInv

variable {asks : Ptr → List (Key × LockMode)} {live : Ptr → Prop} {locked pushed : List Ptr}
  {freed : Ptr → List Key} {lm : LockManager}

/-- Less may be live. -/
theorem mono {live' : Ptr → Prop} (hi : GrantInv asks live locked pushed freed lm)
    (h : ∀ p, live' p → live p) : GrantInv asks live' locked pushed freed lm :=
  { hi with
    waits := fun p hp => hi.waits p (h p hp)
    pushedIff := fun p hpl hp => hi.pushedIff p hpl (h p hp)
    freedPushed := fun p hp => hi.freedPushed p (h p hp) }

/-- `Lock` keeps the invariant; what it pushes are the transaction itself or
nothing. -/
theorem lock {cfg : ClusterConfig} {mode : Nat} {p : Ptr} {txn : TxnProto}
    (hi : GrantInv asks live locked pushed freed lm) (hkeys : ∀ p, ((asks p).map Prod.fst).Nodup)
    (hasks : asks p = lockRequests cfg mode txn) (hp : p ∉ locked) :
    GrantInv asks live (locked ++ [p]) (pushed ++ (lm.lock cfg mode p txn).2) freed
      (lm.lock cfg mode p txn).1 := by
  cases hlock : lm.lock cfg mode p txn with
  | mk lm' out =>
  obtain ⟨hreq, hw, hout⟩ := hi.toQueueInv.lock (hkeys p) hasks hp hlock
  have hpushed : p ∉ pushed := fun h => hp (hi.pushedLocked p h)
  have hfreed : freed p = [] := by
    by_contra h
    exact hp (hi.freedLocked p h)
  have hlast : ∀ q ∈ locked, q ≠ p := fun q hq h => hp (h ▸ hq)
  have hmemOut : ∀ q, q ∈ out ↔ q = p ∧ lm'.missing asks p = 0 := fun q => by
    rw [hout]
    by_cases hz : lm'.missing asks p = 0
    · rw [if_pos hz]
      simp [hz]
    · rw [if_neg hz]
      simp [hz]
  have hnodupOut : out.Nodup := by
    rw [hout]
    split
    · exact List.nodup_singleton p
    · exact List.nodup_nil
  refine ⟨hreq.queues, ?_, ?_, ?_, ?_, ?_, ?_, ?_, ?_, ?_⟩
  · refine List.nodup_append.mpr ⟨hi.pushedNodup, hnodupOut, fun a ha b hb => ?_⟩
    rw [((hmemOut b).mp hb).1]
    exact hlast a (hi.pushedLocked a ha)
  · intro q hq
    rcases List.mem_append.mp hq with hq | hq
    · exact List.mem_append_left _ (hi.pushedLocked q hq)
    · rw [((hmemOut q).mp hq).1]
      simp
  · intro q hql a ha hfree
    rcases List.mem_append.mp hql with hql | hql
    · exact hreq.kept _ _ (hi.held q hql a ha hfree)
    · rw [List.mem_singleton.mp hql] at ha ⊢
      exact hreq.stands a ha
  · intro q k hk hmem
    have hqp : q ≠ p := fun h => by
      rw [h, hfreed] at hk
      cases hk
    exact hi.gone q k hk (hreq.others k q hqp hmem)
  · intro q hlive
    rw [hw]
    by_cases hz : lm'.missing asks p = 0
    · rw [if_pos hz]
      by_cases hqp : q = p
      · subst hqp
        rw [if_pos hz, hi.waits q hlive,
          if_pos (QueueInv.missing_eq_zero (hi.not_owner hp))]
      · rw [hreq.missing q hqp]
        exact hi.waits q hlive
    · rw [if_neg hz]
      by_cases hqp : q = p
      · subst hqp
        rw [update_self, if_neg hz]
      · rw [update_of_ne hqp, hreq.missing q hqp]
        exact hi.waits q hlive
  · intro q hql hlive
    rcases List.mem_append.mp hql with hql | hql
    · rw [hreq.missing q (hlast q hql), ← hi.pushedIff q hql hlive, List.mem_append, hmemOut]
      simp [hlast q hql]
    · rw [List.mem_singleton.mp hql, List.mem_append, hmemOut]
      simp [hpushed]
  · intro q h
    exact List.mem_append_left _ (hi.freedLocked q h)
  · intro q hlive h
    exact List.mem_append_left _ (hi.freedPushed q hlive h)
  · intro x hx q hbefore a ha b hb hab hconf hmem
    rcases List.mem_append.mp hx with hx | hx
    · have hxl := hi.pushedLocked x hx
      have hql : q ∈ locked ++ [p] := by
        obtain ⟨r, hr, rfl⟩ := mem_owners.mp hmem
        exact (hreq.queues.asked _ r hr).1
      rcases List.mem_append.mp hql with hql | hql
      · exact hi.safe x hx q ((before_concat hql hxl).mp hbefore) a ha b hb hab hconf
          (hreq.others _ q (hlast q hql) hmem)
      · rw [List.mem_singleton.mp hql] at hbefore
        exact hbefore.asymm (before_last hxl hp)
    · -- pushed by this call: it misses nothing
      obtain ⟨rfl, hzero⟩ := (hmemOut x).mp hx
      exact hreq.queues.alone hkeys hzero hbefore ha hb hab hconf
        (mem_owners.mpr ⟨_, hreq.stands a ha, rfl⟩) hmem

/-- `Release` of one key is defined and keeps the invariant. A live transaction
that releases has been pushed; what is not live has left the queues, but for the
one that releases. -/
theorem releaseKey {p : Ptr} {a : Key × LockMode}
    (hi : GrantInv asks live locked pushed freed lm) (hkeys : ∀ p, ((asks p).map Prod.fst).Nodup)
    (hp : p ∈ locked) (hpushed : live p → p ∈ pushed)
    (hleft : ∀ q, q ≠ p → ¬ live q → ∀ k, q ∉ owners (lm.queue k)) (ha : a ∈ asks p)
    (hfree : a.1 ∉ freed p) :
    ∃ lm' out, lm.releaseKey a.1 p = some (lm', out) ∧
      GrantInv asks live locked (pushed ++ out) (update freed p (a.1 :: freed p)) lm' ∧
      (∀ q ∈ out, live q) ∧ ∀ k q, q ∈ owners (lm'.queue k) → q ∈ owners (lm.queue k) := by
  obtain ⟨lm', ns, hrel, hwaits, hh⟩ := hi.toQueueInv.releaseKey hkeys (hi.held p hp a ha hfree)
  have hsubo : ∀ k q, q ∈ owners (lm'.queue k) → q ∈ owners (lm.queue k) := fun k q h => by
    obtain ⟨r, hr, hrq⟩ := mem_owners.mp h
    exact mem_owners.mpr ⟨r, hh.sub k r hr, hrq⟩
  -- whoever is granted a lock is live, locked, and not pushed yet
  have hmiss : ∀ q ∈ ns, lm.missing asks q ≠ 0 := fun q hq => by
    rw [hh.missingGranted q hq]
    omega
  have hnsp : ∀ q ∈ ns, q ≠ p := fun q hq h => hh.grantedOther (h ▸ hq)
  have hnsLive : ∀ q ∈ ns, live q := fun q hq => by
    by_contra hnot
    exact hmiss q hq (QueueInv.missing_eq_zero (hleft q (hnsp q hq) hnot))
  have hnsLocked : ∀ q ∈ ns, q ∈ locked := fun q hq => hi.mem_locked_of_missing (hmiss q hq)
  have hnotPushed : ∀ q ∈ ns, q ∉ pushed := fun q hq h =>
    hmiss q hq ((hi.pushedIff q (hnsLocked q hq) (hnsLive q hq)).mp h)
  obtain ⟨hgrant, hout⟩ := grant_spec ns lm.txnWaits hh.grantedNodup
  have hcount : ∀ q ∈ ns, (lm.txnWaits q).getD 0 - 1 = (lm'.missing asks q : Int) := fun q hq => by
    rw [hi.waits q (hnsLive q hq), if_neg (hmiss q hq), Option.getD_some, hh.missingGranted q hq]
    omega
  have houtMem : ∀ q, q ∈ (grant lm.txnWaits ns).2 ↔ q ∈ ns ∧ lm'.missing asks q = 0 := fun q => by
    rw [hout, List.mem_filter]
    refine and_congr_right fun hq => ?_
    rw [decide_eq_true_eq, hcount q hq]
    omega
  have hothers : ∀ q ∈ locked, live q → q ∉ ns → lm'.missing asks q = lm.missing asks q :=
    fun q hql hlive hq => by
      by_cases hqp : q = p
      · have hzero := (hi.pushedIff q hql hlive).mp (by rw [hqp]; exact hpushed (hqp ▸ hlive))
        have hself := hh.missingSelf
        rw [← hqp, hzero] at hself
        omega
      · exact hh.missingOther q hq hqp
  have hunlocked : ∀ q, q ∉ locked → lm.missing asks q = 0 ∧ lm'.missing asks q = 0 :=
    fun q hq => ⟨QueueInv.missing_eq_zero (hi.not_owner hq),
      QueueInv.missing_eq_zero (hh.queues.not_owner hq)⟩
  refine ⟨lm', _, hrel, ⟨hh.queues, ?_, ?_, ?_, ?_, ?_, ?_, ?_, ?_, ?_⟩,
    fun q hq => hnsLive q ((houtMem q).mp hq).1, hsubo⟩
  · refine List.nodup_append.mpr ⟨hi.pushedNodup, ?_, fun x hx y hy hxy => ?_⟩
    · rw [hout]
      exact hh.grantedNodup.filter _
    · exact hnotPushed y ((houtMem y).mp hy).1 (hxy ▸ hx)
  · intro q hq
    rcases List.mem_append.mp hq with hq | hq
    · exact hi.pushedLocked q hq
    · exact hnsLocked q ((houtMem q).mp hq).1
  · intro q hql b hb hfreeb
    by_cases hqp : q = p
    · subst hqp
      rw [update_self, List.mem_cons, not_or] at hfreeb
      exact hh.kept _ _ (hi.held q hql b hb hfreeb.2) (.inr fun h => hfreeb.1 h.symm)
    · rw [update_of_ne hqp] at hfreeb
      exact hh.kept _ _ (hi.held q hql b hb hfreeb) (.inl hqp)
  · intro q k hk
    by_cases hqp : q = p
    · subst hqp
      rw [update_self, List.mem_cons] at hk
      rcases hk with rfl | hk
      · exact hh.gone
      · exact fun h => hi.gone q k hk (hsubo k q h)
    · rw [update_of_ne hqp] at hk
      exact fun h => hi.gone q k hk (hsubo k q h)
  · intro q hlive
    rw [hwaits, hgrant]
    by_cases hq : q ∈ ns
    · rw [if_pos hq, hcount q hq]
      simp
    · rw [if_neg hq, hi.waits q hlive]
      by_cases hql : q ∈ locked
      · rw [hothers q hql hlive hq]
      · rw [(hunlocked q hql).1, (hunlocked q hql).2]
  · intro q hql hlive
    rw [List.mem_append, houtMem]
    by_cases hq : q ∈ ns
    · simp [hq, hnotPushed q hq]
    · rw [hothers q hql hlive hq]
      simp [hq, hi.pushedIff q hql hlive]
  · intro q h
    by_cases hqp : q = p
    · rwa [hqp]
    · rw [update_of_ne hqp] at h
      exact hi.freedLocked q h
  · intro q hlive h
    by_cases hqp : q = p
    · subst hqp
      exact List.mem_append_left _ (hpushed hlive)
    · rw [update_of_ne hqp] at h
      exact List.mem_append_left _ (hi.freedPushed q hlive h)
  · intro x hx q hbefore b hb c hc hbc hconf
    rcases List.mem_append.mp hx with hx | hx
    · exact fun h => hi.safe x hx q hbefore b hb c hc hbc hconf (hsubo _ _ h)
    · -- granted its last lock here, with all its requests still in their queues
      obtain ⟨hxns, hzero⟩ := (houtMem x).mp hx
      have hxfree : freed x = [] := by
        by_contra h
        exact hnotPushed x hxns (hi.freedPushed x (hnsLive x hxns) h)
      have hheld := hi.held x (hnsLocked x hxns) b hb (by rw [hxfree]; exact List.not_mem_nil)
      refine hh.queues.alone hkeys hzero hbefore hb hc hbc hconf ?_
      exact mem_owners.mpr ⟨_, hh.kept _ _ hheld (.inl (hnsp x hxns)), rfl⟩

/-- The loops of `Release` give back every key once. -/
theorem releaseEntries {cfg : ClusterConfig} {mode origin : Nat} {p : Ptr}
    (entries : List KeyEntry) (hi : GrantInv asks live locked pushed freed lm)
    (hkeys : ∀ p, ((asks p).map Prod.fst).Nodup) (hp : p ∈ locked) (hpushed : live p → p ∈ pushed)
    (hleft : ∀ q, q ≠ p → ¬ live q → ∀ k, q ∉ owners (lm.queue k))
    (hnodup : ((entries.filter (locks cfg mode origin)).map KeyEntry.key).Nodup)
    (hasked : ∀ e ∈ entries, locks cfg mode origin e = true → ∃ m, (e.key, m) ∈ asks p)
    (hfree : ∀ e ∈ entries, locks cfg mode origin e = true → e.key ∉ freed p) :
    ∃ lm' out freed', lm.releaseEntries cfg mode origin p entries = some (lm', out) ∧
      GrantInv asks live locked (pushed ++ out) freed' lm' ∧ (∀ q, q ≠ p → freed' q = freed q) ∧
      (∀ q ∈ out, live q) ∧ (∀ k q, q ∈ owners (lm'.queue k) → q ∈ owners (lm.queue k)) ∧
      (∀ k ∈ freed p, k ∈ freed' p) ∧
      ∀ e ∈ entries, locks cfg mode origin e = true → e.key ∈ freed' p := by
  induction entries generalizing lm pushed freed with
  | nil =>
      refine ⟨lm, [], freed, rfl, ?_, fun _ _ => rfl, fun _ h => ?_, fun _ _ h => h,
        fun _ h => h, fun _ h => ?_⟩
      · rwa [List.append_nil]
      · exact (List.not_mem_nil h).elim
      · exact (List.not_mem_nil h).elim
  | cons e rest ih =>
      have hasked' : ∀ e ∈ rest, locks cfg mode origin e = true → ∃ m, (e.key, m) ∈ asks p :=
        fun e he => hasked e (List.mem_cons_of_mem _ he)
      have hfree' : ∀ e ∈ rest, locks cfg mode origin e = true → e.key ∉ freed p :=
        fun e he => hfree e (List.mem_cons_of_mem _ he)
      by_cases he : locks cfg mode origin e = true
      · rw [List.filter_cons_of_pos he, List.map_cons, List.nodup_cons] at hnodup
        obtain ⟨m, hm⟩ := hasked e List.mem_cons_self he
        obtain ⟨lm₁, out₁, hrel, hi₁, hlive₁, hsub₁⟩ :=
          hi.releaseKey hkeys hp hpushed hleft hm (hfree e List.mem_cons_self he)
        obtain ⟨lm₂, out₂, freed₂, hrest, hi₂, hsame, hlive₂, hsub₂, hkept, hdone⟩ :=
          ih hi₁ (fun h => List.mem_append_left _ (hpushed h))
            (fun q hqp hlive k h => hleft q hqp hlive k (hsub₁ k q h)) hnodup.2 hasked'
            fun e' he' hl => by
              rw [update_self, List.mem_cons, not_or]
              refine ⟨fun h => hnodup.1 ?_, hfree' e' he' hl⟩
              exact List.mem_map.mpr ⟨e', List.mem_filter.mpr ⟨he', hl⟩, h⟩
        refine ⟨lm₂, out₁ ++ out₂, freed₂, ?_, ?_, fun q hq => ?_, fun q hq => ?_,
          fun k q h => ?_, fun k hk => ?_, ?_⟩
        · rw [LockManager.releaseEntries, if_pos he, hrel]
          simp [hrest]
        · rwa [← List.append_assoc]
        · rw [hsame q hq, update_of_ne hq]
        · exact (List.mem_append.mp hq).elim (hlive₁ q) (hlive₂ q)
        · exact hsub₁ k q (hsub₂ k q h)
        · exact hkept k (by rw [update_self]; exact List.mem_cons_of_mem _ hk)
        · intro e' he' hl
          rcases List.mem_cons.mp he' with rfl | he'
          · exact hkept _ (by rw [update_self]; exact List.mem_cons_self)
          · exact hdone e' he' hl
      · rw [List.filter_cons_of_neg he] at hnodup
        obtain ⟨lm', out, freed', hrest, hi', hsame, hlive, hsub, hkept, hdone⟩ :=
          ih hi hpushed hleft hnodup hasked' hfree'
        refine ⟨lm', out, freed', ?_, hi', hsame, hlive, hsub, hkept, fun e' he' hl => ?_⟩
        · rw [LockManager.releaseEntries, if_neg he]
          exact hrest
        · rcases List.mem_cons.mp he' with rfl | he'
          · exact absurd hl he
          · exact hdone e' he' hl

/-- `Release` by a transaction that has released nothing is defined, keeps the
invariant, and takes the transaction out of every queue. -/
theorem release {cfg : ClusterConfig} {mode : Nat} {p : Ptr} {txn : TxnProto}
    (hi : GrantInv asks live locked pushed freed lm) (hkeys : ∀ p, ((asks p).map Prod.fst).Nodup)
    (hasks : asks p = lockRequests cfg mode txn) (hp : p ∈ locked) (hpushed : live p → p ∈ pushed)
    (hleft : ∀ q, q ≠ p → ¬ live q → ∀ k, q ∉ owners (lm.queue k)) (hfree : freed p = []) :
    ∃ lm' out freed', lm.release cfg mode p txn = some (lm', out) ∧
      GrantInv asks live locked (pushed ++ out) freed' lm' ∧ (∀ q, q ≠ p → freed' q = freed q) ∧
      (∀ q ∈ out, live q) ∧ (∀ k q, q ∈ owners (lm'.queue k) → q ∈ owners (lm.queue k)) ∧
      ∀ k, p ∉ owners (lm'.queue k) := by
  have hmem : ∀ e ∈ txn.readSet ++ txn.readWriteSet,
      locks cfg mode txn.originReplica e = true → ∃ m, (e.key, m) ∈ asks p := by
    intro e he hl
    rw [hasks, lockRequests]
    rcases List.mem_append.mp he with he | he
    · exact ⟨.read, List.mem_append_right _
        (List.mem_map.mpr ⟨e, List.mem_filter.mpr ⟨he, hl⟩, rfl⟩)⟩
    · exact ⟨.write, List.mem_append_left _
        (List.mem_map.mpr ⟨e, List.mem_filter.mpr ⟨he, hl⟩, rfl⟩)⟩
  have hnodup : (((txn.readSet ++ txn.readWriteSet).filter
      (locks cfg mode txn.originReplica)).map KeyEntry.key).Nodup := by
    have h := hkeys p
    rw [hasks, lockRequests, List.map_append, List.map_map, List.map_map] at h
    rw [List.filter_append, List.map_append]
    exact List.nodup_append_comm.mp h
  obtain ⟨lm', out, freed', hrel, hi', hsame, hlive, hsub, -, hdone⟩ :=
    hi.releaseEntries _ hkeys hp hpushed hleft hnodup hmem fun e _ _ => by
      rw [hfree]
      exact List.not_mem_nil
  refine ⟨lm', out, freed', hrel, hi', hsame, hlive, hsub, fun k hk => ?_⟩
  obtain ⟨m, hm⟩ := hi'.mem_asks_of_owner hk
  rw [hasks, lockRequests] at hm
  have hfreed : k ∈ freed' p := by
    rcases List.mem_append.mp hm with hm | hm
    · obtain ⟨e, he, heq⟩ := List.mem_map.mp hm
      obtain ⟨he, hl⟩ := List.mem_filter.mp he
      cases heq
      exact hdone e (List.mem_append_right _ he) hl
    · obtain ⟨e, he, heq⟩ := List.mem_map.mp hm
      obtain ⟨he, hl⟩ := List.mem_filter.mp he
      cases heq
      exact hdone e (List.mem_append_left _ he) hl
  exact hi'.gone p k hfreed hk

end GrantInv

namespace LockInv

variable {asks : Ptr → List (Key × LockMode)} {locked pushed : List Ptr} {freed : Ptr → List Key}
  {lm : LockManager}

/-- With everything live and nothing released but by pushed transactions, the two
invariants are one. -/
theorem iff_grantInv :
    LockInv asks locked pushed freed lm ↔ GrantInv asks (fun _ => True) locked pushed freed lm := by
  constructor
  · intro hi
    exact ⟨hi.toQueueInv, hi.pushedNodup, hi.pushedLocked, hi.held, hi.gone, fun p _ => hi.waits p,
      fun p hp _ => hi.pushedIff p hp, fun p h => hi.pushedLocked p (hi.freedPushed p h),
      fun p _ => hi.freedPushed p, hi.safe⟩
  · intro hi
    exact ⟨hi.toQueueInv, hi.pushedNodup, hi.pushedLocked, hi.held, hi.gone,
      fun p => hi.waits p trivial, fun p hp => hi.pushedIff p hp trivial,
      fun p => hi.freedPushed p trivial, hi.safe⟩

/-- `Lock` keeps the invariant; what it pushes are the transaction itself or
nothing. -/
theorem lock {cfg : ClusterConfig} {mode : Nat} {p : Ptr} {txn : TxnProto}
    (hi : LockInv asks locked pushed freed lm) (hkeys : ∀ p, ((asks p).map Prod.fst).Nodup)
    (hasks : asks p = lockRequests cfg mode txn) (hp : p ∉ locked) :
    LockInv asks (locked ++ [p]) (pushed ++ (lm.lock cfg mode p txn).2) freed
      (lm.lock cfg mode p txn).1 :=
  iff_grantInv.mpr ((iff_grantInv.mp hi).lock hkeys hasks hp)

/-- `Release` by a pushed transaction that has released nothing is defined,
keeps the invariant, and takes the transaction out of every queue. -/
theorem release {cfg : ClusterConfig} {mode : Nat} {p : Ptr} {txn : TxnProto}
    (hi : LockInv asks locked pushed freed lm) (hkeys : ∀ p, ((asks p).map Prod.fst).Nodup)
    (hasks : asks p = lockRequests cfg mode txn) (hp : p ∈ pushed) (hfree : freed p = []) :
    ∃ lm' out freed', lm.release cfg mode p txn = some (lm', out) ∧
      LockInv asks locked (pushed ++ out) freed' lm' ∧ (∀ q, q ≠ p → freed' q = freed q) ∧
      ∀ k, p ∉ owners (lm'.queue k) := by
  obtain ⟨lm', out, freed', hrel, hi', hsame, -, -, hout⟩ :=
    (iff_grantInv.mp hi).release hkeys hasks (hi.pushedLocked p hp) (fun _ => hp)
      (fun _ _ h => absurd trivial h) hfree
  exact ⟨lm', out, freed', hrel, iff_grantInv.mpr hi', hsame, hout⟩

end LockInv

end Calvin.LockManager
