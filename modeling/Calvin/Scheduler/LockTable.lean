import Mathlib.Data.List.TakeWhile
import Calvin.Scheduler.LockManagerSpec

/-!
# Who is in the lock table

What a call of `Lock` or `Release` leaves in the queues and what it pushes, for
transactions that may name a key more than once.

* `lock_asked`: `Lock` appends at most one request to each queue;
* `releaseEntries_left`: `Release` takes those of its keys out of their queues and
  leaves the others in their order;
* `Stable`: what survives storing and erasing single lists survives every call;
* `Table`: the requests in the lock table are those of transactions that were
  locked and not released.
-/

namespace Calvin.LockManager

open Function Lib Lib.LockQueue

/-- `p` has asked for some of the locks: one request behind a queue, or none. -/
def Asked (reqs : List (Key × LockMode)) (p : Ptr) (lm lm' : LockManager) : Prop :=
  ∀ k, lm'.queue k = lm.queue k ∨
    ∃ m, (k, m) ∈ reqs ∧ lm'.queue k = lm.queue k ++ [⟨m, p⟩]

theorem Asked.request {reqs : List (Key × LockMode)} {p : Ptr} {lm : LockManager}
    {st : LockManager × Nat} {a : Key × LockMode} (h : Asked reqs p lm st.1) (ha : a ∈ reqs) :
    Asked reqs p lm (request p st a).1 := by
  intro k
  unfold LockManager.request
  dsimp only
  split
  case isTrue hcond =>
      by_cases hk : a.1 = k
      · subst hk
        have hnew : (st.1.lockTable.insert a.1 (st.1.queue a.1 ++ [⟨a.2, p⟩])).find? a.1 =
            some (st.1.queue a.1 ++ [⟨a.2, p⟩]) := by
          rw [BucketTable.find?_insert, if_pos rfl]
        rcases h a.1 with heq | ⟨m, -, heq⟩
        · refine .inr ⟨a.2, ha, ?_⟩
          rw [← heq, queue]
          exact congrArg (·.getD []) hnew
        · -- a request of `p` stands last, so there is no second one
          have hq : (st.1.lockTable.find? a.1).getD [] = lm.queue a.1 ++ [⟨m, p⟩] := heq
          rw [hq, List.getLast?_concat] at hcond
          rcases hcond with hnil | hne
          · exact absurd hnil (by simp)
          · exact absurd rfl hne
      · have hsame : (st.1.lockTable.insert a.1
            ((st.1.lockTable.find? a.1).getD [] ++ [⟨a.2, p⟩])).find? k =
          st.1.lockTable.find? k := by
          rw [BucketTable.find?_insert, if_neg hk]
        have hqueue : queue
            { st.1 with
              lockTable := st.1.lockTable.insert a.1
                ((st.1.lockTable.find? a.1).getD [] ++ [⟨a.2, p⟩]) } k = st.1.queue k :=
          congrArg (·.getD []) hsame
        rw [hqueue]
        exact h k
  case isFalse => exact h k

theorem Asked.foldl {reqs : List (Key × LockMode)} {p : Ptr} {lm : LockManager}
    (todo : List (Key × LockMode)) (hsub : ∀ a ∈ todo, a ∈ reqs) {st : LockManager × Nat}
    (h : Asked reqs p lm st.1) : Asked reqs p lm (todo.foldl (LockManager.request p) st).1 := by
  induction todo generalizing st with
  | nil => exact h
  | cons a todo ih =>
      exact ih (fun b hb => hsub b (List.mem_cons_of_mem _ hb))
        (h.request (hsub a List.mem_cons_self))

/-- `Lock` pushes the transaction itself or nothing. -/
theorem lock_asked (cfg : ClusterConfig) (mode : Nat) (lm : LockManager) (p : Ptr)
    (txn : TxnProto) :
    Asked (lockRequests cfg mode txn) p lm (lm.lock cfg mode p txn).1 ∧
      ∀ q ∈ (lm.lock cfg mode p txn).2, q = p := by
  have h := Asked.foldl (p := p) (lockRequests cfg mode txn) (fun _ ha => ha)
    (show Asked _ p lm (lm, 0).1 from fun k => .inl rfl)
  rw [lock_eq]
  dsimp only
  split
  · exact ⟨h, fun q hq => absurd hq List.not_mem_nil⟩
  · exact ⟨h, fun q hq => List.mem_singleton.mp hq⟩

/-- The request of a key stands in its queue afterwards, if it was there before
or not. -/
theorem request_stands (p : Ptr) (st : LockManager × Nat) (a : Key × LockMode) :
    p ∈ owners ((request p st a).1.queue a.1) := by
  unfold request
  dsimp only
  split
  case isTrue =>
      have hnew : (st.1.lockTable.insert a.1
          ((st.1.lockTable.find? a.1).getD [] ++ [⟨a.2, p⟩])).find?
          a.1 = some ((st.1.lockTable.find? a.1).getD [] ++ [⟨a.2, p⟩]) := by
        rw [BucketTable.find?_insert, if_pos rfl]
      show p ∈ owners (((st.1.lockTable.insert a.1 _).find? a.1).getD [])
      rw [hnew, Option.getD_some, owners_append]
      exact List.mem_append_right _ List.mem_cons_self
  case isFalse hcond =>
      rw [not_or, not_not, Option.map_eq_some_iff] at hcond
      obtain ⟨-, r, hr, hrp⟩ := hcond
      exact mem_owners.mpr ⟨r, List.mem_of_getLast? hr, hrp⟩

theorem request_keeps (p : Ptr) (st : LockManager × Nat) (a : Key × LockMode) {q : Ptr} {k : Key}
    (h : q ∈ owners (st.1.queue k)) : q ∈ owners ((request p st a).1.queue k) := by
  have hasked : Asked [a] p st.1 st.1 := fun _ => .inl rfl
  rcases hasked.request List.mem_cons_self k with hq | ⟨m, -, hq⟩
  · rwa [hq]
  · rw [hq, owners_append]
    exact List.mem_append_left _ h

/-- After `Lock` a transaction stands in the queue of each key it asks for. -/
theorem lock_stands (cfg : ClusterConfig) (mode : Nat) (lm : LockManager) (p : Ptr)
    (txn : TxnProto) {k : Key} {m : LockMode} (h : (k, m) ∈ lockRequests cfg mode txn) :
    p ∈ owners ((lm.lock cfg mode p txn).1.queue k) := by
  have hkeeps : ∀ (reqs : List (Key × LockMode)) (st : LockManager × Nat),
      p ∈ owners (st.1.queue k) → p ∈ owners ((reqs.foldl (request p) st).1.queue k) := by
    intro reqs
    induction reqs with
    | nil => exact fun st h => h
    | cons a reqs ih => exact fun st h => ih _ (request_keeps p st a h)
  have hstands : p ∈ owners
      (((lockRequests cfg mode txn).foldl (request p) (lm, 0)).1.queue k) := by
    obtain ⟨before, after, hsplit⟩ := List.append_of_mem h
    rw [hsplit, List.foldl_append, List.foldl_cons]
    exact hkeeps after _ (request_stands p _ (k, m))
  rw [lock_eq]
  dsimp only
  split
  · exact hstands
  · exact hstands

/-! ## Release -/

theorem grant_subset (waits : Ptr → Option Int) (ns : List Ptr) :
    ∀ q ∈ (grant waits ns).2, q ∈ ns := by
  induction ns generalizing waits with
  | nil => exact fun q hq => hq
  | cons n rest ih =>
      intro q hq
      simp only [grant] at hq
      split at hq
      · rcases List.mem_cons.mp hq with rfl | hq
        · exact List.mem_cons_self
        · exact List.mem_cons_of_mem _ (ih _ q hq)
      · exact List.mem_cons_of_mem _ (ih _ q hq)

theorem inherit_subset (pre post : List LockRequest) (t : LockRequest) :
    ∀ r ∈ inherit pre t post, r ∈ post := by
  intro r hr
  cases post with
  | nil => exact hr
  | cons n post =>
      simp only [inherit] at hr
      split at hr
      · split at hr
        · rw [List.mem_singleton.mp hr]
          exact List.mem_cons_self
        · exact List.takeWhile_subset _ hr
      · split at hr
        · exact List.takeWhile_subset _ hr
        · exact absurd hr List.not_mem_nil

/-- `Release` of one key takes the transaction out of its queue, where it stands at
most once, and pushes others of the queue. -/
theorem releaseKey_left {lm lm' : LockManager} {k : Key} {p : Ptr} {out : List Ptr}
    (hnodup : (owners (lm.queue k)).Nodup) (h : lm.releaseKey k p = some (lm', out)) :
    (∀ k', lm'.queue k' =
        if k = k' then (lm.queue k').filter fun r => r.owner ≠ p else lm.queue k') ∧
      ∀ q ∈ out, q ∈ owners (lm.queue k) := by
  rw [releaseKey, Option.map_eq_some_iff] at h
  obtain ⟨requests, hfind, h⟩ := h
  have hq : lm.queue k = requests := by rw [queue, hfind]; rfl
  have hsplit := List.takeWhile_append_dropWhile (p := fun r : LockRequest => r.owner ≠ p)
    (l := requests)
  have hkeep : ∀ l : List LockRequest, p ∉ owners l → l.filter (fun r => r.owner ≠ p) = l :=
    fun l hl => List.filter_eq_self.mpr fun r hr =>
      decide_eq_true fun h => hl (mem_owners.mpr ⟨r, hr, h⟩)
  dsimp only at h
  split at h
  case h_1 hdrop =>
      -- the transaction does not stand in the queue
      cases h
      refine ⟨fun k' => ?_, fun q hq => absurd hq List.not_mem_nil⟩
      by_cases hk : k = k'
      · subst hk
        rw [if_pos rfl, hkeep]
        intro hmem
        obtain ⟨r, hr, hrp⟩ := mem_owners.mp hmem
        rw [hdrop, List.append_nil] at hsplit
        rw [hq, ← hsplit] at hr
        have hne : decide (r.owner ≠ p) = true :=
          List.mem_takeWhile_imp (p := fun r : LockRequest => decide (r.owner ≠ p)) hr
        exact of_decide_eq_true hne hrp
      · rw [if_neg hk]
  case h_2 target post hdrop =>
      rw [hdrop] at hsplit
      generalize hpre : requests.takeWhile (fun r => r.owner ≠ p) = pre at h hsplit
      have htarget : target.owner = p := by
        have hhead := List.head_dropWhile_not (fun r : LockRequest => decide (r.owner ≠ p))
          (l := requests) (by rw [hdrop]; simp)
        simp only [hdrop, List.head_cons] at hhead
        exact not_not.mp (of_decide_eq_false hhead)
      have hqueue : ∀ k', lm'.queue k' = if k = k' then pre ++ post else lm.queue k' := by
        obtain ⟨rfl, -⟩ := Prod.mk.inj h
        intro k'
        unfold queue
        by_cases hnil : pre ++ post = []
        · rw [if_pos hnil]
          by_cases hk : k = k' <;> simp [hk, hnil]
        · rw [if_neg hnil]
          by_cases hk : k = k' <;> simp [hk]
      refine ⟨fun k' => ?_, fun q hmem => ?_⟩
      · rw [hqueue]
        by_cases hk : k = k'
        · subst hk
          rw [hq, ← hsplit, owners_append, owners_cons, htarget, List.nodup_append,
            List.nodup_cons] at hnodup
          have hpre : p ∉ owners pre := fun h => hnodup.2.2 p h p List.mem_cons_self rfl
          rw [if_pos rfl, if_pos rfl, hq, ← hsplit, List.filter_append, hkeep pre hpre,
            List.filter_cons_of_neg (by simp [htarget]), hkeep post hnodup.2.1.1]
        · rw [if_neg hk, if_neg hk]
      · obtain ⟨-, rfl⟩ := Prod.mk.inj h
        have hnew := grant_subset _ _ q hmem
        rw [newOwners_eq] at hnew
        obtain ⟨r, hr, rfl⟩ := mem_owners.mp hnew
        rw [hq, ← hsplit]
        exact mem_owners.mpr ⟨r, List.mem_append_right _
          (List.mem_cons_of_mem _ (inherit_subset _ _ _ r hr)), rfl⟩

/-- The keys that the loops of `Release` visit, in order. -/
def visited (cfg : ClusterConfig) (mode origin : Nat) (entries : List KeyEntry) : List Key :=
  (entries.filter (locks cfg mode origin)).map KeyEntry.key

theorem releaseEntries_left {cfg : ClusterConfig} {mode origin : Nat} {p : Ptr}
    (entries : List KeyEntry) {lm lm' : LockManager} {out : List Ptr}
    (hnodup : ∀ k, (owners (lm.queue k)).Nodup)
    (h : releaseEntries cfg mode origin p lm entries = some (lm', out)) :
    (∀ k, lm'.queue k = if k ∈ visited cfg mode origin entries then
        (lm.queue k).filter fun r => r.owner ≠ p else lm.queue k) ∧
      ∀ q ∈ out, ∃ k, q ∈ owners (lm.queue k) := by
  induction entries generalizing lm lm' out with
  | nil =>
      cases h
      exact ⟨fun _ => rfl, fun q hq => absurd hq List.not_mem_nil⟩
  | cons e rest ih =>
      rw [releaseEntries] at h
      split at h
      case isTrue hl =>
          have hvisited : visited cfg mode origin (e :: rest) =
              e.key :: visited cfg mode origin rest := by
            rw [visited, List.filter_cons_of_pos hl]
            rfl
          rw [Option.bind_eq_some_iff] at h
          obtain ⟨⟨lm₁, out₁⟩, hkey, h⟩ := h
          rw [Option.map_eq_some_iff] at h
          obtain ⟨⟨lm₂, out₂⟩, hrest, h⟩ := h
          cases h
          obtain ⟨hqueue₁, hout₁⟩ := releaseKey_left (hnodup e.key) hkey
          have hsub : ∀ k, (lm₁.queue k).Sublist (lm.queue k) := fun k => by
            rw [hqueue₁]
            split
            · exact List.filter_sublist
            · exact List.Sublist.refl _
          obtain ⟨hqueue₂, hout₂⟩ :=
            ih (fun k => ((hsub k).map Request.owner).nodup (hnodup k)) hrest
          refine ⟨fun k => ?_, fun q hq => ?_⟩
          · rw [hqueue₂, hqueue₁, hvisited]
            by_cases hk : e.key = k
            · -- a second visit finds the transaction gone
              subst hk
              simp [List.filter_filter]
            · simp [hk, Ne.symm hk]
          · rcases List.mem_append.mp hq with hq | hq
            · exact ⟨_, hout₁ q hq⟩
            · obtain ⟨k, hk⟩ := hout₂ q hq
              exact ⟨k, ((hsub k).map Request.owner).subset hk⟩
      case isFalse hl =>
          have hvisited : visited cfg mode origin (e :: rest) = visited cfg mode origin rest := by
            rw [visited, List.filter_cons_of_neg hl]
            rfl
          rw [hvisited]
          exact ih hnodup h

/-- The keys of the requests are those visited. -/
theorem mem_visited {cfg : ClusterConfig} {mode : Nat} {txn : TxnProto} {k : Key} :
    k ∈ visited cfg mode txn.originReplica (txn.readSet ++ txn.readWriteSet) ↔
      ∃ m, (k, m) ∈ lockRequests cfg mode txn := by
  rw [visited, List.filter_append, List.map_append, List.mem_append, lockRequests]
  constructor
  · rintro (h | h)
    · obtain ⟨e, he, rfl⟩ := List.mem_map.mp h
      exact ⟨.read, List.mem_append_right _ (List.mem_map_of_mem he)⟩
    · obtain ⟨e, he, rfl⟩ := List.mem_map.mp h
      exact ⟨.write, List.mem_append_left _ (List.mem_map_of_mem he)⟩
  · rintro ⟨m, hm⟩
    rcases List.mem_append.mp hm with hm | hm
    · obtain ⟨e, he, heq⟩ := List.mem_map.mp hm
      cases heq
      exact .inr (List.mem_map_of_mem he)
    · obtain ⟨e, he, heq⟩ := List.mem_map.mp hm
      cases heq
      exact .inl (List.mem_map_of_mem he)

/-- `Release` takes the transaction out of the queues of its keys. -/
theorem release_left {cfg : ClusterConfig} {mode : Nat} {p : Ptr} {txn : TxnProto}
    {lm lm' : LockManager} {out : List Ptr} (hnodup : ∀ k, (owners (lm.queue k)).Nodup)
    (h : lm.release cfg mode p txn = some (lm', out)) :
    (∀ k, (lm'.queue k).Sublist (lm.queue k)) ∧
      (∀ k m, (k, m) ∈ lockRequests cfg mode txn → p ∉ owners (lm'.queue k)) ∧
      ∀ q ∈ out, ∃ k, q ∈ owners (lm.queue k) := by
  obtain ⟨hqueue, hout⟩ := releaseEntries_left _ hnodup h
  refine ⟨fun k => ?_, fun k m hm hmem => ?_, hout⟩
  · rw [hqueue]
    split
    · exact List.filter_sublist
    · exact List.Sublist.refl _
  · rw [hqueue, if_pos (mem_visited.mpr ⟨m, hm⟩)] at hmem
    obtain ⟨r, hr, hrp⟩ := mem_owners.mp hmem
    exact of_decide_eq_true (List.mem_filter.mp hr).2 hrp

/-! ## The lists that are stored -/

/-- A property of lock tables that is kept when a list with requests is stored and
when a list is erased. -/
structure Stable (P : BucketTable hashKey (List LockRequest) → Prop) : Prop where
  insert : ∀ t k requests, P t → requests ≠ [] → P (t.insert k requests)
  erase : ∀ t k, P t → P (t.erase k)

namespace Stable

variable {P : BucketTable hashKey (List LockRequest) → Prop} {cfg : ClusterConfig}
  {mode : Nat} {lm lm' : LockManager} {p : Ptr} {out : List Ptr}

theorem request (hs : Stable P) {st : LockManager × Nat} (a : Key × LockMode)
    (h : P st.1.lockTable) : P (LockManager.request p st a).1.lockTable := by
  unfold LockManager.request
  dsimp only
  split
  · exact hs.insert _ _ _ h (by simp)
  · exact h

theorem lock (hs : Stable P) (txn : TxnProto) (h : P lm.lockTable) :
    P (lm.lock cfg mode p txn).1.lockTable := by
  have hfold : ∀ (reqs : List (Key × LockMode)) (st : LockManager × Nat), P st.1.lockTable →
      P (reqs.foldl (LockManager.request p) st).1.lockTable := by
    intro reqs
    induction reqs with
    | nil => exact fun st h => h
    | cons a reqs ih => exact fun st h => ih _ (hs.request a h)
  rw [lock_eq]
  dsimp only
  split
  · exact hfold _ _ h
  · exact hfold _ _ h

theorem releaseKey (hs : Stable P) {k : Key} (h : P lm.lockTable)
    (hrel : lm.releaseKey k p = some (lm', out)) : P lm'.lockTable := by
  rw [LockManager.releaseKey, Option.map_eq_some_iff] at hrel
  obtain ⟨requests, -, hrel⟩ := hrel
  dsimp only at hrel
  split at hrel
  · cases hrel
    exact h
  · obtain ⟨rfl, -⟩ := Prod.mk.inj hrel
    dsimp only
    split
    case isTrue => exact hs.erase _ _ h
    case isFalse hne => exact hs.insert _ _ _ h hne

theorem releaseEntries (hs : Stable P) {origin : Nat} (entries : List KeyEntry)
    (h : P lm.lockTable)
    (hrel : lm.releaseEntries cfg mode origin p entries = some (lm', out)) : P lm'.lockTable := by
  induction entries generalizing lm out with
  | nil =>
      cases hrel
      exact h
  | cons e rest ih =>
      rw [LockManager.releaseEntries] at hrel
      split at hrel
      · rw [Option.bind_eq_some_iff] at hrel
        obtain ⟨⟨lm₁, out₁⟩, hkey, hrel⟩ := hrel
        rw [Option.map_eq_some_iff] at hrel
        obtain ⟨⟨lm₂, out₂⟩, hrest, hrel⟩ := hrel
        cases hrel
        exact ih (hs.releaseKey h hkey) hrest
      · exact ih h hrel

end Stable

/-! ## The table over many calls -/

/-- The requests in the lock table are those of transactions that were passed to
`Lock` and are not deleted, at most one for each key. -/
structure Table (cfg : ClusterConfig) (mode : Nat) (txns : Ptr → TxnProto) (lm : LockManager)
    (locked deleted : List Ptr) : Prop where
  once : ∀ k, (owners (lm.queue k)).Nodup
  owner : ∀ k, ∀ r ∈ lm.queue k, r.owner ∈ locked ∧ r.owner ∉ deleted ∧
    (k, r.mode) ∈ lockRequests cfg mode (txns r.owner)

namespace Table

variable {cfg : ClusterConfig} {mode : Nat} {txns : Ptr → TxnProto} {lm lm' : LockManager}
  {locked deleted : List Ptr} {p : Ptr}

theorem lock (ht : Table cfg mode txns lm locked deleted) (hp : p ∉ locked) (hd : p ∉ deleted) :
    Table cfg mode txns (lm.lock cfg mode p (txns p)).1 (locked ++ [p]) deleted := by
  obtain ⟨hasked, -⟩ := lock_asked cfg mode lm p (txns p)
  have hold : ∀ k, ∀ r ∈ lm.queue k, r.owner ∈ locked ++ [p] ∧ r.owner ∉ deleted ∧
      (k, r.mode) ∈ lockRequests cfg mode (txns r.owner) := fun k r hr =>
    ⟨List.mem_append_left _ (ht.owner k r hr).1, (ht.owner k r hr).2⟩
  refine ⟨fun k => ?_, fun k r hr => ?_⟩
  · rcases hasked k with hq | ⟨m, -, hq⟩
    · rw [hq]
      exact ht.once k
    · rw [hq, owners_append]
      refine (ht.once k).append (List.nodup_singleton p) fun q hq hqp => ?_
      obtain ⟨r, hr, rfl⟩ := mem_owners.mp hq
      have howner : r.owner = p := List.mem_singleton.mp hqp
      exact hp (howner ▸ (ht.owner k r hr).1)
  · rcases hasked k with hq | ⟨m, hm, hq⟩
    · rw [hq] at hr
      exact hold k r hr
    · rw [hq] at hr
      rcases List.mem_append.mp hr with hr | hr
      · exact hold k r hr
      · rw [List.mem_singleton.mp hr]
        exact ⟨List.mem_append_right _ List.mem_cons_self, hd, hm⟩

theorem release {out : List Ptr} (ht : Table cfg mode txns lm locked deleted)
    (h : lm.release cfg mode p (txns p) = some (lm', out)) :
    Table cfg mode txns lm' locked (p :: deleted) ∧ ∀ q ∈ out, q ∈ locked := by
  obtain ⟨hsub, hgone, hout⟩ := release_left ht.once h
  refine ⟨⟨fun k => ((hsub k).map Request.owner).nodup (ht.once k), fun k r hr => ?_⟩,
    fun q hq => ?_⟩
  · obtain ⟨hlocked, hdeleted, hkey⟩ := ht.owner k r ((hsub k).subset hr)
    refine ⟨hlocked, fun hmem => ?_, hkey⟩
    rcases List.mem_cons.mp hmem with howner | hmem
    · rw [howner] at hkey
      exact hgone k r.mode hkey (mem_owners.mpr ⟨r, hr, howner⟩)
    · exact hdeleted hmem
  · obtain ⟨k, hk⟩ := hout q hq
    obtain ⟨r, hr, rfl⟩ := mem_owners.mp hk
    exact (ht.owner k r hr).1

/-- A transaction without requests is deleted. -/
theorem skip (ht : Table cfg mode txns lm locked deleted) (hp : p ∉ locked) :
    Table cfg mode txns lm locked (p :: deleted) where
  once := ht.once
  owner k r hr := by
    obtain ⟨hlocked, hdeleted, hkey⟩ := ht.owner k r hr
    refine ⟨hlocked, fun hmem => ?_, hkey⟩
    rcases List.mem_cons.mp hmem with howner | hmem
    · exact hp (howner ▸ hlocked)
    · exact hdeleted hmem

end Table

end Calvin.LockManager
