import Calvin.Scheduler.LockManager

/-!
# The lock manager as one queue per key

The lock table read as a queue for each key, and the effect of each call on
these queues.

* `queue_requests`: `Lock` appends one request to the queue of each locked key;
* `releaseKey_spec`: `Release` removes one;
* `QueueInv`: the queues are in the order of the calls of `Lock`;
* `QueueInv.lock`, `QueueInv.releaseKey`: what either call does to the queues and
  to the number of locks each transaction misses.
-/

namespace Calvin.LockManager

open Function Lib Lib.LockQueue

/-- The requests of a key, in order. -/
def queue (lm : LockManager) (k : Key) : List LockRequest :=
  (lm.lockTable.find? k).getD []

/-- The transactions of some requests. -/
def owners (requests : List LockRequest) : List Ptr := requests.map Request.owner

@[simp] theorem owners_append (a b : List LockRequest) : owners (a ++ b) = owners a ++ owners b :=
  List.map_append

@[simp] theorem owners_cons (r : LockRequest) (a : List LockRequest) :
    owners (r :: a) = r.owner :: owners a := rfl

@[simp] theorem owners_nil : owners [] = [] := rfl

theorem mem_owners {requests : List LockRequest} {p : Ptr} :
    p ∈ owners requests ↔ ∃ r ∈ requests, r.owner = p := List.mem_map

/-- The locks a transaction requests, in the order of the requests. -/
def lockRequests (cfg : ClusterConfig) (mode : Nat) (txn : TxnProto) : List (Key × LockMode) :=
  (txn.readWriteSet.filter (locks cfg mode txn.originReplica)).map (fun e => (e.key, .write)) ++
    (txn.readSet.filter (locks cfg mode txn.originReplica)).map fun e => (e.key, .read)

/-- With distinct keys no key is requested twice. -/
theorem lockRequests_nodup {cfg : ClusterConfig} {mode : Nat} {txn : TxnProto}
    (h : txn.client.keys.Nodup) : ((lockRequests cfg mode txn).map Prod.fst).Nodup := by
  have hsub : ∀ (l : List KeyEntry) (lockMode : LockMode) (f : KeyEntry → Bool),
      (((l.filter f).map fun e => (e.key, lockMode)).map Prod.fst).Sublist
        (l.map KeyEntry.key) := by
    intro l lockMode f
    rw [List.map_map]
    exact List.filter_sublist.map _
  rw [ClientTxn.keys, ClientTxn.entries, List.map_append] at h
  rw [lockRequests, List.map_append]
  exact (List.nodup_append_comm.mp h).sublist ((hsub _ _ _).append (hsub _ _ _))

/-! ## Lock -/

/-- The queue-level effect of one request that is not there yet. -/
theorem notGranted_iff (lockMode : LockMode) (q : List LockRequest) (p : Ptr) :
    notGranted lockMode (q ++ [⟨lockMode, p⟩]) = true ↔ ¬ Grantable q ⟨lockMode, p⟩ := by
  cases lockMode with
  | write =>
      cases q <;> simp [notGranted, Grantable]
  | read =>
      simp only [notGranted, List.any_append, List.any_cons, List.any_nil, Grantable]
      rcases write_or_all_read q with ⟨r, hr, hw⟩ | hall
      · constructor
        · rintro - (h | ⟨-, h⟩)
          · rw [h] at hr
            cases hr
          · rw [h r hr] at hw
            cases hw
        · intro _
          simp only [reduceCtorEq, decide_false, Bool.or_false, List.any_eq_true, decide_eq_true_eq]
          exact ⟨r, hr, hw⟩
      · constructor
        · intro h
          simp only [Bool.or_false, reduceCtorEq, decide_false, List.any_eq_true,
            decide_eq_true_eq] at h
          obtain ⟨r, hr, hw⟩ := h
          rw [hall r hr] at hw
          cases hw
        · intro h
          exact absurd (.inr ⟨trivial, hall⟩) h

/-- A loop of `Lock` requests the locks of its entries. -/
theorem lockEntries_eq (cfg : ClusterConfig) (mode origin : Nat) (p : Ptr) (m : LockMode)
    (entries : List KeyEntry) (st : LockManager × Nat) :
    entries.foldl (lockEntry cfg mode origin p m) st =
      ((entries.filter (locks cfg mode origin)).map fun e => (e.key, m)).foldl (request p) st := by
  rw [List.foldl_map, List.foldl_filter]
  rfl

/-- The two loops request the locks of `lockRequests` one after another. -/
theorem lock_eq (cfg : ClusterConfig) (mode : Nat) (lm : LockManager) (p : Ptr) (txn : TxnProto) :
    lm.lock cfg mode p txn =
      let st := (lockRequests cfg mode txn).foldl (request p) (lm, 0)
      if 0 < st.2 then ({ st.1 with txnWaits := update st.1.txnWaits p (some st.2) }, [])
      else (st.1, [p]) := by
  simp only [lock, lockRequests, List.foldl_append, lockEntries_eq]

/-- `Lock` returns the number of its requests that were not granted. -/
theorem notAcquired_eq (cfg : ClusterConfig) (mode : Nat) (lm : LockManager) (p : Ptr)
    (txn : TxnProto) :
    lm.notAcquired cfg mode p txn = ((lockRequests cfg mode txn).foldl (request p) (lm, 0)).2 := by
  simp only [notAcquired, lockRequests, List.foldl_append, lockEntries_eq]

/-- A request of a transaction that is not in the queue yet. -/
theorem request_spec {p : Ptr} {st : LockManager × Nat} {a : Key × LockMode}
    (hp : p ∉ owners (st.1.queue a.1)) :
    (∀ k, (request p st a).1.queue k =
        st.1.queue k ++ if a.1 = k then [⟨a.2, p⟩] else []) ∧
      (request p st a).1.txnWaits = st.1.txnWaits ∧
      (request p st a).2 =
        st.2 + if notGranted a.2 (st.1.queue a.1 ++ [⟨a.2, p⟩]) then 1 else 0 := by
  have hcond : (st.1.lockTable.find? a.1).getD [] = [] ∨
      ((st.1.lockTable.find? a.1).getD []).getLast?.map Request.owner ≠ some p := by
    right
    intro hlast
    rw [Option.map_eq_some_iff] at hlast
    obtain ⟨r, hr, howner⟩ := hlast
    exact hp (mem_owners.mpr ⟨r, List.mem_of_getLast? hr, howner⟩)
  simp only [request, if_pos hcond]
  refine ⟨fun k => ?_, trivial, ?_⟩
  · by_cases hk : a.1 = k
    · subst hk
      simp [queue]
    · simp [queue, hk]
  · simp only [queue]
    split <;> simp_all

/-- Requests for different keys: each queue gets the request for its key, and
those that were not granted are counted. -/
theorem requests_spec {p : Ptr} (reqs : List (Key × LockMode)) (st : LockManager × Nat)
    (hn : (reqs.map Prod.fst).Nodup) (hp : ∀ a ∈ reqs, p ∉ owners (st.1.queue a.1)) :
    (∀ k, (reqs.foldl (request p) st).1.queue k =
        st.1.queue k ++ (reqs.filter fun a => a.1 = k).map fun a => ⟨a.2, p⟩) ∧
      (reqs.foldl (request p) st).1.txnWaits = st.1.txnWaits ∧
      (reqs.foldl (request p) st).2 =
        st.2 + reqs.countP fun a => notGranted a.2 (st.1.queue a.1 ++ [⟨a.2, p⟩]) := by
  induction reqs generalizing st with
  | nil => simp
  | cons a rest ih =>
      rw [List.map_cons, List.nodup_cons] at hn
      obtain ⟨hq, hw, hc⟩ := request_spec (a := a) (hp a List.mem_cons_self)
      have hne : ∀ b ∈ rest, a.1 ≠ b.1 := fun b hb h => hn.1 (h ▸ List.mem_map_of_mem hb)
      have hsame : ∀ b ∈ rest, (request p st a).1.queue b.1 = st.1.queue b.1 := fun b hb => by
        rw [hq, if_neg (hne b hb), List.append_nil]
      obtain ⟨hq', hw', hc'⟩ := ih (request p st a) hn.2 fun b hb => by
        rw [hsame b hb]
        exact hp b (List.mem_cons_of_mem _ hb)
      refine ⟨fun k => ?_, hw'.trans hw, ?_⟩
      · rw [List.foldl_cons, hq' k, hq k, List.append_assoc]
        by_cases hk : a.1 = k <;> simp [hk]
      · have hcount : rest.countP (fun b =>
            notGranted b.2 ((request p st a).1.queue b.1 ++ [⟨b.2, p⟩])) =
            rest.countP fun b => notGranted b.2 (st.1.queue b.1 ++ [⟨b.2, p⟩]) :=
          List.countP_congr fun b hb => by rw [hsame b hb]
        rw [List.foldl_cons, hc', hc, hcount, List.countP_cons]
        omega

/-! ## Release -/

theorem newOwners_eq (pre : List LockRequest) (target : LockRequest) (post : List LockRequest) :
    newOwners pre target post = owners (inherit pre target post) := by
  cases post with
  | nil => rfl
  | cons next post =>
      have hwrite : (∃ r ∈ pre, r.mode = LockMode.write) ↔ ¬ ∀ r ∈ pre, r.mode = .read := by
        constructor
        · rintro ⟨r, hr, hw⟩ hall
          rw [hall r hr] at hw
          cases hw
        · intro h
          rcases write_or_all_read pre with hw | hall
          · exact hw
          · exact absurd hall h
      have hmode : (target.mode = .write ∨ (target.mode = .read ∧ next.mode = .write)) ↔
          (target.mode = .write ∨ next.mode = .write) := by
        cases target.mode <;> simp
      unfold newOwners inherit
      simp only [hmode, hwrite, not_not]
      by_cases h1 : pre = [] ∧ (target.mode = .write ∨ next.mode = .write)
      · rw [if_pos h1, if_pos h1]
        by_cases hn : next.mode = .write
        · simp [hn, shared, owners]
        · simp [hn, owners]
      · rw [if_neg h1, if_neg h1]
        by_cases hn : next.mode = .write
        · have hread : ¬ next.mode = .read := by simp [hn]
          rw [if_neg (fun h => hread h.2.2)]
          split <;> simp [shared, hn, owners]
        · simp only [mode_ne_write.mp hn, and_true]
          split <;> rfl

/-- Granting to different transactions: each waits for one lock less, and those
with none left are pushed. -/
theorem grant_spec (ns : List Ptr) (waits : Ptr → Option Int) (hn : ns.Nodup) :
    (∀ p, (grant waits ns).1 p =
        if p ∈ ns then
          if (waits p).getD 0 - 1 = 0 then none else some ((waits p).getD 0 - 1)
        else waits p) ∧
      (grant waits ns).2 = ns.filter fun p => (waits p).getD 0 - 1 = 0 := by
  induction ns generalizing waits with
  | nil => simp [grant]
  | cons n rest ih =>
      rw [List.nodup_cons] at hn
      have hne : ∀ p ∈ rest, p ≠ n := fun p hp h => hn.1 (h ▸ hp)
      by_cases hz : (waits n).getD 0 - 1 = 0
      · obtain ⟨h1, h2⟩ := ih (update waits n none) hn.2
        simp only [grant, if_pos hz]
        refine ⟨fun p => ?_, ?_⟩
        · rw [h1]
          by_cases hp : p = n
          · subst hp
            simp [hn.1, hz]
          · simp [hp]
        · rw [h2, List.filter_cons_of_pos (by simpa using hz)]
          congr 1
          exact List.filter_congr fun p hp => by rw [update_of_ne (hne p hp)]
      · obtain ⟨h1, h2⟩ := ih (update waits n (some ((waits n).getD 0 - 1))) hn.2
        simp only [grant, if_neg hz]
        refine ⟨fun p => ?_, ?_⟩
        · rw [h1]
          by_cases hp : p = n
          · subst hp
            simp [hn.1, hz]
          · simp [hp]
        · rw [h2, List.filter_cons_of_neg (by simpa using hz)]
          exact List.filter_congr fun p hp => by rw [update_of_ne (hne p hp)]

/-- Releasing a request that is in the queue of the key. -/
theorem releaseKey_spec {lm : LockManager} {k : Key} {pre post : List LockRequest}
    {target : LockRequest} (hq : lm.queue k = pre ++ target :: post)
    (hpre : ∀ r ∈ pre, r.owner ≠ target.owner) :
    ∃ lm', lm.releaseKey k target.owner =
        some (lm', (grant lm.txnWaits (owners (inherit pre target post))).2) ∧
      (∀ k', lm'.queue k' = if k = k' then pre ++ post else lm.queue k') ∧
      lm'.txnWaits = (grant lm.txnWaits (owners (inherit pre target post))).1 := by
  have hfind : lm.lockTable.find? k = some (pre ++ target :: post) := by
    unfold queue at hq
    cases hf : lm.lockTable.find? k with
    | none => simp [hf] at hq
    | some q => rw [hf] at hq; exact congrArg some hq
  have hpos : ∀ r ∈ pre, decide (r.owner ≠ target.owner) = true := fun r hr => by
    simpa using hpre r hr
  have htake : (pre ++ target :: post).takeWhile (fun r => r.owner ≠ target.owner) = pre := by
    rw [List.takeWhile_append_of_pos hpos, List.takeWhile_cons_of_neg (by simp), List.append_nil]
  have hdrop : (pre ++ target :: post).dropWhile (fun r => r.owner ≠ target.owner) =
      target :: post := by
    rw [List.dropWhile_append_of_pos hpos, List.dropWhile_cons_of_neg (by simp)]
  unfold releaseKey
  rw [hfind]
  simp only [Option.map_some, htake, hdrop, newOwners_eq]
  refine ⟨_, rfl, fun k' => ?_, rfl⟩
  unfold queue
  by_cases hnil : pre ++ post = []
  · rw [if_pos hnil]
    by_cases hk : k = k' <;> simp [hk, hnil]
  · rw [if_neg hnil]
    by_cases hk : k = k' <;> simp [hk]

/-! ## The invariant -/

/-- `a` was locked before `b`. -/
def Before (locked : List Ptr) (a b : Ptr) : Prop := locked.idxOf a < locked.idxOf b

/-- The locks a transaction still waits for. -/
def missing (lm : LockManager) (asks : Ptr → List (Key × LockMode)) (p : Ptr) : Nat :=
  (asks p).countP fun a => p ∈ owners (ungranted (lm.queue a.1))

/-- The queues hold what was asked for, in the order of the calls of `Lock`.
`asks` says which locks a transaction requests, `locked` lists the transactions
in that order. -/
structure QueueInv (asks : Ptr → List (Key × LockMode)) (locked : List Ptr) (lm : LockManager) :
    Prop where
  lockedNodup : locked.Nodup
  ordered : ∀ k, (owners (lm.queue k)).Pairwise (Before locked)
  asked : ∀ k, ∀ r ∈ lm.queue k, r.owner ∈ locked ∧ (k, r.mode) ∈ asks r.owner

theorem Before.asymm {locked : List Ptr} {a b : Ptr} (h : Before locked a b) :
    ¬ Before locked b a := Nat.lt_asymm h

theorem before_concat {locked : List Ptr} {a b p : Ptr} (ha : a ∈ locked) (hb : b ∈ locked) :
    Before (locked ++ [p]) a b ↔ Before locked a b := by
  unfold Before
  rw [List.idxOf_append_of_mem ha, List.idxOf_append_of_mem hb]

theorem before_last {locked : List Ptr} {a p : Ptr} (ha : a ∈ locked) (hp : p ∉ locked) :
    Before (locked ++ [p]) a p := by
  unfold Before
  rw [List.idxOf_append_of_mem ha, List.idxOf_append_of_notMem hp]
  have := List.idxOf_lt_length_of_mem ha
  omega

theorem before_range {n a b : Nat} (ha : a < n) (hb : b < n) :
    Before (List.range n) a b ↔ a < b := by
  have hidx : ∀ i, i < n → (List.range n).idxOf i = i := fun i hi => by
    have h := (List.nodup_range (n := n)).idxOf_getElem i (by simpa using hi)
    rwa [List.getElem_range] at h
  rw [Before, hidx a ha, hidx b hb]

namespace QueueInv

variable {asks : Ptr → List (Key × LockMode)} {locked : List Ptr} {lm : LockManager}

theorem nodup (hi : QueueInv asks locked lm) (k : Key) : (owners (lm.queue k)).Nodup :=
  (hi.ordered k).imp fun h heq => by
    rw [heq] at h
    exact Nat.lt_irrefl _ h

/-- A transaction that waits for nothing conflicts with nothing locked before
it. -/
theorem alone (hi : QueueInv asks locked lm)
    (hkeys : ∀ p, ((asks p).map Prod.fst).Nodup) {p q : Ptr} (hzero : lm.missing asks p = 0)
    (hbefore : Before locked q p) {a b : Key × LockMode} (ha : a ∈ asks p) (hb : b ∈ asks q)
    (hab : a.1 = b.1) (hc : Conflict a.2 b.2) (hp : p ∈ owners (lm.queue a.1)) :
    q ∉ owners (lm.queue a.1) := by
  intro hq
  -- both requests are in the queue, with the modes that were asked for
  have hmode : ∀ (x : Ptr) (c : Key × LockMode), c ∈ asks x → c.1 = a.1 →
      ∀ r ∈ lm.queue a.1, r.owner = x → r.mode = c.2 := by
    intro x c hc hck r hr hrx
    have hmem := (hi.asked _ r hr).2
    rw [hrx] at hmem
    have := List.inj_on_of_nodup_map (hkeys x) hmem hc (hck.symm ▸ rfl)
    exact congrArg Prod.snd this
  obtain ⟨r, hr, hrp⟩ := mem_owners.mp hp
  obtain ⟨x, hx, hxq⟩ := mem_owners.mp hq
  obtain ⟨pre, post, hsplit⟩ := List.append_of_mem hr
  have hgranted : r ∉ ungranted (pre ++ r :: post) := by
    rw [← hsplit]
    intro hu
    have hnot := List.countP_eq_zero.mp hzero a ha
    exact hnot (by simpa using mem_owners.mpr ⟨r, hu, hrp⟩)
  have hord := hi.ordered a.1
  rw [hsplit, owners_append, owners_cons, List.pairwise_append] at hord
  rw [hsplit, List.mem_append, List.mem_cons] at hx
  rcases hx with hx | rfl | hx
  · refine alone_of_granted hgranted hx ?_
    rw [hmode p a ha rfl r hr hrp, hmode q b hb hab.symm x (by
      rw [hsplit]; exact List.mem_append_left _ hx) hxq]
    exact hc.symm
  · rw [hrp] at hxq
    rw [hxq] at hbefore
    exact Nat.lt_irrefl _ hbefore
  · have hlt : Before locked r.owner x.owner :=
      List.rel_of_pairwise_cons hord.2.1 (mem_owners.mpr ⟨x, hx, rfl⟩)
    rw [hrp, hxq] at hlt
    exact hlt.asymm hbefore

theorem not_owner (hi : QueueInv asks locked lm) {p : Ptr} (hp : p ∉ locked) (k : Key) :
    p ∉ owners (lm.queue k) := by
  intro h
  obtain ⟨r, hr, rfl⟩ := mem_owners.mp h
  exact hp (hi.asked k r hr).1

/-- A transaction is in the queue of its keys only. -/
theorem mem_asks_of_owner (hi : QueueInv asks locked lm) {p : Ptr} {k : Key}
    (h : p ∈ owners (lm.queue k)) : ∃ m, (k, m) ∈ asks p := by
  obtain ⟨r, hr, rfl⟩ := mem_owners.mp h
  exact ⟨r.mode, (hi.asked k r hr).2⟩

end QueueInv

theorem filter_key {reqs : List (Key × LockMode)} (hn : (reqs.map Prod.fst).Nodup)
    {a : Key × LockMode} (ha : a ∈ reqs) : (reqs.filter fun b => b.1 = a.1) = [a] := by
  obtain ⟨l, r, rfl⟩ := List.append_of_mem ha
  simp only [List.map_append, List.map_cons, List.nodup_append, List.nodup_cons, List.mem_cons,
    List.mem_map] at hn
  obtain ⟨-, ⟨hr, -⟩, hl⟩ := hn
  have h1 : (l.filter fun b => b.1 = a.1) = [] :=
    List.filter_eq_nil_iff.mpr fun b hb => by
      simpa using hl b.1 ⟨b, hb, rfl⟩ a.1 (.inl rfl)
  have h2 : (r.filter fun b => b.1 = a.1) = [] :=
    List.filter_eq_nil_iff.mpr fun b hb => by
      simpa using fun h => hr ⟨b, hb, h⟩
  rw [List.filter_append, List.filter_cons_of_pos (by simp), h1, h2]
  rfl

/-- The effect of `Lock` on the queues: one request behind each queue of a
locked key. -/
theorem queue_requests {reqs : List (Key × LockMode)} (lm lm' : LockManager) {p : Ptr}
    (hn : (reqs.map Prod.fst).Nodup)
    (hq : ∀ k, lm'.queue k =
      lm.queue k ++ (reqs.filter fun a => a.1 = k).map fun a => ⟨a.2, p⟩) (k : Key) :
    (lm'.queue k = lm.queue k ∧ ∀ a ∈ reqs, a.1 ≠ k) ∨
      ∃ a ∈ reqs, a.1 = k ∧ lm'.queue k = lm.queue k ++ [⟨a.2, p⟩] := by
  by_cases h : ∃ a ∈ reqs, a.1 = k
  · obtain ⟨a, ha, rfl⟩ := h
    exact .inr ⟨a, ha, rfl, by rw [hq, filter_key hn ha]; rfl⟩
  · left
    have hnone : (reqs.filter fun a => a.1 = k) = [] :=
      List.filter_eq_nil_iff.mpr fun a ha => by simpa using fun hk => h ⟨a, ha, hk⟩
    refine ⟨by rw [hq, hnone, List.map_nil, List.append_nil], fun a ha hk => h ⟨a, ha, hk⟩⟩

/-- A request behind a queue changes nobody else's grant. -/
theorem ungranted_concat_of_ne {q : List LockRequest} {r : LockRequest} {p : Ptr}
    (hp : p ≠ r.owner) :
    p ∈ owners (ungranted (q ++ [r])) ↔ p ∈ owners (ungranted q) := by
  by_cases hg : Grantable q r
  · rw [(ungranted_concat q r).1 hg]
  · rw [(ungranted_concat q r).2 hg, owners_append, List.mem_append]
    simp [hp]

/-- Whether the request itself is granted. -/
theorem ungranted_concat_self {q : List LockRequest} {r : LockRequest} (hr : r.owner ∉ owners q) :
    r.owner ∈ owners (ungranted (q ++ [r])) ↔ ¬ Grantable q r := by
  have hnot : r.owner ∉ owners (ungranted q) := fun h => by
    obtain ⟨x, hx, hxr⟩ := mem_owners.mp h
    exact hr (mem_owners.mpr ⟨x, mem_of_mem_ungranted hx, hxr⟩)
  by_cases hg : Grantable q r
  · rw [(ungranted_concat q r).1 hg]
    simp [hnot, hg]
  · rw [(ungranted_concat q r).2 hg, owners_append, List.mem_append]
    simp [hg]
/-- One lock less is missing when the request for one key is granted. -/
theorem missing_of_grant {asks : Ptr → List (Key × LockMode)} {lm lm' : LockManager} {k : Key}
    {q : Ptr} (hkeys : ((asks q).map Prod.fst).Nodup) (hk : ∃ m, (k, m) ∈ asks q)
    (hsame : ∀ k', k ≠ k' → lm'.queue k' = lm.queue k')
    (hbefore : q ∈ owners (ungranted (lm.queue k)))
    (hafter : q ∉ owners (ungranted (lm'.queue k))) :
    lm.missing asks q = lm'.missing asks q + 1 := by
  obtain ⟨m, hm⟩ := hk
  obtain ⟨l, r, hsplit⟩ := List.append_of_mem hm
  unfold missing
  rw [hsplit, List.map_append, List.map_cons, List.nodup_append, List.nodup_cons] at hkeys
  rw [hsplit, List.countP_append, List.countP_append, List.countP_cons, List.countP_cons]
  obtain ⟨-, ⟨hr, -⟩, hl⟩ := hkeys
  have hl' : l.countP (fun a => q ∈ owners (ungranted (lm.queue a.1))) =
      l.countP fun a => q ∈ owners (ungranted (lm'.queue a.1)) :=
    List.countP_congr fun a ha => by
      rw [hsame a.1 fun h => hl a.1 (List.mem_map_of_mem ha) k List.mem_cons_self h.symm]
  have hr' : r.countP (fun a => q ∈ owners (ungranted (lm.queue a.1))) =
      r.countP fun a => q ∈ owners (ungranted (lm'.queue a.1)) :=
    List.countP_congr fun a ha => by
      rw [hsame a.1 fun h => hr (List.mem_map.mpr ⟨a, ha, h.symm⟩)]
  simp only [hl', hr', hbefore, hafter, decide_true, decide_false, if_true, Bool.false_eq_true,
    if_false]
  omega

/-! ## What the calls change -/

/-- The queues after `Lock` of `p`: its requests stand behind those of the
others, which miss the locks they missed before. -/
structure Requested (asks : Ptr → List (Key × LockMode)) (locked : List Ptr) (p : Ptr)
    (lm lm' : LockManager) : Prop where
  queues : QueueInv asks (locked ++ [p]) lm'
  stands : ∀ a ∈ asks p, ⟨a.2, p⟩ ∈ lm'.queue a.1
  kept : ∀ k, ∀ r ∈ lm.queue k, r ∈ lm'.queue k
  others : ∀ k q, q ≠ p → q ∈ owners (lm'.queue k) → q ∈ owners (lm.queue k)
  missing : ∀ q, q ≠ p → lm'.missing asks q = lm.missing asks q

/-- The queues after `Release` of the key `k` by `p`: its request is gone, and each
of `granted` misses one lock less. -/
structure Handed (asks : Ptr → List (Key × LockMode)) (locked : List Ptr) (p : Ptr) (k : Key)
    (granted : List Ptr) (lm lm' : LockManager) : Prop where
  queues : QueueInv asks locked lm'
  gone : p ∉ owners (lm'.queue k)
  sub : ∀ k', ∀ r ∈ lm'.queue k', r ∈ lm.queue k'
  kept : ∀ k', ∀ r ∈ lm.queue k', r.owner ≠ p ∨ k ≠ k' → r ∈ lm'.queue k'
  grantedNodup : granted.Nodup
  grantedOther : p ∉ granted
  missingGranted : ∀ q ∈ granted, lm.missing asks q = lm'.missing asks q + 1
  missingOther : ∀ q, q ∉ granted → q ≠ p → lm'.missing asks q = lm.missing asks q
  missingSelf : lm'.missing asks p ≤ lm.missing asks p

namespace QueueInv

variable {asks : Ptr → List (Key × LockMode)} {locked : List Ptr} {lm lm' : LockManager} {p : Ptr}

/-- A request that is appended keeps the order of each queue. -/
theorem append (hi : QueueInv asks locked lm) (hkeys : ((asks p).map Prod.fst).Nodup)
    (hp : p ∉ locked) (hq : ∀ k, lm'.queue k =
      lm.queue k ++ ((asks p).filter fun a => a.1 = k).map fun a => ⟨a.2, p⟩) :
    QueueInv asks (locked ++ [p]) lm' := by
  have hcases := queue_requests lm lm' hkeys hq
  have hlast : ∀ q ∈ locked, q ≠ p := fun q hq h => hp (h ▸ hq)
  refine ⟨?_, fun k => ?_, fun k r hr => ?_⟩
  · exact List.nodup_append.mpr ⟨hi.lockedNodup, List.nodup_singleton p, fun a ha b hb => by
      rw [List.mem_singleton.mp hb]
      exact hlast a ha⟩
  · have hold : (owners (lm.queue k)).Pairwise (Before (locked ++ [p])) :=
      (hi.ordered k).imp_of_mem fun ha hb h => by
        obtain ⟨x, hx, rfl⟩ := mem_owners.mp ha
        obtain ⟨y, hy, rfl⟩ := mem_owners.mp hb
        exact (before_concat (hi.asked k x hx).1 (hi.asked k y hy).1).mpr h
    rcases hcases k with ⟨h, -⟩ | ⟨a, -, -, h⟩
    · rw [h]
      exact hold
    · rw [h, owners_append]
      refine List.pairwise_append.mpr ⟨hold, List.pairwise_singleton _ _, fun x hx y hy => ?_⟩
      obtain ⟨r, hr, rfl⟩ := mem_owners.mp hx
      rw [owners_cons, owners_nil, List.mem_singleton] at hy
      rw [hy]
      exact before_last (hi.asked k r hr).1 hp
  · have hold : r ∈ lm.queue k → r.owner ∈ locked ++ [p] ∧ (k, r.mode) ∈ asks r.owner :=
      fun h => ⟨List.mem_append_left _ (hi.asked k r h).1, (hi.asked k r h).2⟩
    rcases hcases k with ⟨h, -⟩ | ⟨a, ha, hak, h⟩
    · rw [h] at hr
      exact hold hr
    · rw [h, List.mem_append, List.mem_singleton] at hr
      rcases hr with hr | rfl
      · exact hold hr
      · exact ⟨by simp, by rw [← hak]; exact ha⟩

/-- The requests of a transaction that is locked for the first time. -/
theorem requested (hi : QueueInv asks locked lm) (hkeys : ((asks p).map Prod.fst).Nodup)
    (hp : p ∉ locked) (hq : ∀ k, lm'.queue k =
      lm.queue k ++ ((asks p).filter fun a => a.1 = k).map fun a => ⟨a.2, p⟩) :
    Requested asks locked p lm lm' ∧ lm'.missing asks p =
      (asks p).countP fun a => notGranted a.2 (lm.queue a.1 ++ [⟨a.2, p⟩]) := by
  have hcases := queue_requests lm lm' hkeys hq
  have hqa : ∀ a ∈ asks p, lm'.queue a.1 = lm.queue a.1 ++ [⟨a.2, p⟩] := fun a ha => by
    rw [hq, filter_key hkeys ha]
    rfl
  refine ⟨⟨hi.append hkeys hp hq, fun a ha => ?_, fun k r hr => ?_, fun k q hqp hmem => ?_,
    fun q hqp => ?_⟩, ?_⟩
  · rw [hqa a ha]
    simp
  · rw [hq]
    exact List.mem_append_left _ hr
  · rcases hcases k with ⟨h, -⟩ | ⟨a, -, -, h⟩
    · rwa [h] at hmem
    · simpa [h, hqp] using hmem
  · refine List.countP_congr fun a _ => ?_
    rcases hcases a.1 with ⟨h, -⟩ | ⟨b, -, -, h⟩
    · rw [h]
    · simp only [decide_eq_true_eq, h]
      exact ungranted_concat_of_ne (r := ⟨b.2, p⟩) hqp
  · refine List.countP_congr fun a ha => ?_
    simp only [decide_eq_true_eq, hqa a ha, notGranted_iff]
    exact ungranted_concat_self (r := ⟨a.2, p⟩) (hi.not_owner hp a.1)

/-- `Lock` appends the requests, and stores how many locks are missing if any
are. -/
theorem lock {cfg : ClusterConfig} {mode : Nat} {txn : TxnProto} {out : List Ptr}
    (hi : QueueInv asks locked lm) (hkeys : ((asks p).map Prod.fst).Nodup)
    (hasks : asks p = lockRequests cfg mode txn) (hp : p ∉ locked)
    (h : lm.lock cfg mode p txn = (lm', out)) :
    Requested asks locked p lm lm' ∧
      lm'.txnWaits = (if lm'.missing asks p = 0 then lm.txnWaits
        else update lm.txnWaits p (some (lm'.missing asks p : Int))) ∧
      out = if lm'.missing asks p = 0 then [p] else [] := by
  obtain ⟨hq, hw, hc⟩ := requests_spec (asks p) (lm, 0) hkeys fun a _ => hi.not_owner hp a.1
  have hlock := lock_eq cfg mode lm p txn
  rw [← hasks, h] at hlock
  generalize (asks p).foldl (request p) (lm, 0) = st at hq hw hc hlock
  obtain ⟨lm₁, n⟩ := st
  simp only [Nat.zero_add] at hq hw hc hlock
  by_cases hpos : 0 < n
  · rw [if_pos hpos, Prod.mk.injEq] at hlock
    obtain ⟨hlm, rfl⟩ := hlock
    have hqueue : ∀ k, lm'.queue k =
        lm.queue k ++ ((asks p).filter fun a => a.1 = k).map fun a => ⟨a.2, p⟩ := fun k => by
      rw [hlm]
      exact hq k
    obtain ⟨hreq, hself⟩ := hi.requested hkeys hp hqueue
    rw [← hc] at hself
    refine ⟨hreq, ?_, ?_⟩
    · rw [hself, if_neg (by omega), hlm, ← hw]
    · rw [hself, if_neg (by omega)]
  · rw [if_neg hpos, Prod.mk.injEq] at hlock
    obtain ⟨rfl, rfl⟩ := hlock
    obtain ⟨hreq, hself⟩ := hi.requested hkeys hp hq
    rw [← hc] at hself
    refine ⟨hreq, ?_, ?_⟩
    · rw [hself, if_pos (by omega), hw]
    · rw [hself, if_pos (by omega)]

/-- A transaction that misses a lock has been locked. -/
theorem mem_locked_of_missing (hi : QueueInv asks locked lm) (h : lm.missing asks p ≠ 0) :
    p ∈ locked := by
  obtain ⟨a, -, ha⟩ := List.countP_pos_iff.mp (Nat.pos_of_ne_zero h)
  obtain ⟨r, hr, rfl⟩ := mem_owners.mp (of_decide_eq_true ha)
  exact (hi.asked a.1 r (mem_of_mem_ungranted hr)).1

/-- A transaction that is in no queue misses nothing. -/
theorem missing_eq_zero (h : ∀ k, p ∉ owners (lm.queue k)) : lm.missing asks p = 0 := by
  refine List.countP_eq_zero.mpr fun a _ ha => ?_
  obtain ⟨r, hr, hrp⟩ := mem_owners.mp (of_decide_eq_true ha)
  exact h a.1 (mem_owners.mpr ⟨r, mem_of_mem_ungranted hr, hrp⟩)

/-- `Release` of a key takes the request out and grants those it stood in the
way of. -/
theorem releaseKey {a : Key × LockMode} (hi : QueueInv asks locked lm)
    (hkeys : ∀ q, ((asks q).map Prod.fst).Nodup) (hheld : ⟨a.2, p⟩ ∈ lm.queue a.1) :
    ∃ lm' granted, lm.releaseKey a.1 p = some (lm', (grant lm.txnWaits granted).2) ∧
      lm'.txnWaits = (grant lm.txnWaits granted).1 ∧ Handed asks locked p a.1 granted lm lm' := by
  obtain ⟨pre, post, hsplit⟩ := List.append_of_mem hheld
  have hnodup := hi.nodup a.1
  rw [hsplit, owners_append, owners_cons, List.nodup_append, List.nodup_cons] at hnodup
  obtain ⟨-, ⟨hpost, -⟩, hpre⟩ := hnodup
  have hpre' : ∀ r ∈ pre, r.owner ≠ p := fun r hr =>
    hpre r.owner (mem_owners.mpr ⟨r, hr, rfl⟩) p List.mem_cons_self
  have hpost' : ∀ r ∈ post, r.owner ≠ p := fun r hr h => hpost (mem_owners.mpr ⟨r, hr, h⟩)
  obtain ⟨lm', hrel, hqueue, hwaits⟩ := releaseKey_spec hsplit hpre'
  have hremove := ungranted_remove pre post ⟨a.2, p⟩ hpre' hpost'
  rw [← hsplit] at hremove
  have hqa : lm'.queue a.1 = pre ++ post := by rw [hqueue, if_pos rfl]
  have hqo : ∀ k, a.1 ≠ k → lm'.queue k = lm.queue k := fun k hk => by rw [hqueue, if_neg hk]
  generalize hns : owners (inherit pre ⟨a.2, p⟩ post) = ns at hrel hwaits
  -- the owners not granted before are those granted now and those not granted after
  have howners : owners ((ungranted (lm.queue a.1)).filter fun r => r.owner ≠ p) =
      ns ++ owners (ungranted (lm'.queue a.1)) := by
    rw [hremove, owners_append, hns, hqa]
  have hmem : ∀ q, q ≠ p → (q ∈ owners (ungranted (lm.queue a.1)) ↔
      q ∈ ns ∨ q ∈ owners (ungranted (lm'.queue a.1))) := fun q hqp => by
    rw [← List.mem_append, ← howners, mem_owners, mem_owners]
    constructor
    · rintro ⟨r, hr, rfl⟩
      exact ⟨r, List.mem_filter.mpr ⟨hr, by simpa using hqp⟩, rfl⟩
    · rintro ⟨r, hr, rfl⟩
      exact ⟨r, (List.mem_filter.mp hr).1, rfl⟩
  have hnodups : (ns ++ owners (ungranted (lm'.queue a.1))).Nodup := by
    rw [← howners]
    have hsub : (ungranted (lm.queue a.1)).Sublist (lm.queue a.1) := ungranted_sublist _
    exact ((List.filter_sublist.trans hsub).map Request.owner).nodup (hi.nodup a.1)
  have hnsp : p ∉ ns := fun h => by
    have h' := List.mem_append_left (owners (ungranted (lm'.queue a.1))) h
    rw [← howners, mem_owners] at h'
    obtain ⟨r, hr, hrp⟩ := h'
    exact absurd hrp (by simpa using (List.mem_filter.mp hr).2)
  have hsub : ∀ k r, r ∈ lm'.queue k → r ∈ lm.queue k := fun k r hr => by
    by_cases hk : a.1 = k
    · subst hk
      rw [hqa, List.mem_append] at hr
      rw [hsplit, List.mem_append, List.mem_cons]
      exact hr.elim .inl fun h => .inr (.inr h)
    · rwa [hqo k hk] at hr
  have hkeep : ∀ k r, r ∈ lm.queue k → r.owner ≠ p ∨ a.1 ≠ k → r ∈ lm'.queue k :=
    fun k r hr hrp => by
      by_cases hk : a.1 = k
      · subst hk
        rw [hsplit, List.mem_append, List.mem_cons] at hr
        rw [hqa, List.mem_append]
        rcases hr with hr | rfl | hr
        · exact .inl hr
        · exact (hrp.elim (fun h => h rfl) fun h => h rfl).elim
        · exact .inr hr
      · rwa [hqo k hk]
  have hpgone : p ∉ owners (lm'.queue a.1) := fun h => by
    obtain ⟨r, hr, hrp⟩ := mem_owners.mp h
    rw [hqa, List.mem_append] at hr
    exact hr.elim (fun hr => hpre' r hr hrp) fun hr => hpost' r hr hrp
  refine ⟨lm', ns, hrel, hwaits, ?_, hpgone, hsub, hkeep, (List.nodup_append.mp hnodups).1, hnsp,
    fun q hq => ?_, fun q hq hqp => ?_, ?_⟩
  · refine ⟨hi.lockedNodup, fun k => ?_, fun k r hr => hi.asked k r (hsub k r hr)⟩
    by_cases hk : a.1 = k
    · subst hk
      have hord := hi.ordered a.1
      rw [hsplit, owners_append, owners_cons] at hord
      rw [hqa, owners_append]
      exact hord.sublist ((List.sublist_cons_self ..).append_left _)
    · rw [hqo k hk]
      exact hi.ordered k
  · -- granted now: on this key it is not missing any more
    have hqp : q ≠ p := fun h => hnsp (h ▸ hq)
    have hbefore := (hmem q hqp).mpr (.inl hq)
    refine missing_of_grant (hkeys q) ?_ hqo hbefore fun h => ?_
    · obtain ⟨r, hr, rfl⟩ := mem_owners.mp hbefore
      exact ⟨r.mode, (hi.asked a.1 r (mem_of_mem_ungranted hr)).2⟩
    · exact (List.nodup_append.mp hnodups).2.2 q hq q h rfl
  · refine List.countP_congr fun b _ => ?_
    by_cases hk : a.1 = b.1
    · rw [← hk]
      simp only [decide_eq_true_eq, hmem q hqp, hq, false_or]
    · rw [hqo _ hk]
  · refine List.countP_mono_left fun b _ hb => ?_
    by_cases hk : a.1 = b.1
    · obtain ⟨r, hr, hrp⟩ := mem_owners.mp (of_decide_eq_true hb)
      rw [← hk] at hr
      exact absurd (mem_owners.mpr ⟨r, mem_of_mem_ungranted hr, hrp⟩) hpgone
    · rwa [hqo _ hk] at hb

end QueueInv

end Calvin.LockManager
