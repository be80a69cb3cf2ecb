import Mathlib.Logic.Function.Basic
import Calvin.Backend.StorageManager

/-!
# Executing a transaction

`Execute` of `applications/microbenchmark.cc`. A remaster transaction changes
the master and the counter of its record; any other transaction changes the
values of its `read_write_set` only. How the new values come from the objects is
a parameter.

The access statistics of the records are a state of their own: they decide when
a new remaster transaction is sent, and nothing else reads them.
-/

namespace Calvin

open Function

/-- The values a transaction computes from its objects. They do not depend on
which copy of the transaction is executed. -/
abbrev Compute := ClientTxn → (Key → Option Record) → Key → Value

namespace Microbenchmark

/-- The remaster branch. The record is written through its pointer, so a copy
leaves the storage as it is; `none` is a failed `CHECK`. -/
def remaster (txn : TxnProto) (sm : StorageManager) (store : Key → Record) :
    Option (Key → Record) :=
  txn.readWriteSet.head?.bind fun entry =>
    (sm.readObject store entry.key).bind fun val =>
      if entry.master = val.master ∧ entry.counter = val.counter then
        if sm.objects.lookup entry.key = some .stored then
          some (update store entry.key
            { val with master := txn.remasterTo, counter := entry.counter + 1 })
        else some store
      else none

/-- The other transactions write the values of the records they point to. -/
def writeValues (compute : Compute) (txn : TxnProto) (sm : StorageManager)
    (store : Key → Record) : Key → Record := fun k =>
  if k ∈ txn.client.writeKeys ∧ sm.objects.lookup k = some .stored then
    { store k with value := compute txn.client (sm.readObject store) k }
  else store k

/-- `Execute`, without the access statistics. -/
def execute (compute : Compute) (txn : TxnProto) (sm : StorageManager) (store : Key → Record) :
    Option (Key → Record) :=
  if txn.remasterTxn then remaster txn sm store else some (writeValues compute txn sm store)

/-! ## Access statistics -/

/-- `REPLICA_SIZE`, the length of `access_pattern`. -/
def Access.replicaSize : Nat := 3

/-- The memory of a new `Record` that its constructor leaves as it is: the three bytes
behind `remastering`, and the words behind `access_cnt`. -/
structure Unset where
  padding : BitVec 24 := 0
  behind : Nat → UInt32 := fun _ => 0

/-- The access statistics of a `Record`. -/
structure Access extends Unset where
  accessPattern : Fin Access.replicaSize → Nat := fun _ => 0
  remastering : Bool := false
  accessCnt : Nat := 0

namespace Access

/-- `access_pattern[i]`. Nothing checks the index: behind the array come `remastering`
with its padding, `access_cnt`, and the memory behind it. -/
def word (a : Access) (i : Nat) : Nat :=
  if h : i < replicaSize then a.accessPattern ⟨i, h⟩
  else if i = replicaSize then a.remastering.toNat + 256 * a.padding.toNat
  else if i = replicaSize + 1 then a.accessCnt
  else (a.behind (i - (replicaSize + 2))).toNat

/-- `access_pattern[i] = w`. -/
def setWord (a : Access) (i w : Nat) : Access :=
  if h : i < replicaSize then { a with accessPattern := update a.accessPattern ⟨i, h⟩ w }
  else if i = replicaSize then
    { a with remastering := decide (w % 256 ≠ 0), padding := .ofNat 24 (w / 256) }
  else if i = replicaSize + 1 then { a with accessCnt := w }
  else { a with behind := update a.behind (i - (replicaSize + 2)) (.ofNat w) }

theorem word_eq (a : Access) (i : Fin replicaSize) : a.word i = a.accessPattern i := dif_pos i.isLt

theorem setWord_eq (a : Access) (i : Fin replicaSize) (w : Nat) :
    a.setWord i w = { a with accessPattern := update a.accessPattern i w } := dif_pos i.isLt

end Access

def kRWSetSize : Nat := 10

/-- `LAST_N_TOUCH`. -/
def lastNTouch : Nat := 10000

/-- A touch by a client of some replica; the second result says whether the
record is to be remastered there. `ACCESS_PATTERN_THRESHOLD` is 0.90. -/
def touch (localReplica clientReplica : Nat) (a : Access) : Access × Bool :=
  let touches := (a.word clientReplica + 1) % UInt32.size
  let a := a.setWord clientReplica touches
  let remaster := decide (clientReplica ≠ localReplica ∧ 90 * lastNTouch < 100 * touches)
  let a := { a with remastering := a.remastering || remaster }
  if lastNTouch < a.accessCnt + 1 then
    ({ a with accessPattern := fun _ => 0, accessCnt := 0 }, remaster)
  else ({ a with accessCnt := a.accessCnt + 1 }, remaster)

/-- The remaster transaction for a record, to the replica of the client. -/
def newRemaster (localReplica clientReplica guid : Nat) (key : Key) (val : Record) : TxnProto where
  txnId := guid
  readWriteSet := [{ key, master := val.master, counter := val.counter }]
  remasterTxn := true
  remasterFrom := localReplica
  remasterTo := clientReplica
  involvedReplicas := [localReplica]

/-- Check whether a record needs to be remastered: the statistics of a record
that is mastered here and not being remastered. -/
def checkRemaster (localReplica clientReplica guid : Nat) (key : Key) (val : Record) (a : Access) :
    Access × List TxnProto :=
  if localReplica = val.master ∧ a.remastering = false then
    let (a, remaster) := touch localReplica clientReplica a
    (a, if remaster then [newRemaster localReplica clientReplica guid key val] else [])
  else (a, [])

/-- The statistics in the loop of `Execute`: those of the stored records and
those of the copies, which are new, and what has been sent. -/
structure Accesses where
  stored : Key → Access
  copied : Key → Access
  sent : List TxnProto := []

/-- One round of the loop; `guids` are the answers of `GetGUID`. -/
def accessEntry (localReplica : Nat) (guids : Nat → Nat) (txn : TxnProto) (sm : StorageManager)
    (store : Key → Record) (st : Accesses) (entry : KeyEntry) : Accesses :=
  let key := entry.key
  let guid := guids st.sent.length
  match sm.objects.lookup key with
  | none => st
  | some .stored =>
      let (a, sent) :=
        checkRemaster localReplica txn.clientReplica guid key (store key) (st.stored key)
      { st with stored := update st.stored key a, sent := st.sent ++ sent }
  | some (.copied val) =>
      let (a, sent) := checkRemaster localReplica txn.clientReplica guid key val (st.copied key)
      { st with copied := update st.copied key a, sent := st.sent ++ sent }

/-- What `Execute` does to the statistics of the stored records, and the
remaster transactions it sends. `unset` is what the copies have found in memory. -/
def executeAccess (localReplica mode : Nat) (guids : Nat → Nat) (unset : Key → Unset)
    (txn : TxnProto) (sm : StorageManager) (store : Key → Record) (access : Key → Access) :
    (Key → Access) × List TxnProto :=
  if txn.remasterTxn then
    match txn.readWriteSet.head? with
    | some entry =>
        if localReplica = txn.remasterFrom ∧ sm.objects.lookup entry.key = some .stored then
          (update access entry.key { access entry.key with remastering := false }, [])
        else (access, [])
    | none => (access, [])
  else if mode = 2 then
    let st := (txn.readWriteSet.take kRWSetSize).foldl
      (accessEntry localReplica guids txn sm store)
      { stored := access, copied := fun k => { toUnset := unset k } }
    (st.stored, st.sent)
  else (access, [])

/-- A transaction that remasters a key from a counter on. -/
def remasters (k : Key) (c : Nat) (txn : TxnProto) : Bool :=
  txn.remasterTxn && txn.readWriteSet.any fun entry => entry.key = k ∧ entry.counter = c

theorem remasters_newRemaster {localReplica clientReplica guid : Nat} {key k : Key} {val : Record}
    {c : Nat} : remasters k c (newRemaster localReplica clientReplica guid key val) = true ↔
      key = k ∧ val.counter = c := by
  simp [remasters, newRemaster]

/-- A touch with a valid index sets no flag but for a remaster transaction, and counts
one. -/
theorem touch_spec (localReplica : Nat) (c : Fin Access.replicaSize) (a : Access) :
    (touch localReplica c a).1.remastering =
        (a.remastering || (touch localReplica c a).2) ∧
      ((touch localReplica c a).2 = true → 90 * lastNTouch < 100 * (a.accessPattern c + 1)) ∧
      ∀ i, (touch localReplica c a).1.accessPattern i ≤ a.accessPattern i + 1 := by
  have hmod : (a.accessPattern c + 1) % UInt32.size ≤ a.accessPattern c + 1 := Nat.mod_le _ _
  unfold touch
  dsimp only
  rw [Access.word_eq, Access.setWord_eq]
  dsimp only
  split
  case isTrue =>
      refine ⟨rfl, fun h => ?_, fun i => Nat.zero_le _⟩
      have hlt := (of_decide_eq_true h).2
      omega
  case isFalse =>
      refine ⟨rfl, fun h => ?_, fun i => ?_⟩
      · have hlt := (of_decide_eq_true h).2
        omega
      · dsimp only
        by_cases hi : i = c
        · rw [hi, update_self]
          exact hmod
        · rw [update_of_ne hi]
          exact Nat.le_succ _

/-- A remaster transaction is sent for a record that is mastered here and not
being remastered, and it is being remastered from then on. -/
theorem checkRemaster_cases (localReplica : Nat) (c : Fin Access.replicaSize) (guid : Nat)
    (key : Key) (val : Record) (a : Access) :
    ((checkRemaster localReplica c guid key val a).2 = [] ∧
      (checkRemaster localReplica c guid key val a).1.remastering = a.remastering) ∨
    ((checkRemaster localReplica c guid key val a).2 =
        [newRemaster localReplica c guid key val] ∧
      val.master = localReplica ∧ a.remastering = false ∧
      (checkRemaster localReplica c guid key val a).1.remastering = true ∧
      90 * lastNTouch < 100 * (a.accessPattern c + 1)) := by
  obtain ⟨hflag, htouches, -⟩ := touch_spec localReplica c a
  unfold checkRemaster
  split
  case isFalse => exact .inl ⟨rfl, rfl⟩
  case isTrue h =>
      cases hr : (touch localReplica c a).2 with
      | false =>
          refine .inl ⟨by simp [hr], ?_⟩
          show (touch localReplica c a).1.remastering = a.remastering
          rw [hflag, hr, Bool.or_false]
      | true =>
          refine .inr ⟨by simp [hr], h.1.symm, h.2, ?_, htouches hr⟩
          show (touch localReplica c a).1.remastering = true
          rw [hflag, hr, Bool.or_true]

theorem checkRemaster_pattern (localReplica : Nat) (c : Fin Access.replicaSize) (guid : Nat)
    (key : Key) (val : Record) (a : Access) (i : Fin Access.replicaSize) :
    (checkRemaster localReplica c guid key val a).1.accessPattern i ≤ a.accessPattern i + 1 := by
  unfold checkRemaster
  split
  case isFalse => exact Nat.le_succ _
  case isTrue => exact (touch_spec localReplica c a).2.2 i

/-- What the loop of `Execute` keeps. -/
structure AccessesOk (localReplica : Nat) (c : Fin Access.replicaSize) (sm : StorageManager)
    (store : Key → Record) (access : Key → Access) (rounds : Nat) (st : Accesses) : Prop where
  sent : ∀ txn ∈ st.sent, ∃ k guid,
    txn = newRemaster localReplica c guid k (store k) ∧
    sm.objects.lookup k = some .stored ∧ (store k).master = localReplica ∧
    (access k).remastering = false ∧ (st.stored k).remastering = true
  kept : ∀ k, (access k).remastering = true → (st.stored k).remastering = true
  once : ∀ k c, st.sent.countP (remasters k c) ≤ 1
  copied : ∀ k r, (st.copied k).accessPattern r ≤ rounds

theorem AccessesOk.entry {localReplica : Nat} {c : Fin Access.replicaSize} (guids : Nat → Nat)
    {txn : TxnProto} {sm : StorageManager} {store : Key → Record} {access : Key → Access}
    {rounds : Nat} {st : Accesses} (h : AccessesOk localReplica c sm store access rounds st)
    (hclient : txn.clientReplica = c) (hrounds : rounds < kRWSetSize) (entry : KeyEntry) :
    AccessesOk localReplica c sm store access (rounds + 1)
      (accessEntry localReplica guids txn sm store st entry) := by
  have hcopied : ∀ k r, (st.copied k).accessPattern r ≤ rounds + 1 := fun k r =>
    Nat.le_succ_of_le (h.copied k r)
  unfold accessEntry
  rw [hclient]
  dsimp only
  split
  case h_1 => exact ⟨h.sent, h.kept, h.once, hcopied⟩
  case h_2 hstored =>
      have hcases := checkRemaster_cases localReplica c (guids st.sent.length)
        entry.key (store entry.key) (st.stored entry.key)
      generalize checkRemaster localReplica c (guids st.sent.length) entry.key
        (store entry.key) (st.stored entry.key) = res at hcases
      obtain ⟨a, out⟩ := res
      dsimp only at hcases ⊢
      have hflag : ∀ k, (st.stored k).remastering = true →
          (update st.stored entry.key a k).remastering = true := by
        intro k hk
        by_cases hke : k = entry.key
        · subst hke
          rw [update_self]
          rcases hcases with ⟨-, heq⟩ | ⟨-, -, -, htrue, -⟩
          · rw [heq, hk]
          · exact htrue
        · rwa [update_of_ne hke]
      refine ⟨fun t ht => ?_, fun k hk => hflag k (h.kept k hk), fun k c => ?_, hcopied⟩
      · rcases List.mem_append.mp ht with ht | ht
        · obtain ⟨k, guid, heq, hlookup, hmaster, hfalse, htrue⟩ := h.sent t ht
          exact ⟨k, guid, heq, hlookup, hmaster, hfalse, hflag k htrue⟩
        · rcases hcases with ⟨hnil, -⟩ | ⟨hout, hmaster, hfalse, htrue, -⟩
          · rw [hnil] at ht
            exact absurd ht List.not_mem_nil
          · rw [hout] at ht
            refine ⟨entry.key, _, List.mem_singleton.mp ht, hstored, hmaster, ?_, ?_⟩
            · cases hold : (access entry.key).remastering with
              | false => rfl
              | true => exact absurd (h.kept _ hold) (by rw [hfalse]; exact Bool.false_ne_true)
            · show (update st.stored entry.key a entry.key).remastering = true
              rw [update_self]
              exact htrue
      · rw [List.countP_append]
        rcases hcases with ⟨hnil, -⟩ | ⟨hout, -, hfalse, -, -⟩
        · rw [hnil, List.countP_nil]
          exact h.once k c
        · rw [hout, List.countP_singleton]
          split
          case isFalse => exact h.once k c
          case isTrue hfor =>
              -- nothing was sent for this key before: it was not being remastered
              obtain ⟨rfl, -⟩ := remasters_newRemaster.mp hfor
              have hnone : st.sent.countP (remasters entry.key c) = 0 := by
                rw [List.countP_eq_zero]
                intro t ht hsame
                obtain ⟨k, guid, rfl, -, -, -, htrue⟩ := h.sent t ht
                obtain ⟨rfl, -⟩ := remasters_newRemaster.mp hsame
                rw [hfalse] at htrue
                cases htrue
              omega
  case h_3 val _ =>
      have hcases := checkRemaster_cases localReplica c (guids st.sent.length)
        entry.key val (st.copied entry.key)
      have hpattern := checkRemaster_pattern localReplica c
        (guids st.sent.length) entry.key val (st.copied entry.key)
      generalize checkRemaster localReplica c (guids st.sent.length) entry.key
        val (st.copied entry.key) = res at hcases hpattern
      obtain ⟨a, out⟩ := res
      dsimp only at hcases hpattern ⊢
      have hnil : out = [] := by
        rcases hcases with ⟨hnil, -⟩ | ⟨-, -, -, -, hlt⟩
        · exact hnil
        · -- a copy is touched in this loop only
          have hle := h.copied entry.key c
          unfold lastNTouch at hlt
          unfold kRWSetSize at hrounds
          omega
      rw [hnil, List.append_nil]
      refine ⟨h.sent, h.kept, h.once, fun k r => ?_⟩
      show (update st.copied entry.key a k).accessPattern r ≤ rounds + 1
      by_cases hke : k = entry.key
      · subst hke
        rw [update_self]
        exact Nat.le_trans (hpattern r) (Nat.succ_le_succ (h.copied _ r))
      · rw [update_of_ne hke]
        exact hcopied k r

/-- A transaction that is no remaster transaction sends at most one remaster
transaction for a key, and only for a stored record that is mastered here and
not being remastered. -/
theorem executeAccess_spec (localReplica mode : Nat) (guids : Nat → Nat) (unset : Key → Unset)
    {txn : TxnProto} (sm : StorageManager) (store : Key → Record) (access : Key → Access)
    (hr : txn.remasterTxn = false) (hclient : txn.clientReplica < Access.replicaSize) :
    let res := executeAccess localReplica mode guids unset txn sm store access
    (∀ t ∈ res.2, ∃ k guid,
      t = newRemaster localReplica txn.clientReplica guid k (store k) ∧
      sm.objects.lookup k = some .stored ∧ (store k).master = localReplica ∧
      (access k).remastering = false ∧ (res.1 k).remastering = true) ∧
    (∀ k, (access k).remastering = true → (res.1 k).remastering = true) ∧
    ∀ k c, res.2.countP (remasters k c) ≤ 1 := by
  have hloop : ∀ (entries : List KeyEntry) (rounds : Nat) (st : Accesses),
      entries.length + rounds ≤ kRWSetSize →
      AccessesOk localReplica ⟨txn.clientReplica, hclient⟩ sm store access rounds st →
      AccessesOk localReplica ⟨txn.clientReplica, hclient⟩ sm store access (entries.length + rounds)
        (entries.foldl (accessEntry localReplica guids txn sm store) st) := by
    intro entries
    induction entries with
    | nil =>
        intro rounds st _ h
        rwa [List.length_nil, Nat.zero_add]
    | cons entry rest ih =>
        intro rounds st hlen h
        rw [List.length_cons] at hlen
        have hrest := ih (rounds + 1) _ (by omega) (h.entry guids rfl (by omega) entry)
        rw [List.length_cons, List.foldl_cons]
        rwa [show rest.length + 1 + rounds = rest.length + (rounds + 1) by omega]
  unfold executeAccess
  rw [if_neg (by rw [hr]; exact Bool.false_ne_true)]
  split
  case isTrue =>
      have hok := hloop (txn.readWriteSet.take kRWSetSize) 0
        { stored := access, copied := fun k => { toUnset := unset k } }
        (by rw [List.length_take]; omega)
        { sent := fun t ht => absurd ht List.not_mem_nil
          kept := fun k hk => hk
          once := fun k c => Nat.zero_le _
          copied := fun k r => Nat.le_refl _ }
      exact ⟨hok.sent, hok.kept, hok.once⟩
  case isFalse =>
      exact ⟨fun t ht => absurd ht List.not_mem_nil, fun k hk => hk, fun k c => Nat.zero_le _⟩

/-- A remaster transaction sends nothing and touches its own record only. -/
theorem executeAccess_remaster (localReplica mode : Nat) (guids : Nat → Nat)
    (unset : Key → Unset) {txn : TxnProto} (sm : StorageManager) (store : Key → Record)
    (access : Key → Access) {entry : KeyEntry}
    (hr : txn.remasterTxn = true) (he : txn.readWriteSet.head? = some entry) :
    let res := executeAccess localReplica mode guids unset txn sm store access
    res.2 = [] ∧ (∀ k, k ≠ entry.key → res.1 k = access k) ∧
      (sm.objects.lookup entry.key ≠ some .stored → res.1 = access) := by
  unfold executeAccess
  rw [if_pos hr, he]
  dsimp only
  split
  case isTrue h => exact ⟨rfl, fun k hk => update_of_ne hk _ _, fun hcopy => absurd h.2 hcopy⟩
  case isFalse => exact ⟨rfl, fun k _ => rfl, fun _ => rfl⟩

/-! ## What it does to the records -/

/-- A remaster transaction that holds the stored record moves its counter
on; it names the record as it is. -/
theorem execute_remaster {compute : Compute} (txn : TxnProto) {sm : StorageManager}
    {store store' : Key → Record} {entry : KeyEntry} (hr : txn.remasterTxn = true)
    (he : txn.readWriteSet.head? = some entry)
    (hstored : sm.objects.lookup entry.key = some .stored)
    (h : execute compute txn sm store = some store') :
    (entry.master = (store entry.key).master ∧ entry.counter = (store entry.key).counter) ∧
      store' = update store entry.key
        { store entry.key with master := txn.remasterTo, counter := entry.counter + 1 } := by
  have hval : sm.readObject store entry.key = some (store entry.key) := by
    rw [StorageManager.readObject, hstored]
    rfl
  rw [execute, if_pos hr, remaster, he, Option.bind_some, hval, Option.bind_some] at h
  split at h
  case isTrue hcheck =>
      exact ⟨hcheck, (Option.some.inj h).symm⟩
  case isFalse => cases h

/-- A copy is written, the storage stays. -/
theorem execute_remaster_copy {compute : Compute} (txn : TxnProto) {sm : StorageManager}
    {store store' : Key → Record} {entry : KeyEntry} (hr : txn.remasterTxn = true)
    (he : txn.readWriteSet.head? = some entry)
    (hcopy : sm.objects.lookup entry.key ≠ some .stored)
    (h : execute compute txn sm store = some store') : store' = store := by
  rw [execute, if_pos hr, remaster, he, Option.bind_some, Option.bind_eq_some_iff] at h
  obtain ⟨val, -, h⟩ := h
  rw [if_neg hcopy] at h
  split at h
  case isTrue => exact (Option.some.inj h).symm
  case isFalse => cases h

/-- Remaster transactions change no value. -/
theorem execute_remaster_value {compute : Compute} {txn : TxnProto} {sm : StorageManager}
    {store store' : Key → Record} (hr : txn.remasterTxn = true)
    (h : execute compute txn sm store = some store') (k : Key) :
    (store' k).value = (store k).value := by
  have h' := h
  rw [execute, if_pos hr, remaster, Option.bind_eq_some_iff] at h'
  obtain ⟨entry, he, -⟩ := h'
  by_cases hstored : sm.objects.lookup entry.key = some .stored
  · obtain ⟨-, rfl⟩ := execute_remaster txn hr he hstored h
    by_cases hk : k = entry.key
    · subst hk
      rw [update_self]
    · rw [update_of_ne hk]
  · rw [execute_remaster_copy txn hr he hstored h]

/-- Only remaster transactions change masters and counters. -/
theorem execute_normal {compute : Compute} {txn : TxnProto} {sm : StorageManager}
    {store store' : Key → Record} (hr : txn.remasterTxn = false)
    (h : execute compute txn sm store = some store') (k : Key) :
    (store' k).master = (store k).master ∧ (store' k).counter = (store k).counter := by
  rw [execute, if_neg (by rw [hr]; exact Bool.false_ne_true)] at h
  cases h
  unfold writeValues
  split <;> exact ⟨rfl, rfl⟩

/-- No counter ever goes down. -/
theorem execute_counter {compute : Compute} {txn : TxnProto} {sm : StorageManager}
    {store store' : Key → Record} (h : execute compute txn sm store = some store') (k : Key) :
    (store k).counter ≤ (store' k).counter := by
  cases hr : txn.remasterTxn with
  | false =>
      exact Nat.le_of_eq (execute_normal hr h k).2.symm
  | true =>
      have h' := h
      rw [execute, if_pos hr, remaster, Option.bind_eq_some_iff] at h'
      obtain ⟨entry, he, -⟩ := h'
      by_cases hstored : sm.objects.lookup entry.key = some .stored
      · obtain ⟨⟨-, hcounter⟩, rfl⟩ := execute_remaster txn hr he hstored h
        by_cases hk : k = entry.key
        · subst hk
          rw [update_self, hcounter]
          exact Nat.le_succ _
        · rw [update_of_ne hk]
      · rw [execute_remaster_copy txn hr he hstored h]

/-- A master or a counter changes only where the transaction writes a stored
record. -/
theorem execute_moved {compute : Compute} {txn : TxnProto} {sm : StorageManager}
    {store store' : Key → Record} (h : execute compute txn sm store = some store') (k : Key) :
    ((store' k).master = (store k).master ∧ (store' k).counter = (store k).counter) ∨
      sm.objects.lookup k = some .stored ∧ ∃ entry ∈ txn.readWriteSet, entry.key = k := by
  cases hr : txn.remasterTxn with
  | false => exact .inl (execute_normal hr h k)
  | true =>
      have h' := h
      rw [execute, if_pos hr, remaster, Option.bind_eq_some_iff] at h'
      obtain ⟨entry, he, -⟩ := h'
      by_cases hstored : sm.objects.lookup entry.key = some .stored
      · obtain ⟨-, rfl⟩ := execute_remaster txn hr he hstored h
        by_cases hk : k = entry.key
        · subst hk
          exact .inr ⟨hstored, entry, List.mem_of_head? he, rfl⟩
        · rw [update_of_ne hk]
          exact .inl ⟨rfl, rfl⟩
      · rw [execute_remaster_copy txn hr he hstored h]
        exact .inl ⟨rfl, rfl⟩

end Microbenchmark

end Calvin
