import Mathlib.Data.Prod.Lex
import Calvin.Theorems.ParticipantsReady

/-!
# Who sends an aborted transaction again

In mode 2 all participants of an aborted transaction, in all replicas, could send
it again. One does: the participant of the least involved machine, at the replica
of its origin.

* `minMachine_le`: the machine of the constructor is the least one;
* `one_retry`: one participant in the cluster is placed to send the transaction,
  and sends it if it aborts.
-/

namespace Calvin.ReadExchange

open StorageManager Replica

/-! ## The least machine -/

/-- The loop over `involved_machines_`, from any machine. -/
theorem foldl_minMachine (machines : List (Nat × Nat)) (start : Nat × Nat) :
    let least := machines.foldl
      (fun least machine =>
        if machine.1 < least.1 ∨ (machine.1 = least.1 ∧ machine.2 < least.2) then machine
        else least)
      start
    least ∈ start :: machines ∧ ∀ machine ∈ start :: machines, toLex least ≤ toLex machine := by
  induction machines generalizing start with
  | nil =>
      refine ⟨List.mem_cons_self, fun machine hm => ?_⟩
      rw [List.mem_singleton.mp hm]
      exact le_refl _
  | cons machine rest ih =>
      dsimp only [List.foldl_cons] at ih ⊢
      split
      case isTrue hlt =>
          obtain ⟨hmem, hle⟩ := ih machine
          have hfirst : toLex machine ≤ toLex start := by
            rw [Prod.Lex.toLex_le_toLex]
            omega
          refine ⟨List.mem_cons_of_mem _ hmem, fun other hother => ?_⟩
          rcases List.mem_cons.mp hother with rfl | hother
          · exact le_trans (hle machine List.mem_cons_self) hfirst
          · exact hle other hother
      case isFalse hge =>
          obtain ⟨hmem, hle⟩ := ih start
          have hfirst : toLex start ≤ toLex machine := by
            rw [Prod.Lex.toLex_le_toLex]
            omega
          constructor
          · rcases List.mem_cons.mp hmem with hmem | hmem
            · rw [hmem]
              exact List.mem_cons_self
            · exact List.mem_cons_of_mem _ (List.mem_cons_of_mem _ hmem)
          · intro other hother
            rcases List.mem_cons.mp hother with rfl | hother
            · exact hle other List.mem_cons_self
            rcases List.mem_cons.mp hother with rfl | hother
            · exact le_trans (hle start List.mem_cons_self) hfirst
            · exact hle other (List.mem_cons_of_mem _ hother)

/-- The least machine is one of them, as none is above the start of the loop. -/
theorem minMachine_le {machines : List (Nat × Nat)} (hne : machines ≠ [])
    (hbound : ∀ machine ∈ machines, toLex machine ≤ toLex (2147483647, 2147483647)) :
    minMachine machines ∈ machines ∧
      ∀ machine ∈ machines, toLex (minMachine machines) ≤ toLex machine := by
  obtain ⟨hmem, hle⟩ := foldl_minMachine machines (2147483647, 2147483647)
  refine ⟨?_, fun machine hm => hle machine (List.mem_cons_of_mem _ hm)⟩
  rcases List.mem_cons.mp hmem with hstart | hmem
  · -- the start itself is the least only if it is one of the machines
    obtain ⟨machine, hm⟩ := List.exists_mem_of_ne_nil machines hne
    have heq : toLex (2147483647, 2147483647) = toLex machine := by
      refine le_antisymm ?_ (hbound machine hm)
      rw [← hstart]
      exact hle machine (List.mem_cons_of_mem _ hm)
    rw [minMachine, hstart, toLex.injective heq]
    exact hm
  · exact hmem

/-! ## What a check does -/

section

variable {cfg : ClusterConfig} {txn : TxnProto} {sm : StorageManager}

theorem readObject_defined (store : Key → Record) {key : Key} (h : key ∈ sm.objects) :
    ∃ val, sm.readObject store key = some val := by
  obtain ⟨object, ho⟩ := Option.isSome_iff_exists.mp (AList.lookup_isSome.mpr h)
  rw [readObject, ho]
  exact ⟨_, rfl⟩

/-- With an object for each key the check finds no null pointer. -/
theorem checkEntries_defined (store : Key → Record) (entries : List KeyEntry)
    (h : ∀ entry ∈ entries, entry.key ∈ sm.objects) :
    ∃ commit, checkEntries store sm entries = some commit := by
  induction entries with
  | nil => exact ⟨true, rfl⟩
  | cons entry rest ih =>
      obtain ⟨commit, hrest⟩ := ih fun e he => h e (List.mem_cons_of_mem _ he)
      obtain ⟨val, hval⟩ := readObject_defined store (h entry List.mem_cons_self)
      rw [checkEntries, hval, Option.bind_some]
      split
      · exact ⟨commit, hrest⟩
      · exact ⟨false, rfl⟩

theorem refreshEntries_defined (store : Key → Record) (entries : List KeyEntry)
    (h : ∀ entry ∈ entries, entry.key ∈ sm.objects) :
    ∃ refreshed, refreshEntries store sm entries = some refreshed := by
  induction entries with
  | nil => exact ⟨[], rfl⟩
  | cons entry rest ih =>
      obtain ⟨refreshed, hrest⟩ := ih fun e he => h e (List.mem_cons_of_mem _ he)
      obtain ⟨val, hval⟩ := readObject_defined store (h entry List.mem_cons_self)
      rw [refreshEntries] at hrest ⊢
      rw [List.mapM_cons, hrest, hval]
      exact ⟨_, rfl⟩

theorem decision_defined (store : Key → Record)
    (h : ∀ entry ∈ txn.client.entries, entry.key ∈ sm.objects) :
    ∃ commit status, decision store txn sm = some (commit, status) := by
  obtain ⟨checks, hchecks⟩ := checkEntries_defined store txn.client.entries h
  have hchecks' : checkEntries store sm (txn.readSet ++ txn.readWriteSet) = some checks := hchecks
  unfold decision
  rw [hchecks']
  split
  · exact ⟨_, _, rfl⟩
  split
  · exact ⟨_, _, rfl⟩
  split
  · exact ⟨_, _, rfl⟩
  cases checks with
  | true => exact ⟨_, _, rfl⟩
  | false => exact ⟨_, _, rfl⟩

/-- A participant with all objects decides, and sends the transaction again if
it aborts and is the one that retries. -/
theorem checkCommitOrAbort_defined (cfg : ClusterConfig) (store : Key → Record)
    (h : ∀ entry ∈ txn.client.entries, entry.key ∈ sm.objects)
    (guid random : Nat) :
    ∃ commit status forword,
      sm.checkCommitOrAbort cfg store txn guid random = some (commit, status, forword) ∧
        (forword.isSome ↔ commit = false ∧ retries cfg txn sm = true) := by
  obtain ⟨commit, status, hdecision⟩ := decision_defined store h
  obtain ⟨readSet, hread⟩ := refreshEntries_defined store txn.readSet
    fun entry he => h entry (List.mem_append_left _ he)
  obtain ⟨readWriteSet, hwrite⟩ := refreshEntries_defined store txn.readWriteSet
    fun entry he => h entry (List.mem_append_right _ he)
  rw [checkCommitOrAbort, hdecision, Option.bind_some]
  dsimp only
  split
  · rename_i hretries
    rw [retry, hread, hwrite]
    exact ⟨commit, status, _, rfl, fun _ => hretries, fun _ => rfl⟩
  · rename_i hnot
    refine ⟨commit, status, none, rfl, fun h => (by cases h), fun h => (hnot h).elim⟩

/-- The machine a reader takes for the least. -/
theorem create_minInvolvedMachine (store : Key → Record)
    (hreader : cfg.relativeNodeId ∈ txn.readers) :
    (create cfg 2 store txn).1.minInvolvedMachine =
      some (minMachine (readAll cfg 2 store txn).involvedMachines) := by
  unfold create
  rw [if_pos hreader]
  rfl

end

/-! ## All participants of all replicas -/

/-- The configuration of a replica. -/
def inReplica (cfg : ClusterConfig) (r : Nat) : ClusterConfig := { cfg with localReplicaId := r }

/-- What a participant goes by when it checks a transaction. -/
structure Check where
  /-- The messages it has handled, in order. -/
  messages : List ReadResult
  status : Status
  store : Key → Record
  guid : Nat
  random : Nat

section

variable (cfg : ClusterConfig) (txn : TxnProto)

/-- The participants of all replicas, each with its replica first. -/
def everywhere : List (Nat × Nat × Nat) :=
  (List.range cfg.replicasSize).flatMap fun r => (participants cfg 2 txn).map fun x => (r, x)

variable (stores : Nat → Nat × Nat → Key → Record) (checks : Nat × Nat × Nat → Check)

/-- The transaction at a participant that checks it. -/
def checkedTxn (p : Nat × Nat × Nat) : TxnProto :=
  { forwarded (inReplica cfg p.1) 2 txn p.2 with status := (checks p).status }

/-- The manager of a participant that checks the transaction. -/
def checkedManager (p : Nat × Nat × Nat) : StorageManager :=
  received (inReplica cfg p.1) 2 txn (stores p.1) p.2 (checks p).messages

/-- The placement part of the condition. -/
def placed (p : Nat × Nat × Nat) : Bool :=
  retries (nodeConfig (inReplica cfg p.1) p.2.1) (checkedTxn cfg txn checks p)
    (checkedManager cfg txn stores checks p)

def outcome (p : Nat × Nat × Nat) : Option (Bool × Status × Option TxnForword) :=
  (checkedManager cfg txn stores checks p).checkCommitOrAbort
    (nodeConfig (inReplica cfg p.1) p.2.1) (checks p).store (checkedTxn cfg txn checks p)
    (checks p).guid (checks p).random

/-- The new transactions that the participants send. -/
def newTxns : List TxnForword :=
  (everywhere cfg txn).filterMap fun p =>
    (outcome cfg txn stores checks p).bind fun result => result.2.2

end

section

variable {cfg : ClusterConfig} {txn : TxnProto} {stores : Nat → Nat × Nat → Key → Record}
  {checks : Nat × Nat × Nat → Check}

theorem mem_everywhere {p : Nat × Nat × Nat} :
    p ∈ everywhere cfg txn ↔ p.1 < cfg.replicasSize ∧ p.2 ∈ participants cfg 2 txn := by
  simp only [everywhere, List.mem_flatMap, List.mem_range, List.mem_map]
  constructor
  · rintro ⟨r, hr, x, hx, rfl⟩
    exact ⟨hr, hx⟩
  · rintro ⟨hr, hx⟩
    exact ⟨p.1, hr, p.2, hx, rfl⟩

theorem everywhere_nodup : (everywhere cfg txn).Nodup := by
  refine List.nodup_flatMap.mpr ⟨fun r _ => ?_, List.nodup_range.imp fun {r r'} hne => ?_⟩
  · exact participants_nodup.map fun x y h => (Prod.mk.inj h).2
  · refine List.disjoint_left.mpr ?_
    intro p hp hp'
    obtain ⟨x, -, rfl⟩ := List.mem_map.mp hp
    obtain ⟨x', -, heq⟩ := List.mem_map.mp hp'
    exact hne (Prod.mk.inj heq).1.symm

/-- No participant is above the start of the loop, as machine ids are `int`s. -/
theorem participant_bound (h0 : 0 < cfg.nodesPerReplica)
    (hsize : cfg.nodesPerReplica * cfg.replicasSize ≤ 2147483648)
    (hmasters : ∀ entry ∈ txn.client.entries, entry.master < cfg.replicasSize) {x : Nat × Nat}
    (hx : x ∈ participants cfg 2 txn) : toLex x ≤ toLex (2147483647, 2147483647) := by
  obtain ⟨entry, he, rfl⟩ := mem_participants.mp hx
  have hmaster := hmasters entry he
  have hpart : cfg.lookupPartition entry.key < cfg.nodesPerReplica := Nat.mod_lt _ h0
  rw [Prod.Lex.toLex_le_toLex]
  show cfg.lookupPartition entry.key < 2147483647 ∨
    cfg.lookupPartition entry.key = 2147483647 ∧ entry.master ≤ 2147483647
  rcases Nat.lt_or_ge cfg.replicasSize 2 with hone | htwo
  · have hnodes : cfg.nodesPerReplica ≤ 2147483648 := by
      calc cfg.nodesPerReplica = cfg.nodesPerReplica * 1 := (Nat.mul_one _).symm
        _ ≤ cfg.nodesPerReplica * cfg.replicasSize := Nat.mul_le_mul_left _ (by omega)
        _ ≤ 2147483648 := hsize
    omega
  · have hnodes : cfg.nodesPerReplica * 2 ≤ 2147483648 :=
      le_trans (Nat.mul_le_mul_left _ htwo) hsize
    omega

/-- The machines a participant knows are the participants, and the messages do
not change them. -/
theorem checkedManager_minInvolvedMachine (stores : Nat → Nat × Nat → Key → Record)
    (checks : Nat × Nat × Nat → Check) {p : Nat × Nat × Nat}
    (hp : p.2 ∈ participants cfg 2 txn) : ∃ machines : List (Nat × Nat),
      (checkedManager cfg txn stores checks p).minInvolvedMachine = some (minMachine machines) ∧
        ∀ x, x ∈ machines ↔ x ∈ participants cfg 2 txn := by
  have hp' : p.2 ∈ participants (inReplica cfg p.1) 2 txn := hp
  obtain ⟨hhere, hreader⟩ := here_forwarded hp'
  have hcreated := created_readAll (nodeConfig (inReplica cfg p.1) p.2.1) 2 (stores p.1 p.2)
    (forwarded (inReplica cfg p.1) 2 txn p.2)
  have hkeep : ∀ (messages : List ReadResult) (sm : StorageManager),
      (messages.foldl (fun sm msg => sm.handleReadResult msg.entries) sm).minInvolvedMachine =
        sm.minInvolvedMachine := by
    intro messages
    induction messages with
    | nil => intro sm; rfl
    | cons msg rest ih => exact fun sm => ih _
  refine ⟨_, (hkeep _ _).trans (create_minInvolvedMachine _ hreader), fun x => ?_⟩
  rw [hcreated.involved rfl, mem_participants, forwarded_client]
  simp only [home_forwarded]
  exact Iff.rfl

/-- Placed is the participant of the least machine, in the replica of its
origin. -/
theorem placed_iff (stores : Nat → Nat × Nat → Key → Record) (checks : Nat × Nat × Nat → Check)
    (h0 : 0 < cfg.nodesPerReplica)
    (hsize : cfg.nodesPerReplica * cfg.replicasSize ≤ 2147483648)
    (hmasters : ∀ entry ∈ txn.client.entries, entry.master < cfg.replicasSize)
    {least : Nat × Nat} (hleast : least ∈ participants cfg 2 txn)
    (hle : ∀ x ∈ participants cfg 2 txn, toLex least ≤ toLex x) {p : Nat × Nat × Nat}
    (hp : p.2 ∈ participants cfg 2 txn) :
    placed cfg txn stores checks p = true ↔ p = (least.2, least) := by
  obtain ⟨machines, hmin, hmem⟩ := checkedManager_minInvolvedMachine stores checks hp
  have hne : machines ≠ [] := List.ne_nil_of_mem ((hmem least).mpr hleast)
  obtain ⟨hin, hbelow⟩ := minMachine_le hne fun machine hm =>
    participant_bound h0 hsize hmasters ((hmem machine).mp hm)
  have heq : minMachine machines = least := by
    refine toLex.injective (le_antisymm ?_ ?_)
    · exact hbelow least ((hmem least).mpr hleast)
    · exact hle _ ((hmem _).mp hin)
  rw [placed, retries, hmin, heq]
  show decide (p.1 = p.2.2 ∧ some least = some (p.2.1, p.2.2)) = true ↔ _
  rw [decide_eq_true_eq, Option.some.injEq]
  constructor
  · rintro ⟨hr, rfl⟩
    exact Prod.ext hr rfl
  · rintro rfl
    exact ⟨rfl, rfl⟩

/-- Every participant that has handled its messages has all objects. -/
theorem checkedManager_objects (hwrites : ∀ x ∈ participants cfg 2 txn,
      ∃ entry ∈ txn.readWriteSet, home cfg 2 txn.originReplica entry = x)
    {p : Nat × Nat × Nat} (hp : p.2 ∈ participants cfg 2 txn)
    (hmessages : (checks p).messages.Perm (inbox (inReplica cfg p.1) 2 txn (stores p.1) p.2)) :
    ∀ entry ∈ txn.client.entries,
      entry.key ∈ (checkedManager cfg txn stores checks p).objects := by
  intro entry he
  have hp' : p.2 ∈ participants (inReplica cfg p.1) 2 txn := hp
  refine (mem_received _).mpr ?_
  by_cases hhome : home (inReplica cfg p.1) 2 txn.originReplica entry = p.2
  · exact .inr ((mem_created hp').mpr ⟨entry, he, rfl, hhome⟩)
  · obtain ⟨msg, hmsg, hkey⟩ : ∃ msg ∈ inbox (inReplica cfg p.1) 2 txn (stores p.1) p.2,
        ∃ e ∈ msg.entries, e.1 = entry.key :=
      (mem_inbox (stores p.1)).mpr ⟨hwrites p.2 hp, entry, he, rfl, hhome⟩
    exact .inl ⟨msg, hmessages.mem_iff.mpr hmsg, hkey⟩

end

/-! ## Main results -/

/-- For every transaction with distinct keys and a record to write at every
participant: all participants of all replicas that have handled their messages,
in any order, decide, whatever they read; the participant of the least machine
in the replica of its origin is the one that is placed to send the transaction
again, and one new transaction is sent if it aborts, none if it commits. -/
theorem one_retry (cfg : ClusterConfig) (txn : TxnProto)
    (stores : Nat → Nat × Nat → Key → Record) (checks : Nat × Nat × Nat → Check)
    (h0 : 0 < cfg.nodesPerReplica) (hsize : cfg.nodesPerReplica * cfg.replicasSize ≤ 2147483648)
    (hmasters : ∀ entry ∈ txn.client.entries, entry.master < cfg.replicasSize)
    (hkeys : txn.client.keys.Nodup)
    (hwrites : ∀ x ∈ participants cfg 2 txn,
      ∃ entry ∈ txn.readWriteSet, home cfg 2 txn.originReplica entry = x)
    (hmessages : ∀ p ∈ everywhere cfg txn,
      (checks p).messages.Perm (inbox (inReplica cfg p.1) 2 txn (stores p.1) p.2)) :
    (∀ p ∈ everywhere cfg txn,
        (checkedManager cfg txn stores checks p).readyToExecute txn = true ∧
          (outcome cfg txn stores checks p).isSome = true) ∧
      (txn.client.entries ≠ [] → ∃ least ∈ participants cfg 2 txn,
        (∀ x ∈ participants cfg 2 txn, toLex least ≤ toLex x) ∧
          (least.2, least) ∈ everywhere cfg txn ∧
          (∀ p ∈ everywhere cfg txn,
            placed cfg txn stores checks p = true ↔ p = (least.2, least)) ∧
          ∃ commit status forword,
            outcome cfg txn stores checks (least.2, least) = some (commit, status, forword) ∧
              (newTxns cfg txn stores checks).length = if commit = true then 0 else 1) := by
  have hdefined : ∀ p ∈ everywhere cfg txn, ∃ commit status forword,
      outcome cfg txn stores checks p = some (commit, status, forword) ∧
        (forword.isSome ↔ commit = false ∧ placed cfg txn stores checks p = true) := by
    intro p hp
    refine checkCommitOrAbort_defined _ _ (fun entry he => ?_) _ _
    have hclient : (forwarded (inReplica cfg p.1) 2 txn p.2).client = txn.client :=
      forwarded_client p.2
    refine checkedManager_objects hwrites (mem_everywhere.mp hp).2 (hmessages p hp) entry ?_
    rw [← hclient]
    exact he
  refine ⟨fun p hp => ⟨?_, ?_⟩, fun hne => ?_⟩
  · have hp' : p.2 ∈ participants (inReplica cfg p.1) 2 txn := (mem_everywhere.mp hp).2
    exact (received_ready hp' hkeys (hmessages p hp)).mpr (.inl (hwrites p.2 hp'))
  · obtain ⟨commit, status, forword, houtcome, -⟩ := hdefined p hp
    rw [houtcome]
    rfl
  · obtain ⟨entry, he⟩ := List.exists_mem_of_ne_nil _ hne
    have hparts : participants cfg 2 txn ≠ [] :=
      List.ne_nil_of_mem (mem_participants.mpr ⟨entry, he, rfl⟩)
    obtain ⟨hleast, hle⟩ := minMachine_le hparts fun x hx =>
      participant_bound h0 hsize hmasters hx
    have hplaced := fun p (hp : p ∈ everywhere cfg txn) =>
      placed_iff stores checks h0 hsize hmasters hleast hle
        (mem_everywhere.mp hp).2
    generalize minMachine (participants cfg 2 txn) = least at hleast hle hplaced
    have hmem : (least.2, least) ∈ everywhere cfg txn := by
      obtain ⟨e, he, rfl⟩ := mem_participants.mp hleast
      exact mem_everywhere.mpr ⟨hmasters e he, hleast⟩
    obtain ⟨commit, status, forword, houtcome, hforword⟩ := hdefined _ hmem
    refine ⟨least, hleast, hle, hmem, hplaced, commit, status, forword, houtcome, ?_⟩
    -- the others send nothing
    have honly : newTxns cfg txn stores checks =
        ([(least.2, least)] : List (Nat × Nat × Nat)).filterMap fun p =>
          (outcome cfg txn stores checks p).bind fun result => result.2.2 := by
      have hfilter : (everywhere cfg txn).filter (fun p => p = (least.2, least)) =
          [(least.2, least)] := by
        rw [List.filter_eq, everywhere_nodup.count, if_pos hmem]
        rfl
      rw [← hfilter, List.filterMap_filter, newTxns]
      refine List.filterMap_congr fun p hp => ?_
      by_cases hpl : p = (least.2, least)
      · rw [if_pos (decide_eq_true hpl)]
      · rw [if_neg (by simpa using hpl)]
        obtain ⟨commit, status, forword, houtcome, hforword⟩ := hdefined p hp
        rw [houtcome]
        cases forword with
        | none => rfl
        | some f => exact (hpl ((hplaced p hp).mp (hforword.mp rfl).2)).elim
    rw [honly, List.filterMap_cons, houtcome, List.filterMap_nil]
    have hsent := (hplaced _ hmem).mpr rfl
    cases commit with
    | true =>
        cases forword with
        | none => rfl
        | some f => cases (hforword.mp rfl).1
    | false =>
        cases forword with
        | none => cases hforword.mpr ⟨rfl, hsent⟩
        | some f => rfl

/-- Two replicas of two partitions. -/
def twoByTwo : ClusterConfig := { replicasSize := 2, nodesPerReplica := 2 }

/-- A transaction with a record of each replica, at different partitions. -/
def ofBoth : TxnProto where
  txnId := 7
  readWriteSet := [⟨[49], 0, 0⟩, ⟨[48], 1, 0⟩]

/-- Key '0' has been remastered since. -/
def remastered (key : Key) : Record := if key = [48] then ⟨[], 0, 1⟩ else ⟨[], 0, 0⟩

/-- Every participant has handled all messages. -/
def allHandled (p : Nat × Nat × Nat) : Check where
  messages := inbox (inReplica twoByTwo p.1) 2 ofBoth (fun _ => remastered) p.2
  status := .new
  store := remastered
  guid := 12000
  random := 0

/-- It is aborted by all four participants; partition 0 of replica 1 sends it
again. -/
theorem one_retry_ofBoth :
    (∀ p ∈ everywhere twoByTwo ofBoth,
      ((outcome twoByTwo ofBoth (fun _ _ => remastered) allHandled p).map Prod.fst) = some false) ∧
      (everywhere twoByTwo ofBoth).length = 4 ∧
      ∃ least ∈ participants twoByTwo 2 ofBoth, ∃ commit : Bool,
        ((outcome twoByTwo ofBoth (fun _ _ => remastered) allHandled (least.2, least)).map
          Prod.fst) = some commit ∧
        (newTxns twoByTwo ofBoth (fun _ _ => remastered) allHandled).length =
          if commit = true then 0 else 1 := by
  refine ⟨by decide, by decide, ?_⟩
  obtain ⟨least, hleast, -, -, -, commit, status, forword, houtcome, hlength⟩ :=
    (one_retry twoByTwo ofBoth (fun _ _ => remastered) allHandled (by decide) (by decide)
      (by decide)
      (by decide) (by decide) fun p _ => List.Perm.refl _).2 (by decide)
  exact ⟨least, hleast, commit, by rw [houtcome]; rfl, hlength⟩

end Calvin.ReadExchange
