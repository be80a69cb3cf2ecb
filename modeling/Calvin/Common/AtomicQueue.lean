import Mathlib.Algebra.Group.Nat.Defs
import Calvin.Lib.Ring

/-!
# The atomic queue

`AtomicQueue` (`common/utils.h`), the queue behind every channel and every hand-over
between threads: a circular buffer that is doubled when it has filled up. Each
operation holds the mutexes of what it writes, so that calls take place one after
another.

* `Valid`: the buffer holds the items of a list, and no index comes near the end
  of `uint32`;
* `Valid.push`, `Valid.pop`: the operations do to that list what they do to a
  queue;
* `queue_results`: so do any calls, over any number of doublings.
-/

namespace Calvin

open Lib

/-- `AtomicQueue<T>` as it is constructed; the cells of a vector start out as
`T()`. The members keep the underscore that tells them from the operations. -/
structure AtomicQueue (α : Type) [Inhabited α] where
  queue_ : List α := List.replicate 256 default
  size_ : UInt32 := 256
  front_ : UInt32 := 0
  back_ : UInt32 := 0

namespace AtomicQueue

variable {α : Type} [Inhabited α]

/-- `Size`. -/
def size (q : AtomicQueue α) : UInt32 :=
  (q.back_ + q.size_ - q.front_) % q.size_

/-- `Empty`. -/
def empty (q : AtomicQueue α) : Bool :=
  q.front_ = q.back_

/-- One round of the loop that copies the items behind the old end of the buffer. -/
def copyItem (size front : UInt32) (queue : List α) (i : Nat) : List α :=
  queue.set (size + UInt32.ofNat i).toNat
    (queue.getD ((front + UInt32.ofNat i) % size).toNat default)

/-- What `Push` does first to a buffer that has filled up. -/
def resize (q : AtomicQueue α) : AtomicQueue α :=
  let count := (q.back_ + q.size_ - q.front_) % q.size_
  -- `queue_.resize(size_ * 2)`
  let queue := q.queue_ ++ List.replicate ((q.size_ * 2).toNat - q.queue_.length) default
  { queue_ := (List.range count.toNat).foldl (copyItem q.size_ q.front_) queue
    front_ := q.size_
    back_ := q.size_ + count
    size_ := q.size_ * 2 }

/-- `Push`. -/
def push (q : AtomicQueue α) (item : α) : AtomicQueue α :=
  let q := if q.front_ = (q.back_ + 1) % q.size_ then q.resize else q
  { q with
    queue_ := q.queue_.set q.back_.toNat item
    back_ := (q.back_ + 1) % q.size_ }

/-- `Pop`: the queue afterwards and what is stored to `*result`; `none` is the
answer `false`. -/
def pop (q : AtomicQueue α) : AtomicQueue α × Option α :=
  if q.front_ ≠ q.back_ then
    ({ q with front_ := (q.front_ + 1) % q.size_ }, some (q.queue_.getD q.front_.toNat default))
  else (q, none)

/-- `Front`. -/
def front (q : AtomicQueue α) : Option α :=
  if q.front_ ≠ q.back_ then some (q.queue_.getD q.front_.toNat default) else none

/-! ## What the buffer holds -/

/-- The buffer holds the items, and its size leaves room in `uint32` for the sum
of two indices. -/
structure Valid (q : AtomicQueue α) (items : List α) : Prop where
  cells : q.queue_.length = q.size_.toNat
  small : q.size_.toNat ≤ 2 ^ 31
  holds : Ring.Holds q.queue_ q.front_.toNat items
  back : q.back_.toNat = (q.front_.toNat + items.length) % q.size_.toNat

theorem valid_init : Valid ({} : AtomicQueue α) [] where
  cells := List.length_replicate
  small := by
    show (256 : UInt32).toNat ≤ 2 ^ 31
    decide
  holds := Ring.Holds.nil (by
    rw [List.length_replicate]
    show (0 : UInt32).toNat < 256
    decide)
  back := rfl

namespace Valid

variable {q : AtomicQueue α} {items : List α}

theorem front_lt (h : Valid q items) : q.front_.toNat < q.size_.toNat := by
  rw [← h.cells]
  exact h.holds.front_lt

theorem back_lt (h : Valid q items) : q.back_.toNat < q.size_.toNat := by
  rw [h.back]
  exact Nat.mod_lt _ (Nat.lt_of_le_of_lt (Nat.zero_le _) h.front_lt)

/-- `(back_ + 1) % size_`, and the same for the front, as it is on numbers. -/
theorem toNat_succ (h : Valid q items) {i : UInt32} (hi : i.toNat < q.size_.toNat) :
    ((i + 1) % q.size_).toNat = (i.toNat + 1) % q.size_.toNat := by
  have hsmall := h.small
  rw [UInt32.toNat_mod, UInt32.toNat_add]
  rw [show (1 : UInt32).toNat = 1 from rfl, Nat.mod_eq_of_lt (a := i.toNat + 1) (by omega)]

/-- `(back_ + size_ - front_) % size_` is the number of items. -/
theorem toNat_size (h : Valid q items) : q.size.toNat = items.length := by
  have hsmall := h.small
  have hf := h.front_lt
  have hb := h.back_lt
  have hsum : (q.back_ + q.size_).toNat = q.back_.toNat + q.size_.toNat := by
    rw [UInt32.toNat_add, Nat.mod_eq_of_lt (by omega)]
  have hle : q.front_ ≤ q.back_ + q.size_ := by
    rw [UInt32.le_iff_toNat_le, hsum]
    omega
  rw [size, UInt32.toNat_mod, UInt32.toNat_sub_of_le _ _ hle, hsum, h.back, ← h.cells]
  exact h.holds.count

theorem front_eq_back_iff (h : Valid q items) : q.front_ = q.back_ ↔ items = [] := by
  rw [← h.holds.back_eq_front_iff, ← UInt32.toNat_inj, h.back, h.cells]

theorem full_iff (h : Valid q items) :
    q.front_ = (q.back_ + 1) % q.size_ ↔ items.length + 1 = q.size_.toNat := by
  rw [← UInt32.toNat_inj, h.toNat_succ h.back_lt, h.back, ← h.cells]
  exact h.holds.full_iff

/-- The item in front is read from the front cell. -/
theorem front_cell {x : α} (h : Valid q (x :: items)) :
    q.queue_.getD q.front_.toNat default = x := by
  rw [List.getD_eq_getElem?_getD, h.holds.pop.1, Option.getD_some]

theorem empty_iff (h : Valid q items) : q.empty = true ↔ items = [] := by
  rw [empty, decide_eq_true_eq]
  exact h.front_eq_back_iff

/-- `Front` shows the first item. -/
theorem front_eq (h : Valid q items) : q.front = items.head? := by
  unfold front
  cases items with
  | nil => rw [if_neg (not_not.mpr (h.front_eq_back_iff.mpr rfl)), List.head?_nil]
  | cons x items =>
      have hne : q.front_ ≠ q.back_ := fun heq => by cases h.front_eq_back_iff.mp heq
      rw [if_pos hne, h.front_cell, List.head?_cons]

/-- `Pop` takes the first item. -/
theorem pop (h : Valid q items) : q.pop.2 = items.head? ∧ Valid q.pop.1 items.tail := by
  unfold AtomicQueue.pop
  cases items with
  | nil =>
      rw [if_neg (not_not.mpr (h.front_eq_back_iff.mpr rfl))]
      exact ⟨rfl, h⟩
  | cons x items =>
      have hne : q.front_ ≠ q.back_ := fun heq => by cases h.front_eq_back_iff.mp heq
      have hnext := h.toNat_succ h.front_lt
      rw [if_pos hne]
      refine ⟨?_, h.cells, h.small, ?_, ?_⟩
      · rw [h.front_cell, List.head?_cons]
      · show Ring.Holds q.queue_ ((q.front_ + 1) % q.size_).toNat items
        rw [hnext, ← h.cells]
        exact h.holds.pop.2
      · show q.back_.toNat = (((q.front_ + 1) % q.size_).toNat + items.length) % q.size_.toNat
        rw [hnext, h.back, List.length_cons, Nat.mod_add_mod]
        congr 1
        omega

/-! ## Growing -/

/-- After some rounds of the copying loop: the old cells are as they were, and the
items copied so far stand in a row behind them. -/
theorem copied (h : Valid q items) (hsize : q.size_.toNat ≤ 2 ^ 30) {k : Nat}
    (hk : k ≤ items.length) :
    let queue := q.queue_ ++ List.replicate q.size_.toNat default
    let copy := (List.range k).foldl (copyItem q.size_ q.front_) queue
    copy.length = 2 * q.size_.toNat ∧ (∀ j < q.size_.toNat, copy[j]? = q.queue_[j]?) ∧
      ∀ i < k, copy[q.size_.toNat + i]? = items[i]? := by
  intro queue
  have hf := h.front_lt
  have hroom := h.holds.room
  rw [h.cells] at hroom
  have hqueue : queue.length = 2 * q.size_.toNat := by
    rw [List.length_append, List.length_replicate, h.cells]
    omega
  induction k with
  | zero =>
      refine ⟨hqueue, fun j hj => ?_, fun i hi => absurd hi (Nat.not_lt_zero i)⟩
      rw [List.range_zero, List.foldl_nil, List.getElem?_append_left (by rwa [h.cells])]
  | succ k ih =>
      obtain ⟨hlen, hold, hnew⟩ := ih (by omega)
      rw [List.range_succ, List.foldl_append, List.foldl_cons, List.foldl_nil]
      generalize (List.range k).foldl (copyItem q.size_ q.front_) queue = copy at hlen hold hnew
      -- where the round writes, and what it reads
      have hi : (UInt32.ofNat k).toNat = k := by
        rw [UInt32.toNat_ofNat', Nat.mod_eq_of_lt (by omega)]
      have htarget : (q.size_ + UInt32.ofNat k).toNat = q.size_.toNat + k := by
        rw [UInt32.toNat_add, hi, Nat.mod_eq_of_lt (by omega)]
      have hsource : ((q.front_ + UInt32.ofNat k) % q.size_).toNat =
          (q.front_.toNat + k) % q.size_.toNat := by
        rw [UInt32.toNat_mod, UInt32.toNat_add, hi, Nat.mod_eq_of_lt (a := _ + k) (by omega)]
      have hread : copy[(q.front_.toNat + k) % q.size_.toNat]? = items[k]? := by
        rw [hold _ (Nat.mod_lt _ (by omega)), ← h.cells]
        exact h.holds.cell k (by omega)
      have hvalue : copy.getD ((q.front_.toNat + k) % q.size_.toNat) default = items[k] := by
        rw [List.getD_eq_getElem?_getD, hread, List.getElem?_eq_getElem (by omega),
          Option.getD_some]
      rw [copyItem, htarget, hsource, hvalue]
      refine ⟨?_, fun j hj => ?_, fun i hik => ?_⟩
      · rw [List.length_set, hlen]
      · rw [List.getElem?_set_ne (by omega)]
        exact hold j hj
      · rcases Nat.lt_or_eq_of_le (Nat.le_of_lt_succ hik) with hlt | rfl
        · rw [List.getElem?_set_ne (by omega)]
          exact hnew i hlt
        · rw [List.getElem?_set_self (by omega), List.getElem?_eq_getElem (by omega)]

/-- A full buffer of at most half the greatest size is doubled and holds the same
items. -/
theorem resize (h : Valid q items) (hfull : items.length + 1 = q.size_.toNat)
    (hsize : q.size_.toNat ≤ 2 ^ 30) :
    Valid q.resize items ∧ q.resize.size_.toNat = 2 * q.size_.toNat := by
  have hdouble : (q.size_ * 2).toNat = 2 * q.size_.toNat := by
    rw [UInt32.toNat_mul, show (2 : UInt32).toNat = 2 from rfl, Nat.mod_eq_of_lt (by omega)]
    omega
  have hcount : ((q.back_ + q.size_ - q.front_) % q.size_).toNat = items.length := h.toNat_size
  have hgrown : (q.size_ * 2).toNat - q.queue_.length = q.size_.toNat := by
    rw [hdouble, h.cells]
    omega
  obtain ⟨hlen, -, hnew⟩ := h.copied hsize (Nat.le_refl _)
  have hholds := Ring.Holds.moved (by omega) (by omega) hnew
  unfold AtomicQueue.resize
  dsimp only
  rw [hcount, hgrown]
  refine ⟨⟨?_, ?_, ?_, ?_⟩, hdouble⟩
  · show _ = (q.size_ * 2).toNat
    rw [hlen, hdouble]
  · show (q.size_ * 2).toNat ≤ 2 ^ 31
    omega
  · exact hholds
  · -- the next item goes to the last cell
    show (q.size_ + (q.back_ + q.size_ - q.front_) % q.size_).toNat =
      (q.size_.toNat + items.length) % (q.size_ * 2).toNat
    rw [UInt32.toNat_add, hcount, hdouble, Nat.mod_eq_of_lt (by omega), Nat.mod_eq_of_lt (by omega)]

/-- `Push` appends, as long as the buffer does not outgrow the greatest size. -/
theorem push (h : Valid q items) (hroom : items.length + 1 ≤ 2 ^ 30) (item : α) :
    Valid (q.push item) (items ++ [item]) := by
  have hwrite : ∀ q : AtomicQueue α, Valid q items → items.length + 1 < q.size_.toNat →
      Valid { q with queue_ := q.queue_.set q.back_.toNat item, back_ := (q.back_ + 1) % q.size_ }
        (items ++ [item]) := by
    intro q h hlt
    have hholds := h.holds.push (by rwa [h.cells]) item
    rw [h.cells, ← h.back] at hholds
    refine ⟨?_, h.small, hholds, ?_⟩
    · show (q.queue_.set _ item).length = q.size_.toNat
      rw [List.length_set, h.cells]
    · show ((q.back_ + 1) % q.size_).toNat =
        (q.front_.toNat + (items ++ [item]).length) % q.size_.toNat
      rw [h.toNat_succ h.back_lt, h.back, List.length_append, List.length_singleton,
        Nat.mod_add_mod]
      rfl
  unfold AtomicQueue.push
  dsimp only
  split
  case isTrue hfull =>
      rw [h.full_iff] at hfull
      obtain ⟨hvalid, hsize⟩ := h.resize hfull (by omega)
      exact hwrite _ hvalid (by omega)
  case isFalse hfull =>
      rw [h.full_iff] at hfull
      have hlt := h.holds.room
      rw [h.cells] at hlt
      exact hwrite q h (by omega)

end Valid

/-! ## Any calls -/

/-- A call of the queue. -/
inductive Call (α : Type)
  | push (item : α)
  | pop
  | front
  | size
  | empty

/-- What a call returns. -/
inductive Result (α : Type)
  | pushed
  | item (result : Option α)
  | size (n : Nat)
  | empty (b : Bool)
deriving DecidableEq

/-- A call of the atomic queue. -/
def call (q : AtomicQueue α) : Call α → AtomicQueue α × Result α
  | .push item => (q.push item, .pushed)
  | .pop => (q.pop.1, .item q.pop.2)
  | .front => (q, .item q.front)
  | .size => (q, .size q.size.toNat)
  | .empty => (q, .empty q.empty)

/-- The results of a series of calls. -/
def results (q : AtomicQueue α) : List (Call α) → List (Result α)
  | [] => []
  | c :: cs => (q.call c).2 :: results (q.call c).1 cs

/-- A call of a queue that is a list. -/
def listCall (items : List α) : Call α → List α × Result α
  | .push item => (items ++ [item], .pushed)
  | .pop => (items.tail, .item items.head?)
  | .front => (items, .item items.head?)
  | .size => (items, .size items.length)
  | .empty => (items, .empty items.isEmpty)

/-- The results of a series of calls of it. -/
def listResults (items : List α) : List (Call α) → List (Result α)
  | [] => []
  | c :: cs => (listCall items c).2 :: listResults (listCall items c).1 cs

/-- The items held after a series of calls. -/
def held (items : List α) : List (Call α) → List α
  | [] => items
  | c :: cs => held (listCall items c).1 cs

/-- One call returns what it returns of a list, and holds what the list does. -/
theorem Valid.call {q : AtomicQueue α} {items : List α} (h : Valid q items) {c : Call α}
    (hroom : (listCall items c).1.length ≤ 2 ^ 30) :
    (q.call c).2 = (listCall items c).2 ∧ Valid (q.call c).1 (listCall items c).1 := by
  cases c with
  | push item =>
      rw [listCall, List.length_append, List.length_singleton] at hroom
      exact ⟨rfl, h.push hroom item⟩
  | pop => exact ⟨congrArg Result.item h.pop.1, h.pop.2⟩
  | front => exact ⟨congrArg Result.item h.front_eq, h⟩
  | size => exact ⟨congrArg Result.size h.toNat_size, h⟩
  | empty =>
      refine ⟨congrArg Result.empty ?_, h⟩
      rw [Bool.eq_iff_iff, h.empty_iff, List.isEmpty_iff]

theorem Valid.results {q : AtomicQueue α} {items : List α} (h : Valid q items)
    {cs : List (Call α)} (hroom : ∀ cs', cs' <+: cs → (held items cs').length ≤ 2 ^ 30) :
    q.results cs = listResults items cs := by
  induction cs generalizing q items with
  | nil => rfl
  | cons c cs ih =>
      obtain ⟨hresult, hvalid⟩ := h.call (c := c)
        (hroom [c] (List.cons_prefix_cons.mpr ⟨rfl, List.nil_prefix⟩))
      rw [AtomicQueue.results, listResults, hresult]
      congr 1
      exact ih hvalid fun cs' h' => hroom (c :: cs') (List.cons_prefix_cons.mpr ⟨rfl, h'⟩)

omit [Inhabited α] in
/-- A queue holds no more than was pushed. -/
theorem length_held_le (items : List α) (cs : List (Call α)) :
    (held items cs).length ≤ items.length + cs.length := by
  induction cs generalizing items with
  | nil => exact Nat.le_refl _
  | cons c cs ih =>
      have hstep : (listCall items c).1.length ≤ items.length + 1 := by
        cases c with
        | push item => simp [listCall]
        | pop =>
            simp only [listCall, List.length_tail]
            omega
        | front => exact Nat.le_succ _
        | size => exact Nat.le_succ _
        | empty => exact Nat.le_succ _
      have hrest := ih (listCall items c).1
      show (held (listCall items c).1 cs).length ≤ _
      rw [List.length_cons]
      omega

/-- Any calls of a queue that never holds more than `2 ^ 30` items return what they
return of a list. -/
theorem queue_results {cs : List (Call α)}
    (hroom : ∀ cs', cs' <+: cs → (held [] cs').length ≤ 2 ^ 30) :
    results ({} : AtomicQueue α) cs = listResults [] cs :=
  valid_init.results hroom

/-- A queue that is doubled once and then read. -/
theorem queue_results_doubled :
    results ({} : AtomicQueue Nat) (List.replicate 300 (.push 7) ++ [.pop, .size]) =
      listResults [] (List.replicate 300 (.push 7) ++ [.pop, .size]) := by
  refine queue_results fun cs' hcs' => ?_
  have hlen := hcs'.length_le
  rw [List.length_append, List.length_replicate] at hlen
  have hheld := length_held_le [] cs'
  simp only [List.length_cons, List.length_nil] at hlen hheld
  omega

end AtomicQueue

end Calvin
