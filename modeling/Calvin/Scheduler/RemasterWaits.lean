import Mathlib.Logic.Function.Basic
import Calvin.Common.Types

/-!
# Waiting for remasters

The three maps of `DeterministicScheduler` with the transactions that wait for
a remaster, by origin, by id and by key, and the flag in the transactions
themselves. A missing entry of a map is an empty list: `operator[]` does not
tell them apart.
-/

namespace Calvin

open Function

structure RemasterWaits where
  blockingTxns : Nat → List Ptr := fun _ => []
  waitingTxnsByTxnid : Nat → List (Key × Nat) := fun _ => []
  waitingTxnsByKey : Key × Nat → List Ptr := fun _ => []
  waitForRemasterPros : Ptr → Bool

namespace RemasterWaits

variable (txns : Ptr → TxnProto)

/-- Push a transaction to the queue of its origin. -/
def block (w : RemasterWaits) (p : Ptr) : RemasterWaits :=
  let origin := (txns p).originReplica
  { w with blockingTxns := update w.blockingTxns origin (w.blockingTxns origin ++ [p]) }

/-- List a transaction under every pair it waits for. -/
def listUnder (p : Ptr) (byKey : Key × Nat → List Ptr) (keys : List (Key × Nat)) :
    Key × Nat → List Ptr :=
  keys.foldl (fun m kc => update m kc (m kc ++ [p])) byKey

/-- Put a transaction into the queue until the remasters of `keys` come. -/
def putToWait (w : RemasterWaits) (p : Ptr) (keys : List (Key × Nat)) : RemasterWaits :=
  { block txns w p with
    waitForRemasterPros := update w.waitForRemasterPros p true
    waitingTxnsByTxnid := update w.waitingTxnsByTxnid (txns p).txnId keys
    waitingTxnsByKey := listUnder p w.waitingTxnsByKey keys }

/-- The pops from the queue of an origin, as long as its front does not wait. -/
def popReady (w : RemasterWaits) (origin : Nat) : RemasterWaits × List Ptr :=
  let waits := w.waitForRemasterPros
  ({ w with
      blockingTxns :=
        update w.blockingTxns origin ((w.blockingTxns origin).dropWhile fun b => ¬ waits b) },
    (w.blockingTxns origin).takeWhile fun b => ¬ waits b)

/-- One round of the loop over the transactions that wait for `kc`, with
`ready_to_lock_txns`; `none` is the front of an empty queue. -/
def wakeOne (kc : Key × Nat) (st : RemasterWaits × List Ptr) (a : Ptr) :
    Option (RemasterWaits × List Ptr) :=
  let (w, readyToLock) := st
  let txnId := (txns a).txnId
  let left := (w.waitingTxnsByTxnid txnId).erase kc
  let w := { w with waitingTxnsByTxnid := update w.waitingTxnsByTxnid txnId left }
  if left = [] then
    let w := { w with waitForRemasterPros := update w.waitForRemasterPros a false }
    match w.blockingTxns (txns a).originReplica with
    | [] => none
    | front :: _ =>
        if front = a then
          -- `a` does not wait any more, so these pops begin with it
          let (w, popped) := popReady w (txns a).originReplica
          some (w, readyToLock ++ popped)
        else some (w, readyToLock)
  else some (w, readyToLock)

/-- The remaster of `kc` is finished: the transactions that are now ready to
request locks. -/
def wake (w : RemasterWaits) (kc : Key × Nat) : Option (RemasterWaits × List Ptr) :=
  ((w.waitingTxnsByKey kc).foldlM (wakeOne txns kc) (w, [])).map fun (w, readyToLock) =>
    ({ w with waitingTxnsByKey := update w.waitingTxnsByKey kc [] }, readyToLock)

end RemasterWaits

end Calvin
