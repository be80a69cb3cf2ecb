import Calvin.Lib.Machine
import Calvin.Scheduler.GetBatch

/-!
# The stream of batches

The messages of a global order, delivered in any order to a scheduler that calls
`GetBatch` in between (`BatchStream.machine`), and the part of the main loop of
`RunLockManagerThread` that calls it and parses the transactions of each batch
(`BatchStream.loopMachine`).
-/

namespace Calvin

open Lib

structure BatchStream where
  /-- Sent and not yet delivered. -/
  inFlight : List SchedulerMessage
  /-- Delivered and not yet read. -/
  channel : List SchedulerMessage := []
  reader : BatchReader := {}
  /-- The batches `GetBatch` has returned. -/
  returned : List Subbatch := []

namespace BatchStream

/-- The order of each sequence, numbered from 1, and the sub-batch of each batch
id. -/
def messages (seqs : List Sequence) (subbatch : Nat → Subbatch) : List SchedulerMessage :=
  (seqs.zipIdx 1).map (fun (data, version) => .paxosBatchOrder version data) ++
    seqs.flatten.map fun id => .txnSubbatch (subbatch id)

/-- One of the messages in flight arrives. -/
def deliver (s : BatchStream) (index : Nat) : Option BatchStream :=
  (s.inFlight[index]?).map fun message =>
    { s with inFlight := s.inFlight.eraseIdx index, channel := s.channel ++ [message] }

/-- A call of `GetBatch` and the batch it returns. -/
def getBatch (s : BatchStream) : Option (BatchStream × Option Subbatch) :=
  (s.reader.getBatch s.channel).map fun (reader, channel, batch) =>
    ({ s with reader, channel, returned := s.returned ++ batch.toList }, batch)

inductive Event
  | deliver (index : Nat)
  | getBatch
deriving DecidableEq

def machine (seqs : List Sequence) (subbatch : Nat → Subbatch) : Machine BatchStream Event where
  init := { inFlight := messages seqs subbatch }
  next s
    | .deliver index => s.deliver index
    | .getBatch => s.getBatch.map Prod.fst

/-! ## The loop that parses the batches -/

/-- `num_txns_once`. -/
def numTxnsOnce : Nat := 10

/-- The variables of the loop, and the transactions it has parsed. -/
structure Loop where
  stream : BatchStream
  batchMessage : Option Subbatch := none
  batchOffset : Nat := 0
  parsed : List TxnProto := []

/-- Get some new transactions; `room` is
`executing_txns + pending_txns < maximum_txns`. -/
def Loop.round (s : Loop) (room : Bool) : Option Loop :=
  match s.batchMessage with
  | none => s.stream.getBatch.map fun (stream, batch) => { s with stream, batchMessage := batch }
  | some batch =>
      -- done with the current batch
      if batch.data.length ≤ s.batchOffset then
        s.stream.getBatch.map fun (stream, batch) =>
          { s with stream, batchMessage := batch, batchOffset := 0 }
      else if room then
        let txns := (batch.data.drop s.batchOffset).take numTxnsOnce
        some { s with
          batchOffset := s.batchOffset + txns.length
          parsed := s.parsed ++ txns }
      else some s

inductive LoopEvent
  | deliver (index : Nat)
  | round (room : Bool)
deriving DecidableEq

def loopMachine (seqs : List Sequence) (subbatch : Nat → Subbatch) : Machine Loop LoopEvent where
  init := { stream := { inFlight := messages seqs subbatch } }
  next s
    | .deliver index => (s.stream.deliver index).map fun stream => { s with stream }
    | .round room => s.round room

end BatchStream

end Calvin
