import Mathlib.Logic.Function.Basic
import Calvin.Common.Types

/-!
# Taking batches in the agreed order

`DeterministicScheduler::GetBatch`: the lock-manager thread reads channel
`scheduler_` until it holds the next sequence of the global order and the next
sub-batch of that sequence, and keeps what it meets early in two buffers.
-/

namespace Calvin

open Function

/-- The members of `DeterministicScheduler` that `GetBatch` works on. -/
structure BatchReader where
  batchesData : Nat → Option Subbatch := fun _ => none
  globalBatchesOrder : Nat → Option Sequence := fun _ => none
  currentSequence : Option Sequence := none
  currentSequenceId : Nat := 1
  currentSequenceBatchIndex : Nat := 0

namespace BatchReader

/-- Step to the next batch of the sequence, and past its last one to the next
sequence. `current_sequence_id_` is a `uint32`. -/
def advance (r : BatchReader) (size : Nat) : BatchReader :=
  let r := { r with currentSequenceBatchIndex := r.currentSequenceBatchIndex + 1 }
  if size ≤ r.currentSequenceBatchIndex then
    { r with currentSequence := none, currentSequenceId := (r.currentSequenceId + 1) % UInt32.size }
  else r

/-- The first receive loop: read until the wanted sequence arrives. -/
def receiveOrder (r : BatchReader) : List SchedulerMessage → BatchReader × List SchedulerMessage
  | [] => (r, [])
  | .txnSubbatch batch :: rest =>
      receiveOrder
        { r with batchesData := update r.batchesData batch.batchNumber (some batch) } rest
  | .paxosBatchOrder version data :: rest =>
      if version = r.currentSequenceId then
        ({ r with currentSequence := some data, currentSequenceBatchIndex := 0 }, rest)
      else
        receiveOrder
          { r with globalBatchesOrder := update r.globalBatchesOrder version (some data) } rest

/-- Make a sequence current: from the buffer if it is there, else from the channel. -/
def fetchSequence (r : BatchReader) (channel : List SchedulerMessage) :
    BatchReader × List SchedulerMessage :=
  match r.currentSequence with
  | some _ => (r, channel)
  | none =>
      match r.globalBatchesOrder r.currentSequenceId with
      | some data =>
          ({ r with
              currentSequence := some data
              currentSequenceBatchIndex := 0
              globalBatchesOrder := update r.globalBatchesOrder r.currentSequenceId none },
            channel)
      | none => r.receiveOrder channel

/-- The second receive loop: read until the wanted sub-batch arrives. -/
def receiveSubbatch (r : BatchReader) (wanted size : Nat) :
    List SchedulerMessage → BatchReader × List SchedulerMessage × Option Subbatch
  | [] => (r, [], none)
  | .txnSubbatch batch :: rest =>
      if batch.batchNumber = wanted then (r.advance size, rest, some batch)
      else
        receiveSubbatch
          { r with batchesData := update r.batchesData batch.batchNumber (some batch) }
          wanted size rest
  | .paxosBatchOrder version data :: rest =>
      receiveSubbatch
        { r with globalBatchesOrder := update r.globalBatchesOrder version (some data) }
        wanted size rest

/-- Return the batch at the current index, from the buffer or the channel;
`none` is the failed `CHECK` on the index. -/
def fetchBatch (r : BatchReader) (channel : List SchedulerMessage) :
    Option (BatchReader × List SchedulerMessage × Option Subbatch) :=
  match r.currentSequence with
  | none => some (r, channel, none)
  | some sequence =>
      (sequence[r.currentSequenceBatchIndex]?).map fun wanted =>
        match r.batchesData wanted with
        | some batch =>
            (BatchReader.advance
              { r with batchesData := update r.batchesData wanted none } sequence.length,
              channel, some batch)
        | none => r.receiveSubbatch wanted sequence.length channel

/-- `GetBatch`, on the messages waiting in channel `scheduler_`. -/
def getBatch (r : BatchReader) (channel : List SchedulerMessage) :
    Option (BatchReader × List SchedulerMessage × Option Subbatch) :=
  let (r, channel) := r.fetchSequence channel
  r.fetchBatch channel

end BatchReader

end Calvin
