import PromotionManagement.IngestionRepository
import PromotionManagement.ReadRangeLines

namespace PromotionManagement
open Library
set_option autoImplicit true

/-- The options of the command, the vendor files of its upload directory, and the bytes that the
indexes of its database keep of a text. -/
structure ProcessChunkCommand where
  batchSize : Nat
  leaseMs : Nat
  maxFailures : Nat
  files : Text → List UInt8
  indexed : Text → Nat

/-- What a chunk has stored and rejected so far, carried through its batches. -/
structure Totals where
  rowsProcessed : Nat
  rowsRejected : Nat
deriving DecidableEq

structure ChunkOutcome where
  claimed : Bool
  superseded : Bool
  exhausted : Bool
  totals : Totals
deriving DecidableEq

/-- The variables of `run` inside its loop, and the lines the reader has yet to yield. -/
structure ChunkRun where
  claimed : ChunkRow
  calculator : BasePriceCalculator
  lines : List RangeLine
  batch : Batch
  rowStart : Nat
  totals : Totals

/-- The statements an invocation sends to the database. `commit` is one transaction. -/
inductive Statement where
  | claimChunk (chunk : ChunkProcess) (leaseMs : Nat)
  | commit (chunk : ChunkProcess) (batch : Batch)
  | releaseChunk (chunk : ChunkProcess) (leaseUntil : Option Int)
  | refreshJobProgress (jobId : Nat)
  | recordChunkFailure (chunk : ChunkProcess) (reason : Text) (maxFailures : Nat)
  | recordJobFailure (jobId : Nat) (reason : Text)
  | failJobIfExhausted (jobId : Nat)
  | completeJobIfDone (jobId : Nat)

def IngestionDb.execute (db : IngestionDb) : Statement → IngestionDb
  | .claimChunk chunk leaseMs => (db.claimChunk chunk leaseMs).1
  | .commit chunk batch => (db.commit chunk batch).1
  | .releaseChunk chunk leaseUntil => db.releaseChunk chunk leaseUntil
  | .refreshJobProgress jobId => db.refreshJobProgress jobId
  | .recordChunkFailure chunk reason maxFailures =>
    (db.recordChunkFailure chunk reason maxFailures).1
  | .recordJobFailure jobId reason => db.recordJobFailure jobId reason
  | .failJobIfExhausted jobId => db.failJobIfExhausted jobId
  | .completeJobIfDone jobId => db.completeJobIfDone jobId

/-- What an invocation of `process` awaits. `leftover` tells the batch after the loop from one
inside it. -/
inductive Phase where
  | idle
  | claiming (chunk : ChunkProcess)
  | finding (claimed : ChunkRow)
  | compiling (claimed : ChunkRow) (job : Option JobRow)
  | reading (run : ChunkRun)
  | storing (run : ChunkRun) (leftover : Bool)
  | publishing (run : ChunkRun) (ids : List (Option Nat)) (leftover : Bool)
  | releasing (run : ChunkRun)
  | reenqueueing (run : ChunkRun)
  | refreshing (run : ChunkRun)
  | completing (run : ChunkRun)
  | recording (chunk : ChunkProcess) (reason : Text)
  | recordingJob (chunk : ChunkProcess) (reason : Text) (exhausted : Bool)
  | failingJob (chunk : ChunkProcess) (reason : Text)
  | returned (outcome : ChunkOutcome)
  | thrown (reason : Text)

def Batch.isEmpty (batch : Batch) : Bool := batch.rows.length + batch.rejected = 0

/-- The batch with one more row, which `price` answered for. -/
def Batch.add (batch : Batch) (priced : Option ProductUpsert) (endOffset : Nat) : Batch :=
  match priced with
  | none => { batch with nextOffset := endOffset, rejected := batch.rejected + 1 }
  | some row => { batch with nextOffset := endOffset, rows := batch.rows ++ [row] }

namespace ProcessChunkCommand

def emptyBatch (at' : Nat) : Batch := ⟨[], at', at', 0⟩

def noTotals : Totals := ⟨0, 0⟩

/-- One turn of the loop, or what follows it when the reader has ended. -/
def read (c : ProcessChunkCommand) (run : ChunkRun) : Phase :=
  match run.lines with
  | [] => if run.batch.isEmpty then .refreshing run else .storing run true
  | ⟨line, endOffset⟩ :: lines =>
    match price run.calculator line run.claimed.chunk.jobId run.rowStart with
    | .error reason => .recording run.claimed.chunk reason.toList
    | .ok priced =>
      let run :=
        { run with
          lines := lines
          rowStart := endOffset
          batch := run.batch.add priced endOffset }
      if run.batch.rows.length + run.batch.rejected < c.batchSize then .reading run
      else .storing run false

def statement (c : ProcessChunkCommand) (db : IngestionDb) : Phase → Option Statement
  | .claiming chunk => some (.claimChunk chunk c.leaseMs)
  | .storing run _ =>
    if UpsertRefused c.indexed db.products run.batch.rows then none
    else some (.commit run.claimed.chunk run.batch)
  | .releasing run => some (.releaseChunk run.claimed.chunk run.claimed.leaseUntil)
  | .refreshing run => some (.refreshJobProgress run.claimed.chunk.jobId)
  | .completing run => some (.completeJobIfDone run.claimed.chunk.jobId)
  | .recording chunk reason => some (.recordChunkFailure chunk reason c.maxFailures)
  | .recordingJob chunk reason _ => some (.recordJobFailure chunk.jobId reason)
  | .failingJob chunk _ => some (.failJobIfExhausted chunk.jobId)
  | _ => none

/-- Where an invocation goes once the database has answered, or a turn of the loop is over. A
refused upsert only throws. -/
def resume (c : ProcessChunkCommand) (db : IngestionDb) : Phase → Phase
  | .claiming chunk =>
    match (db.claimChunk chunk c.leaseMs).2 with
    | none => .returned ⟨false, false, false, noTotals⟩
    | some claimed => .finding claimed
  | .finding claimed => .compiling claimed (db.jobs.find claimed.chunk.jobId)
  | .reading run => c.read run
  | .storing run leftover =>
    if UpsertRefused c.indexed db.products run.batch.rows then .storing run leftover
    else
      match (db.commit run.claimed.chunk run.batch).2 with
      | none => .returned ⟨true, true, false, run.totals⟩
      | some ids => .publishing run ids leftover
  | .releasing run => .reenqueueing run
  | .reenqueueing run => .returned ⟨true, false, true, run.totals⟩
  | .refreshing run => .completing run
  | .completing run => .returned ⟨true, false, false, run.totals⟩
  | .recording chunk reason =>
    .recordingJob chunk reason
      ((db.recordChunkFailure chunk reason c.maxFailures).2.any fun row => row.status = .failed)
  | .recordingJob chunk reason exhausted =>
    if exhausted then .failingJob chunk reason else .thrown reason
  | .failingJob _ reason => .thrown reason
  | phase => phase

/-- What is awaited throws. A publication's failure is logged, and an error of the error path
takes the place of the first. -/
def fail (reason : Text) : Phase → Phase
  | .claiming chunk => .recording chunk reason
  | .finding claimed => .recording claimed.chunk reason
  | .compiling claimed _ => .recording claimed.chunk reason
  | .reading run => .recording run.claimed.chunk reason
  | .storing run _ => .recording run.claimed.chunk reason
  | .releasing run => .recording run.claimed.chunk reason
  | .reenqueueing run => .recording run.claimed.chunk reason
  | .refreshing run => .recording run.claimed.chunk reason
  | .completing run => .recording run.claimed.chunk reason
  | .recording _ _ => .thrown reason
  | .recordingJob _ _ _ => .thrown reason
  | .failingJob _ _ => .thrown reason
  | phase => phase

/-- `calculators.current()` answers, and the reader is opened at the checkpoint. -/
def compiled (c : ProcessChunkCommand) (calculator : BasePriceCalculator) : Phase → Phase
  | .compiling claimed job =>
    match job with
    | none =>
      .recording claimed.chunk "Cannot read properties of undefined (reading 'fileRef')".toList
    | some job =>
      .reading
        { claimed := claimed
          calculator := calculator
          lines := readRangeLines (c.files job.fileRef) claimed.nextOffset claimed.endOffset
          batch := emptyBatch claimed.nextOffset
          rowStart := claimed.nextOffset
          totals := noTotals }
  | phase => phase

def commitInto (run : ChunkRun) (stored : Nat) : ChunkRun :=
  { run with
    totals := ⟨run.totals.rowsProcessed + stored, run.totals.rowsRejected + run.batch.rejected⟩ }

/-- A batch is announced, or its announcement is given up, and the budget is looked at. -/
def published (outOfTime : Bool) : Phase → Phase
  | .publishing run ids leftover =>
    let run := commitInto run ids.length
    if leftover then .refreshing run
    else
      let run := { run with batch := emptyBatch run.rowStart }
      if outOfTime && run.rowStart < run.claimed.endOffset then .releasing run else .reading run
  | phase => phase

end ProcessChunkCommand

def Phase.ended : Phase → Bool
  | .idle => true
  | .returned _ => true
  | .thrown _ => true
  | _ => false

/-- The database, the invocations of every worker, and what they have put on the queues. -/
structure IngestionWorld where
  db : IngestionDb
  invocations : Nat → Phase
  published : List (List (Option Nat))
  reenqueued : List ChunkProcess

/-- What can happen next. A call that fails, or whose caller is killed, may have been carried out.
The last two are the reconciler's. -/
inductive IngestionEvent where
  | clock (now : Int)
  | deliver (i : Nat) (chunk : ChunkProcess)
  | step (i : Nat)
  | compiled (i : Nat) (calculator : BasePriceCalculator)
  | published (i : Nat) (delivered outOfTime : Bool)
  | fail (i : Nat) (reason : Text) (applied : Bool)
  | kill (i : Nat) (applied : Bool)
  | completeJobIfDone (jobId : Nat)
  | failJobIfExhausted (jobId : Nat)

namespace IngestionWorld

/-- The statement an event carries out. -/
def issued (c : ProcessChunkCommand) (w : IngestionWorld) : IngestionEvent → Option Statement
  | .step i => c.statement w.db (w.invocations i)
  | .fail i _ applied => if applied then c.statement w.db (w.invocations i) else none
  | .kill i applied => if applied then c.statement w.db (w.invocations i) else none
  | .completeJobIfDone jobId => some (.completeJobIfDone jobId)
  | .failJobIfExhausted jobId => some (.failJobIfExhausted jobId)
  | _ => none

/-- The database's clock after an event. -/
def now (w : IngestionWorld) : IngestionEvent → Int
  | .clock now => now
  | _ => w.db.now

/-- The database after an event. -/
def stored (c : ProcessChunkCommand) (w : IngestionWorld) (e : IngestionEvent) : IngestionDb :=
  match w.issued c e with
  | some statement => w.db.execute statement
  | none => { w.db with now := w.now e }

/-- The invocation an event moves, and what it awaits next. -/
def moved (c : ProcessChunkCommand) (w : IngestionWorld) : IngestionEvent → Option (Nat × Phase)
  | .deliver i chunk => if (w.invocations i).ended then some (i, .claiming chunk) else none
  | .step i => some (i, c.resume w.db (w.invocations i))
  | .compiled i calculator => some (i, c.compiled calculator (w.invocations i))
  | .published i _ outOfTime => some (i, ProcessChunkCommand.published outOfTime (w.invocations i))
  | .fail i reason _ => some (i, ProcessChunkCommand.fail reason (w.invocations i))
  | .kill i _ => some (i, .idle)
  | _ => none

/-- The ids an event hands to `product.upserted`. -/
def announcement (w : IngestionWorld) : IngestionEvent → List (List (Option Nat))
  | .published i delivered _ =>
    match w.invocations i with
    | .publishing _ ids _ => if delivered && ids.length > 0 then [ids] else []
    | _ => []
  | _ => []

/-- The chunk an event hands to `chunk.process`. -/
def handOff (w : IngestionWorld) (i : Nat) (applied : Bool) : List ChunkProcess :=
  match w.invocations i with
  | .reenqueueing run => if applied then [run.claimed.chunk] else []
  | _ => []

def handedOff (w : IngestionWorld) : IngestionEvent → List ChunkProcess
  | .step i => w.handOff i true
  | .fail i _ applied => w.handOff i applied
  | .kill i applied => w.handOff i applied
  | _ => []

def step (c : ProcessChunkCommand) (w : IngestionWorld) (e : IngestionEvent) : IngestionWorld where
  db := w.stored c e
  invocations :=
    match w.moved c e with
    | some (i, phase) => Function.update w.invocations i phase
    | none => w.invocations
  published := w.published ++ w.announcement e
  reenqueued := w.reenqueued ++ w.handedOff e

end IngestionWorld

end PromotionManagement
