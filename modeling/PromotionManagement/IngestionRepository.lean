import PromotionManagement.StorableRow

namespace PromotionManagement
open Library
set_option autoImplicit true

inductive ChunkStatus where
  | pending
  | running
  | done
  | failed
deriving DecidableEq, Repr

inductive IngestionStatus where
  | running
  | paused
  | completed
  | failed
  | aborted
deriving DecidableEq, Repr

/-- A `chunk.process` payload, which is also the key of `ingestion_chunks`. -/
structure ChunkProcess where
  jobId : Nat
  chunkIndex : Nat
deriving DecidableEq, Repr

/-- An `ingestion_chunks` row. Instants are microseconds. -/
structure ChunkRow where
  chunk : ChunkProcess
  startOffset : Nat
  endOffset : Nat
  nextOffset : Nat
  leaseUntil : Option Int
  attempts : Nat
  failures : Nat
  rowsProcessed : Nat
  rowsRejected : Nat
  status : ChunkStatus
  lastError : Option Text
deriving DecidableEq

/-- An `ingestion_jobs` row. -/
structure JobRow where
  id : Nat
  fileRef : Text
  chunksDone : Nat
  rowsProcessed : Nat
  rowsRejected : Nat
  status : IngestionStatus
  lastError : Option Text
  updatedAt : Int
deriving DecidableEq

/-- A batch, and the offset the checkpoint moves to when it commits. -/
structure Batch where
  rows : List ProductUpsert
  seenOffset : Nat
  nextOffset : Nat
  rejected : Nat
deriving DecidableEq

/-- What the transactions of a run have done, oldest first: a batch committed with the number of
products it stored, or the counters of a job refreshed. -/
inductive IngestionLog where
  | committed (chunk : ChunkProcess) (batch : Batch) (stored : Nat)
  | refreshed (jobId : Nat)
deriving DecidableEq

/-- PostgreSQL as the ingestion module sees it, with the log of a run. -/
structure IngestionDb where
  now : Int
  chunks : Table ChunkRow.chunk
  jobs : Table JobRow.id
  products : Products
  log : List IngestionLog

/-- `reason.slice(0, length)`: a surrogate pair cut in half is stored as U+FFFD. -/
def Text.slice16 : Nat → Text → Text
  | 0, _ => []
  | _, [] => []
  | 1, c :: t => if c.val < 0x10000 then c :: slice16 0 t else [Char.ofNat 0xfffd]
  | n + 2, c :: t => if c.val < 0x10000 then c :: slice16 (n + 1) t else c :: slice16 n t

namespace IngestionRepository

/-- `date_trunc('milliseconds', now() + make_interval(secs => leaseMs / 1000))` -/
def leaseUntil (now : Int) (leaseMs : Nat) : Int := (now + leaseMs * 1000) / 1000 * 1000

def claimable (now : Int) (row : ChunkRow) : Bool :=
  row.status = .pending || (row.status = .running && row.leaseUntil.all fun lease => lease < now)

def claimed (now : Int) (leaseMs : Nat) (row : ChunkRow) : ChunkRow :=
  { row with
    status := .running
    leaseUntil := some (leaseUntil now leaseMs)
    attempts := row.attempts + 1 }

def checkpointed (batch : Batch) (stored : Nat) (row : ChunkRow) : ChunkRow :=
  { row with
    nextOffset := batch.nextOffset
    rowsProcessed := row.rowsProcessed + stored
    rowsRejected := row.rowsRejected + batch.rejected
    status := if batch.nextOffset ≥ row.endOffset then .done else row.status }

def released (row : ChunkRow) : ChunkRow := { row with status := .pending, leaseUntil := none }

def failedOnce (reason : Text) (maxFailures : Nat) (row : ChunkRow) : ChunkRow :=
  { row with
    failures := row.failures + 1
    lastError := some (reason.slice16 1000)
    status := if row.failures + 1 ≥ maxFailures then .failed else row.status }

theorem claimed_chunk (now : Int) (leaseMs : Nat) (row : ChunkRow) :
    (claimed now leaseMs row).chunk = row.chunk := rfl

theorem checkpointed_chunk (batch : Batch) (stored : Nat) (row : ChunkRow) :
    (checkpointed batch stored row).chunk = row.chunk := rfl

theorem released_chunk (row : ChunkRow) : (released row).chunk = row.chunk := rfl

theorem failedOnce_chunk (reason : Text) (maxFailures : Nat) (row : ChunkRow) :
    (failedOnce reason maxFailures row).chunk = row.chunk := rfl

end IngestionRepository

namespace IngestionDb

open IngestionRepository

def chunksOf (db : IngestionDb) (jobId : Nat) : List ChunkRow :=
  db.chunks.rows.filter fun row => row.chunk.jobId = jobId

/-- `select count(*) from ingestion_chunks where job_id = $1 and status = 'done'` -/
def chunksDone (db : IngestionDb) (jobId : Nat) : Nat :=
  ((db.chunksOf jobId).filter fun row => row.status = .done).length

def rowsProcessed (db : IngestionDb) (jobId : Nat) : Nat :=
  ((db.chunksOf jobId).map ChunkRow.rowsProcessed).sum

def rowsRejected (db : IngestionDb) (jobId : Nat) : Nat :=
  ((db.chunksOf jobId).map ChunkRow.rowsRejected).sum

def refreshed (db : IngestionDb) (job : JobRow) : JobRow :=
  { job with
    chunksDone := db.chunksDone job.id
    rowsProcessed := db.rowsProcessed job.id
    rowsRejected := db.rowsRejected job.id
    updatedAt := db.now }

def erred (db : IngestionDb) (reason : Text) (job : JobRow) : JobRow :=
  { job with lastError := some (reason.slice16 1000), updatedAt := db.now }

def failed (db : IngestionDb) (job : JobRow) : JobRow :=
  { job with status := .failed, chunksDone := db.chunksDone job.id, updatedAt := db.now }

def completed (db : IngestionDb) (job : JobRow) : JobRow :=
  { db.refreshed job with status := .completed }

/-- No chunk of the job is left to run, and at least one gave up. -/
def exhausted (db : IngestionDb) (jobId : Nat) : Bool :=
  ((db.chunksOf jobId).all fun row => row.status = .done || row.status = .failed) &&
    (db.chunksOf jobId).any fun row => row.status = .failed

def allDone (db : IngestionDb) (jobId : Nat) : Bool :=
  (db.chunksOf jobId).all fun row => row.status = .done

theorem refreshed_id (db : IngestionDb) (job : JobRow) : (db.refreshed job).id = job.id := rfl

theorem erred_id (db : IngestionDb) (reason : Text) (job : JobRow) :
    (db.erred reason job).id = job.id := rfl

theorem failed_id (db : IngestionDb) (job : JobRow) : (db.failed job).id = job.id := rfl

theorem completed_id (db : IngestionDb) (job : JobRow) : (db.completed job).id = job.id := rfl

def claimChunk (db : IngestionDb) (chunk : ChunkProcess) (leaseMs : Nat) :
    IngestionDb × Option ChunkRow :=
  ({ db with
      chunks := db.chunks.update chunk (claimable db.now) (claimed db.now leaseMs)
        (claimed_chunk db.now leaseMs) },
    db.chunks.updated chunk (claimable db.now) (claimed db.now leaseMs))

/-- The transaction of `commit`: the products and the checkpoint, or neither. It answers with the
ids of the products, or nothing when the compare-and-set was refused. -/
def commit (db : IngestionDb) (chunk : ChunkProcess) (batch : Batch) :
    IngestionDb × Option (List (Option Nat)) :=
  let (products, ids) := db.products.upsertMany batch.rows
  let seen (row : ChunkRow) : Bool := row.nextOffset = batch.seenOffset
  match db.chunks.updated chunk seen (checkpointed batch ids.length) with
  | some _ =>
    ({ db with
        products := products
        chunks := db.chunks.update chunk seen (checkpointed batch ids.length)
          (checkpointed_chunk batch ids.length)
        log := db.log ++ [.committed chunk batch ids.length] }, some ids)
  | none => ({ db with products := ⟨db.products.table, products.sequence⟩ }, none)

def releaseChunk (db : IngestionDb) (chunk : ChunkProcess) (leaseUntil : Option Int) :
    IngestionDb :=
  { db with
    chunks := db.chunks.update chunk
      (fun row => row.status = .running && row.leaseUntil.isSome && row.leaseUntil = leaseUntil)
      released released_chunk }

def refreshJobProgress (db : IngestionDb) (jobId : Nat) : IngestionDb :=
  { db with
    jobs := db.jobs.update jobId (fun job => job.status = .running) db.refreshed db.refreshed_id
    log := db.log ++ [.refreshed jobId] }

/-- The first statement of `recordChunkFailure`, with what it answers. -/
def recordChunkFailure (db : IngestionDb) (chunk : ChunkProcess) (reason : Text)
    (maxFailures : Nat) : IngestionDb × Option ChunkRow :=
  ({ db with
      chunks := db.chunks.update chunk (fun _ => true) (failedOnce reason maxFailures)
        (failedOnce_chunk reason maxFailures) },
    db.chunks.updated chunk (fun _ => true) (failedOnce reason maxFailures))

/-- The second statement of `recordChunkFailure`. -/
def recordJobFailure (db : IngestionDb) (jobId : Nat) (reason : Text) : IngestionDb :=
  { db with jobs := db.jobs.update jobId (fun _ => true) (db.erred reason) (db.erred_id reason) }

def failJobIfExhausted (db : IngestionDb) (jobId : Nat) : IngestionDb :=
  { db with
    jobs := db.jobs.update jobId (fun job => job.status = .running && db.exhausted jobId)
      db.failed db.failed_id }

def completeJobIfDone (db : IngestionDb) (jobId : Nat) : IngestionDb :=
  { db with
    jobs := db.jobs.update jobId (fun job => job.status = .running && db.allDone jobId)
      db.completed db.completed_id }

end IngestionDb

end PromotionManagement
