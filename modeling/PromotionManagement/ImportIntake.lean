import PromotionManagement.HeaderLine

namespace PromotionManagement
open Library
set_option autoImplicit true

/-- The options of the command that a registration goes by, and the hash it takes of a file. -/
structure RegisterImportCommand where
  chunkBytes : Nat
  sha256 : List UInt8 → Text

/-- The columns of an `ingestion_jobs` row that only its registration writes and reads. -/
structure ImportFile where
  jobId : Nat
  vendor : Text
  fileSha256 : Text
  fileSizeBytes : Nat
  chunksTotal : Nat
deriving DecidableEq

/-- What the three reads of a file, which run side by side, have found so far. -/
structure Inspection where
  size : Option Nat
  fileSha256 : Option Text
  boundaries : Option (List ChunkBoundary)

inductive UploadAnswer where
  | accepted (jobId chunksTotal : Nat)
  | refused (status : Nat) (message : String)
  | raised
deriving DecidableEq

/-- What the request of an upload awaits, once its file is on disk. -/
inductive UploadPhase where
  | idle
  | received (vendor : Option Text)
  | inspecting (vendor : Text) (found : Inspection)
  | discarding (status : Nat) (message : String)
  | enqueueing (jobId : Nat) (rest : List ChunkBoundary) (total : Nat)
  | answered (answer : UploadAnswer)

/-- A request, with the name that its file was given. -/
structure Upload where
  file : Text
  phase : UploadPhase

/-- The database and the workers, the upload directory, and the requests. `names` are those ever
drawn for a file, `enqueued` the chunks that registrations have put on the queue. -/
structure IntakeState where
  world : IngestionWorld
  imports : Table ImportFile.jobId
  lastJobId : Nat
  disk : Text → Option (List UInt8)
  names : List Text
  enqueued : List ChunkProcess
  uploads : Nat → Upload

/-- What happens: a step of the workers, a file that has landed on disk, one of the reads of it,
the end of what a request awaits, or its failure. A call that fails, or whose process is killed,
may have been carried out. -/
inductive IntakeEvent where
  | ingest (e : IngestionEvent)
  | receive (i : Nat) (file : Text) (bytes : List UInt8) (vendor : Option Text)
  | register (i : Nat)
  | stat (i : Nat)
  | hash (i : Nat)
  | cut (i : Nat)
  | resolve (i : Nat)
  | throw (i : Nat) (applied : Bool)
  | kill (i : Nat) (applied : Bool)

def UploadPhase.ended : UploadPhase → Bool
  | .idle => true
  | .answered _ => true
  | _ => false

namespace IntakeState

def initial (now : Int) : IntakeState where
  world :=
    { db := { now := now, chunks := .empty, jobs := .empty, products := .empty, log := [] }
      invocations := fun _ => .idle
      published := []
      reenqueued := [] }
  imports := .empty
  lastJobId := 0
  disk := fun _ => none
  names := []
  enqueued := []
  uploads := fun _ => ⟨[], .idle⟩

def setPhase (s : IntakeState) (i : Nat) (phase : UploadPhase) : IntakeState :=
  { s with uploads := Function.update s.uploads i ⟨(s.uploads i).file, phase⟩ }

/-- `status in ('running', 'paused')` -/
def unsettled (s : IntakeState) (jobId : Nat) : Bool :=
  (s.world.db.jobs.find jobId).any fun job => job.status = .running || job.status = .paused

end IntakeState

namespace RegisterImportCommand

/-- The status and the sentence for an insert that a unique index refused: the one on the hash is
looked at before the one on vendors. -/
def refusal (s : IntakeState) (vendor fileSha256 : Text) : Option (Nat × String) :=
  if s.imports.rows.any fun f => f.fileSha256 = fileSha256 then
    some (409, "A file with these contents has already been registered")
  else if s.imports.rows.any fun f => f.vendor = vendor && s.unsettled f.jobId then
    some (409, "This vendor already has an import running; wait for it to finish")
  else none

/-- The transaction: the job and its chunks, under the next id. -/
def insert (s : IntakeState) (file vendor : Text) (size : Nat) (fileSha256 : Text)
    (boundaries : List ChunkBoundary) : IntakeState :=
  let jobId := s.lastJobId + 1
  match refusal s vendor fileSha256 with
  | some _ => { s with lastJobId := jobId }
  | none =>
    { s with
      world := { s.world with db := s.world.db.register jobId file boundaries }
      imports := s.imports.insert ⟨jobId, vendor, fileSha256, size, boundaries.length⟩
      lastJobId := jobId }

/-- The loop over the chunks still to be enqueued, and the answer after the last. -/
def enqueue (jobId : Nat) (rest : List ChunkBoundary) (total : Nat) : UploadPhase :=
  if rest = [] then .answered (.accepted jobId total) else .enqueueing jobId rest total

end RegisterImportCommand

namespace IntakeState

open RegisterImportCommand

/-- What a request awaits, carried out. -/
def awaited (s : IntakeState) (i : Nat) : IntakeState :=
  match (s.uploads i).phase with
  | .inspecting vendor ⟨some size, some fileSha256, some boundaries⟩ =>
    insert s (s.uploads i).file vendor size fileSha256 boundaries
  | .discarding _ _ => { s with disk := Function.update s.disk (s.uploads i).file none }
  | .enqueueing jobId (b :: _) _ => { s with enqueued := s.enqueued ++ [⟨jobId, b.chunkIndex⟩] }
  | _ => s

/-- Where a request goes once that has answered. -/
def next (s : IntakeState) (i : Nat) : UploadPhase :=
  match (s.uploads i).phase with
  | .inspecting vendor ⟨some _, some fileSha256, some boundaries⟩ =>
    match refusal s vendor fileSha256 with
    | some (status, message) => .discarding status message
    | none => enqueue (s.lastJobId + 1) boundaries boundaries.length
  | .discarding status message => .answered (.refused status message)
  | .enqueueing jobId (_ :: rest) total => enqueue jobId rest total
  | phase => phase

/-- The upload middleware puts a file on disk under a name of its own. -/
def receive (s : IntakeState) (i : Nat) (file : Text) (bytes : List UInt8)
    (vendor : Option Text) : IntakeState :=
  if (s.uploads i).phase.ended ∧ s.names.all (fun name => name ≠ file) then
    { s with
      disk := Function.update s.disk file (some bytes)
      names := file :: s.names
      uploads := Function.update s.uploads i ⟨file, .received vendor⟩ }
  else s

/-- The vendor field is looked at. -/
def register (s : IntakeState) (i : Nat) : IntakeState :=
  match (s.uploads i).phase with
  | .received vendor =>
    let vendor := (vendor.map Text.trim).getD []
    s.setPhase i (if vendor = [] then .discarding 400 "Name the vendor in a `vendor` field"
      else .inspecting vendor ⟨none, none, none⟩)
  | _ => s

/-- One of the reads of the file ends. -/
def inspect (s : IntakeState) (i : Nat) (found : List UInt8 → Inspection → Inspection) :
    IntakeState :=
  match (s.uploads i).phase, s.disk (s.uploads i).file with
  | .inspecting vendor inspection, some bytes =>
    s.setPhase i (.inspecting vendor (found bytes inspection))
  | _, _ => s

/-- The command of the workers, whose files are those of the upload directory. -/
def reading (s : IntakeState) (w : ProcessChunkCommand) : ProcessChunkCommand :=
  { w with files := fun fileRef => (s.disk fileRef).getD [] }

def step (c : RegisterImportCommand) (w : ProcessChunkCommand) (s : IntakeState) :
    IntakeEvent → IntakeState
  | .ingest e => { s with world := s.world.step (s.reading w) e }
  | .receive i file bytes vendor => s.receive i file bytes vendor
  | .register i => s.register i
  | .stat i => s.inspect i fun bytes found => { found with size := some bytes.length }
  | .hash i => s.inspect i fun bytes found => { found with fileSha256 := some (c.sha256 bytes) }
  | .cut i => s.inspect i fun bytes found =>
    { found with boundaries := some (chunkBoundaries bytes c.chunkBytes) }
  | .resolve i => (s.awaited i).setPhase i (s.next i)
  | .throw i applied =>
    if (s.uploads i).phase.ended then s
    else (if applied then s.awaited i else s).setPhase i (.answered .raised)
  | .kill i applied =>
    if (s.uploads i).phase.ended then s
    else (if applied then s.awaited i else s).setPhase i .idle

end IntakeState

end PromotionManagement
