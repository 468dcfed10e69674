import PromotionManagement.ImportIntake
import PromotionManagement.IngestionSteps

namespace PromotionManagement
open Library
set_option autoImplicit true

namespace IntakeState

/-- There is an import of a file. -/
def Job (s : IntakeState) (jobId : Nat) (file : Text) : Prop :=
  ∃ job ∈ s.world.db.jobs.rows, job.id = jobId ∧ job.fileRef = file

/-- An import has a chunk of a byte range. -/
def Range (s : IntakeState) (jobId : Nat) (b : ChunkBoundary) : Prop :=
  ∃ row ∈ s.world.db.chunks.rows, row.chunk = ⟨jobId, b.chunkIndex⟩ ∧
    row.startOffset = b.startOffset ∧ row.endOffset = b.endOffset

/-- A file on disk that no import names. -/
structure Held (s : IntakeState) (file : Text) : Prop where
  named : file ∈ s.names
  onDisk : ∃ bytes, s.disk file = some bytes
  free : ∀ jobId, ¬s.Job jobId file

end IntakeState

open IntakeState

/-- What becomes of all files but one when nothing touches them. -/
structure Spares (touched : Text) (s s' : IntakeState) : Prop where
  names : ∀ file ∈ s.names, file ∈ s'.names
  disk : ∀ file ≠ touched, s'.disk file = s.disk file
  job : ∀ jobId, ∀ file ≠ touched, s'.Job jobId file ↔ s.Job jobId file
  enqueued : ∀ chunk ∈ s.enqueued, chunk ∈ s'.enqueued

/-- What a registration writes of a file is true of it. -/
structure ImportFile.Describes (c : RegisterImportCommand) (bytes : List UInt8) (f : ImportFile) :
    Prop where
  fileSha256 : f.fileSha256 = c.sha256 bytes
  fileSizeBytes : f.fileSizeBytes = bytes.length
  chunksTotal : f.chunksTotal = (chunkBoundaries bytes c.chunkBytes).length

/-- What the reads of a file have found is true of it. -/
structure Inspection.Finds (c : RegisterImportCommand) (bytes : List UInt8) (found : Inspection) :
    Prop where
  size : ∀ size ∈ found.size, size = bytes.length
  fileSha256 : ∀ hash ∈ found.fileSha256, hash = c.sha256 bytes
  boundaries : ∀ boundaries ∈ found.boundaries, boundaries = chunkBoundaries bytes c.chunkBytes

/-- An import of the request's file, of which all chunks but some are on the queue. -/
def IntakeState.Imported (c : RegisterImportCommand) (s : IntakeState) (file : Text) (jobId : Nat)
    (rest : List ChunkBoundary) (total : Nat) : Prop :=
  s.Job jobId file ∧ ∃ bytes, s.disk file = some bytes ∧
    total = (chunkBoundaries bytes c.chunkBytes).length ∧
    (∀ b ∈ rest, b ∈ chunkBoundaries bytes c.chunkBytes) ∧
    ∀ b ∈ chunkBoundaries bytes c.chunkBytes,
      b ∈ rest ∨ (⟨jobId, b.chunkIndex⟩ : ChunkProcess) ∈ s.enqueued

namespace UploadPhase

/-- The request has a file that no import names. -/
def holding : UploadPhase → Bool
  | .received _ => true
  | .inspecting _ _ => true
  | .discarding _ _ => true
  | _ => false

theorem holding_of_ended {phase : UploadPhase} (h : phase.ended = true) :
    phase.holding = false := by
  cases phase with
  | idle => rfl
  | answered answer => rfl
  | _ => cases h

/-- What is true of a request's file, wherever the request is. -/
def Sound (c : RegisterImportCommand) (s : IntakeState) (file : Text) : UploadPhase → Prop
  | .idle => True
  | .received _ => s.Held file
  | .inspecting _ found => s.Held file ∧ ∃ bytes, s.disk file = some bytes ∧ found.Finds c bytes
  | .discarding _ _ => s.Held file
  | .enqueueing jobId rest total => s.Imported c file jobId rest total
  | .answered (.accepted jobId total) => s.Imported c file jobId [] total
  | .answered (.refused _ _) =>
    file ∈ s.names ∧ s.disk file = none ∧ ∀ jobId, ¬s.Job jobId file
  | .answered .raised => True

theorem Sound.held (h : Sound c s file phase) (hphase : phase.holding = true) : s.Held file := by
  cases phase with
  | received vendor => exact h
  | inspecting vendor found => exact h.1
  | discarding status message => exact h
  | _ => cases hphase

/-- What is true of a file stays true while neither the file nor its imports change. -/
theorem Sound.mono {s s' : IntakeState} (h : Sound c s file phase)
    (hnames : file ∈ s.names → file ∈ s'.names) (hdisk : s'.disk file = s.disk file)
    (hjob : ∀ jobId, s'.Job jobId file ↔ s.Job jobId file)
    (henqueued : ∀ chunk ∈ s.enqueued, chunk ∈ s'.enqueued) : Sound c s' file phase := by
  have hheld (hh : s.Held file) : s'.Held file :=
    ⟨hnames hh.named, hdisk ▸ hh.onDisk, fun jobId hj => hh.free jobId ((hjob jobId).1 hj)⟩
  have himported {jobId : Nat} {rest : List ChunkBoundary} {total : Nat}
      (hi : s.Imported c file jobId rest total) : s'.Imported c file jobId rest total := by
    obtain ⟨hj, bytes, hb, htotal, hrest, hall⟩ := hi
    refine ⟨(hjob jobId).2 hj, bytes, hdisk.trans hb, htotal, hrest, ?_⟩
    exact fun b hb => (hall b hb).imp_right (henqueued _)
  cases phase with
  | idle => trivial
  | received vendor => exact hheld h
  | inspecting vendor found =>
    obtain ⟨bytes, hb, hfinds⟩ := h.2
    exact ⟨hheld h.1, bytes, hdisk.trans hb, hfinds⟩
  | discarding status message => exact hheld h
  | enqueueing jobId rest total => exact himported h
  | answered answer =>
    cases answer with
    | accepted jobId total => exact himported h
    | refused status message =>
      exact ⟨hnames h.1, hdisk.trans h.2.1, fun jobId hj => h.2.2 jobId ((hjob jobId).1 hj)⟩
    | raised => trivial

/-- What happens to one file does not matter to the requests of the others. -/
theorem Sound.spared {s s' : IntakeState} (h : Sound c s file phase)
    (hne : phase = .idle ∨ phase = .answered .raised ∨ file ≠ touched)
    (hspares : Spares touched s s') : Sound c s' file phase := by
  rcases hne with rfl | rfl | hne
  · trivial
  · trivial
  · exact h.mono (hspares.names file) (hspares.disk file hne)
      (fun jobId => hspares.job jobId file hne) hspares.enqueued

/-- A file that a request has for itself is no other request's. -/
theorem Sound.file_ne (h : Sound c s file phase) (hheld : s.Held touched)
    (hne : phase.holding = true → file ≠ touched) :
    phase = .idle ∨ phase = .answered .raised ∨ file ≠ touched := by
  cases phase with
  | idle => exact .inl rfl
  | received vendor => exact .inr (.inr (hne rfl))
  | inspecting vendor found => exact .inr (.inr (hne rfl))
  | discarding status message => exact .inr (.inr (hne rfl))
  | enqueueing jobId rest total =>
    right; right
    rintro rfl
    exact hheld.free jobId h.1
  | answered answer =>
    cases answer with
    | accepted jobId total =>
      right; right
      rintro rfl
      exact hheld.free jobId h.1
    | refused status message =>
      right; right
      rintro rfl
      obtain ⟨bytes, hb⟩ := hheld.onDisk
      rw [h.2.1] at hb
      cases hb
    | raised => exact .inr (.inl rfl)

end UploadPhase

/-- Every import is of a file that is on disk, described as it is and cut from its first row to its
end; a file is imported once, by its name and by its hash, and a vendor has one import that is not
settled. -/
structure Intake (c : RegisterImportCommand) (s : IntakeState) : Prop where
  jobs : ∀ jobId file, s.Job jobId file → jobId ≤ s.lastJobId ∧ file ∈ s.names ∧
    ∃ bytes, s.disk file = some bytes ∧
      (∃ f ∈ s.imports.rows, f.jobId = jobId ∧ f.Describes c bytes) ∧
      ∀ b, s.Range jobId b ↔ b ∈ chunkBoundaries bytes c.chunkBytes
  imports : ∀ f ∈ s.imports.rows, ∃ file, s.Job f.jobId file
  ranges : ∀ jobId b, s.Range jobId b → ∃ file, s.Job jobId file
  files : ∀ jobId jobId' file, s.Job jobId file → s.Job jobId' file → jobId = jobId'
  hashes : ∀ f ∈ s.imports.rows, ∀ g ∈ s.imports.rows, f.fileSha256 = g.fileSha256 → f = g
  vendors : ∀ f ∈ s.imports.rows, ∀ g ∈ s.imports.rows, f.vendor = g.vendor →
    s.unsettled f.jobId → s.unsettled g.jobId → f = g
  enqueued : ∀ chunk ∈ s.enqueued, ∃ b, s.Range chunk.jobId b ∧ b.chunkIndex = chunk.chunkIndex
  sound : ∀ i, (s.uploads i).phase.Sound c s (s.uploads i).file
  apart : ∀ i j, (s.uploads i).phase.holding → (s.uploads j).phase.holding →
    (s.uploads i).file = (s.uploads j).file → i = j

namespace IngestionWorld

variable {c : ProcessChunkCommand} {w : IngestionWorld} {e : IngestionEvent}

/-- The workers settle imports, and neither add nor remove one. -/
theorem map_id_step (c : ProcessChunkCommand) (w : IngestionWorld) (e : IngestionEvent) :
    (w.step c e).db.jobs.rows.map JobRow.id = w.db.jobs.rows.map JobRow.id := by
  cases hs : w.issued c e with
  | none => rw [stored_of_none hs]
  | some s =>
    rw [stored_of_issued hs]
    cases s with
    | claimChunk chunk leaseMs => rfl
    | commit chunk batch =>
      change (w.db.commit chunk batch).1.jobs.rows.map JobRow.id = _
      rw [IngestionDb.commit_jobs]
    | releaseChunk chunk leaseUntil => rfl
    | recordChunkFailure chunk reason maxFailures => rfl
    | refreshJobProgress jobId => exact w.db.jobs.map_key_update _ _ _ w.db.refreshed_id
    | recordJobFailure jobId reason => exact w.db.jobs.map_key_update _ _ _ (w.db.erred_id reason)
    | failJobIfExhausted jobId => exact w.db.jobs.map_key_update _ _ _ w.db.failed_id
    | completeJobIfDone jobId => exact w.db.jobs.map_key_update _ _ _ w.db.completed_id

theorem job_step (h : job' ∈ (w.step c e).db.jobs.rows) :
    ∃ job ∈ w.db.jobs.rows, job.id = job'.id ∧ job.fileRef = job'.fileRef ∧
      (job'.status = job.status ∨ job'.status = .failed ∨ job'.status = .completed) := by
  rcases job_after h with h | ⟨s, _, job, hjob, hm⟩
  · exact ⟨job', h, rfl, rfl, .inl rfl⟩
  · refine ⟨job, hjob, hm.id.symm, hm.fileRef.symm, ?_⟩
    cases hm with
    | kept => exact .inl rfl
    | refreshed _ => exact .inl rfl
    | erred => exact .inl rfl
    | failed _ _ => exact .inr (.inl rfl)
    | completed _ _ => exact .inr (.inr rfl)

end IngestionWorld

end PromotionManagement
