import PromotionManagement.ProcessChunkCommand

namespace PromotionManagement
open Library IngestionRepository
set_option autoImplicit true

/-- What a statement can make of a row of `ingestion_chunks`. -/
inductive ChunkMove (now : Int) : Statement → ChunkRow → ChunkRow → Prop where
  | kept : ChunkMove now s row row
  | claimed : claimable now row → ChunkMove now (.claimChunk row.chunk leaseMs) row
      (IngestionRepository.claimed now leaseMs row)
  | checkpointed : row.nextOffset = batch.seenOffset → ChunkMove now (.commit row.chunk batch) row
      (IngestionRepository.checkpointed batch (Products.distinctSkus batch.rows).length row)
  | released : row.status = .running → ChunkMove now (.releaseChunk row.chunk row.leaseUntil) row
      (IngestionRepository.released row)
  | failedOnce : ChunkMove now (.recordChunkFailure row.chunk reason maxFailures) row
      (IngestionRepository.failedOnce reason maxFailures row)

namespace ChunkMove

theorem chunk (h : ChunkMove now s row row') : row'.chunk = row.chunk := by cases h <;> rfl

theorem startOffset (h : ChunkMove now s row row') : row'.startOffset = row.startOffset := by
  cases h <;> rfl

theorem endOffset (h : ChunkMove now s row row') : row'.endOffset = row.endOffset := by
  cases h <;> rfl

end ChunkMove

namespace IngestionDb

variable {db : IngestionDb} {guard : ChunkRow → Bool} {set : ChunkRow → ChunkRow}

/-- The guard of the checkpoint. -/
def seen (batch : Batch) (row : ChunkRow) : Bool := row.nextOffset = batch.seenOffset

/-- The number of ids a batch comes back with. -/
def storedBy (batch : Batch) : Nat := (Products.distinctSkus batch.rows).length

theorem commit_refused (h : db.chunks.updated chunk (seen batch)
    (checkpointed batch (storedBy batch)) = none) :
    (db.commit chunk batch).2 = none ∧ (db.commit chunk batch).1.chunks = db.chunks ∧
      (db.commit chunk batch).1.jobs = db.jobs ∧ (db.commit chunk batch).1.log = db.log := by
  have hlen := Products.length_upsertMany_ids db.products batch.rows
  rw [commit]
  generalize db.products.upsertMany batch.rows = out at hlen ⊢
  obtain ⟨products, ids⟩ := out
  dsimp only at hlen ⊢
  rw [storedBy, ← hlen] at h
  split
  · rename_i hs
    cases h.symm.trans hs
  · exact ⟨rfl, rfl, rfl, rfl⟩

theorem commit_moved (h : db.chunks.updated chunk (seen batch)
    (checkpointed batch (storedBy batch)) = some row) :
    (db.commit chunk batch).2 = some (db.products.upsertMany batch.rows).2 ∧
      (db.commit chunk batch).1.chunks = db.chunks.update chunk (seen batch)
        (checkpointed batch (storedBy batch)) (checkpointed_chunk batch (storedBy batch)) ∧
      (db.commit chunk batch).1.jobs = db.jobs ∧
      (db.commit chunk batch).1.log =
        db.log ++ [.committed chunk batch (storedBy batch)] := by
  have hlen := Products.length_upsertMany_ids db.products batch.rows
  rw [commit]
  generalize db.products.upsertMany batch.rows = out at hlen ⊢
  obtain ⟨products, ids⟩ := out
  dsimp only at hlen ⊢
  rw [storedBy, ← hlen] at h ⊢
  split
  · exact ⟨rfl, rfl, rfl, rfl⟩
  · rename_i hs
    cases h.symm.trans hs

/-- Whether or not the compare-and-set matches, the chunks are updated under its guard. -/
theorem commit_chunks (db : IngestionDb) (chunk : ChunkProcess) (batch : Batch) :
    (db.commit chunk batch).1.chunks = db.chunks.update chunk (seen batch)
      (checkpointed batch (storedBy batch)) (checkpointed_chunk batch (storedBy batch)) := by
  cases h : db.chunks.updated chunk (seen batch) (checkpointed batch (storedBy batch)) with
  | none =>
    rw [(commit_refused h).2.1]
    exact (Table.update_of_updated_none h).symm
  | some row => exact (commit_moved h).2.1

theorem commit_jobs (db : IngestionDb) (chunk : ChunkProcess) (batch : Batch) :
    (db.commit chunk batch).1.jobs = db.jobs := by
  cases h : db.chunks.updated chunk (seen batch) (checkpointed batch (storedBy batch)) with
  | none => exact (commit_refused h).2.2.1
  | some row => exact (commit_moved h).2.2.1

/-- The compare-and-set of a batch that finds its checkpoint. -/
theorem commit_seen (hr : row ∈ db.chunks.rows) (hs : row.nextOffset = batch.seenOffset) :
    (db.commit row.chunk batch).1.chunks = db.chunks.update row.chunk (seen batch)
        (checkpointed batch (storedBy batch)) (checkpointed_chunk batch (storedBy batch)) ∧
      (db.commit row.chunk batch).1.log =
        db.log ++ [.committed row.chunk batch (storedBy batch)] := by
  have hupdated : db.chunks.updated row.chunk (seen batch) (checkpointed batch (storedBy batch)) =
      some (checkpointed batch (storedBy batch) row) := by
    apply Table.updated_eq_some.2
    exact ⟨row, db.chunks.find_of_mem hr, decide_eq_true hs, rfl⟩
  obtain ⟨_, hchunks, _, hlog⟩ := commit_moved hupdated
  exact ⟨hchunks, hlog⟩

/-- The compare-and-set of a batch whose checkpoint is not the chunk's any more. -/
theorem commit_unseen (hr : row ∈ db.chunks.rows) (hs : row.nextOffset ≠ batch.seenOffset) :
    (db.commit row.chunk batch).1.chunks = db.chunks ∧
      (db.commit row.chunk batch).1.log = db.log := by
  have hupdated : db.chunks.updated row.chunk (seen batch) (checkpointed batch (storedBy batch)) =
      none := by
    cases hu : db.chunks.updated row.chunk (seen batch) (checkpointed batch (storedBy batch)) with
    | none => rfl
    | some row' =>
      obtain ⟨row₀, hf, hg, _⟩ := Table.updated_eq_some.1 hu
      rw [db.chunks.find_of_mem hr] at hf
      cases hf
      exact absurd (of_decide_eq_true hg) hs
  obtain ⟨_, hchunks, _, hlog⟩ := commit_refused hupdated
  exact ⟨hchunks, hlog⟩

/-- The guarded update of `ingestion_chunks` in a statement, if it has one. -/
def chunkUpdate (db : IngestionDb) :
    Statement → Option (ChunkProcess × (ChunkRow → Bool) × (ChunkRow → ChunkRow))
  | .claimChunk chunk leaseMs => some (chunk, claimable db.now, claimed db.now leaseMs)
  | .commit chunk batch => some (chunk, seen batch, checkpointed batch (storedBy batch))
  | .releaseChunk chunk leaseUntil =>
    some (chunk, fun row => row.status = .running && row.leaseUntil.isSome &&
      row.leaseUntil = leaseUntil, released)
  | .recordChunkFailure chunk reason maxFailures =>
    some (chunk, fun _ => true, failedOnce reason maxFailures)
  | _ => none

theorem ChunkMove.of_chunkUpdate (h : db.chunkUpdate s = some (row.chunk, guard, set))
    (hg : guard row) : ChunkMove db.now s row (set row) := by
  cases s with
  | claimChunk chunk leaseMs =>
    cases h
    exact .claimed hg
  | commit chunk batch =>
    cases h
    exact .checkpointed (of_decide_eq_true hg)
  | releaseChunk chunk leaseUntil =>
    cases h
    simp only [Bool.and_eq_true, decide_eq_true_eq] at hg
    obtain ⟨⟨hr, _⟩, rfl⟩ := hg
    exact .released hr
  | recordChunkFailure chunk reason maxFailures =>
    cases h
    exact .failedOnce
  | refreshJobProgress jobId => cases h
  | recordJobFailure jobId reason => cases h
  | failJobIfExhausted jobId => cases h
  | completeJobIfDone jobId => cases h

theorem execute_chunks_none (h : db.chunkUpdate s = none) : (db.execute s).chunks = db.chunks := by
  cases s with
  | refreshJobProgress jobId => rfl
  | recordJobFailure jobId reason => rfl
  | failJobIfExhausted jobId => rfl
  | completeJobIfDone jobId => rfl
  | claimChunk chunk leaseMs => cases h
  | commit chunk batch => cases h
  | releaseChunk chunk leaseUntil => cases h
  | recordChunkFailure chunk reason maxFailures => cases h

theorem execute_chunks_some (h : db.chunkUpdate s = some (chunk, guard, set)) :
    ∃ hset, (db.execute s).chunks = db.chunks.update chunk guard set hset := by
  cases s with
  | claimChunk chunk leaseMs =>
    cases h
    exact ⟨claimed_chunk db.now leaseMs, rfl⟩
  | commit chunk batch =>
    cases h
    exact ⟨checkpointed_chunk batch (storedBy batch), db.commit_chunks chunk batch⟩
  | releaseChunk chunk leaseUntil =>
    cases h
    exact ⟨released_chunk, rfl⟩
  | recordChunkFailure chunk reason maxFailures =>
    cases h
    exact ⟨failedOnce_chunk reason maxFailures, rfl⟩
  | refreshJobProgress jobId => cases h
  | recordJobFailure jobId reason => cases h
  | failJobIfExhausted jobId => cases h
  | completeJobIfDone jobId => cases h

theorem chunk_after (h : row' ∈ (db.execute s).chunks.rows) :
    ∃ row ∈ db.chunks.rows, ChunkMove db.now s row row' := by
  cases hu : db.chunkUpdate s with
  | none =>
    rw [execute_chunks_none hu] at h
    exact ⟨row', h, .kept⟩
  | some u =>
    obtain ⟨chunk, guard, set⟩ := u
    obtain ⟨hset, hc⟩ := execute_chunks_some hu
    rw [hc] at h
    rcases Table.mem_update_cases hset h with h | ⟨row, hr, rfl, hg, rfl⟩
    · exact ⟨row', h, .kept⟩
    · exact ⟨row, hr, ChunkMove.of_chunkUpdate hu hg⟩

theorem chunk_before (s : Statement) (h : row ∈ db.chunks.rows) :
    ∃ row' ∈ (db.execute s).chunks.rows, ChunkMove db.now s row row' := by
  cases hu : db.chunkUpdate s with
  | none =>
    rw [execute_chunks_none hu]
    exact ⟨row, h, .kept⟩
  | some u =>
    obtain ⟨chunk, guard, set⟩ := u
    obtain ⟨hset, hc⟩ := execute_chunks_some hu
    rw [hc]
    by_cases hk : row.chunk = chunk ∧ guard row
    · obtain ⟨rfl, hg⟩ := hk
      exact ⟨set row, Table.set_mem_update h rfl hg, ChunkMove.of_chunkUpdate hu hg⟩
    · exact ⟨row, Table.mem_update_of_not h hk, .kept⟩

/-- A statement whose guard matches a row of its chunk has written it. -/
theorem chunk_written (hu : db.chunkUpdate s = some (row.chunk, guard, set))
    (h : row ∈ db.chunks.rows) (hg : guard row) : set row ∈ (db.execute s).chunks.rows := by
  obtain ⟨hset, hc⟩ := execute_chunks_some hu
  rw [hc]
  exact Table.set_mem_update h rfl hg

end IngestionDb

/-- What a statement can make of a row of `ingestion_jobs`. -/
inductive JobMove (db : IngestionDb) : Statement → JobRow → JobRow → Prop where
  | kept : JobMove db s job job
  | refreshed : job.status = .running → JobMove db (.refreshJobProgress job.id) job
      (db.refreshed job)
  | erred : JobMove db (.recordJobFailure job.id reason) job (db.erred reason job)
  | failed : job.status = .running → db.exhausted job.id →
      JobMove db (.failJobIfExhausted job.id) job (db.failed job)
  | completed : job.status = .running → db.allDone job.id →
      JobMove db (.completeJobIfDone job.id) job (db.completed job)

theorem JobMove.fileRef (h : JobMove db s job job') : job'.fileRef = job.fileRef := by
  cases h <;> rfl

theorem JobMove.id (h : JobMove db s job job') : job'.id = job.id := by cases h <;> rfl

namespace IngestionDb

variable {db : IngestionDb}

theorem job_after (h : job' ∈ (db.execute s).jobs.rows) :
    ∃ job ∈ db.jobs.rows, JobMove db s job job' := by
  cases s with
  | claimChunk chunk leaseMs => exact ⟨job', h, .kept⟩
  | commit chunk batch =>
    change job' ∈ (db.commit chunk batch).1.jobs.rows at h
    rw [commit_jobs] at h
    exact ⟨job', h, .kept⟩
  | releaseChunk chunk leaseUntil => exact ⟨job', h, .kept⟩
  | recordChunkFailure chunk reason maxFailures => exact ⟨job', h, .kept⟩
  | refreshJobProgress jobId =>
    rcases Table.mem_update_cases db.refreshed_id h with h | ⟨job, hj, rfl, hg, rfl⟩
    · exact ⟨job', h, .kept⟩
    · exact ⟨job, hj, .refreshed (of_decide_eq_true hg)⟩
  | recordJobFailure jobId reason =>
    rcases Table.mem_update_cases (db.erred_id reason) h with h | ⟨job, hj, rfl, hg, rfl⟩
    · exact ⟨job', h, .kept⟩
    · exact ⟨job, hj, .erred⟩
  | failJobIfExhausted jobId =>
    rcases Table.mem_update_cases db.failed_id h with h | ⟨job, hj, rfl, hg, rfl⟩
    · exact ⟨job', h, .kept⟩
    · rw [Bool.and_eq_true, decide_eq_true_eq] at hg
      exact ⟨job, hj, .failed hg.1 hg.2⟩
  | completeJobIfDone jobId =>
    rcases Table.mem_update_cases db.completed_id h with h | ⟨job, hj, rfl, hg, rfl⟩
    · exact ⟨job', h, .kept⟩
    · rw [Bool.and_eq_true, decide_eq_true_eq] at hg
      exact ⟨job, hj, .completed hg.1 hg.2⟩

end IngestionDb

/-- The phases in which an invocation goes by the offsets of the chunk it claimed. -/
def Phase.working : Phase → Bool
  | .finding _ => true
  | .compiling _ _ => true
  | .reading _ => true
  | .storing _ _ => true
  | .publishing _ _ _ => true
  | _ => false

/-- Every chunk of one state is a chunk of the other, with the same range. -/
def KeepsRanges (db db' : IngestionDb) : Prop :=
  ∀ row ∈ db.chunks.rows, ∃ row' ∈ db'.chunks.rows, row'.chunk = row.chunk ∧
    row'.startOffset = row.startOffset ∧ row'.endOffset = row.endOffset

namespace ProcessChunkCommand

variable {c : ProcessChunkCommand} {P : Phase → Prop} {p : Phase}

theorem phase_resume (hp : P p) (hidle : ∀ phase, phase.working = false → P phase)
    (hclaim : ∀ chunk claimed, (db.claimChunk chunk c.leaseMs).2 = some claimed →
      P (.finding claimed))
    (hfind : ∀ claimed, p = .finding claimed →
      P (.compiling claimed (db.jobs.find claimed.chunk.jobId)))
    (hread : ∀ run, p = .reading run → P (c.read run))
    (hstore : ∀ run ids leftover, p = .storing run leftover → P (.publishing run ids leftover)) :
    P (c.resume db p) := by
  cases p with
  | claiming chunk =>
    rw [resume]
    split
    · exact hidle _ rfl
    · rename_i claimed hc
      exact hclaim chunk claimed hc
  | finding claimed => exact hfind claimed rfl
  | reading run => exact hread run rfl
  | storing run leftover =>
    rw [resume]
    split
    · exact hp
    · split
      · exact hidle _ rfl
      · exact hstore run _ leftover rfl
  | recordingJob chunk reason exhausted =>
    rw [resume]
    split
    · exact hidle _ rfl
    · exact hidle _ rfl
  | compiling claimed job => exact hp
  | publishing run ids leftover => exact hp
  | _ => exact hidle _ rfl

theorem phase_compiled (hp : P p) (hidle : ∀ phase, phase.working = false → P phase)
    (hcompile : ∀ claimed job, p = .compiling claimed (some job) →
      P (c.compiled calculator (.compiling claimed (some job)))) :
    P (c.compiled calculator p) := by
  cases p with
  | compiling claimed job =>
    cases job with
    | none => exact hidle _ rfl
    | some job => exact hcompile claimed job rfl
  | _ => exact hp

theorem phase_published (hp : P p) (hidle : ∀ phase, phase.working = false → P phase)
    (hnext : ∀ run ids, p = .publishing run ids false →
      P (.reading { commitInto run ids.length with batch := emptyBatch run.rowStart })) :
    P (published outOfTime p) := by
  cases p with
  | publishing run ids leftover =>
    rw [published]
    dsimp only
    split
    · exact hidle _ rfl
    · rename_i hl
      split
      · exact hidle _ rfl
      · rw [Bool.not_eq_true] at hl
        subst hl
        exact hnext run ids rfl
  | _ => exact hp

theorem phase_fail (hp : P p) (hidle : ∀ phase, phase.working = false → P phase) :
    P (fail reason p) := by
  cases p with
  | publishing run ids leftover => exact hp
  | _ => exact hidle _ rfl

end ProcessChunkCommand

namespace IngestionWorld

variable {c : ProcessChunkCommand} {w : IngestionWorld} {e : IngestionEvent}

theorem stored_of_issued (h : w.issued c e = some s) : (w.step c e).db = w.db.execute s := by
  change w.stored c e = _
  rw [stored, h]

/-- An event without a statement can only move the clock. -/
theorem stored_of_none (h : w.issued c e = none) :
    (w.step c e).db = { w.db with now := w.now e } := by
  change w.stored c e = _
  rw [stored, h]

theorem step_moved (h : w.moved c e = some (i, phase)) : (w.step c e).invocations i = phase := by
  rw [step, h]
  exact Function.update_self _ _ _

/-- An event that moves no invocation, or another one, leaves an invocation as it is. -/
theorem step_unmoved (h : ∀ phase, w.moved c e ≠ some (i, phase)) :
    (w.step c e).invocations i = w.invocations i := by
  rw [step]
  cases hm : w.moved c e with
  | none => rfl
  | some m =>
    dsimp only
    apply Function.update_of_ne
    rintro rfl
    exact h m.2 hm

theorem chunk_after (h : row' ∈ (w.step c e).db.chunks.rows) : row' ∈ w.db.chunks.rows ∨
    ∃ s, w.issued c e = some s ∧ ∃ row ∈ w.db.chunks.rows, ChunkMove w.db.now s row row' := by
  cases hs : w.issued c e with
  | none =>
    rw [stored_of_none hs] at h
    exact .inl h
  | some s =>
    rw [stored_of_issued hs] at h
    exact .inr ⟨s, rfl, IngestionDb.chunk_after h⟩

theorem job_after (h : job' ∈ (w.step c e).db.jobs.rows) : job' ∈ w.db.jobs.rows ∨
    ∃ s, w.issued c e = some s ∧ ∃ job ∈ w.db.jobs.rows, JobMove w.db s job job' := by
  cases hs : w.issued c e with
  | none =>
    rw [stored_of_none hs] at h
    exact .inl h
  | some s =>
    rw [stored_of_issued hs] at h
    exact .inr ⟨s, rfl, IngestionDb.job_after h⟩

theorem keepsRanges (c : ProcessChunkCommand) (w : IngestionWorld) (e : IngestionEvent) :
    KeepsRanges w.db (w.step c e).db := by
  intro row h
  cases hs : w.issued c e with
  | none =>
    rw [stored_of_none hs]
    exact ⟨row, h, rfl, rfl, rfl⟩
  | some s =>
    rw [stored_of_issued hs]
    obtain ⟨row', hr, hm⟩ := IngestionDb.chunk_before s h
    exact ⟨row', hr, hm.chunk, hm.startOffset, hm.endOffset⟩

/-- What holds of the phases that do not go by a chunk's offsets, and of those that each turn of an
invocation leads to, holds of every invocation after an event. -/
theorem phases_step {P : Phase → Prop} (hkeep : ∀ i, P (w.invocations i))
    (hidle : ∀ phase, phase.working = false → P phase)
    (hclaim : ∀ chunk claimed, (w.db.claimChunk chunk c.leaseMs).2 = some claimed →
      P (.finding claimed))
    (hfind : ∀ i claimed, w.invocations i = .finding claimed →
      P (.compiling claimed (w.db.jobs.find claimed.chunk.jobId)))
    (hcompile : ∀ i claimed job calculator, e = .compiled i calculator →
      w.invocations i = .compiling claimed (some job) →
        P (c.compiled calculator (.compiling claimed (some job))))
    (hread : ∀ i run, w.invocations i = .reading run → P (c.read run))
    (hstore : ∀ i run ids leftover, w.invocations i = .storing run leftover →
      P (.publishing run ids leftover))
    (hnext : ∀ i run ids, w.invocations i = .publishing run ids false →
      P (.reading { ProcessChunkCommand.commitInto run ids.length with
        batch := ProcessChunkCommand.emptyBatch run.rowStart })) :
    ∀ i, P ((w.step c e).invocations i) := by
  intro j
  have hset (i : Nat) (phase : Phase) (h : P phase) :
      P (Function.update w.invocations i phase j) := by
    by_cases hj : j = i
    · subst hj
      rw [Function.update_self]
      exact h
    · rw [Function.update_of_ne hj]
      exact hkeep j
  rw [step]
  dsimp only
  cases e with
  | clock now => exact hkeep j
  | deliver i chunk =>
    rw [moved]
    split
    · exact hset _ _ (hidle _ rfl)
    · exact hkeep j
  | step i =>
    apply hset
    exact ProcessChunkCommand.phase_resume (hkeep i) hidle hclaim (hfind i) (hread i) (hstore i)
  | compiled i calculator =>
    apply hset
    exact ProcessChunkCommand.phase_compiled (hkeep i) hidle
      fun claimed job hi => hcompile i claimed job calculator rfl hi
  | published i delivered outOfTime =>
    apply hset
    exact ProcessChunkCommand.phase_published (hkeep i) hidle (hnext i)
  | fail i reason applied =>
    apply hset
    exact ProcessChunkCommand.phase_fail (hkeep i) hidle
  | kill i applied => exact hset _ _ (hidle _ rfl)
  | completeJobIfDone jobId => exact hkeep j
  | failJobIfExhausted jobId => exact hkeep j

end IngestionWorld

end PromotionManagement
