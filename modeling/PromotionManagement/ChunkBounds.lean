import PromotionManagement.IngestionSteps

namespace PromotionManagement
open Library
set_option autoImplicit true

namespace Batch

variable (batch : Batch) (priced : Option ProductUpsert) (endOffset : Nat)

@[simp] theorem add_nextOffset : (batch.add priced endOffset).nextOffset = endOffset := by
  cases priced <;> rfl

@[simp] theorem add_seenOffset : (batch.add priced endOffset).seenOffset = batch.seenOffset := by
  cases priced <;> rfl

theorem add_count : (batch.add priced endOffset).rows.length +
    (batch.add priced endOffset).rejected = batch.rows.length + batch.rejected + 1 := by
  cases priced with
  | none => rfl
  | some row =>
    rw [add]
    dsimp only
    rw [List.length_append, List.length_singleton]
    omega

end Batch

/-- A chunk as its claim returned it: it is there, with the range it still has. -/
structure ClaimedIn (db : IngestionDb) (claimed : ChunkRow) : Prop where
  le : claimed.nextOffset ≤ claimed.endOffset
  row : ∃ row ∈ db.chunks.rows, row.chunk = claimed.chunk ∧ row.endOffset = claimed.endOffset

/-- The lines left follow the batch, which covers what was read since the checkpoint. -/
structure RunIn (db : IngestionDb) (run : ChunkRun) : Prop where
  claimed : ClaimedIn db run.claimed
  rowStart : run.batch.nextOffset = run.rowStart
  lines : Ascending run.rowStart run.lines run.claimed.endOffset
  seen : run.batch.seenOffset ≤ run.rowStart
  moves : run.batch.rows.length + run.batch.rejected ≠ 0 → run.batch.seenOffset < run.rowStart

/-- What an invocation knows of its chunk, wherever it is. -/
def PhaseIn (db : IngestionDb) : Phase → Prop
  | .finding claimed => ClaimedIn db claimed
  | .compiling claimed _ => ClaimedIn db claimed
  | .reading run => RunIn db run
  | .storing run _ => RunIn db run ∧ run.batch.rows.length + run.batch.rejected ≠ 0
  | .publishing run _ _ => RunIn db run
  | _ => True

/-- Every checkpoint is inside its chunk's range, and every invocation reads on from one. -/
structure Bounded (w : IngestionWorld) : Prop where
  chunks : ∀ row ∈ w.db.chunks.rows,
    row.startOffset ≤ row.nextOffset ∧ row.nextOffset ≤ row.endOffset
  phases : ∀ i, PhaseIn w.db (w.invocations i)

section
variable {c : ProcessChunkCommand} {run : ChunkRun} {w : IngestionWorld} {e : IngestionEvent}
  {db db' : IngestionDb}

theorem ClaimedIn.later (h : ClaimedIn db claimed) (hdb : KeepsRanges db db') :
    ClaimedIn db' claimed := by
  obtain ⟨row, hr, hk, he⟩ := h.row
  obtain ⟨row', hr', hk', _, he'⟩ := hdb row hr
  exact ⟨h.le, row', hr', hk'.trans hk, he'.trans he⟩

theorem RunIn.later (h : RunIn db run) (hdb : KeepsRanges db db') : RunIn db' run :=
  ⟨h.claimed.later hdb, h.rowStart, h.lines, h.seen, h.moves⟩

theorem PhaseIn.later (h : PhaseIn db phase) (hdb : KeepsRanges db db') :
    PhaseIn db' phase := by
  cases phase with
  | finding claimed => exact ClaimedIn.later h hdb
  | compiling claimed job => exact ClaimedIn.later h hdb
  | reading run => exact RunIn.later h hdb
  | storing run leftover => exact ⟨h.1.later hdb, h.2⟩
  | publishing run ids leftover => exact RunIn.later h hdb
  | _ => trivial

/-- A turn of the loop takes the next line into the batch. -/
theorem RunIn.read (h : RunIn db run) (c : ProcessChunkCommand) : PhaseIn db (c.read run) := by
  obtain ⟨claimed, calculator, lines, batch, rowStart, totals⟩ := run
  rw [ProcessChunkCommand.read]
  cases lines with
  | nil =>
    dsimp only
    split
    · trivial
    · rename_i hn
      rw [Batch.isEmpty, decide_eq_true_eq] at hn
      exact ⟨h, hn⟩
  | cons line lines =>
    obtain ⟨line, endOffset⟩ := line
    dsimp only
    split
    · trivial
    · rename_i priced _
      have hcount := batch.add_count priced endOffset
      have hlines := h.lines
      have hseen := h.seen
      dsimp only at hseen
      have hlt : rowStart < endOffset := hlines.1
      have hnext : RunIn db ⟨claimed, calculator, lines, batch.add priced endOffset, endOffset,
          totals⟩ := by
        refine ⟨h.claimed, ?_, hlines.2, ?_, ?_⟩
        · exact batch.add_nextOffset priced endOffset
        · dsimp only
          rw [Batch.add_seenOffset]
          omega
        · intro _
          dsimp only
          rw [Batch.add_seenOffset]
          omega
      split
      · exact hnext
      · refine ⟨hnext, ?_⟩
        dsimp only
        omega

theorem claimChunk_some (h : (db.claimChunk chunk leaseMs).2 = some claimed) :
    ∃ row ∈ db.chunks.rows, row.chunk = chunk ∧
      IngestionRepository.claimable db.now row ∧
      claimed = IngestionRepository.claimed db.now leaseMs row := by
  obtain ⟨row, hf, hg, rfl⟩ := Table.updated_eq_some.1 h
  exact ⟨row, Table.find_some_mem hf, Table.find_some_key hf, hg, rfl⟩

theorem phaseIn_of_not_working (h : phase.working = false) : PhaseIn db phase := by
  cases phase with
  | finding claimed => cases h
  | compiling claimed job => cases h
  | reading run => cases h
  | storing run leftover => cases h
  | publishing run ids leftover => cases h
  | _ => trivial

theorem ProcessChunkCommand.statement_commit {c : ProcessChunkCommand}
    (h : c.statement db phase = some (.commit chunk batch)) :
    ∃ run leftover, phase = .storing run leftover ∧ run.claimed.chunk = chunk ∧
      run.batch = batch ∧ ¬ UpsertRefused c.indexed db.products batch.rows := by
  cases phase with
  | storing run leftover =>
    rw [statement] at h
    split at h
    · cases h
    · rename_i hn
      cases h
      exact ⟨run, leftover, rfl, rfl, rfl, hn⟩
  | _ => cases h

/-- A batch is committed by an invocation that stores it, whether it learns of it or not. -/
theorem issued_commit (hs : w.issued c e = some (.commit chunk batch)) :
    ∃ i run leftover, w.invocations i = .storing run leftover ∧ run.claimed.chunk = chunk ∧
      run.batch = batch ∧ ¬ UpsertRefused c.indexed w.db.products batch.rows ∧
      (e = .step i ∨ (∃ reason, e = .fail i reason true) ∨ e = .kill i true) := by
  cases e with
  | step i =>
    obtain ⟨run, leftover, hi, hchunk, hbatch, hn⟩ := ProcessChunkCommand.statement_commit hs
    exact ⟨i, run, leftover, hi, hchunk, hbatch, hn, .inl rfl⟩
  | fail i reason applied =>
    cases applied with
    | false => cases hs
    | true =>
      obtain ⟨run, leftover, hi, hchunk, hbatch, hn⟩ := ProcessChunkCommand.statement_commit hs
      exact ⟨i, run, leftover, hi, hchunk, hbatch, hn, .inr (.inl ⟨reason, rfl⟩)⟩
  | kill i applied =>
    cases applied with
    | false => cases hs
    | true =>
      obtain ⟨run, leftover, hi, hchunk, hbatch, hn⟩ := ProcessChunkCommand.statement_commit hs
      exact ⟨i, run, leftover, hi, hchunk, hbatch, hn, .inr (.inr rfl)⟩
  | _ => cases hs

/-- A commit under way has rows, and moves the checkpoint on inside the chunk's range. -/
theorem Bounded.commit (h : Bounded w) (hs : w.issued c e = some (.commit chunk batch)) :
    batch.rows.length + batch.rejected ≠ 0 ∧ batch.seenOffset < batch.nextOffset ∧
      ∀ row ∈ w.db.chunks.rows, row.chunk = chunk → batch.nextOffset ≤ row.endOffset := by
  obtain ⟨i, run, leftover, hi, rfl, rfl, _⟩ := issued_commit hs
  have hp := h.phases i
  rw [hi] at hp
  obtain ⟨hrun, hcount⟩ := hp
  refine ⟨hcount, hrun.rowStart ▸ hrun.moves hcount, ?_⟩
  intro row hr hk
  obtain ⟨known, hknown, hkey, hend⟩ := hrun.claimed.row
  rw [w.db.chunks.eq_of_key hr hknown (hk.trans hkey.symm), hend, hrun.rowStart]
  exact hrun.lines.le

/-- Checkpoints stay inside their ranges and never move back. -/
theorem Bounded.chunk_step (h : Bounded w) (hr' : row' ∈ (w.step c e).db.chunks.rows) :
    ∃ row ∈ w.db.chunks.rows, row'.chunk = row.chunk ∧ row'.startOffset = row.startOffset ∧
      row'.endOffset = row.endOffset ∧ row.nextOffset ≤ row'.nextOffset ∧
      row'.nextOffset ≤ row'.endOffset := by
  rcases IngestionWorld.chunk_after hr' with hr | ⟨s, hs, row, hr, hm⟩
  · exact ⟨row', hr, rfl, rfl, rfl, Nat.le_refl _, (h.chunks row' hr).2⟩
  · refine ⟨row, hr, hm.chunk, hm.startOffset, hm.endOffset, ?_⟩
    have hb := (h.chunks row hr).2
    cases hm with
    | kept => exact ⟨Nat.le_refl _, hb⟩
    | claimed hg => exact ⟨Nat.le_refl _, hb⟩
    | checkpointed hn =>
      obtain ⟨_, hlt, hend⟩ := h.commit hs
      rw [← hn] at hlt
      exact ⟨Nat.le_of_lt hlt, hend row hr rfl⟩
    | released hg => exact ⟨Nat.le_refl _, hb⟩
    | failedOnce => exact ⟨Nat.le_refl _, hb⟩

theorem Bounded.step (h : Bounded w) (c : ProcessChunkCommand) (e : IngestionEvent) :
    Bounded (w.step c e) := by
  have hlater := IngestionWorld.keepsRanges c w e
  constructor
  · intro row' hr'
    obtain ⟨row, hr, _, hs, _, hn, hend⟩ := h.chunk_step hr'
    rw [hs]
    exact ⟨(h.chunks row hr).1.trans hn, hend⟩
  · apply IngestionWorld.phases_step
    · intro i
      exact (h.phases i).later hlater
    · intro phase hp
      exact phaseIn_of_not_working hp
    · intro chunk claimed hc
      obtain ⟨row, hr, _, _, rfl⟩ := claimChunk_some hc
      have hclaimed : ClaimedIn w.db (IngestionRepository.claimed w.db.now c.leaseMs row) :=
        ⟨(h.chunks row hr).2, row, hr, rfl, rfl⟩
      exact hclaimed.later hlater
    · intro i claimed hi
      have hp := h.phases i
      rw [hi] at hp
      exact ClaimedIn.later hp hlater
    · intro i claimed job calculator _ hi
      have hp := h.phases i
      rw [hi] at hp
      have hclaimed : ClaimedIn w.db claimed := hp
      refine ⟨hclaimed.later hlater, rfl, ?_, Nat.le_refl _, fun hn => absurd rfl hn⟩
      exact readRangeLines_ascending (c.files job.fileRef) hclaimed.le _
    · intro i run hi
      have hp := h.phases i
      rw [hi] at hp
      exact (RunIn.read hp c).later hlater
    · intro i run ids leftover hi
      have hp := h.phases i
      rw [hi] at hp
      exact hp.1.later hlater
    · intro i run ids hi
      have hp := h.phases i
      rw [hi] at hp
      have hrun : RunIn w.db run := hp
      exact ⟨hrun.claimed.later hlater, rfl, hrun.lines, Nat.le_refl _, fun hn => absurd rfl hn⟩

end

/-- The row `RegisterImportCommand` inserts for a byte range, other columns at their defaults. -/
def ChunkRow.registered (chunk : ChunkProcess) (startOffset endOffset : Nat) : ChunkRow where
  chunk := chunk
  startOffset := startOffset
  endOffset := endOffset
  nextOffset := startOffset
  leaseUntil := none
  attempts := 0
  failures := 0
  rowsProcessed := 0
  rowsRejected := 0
  status := .pending
  lastError := none

def JobRow.registered (id : Nat) (fileRef : Text) (updatedAt : Int) : JobRow where
  id := id
  fileRef := fileRef
  chunksDone := 0
  rowsProcessed := 0
  rowsRejected := 0
  status := .running
  lastError := none
  updatedAt := updatedAt

/-- Imports are registered, and no invocation has begun. -/
structure Registered (w : IngestionWorld) : Prop where
  chunks : ∀ row ∈ w.db.chunks.rows, row.startOffset < row.endOffset ∧
    row = .registered row.chunk row.startOffset row.endOffset
  jobs : ∀ job ∈ w.db.jobs.rows, job = .registered job.id job.fileRef job.updatedAt
  idle : ∀ i, w.invocations i = .idle
  log : w.db.log = []

theorem Registered.next (h : Registered w) (hr : row ∈ w.db.chunks.rows) :
    row.nextOffset = row.startOffset := by
  rw [(h.chunks row hr).2]
  rfl

theorem Registered.bounded (h : Registered w) : Bounded w := by
  constructor
  · intro row hr
    rw [h.next hr]
    exact ⟨Nat.le_refl _, Nat.le_of_lt (h.chunks row hr).1⟩
  · intro i
    rw [h.idle i]
    trivial

def headerLine : Text := "sku,name,category,vendor_price,stock_quantity".toList

/-- A file of two rows, the first of which starts at 46. -/
def scarfFile : List UInt8 :=
  Utf8.encode (headerLine ++ '\n' :: "SKU-1,Wool scarf,Accessories,799.90,1".toList ++
    '\n' :: "SKU-2,Wool hat,Accessories,199.90,3".toList ++ ['\n'])

/-- One import of one chunk, just registered. -/
def scarfImport : IngestionWorld where
  db :=
    { now := 0
      chunks := ⟨[.registered ⟨1, 0⟩ 46 120], List.nodup_singleton _⟩
      jobs := ⟨[.registered 1 "scarves.csv".toList 0], List.nodup_singleton _⟩
      products := .empty
      log := [] }
  invocations := fun _ => .idle
  published := []
  reenqueued := []

def scarfCommand : ProcessChunkCommand where
  batchSize := 1000
  leaseMs := 90000
  maxFailures := 3
  files := fun _ => scarfFile
  indexed := uncompressed

theorem scarfImport_registered : Registered scarfImport := by
  constructor
  · intro row hr
    rw [List.mem_singleton.1 hr]
    exact ⟨by decide, rfl⟩
  · intro job hj
    rw [List.mem_singleton.1 hj]
    rfl
  · intro i
    rfl
  · rfl

/-- An attempt whose first statement throws, with the failure it records. -/
def scarfFailure : List IngestionEvent :=
  [.deliver 0 ⟨1, 0⟩, .fail 0 "connection terminated".toList false, .step 0, .step 0]

/-- An attempt up to the announcement of its only batch. -/
def scarfAttempt : List IngestionEvent :=
  [.deliver 0 ⟨1, 0⟩, .step 0, .step 0, .compiled 0 commissionCalculator, .step 0, .step 0,
    .step 0, .step 0, .published 0 true false]

/-- What is left of an attempt whose last statements throw. -/
def scarfLateFailure : List IngestionEvent :=
  [.fail 0 "connection terminated".toList false, .step 0, .step 0, .step 0]

end PromotionManagement
