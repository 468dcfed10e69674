import PromotionManagement.BatchPlan
import PromotionManagement.Library.Run

namespace PromotionManagement
open Library
set_option autoImplicit true

/-- The batches of a chunk that have committed. -/
def committedTo (chunk : ChunkProcess) (log : List IngestionLog) : List Batch :=
  log.filterMap fun
    | .committed chunk' batch _ => if chunk' = chunk then some batch else none
    | .refreshed _ => none

def Batch.span (batch : Batch) : Nat × Nat := (batch.seenOffset, batch.nextOffset)

/-- The row that starts at the offset is in the batch. -/
def Batch.covers (offset : Nat) (batch : Batch) : Bool :=
  batch.seenOffset ≤ offset && offset < batch.nextOffset

section
variable (c : ProcessChunkCommand) (calculator : BasePriceCalculator) (file : List UInt8)
  (origin : ChunkRow)

abbrev ChunkRow.sources (file : List UInt8) (origin : ChunkRow) : List (Nat × Text) :=
  fileRows file origin.startOffset origin.endOffset

/-- The offset is a checkpoint the chunk may have. -/
def Checkpoint (offset : Nat) : Prop :=
  RowStart file origin.startOffset origin.endOffset offset

/-- The batches left to commit from a checkpoint on. -/
def planned (offset : Nat) : List Batch :=
  planAt c calculator origin.chunk.jobId file offset origin.endOffset

/-- The chunk's row and the batches committed to it account for the same rows. -/
structure RowAccounts (row : ChunkRow) (committed : List Batch) : Prop where
  startOffset : row.startOffset = origin.startOffset
  endOffset : row.endOffset = origin.endOffset
  checkpoint : Checkpoint file origin row.nextOffset
  tiles : Tiles origin.startOffset (committed.map Batch.span) row.nextOffset
  plan : planned c calculator file origin origin.startOffset =
    committed ++ planned c calculator file origin row.nextOffset
  holds : ∀ b ∈ committed, b.Holds calculator origin.chunk.jobId (origin.sources file)
  stored : ∀ b ∈ committed, ∀ u ∈ Products.distinctSkus b.rows, InColumns u
  processed : row.rowsProcessed = (committed.map IngestionDb.storedBy).sum
  rejected : row.rowsRejected =
    (rowsBetween (origin.sources file) origin.startOffset row.nextOffset).countP
      (rejects calculator origin.chunk.jobId)

/-- The lines an invocation has left are those of the range from where it is. -/
structure RunAccounts (run : ChunkRun) : Prop where
  rules : run.calculator = calculator
  checkpoint : Checkpoint file origin run.rowStart
  lines : run.lines = rowsOf file run.rowStart origin.endOffset
  holds : run.batch.Holds calculator origin.chunk.jobId (origin.sources file)

/-- What an invocation on the chunk goes by. -/
def PhaseAccounts : Phase → Prop
  | .finding claimed => claimed.chunk = origin.chunk →
    claimed.endOffset = origin.endOffset ∧ Checkpoint file origin claimed.nextOffset
  | .compiling claimed job => claimed.chunk = origin.chunk →
    (claimed.endOffset = origin.endOffset ∧ Checkpoint file origin claimed.nextOffset) ∧
      ∀ found ∈ job, c.files found.fileRef = file
  | .reading run => run.claimed.chunk = origin.chunk → RunAccounts calculator file origin run ∧
    planned c calculator file origin run.batch.seenOffset =
      planFrom c calculator origin.chunk.jobId run.batch run.lines
  | .storing run _ => run.claimed.chunk = origin.chunk → RunAccounts calculator file origin run ∧
    planned c calculator file origin run.batch.seenOffset =
      run.batch :: planned c calculator file origin run.rowStart
  | .publishing run _ _ =>
    run.claimed.chunk = origin.chunk → RunAccounts calculator file origin run
  | _ => True

/-- Every row of the chunk up to its checkpoint is accounted for, once. -/
structure Accounts (w : IngestionWorld) : Prop where
  row : ∃ row ∈ w.db.chunks.rows, row.chunk = origin.chunk ∧
    RowAccounts c calculator file origin row (committedTo origin.chunk w.db.log)
  jobs : ∀ job ∈ w.db.jobs.rows, job.id = origin.chunk.jobId → c.files job.fileRef = file
  phases : ∀ i, PhaseAccounts c calculator file origin (w.invocations i)

end

section
variable {c : ProcessChunkCommand} {calculator : BasePriceCalculator} {file : List UInt8}
  {origin row row' : ChunkRow} {run : ChunkRun} {w : IngestionWorld} {e : IngestionEvent}
  {db : IngestionDb}

/-- A turn of the loop takes the line at its checkpoint into the batch, as planned. -/
theorem PhaseAccounts.read (h : PhaseAccounts c calculator file origin (.reading run))
    (hrun : RunIn db run) : PhaseAccounts c calculator file origin (c.read run) := by
  have hseen := hrun.seen
  have hrow := hrun.rowStart
  obtain ⟨claimed, calculator', lines, batch, rowStart, totals⟩ := run
  dsimp only at hseen hrow
  subst hrow
  rw [ProcessChunkCommand.read]
  cases lines with
  | nil =>
    dsimp only
    split
    · trivial
    · rename_i hn
      intro hk
      obtain ⟨hrun, hplan⟩ := h hk
      refine ⟨hrun, ?_⟩
      rw [hplan, planFrom, if_neg hn, planned, planAt, ← hrun.lines]
      rfl
  | cons l lines =>
    obtain ⟨line, endOffset⟩ := l
    dsimp only
    cases hp : price calculator' line claimed.chunk.jobId batch.nextOffset with
    | error reason => trivial
    | ok priced =>
      have hnext (hk : claimed.chunk = origin.chunk) :
          RunAccounts calculator file origin
              ⟨claimed, calculator', lines, batch.add priced endOffset, endOffset, totals⟩ ∧
            planned c calculator file origin batch.seenOffset =
              if (batch.add priced endOffset).rows.length +
                  (batch.add priced endOffset).rejected < c.batchSize then
                planFrom c calculator origin.chunk.jobId (batch.add priced endOffset) lines
              else batch.add priced endOffset :: planned c calculator file origin endOffset := by
        obtain ⟨⟨hrules, hcheck, hlines, hholds⟩, hplan⟩ := h hk
        dsimp only at hrules hcheck hlines hholds hplan
        subst hrules
        obtain ⟨hcheck', hlines', hlt⟩ := hcheck.next hlines.symm
        rw [hk] at hp
        refine ⟨⟨rfl, hcheck', hlines'.symm, ?_⟩, ?_⟩
        · apply hholds.add hp
          rw [hcheck.append hseen (Nat.le_of_lt hlt), hcheck.single hlines.symm]
        · rw [hplan, planFrom, hp, planned, planAt, hlines']
      dsimp only
      split
      · rename_i hlt
        intro hk
        obtain ⟨hrun, hplan⟩ := hnext hk
        rw [if_pos hlt] at hplan
        refine ⟨hrun, ?_⟩
        rw [Batch.add_seenOffset]
        exact hplan
      · rename_i hge
        intro hk
        obtain ⟨hrun, hplan⟩ := hnext hk
        rw [if_neg hge] at hplan
        refine ⟨hrun, ?_⟩
        rw [Batch.add_seenOffset]
        exact hplan

/-- The row of the chunk is the one the accounts are about. -/
theorem Accounts.row_of (h : Accounts c calculator file origin w) (hr : row ∈ w.db.chunks.rows)
    (hk : row.chunk = origin.chunk) :
    RowAccounts c calculator file origin row (committedTo origin.chunk w.db.log) := by
  obtain ⟨row₀, hr₀, hk₀, ha⟩ := h.row
  rw [w.db.chunks.eq_of_key hr hr₀ (hk.trans hk₀.symm)]
  exact ha

theorem phaseAccounts_of_not_working (h : phase.working = false) :
    PhaseAccounts c calculator file origin phase := by
  cases phase with
  | finding claimed => cases h
  | compiling claimed job => cases h
  | reading run => cases h
  | storing run leftover => cases h
  | publishing run ids leftover => cases h
  | _ => trivial

/-- The reader is opened at the checkpoint of the claim. -/
theorem PhaseAccounts.compiled (h : PhaseAccounts c calculator file origin
    (.compiling claimed (some job))) : PhaseAccounts c calculator file origin
      (c.compiled calculator (.compiling claimed (some job))) := by
  intro hk
  obtain ⟨⟨hend, hcheck⟩, hfile⟩ := h hk
  have hlines : readRangeLines (c.files job.fileRef) claimed.nextOffset claimed.endOffset =
      rowsOf file claimed.nextOffset origin.endOffset := by
    rw [hfile job rfl, hend]
    exact hcheck.readable.readRangeLines_eq _
  refine ⟨⟨rfl, hcheck, hlines, Batch.holds_empty _ _ _ _⟩, ?_⟩
  dsimp only
  rw [hlines]
  rfl

/-- The next batch begins where the announced one ends. -/
theorem PhaseAccounts.next
    (h : PhaseAccounts c calculator file origin (.publishing run ids leftover)) :
    PhaseAccounts c calculator file origin
      (.reading { ProcessChunkCommand.commitInto run stored with
        batch := ProcessChunkCommand.emptyBatch run.rowStart }) := by
  intro hk
  obtain ⟨hrules, hcheck, hlines, _⟩ := h hk
  refine ⟨⟨hrules, hcheck, hlines, Batch.holds_empty _ _ _ _⟩, ?_⟩
  have hl : (ProcessChunkCommand.commitInto run stored).lines =
      rowsOf file run.rowStart origin.endOffset := hlines
  dsimp only
  rw [hl]
  rfl

theorem committedTo_snoc (chunk : ChunkProcess) (log : List IngestionLog) (entry : IngestionLog) :
    committedTo chunk (log ++ [entry]) = committedTo chunk log ++ committedTo chunk [entry] :=
  List.filterMap_append

/-- A statement other than a commit of the chunk leaves what has committed to it. -/
theorem committedTo_execute (h : ∀ batch, s ≠ .commit chunk batch) :
    committedTo chunk (db.execute s).log = committedTo chunk db.log := by
  cases s with
  | commit chunk' batch =>
    have hne : chunk' ≠ chunk := by
      rintro rfl
      exact h batch rfl
    change committedTo chunk (db.commit chunk' batch).1.log = _
    cases hu : db.chunks.updated chunk' (IngestionDb.seen batch)
        (IngestionRepository.checkpointed batch (IngestionDb.storedBy batch)) with
    | none => rw [(IngestionDb.commit_refused hu).2.2.2]
    | some row =>
      rw [(IngestionDb.commit_moved hu).2.2.2, committedTo_snoc]
      have hnone :
          committedTo chunk [.committed chunk' batch (IngestionDb.storedBy batch)] = [] := by
        rw [committedTo, List.filterMap_cons_none]
        · rfl
        · exact if_neg hne
      rw [hnone, List.append_nil]
  | refreshJobProgress jobId =>
    change committedTo chunk (db.log ++ [.refreshed jobId]) = _
    rw [committedTo_snoc]
    exact List.append_nil _
  | _ => rfl

/-- Every move of a chunk but a checkpoint leaves its offset and its counters. -/
theorem ChunkMove.counters (hm : ChunkMove now s row row')
    (h : ∀ batch, s ≠ .commit row.chunk batch) : row'.nextOffset = row.nextOffset ∧
      row'.rowsProcessed = row.rowsProcessed ∧ row'.rowsRejected = row.rowsRejected := by
  cases hm with
  | kept => exact ⟨rfl, rfl, rfl⟩
  | claimed _ => exact ⟨rfl, rfl, rfl⟩
  | checkpointed _ => exact absurd rfl (h _)
  | released _ => exact ⟨rfl, rfl, rfl⟩
  | failedOnce => exact ⟨rfl, rfl, rfl⟩

/-- The next batch of the plan commits: the rows it covers are accounted for. -/
theorem RowAccounts.commit (h : RowAccounts c calculator file origin row committed)
    (hseen : row.nextOffset = batch.seenOffset) (hlt : batch.seenOffset < batch.nextOffset)
    (hcheck : Checkpoint file origin batch.nextOffset)
    (hholds : batch.Holds calculator origin.chunk.jobId (origin.sources file))
    (hstored : ∀ u ∈ Products.distinctSkus batch.rows, InColumns u)
    (hplan : planned c calculator file origin batch.seenOffset =
      batch :: planned c calculator file origin batch.nextOffset) :
    RowAccounts c calculator file origin
      (IngestionRepository.checkpointed batch (IngestionDb.storedBy batch) row)
      (committed ++ [batch]) := by
  constructor
  · exact h.startOffset
  · exact h.endOffset
  · exact hcheck
  · have htiles := h.tiles
    rw [hseen] at htiles
    rw [List.map_append, List.map_singleton]
    exact htiles.snoc hlt
  · have hp := h.plan
    rw [hseen, hplan] at hp
    rw [hp, List.append_assoc]
    rfl
  · intro b hb
    rcases List.mem_append.1 hb with hb | hb
    · exact h.holds b hb
    · rw [List.mem_singleton.1 hb]
      exact hholds
  · intro b hb
    rcases List.mem_append.1 hb with hb | hb
    · exact h.stored b hb
    · rw [List.mem_singleton.1 hb]
      exact hstored
  · rw [List.map_append, List.sum_append, List.map_singleton, List.sum_singleton, ← h.processed]
    rfl
  · have hold := h.checkpoint
    rw [hseen] at hold
    have hstart : origin.startOffset ≤ batch.seenOffset := by
      rw [← hseen]
      exact h.tiles.le
    change row.rowsRejected + batch.rejected = (rowsBetween _ _ batch.nextOffset).countP _
    rw [hold.append hstart (Nat.le_of_lt hlt), List.countP_append, h.rejected, hseen, hholds.2]

/-- A batch of the chunk commits over the checkpoint it has seen, or changes nothing. -/
theorem Accounts.commit_row (h : Accounts c calculator file origin w) (hb : Bounded w)
    (hr : row ∈ w.db.chunks.rows) (hk : row.chunk = origin.chunk)
    (hs : w.issued c e = some (.commit row.chunk batch)) :
    ∃ row' ∈ (w.db.execute (.commit row.chunk batch)).chunks.rows, row'.chunk = origin.chunk ∧
      RowAccounts c calculator file origin row'
        (committedTo origin.chunk (w.db.execute (.commit row.chunk batch)).log) := by
  have ha := h.row_of hr hk
  by_cases hseen : row.nextOffset = batch.seenOffset
  · have hlog := (IngestionDb.commit_seen hr hseen).2
    obtain ⟨_, hlt, _⟩ := hb.commit hs
    obtain ⟨i, run, leftover, hi, hchunk, rfl, hrefused, _⟩ := issued_commit hs
    have hphase := h.phases i
    have hin := hb.phases i
    rw [hi] at hphase hin
    obtain ⟨⟨_, hcheck, _, hholds⟩, hplan⟩ := hphase (hchunk.trans hk)
    rw [← hin.1.rowStart] at hcheck hplan
    have hwritten : IngestionRepository.checkpointed run.batch (IngestionDb.storedBy run.batch)
        row ∈ (w.db.execute (.commit row.chunk run.batch)).chunks.rows :=
      IngestionDb.chunk_written rfl hr (decide_eq_true hseen)
    refine ⟨_, hwritten, hk, ?_⟩
    change RowAccounts _ _ _ _ _ (committedTo _ (w.db.commit row.chunk run.batch).1.log)
    have hself : committedTo origin.chunk
        [.committed row.chunk run.batch (IngestionDb.storedBy run.batch)] = [run.batch] := by
      rw [committedTo, List.filterMap_cons_some]
      · rfl
      · exact if_pos hk
    rw [hlog, committedTo_snoc, hself]
    exact ha.commit hseen hlt hcheck hholds (fun _ => inColumns_of_not_refused hrefused) hplan
  · obtain ⟨hchunks, hlog⟩ := IngestionDb.commit_unseen hr hseen
    have hr' : row ∈ (w.db.execute (.commit row.chunk batch)).chunks.rows := by
      change row ∈ (w.db.commit row.chunk batch).1.chunks.rows
      rw [hchunks]
      exact hr
    refine ⟨row, hr', hk, ?_⟩
    change RowAccounts _ _ _ _ _ (committedTo _ (w.db.commit row.chunk batch).1.log)
    rw [hlog]
    exact ha

theorem RowAccounts.kept (h : RowAccounts c calculator file origin row committed)
    (hm : ChunkMove now s row row') (hs : ∀ batch, s ≠ .commit row.chunk batch) :
    RowAccounts c calculator file origin row' committed := by
  obtain ⟨hn, hp, hrej⟩ := hm.counters hs
  constructor
  · exact hm.startOffset.trans h.startOffset
  · exact hm.endOffset.trans h.endOffset
  · rw [hn]
    exact h.checkpoint
  · rw [hn]
    exact h.tiles
  · rw [hn]
    exact h.plan
  · exact h.holds
  · exact h.stored
  · rw [hp]
    exact h.processed
  · rw [hn, hrej]
    exact h.rejected

theorem Accounts.step_row (h : Accounts c calculator file origin w) (hb : Bounded w)
    (hs : w.issued c e = some s) : ∃ row ∈ (w.db.execute s).chunks.rows,
      row.chunk = origin.chunk ∧ RowAccounts c calculator file origin row
        (committedTo origin.chunk (w.db.execute s).log) := by
  obtain ⟨row, hr, hk, ha⟩ := h.row
  by_cases hcommit : ∃ batch, s = .commit row.chunk batch
  · obtain ⟨batch, rfl⟩ := hcommit
    exact h.commit_row hb hr hk hs
  · have hne (batch : Batch) : s ≠ .commit row.chunk batch := fun he => hcommit ⟨batch, he⟩
    obtain ⟨row', hr', hm⟩ := IngestionDb.chunk_before s hr
    refine ⟨row', hr', hm.chunk.trans hk, ?_⟩
    rw [committedTo_execute (hk ▸ hne)]
    exact ha.kept hm hne

theorem Accounts.step (h : Accounts c calculator file origin w) (hb : Bounded w)
    (hrules : ∀ i calculator', e = .compiled i calculator' → calculator' = calculator) :
    Accounts c calculator file origin (w.step c e) := by
  constructor
  · cases hs : w.issued c e with
    | none =>
      rw [IngestionWorld.stored_of_none hs]
      exact h.row
    | some s =>
      rw [IngestionWorld.stored_of_issued hs]
      exact h.step_row hb hs
  · intro job' hj' hid
    rcases IngestionWorld.job_after hj' with hj | ⟨s, _, job, hj, hm⟩
    · exact h.jobs job' hj hid
    · rw [hm.fileRef]
      exact h.jobs job hj (hm.id.symm.trans hid)
  · apply IngestionWorld.phases_step
    · exact h.phases
    · intro phase hp
      exact phaseAccounts_of_not_working hp
    · intro chunk claimed hc hk
      obtain ⟨row, hr, _, _, rfl⟩ := claimChunk_some hc
      have ha := h.row_of hr hk
      exact ⟨ha.endOffset, ha.checkpoint⟩
    · intro i claimed hi hk
      have hp := h.phases i
      rw [hi] at hp
      refine ⟨hp hk, ?_⟩
      intro found hf
      have hid : found.id = claimed.chunk.jobId := Table.find_some_key hf
      exact h.jobs found (Table.find_some_mem hf) (hid.trans (congrArg ChunkProcess.jobId hk))
    · intro i claimed job calculator' he hi
      have hp := h.phases i
      rw [hi] at hp
      rw [hrules i calculator' he]
      exact hp.compiled
    · intro i run hi
      have hp := h.phases i
      have hin := hb.phases i
      rw [hi] at hp hin
      exact hp.read hin
    · intro i run ids leftover hi hk
      have hp := h.phases i
      rw [hi] at hp
      exact (hp hk).1
    · intro i run ids hi
      have hp := h.phases i
      rw [hi] at hp
      exact hp.next

theorem Registered.accounts (h : Registered w) (horigin : origin ∈ w.db.chunks.rows)
    (hfile : ∀ job ∈ w.db.jobs.rows, job.id = origin.chunk.jobId → c.files job.fileRef = file)
    (hreadable : Readable file origin.startOffset origin.endOffset) :
    Accounts c calculator file origin w := by
  have hlt := (h.chunks origin horigin).1
  have hnext := h.next horigin
  have hzero : origin.rowsProcessed = 0 ∧ origin.rowsRejected = 0 := by
    rw [(h.chunks origin horigin).2]
    exact ⟨rfl, rfl⟩
  have hlog : committedTo origin.chunk w.db.log = [] := by
    rw [h.log]
    rfl
  have hnone : rowsBetween (origin.sources file) origin.startOffset origin.startOffset = [] := by
    apply List.filter_eq_nil_iff.2
    intro r _ hr
    rw [Bool.and_eq_true, decide_eq_true_eq, decide_eq_true_eq] at hr
    omega
  constructor
  · refine ⟨origin, horigin, rfl, ?_⟩
    rw [hlog]
    constructor
    · rfl
    · rfl
    · rw [hnext]
      exact hreadable.rowStart (Nat.le_of_lt hlt)
    · exact hnext.symm
    · rw [hnext]
      rfl
    · intro b hb
      cases hb
    · intro b hb
      cases hb
    · exact hzero.1
    · rw [hnext, hnone]
      exact hzero.2
  · exact hfile
  · intro i
    rw [h.idle i]
    trivial

/-- At the end of the range the committed batches are all that was planned. -/
theorem RowAccounts.at_end (h : RowAccounts c calculator file origin row committed)
    (hend : row.nextOffset = row.endOffset) :
    planned c calculator file origin origin.startOffset = committed := by
  have hplan := h.plan
  have hnone : planned c calculator file origin origin.endOffset = [] := by
    have hbytes : byteRange file origin.endOffset origin.endOffset = [] := by
      apply List.drop_eq_nil_of_le
      rw [List.length_take]
      exact Nat.min_le_left _ _
    rw [planned, planAt, rowsOf, hbytes]
    rfl
  rw [hend, h.endOffset, hnone, List.append_nil] at hplan
  exact hplan

/-- At the end of the range the counters do not depend on the run. -/
theorem RowAccounts.counters_at_end (h : RowAccounts c calculator file origin row committed)
    (h' : RowAccounts c calculator file origin row' committed')
    (hend : row.nextOffset = row.endOffset) (hend' : row'.nextOffset = row'.endOffset) :
    row'.rowsProcessed = row.rowsProcessed ∧ row'.rowsRejected = row.rowsRejected := by
  have hcommitted := (h'.at_end hend').symm.trans (h.at_end hend)
  have hnext : row'.nextOffset = row.nextOffset := by
    rw [hend', hend, h'.endOffset, h.endOffset]
  constructor
  · rw [h'.processed, h.processed, hcommitted]
  · rw [h'.rejected, h.rejected, hnext]

end

/-- Every row before the checkpoint is in one batch and no other row is in any, each batch holds
what it covers, and the rejected rows are counted. -/
structure ExactlyOnce (calculator : BasePriceCalculator) (file : List UInt8)
    (log : List IngestionLog) (row : ChunkRow) : Prop where
  low : row.startOffset ≤ row.nextOffset
  high : row.nextOffset ≤ row.endOffset
  rowStart : row.nextOffset = row.endOffset ∨ ∃ line, (row.nextOffset, line) ∈ row.sources file
  once : ∀ r ∈ row.sources file, (committedTo row.chunk log).countP (Batch.covers r.1) =
    if r.1 < row.nextOffset then 1 else 0
  holds : ∀ b ∈ committedTo row.chunk log,
    b.Holds calculator row.chunk.jobId (row.sources file)
  rejected : row.rowsRejected =
    (rowsBetween (row.sources file) row.startOffset row.nextOffset).countP
      (rejects calculator row.chunk.jobId)

theorem RowAccounts.exactlyOnce (hk : row.chunk = origin.chunk)
    (h : RowAccounts c calculator file origin row (committedTo origin.chunk log))
    (hreadable : Readable file origin.startOffset origin.endOffset)
    (hle : origin.startOffset ≤ origin.endOffset) : ExactlyOnce calculator file log row := by
  have hsources : row.sources file = origin.sources file := by
    rw [ChunkRow.sources, ChunkRow.sources, h.startOffset, h.endOffset]
  constructor
  · rw [h.startOffset]
    exact h.tiles.le
  · rw [h.endOffset]
    exact h.checkpoint.le
  · rw [hsources, h.endOffset]
    exact h.checkpoint.at_end
  · intro r hr
    rw [hsources] at hr
    have hstart := hreadable.le_of_mem hle hr
    have hcount := h.tiles.countP_eq r.1
    rw [List.countP_map] at hcount
    rw [hk]
    refine hcount.trans (if_congr ?_ rfl rfl)
    exact and_iff_right hstart
  · intro b hb
    rw [hk] at hb ⊢
    rw [hsources]
    exact h.holds b hb
  · rw [hsources, hk, h.startOffset]
    exact h.rejected

end PromotionManagement
