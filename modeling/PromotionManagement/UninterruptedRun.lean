import PromotionManagement.RowAccounting

namespace PromotionManagement
open Library
set_option autoImplicit true

/-- What happens to an invocation that nothing interrupts and no budget stops. -/
def Uninterrupted (calculator : BasePriceCalculator) (e : IngestionEvent) : Prop :=
  e = .step 0 ∨ e = .compiled 0 calculator ∨ e = .published 0 true false

section
variable {c : ProcessChunkCommand} {calculator : BasePriceCalculator} {file : List UInt8}
  {origin row row' : ChunkRow} {r r' : ChunkRun} {w : IngestionWorld} {e : IngestionEvent}

/-- From a state, an uninterrupted invocation takes the chunk to its end. -/
def Ends (c : ProcessChunkCommand) (calculator : BasePriceCalculator) (origin : ChunkRow)
    (w : IngestionWorld) : Prop :=
  ∃ es, (∀ e ∈ es, Uninterrupted calculator e) ∧
    ∃ row ∈ (run (IngestionWorld.step c) w es).db.chunks.rows,
      row.chunk = origin.chunk ∧ row.nextOffset = origin.endOffset

theorem Ends.of_step (h : Ends c calculator origin (w.step c e)) (he : Uninterrupted calculator e) :
    Ends c calculator origin w := by
  obtain ⟨es, hes, hrow⟩ := h
  exact ⟨e :: es, List.forall_mem_cons.2 ⟨he, hes⟩, hrow⟩

theorem Ends.of_row (hr : row ∈ w.db.chunks.rows) (hk : row.chunk = origin.chunk)
    (hn : row.nextOffset = origin.endOffset) : Ends c calculator origin w :=
  ⟨[], fun _ he => absurd he List.not_mem_nil, row, hr, hk, hn⟩

theorem invocation_step (c : ProcessChunkCommand) (w : IngestionWorld) :
    (w.step c (.step 0)).invocations 0 = c.resume w.db (w.invocations 0) :=
  IngestionWorld.step_moved rfl

theorem invocation_compiled (c : ProcessChunkCommand) (w : IngestionWorld)
    (calculator : BasePriceCalculator) :
    (w.step c (.compiled 0 calculator)).invocations 0 = c.compiled calculator (w.invocations 0) :=
  IngestionWorld.step_moved rfl

theorem invocation_published (c : ProcessChunkCommand) (w : IngestionWorld) :
    (w.step c (.published 0 true false)).invocations 0 =
      ProcessChunkCommand.published false (w.invocations 0) :=
  IngestionWorld.step_moved rfl

theorem Accounts.uninterrupted (h : Accounts c calculator file origin w) (hb : Bounded w)
    (he : Uninterrupted calculator e) : Accounts c calculator file origin (w.step c e) := by
  apply h.step hb
  rintro i calculator' rfl
  rcases he with he | he | he
  · cases he
  · cases he
    rfl
  · cases he

/-- The batch under way commits, if it can be stored. -/
theorem commit_step (hphase : w.invocations 0 = .storing r leftover)
    (hr : row ∈ w.db.chunks.rows) (hk : row.chunk = r.claimed.chunk)
    (hn : row.nextOffset = r.batch.seenOffset)
    (hs : ¬ UpsertRefused c.indexed w.db.products r.batch.rows) :
    (∃ row' ∈ (w.step c (.step 0)).db.chunks.rows, row'.chunk = row.chunk ∧
        row'.nextOffset = r.batch.nextOffset) ∧
      ∃ ids, (w.step c (.step 0)).invocations 0 = .publishing r ids leftover := by
  have hissued : w.issued c (.step 0) = some (.commit row.chunk r.batch) := by
    rw [IngestionWorld.issued, hphase, ProcessChunkCommand.statement, if_neg hs, hk]
  constructor
  · rw [IngestionWorld.stored_of_issued hissued]
    refine ⟨IngestionRepository.checkpointed r.batch (IngestionDb.storedBy r.batch) row, ?_,
      rfl, rfl⟩
    exact IngestionDb.chunk_written rfl hr (decide_eq_true hn)
  · rw [invocation_step, hphase, ProcessChunkCommand.resume, if_neg hs, ← hk]
    have hupdated : w.db.chunks.updated row.chunk (IngestionDb.seen r.batch)
        (IngestionRepository.checkpointed r.batch (IngestionDb.storedBy r.batch)) =
          some (IngestionRepository.checkpointed r.batch (IngestionDb.storedBy r.batch) row) := by
      apply Table.updated_eq_some.2
      exact ⟨row, w.db.chunks.find_of_mem hr, decide_eq_true hn, rfl⟩
    rw [(IngestionDb.commit_moved hupdated).1]
    exact ⟨_, rfl⟩

/-- A turn that issues no statement leaves the chunks alone. -/
theorem chunks_of_quiet (hphase : w.invocations 0 = phase)
    (hquiet : c.statement w.db phase = none) : (w.step c (.step 0)).db.chunks = w.db.chunks := by
  have hissued : w.issued c (.step 0) = none := by
    rw [IngestionWorld.issued, hphase]
    exact hquiet
  rw [IngestionWorld.stored_of_none hissued]

/-- A turn of the loop leaves the database alone. -/
theorem reading_step (hphase : w.invocations 0 = .reading r) :
    (w.step c (.step 0)).db.chunks = w.db.chunks ∧
      (w.step c (.step 0)).invocations 0 = c.read r := by
  constructor
  · exact chunks_of_quiet hphase rfl
  · rw [invocation_step, hphase]
    rfl

theorem published_chunks (c : ProcessChunkCommand) (w : IngestionWorld) :
    (w.step c (.published 0 true false)).db.chunks = w.db.chunks := by
  rw [IngestionWorld.stored_of_none rfl]

/-- While lines are left, the batch has not reached the end of the range. -/
theorem Accounts.before_end (h : Accounts c calculator file origin w) (hb : Bounded w)
    (hphase : w.invocations 0 = .reading r) (hk : r.claimed.chunk = origin.chunk)
    (hlines : r.lines = l :: lines) : r.batch.seenOffset < origin.endOffset := by
  have hin := hb.phases 0
  rw [hphase] at hin
  have hrun : RunIn w.db r := hin
  obtain ⟨row, hr, hkey, hend⟩ := hrun.claimed.row
  have hrow := h.row_of hr (hkey.trans hk)
  have hasc := hrun.lines
  rw [hlines, ← hend, hrow.endOffset] at hasc
  exact Nat.lt_of_le_of_lt hrun.seen (Nat.lt_of_lt_of_le hasc.1 hasc.2.le)

/-- The holder's batch starts at the checkpoint, and what is planned from there can be stored and
takes the chunk to its end. -/
structure OnTrack (c : ProcessChunkCommand) (calculator : BasePriceCalculator)
    (file : List UInt8) (origin : ChunkRow) (w : IngestionWorld) (r : ChunkRun) (row : ChunkRow) :
    Prop where
  accounts : Accounts c calculator file origin w
  bounded : Bounded w
  claimed : r.claimed.chunk = origin.chunk
  mem : row ∈ w.db.chunks.rows
  key : row.chunk = origin.chunk
  checkpoint : row.nextOffset = r.batch.seenOffset
  storable : ∀ b ∈ planned c calculator file origin r.batch.seenOffset,
    ∀ u ∈ Products.distinctSkus b.rows, Storable c.indexed u
  tiles : Tiles r.batch.seenOffset
    ((planned c calculator file origin r.batch.seenOffset).map Batch.span) origin.endOffset

namespace OnTrack

variable {l : RangeLine} {lines : List RangeLine}

theorem reads (h : OnTrack c calculator file origin w r row)
    (hphase : w.invocations 0 = .reading r) : RunIn w.db r ∧ RunAccounts calculator file origin r ∧
      planned c calculator file origin r.batch.seenOffset =
        planFrom c calculator origin.chunk.jobId r.batch r.lines := by
  have hin := h.bounded.phases 0
  have hp := h.accounts.phases 0
  rw [hphase] at hin hp
  exact ⟨hin, hp h.claimed⟩

/-- What moves neither the chunk nor its holder's checkpoint leaves it on track. -/
theorem turn (h : OnTrack c calculator file origin w r row) (he : Uninterrupted calculator e)
    (hchunks : (w.step c e).db.chunks = w.db.chunks) (hclaimed : r'.claimed = r.claimed)
    (hseen : r'.batch.seenOffset = r.batch.seenOffset) :
    OnTrack c calculator file origin (w.step c e) r' row where
  accounts := h.accounts.uninterrupted h.bounded he
  bounded := h.bounded.step c e
  claimed := by
    rw [hclaimed]
    exact h.claimed
  mem := by
    rw [hchunks]
    exact h.mem
  key := h.key
  checkpoint := h.checkpoint.trans hseen.symm
  storable := by
    rw [hseen]
    exact h.storable
  tiles := by
    rw [hseen]
    exact h.tiles

/-- The batch under way commits and is announced, and the holder goes on from the new
checkpoint. -/
theorem commit (h : OnTrack c calculator file origin w r row)
    (hphase : w.invocations 0 = .storing r leftover) :
    ∃ ids row', (w.step c (.step 0)).invocations 0 = .publishing r ids leftover ∧
      OnTrack c calculator file origin
        ((w.step c (.step 0)).step c (.published 0 true false))
        { ProcessChunkCommand.commitInto r ids.length with
          batch := ProcessChunkCommand.emptyBatch r.rowStart } row' := by
  have hin := h.bounded.phases 0
  have hp := h.accounts.phases 0
  rw [hphase] at hin hp
  obtain ⟨_, hplan⟩ := hp h.claimed
  have hrow : r.batch.nextOffset = r.rowStart := hin.1.rowStart
  have hs := h.storable
  have ht := h.tiles
  rw [hplan] at hs ht
  rw [List.forall_mem_cons] at hs
  obtain ⟨⟨row', hr', hk', hn'⟩, ids, hpublishing⟩ := commit_step (c := c) hphase h.mem
    (h.key.trans h.claimed.symm) h.checkpoint (not_refused_of_storable hs.1 _)
  rw [← published_chunks c] at hr'
  have ha := h.accounts.uninterrupted (e := .step 0) h.bounded (.inl rfl)
  have hb := h.bounded.step c (.step 0)
  refine ⟨ids, row', hpublishing, ?_⟩
  exact
    { accounts := ha.uninterrupted hb (.inr (.inr rfl))
      bounded := hb.step c _
      claimed := h.claimed
      mem := hr'
      key := hk'.trans h.key
      checkpoint := hn'.trans hrow
      storable := hs.2
      tiles := by
        have ht' := ht.2.2
        rw [Batch.span, hrow] at ht'
        exact ht' }

/-- With no line left, the batch after the loop is the last of the chunk. -/
theorem leftover_ends (h : OnTrack c calculator file origin w r row)
    (hphase : w.invocations 0 = .reading r) (hlines : r.lines = []) :
    Ends c calculator origin w := by
  obtain ⟨_, _, hplan⟩ := h.reads hphase
  rw [hlines, planFrom] at hplan
  obtain ⟨hchunks, hread⟩ := reading_step (c := c) hphase
  rw [ProcessChunkCommand.read, hlines] at hread
  dsimp only at hread
  by_cases he : r.batch.isEmpty
  · have ht := h.tiles
    rw [hplan, if_pos he] at ht
    exact Ends.of_row h.mem h.key (h.checkpoint.trans ht)
  · rw [if_neg he] at hplan hread
    have hs := h.storable
    have ht := h.tiles
    rw [hplan] at hs ht
    have hmem := h.mem
    rw [← hchunks] at hmem
    obtain ⟨⟨row', hr', hk', hn'⟩, _⟩ := commit_step (c := c) hread hmem
      (h.key.trans h.claimed.symm) h.checkpoint
      (not_refused_of_storable (hs _ List.mem_cons_self) _)
    have hends : Ends c calculator origin ((w.step c (.step 0)).step c (.step 0)) :=
      Ends.of_row hr' (hk'.trans h.key) (hn'.trans ht.2.2)
    exact (hends.of_step (.inl rfl)).of_step (.inl rfl)

/-- The next line's row can be priced: a plan stops at a fault of the rules. -/
theorem priced (h : OnTrack c calculator file origin w r row)
    (hphase : w.invocations 0 = .reading r) (hlines : r.lines = l :: lines) :
    ∃ priced, price r.calculator l.line r.claimed.chunk.jobId r.rowStart = .ok priced := by
  obtain ⟨hin, hrun, hplan⟩ := h.reads hphase
  have hlt := h.accounts.before_end h.bounded hphase h.claimed hlines
  rw [hrun.rules, h.claimed, ← hin.rowStart]
  rw [hlines, planFrom] at hplan
  cases hprice : price calculator l.line origin.chunk.jobId r.batch.nextOffset with
  | error reason =>
    have ht := h.tiles
    rw [hplan, hprice] at ht
    exact absurd ht (Nat.ne_of_lt hlt)
  | ok priced => exact ⟨priced, rfl⟩

/-- The loop commits what is planned from its batch on, up to the end of the range. -/
theorem ends (hphase : w.invocations 0 = .reading r)
    (h : OnTrack c calculator file origin w r row) : Ends c calculator origin w := by
  induction hlines : r.lines generalizing w r row with
  | nil => exact h.leftover_ends hphase hlines
  | cons l lines ih =>
    obtain ⟨priced, hprice⟩ := h.priced hphase hlines
    obtain ⟨hchunks, hread⟩ := reading_step (c := c) hphase
    rw [ProcessChunkCommand.read, hlines] at hread
    dsimp only at hread
    rw [hprice] at hread
    dsimp only at hread
    have hadded : OnTrack c calculator file origin (w.step c (.step 0))
        { r with
          lines := lines
          rowStart := l.endOffset
          batch := r.batch.add priced l.endOffset } row :=
      h.turn (.inl rfl) hchunks rfl (r.batch.add_seenOffset priced l.endOffset)
    apply Ends.of_step _ (.inl rfl)
    split at hread
    · exact ih hread hadded rfl
    · obtain ⟨ids, row', hpublishing, hcommitted⟩ := hadded.commit hread
      have hreading := invocation_published c ((w.step c (.step 0)).step c (.step 0))
      rw [hpublishing, ProcessChunkCommand.published] at hreading
      apply Ends.of_step _ (.inl rfl)
      apply Ends.of_step _ (.inr (.inr rfl))
      exact ih hreading hcommitted rfl

end OnTrack

theorem claim_step (hphase : w.invocations 0 = .claiming row.chunk) (hr : row ∈ w.db.chunks.rows)
    (hg : IngestionRepository.claimable w.db.now row) :
    IngestionRepository.claimed w.db.now c.leaseMs row ∈ (w.step c (.step 0)).db.chunks.rows ∧
      (w.step c (.step 0)).db.jobs = w.db.jobs ∧
      (w.step c (.step 0)).invocations 0 =
        .finding (IngestionRepository.claimed w.db.now c.leaseMs row) := by
  have hissued : w.issued c (.step 0) = some (.claimChunk row.chunk c.leaseMs) := by
    rw [IngestionWorld.issued, hphase]
    rfl
  have hclaimed : (w.db.claimChunk row.chunk c.leaseMs).2 =
      some (IngestionRepository.claimed w.db.now c.leaseMs row) :=
    Table.updated_eq_some.2 ⟨row, w.db.chunks.find_of_mem hr, hg, rfl⟩
  rw [IngestionWorld.stored_of_issued hissued]
  refine ⟨IngestionDb.chunk_written rfl hr hg, rfl, ?_⟩
  rw [invocation_step, hphase, ProcessChunkCommand.resume, hclaimed]

theorem find_step (hphase : w.invocations 0 = .finding claimed) :
    (w.step c (.step 0)).db.chunks = w.db.chunks ∧
      (w.step c (.step 0)).invocations 0 =
        .compiling claimed (w.db.jobs.find claimed.chunk.jobId) := by
  constructor
  · exact chunks_of_quiet hphase rfl
  · rw [invocation_step, hphase]
    rfl

theorem compile_step (calculator : BasePriceCalculator)
    (hphase : w.invocations 0 = .compiling claimed job) :
    (w.step c (.compiled 0 calculator)).db.chunks = w.db.chunks ∧
      (w.step c (.compiled 0 calculator)).invocations 0 =
        c.compiled calculator (.compiling claimed job) := by
  constructor
  · rw [IngestionWorld.stored_of_none rfl]
  · rw [invocation_compiled, hphase]

/-- Once it holds a claimable chunk of a job that is there, an invocation takes it to its end. -/
theorem claiming_ends (ha : Accounts c calculator file origin w) (hb : Bounded w)
    (hphase : w.invocations 0 = .claiming origin.chunk) (hr : origin ∈ w.db.chunks.rows)
    (hg : IngestionRepository.claimable w.db.now origin)
    (hjob : w.db.jobs.find origin.chunk.jobId = some job)
    (hs : ∀ b ∈ planned c calculator file origin origin.nextOffset,
      ∀ u ∈ Products.distinctSkus b.rows, Storable c.indexed u)
    (ht : Tiles origin.nextOffset
      ((planned c calculator file origin origin.nextOffset).map Batch.span) origin.endOffset) :
    Ends c calculator origin w := by
  obtain ⟨hclaimed, hjobs, hfinding⟩ := claim_step (c := c) hphase hr hg
  rw [← hjobs] at hjob
  have ha₁ := ha.uninterrupted (e := .step 0) hb (.inl rfl)
  have hb₁ := hb.step c (.step 0)
  apply Ends.of_step _ (.inl rfl)
  obtain ⟨hchunks, hcompiling⟩ := find_step (c := c) hfinding
  rw [IngestionRepository.claimed_chunk, hjob] at hcompiling
  rw [← hchunks] at hclaimed
  have ha₂ := ha₁.uninterrupted (e := .step 0) hb₁ (.inl rfl)
  have hb₂ := hb₁.step c (.step 0)
  apply Ends.of_step _ (.inl rfl)
  obtain ⟨hchunks, hreading⟩ := compile_step (c := c) calculator hcompiling
  rw [← hchunks] at hclaimed
  have ha₃ := ha₂.uninterrupted (e := .compiled 0 calculator) hb₂ (.inr (.inl rfl))
  have hb₃ := hb₂.step c (.compiled 0 calculator)
  apply Ends.of_step _ (.inr (.inl rfl))
  exact OnTrack.ends hreading ⟨ha₃, hb₃, rfl, hclaimed, rfl, rfl, hs, ht⟩

/-- From its registration, a chunk whose rows the table takes is imported by an uninterrupted
run. -/
theorem Registered.ends (h : Registered w) (ha : Accounts c calculator file origin w)
    (horigin : origin ∈ w.db.chunks.rows) (hjob : job ∈ w.db.jobs.rows)
    (hid : job.id = origin.chunk.jobId)
    (hs : ∀ b ∈ planned c calculator file origin origin.startOffset,
      ∀ u ∈ Products.distinctSkus b.rows, Storable c.indexed u)
    (ht : Tiles origin.startOffset
      ((planned c calculator file origin origin.startOffset).map Batch.span) origin.endOffset) :
    Ends c calculator origin (w.step c (.deliver 0 origin.chunk)) := by
  have hb := h.bounded
  have hphase : (w.step c (.deliver 0 origin.chunk)).invocations 0 = .claiming origin.chunk := by
    apply IngestionWorld.step_moved
    rw [IngestionWorld.moved, h.idle 0]
    rfl
  have hdb : (w.step c (.deliver 0 origin.chunk)).db = w.db := IngestionWorld.stored_of_none rfl
  have hfind : w.db.jobs.find origin.chunk.jobId = some job := hid ▸ w.db.jobs.find_of_mem hjob
  have hg : IngestionRepository.claimable w.db.now origin = true := by
    rw [(h.chunks origin horigin).2]
    rfl
  rw [← h.next horigin] at hs ht
  rw [← hdb] at horigin hfind hg
  apply claiming_ends _ (hb.step c _) hphase horigin hg hfind hs ht
  apply ha.step hb
  intro i calculator' he
  cases he

theorem Accounts.run (h : Accounts c calculator file origin w) (hb : Bounded w)
    (hrules : ∀ i calculator', .compiled i calculator' ∈ es → calculator' = calculator) :
    Accounts c calculator file origin (run (IngestionWorld.step c) w es) ∧
      Bounded (run (IngestionWorld.step c) w es) := by
  induction es generalizing w with
  | nil => exact ⟨h, hb⟩
  | cons e es ih =>
    apply ih
    · apply h.step hb
      rintro i calculator' rfl
      exact hrules i calculator' List.mem_cons_self
    · exact hb.step c e
    · intro i calculator' hm
      exact hrules i calculator' (List.mem_cons_of_mem _ hm)

/-- A checkpoint does not move back, whatever comes. -/
theorem Bounded.run_le (hb : Bounded w) (hr : row ∈ w.db.chunks.rows)
    (hr' : row' ∈ (run (IngestionWorld.step c) w es).db.chunks.rows)
    (hk : row'.chunk = row.chunk) : row.nextOffset ≤ row'.nextOffset := by
  have hinv : Bounded (run (IngestionWorld.step c) w es) ∧
      ∀ row' ∈ (run (IngestionWorld.step c) w es).db.chunks.rows, row'.chunk = row.chunk →
        row.nextOffset ≤ row'.nextOffset := by
    apply run_invariant_always (I := fun w => Bounded w ∧ ∀ row' ∈ w.db.chunks.rows,
      row'.chunk = row.chunk → row.nextOffset ≤ row'.nextOffset)
    · intro w e hi
      refine ⟨hi.1.step c e, ?_⟩
      intro row' hr' hk'
      obtain ⟨row₀, hr₀, hk₀, _, _, hle, _⟩ := hi.1.chunk_step hr'
      exact (hi.2 row₀ hr₀ (hk₀.symm.trans hk')).trans hle
    · refine ⟨hb, ?_⟩
      intro row' hr' hk'
      rw [w.db.chunks.eq_of_key hr' hr hk']
  exact hinv.2 row' hr' hk

end

/-- In every state of every run on a file of valid UTF-8 with rows within the bound, under fixed
rules, a chunk's rows are accounted for exactly once, its checkpoint never moves back, and at its
end it has the counters that an uninterrupted run gives it, which then ends too, unless the run
skipped a row for which an index has no room. -/
theorem rows_exactly_once {c : ProcessChunkCommand} {w : IngestionWorld} (h : Registered w)
    (horigin : origin ∈ w.db.chunks.rows) (hjob : job ∈ w.db.jobs.rows)
    (hid : job.id = origin.chunk.jobId) (hutf8 : c.files job.fileRef = Utf8.encode text)
    (hstart : RowBoundary (c.files job.fileRef) origin.startOffset)
    (hend : RowBoundary (c.files job.fileRef) origin.endOffset)
    (hlen : origin.endOffset ≤ (c.files job.fileRef).length)
    (hbound : WithinBound (rowsOf (c.files job.fileRef) origin.startOffset origin.endOffset))
    (hrules : ∀ i calculator', .compiled i calculator' ∈ es → calculator' = calculator) :
    ∃ row ∈ (run (IngestionWorld.step c) w es).db.chunks.rows, row.chunk = origin.chunk ∧
      row.startOffset = origin.startOffset ∧ row.endOffset = origin.endOffset ∧
      ExactlyOnce calculator (c.files job.fileRef) (run (IngestionWorld.step c) w es).db.log row ∧
      (∀ more, ∀ row' ∈ (run (IngestionWorld.step c) w (es ++ more)).db.chunks.rows,
        row'.chunk = origin.chunk → row.nextOffset ≤ row'.nextOffset) ∧
      (row.nextOffset = row.endOffset →
        ((∀ b ∈ planned c calculator (c.files job.fileRef) origin origin.startOffset,
            ∀ u ∈ Products.distinctSkus b.rows, Indexable c.indexed u) →
          Ends c calculator origin (w.step c (.deliver 0 origin.chunk))) ∧
        ∀ single, (∀ e ∈ single, Uninterrupted calculator e) →
          ∀ row' ∈ (run (IngestionWorld.step c) w
              (.deliver 0 origin.chunk :: single)).db.chunks.rows,
            row'.chunk = origin.chunk → row'.nextOffset = row'.endOffset →
              row'.rowsProcessed = row.rowsProcessed ∧
              row'.rowsRejected = row.rowsRejected) := by
  have hlt := (h.chunks origin horigin).1
  have hle := Nat.le_of_lt hlt
  have hreadable := readable_of_rowBoundary hutf8 hstart hend hle hlen hbound
  have hfile : ∀ job' ∈ w.db.jobs.rows, job'.id = origin.chunk.jobId →
      c.files job'.fileRef = c.files job.fileRef := by
    intro job' hj' hid'
    rw [w.db.jobs.eq_of_key hj' hjob (hid'.trans hid.symm)]
  have ha : Accounts c calculator (c.files job.fileRef) origin w :=
    h.accounts horigin hfile hreadable
  obtain ⟨har, hbr⟩ := ha.run h.bounded hrules
  obtain ⟨row, hr, hk, hrow⟩ := har.row
  refine ⟨row, hr, hk, hrow.startOffset, hrow.endOffset, hrow.exactlyOnce hk hreadable hle, ?_, ?_⟩
  · intro more row' hr' hk'
    rw [run_append] at hr'
    exact hbr.run_le hr hr' (hk'.trans hk.symm)
  · intro hat
    have hplan := hrow.at_end hat
    have htiles := hrow.tiles
    rw [← hplan, hat, hrow.endOffset] at htiles
    have hstored := hrow.stored
    rw [← hplan] at hstored
    refine ⟨fun hroom => h.ends ha horigin hjob hid ?_ htiles, ?_⟩
    · intro b hb u hu
      exact ⟨hstored b hb u hu, hroom b hb u hu⟩
    intro single hsingle row' hr' hk' hend'
    have hsrules : ∀ i calculator', .compiled i calculator' ∈
        (.deliver 0 origin.chunk :: single) → calculator' = calculator := by
      intro i calculator' hm
      rcases List.mem_cons.1 hm with hm | hm
      · cases hm
      · rcases hsingle _ hm with he | he | he
        · cases he
        · cases he
          rfl
        · cases he
    obtain ⟨has, _⟩ := ha.run h.bounded hsrules
    exact hrow.counters_at_end (has.row_of hr' hk') hat hend'

instance (rows : List RangeLine) : Decidable (WithinBound rows) :=
  inferInstanceAs (Decidable (∀ l ∈ rows, l.line.length16 ≤ maxRowChars))

instance (file : List UInt8) (offset : Nat) : Decidable (RowBoundary file offset) :=
  inferInstanceAs (Decidable (_ ∨ _ ∨ _ ∧ _))

/-- A failed delivery, then one that imports the file and fails after its last batch. -/
theorem rows_exactly_once_scarfImport :
    ∃ row ∈ (run (IngestionWorld.step scarfCommand) scarfImport
        (scarfFailure ++ scarfAttempt ++ scarfLateFailure)).db.chunks.rows,
      row.chunk = ⟨1, 0⟩ ∧ ExactlyOnce commissionCalculator scarfFile
        (run (IngestionWorld.step scarfCommand) scarfImport
          (scarfFailure ++ scarfAttempt ++ scarfLateFailure)).db.log row := by
  have hrules : ∀ i calculator', .compiled i calculator' ∈
      scarfFailure ++ scarfAttempt ++ scarfLateFailure → calculator' = commissionCalculator := by
    intro i calculator' hm
    simp only [scarfFailure, scarfAttempt, scarfLateFailure, List.cons_append, List.nil_append,
      List.mem_cons, reduceCtorEq, IngestionEvent.compiled.injEq, List.not_mem_nil, or_false,
      false_or] at hm
    exact hm.2
  obtain ⟨row, hr, hk, _, _, hrow, _⟩ := rows_exactly_once (c := scarfCommand)
    scarfImport_registered (List.mem_singleton.2 rfl) (List.mem_singleton.2 rfl) rfl rfl
    (by decide +kernel) (by decide +kernel) (by decide +kernel) (by decide +kernel) hrules
  exact ⟨row, hr, hk, hrow⟩

end PromotionManagement
