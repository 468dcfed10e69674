import PromotionManagement.ChunkBounds
import PromotionManagement.Library.Credit
import PromotionManagement.Library.Run

namespace PromotionManagement
open Library
set_option autoImplicit true

/-- A batch spans at least one byte for each row it stores or rejects. -/
def Batch.Spans (batch : Batch) : Prop :=
  batch.seenOffset + (batch.rows.length + batch.rejected) ≤ batch.nextOffset

/-- The batch of an invocation spans its rows, and one the loop stores is full. -/
def Phase.Spans (c : ProcessChunkCommand) : Phase → Prop
  | .reading run => run.batch.Spans
  | .storing run leftover => run.batch.Spans ∧
    (leftover = false → max 1 c.batchSize ≤ run.batch.rows.length + run.batch.rejected)
  | _ => True

/-- The invocation may yet hand the chunk off for a batch it has committed. -/
def Phase.Owes (chunk : ChunkProcess) : Phase → Prop
  | .publishing run _ leftover => leftover = false ∧ run.claimed.chunk = chunk
  | .releasing run => run.claimed.chunk = chunk
  | .reenqueueing run => run.claimed.chunk = chunk
  | _ => False

theorem spans_of_not_working {c : ProcessChunkCommand} {phase : Phase}
    (h : phase.working = false) : phase.Spans c := by
  cases phase with
  | reading run => cases h
  | storing run leftover => cases h
  | _ => trivial

theorem emptyBatch_spans (offset : Nat) : (ProcessChunkCommand.emptyBatch offset).Spans :=
  Nat.le_refl offset

section
variable {c : ProcessChunkCommand} {w : IngestionWorld} {e : IngestionEvent} {db : IngestionDb}
  {chunk : ChunkProcess} {p phase : Phase}

/-- Each line ends after it starts, so a turn of the loop adds a byte or more. -/
theorem RunIn.spans {run : ChunkRun} (h : RunIn db run) (hs : run.batch.Spans) :
    (c.read run).Spans c := by
  obtain ⟨claimed, calculator, lines, batch, rowStart, totals⟩ := run
  rw [ProcessChunkCommand.read]
  cases lines with
  | nil =>
    dsimp only
    split
    · trivial
    · exact ⟨hs, fun hl => Bool.noConfusion hl⟩
  | cons line lines =>
    obtain ⟨line, endOffset⟩ := line
    dsimp only
    split
    · trivial
    · rename_i priced _
      have hcount := batch.add_count priced endOffset
      have hnext : batch.nextOffset = rowStart := h.rowStart
      have hlt : rowStart < endOffset := h.lines.1
      have hadd : (batch.add priced endOffset).Spans := by
        rw [Batch.Spans] at hs ⊢
        dsimp only at hs
        rw [hcount, Batch.add_seenOffset, Batch.add_nextOffset]
        omega
      split
      · exact hadd
      · refine ⟨hadd, fun _ => ?_⟩
        dsimp only
        omega

theorem Bounded.spans_step (h : Bounded w) (hs : ∀ i, (w.invocations i).Spans c)
    (e : IngestionEvent) : ∀ i, ((w.step c e).invocations i).Spans c := by
  apply IngestionWorld.phases_step
  · exact hs
  · intro phase hp
    exact spans_of_not_working hp
  · intro chunk claimed _
    trivial
  · intro i claimed _
    trivial
  · intro i claimed job calculator _ _
    exact emptyBatch_spans claimed.nextOffset
  · intro i run hi
    have hrun := h.phases i
    have hbatch := hs i
    rw [hi] at hrun hbatch
    exact RunIn.spans hrun hbatch
  · intro i run ids leftover _
    trivial
  · intro i run ids _
    exact emptyBatch_spans run.rowStart

namespace ProcessChunkCommand

theorem not_owes_read (c : ProcessChunkCommand) (run : ChunkRun) (chunk : ChunkProcess) :
    ¬(c.read run).Owes chunk := by
  rw [read]
  split
  · split
    · exact id
    · exact id
  · split
    · exact id
    · dsimp only
      split
      · exact id
      · exact id

/-- An answer makes an invocation owe a hand-off only when its batch has committed. -/
theorem owes_resume (h : (c.resume db p).Owes chunk) :
    (p.Owes chunk ∧ ∀ run, p ≠ .reenqueueing run) ∨
      ∃ run ids, p = .storing run false ∧ run.claimed.chunk = chunk ∧
        ¬UpsertRefused c.indexed db.products run.batch.rows ∧
        (db.commit chunk run.batch).2 = some ids := by
  cases p with
  | claiming chunk' =>
    rw [resume] at h
    split at h
    · cases h
    · cases h
  | reading run => exact absurd h (not_owes_read c run chunk)
  | storing run leftover =>
    rw [resume] at h
    split at h
    · cases h
    · rename_i hr
      split at h
      · cases h
      · rename_i ids hc
        obtain ⟨rfl, rfl⟩ := h
        exact .inr ⟨run, ids, rfl, rfl, hr, hc⟩
  | publishing run ids leftover => exact .inl ⟨h, fun _ hp => Phase.noConfusion hp⟩
  | releasing run => exact .inl ⟨h, fun _ hp => Phase.noConfusion hp⟩
  | recordingJob chunk' reason exhausted =>
    rw [resume] at h
    split at h
    · cases h
    · cases h
  | _ => cases h

theorem owes_compiled {calculator : BasePriceCalculator}
    (h : (c.compiled calculator p).Owes chunk) : p.Owes chunk := by
  cases p with
  | compiling claimed job =>
    cases job with
    | none => cases h
    | some job => cases h
  | _ => exact h

theorem owes_published (h : (published outOfTime p).Owes chunk) : p.Owes chunk := by
  cases p with
  | publishing run ids leftover =>
    cases leftover with
    | true => cases h
    | false =>
      rw [published] at h
      dsimp only at h
      rw [if_neg Bool.false_ne_true] at h
      split at h
      · exact ⟨rfl, h⟩
      · cases h
  | _ => exact h

theorem owes_fail (h : (fail reason p).Owes chunk) :
    p.Owes chunk ∧ ∀ run, p ≠ .reenqueueing run := by
  cases p with
  | publishing run ids leftover => exact ⟨h, fun _ hp => Phase.noConfusion hp⟩
  | _ => cases h

end ProcessChunkCommand

namespace IngestionWorld

theorem owes_moved (hm : w.moved c e = some (i, phase)) (h : phase.Owes chunk) :
    ((w.invocations i).Owes chunk ∧ w.handedOff e = []) ∨
      ∃ run ids, e = .step i ∧ w.invocations i = .storing run false ∧
        run.claimed.chunk = chunk ∧ ¬UpsertRefused c.indexed w.db.products run.batch.rows ∧
        (w.db.commit chunk run.batch).2 = some ids := by
  have hnone {j : Nat} {applied : Bool} (hne : ∀ run, w.invocations j ≠ .reenqueueing run) :
      w.handOff j applied = [] := by
    rw [handOff]
    split
    · rename_i run hp
      exact absurd hp (hne run)
    · rfl
  cases e with
  | deliver j chunk' =>
    rw [moved] at hm
    split at hm
    · cases hm
      cases h
    · cases hm
  | step j =>
    cases hm
    rcases ProcessChunkCommand.owes_resume h with ⟨ho, hne⟩ | ⟨run, ids, hp, hk, hr, hc⟩
    · exact .inl ⟨ho, hnone hne⟩
    · exact .inr ⟨run, ids, rfl, hp, hk, hr, hc⟩
  | compiled j calculator =>
    cases hm
    exact .inl ⟨ProcessChunkCommand.owes_compiled h, rfl⟩
  | published j delivered outOfTime =>
    cases hm
    exact .inl ⟨ProcessChunkCommand.owes_published h, rfl⟩
  | fail j reason applied =>
    cases hm
    obtain ⟨ho, hne⟩ := ProcessChunkCommand.owes_fail h
    exact .inl ⟨ho, hnone hne⟩
  | kill j applied =>
    cases hm
    cases h
  | clock now => cases hm
  | completeJobIfDone jobId => cases hm
  | failJobIfExhausted jobId => cases hm

/-- An event hands nothing off, or is the last that an invocation does for its batch. -/
theorem handedOff_cases (c : ProcessChunkCommand) (w : IngestionWorld) (e : IngestionEvent) :
    w.handedOff e = [] ∨ ∃ i run phase, w.invocations i = .reenqueueing run ∧
      w.handedOff e = [run.claimed.chunk] ∧ w.moved c e = some (i, phase) ∧
      ∀ chunk, ¬phase.Owes chunk := by
  have hcases (i : Nat) (applied : Bool) : w.handOff i applied = [] ∨
      ∃ run, w.invocations i = .reenqueueing run ∧
        w.handOff i applied = [run.claimed.chunk] := by
    rw [handOff]
    split
    · rename_i run hp
      cases applied with
      | true => exact .inr ⟨run, hp, rfl⟩
      | false => exact .inl rfl
    · exact .inl rfl
  cases e with
  | step i =>
    rcases hcases i true with h | ⟨run, hp, h⟩
    · exact .inl h
    · refine .inr ⟨i, run, _, hp, h, rfl, ?_⟩
      intro chunk
      rw [hp]
      exact id
  | fail i reason applied =>
    rcases hcases i applied with h | ⟨run, hp, h⟩
    · exact .inl h
    · refine .inr ⟨i, run, _, hp, h, rfl, ?_⟩
      intro chunk
      rw [hp]
      exact id
  | kill i applied =>
    rcases hcases i applied with h | ⟨run, hp, h⟩
    · exact .inl h
    · exact .inr ⟨i, run, _, hp, h, rfl, fun _ => id⟩
  | _ => exact .inl rfl

/-- The invocations an event does not move owe what they owed. -/
theorem owes_after (h : ((w.step c e).invocations j).Owes chunk) :
    (w.invocations j).Owes chunk ∧ (∀ i phase, w.moved c e = some (i, phase) → j ≠ i) ∨
      ∃ phase, w.moved c e = some (j, phase) ∧ phase.Owes chunk := by
  by_cases hm : ∃ phase, w.moved c e = some (j, phase)
  · obtain ⟨phase, hm⟩ := hm
    rw [step_moved hm] at h
    exact .inr ⟨phase, hm, h⟩
  · rw [step_unmoved fun phase hmoved => hm ⟨phase, hmoved⟩] at h
    refine .inl ⟨h, ?_⟩
    rintro i phase hmoved rfl
    exact hm ⟨phase, hmoved⟩

end IngestionWorld

/-- Every hand-off of the chunk, made or still owed, has a full batch behind its checkpoint. -/
structure Paced (c : ProcessChunkCommand) (chunk : ChunkProcess) (w : IngestionWorld) : Prop where
  bounded : Bounded w
  spans : ∀ i, (w.invocations i).Spans c
  credit : ∀ row ∈ w.db.chunks.rows, row.chunk = chunk →
    Credited (max 1 c.batchSize) (w.reenqueued.count chunk) (row.nextOffset - row.startOffset)
      fun i => (w.invocations i).Owes chunk

/-- A commit moves the checkpoint on by what its batch spans. -/
theorem checkpoint_commit (h : (w.db.commit chunk batch).2 = some ids)
    (hr : row ∈ w.db.chunks.rows) (hk : row.chunk = chunk)
    (hr' : row' ∈ (w.db.commit chunk batch).1.chunks.rows) (hk' : row'.chunk = chunk) :
    row.nextOffset = batch.seenOffset ∧ row'.nextOffset = batch.nextOffset := by
  subst hk
  have hseen : row.nextOffset = batch.seenOffset := by
    by_contra hne
    cases hu : w.db.chunks.updated row.chunk (IngestionDb.seen batch)
        (IngestionRepository.checkpointed batch (IngestionDb.storedBy batch)) with
    | none =>
      rw [(IngestionDb.commit_refused hu).1] at h
      cases h
    | some found =>
      obtain ⟨row₀, hf, hg, _⟩ := Table.updated_eq_some.1 hu
      rw [w.db.chunks.find_of_mem hr] at hf
      cases hf
      exact hne (of_decide_eq_true hg)
  refine ⟨hseen, ?_⟩
  have hwritten : IngestionRepository.checkpointed batch (IngestionDb.storedBy batch) row ∈
      (w.db.execute (.commit row.chunk batch)).chunks.rows :=
    IngestionDb.chunk_written rfl hr (decide_eq_true hseen)
  rw [Table.eq_of_key _ hr' hwritten hk']
  rfl

theorem Paced.step (h : Paced c chunk w) (e : IngestionEvent) : Paced c chunk (w.step c e) := by
  refine ⟨h.bounded.step c e, h.bounded.spans_step h.spans e, ?_⟩
  intro row' hr' hk'
  obtain ⟨row, hr, hk, hstart, _, hle, _⟩ := h.bounded.chunk_step hr'
  have hcredit := h.credit row hr (hk.symm.trans hk')
  have hpaid : row.nextOffset - row.startOffset ≤ row'.nextOffset - row'.startOffset := by
    rw [hstart]
    exact Nat.sub_le_sub_right hle row.startOffset
  have hcount : (w.step c e).reenqueued.count chunk =
      w.reenqueued.count chunk + (w.handedOff e).count chunk := List.count_append
  rw [hcount]
  rcases IngestionWorld.handedOff_cases c w e with hnone | ⟨i, run, phase, hi, hone, hm, hno⟩
  · rw [hnone, List.count_nil, Nat.add_zero]
    by_cases hcommit : ∃ i run ids, e = .step i ∧ w.invocations i = .storing run false ∧
        run.claimed.chunk = chunk ∧ ¬UpsertRefused c.indexed w.db.products run.batch.rows ∧
        (w.db.commit chunk run.batch).2 = some ids
    · obtain ⟨i, run, ids, rfl, hi, rfl, hr₀, hc⟩ := hcommit
      have hissued : w.issued c (.step i) = some (.commit run.claimed.chunk run.batch) := by
        rw [IngestionWorld.issued, hi, ProcessChunkCommand.statement, if_neg hr₀]
      rw [IngestionWorld.stored_of_issued hissued] at hr'
      obtain ⟨hseen, hnext⟩ := checkpoint_commit hc hr (hk.symm.trans hk') hr' hk'
      have hspans := h.spans i
      rw [hi] at hspans
      obtain ⟨hbytes, hfull⟩ := hspans
      have hlow := (h.bounded.chunks row hr).1
      apply hcredit.earn (i := i)
      · rw [Batch.Spans] at hbytes
        have hfull := hfull rfl
        rw [hstart, hnext]
        omega
      · intro j hj
        rcases IngestionWorld.owes_after hj with ⟨ho, _⟩ | ⟨phase, hm, _⟩
        · exact .inr ho
        · cases hm
          exact .inl rfl
    · apply hcredit.mono hpaid
      intro j hj
      rcases IngestionWorld.owes_after hj with ⟨ho, _⟩ | ⟨phase, hm, hp⟩
      · exact ho
      · rcases IngestionWorld.owes_moved hm hp with ⟨ho, _⟩ | ⟨run, ids, hstored⟩
        · exact ho
        · exact absurd ⟨j, run, ids, hstored⟩ hcommit
  · have hback (j : Nat) (hj : ((w.step c e).invocations j).Owes chunk) :
        (w.invocations j).Owes chunk ∧ j ≠ i := by
      rcases IngestionWorld.owes_after hj with ⟨ho, hne⟩ | ⟨phase', hm', hp⟩
      · exact ⟨ho, hne i phase hm⟩
      · rw [hm] at hm'
        cases hm'
        exact absurd hp (hno chunk)
    rw [hone]
    by_cases hchunk : run.claimed.chunk = chunk
    · rw [hchunk, List.count_singleton_self]
      apply hcredit.spend (i := i) hpaid
      · rw [hi]
        exact hchunk
      · intro ho
        exact (hback i ho).2 rfl
      · intro j hj
        exact (hback j hj).1
    · rw [List.count_singleton, if_neg (mt eq_of_beq hchunk), Nat.add_zero]
      exact hcredit.mono hpaid fun j hj => (hback j hj).1

theorem Registered.paced (h : Registered w) (hq : w.reenqueued = []) (chunk : ChunkProcess) :
    Paced c chunk w := by
  refine ⟨h.bounded, ?_, ?_⟩
  · intro i
    rw [h.idle i]
    trivial
  · intro row _ _
    rw [hq]
    apply Credited.zero
    intro i
    rw [h.idle i]
    exact id

end

/-- However deliveries, failures, kills and re-claims interleave, a chunk is handed off at most once
for each full batch of bytes behind its checkpoint, so at most that often for its whole range. -/
theorem hand_offs_bounded {c : ProcessChunkCommand} {w : IngestionWorld} (h : Registered w)
    (hq : w.reenqueued = []) (hr : row ∈ (run (IngestionWorld.step c) w es).db.chunks.rows) :
    max 1 c.batchSize * (run (IngestionWorld.step c) w es).reenqueued.count row.chunk ≤
        row.nextOffset - row.startOffset ∧
      row.nextOffset ≤ row.endOffset := by
  have hpaced : Paced c row.chunk (run (IngestionWorld.step c) w es) :=
    run_invariant_always (fun w e hw => hw.step e) (h.paced hq row.chunk) es
  exact ⟨(hpaced.credit row hr rfl).le, (hpaced.bounded.chunks row hr).2⟩

def scarfRowByRow : ProcessChunkCommand := { scarfCommand with batchSize := 1 }

/-- An attempt that runs out of time after its first row, and hands the chunk off. -/
def scarfHandOff : List IngestionEvent :=
  [.deliver 0 ⟨1, 0⟩, .step 0, .step 0, .compiled 0 commissionCalculator, .step 0, .step 0,
    .published 0 true true, .step 0, .step 0]

theorem hand_offs_bounded_scarfImport :
    (run (IngestionWorld.step scarfRowByRow) scarfImport scarfHandOff).reenqueued = [⟨1, 0⟩] ∧
      ∃ row ∈ (run (IngestionWorld.step scarfRowByRow) scarfImport scarfHandOff).db.chunks.rows,
        row.nextOffset < row.endOffset ∧
        max 1 1 * (run (IngestionWorld.step scarfRowByRow) scarfImport
            scarfHandOff).reenqueued.count row.chunk ≤ row.nextOffset - row.startOffset := by
  have hrow : ∃ row ∈ (run (IngestionWorld.step scarfRowByRow) scarfImport
      scarfHandOff).db.chunks.rows, row.nextOffset < row.endOffset := by
    decide +kernel
  obtain ⟨row, hr, hlt⟩ := hrow
  refine ⟨by decide +kernel, row, hr, hlt, ?_⟩
  exact (hand_offs_bounded (c := scarfRowByRow) scarfImport_registered rfl hr).1

end PromotionManagement
