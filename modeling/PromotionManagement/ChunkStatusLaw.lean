import PromotionManagement.ChunkBounds
import PromotionManagement.Library.Run

namespace PromotionManagement
open Library
set_option autoImplicit true

def ChunkStatus.terminal : ChunkStatus → Bool
  | .done => true
  | .failed => true
  | _ => false

/-- A chunk is `done` exactly when its checkpoint has reached its end. -/
def DoneAtEnd (db : IngestionDb) : Prop :=
  ∀ row ∈ db.chunks.rows, row.status = .done ↔ row.nextOffset ≥ row.endOffset

instance (db : IngestionDb) : Decidable (DoneAtEnd db) :=
  inferInstanceAs (Decidable (∀ row ∈ db.chunks.rows, row.status = .done ↔ row.nextOffset ≥ _))

/-- A chunk that is `done` or `failed` stays what it is. -/
def Absorbing (db db' : IngestionDb) : Prop :=
  ∀ row ∈ db.chunks.rows, row.status.terminal →
    ∀ row' ∈ db'.chunks.rows, row'.chunk = row.chunk → row'.status = row.status

/-- A job that becomes `failed` has a chunk with rows left to import. -/
def FailedUnfinished (db db' : IngestionDb) : Prop :=
  ∀ job ∈ db.jobs.rows, job.status ≠ .failed →
    ∀ job' ∈ db'.jobs.rows, job'.id = job.id → job'.status = .failed →
      ∃ row ∈ db'.chunksOf job.id, row.nextOffset < row.endOffset

/-- What a step has to keep of the statuses. -/
def StatusLaw (c : ProcessChunkCommand) (w : IngestionWorld) (e : IngestionEvent) : Prop :=
  DoneAtEnd (w.step c e).db ∧ Absorbing w.db (w.step c e).db ∧
    FailedUnfinished w.db (w.step c e).db

/-- A failure that spends the attempts of a chunk does not meet it `done`, and a batch that takes
a chunk to its end does not meet it `failed`. -/
def LateWriteSpared (c : ProcessChunkCommand) (w : IngestionWorld) (e : IngestionEvent) : Prop :=
  match w.issued c e with
  | some (.recordChunkFailure chunk _ maxFailures) =>
    ∀ row ∈ w.db.chunks.rows, row.chunk = chunk → row.failures + 1 ≥ maxFailures →
      row.status ≠ .done
  | some (.commit chunk batch) =>
    ∀ row ∈ w.db.chunks.rows, row.chunk = chunk → row.nextOffset = batch.seenOffset →
      batch.nextOffset ≥ row.endOffset → row.status ≠ .failed
  | _ => True

section
variable {c : ProcessChunkCommand} {w : IngestionWorld} {e : IngestionEvent} {db : IngestionDb}

theorem ChunkStatus.terminal_iff {status : ChunkStatus} :
    status.terminal ↔ status = .done ∨ status = .failed := by
  cases status <;> simp only [terminal, reduceCtorEq, or_self, or_true, true_or, Bool.false_eq_true]

theorem claimable_not_terminal (h : IngestionRepository.claimable now row) :
    ¬ row.status.terminal := by
  intro ht
  rw [IngestionRepository.claimable, Bool.or_eq_true, Bool.and_eq_true, decide_eq_true_eq,
    decide_eq_true_eq] at h
  rcases h with h | ⟨h, _⟩
  · rw [h] at ht
    cases ht
  · rw [h] at ht
    cases ht

/-- A step moves a chunk between the two statuses only as the condition allows. -/
theorem status_move (hb : Bounded w) (hd : DoneAtEnd w.db) (hc : LateWriteSpared c w e)
    (hs : w.issued c e = some s) (hr : row ∈ w.db.chunks.rows)
    (hm : ChunkMove w.db.now s row row') :
    (row'.status = .done ↔ row'.nextOffset ≥ row'.endOffset) ∧
      (row.status.terminal → row'.status = row.status) := by
  have hdone := hd row hr
  rw [LateWriteSpared, hs] at hc
  cases hm with
  | kept => exact ⟨hdone, fun _ => rfl⟩
  | claimed hg =>
    have hnot := claimable_not_terminal hg
    constructor
    · constructor
      · intro h
        cases h
      · intro h
        exact absurd (ChunkStatus.terminal_iff.2 (.inl (hdone.2 h))) hnot
    · intro ht
      exact absurd ht hnot
  | checkpointed hn =>
    rename_i batch
    obtain ⟨_, hlt, hend⟩ := hb.commit hs
    have hle := hend row hr rfl
    have hnot : row.status ≠ .done := by
      intro hrow
      have hge := hdone.1 hrow
      omega
    change ((if batch.nextOffset ≥ row.endOffset then ChunkStatus.done else row.status) = .done ↔
      batch.nextOffset ≥ row.endOffset) ∧ (row.status.terminal →
        (if batch.nextOffset ≥ row.endOffset then ChunkStatus.done else row.status) = row.status)
    split
    · rename_i hge
      have hspared := hc row hr rfl hn hge
      refine ⟨⟨fun _ => hge, fun _ => rfl⟩, ?_⟩
      intro ht
      rcases ChunkStatus.terminal_iff.1 ht with hrow | hrow
      · exact absurd hrow hnot
      · exact absurd hrow hspared
    · rename_i hlt'
      exact ⟨⟨fun h => absurd h hnot, fun h => absurd h hlt'⟩, fun _ => rfl⟩
  | released hg =>
    constructor
    · constructor
      · intro h
        cases h
      · intro h
        rw [hdone.2 h] at hg
        cases hg
    · intro ht
      rw [hg] at ht
      cases ht
  | failedOnce =>
    rename_i reason maxFailures
    change ((if row.failures + 1 ≥ maxFailures then ChunkStatus.failed else row.status) = .done ↔
      row.nextOffset ≥ row.endOffset) ∧ (row.status.terminal →
        (if row.failures + 1 ≥ maxFailures then ChunkStatus.failed else row.status) = row.status)
    split
    · rename_i hge
      have hspared := hc row hr rfl hge
      constructor
      · constructor
        · intro h
          cases h
        · intro h
          exact absurd (hdone.2 h) hspared
      · intro ht
        rcases ChunkStatus.terminal_iff.1 ht with hrow | hrow
        · exact absurd hrow hspared
        · exact hrow.symm
    · exact ⟨hdone, fun _ => rfl⟩

theorem doneAtEnd_step (hb : Bounded w) (hd : DoneAtEnd w.db) (hc : LateWriteSpared c w e) :
    DoneAtEnd (w.step c e).db := by
  intro row' hr'
  rcases IngestionWorld.chunk_after hr' with hr | ⟨s, hs, row, hr, hm⟩
  · exact hd row' hr
  · exact (status_move hb hd hc hs hr hm).1

theorem absorbing_step (hb : Bounded w) (hd : DoneAtEnd w.db) (hc : LateWriteSpared c w e) :
    Absorbing w.db (w.step c e).db := by
  intro row hr ht row' hr' hk
  rcases IngestionWorld.chunk_after hr' with hr₀ | ⟨s, hs, row₀, hr₀, hm⟩
  · rw [w.db.chunks.eq_of_key hr₀ hr hk]
  · have he := w.db.chunks.eq_of_key hr₀ hr (hm.chunk.symm.trans hk)
    subst he
    exact (status_move hb hd hc hs hr hm).2 ht

/-- A job gives up only over a chunk that gave up. -/
theorem failed_move (hm : JobMove db s job job') (hn : job.status ≠ .failed)
    (hf : job'.status = .failed) : s = .failJobIfExhausted job.id ∧ job.status = .running ∧
      db.exhausted job.id := by
  cases hm with
  | kept => exact absurd hf hn
  | refreshed hr =>
    change job.status = _ at hf
    exact absurd hf hn
  | erred =>
    change job.status = _ at hf
    exact absurd hf hn
  | failed hr hx => exact ⟨rfl, hr, hx⟩
  | completed hr hx => cases hf

theorem exhausted_failed (h : db.exhausted jobId) :
    ∃ row ∈ db.chunksOf jobId, row.status = .failed := by
  rw [IngestionDb.exhausted, Bool.and_eq_true, List.any_eq_true] at h
  obtain ⟨row, hr, hf⟩ := h.2
  exact ⟨row, hr, of_decide_eq_true hf⟩

theorem failedUnfinished_step (hd : DoneAtEnd w.db) : FailedUnfinished w.db (w.step c e).db := by
  intro job hj hn job' hj' hid hf
  rcases IngestionWorld.job_after hj' with hj₀ | ⟨s, hs, job₀, hj₀, hm⟩
  · rw [w.db.jobs.eq_of_key hj₀ hj hid] at hf
    exact absurd hf hn
  · have he := w.db.jobs.eq_of_key hj₀ hj (hm.id.symm.trans hid)
    subst he
    obtain ⟨rfl, _, hx⟩ := failed_move hm hn hf
    obtain ⟨row, hr, hrow⟩ := exhausted_failed hx
    rw [IngestionWorld.stored_of_issued hs]
    refine ⟨row, hr, ?_⟩
    have hdone := hd row (List.mem_of_mem_filter hr)
    rw [hrow] at hdone
    exact Nat.lt_of_not_le fun hle => ChunkStatus.noConfusion (hdone.2 hle)

/-- A late write that the condition excludes breaks the law in that very step. -/
theorem lateWriteSpared_of_law (h : Absorbing w.db (w.step c e).db) : LateWriteSpared c w e := by
  rw [LateWriteSpared]
  split
  · rename_i chunk reason maxFailures hs
    rintro row hr rfl hge hrow
    rw [IngestionWorld.stored_of_issued hs] at h
    have hw : IngestionRepository.failedOnce reason maxFailures row ∈
        (w.db.execute (.recordChunkFailure row.chunk reason maxFailures)).chunks.rows :=
      IngestionDb.chunk_written rfl hr rfl
    have hstatus := h row hr (by rw [hrow]; rfl) _ hw rfl
    have hfailed : (IngestionRepository.failedOnce reason maxFailures row).status = .failed :=
      if_pos hge
    rw [hfailed, hrow] at hstatus
    cases hstatus
  · rename_i chunk batch hs
    rintro row hr rfl hseen hge hrow
    rw [IngestionWorld.stored_of_issued hs] at h
    have hw : IngestionRepository.checkpointed batch (IngestionDb.storedBy batch) row ∈
        (w.db.execute (.commit row.chunk batch)).chunks.rows :=
      IngestionDb.chunk_written rfl hr (decide_eq_true hseen)
    have hstatus := h row hr (by rw [hrow]; rfl) _ hw rfl
    have hdone : (IngestionRepository.checkpointed batch (IngestionDb.storedBy batch) row).status =
        .done := if_pos hge
    rw [hdone, hrow] at hstatus
    cases hstatus
  · trivial

theorem Registered.doneAtEnd (h : Registered w) : DoneAtEnd w.db := by
  intro row hr
  have hlt := (h.chunks row hr).1
  have hn := h.next hr
  have hstatus : row.status = .pending := by
    rw [(h.chunks row hr).2]
    rfl
  rw [hstatus]
  constructor
  · intro hp
    cases hp
  · intro hge
    omega

end

/-- Along a run, the statuses keep their law exactly as far as no write comes late. -/
theorem status_law_iff (h : Registered w) (c : ProcessChunkCommand) (es : List IngestionEvent) :
    Along (IngestionWorld.step c) (StatusLaw c) w es ↔
      Along (IngestionWorld.step c) (LateWriteSpared c) w es := by
  apply along_congr (I := fun w => Bounded w ∧ DoneAtEnd w.db)
  · intro w e hi hc
    exact ⟨hi.1.step c e, doneAtEnd_step hi.1 hi.2 hc⟩
  · intro w e hi
    constructor
    · intro hl
      exact lateWriteSpared_of_law hl.2.1
    · intro hc
      exact ⟨doneAtEnd_step hi.1 hi.2 hc, absorbing_step hi.1 hi.2 hc, failedUnfinished_step hi.2⟩
  · exact ⟨h.bounded, h.doneAtEnd⟩

/-- Two attempts fail before they begin. The third imports every row, and then its refresh of the
counters throws: the chunk turns from `done` to `failed`, and the job is `failed` with it. -/
theorem finished_import_fails :
    Registered scarfImport ∧
      ¬ Along (IngestionWorld.step scarfCommand) (StatusLaw scarfCommand) scarfImport
        (scarfFailure ++ scarfFailure ++ scarfAttempt ++ scarfLateFailure) ∧
      ((run (IngestionWorld.step scarfCommand) scarfImport
          (scarfFailure ++ scarfFailure ++ scarfAttempt)).db.chunks.rows.map fun row =>
            (row.status, row.nextOffset, row.rowsProcessed)) = [(.done, 120, 2)] ∧
      ((run (IngestionWorld.step scarfCommand) scarfImport
          (scarfFailure ++ scarfFailure ++ scarfAttempt ++ scarfLateFailure)).db.chunks.rows.map
            fun row => (row.status, row.nextOffset, row.rowsProcessed)) = [(.failed, 120, 2)] ∧
      ((run (IngestionWorld.step scarfCommand) scarfImport
          (scarfFailure ++ scarfFailure ++ scarfAttempt ++ scarfLateFailure)).db.jobs.rows.map
            JobRow.status) = [.failed] := by
  refine ⟨scarfImport_registered, ?_, ?_, ?_, ?_⟩
  · intro h
    have hlast := (along_append scarfImport
      (scarfFailure ++ scarfFailure ++ scarfAttempt) scarfLateFailure).1 h
    have hrecorded := hlast.2.2.1
    have hn : ¬ DoneAtEnd (run (IngestionWorld.step scarfCommand) scarfImport
        (scarfFailure ++ scarfFailure ++ scarfAttempt ++ scarfLateFailure.take 2)).db := by
      decide +kernel
    exact hn hrecorded.1
  · decide +kernel
  · decide +kernel
  · decide +kernel

theorem status_law_iff_scarfImport :
    Along (IngestionWorld.step scarfCommand) (StatusLaw scarfCommand) scarfImport
        (scarfFailure ++ scarfAttempt) ↔
      Along (IngestionWorld.step scarfCommand) (LateWriteSpared scarfCommand) scarfImport
        (scarfFailure ++ scarfAttempt) :=
  status_law_iff scarfImport_registered scarfCommand (scarfFailure ++ scarfAttempt)

end PromotionManagement
