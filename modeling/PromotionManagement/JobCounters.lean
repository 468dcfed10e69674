import PromotionManagement.ChunkBounds
import PromotionManagement.Library.Run

namespace PromotionManagement
open Library
set_option autoImplicit true

/-- The batches of a job committed since its counters were last refreshed, with the number of
products each stored. -/
def unreportedFrom (jobId : Nat) (unreported : List (Batch × Nat)) :
    IngestionLog → List (Batch × Nat)
  | .committed chunk batch stored =>
    if chunk.jobId = jobId then unreported ++ [(batch, stored)] else unreported
  | .refreshed refreshedId => if refreshedId = jobId then [] else unreported

def unreported (jobId : Nat) (log : List IngestionLog) : List (Batch × Nat) :=
  log.foldl (unreportedFrom jobId) []

theorem unreported_snoc (jobId : Nat) (log : List IngestionLog) (entry : IngestionLog) :
    unreported jobId (log ++ [entry]) = unreportedFrom jobId (unreported jobId log) entry := by
  rw [unreported, List.foldl_append]
  rfl

/-- The counters of a job are those of its chunks. -/
def CountersExact (db : IngestionDb) (job : JobRow) : Prop :=
  job.chunksDone = db.chunksDone job.id ∧ job.rowsProcessed = db.rowsProcessed job.id ∧
    job.rowsRejected = db.rowsRejected job.id

/-- A job that leaves `running` has exact counters. -/
def LeavesExact (db db' : IngestionDb) : Prop :=
  ∀ job ∈ db.jobs.rows, job.status = .running →
    ∀ job' ∈ db'.jobs.rows, job'.id = job.id → job'.status ≠ .running → CountersExact db' job'

/-- The counters of a job that has left `running` do not change. -/
def FinalKept (db db' : IngestionDb) : Prop :=
  ∀ job ∈ db.jobs.rows, job.status ≠ .running → ∀ job' ∈ db'.jobs.rows, job'.id = job.id →
    job'.chunksDone = job.chunksDone ∧ job'.rowsProcessed = job.rowsProcessed ∧
      job'.rowsRejected = job.rowsRejected

def CounterLaw (c : ProcessChunkCommand) (w : IngestionWorld) (e : IngestionEvent) : Prop :=
  LeavesExact w.db (w.step c e).db ∧ FinalKept w.db (w.step c e).db

/-- When a running job is given up, none of its batches has committed since its last refresh. -/
def RefreshedFirst (c : ProcessChunkCommand) (w : IngestionWorld) (e : IngestionEvent) : Prop :=
  match w.issued c e with
  | some (.failJobIfExhausted jobId) =>
    ∀ job ∈ w.db.jobs.rows, job.id = jobId → job.status = .running → w.db.exhausted jobId →
      unreported jobId w.db.log = []
  | _ => True

/-- The two counters of a job that are sums over its chunks. -/
inductive Counter where
  | processed
  | rejected

namespace Counter

def ofJob : Counter → JobRow → Nat
  | .processed => JobRow.rowsProcessed
  | .rejected => JobRow.rowsRejected

def ofChunk : Counter → ChunkRow → Nat
  | .processed => ChunkRow.rowsProcessed
  | .rejected => ChunkRow.rowsRejected

/-- What a batch adds to the counter, with the number of products it stored. -/
def ofBatch : Counter → Batch × Nat → Nat
  | .processed => fun b => b.2
  | .rejected => fun b => b.1.rejected

def total (k : Counter) (db : IngestionDb) (jobId : Nat) : Nat :=
  db.chunks.sum (fun row => row.chunk.jobId = jobId) k.ofChunk

end Counter

/-- The counters of a running job miss just what is unreported, and every batch counts. -/
structure Reported (db : IngestionDb) : Prop where
  sums : ∀ k : Counter, ∀ job ∈ db.jobs.rows, job.status = .running →
    k.ofJob job + ((unreported job.id db.log).map k.ofBatch).sum = k.total db job.id
  counts : ∀ jobId, ∀ b ∈ unreported jobId db.log, b.2 + b.1.rejected ≠ 0

section
variable {c : ProcessChunkCommand} {row : ChunkRow} {w : IngestionWorld} {e : IngestionEvent}
  {db db' : IngestionDb}

/-- A statement that commits no batch leaves the sums over the chunks. -/
theorem Counter.total_kept (k : Counter) (h : ∀ chunk batch, s ≠ .commit chunk batch)
    (jobId : Nat) : k.total (db.execute s) jobId = k.total db jobId := by
  have hsame (chunk : ChunkProcess) (guard : ChunkRow → Bool) (set : ChunkRow → ChunkRow)
      (hset : ∀ r, (set r).chunk = r.chunk) (hk : ∀ r, k.ofChunk (set r) = k.ofChunk r) :
      (db.chunks.update chunk guard set hset).sum (fun row => row.chunk.jobId = jobId) k.ofChunk =
        k.total db jobId := by
    apply Table.sum_update_same
    intro r
    rw [hset r]
    exact ⟨rfl, hk r⟩
  cases s with
  | commit chunk batch => exact absurd rfl (h chunk batch)
  | claimChunk chunk leaseMs =>
    apply hsame _ _ _ (IngestionRepository.claimed_chunk db.now leaseMs)
    intro r
    cases k <;> rfl
  | releaseChunk chunk leaseUntil =>
    apply hsame _ _ _ IngestionRepository.released_chunk
    intro r
    cases k <;> rfl
  | recordChunkFailure chunk reason maxFailures =>
    apply hsame _ _ _ (IngestionRepository.failedOnce_chunk reason maxFailures)
    intro r
    cases k <;> rfl
  | _ => rfl

/-- A committed batch adds to the sums of its job what it stored and what it rejected. -/
theorem Counter.total_commit (k : Counter) (hr : row ∈ db.chunks.rows)
    (hs : row.nextOffset = batch.seenOffset) (jobId : Nat) :
    k.total (db.execute (.commit row.chunk batch)) jobId = k.total db jobId +
      if row.chunk.jobId = jobId then k.ofBatch (batch, IngestionDb.storedBy batch) else 0 := by
  have hsum : (db.chunks.update row.chunk (IngestionDb.seen batch)
      (IngestionRepository.checkpointed batch (IngestionDb.storedBy batch))
      (IngestionRepository.checkpointed_chunk batch (IngestionDb.storedBy batch))).sum
        (fun row => row.chunk.jobId = jobId) k.ofChunk =
      k.total db jobId + if decide (row.chunk.jobId = jobId) then
        k.ofBatch (batch, IngestionDb.storedBy batch) else 0 := by
    apply Table.sum_update_add _ hr (decide_eq_true hs)
    · rfl
    · cases k <;> rfl
  simp only [decide_eq_true_eq] at hsum
  change (db.commit row.chunk batch).1.chunks.sum _ _ = _
  rw [(IngestionDb.commit_seen hr hs).1]
  exact hsum

/-- The counters are reported as before when no batch, no refresh and no counter comes between. -/
theorem Reported.of_same (h : Reported db) (hlog : db'.log = db.log)
    (hsum : ∀ (k : Counter) jobId, k.total db' jobId = k.total db jobId)
    (hjobs : ∀ job' ∈ db'.jobs.rows, job'.status = .running → ∃ job ∈ db.jobs.rows,
      job.status = .running ∧ job'.id = job.id ∧ ∀ k : Counter, k.ofJob job' = k.ofJob job) :
    Reported db' := by
  constructor
  · intro k job' hj' hr'
    obtain ⟨job, hj, hr, hid, hk⟩ := hjobs job' hj' hr'
    rw [hlog, hsum k, hid, hk k]
    exact h.sums k job hj hr
  · rw [hlog]
    exact h.counts

/-- A committed batch joins the unreported ones of its job. -/
theorem Reported.commit (h : Reported db) (hr : row ∈ db.chunks.rows)
    (hs : row.nextOffset = batch.seenOffset)
    (hcount : IngestionDb.storedBy batch + batch.rejected ≠ 0) :
    Reported (db.execute (.commit row.chunk batch)) := by
  have hjobs : (db.execute (.commit row.chunk batch)).jobs = db.jobs := db.commit_jobs _ _
  have hlog : (db.execute (.commit row.chunk batch)).log =
      db.log ++ [.committed row.chunk batch (IngestionDb.storedBy batch)] :=
    (IngestionDb.commit_seen hr hs).2
  constructor
  · intro k job hj hrun
    rw [hjobs] at hj
    rw [k.total_commit hr hs, hlog, unreported_snoc, unreportedFrom, ← h.sums k job hj hrun]
    split
    · rw [List.map_append, List.sum_append, List.map_cons, List.map_nil, List.sum_singleton,
        Nat.add_assoc]
    · rfl
  · intro jobId b hm
    rw [hlog, unreported_snoc, unreportedFrom] at hm
    split at hm
    · rw [List.mem_append, List.mem_singleton] at hm
      rcases hm with hm | rfl
      · exact h.counts jobId b hm
      · exact hcount
    · exact h.counts jobId b hm

/-- A refresh reports all that its job has. -/
theorem Reported.refresh (h : Reported db) (jobId : Nat) :
    Reported (db.execute (.refreshJobProgress jobId)) := by
  have hlog : (db.execute (.refreshJobProgress jobId)).log = db.log ++ [.refreshed jobId] := rfl
  have hjobs : (db.execute (.refreshJobProgress jobId)).jobs = db.jobs.update jobId
      (fun job => job.status = .running) db.refreshed db.refreshed_id := rfl
  constructor
  · intro k job' hj' hr'
    rw [hjobs] at hj'
    obtain ⟨job, hj, rfl⟩ := Table.mem_update.1 hj'
    rw [hlog, unreported_snoc, unreportedFrom]
    split
    · rename_i hg
      have hid : jobId = (db.refreshed job).id := hg.1.symm
      rw [if_pos hid]
      cases k <;> rfl
    · rename_i hg
      rw [if_neg hg] at hr'
      have hn : jobId ≠ job.id := fun he => hg ⟨he.symm, decide_eq_true hr'⟩
      rw [if_neg hn]
      exact h.sums k job hj hr'
  · intro jobId' b hm
    rw [hlog, unreported_snoc, unreportedFrom] at hm
    split at hm
    · cases hm
    · exact h.counts jobId' b hm

/-- A statement that neither commits nor refreshes leaves a running job its counters. -/
theorem running_kept (hm : JobMove db s job job') (hs : ∀ jobId, s ≠ .refreshJobProgress jobId)
    (hr : job'.status = .running) :
    job.status = .running ∧ ∀ k : Counter, k.ofJob job' = k.ofJob job := by
  cases hm with
  | kept => exact ⟨hr, fun _ => rfl⟩
  | refreshed _ => exact absurd rfl (hs _)
  | erred => exact ⟨hr, fun k => by cases k <;> rfl⟩
  | failed _ _ => cases hr
  | completed _ _ => cases hr

theorem Reported.execute (h : Reported db) (s : Statement)
    (hcount : ∀ chunk batch, s = .commit chunk batch →
      IngestionDb.storedBy batch + batch.rejected ≠ 0) : Reported (db.execute s) := by
  have hother (hc : ∀ chunk batch, s ≠ .commit chunk batch)
      (hr : ∀ jobId, s ≠ .refreshJobProgress jobId) (hlog : (db.execute s).log = db.log) :
      Reported (db.execute s) := by
    apply h.of_same hlog
    · intro k jobId
      exact k.total_kept hc jobId
    · intro job' hj' hrun
      obtain ⟨job, hj, hm⟩ := IngestionDb.job_after hj'
      obtain ⟨hstatus, hk⟩ := running_kept hm hr hrun
      exact ⟨job, hj, hstatus, hm.id, hk⟩
  cases s with
  | commit chunk batch =>
    cases hu : db.chunks.updated chunk (IngestionDb.seen batch)
        (IngestionRepository.checkpointed batch (IngestionDb.storedBy batch)) with
    | none =>
      obtain ⟨_, hchunks, hjobs, hlog⟩ := IngestionDb.commit_refused hu
      apply h.of_same hlog
      · intro k jobId
        change (db.commit chunk batch).1.chunks.sum _ _ = _
        rw [hchunks]
        rfl
      · intro job hj hr
        change job ∈ (db.commit chunk batch).1.jobs.rows at hj
        rw [hjobs] at hj
        exact ⟨job, hj, hr, rfl, fun _ => rfl⟩
    | some row' =>
      obtain ⟨row, hf, hg, _⟩ := Table.updated_eq_some.1 hu
      have hk := Table.find_some_key hf
      subst hk
      exact h.commit (Table.find_some_mem hf) (of_decide_eq_true hg) (hcount _ batch rfl)
  | refreshJobProgress jobId => exact h.refresh jobId
  | claimChunk chunk leaseMs =>
    exact hother (fun _ _ => Statement.noConfusion) (fun _ => Statement.noConfusion) rfl
  | releaseChunk chunk leaseUntil =>
    exact hother (fun _ _ => Statement.noConfusion) (fun _ => Statement.noConfusion) rfl
  | recordChunkFailure chunk reason maxFailures =>
    exact hother (fun _ _ => Statement.noConfusion) (fun _ => Statement.noConfusion) rfl
  | recordJobFailure jobId reason =>
    exact hother (fun _ _ => Statement.noConfusion) (fun _ => Statement.noConfusion) rfl
  | failJobIfExhausted jobId =>
    exact hother (fun _ _ => Statement.noConfusion) (fun _ => Statement.noConfusion) rfl
  | completeJobIfDone jobId =>
    exact hother (fun _ _ => Statement.noConfusion) (fun _ => Statement.noConfusion) rfl

theorem storedBy_ne_zero (h : batch.rows ≠ []) : IngestionDb.storedBy batch ≠ 0 := by
  obtain ⟨u, rows, hu⟩ := List.exists_cons_of_ne_nil h
  have hm : u ∈ batch.rows := hu ▸ List.mem_cons_self
  intro hz
  have hnone : Products.candidate batch.rows u.sku = none := by
    rw [Products.candidate, Table.find]
    rw [IngestionDb.storedBy, Products.distinctSkus] at hz
    rw [List.eq_nil_of_length_eq_zero hz]
    rfl
  exact Products.candidate_none hnone hm rfl

theorem Reported.step (h : Reported w.db) (hb : Bounded w) (c : ProcessChunkCommand)
    (e : IngestionEvent) : Reported (w.step c e).db := by
  cases hs : w.issued c e with
  | none =>
    rw [IngestionWorld.stored_of_none hs]
    exact ⟨h.sums, h.counts⟩
  | some s =>
    rw [IngestionWorld.stored_of_issued hs]
    apply h.execute
    rintro chunk batch rfl
    have hcount := (hb.commit hs).1
    intro hz
    have hrows : batch.rows = [] := by
      by_contra hne
      exact storedBy_ne_zero hne (by omega)
    rw [hrows] at hcount
    simp only [List.length_nil] at hcount
    omega

/-- The sums of the unreported batches vanish only when there are none. -/
theorem Reported.unreported_eq_nil (h : Reported db)
    (hs : ∀ k : Counter, ((unreported jobId db.log).map k.ofBatch).sum = 0) :
    unreported jobId db.log = [] := by
  have hcounts := h.counts jobId
  have hp := hs .processed
  have hr := hs .rejected
  cases hu : unreported jobId db.log with
  | nil => rfl
  | cons b rest =>
    rw [hu, List.map_cons, List.sum_cons] at hp hr
    have hb := hcounts b (hu ▸ List.mem_cons_self)
    have hp₀ : b.2 = 0 := (Nat.add_eq_zero_iff.1 hp).1
    have hr₀ : b.1.rejected = 0 := (Nat.add_eq_zero_iff.1 hr).1
    exact absurd (Nat.add_eq_zero_iff.2 ⟨hp₀, hr₀⟩) hb

/-- The statement that gives a job up leaves its counters as they were, but for `chunksDone`. -/
theorem leavesExact_failed (h : Reported db) (hj : job ∈ db.jobs.rows)
    (hr : job.status = .running) :
    CountersExact db (db.failed job) ↔ unreported job.id db.log = [] := by
  have hexact : CountersExact db (db.failed job) ↔
      ∀ k : Counter, k.ofJob job = k.total db job.id := by
    constructor
    · rintro ⟨_, hp, hrej⟩ k
      cases k
      · exact hp
      · exact hrej
    · intro hk
      exact ⟨rfl, hk .processed, hk .rejected⟩
  rw [hexact]
  constructor
  · intro hk
    apply h.unreported_eq_nil
    intro k
    have hsum := h.sums k job hj hr
    rw [hk k] at hsum
    exact Nat.add_eq_left.1 hsum
  · intro hu k
    have hsum := h.sums k job hj hr
    rw [hu] at hsum
    exact hsum

theorem job_origin (hj : job ∈ w.db.jobs.rows) (hj' : job' ∈ (w.step c e).db.jobs.rows)
    (hid : job'.id = job.id) : job' = job ∨
      ∃ s, w.issued c e = some s ∧ JobMove w.db s job job' := by
  rcases IngestionWorld.job_after hj' with hj₀ | ⟨s, hs, job₀, hj₀, hm⟩
  · exact .inl (w.db.jobs.eq_of_key hj₀ hj hid)
  · have he := w.db.jobs.eq_of_key hj₀ hj (hm.id.symm.trans hid)
    subst he
    exact .inr ⟨s, hs, hm⟩

theorem leavesExact_step (h : Reported w.db) (hc : RefreshedFirst c w e) :
    LeavesExact w.db (w.step c e).db := by
  intro job hj hr job' hj' hid hr'
  rcases job_origin hj hj' hid with rfl | ⟨s, hs, hm⟩
  · exact absurd hr hr'
  · rw [IngestionWorld.stored_of_issued hs]
    rw [RefreshedFirst, hs] at hc
    cases hm with
    | kept => exact absurd hr hr'
    | refreshed _ => exact absurd hr hr'
    | erred => exact absurd hr hr'
    | failed _ hx => exact (leavesExact_failed h hj hr).2 (hc job hj rfl hr hx)
    | completed _ _ => exact ⟨rfl, rfl, rfl⟩

theorem finalKept_step : FinalKept w.db (w.step c e).db := by
  intro job hj hr job' hj' hid
  rcases job_origin hj hj' hid with rfl | ⟨s, hs, hm⟩
  · exact ⟨rfl, rfl, rfl⟩
  · cases hm with
    | kept => exact ⟨rfl, rfl, rfl⟩
    | refreshed h => exact absurd h hr
    | erred => exact ⟨rfl, rfl, rfl⟩
    | failed h _ => exact absurd h hr
    | completed h _ => exact absurd h hr

/-- A job given up with batches unreported leaves `running` with counters that miss them. -/
theorem refreshedFirst_of_law (h : Reported w.db) (hl : LeavesExact w.db (w.step c e).db) :
    RefreshedFirst c w e := by
  rw [RefreshedFirst]
  split
  · rename_i jobId hs
    rintro job hj rfl hr hx
    rw [IngestionWorld.stored_of_issued hs] at hl
    have hg : (decide (job.status = .running) && w.db.exhausted job.id) = true := by
      rw [hx, Bool.and_true]
      exact decide_eq_true hr
    have hj' : w.db.failed job ∈ (w.db.jobs.update job.id
        (fun row => row.status = .running && w.db.exhausted job.id) w.db.failed
        w.db.failed_id).rows := Table.set_mem_update hj rfl hg
    have hexact := hl job hj hr _ hj' rfl IngestionStatus.noConfusion
    exact (leavesExact_failed h hj hr).1 hexact
  · trivial

theorem Registered.reported (h : Registered w) : Reported w.db := by
  have hunreported (jobId : Nat) : unreported jobId w.db.log = [] := by
    rw [h.log]
    rfl
  constructor
  · intro k job hj _
    have hz : k.total w.db job.id = 0 := by
      apply List.sum_eq_zero
      intro n hn
      obtain ⟨row, hr, rfl⟩ := List.mem_map.1 hn
      rw [(h.chunks row (List.mem_of_mem_filter hr)).2]
      cases k <;> rfl
    rw [hunreported, hz, h.jobs job hj]
    cases k <;> rfl
  · intro jobId b hb
    rw [hunreported] at hb
    cases hb

end

/-- An attempt whose first row is committed on its own, and whose reader then fails. -/
def scarfHalfAttempt : List IngestionEvent :=
  [.deliver 0 ⟨1, 0⟩, .step 0, .step 0, .compiled 0 commissionCalculator, .step 0, .step 0,
    .published 0 true false, .fail 0 "EIO: i/o error, read".toList false, .step 0, .step 0]

def scarfOneByOne : ProcessChunkCommand := { scarfCommand with batchSize := 1 }

instance (db : IngestionDb) (job : JobRow) : Decidable (CountersExact db job) :=
  inferInstanceAs (Decidable (_ ∧ _ ∧ _))

end PromotionManagement
