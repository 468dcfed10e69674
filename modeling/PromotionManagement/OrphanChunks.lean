import PromotionManagement.IngestionRepository
import Mathlib.Data.List.Sort

namespace PromotionManagement
open Library
set_option autoImplicit true

namespace OrphanChunkRepository

/-- A run repairs at most this many chunks. -/
def limit : Nat := 1000

/-- `now() - make_interval(secs => graceMs / 1000)` -/
def staleBefore (now : Int) (graceMs : Nat) : Int := now - graceMs * 1000

/-- The `where` of `orphaned`, over a chunk joined with its job. -/
def abandoned (now : Int) (graceMs : Nat) (chunk : ChunkRow) (job : JobRow) : Bool :=
  job.status = .running && job.updatedAt < staleBefore now graceMs &&
    (chunk.status = .pending ||
      (chunk.status = .running &&
        chunk.leaseUntil.all fun lease => lease < staleBefore now graceMs))

/-- `order by c.job_id, c.chunk_index` -/
def precedes (a b : ChunkProcess) : Bool :=
  a.jobId < b.jobId || (a.jobId = b.jobId && a.chunkIndex ≤ b.chunkIndex)

/-- The rows of `orphaned` before its `limit`. -/
def selected (db : IngestionDb) (graceMs : Nat) : List ChunkProcess :=
  ((db.chunks.rows.filter fun chunk =>
    (db.jobs.find chunk.chunk.jobId).any (abandoned db.now graceMs chunk)).map
      ChunkRow.chunk).mergeSort precedes

def orphaned (db : IngestionDb) (graceMs : Nat) : List ChunkProcess :=
  (selected db graceMs).take limit

/-- `select id from ingestion_jobs where status = 'running' order by id` -/
def runningJobIds (db : IngestionDb) : List Nat :=
  ((db.jobs.rows.filter fun job => job.status = .running).map JobRow.id).mergeSort

end OrphanChunkRepository

namespace IngestionDb

/-- Whether `completeJobIfDone` answers that it completed the job. -/
def completes (db : IngestionDb) (jobId : Nat) : Bool :=
  (db.jobs.updated jobId (fun job => job.status = .running && db.allDone jobId)
    db.completed).isSome

/-- Whether `failJobIfExhausted` answers that it failed the job. -/
def fails (db : IngestionDb) (jobId : Nat) : Bool :=
  (db.jobs.updated jobId (fun job => job.status = .running && db.exhausted jobId) db.failed).isSome

end IngestionDb

namespace SweepOrphanChunksCommand

/-- The jobs of the settlement loop that were completed and those that were failed. -/
structure Settled where
  settled : List Nat
  givenUp : List Nat
deriving DecidableEq

/-- One turn of the settlement loop, whose two statements run at the given instants. -/
def settleJob (instants : Int × Int) (db : IngestionDb) (out : Settled) (jobId : Nat) :
    IngestionDb × Settled :=
  let db₁ := { db with now := instants.1 }
  if db₁.completes jobId then
    (db₁.completeJobIfDone jobId, { out with settled := out.settled ++ [jobId] })
  else
    let db₂ := { db₁.completeJobIfDone jobId with now := instants.2 }
    if db₂.fails jobId then
      (db₂.failJobIfExhausted jobId, { out with givenUp := out.givenUp ++ [jobId] })
    else (db₂.failJobIfExhausted jobId, out)

/-- The settlement loop; `clock` tells when the statements about a job run. -/
def settle (clock : Nat → Int × Int) (db : IngestionDb) (out : Settled) :
    List Nat → IngestionDb × Settled
  | [] => (db, out)
  | jobId :: jobIds =>
    let (db, out) := settleJob (clock jobId) db out jobId
    settle clock db out jobIds

/-- What a sweep leaves, logs and announces. -/
structure Sweep where
  db : IngestionDb
  settled : Settled
  orphans : List ChunkProcess
  enqueued : List ChunkProcess

/-- `published` tells which `publish` calls succeed; the others are logged and left to the next
sweep. -/
def execute (graceMs : Nat) (clock : Nat → Int × Int) (selectedAt : Int)
    (published : ChunkProcess → Bool) (db : IngestionDb) : Sweep :=
  let (db, settled) := settle clock db ⟨[], []⟩ (OrphanChunkRepository.runningJobIds db)
  let db := { db with now := selectedAt }
  let orphans := OrphanChunkRepository.orphaned db graceMs
  ⟨db, settled, orphans, orphans.filter published⟩

end SweepOrphanChunksCommand

/-- What the settlement loop makes of the status of a job. -/
def IngestionDb.settlement (db : IngestionDb) (job : JobRow) : IngestionStatus :=
  if job.status = .running then
    if db.allDone job.id then .completed else if db.exhausted job.id then .failed else .running
  else job.status

namespace SweepOrphanChunksCommand
open IngestionDb

theorem completes_iff (h : db.jobs.find jobId = some job) :
    IngestionDb.completes db jobId = true ↔ job.status = .running ∧ db.allDone jobId = true := by
  rw [completes, Table.updated_isSome_iff h, Bool.and_eq_true, decide_eq_true_eq]

theorem fails_iff (h : db.jobs.find jobId = some job) :
    IngestionDb.fails db jobId = true ↔ job.status = .running ∧ db.exhausted jobId = true := by
  rw [fails, Table.updated_isSome_iff h, Bool.and_eq_true, decide_eq_true_eq]

theorem completeJobIfDone_eq (h : IngestionDb.completes db jobId = false) :
    db.completeJobIfDone jobId = db := by
  rw [completeJobIfDone, Table.update_of_updated_none]
  exact Option.isSome_eq_false_iff.1 h |> Option.isNone_iff_eq_none.1

theorem failJobIfExhausted_eq (h : IngestionDb.fails db jobId = false) :
    db.failJobIfExhausted jobId = db := by
  rw [failJobIfExhausted, Table.update_of_updated_none]
  exact Option.isSome_eq_false_iff.1 h |> Option.isNone_iff_eq_none.1

theorem find_completeJobIfDone (db : IngestionDb) (jobId id : Nat) :
    (db.completeJobIfDone jobId).jobs.find id =
      if id = jobId then (db.jobs.find id).map fun job =>
        if job.status = .running && db.allDone jobId then db.completed job else job
      else db.jobs.find id :=
  Table.find_update _ _ _ _ _ db.completed_id

theorem find_failJobIfExhausted (db : IngestionDb) (jobId id : Nat) :
    (db.failJobIfExhausted jobId).jobs.find id =
      if id = jobId then (db.jobs.find id).map fun job =>
        if job.status = .running && db.exhausted jobId then db.failed job else job
      else db.jobs.find id :=
  Table.find_update _ _ _ _ _ db.failed_id

theorem find_completed (hc : IngestionDb.completes db jobId = true)
    (h : db.jobs.find jobId = some job) :
    (db.completeJobIfDone jobId).jobs.find jobId = some (db.completed job) := by
  obtain ⟨hrunning, hall⟩ := (completes_iff h).1 hc
  have hguard : (job.status = .running && db.allDone jobId) = true := by
    rw [hrunning, hall]
    rfl
  rw [find_completeJobIfDone, if_pos rfl, h, Option.map_some, if_pos hguard]

theorem find_failed (hf : IngestionDb.fails db jobId = true)
    (h : db.jobs.find jobId = some job) :
    (db.failJobIfExhausted jobId).jobs.find jobId = some (db.failed job) := by
  obtain ⟨hrunning, hex⟩ := (fails_iff h).1 hf
  have hguard : (job.status = .running && db.exhausted jobId) = true := by
    rw [hrunning, hex]
    rfl
  rw [find_failJobIfExhausted, if_pos rfl, h, Option.map_some, if_pos hguard]

/-- One turn writes the row of its job only, and gives it the status of its settlement. -/
theorem settleJob_spec (instants : Int × Int) (db : IngestionDb) (out : Settled) (jobId : Nat) :
    (settleJob instants db out jobId).1.chunks = db.chunks ∧
      (∀ id, id ≠ jobId → (settleJob instants db out jobId).1.jobs.find id = db.jobs.find id) ∧
      ∀ job, db.jobs.find jobId = some job →
        ∃ job', (settleJob instants db out jobId).1.jobs.find jobId = some job' ∧
          job'.status = db.settlement job := by
  obtain ⟨db₁, hdb₁⟩ : ∃ db₁, db₁ = { db with now := instants.1 } := ⟨_, rfl⟩
  have hfind (job : JobRow) (h : db.jobs.find jobId = some job) : db₁.jobs.find jobId = some job :=
    hdb₁ ▸ h
  have hdone : db₁.allDone jobId = db.allDone jobId := hdb₁ ▸ rfl
  rw [settleJob, ← hdb₁]
  dsimp only
  cases hc : db₁.completes jobId with
  | true =>
    rw [if_pos rfl]
    refine ⟨hdb₁ ▸ rfl, ?_, ?_⟩
    · intro id hid
      rw [find_completeJobIfDone, if_neg hid, hdb₁]
    · intro job hjob
      obtain ⟨hrunning, hall⟩ := (completes_iff (hfind job hjob)).1 hc
      refine ⟨db₁.completed job, find_completed hc (hfind job hjob), ?_⟩
      rw [settlement, if_pos hrunning, Table.find_some_key hjob, ← hdone, if_pos hall]
      rfl
  | false =>
    rw [if_neg Bool.false_ne_true, completeJobIfDone_eq hc, hdb₁]
    obtain ⟨db₂, hdb₂⟩ : ∃ db₂, db₂ = { db with now := instants.2 } := ⟨_, rfl⟩
    have hfind₂ (job : JobRow) (h : db.jobs.find jobId = some job) :
        db₂.jobs.find jobId = some job := hdb₂ ▸ h
    have hexhausted : db₂.exhausted jobId = db.exhausted jobId := hdb₂ ▸ rfl
    have hnot (job : JobRow) (h : db.jobs.find jobId = some job) (hr : job.status = .running) :
        ¬db.allDone jobId = true := by
      intro hall
      rw [← hdone] at hall
      rw [(completes_iff (hfind job h)).2 ⟨hr, hall⟩] at hc
      cases hc
    dsimp only
    rw [← hdb₂]
    cases hf : db₂.fails jobId with
    | true =>
      rw [if_pos rfl]
      refine ⟨hdb₂ ▸ rfl, ?_, ?_⟩
      · intro id hid
        rw [find_failJobIfExhausted, if_neg hid, hdb₂]
      · intro job hjob
        obtain ⟨hrunning, hex⟩ := (fails_iff (hfind₂ job hjob)).1 hf
        refine ⟨db₂.failed job, find_failed hf (hfind₂ job hjob), ?_⟩
        rw [settlement, if_pos hrunning, Table.find_some_key hjob, if_neg (hnot job hjob hrunning),
          ← hexhausted, if_pos hex]
        rfl
    | false =>
      rw [if_neg Bool.false_ne_true, failJobIfExhausted_eq hf]
      refine ⟨hdb₂ ▸ rfl, fun id _ => hdb₂ ▸ rfl, ?_⟩
      intro job hjob
      refine ⟨job, hfind₂ job hjob, ?_⟩
      rw [settlement, Table.find_some_key hjob]
      by_cases hr : job.status = .running
      · have hex : ¬db.exhausted jobId = true := by
          intro hex
          rw [← hexhausted] at hex
          rw [(fails_iff (hfind₂ job hjob)).2 ⟨hr, hex⟩] at hf
          cases hf
        rw [if_pos hr, if_neg (hnot job hjob hr), if_neg hex, hr]
      · rw [if_neg hr]

theorem settlement_eq {db db' : IngestionDb} (h : db'.chunks = db.chunks) (job : JobRow) :
    db'.settlement job = db.settlement job := by
  have hdone : db'.allDone job.id = db.allDone job.id := by
    rw [allDone, allDone, chunksOf, chunksOf, h]
  have hexhausted : db'.exhausted job.id = db.exhausted job.id := by
    rw [exhausted, exhausted, chunksOf, chunksOf, h]
  rw [settlement, settlement, hdone, hexhausted]

theorem settlement_again {db db' : IngestionDb} (hc : db'.chunks = db.chunks)
    (hid : job'.id = job.id) (hs : job'.status = db.settlement job) :
    db'.settlement job' = db.settlement job := by
  rw [settlement_eq hc, settlement]
  split
  · rename_i hr
    rw [hr, settlement] at hs
    rw [hid, settlement]
    split at hs
    · rename_i hr'
      rw [if_pos hr']
    · rename_i hr'
      exact absurd hs.symm hr'
  · exact hs

/-- The loop leaves each job it names with the status of its settlement. -/
theorem settle_spec (clock : Nat → Int × Int) (db : IngestionDb) (out : Settled)
    (jobIds : List Nat) :
    (settle clock db out jobIds).1.chunks = db.chunks ∧
      ∀ id job, db.jobs.find id = some job →
        ∃ job', (settle clock db out jobIds).1.jobs.find id = some job' ∧
          job'.status = if id ∈ jobIds then db.settlement job else job.status := by
  induction jobIds generalizing db out with
  | nil =>
    refine ⟨rfl, fun id job hjob => ⟨job, hjob, ?_⟩⟩
    rw [if_neg List.not_mem_nil]
  | cons jobId jobIds ih =>
    obtain ⟨hc, hne, hjob⟩ := settleJob_spec (clock jobId) db out jobId
    obtain ⟨hc', hrest⟩ := ih (settleJob (clock jobId) db out jobId).1
      (settleJob (clock jobId) db out jobId).2
    refine ⟨hc'.trans hc, ?_⟩
    intro id job hfind
    by_cases hid : id = jobId
    · subst hid
      obtain ⟨job₁, hfind₁, hs₁⟩ := hjob job hfind
      obtain ⟨job', hfind', hs'⟩ := hrest id job₁ hfind₁
      have hids : job₁.id = job.id :=
        (Table.find_some_key hfind₁).trans (Table.find_some_key hfind).symm
      refine ⟨job', hfind', ?_⟩
      rw [if_pos List.mem_cons_self, hs']
      split
      · exact settlement_again hc hids hs₁
      · exact hs₁
    · obtain ⟨job', hfind', hs'⟩ := hrest id job ((hne id hid).trans hfind)
      refine ⟨job', hfind', ?_⟩
      have hmem : id ∈ jobId :: jobIds ↔ id ∈ jobIds := by
        rw [List.mem_cons, or_iff_right hid]
      simp only [hs', hmem, settlement_eq hc]

/-- What the settlement means for the chunks of a running job. -/
theorem settlement_cases (db : IngestionDb) (hr : job.status = .running) :
    (db.settlement job = .completed ↔ ∀ chunk ∈ db.chunksOf job.id, chunk.status = .done) ∧
      (db.settlement job = .failed ↔
        (∀ chunk ∈ db.chunksOf job.id, chunk.status = .done ∨ chunk.status = .failed) ∧
          ∃ chunk ∈ db.chunksOf job.id, chunk.status = .failed) ∧
      (db.settlement job ≠ .completed → db.settlement job ≠ .failed →
        db.settlement job = .running ∧
          ∃ chunk ∈ db.chunksOf job.id, chunk.status = .pending ∨ chunk.status = .running) := by
  have hall : db.allDone job.id = true ↔
      ∀ chunk ∈ db.chunksOf job.id, chunk.status = .done := by
    simp only [allDone, List.all_eq_true, decide_eq_true_eq]
  have hexhausted : db.exhausted job.id = true ↔
      (∀ chunk ∈ db.chunksOf job.id, chunk.status = .done ∨ chunk.status = .failed) ∧
        ∃ chunk ∈ db.chunksOf job.id, chunk.status = .failed := by
    simp only [exhausted, Bool.and_eq_true, List.all_eq_true, List.any_eq_true, Bool.or_eq_true,
      decide_eq_true_eq]
  rw [← hall, ← hexhausted, settlement, if_pos hr]
  by_cases hdone : db.allDone job.id = true
  · have hnot : ¬db.exhausted job.id = true := by
      intro hex
      obtain ⟨chunk, hchunk, hfailed⟩ := (hexhausted.1 hex).2
      rw [hall.1 hdone chunk hchunk] at hfailed
      cases hfailed
    rw [if_pos hdone]
    exact ⟨iff_of_true rfl hdone, iff_of_false (fun h => nomatch h) hnot, fun h => absurd rfl h⟩
  · rw [if_neg hdone]
    by_cases hex : db.exhausted job.id = true
    · rw [if_pos hex]
      exact ⟨iff_of_false (fun h => nomatch h) hdone, iff_of_true rfl hex,
        fun _ h => absurd rfl h⟩
    · rw [if_neg hex]
      refine ⟨iff_of_false (fun h => nomatch h) hdone, iff_of_false (fun h => nomatch h) hex, ?_⟩
      intro _ _
      refine ⟨rfl, ?_⟩
      by_contra hnone
      have hended : ∀ chunk ∈ db.chunksOf job.id,
          chunk.status = .done ∨ chunk.status = .failed := by
        intro chunk hchunk
        cases hs : chunk.status with
        | pending => exact absurd ⟨chunk, hchunk, .inl hs⟩ hnone
        | running => exact absurd ⟨chunk, hchunk, .inr hs⟩ hnone
        | done => exact .inl rfl
        | failed => exact .inr rfl
      apply hdone
      rw [hall]
      intro chunk hchunk
      rcases hended chunk hchunk with hs | hs
      · exact hs
      · exact absurd (hexhausted.2 ⟨hended, chunk, hchunk, hs⟩) hex

end SweepOrphanChunksCommand

namespace OrphanChunkRepository

theorem abandoned_iff : abandoned now graceMs chunk job = true ↔
    job.status = .running ∧ job.updatedAt < staleBefore now graceMs ∧
      (chunk.status = .pending ∨ chunk.status = .running ∧
        ∀ lease, chunk.leaseUntil = some lease → lease < staleBefore now graceMs) := by
  simp only [abandoned, Bool.and_eq_true, Bool.or_eq_true, decide_eq_true_eq, Option.all_eq_true,
    and_assoc]

/-- The rows of `orphaned`, by the table. -/
theorem mem_selected {db : IngestionDb} : chunk ∈ selected db graceMs ↔
    ∃ row ∈ db.chunks.rows, row.chunk = chunk ∧
      ∃ job, db.jobs.find row.chunk.jobId = some job ∧ abandoned db.now graceMs row job = true := by
  simp only [selected, List.mem_mergeSort, List.mem_map, List.mem_filter, Option.any_eq_true]
  constructor
  · rintro ⟨row, ⟨hrow, hjob⟩, hchunk⟩
    exact ⟨row, hrow, hchunk, hjob⟩
  · rintro ⟨row, hrow, hchunk, hjob⟩
    exact ⟨row, ⟨hrow, hjob⟩, hchunk⟩

/-- Before another in job and chunk order. -/
def Before (a b : ChunkProcess) : Prop :=
  a.jobId < b.jobId ∨ a.jobId = b.jobId ∧ a.chunkIndex < b.chunkIndex

theorem precedes_iff {a b : ChunkProcess} : precedes a b = true ↔ Before a b ∨ a = b := by
  obtain ⟨i, k⟩ := a
  obtain ⟨j, l⟩ := b
  simp only [precedes, Before, Bool.or_eq_true, Bool.and_eq_true, decide_eq_true_eq,
    ChunkProcess.mk.injEq]
  omega

theorem selected_ordered (db : IngestionDb) (graceMs : Nat) :
    (selected db graceMs).Pairwise Before := by
  have hsorted : (selected db graceMs).Pairwise fun a b => precedes a b = true := by
    apply List.pairwise_mergeSort
    · intro a b c hab hbc
      simp only [precedes, Bool.or_eq_true, Bool.and_eq_true, decide_eq_true_eq] at hab hbc ⊢
      omega
    · intro a b
      simp only [precedes, Bool.or_eq_true, Bool.and_eq_true, decide_eq_true_eq]
      omega
  have hnodup : (selected db graceMs).Nodup := by
    rw [selected, List.Perm.nodup_iff (List.mergeSort_perm _ _)]
    exact db.chunks.unique.sublist (List.filter_sublist.map _)
  exact (hsorted.and hnodup).imp fun h => (precedes_iff.1 h.1).resolve_right h.2

/-- A chunk that is selected is one a worker can claim. -/
theorem claimChunk_of_mem_selected {db : IngestionDb} (h : chunk ∈ selected db graceMs)
    (leaseMs : Nat) : (db.claimChunk chunk leaseMs).2.isSome = true := by
  obtain ⟨row, hrow, rfl, job, _, hab⟩ := mem_selected.1 h
  have hclaimable : IngestionRepository.claimable db.now row = true := by
    simp only [IngestionRepository.claimable, Bool.or_eq_true, Bool.and_eq_true,
      decide_eq_true_eq, Option.all_eq_true]
    rcases (abandoned_iff.1 hab).2.2 with hs | ⟨hs, hlease⟩
    · exact .inl hs
    · refine .inr ⟨hs, ?_⟩
      intro lease hl
      have hlt := hlease lease hl
      rw [staleBefore] at hlt
      omega
  rw [Option.isSome_iff_exists]
  exact ⟨_, Table.updated_eq_some.2 ⟨row, db.chunks.find_of_mem hrow, hclaimable, rfl⟩⟩

/-- Once a running job and the leases of its chunks are old enough, the chunks left to run are
selected. -/
theorem mem_selected_iff {db : IngestionDb} (hjob : job ∈ db.jobs.rows)
    (hr : job.status = .running) (hu : job.updatedAt < staleBefore db.now graceMs)
    (hl : ∀ chunk ∈ db.chunksOf job.id, ∀ lease, chunk.leaseUntil = some lease →
      lease < staleBefore db.now graceMs) (hc : chunk ∈ db.chunksOf job.id) :
    chunk.chunk ∈ selected db graceMs ↔ chunk.status = .pending ∨ chunk.status = .running := by
  obtain ⟨hrow, hid⟩ := List.mem_filter.1 hc
  rw [decide_eq_true_eq] at hid
  constructor
  · intro hs
    obtain ⟨row, hrow', hkey, _, _, hab⟩ := mem_selected.1 hs
    rw [db.chunks.eq_of_key hrow' hrow hkey] at hab
    rcases (abandoned_iff.1 hab).2.2 with hs | ⟨hs, _⟩
    · exact .inl hs
    · exact .inr hs
  · intro hs
    refine mem_selected.2 ⟨chunk, hrow, rfl, job, ?_, abandoned_iff.2 ⟨hr, hu, ?_⟩⟩
    · rw [hid]
      exact db.jobs.find_of_mem hjob
    · rcases hs with hs | hs
      · exact .inl hs
      · exact .inr ⟨hs, hl chunk hc⟩

end OrphanChunkRepository

namespace SweepOrphanChunksCommand
open OrphanChunkRepository

/-- A sweep settles every running job by its chunks, and what it leaves running stays in reach of
the sweeps after it. -/
theorem execute_reaches (graceMs : Nat) (clock : Nat → Int × Int) (selectedAt : Int)
    (published : ChunkProcess → Bool) (db : IngestionDb) :
    (∀ job ∈ db.jobs.rows, job.status = .running →
      ∃ job' ∈ (execute graceMs clock selectedAt published db).db.jobs.rows, job'.id = job.id ∧
        (job'.status = .completed ↔ ∀ chunk ∈ db.chunksOf job.id, chunk.status = .done) ∧
        (job'.status = .failed ↔
          (∀ chunk ∈ db.chunksOf job.id, chunk.status = .done ∨ chunk.status = .failed) ∧
            ∃ chunk ∈ db.chunksOf job.id, chunk.status = .failed) ∧
        (job'.status ≠ .completed → job'.status ≠ .failed → job'.status = .running ∧
          ∃ chunk ∈ db.chunksOf job.id, chunk.status = .pending ∨ chunk.status = .running)) ∧
    (execute graceMs clock selectedAt published db).db.chunks = db.chunks ∧
    (∀ (later : Int) db', db' =
        { (execute graceMs clock selectedAt published db).db with now := later } →
      ∀ job ∈ db'.jobs.rows, job.status = .running →
        job.updatedAt < staleBefore later graceMs →
        (∀ chunk ∈ db'.chunksOf job.id, ∀ lease, chunk.leaseUntil = some lease →
          lease < staleBefore later graceMs) →
        ∀ chunk ∈ db'.chunksOf job.id, chunk.chunk ∈ selected db' graceMs ↔
          chunk.status = .pending ∨ chunk.status = .running) ∧
    ∀ db' : IngestionDb, (selected db' graceMs).Pairwise Before ∧
      orphaned db' graceMs = (selected db' graceMs).take limit ∧
      ∀ chunk ∈ orphaned db' graceMs, ∀ leaseMs,
        (db'.claimChunk chunk leaseMs).2.isSome = true := by
  obtain ⟨hchunks, hjobs⟩ := settle_spec clock db ⟨[], []⟩ (runningJobIds db)
  refine ⟨?_, hchunks, ?_, ?_⟩
  · intro job hjob hr
    obtain ⟨job', hfind, hs⟩ := hjobs job.id job (db.jobs.find_of_mem hjob)
    have hmem : job.id ∈ runningJobIds db := by
      rw [runningJobIds, List.mem_mergeSort, List.mem_map]
      exact ⟨job, List.mem_filter.2 ⟨hjob, decide_eq_true hr⟩, rfl⟩
    rw [if_pos hmem] at hs
    refine ⟨job', Table.find_some_mem hfind, Table.find_some_key hfind, ?_⟩
    rw [hs]
    exact settlement_cases db hr
  · rintro later db' rfl job hjob hr hu hl chunk hc
    exact mem_selected_iff hjob hr hu hl hc
  · intro db'
    refine ⟨selected_ordered db' graceMs, rfl, ?_⟩
    intro chunk hc leaseMs
    exact claimChunk_of_mem_selected (List.mem_of_mem_take hc) leaseMs

end SweepOrphanChunksCommand

end PromotionManagement