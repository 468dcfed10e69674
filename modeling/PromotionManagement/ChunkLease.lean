import PromotionManagement.ChunkBounds
import PromotionManagement.Library.Lease

namespace PromotionManagement
open Library IngestionRepository
set_option autoImplicit true

/-- The lease that a row of `ingestion_chunks` is: a running chunk without one is free, and a chunk
that is done or failed is not claimed again. -/
def leaseOf : Option ChunkRow → Lease Int
  | none => .retired
  | some row =>
    match row.status, row.leaseUntil with
    | .pending, _ => .free
    | .running, none => .free
    | .running, some leaseUntil => .held leaseUntil
    | .done, _ => .retired
    | .failed, _ => .retired

/-- The invocation whose statement an event carries out. -/
def IngestionEvent.caller : IngestionEvent → Option Nat
  | .step i => some i
  | .fail i _ _ => some i
  | .kill i _ => some i
  | _ => none

/-- A run watched at one chunk: how often each invocation has begun, the claims of the chunk that
succeeded with the latest first, and the invocations that have released it. An invocation is its
place and how often it has begun. -/
structure ChunkWatch where
  world : IngestionWorld
  deliveries : Nat → Nat
  claims : List (Grant (Nat × Nat) Int)
  released : List (Nat × Nat)

namespace ChunkWatch

variable (c : ProcessChunkCommand) (chunk : ChunkProcess) (s : ChunkWatch) (e : IngestionEvent)

def start (w : IngestionWorld) : ChunkWatch := ⟨w, fun _ => 0, [], []⟩

/-- The claim of the chunk that succeeds at an event. -/
def claimed : Option (Grant (Nat × Nat) Int) :=
  match e.caller, s.world.issued c e with
  | some i, some (.claimChunk k leaseMs) =>
    if k = chunk then
      ((s.world.db.claimChunk chunk leaseMs).2.bind ChunkRow.leaseUntil).map fun leaseUntil =>
        ⟨(i, s.deliveries i), s.world.db.now, leaseUntil⟩
    else none
  | _, _ => none

/-- The invocation whose `releaseChunk` changes the row of the chunk at an event. -/
def releases : Option (Nat × Nat) :=
  match e.caller, s.world.issued c e with
  | some i, some (.releaseChunk k _) =>
    if k = chunk ∧
        (s.world.step c e).db.chunks.find chunk ≠ s.world.db.chunks.find chunk then
      some (i, s.deliveries i)
    else none
  | _, _ => none

def begun : Nat → Nat :=
  match e with
  | .deliver i _ =>
    if (s.world.invocations i).ended then Function.update s.deliveries i (s.deliveries i + 1)
    else s.deliveries
  | _ => s.deliveries

def step : ChunkWatch where
  world := s.world.step c e
  deliveries := s.begun e
  claims := (s.claimed c chunk e).toList ++ s.claims
  released := (s.releases c chunk e).toList ++ s.released

/-- The lock that the chunk is to its invocations. -/
def lock : LeaseLock (Nat × Nat) Int :=
  ⟨leaseOf (s.world.db.chunks.find chunk), s.claims, s.released⟩

end ChunkWatch

theorem claimable_iff (now : Int) (row : ChunkRow) :
    (leaseOf (some row)).Claimable now ↔ claimable now row := by
  rw [leaseOf, claimable]
  cases row.status with
  | pending => simp [Lease.Claimable]
  | running => cases row.leaseUntil <;> simp [Lease.Claimable]
  | done => simp [Lease.Claimable]
  | failed => simp [Lease.Claimable]

theorem leaseOf_eq_held (row : ChunkRow) (leaseUntil : Int) :
    leaseOf (some row) = .held leaseUntil ↔
      row.status = .running ∧ row.leaseUntil = some leaseUntil := by
  rw [leaseOf]
  cases row.status with
  | running => cases row.leaseUntil <;> simp
  | _ => simp

theorem leaseOf_checkpointed (batch : Batch) (stored : Nat) (row : ChunkRow) :
    leaseOf (some (checkpointed batch stored row)) = leaseOf (some row) ∨
      leaseOf (some (checkpointed batch stored row)) = .retired := by
  rw [checkpointed]
  split
  · exact .inr rfl
  · exact .inl rfl

theorem leaseOf_failedOnce (reason : Text) (maxFailures : Nat) (row : ChunkRow) :
    leaseOf (some (failedOnce reason maxFailures row)) = leaseOf (some row) ∨
      leaseOf (some (failedOnce reason maxFailures row)) = .retired := by
  rw [failedOnce]
  split
  · exact .inr rfl
  · exact .inl rfl

namespace IngestionDb

variable {db : IngestionDb} {guard : ChunkRow → Bool} {set' : ChunkRow → ChunkRow}

theorem find_execute (h : db.chunkUpdate statement = some (chunk, guard, set')) :
    (db.execute statement).chunks.find chunk =
      (db.chunks.find chunk).map fun row => if guard row then set' row else row := by
  obtain ⟨hset, he⟩ := execute_chunks_some h
  rw [he, Table.find_update_self]

theorem find_execute_of_ne (h : db.chunkUpdate statement = some (k, guard, set'))
    (hk : k ≠ chunk) : (db.execute statement).chunks.find chunk = db.chunks.find chunk := by
  obtain ⟨hset, he⟩ := execute_chunks_some h
  rw [he, Table.find_update_of_ne _ _ _ _ (Ne.symm hk)]

/-- A statement that neither claims nor releases leaves a chunk's lease, or ends it for good. -/
theorem leaseOf_execute (db : IngestionDb) (chunk : ChunkProcess)
    (hclaim : ∀ k leaseMs, statement ≠ .claimChunk k leaseMs)
    (hrelease : ∀ k leaseUntil, statement ≠ .releaseChunk k leaseUntil) :
    leaseOf ((db.execute statement).chunks.find chunk) = leaseOf (db.chunks.find chunk) ∨
      leaseOf ((db.execute statement).chunks.find chunk) = .retired := by
  cases hu : db.chunkUpdate statement with
  | none =>
    rw [execute_chunks_none hu]
    exact .inl rfl
  | some u =>
    obtain ⟨k, guard, set'⟩ := u
    by_cases hk : k = chunk
    · subst hk
      rw [find_execute hu]
      cases db.chunks.find k with
      | none => exact .inl rfl
      | some row =>
        rw [Option.map_some]
        split
        · cases statement with
          | claimChunk k leaseMs => exact absurd rfl (hclaim k leaseMs)
          | releaseChunk k leaseUntil => exact absurd rfl (hrelease k leaseUntil)
          | commit k batch =>
            cases hu
            exact leaseOf_checkpointed batch _ row
          | recordChunkFailure k reason maxFailures =>
            cases hu
            exact leaseOf_failedOnce reason maxFailures row
          | refreshJobProgress jobId => cases hu
          | recordJobFailure jobId reason => cases hu
          | failJobIfExhausted jobId => cases hu
          | completeJobIfDone jobId => cases hu
        · exact .inl rfl
    · rw [find_execute_of_ne hu hk]
      exact .inl rfl

end IngestionDb

namespace ChunkWatch

variable {c : ProcessChunkCommand} {chunk : ChunkProcess} {s : ChunkWatch} {e : IngestionEvent}

/-- An invocation that claims or releases is the caller of the statement. -/
theorem caller_of_issued (h : s.world.issued c e = some statement)
    (hstatement : (∃ k leaseMs, statement = .claimChunk k leaseMs) ∨
      ∃ k leaseUntil, statement = .releaseChunk k leaseUntil) :
    ∃ i, e.caller = some i ∧ c.statement s.world.db (s.world.invocations i) = some statement := by
  cases e with
  | step i => exact ⟨i, rfl, h⟩
  | fail i reason applied =>
    cases applied with
    | true => exact ⟨i, rfl, h⟩
    | false => cases h
  | kill i applied =>
    cases applied with
    | true => exact ⟨i, rfl, h⟩
    | false => cases h
  | completeJobIfDone jobId =>
    cases h
    rcases hstatement with ⟨_, _, he⟩ | ⟨_, _, he⟩
    · cases he
    · cases he
  | failJobIfExhausted jobId =>
    cases h
    rcases hstatement with ⟨_, _, he⟩ | ⟨_, _, he⟩
    · cases he
    · cases he
  | clock now => cases h
  | deliver i k => cases h
  | compiled i calculator => cases h
  | published i delivered outOfTime => cases h

/-- A claim of the chunk is a claim of its lock. -/
theorem lock_claim (hcaller : e.caller = some i)
    (h : s.world.issued c e = some (.claimChunk chunk leaseMs)) :
    (s.step c chunk e).lock chunk = (s.lock chunk).step
      (.claim (i, s.deliveries i) s.world.db.now (leaseUntil s.world.db.now leaseMs)) := by
  have hreleases : s.releases c chunk e = none := by
    rw [releases, hcaller, h]
  rw [lock, lock, step, hreleases, LeaseLock.step]
  dsimp only
  rw [claimed, hcaller, h, IngestionWorld.stored_of_issued h, IngestionDb.find_execute rfl]
  dsimp only
  rw [if_pos rfl, IngestionDb.claimChunk, Table.updated]
  cases s.world.db.chunks.find chunk with
  | none => rfl
  | some row =>
    by_cases hg : claimable s.world.db.now row
    · rw [if_pos ((claimable_iff _ row).2 hg)]
      simp only [Option.map_some, Option.bind_some, hg, if_true]
      rfl
    · rw [if_neg fun hclaimable => hg ((claimable_iff _ row).1 hclaimable)]
      simp only [Option.map_some, Option.bind_some, hg]
      rfl

/-- The guard of `releaseChunk` finds a row whose lease is held until the proof given. -/
theorem released_iff (row : ChunkRow) (expiresAt : Int) :
    (row.status = .running && row.leaseUntil.isSome && row.leaseUntil = some expiresAt) = true ↔
      leaseOf (some row) = .held expiresAt := by
  rw [leaseOf_eq_held, Bool.and_eq_true, Bool.and_eq_true, decide_eq_true_iff, decide_eq_true_iff]
  constructor
  · exact fun h => ⟨h.1.1, h.2⟩
  · rintro ⟨hr, hl⟩
    rw [hl]
    exact ⟨⟨hr, rfl⟩, rfl⟩

theorem find_release (h : s.world.issued c e = some (.releaseChunk chunk (some expiresAt))) :
    (s.world.step c e).db.chunks.find chunk = (s.world.db.chunks.find chunk).map fun row =>
      if leaseOf (some row) = .held expiresAt then IngestionRepository.released row
      else row := by
  rw [IngestionWorld.stored_of_issued h, IngestionDb.find_execute rfl]
  congr 1
  funext row
  simp only [released_iff]

/-- Without a lease there is nothing to give back. -/
theorem find_release_none (h : s.world.issued c e = some (.releaseChunk chunk none)) :
    (s.world.step c e).db.chunks.find chunk = s.world.db.chunks.find chunk := by
  rw [IngestionWorld.stored_of_issued h, IngestionDb.find_execute rfl]
  cases s.world.db.chunks.find chunk with
  | none => rfl
  | some row => cases hl : row.leaseUntil <;> simp [hl]

/-- A release of the chunk with a lease is a release of its lock. -/
theorem lock_release (hcaller : e.caller = some i)
    (h : s.world.issued c e = some (.releaseChunk chunk (some expiresAt))) :
    (s.step c chunk e).lock chunk =
      (s.lock chunk).step (.release (i, s.deliveries i) expiresAt) := by
  have hclaimed : s.claimed c chunk e = none := by
    rw [claimed, hcaller, h]
  rw [lock, lock, step, hclaimed, LeaseLock.step]
  dsimp only
  rw [releases, hcaller, h]
  dsimp only
  rw [find_release h]
  cases s.world.db.chunks.find chunk with
  | none =>
    rw [if_neg fun hf => hf.2 rfl]
    rfl
  | some row =>
    rw [Option.map_some]
    by_cases hg : leaseOf (some row) = .held expiresAt
    · have hrow : some (IngestionRepository.released row) ≠ some row := by
        intro he
        rw [← he] at hg
        cases hg
      rw [if_pos hg, if_pos hg, if_pos ⟨rfl, hrow⟩]
      rfl
    · rw [if_neg hg, if_neg hg, if_neg fun hf => hf.2 rfl]
      rfl

theorem claimed_eq_none
    (h : ∀ leaseMs, s.world.issued c e ≠ some (.claimChunk chunk leaseMs)) :
    s.claimed c chunk e = none := by
  rw [claimed]
  split
  · rename_i i k leaseMs _ hs
    rw [if_neg]
    rintro rfl
    exact h leaseMs hs
  · rfl

theorem releases_eq_none
    (h : (s.world.step c e).db.chunks.find chunk = s.world.db.chunks.find chunk ∨
      ∀ leaseUntil, s.world.issued c e ≠ some (.releaseChunk chunk leaseUntil)) :
    s.releases c chunk e = none := by
  rw [releases]
  split
  · rename_i i k leaseUntil _ hs
    rw [if_neg]
    rintro ⟨rfl, hne⟩
    rcases h with he | hnot
    · exact hne he
    · exact hnot leaseUntil hs
  · rfl

theorem lock_kept (hclaimed : s.claimed c chunk e = none)
    (h : (s.world.step c e).db.chunks.find chunk = s.world.db.chunks.find chunk) :
    (s.step c chunk e).lock chunk = s.lock chunk := by
  rw [lock, lock, step, hclaimed, releases_eq_none (.inl h)]
  dsimp only
  rw [h]
  rfl

/-- A statement on another chunk leaves the lock. -/
theorem lock_elsewhere {guard : ChunkRow → Bool} (hs : s.world.issued c e = some statement)
    (hu : s.world.db.chunkUpdate statement = some (k, guard, set')) (hk : k ≠ chunk)
    (hclaim : ∀ leaseMs, statement ≠ .claimChunk chunk leaseMs) :
    (s.step c chunk e).lock chunk = s.lock chunk := by
  apply lock_kept
  · apply claimed_eq_none
    intro leaseMs he
    exact hclaim leaseMs (Option.some.inj (hs.symm.trans he))
  · rw [IngestionWorld.stored_of_issued hs]
    exact IngestionDb.find_execute_of_ne hu hk

/-- A statement that neither claims nor releases leaves the lock, or retires it. -/
theorem lock_other (hs : s.world.issued c e = some statement)
    (hclaim : ∀ k leaseMs, statement ≠ .claimChunk k leaseMs)
    (hrelease : ∀ k leaseUntil, statement ≠ .releaseChunk k leaseUntil) :
    (s.step c chunk e).lock chunk = s.lock chunk ∨
      (s.step c chunk e).lock chunk = (s.lock chunk).step .retire := by
  have hclaimed : s.claimed c chunk e = none := by
    apply claimed_eq_none
    intro leaseMs he
    exact hclaim chunk leaseMs (Option.some.inj (hs.symm.trans he))
  have hreleases : s.releases c chunk e = none := by
    apply releases_eq_none
    right
    intro expiresAt he
    exact hrelease chunk expiresAt (Option.some.inj (hs.symm.trans he))
  have hlease := s.world.db.leaseOf_execute chunk hclaim hrelease
  rw [← IngestionWorld.stored_of_issued hs] at hlease
  rw [lock, lock, step, hclaimed, hreleases, LeaseLock.step]
  dsimp only
  rcases hlease with he | he
  · left
    rw [he]
    rfl
  · right
    rw [he]
    rfl

/-- An event leaves the lock of the chunk, retires it, claims it or gives it back. -/
theorem lock_cases (c : ProcessChunkCommand) (chunk : ChunkProcess) (s : ChunkWatch)
    (e : IngestionEvent) :
    (s.step c chunk e).lock chunk = s.lock chunk ∨
    (s.step c chunk e).lock chunk = (s.lock chunk).step .retire ∨
    (∃ i leaseMs, e.caller = some i ∧ s.world.issued c e = some (.claimChunk chunk leaseMs) ∧
      (s.step c chunk e).lock chunk = (s.lock chunk).step
        (.claim (i, s.deliveries i) s.world.db.now (leaseUntil s.world.db.now leaseMs))) ∨
    ∃ i expiresAt, e.caller = some i ∧
      s.world.issued c e = some (.releaseChunk chunk (some expiresAt)) ∧
      (s.step c chunk e).lock chunk =
        (s.lock chunk).step (.release (i, s.deliveries i) expiresAt) := by
  cases hs : s.world.issued c e with
  | none =>
    left
    apply lock_kept
    · apply claimed_eq_none
      intro leaseMs he
      cases hs.symm.trans he
    · rw [IngestionWorld.stored_of_none hs]
  | some statement =>
    cases statement with
    | claimChunk k leaseMs =>
      obtain ⟨i, hcaller, _⟩ := caller_of_issued hs (.inl ⟨k, leaseMs, rfl⟩)
      by_cases hk : k = chunk
      · subst hk
        exact .inr (.inr (.inl ⟨i, leaseMs, hcaller, rfl, lock_claim hcaller hs⟩))
      · left
        apply lock_elsewhere hs rfl hk
        rintro leaseMs ⟨⟩
        exact hk rfl
    | releaseChunk k leaseUntil =>
      obtain ⟨i, hcaller, _⟩ := caller_of_issued hs (.inr ⟨k, leaseUntil, rfl⟩)
      by_cases hk : k = chunk
      · subst hk
        cases leaseUntil with
        | none =>
          left
          apply lock_kept _ (find_release_none hs)
          apply claimed_eq_none
          intro leaseMs he
          cases hs.symm.trans he
        | some expiresAt =>
          exact .inr (.inr (.inr ⟨i, expiresAt, hcaller, rfl, lock_release hcaller hs⟩))
      · exact .inl (lock_elsewhere hs rfl hk fun _ he => nomatch he)
    | _ =>
      rcases lock_other hs (fun _ _ he => nomatch he) (fun _ _ he => nomatch he) with he | he
      · exact .inl he
      · exact .inr (.inl he)

end ChunkWatch

end PromotionManagement
