import PromotionManagement.ChunkLease

namespace PromotionManagement
open Library IngestionRepository
set_option autoImplicit true

namespace Phase

/-- The chunk that an invocation has claimed and may yet release. -/
def holding : Phase → Option ChunkRow
  | .finding claimed => some claimed
  | .compiling claimed _ => some claimed
  | .reading run => some run.claimed
  | .storing run _ => some run.claimed
  | .publishing run _ _ => some run.claimed
  | .releasing run => some run.claimed
  | _ => none

theorem ended_of_holding {p : Phase} (h : p.holding = some row) : p.ended = false := by
  cases p with
  | idle => cases h
  | returned outcome => cases h
  | thrown reason => cases h
  | _ => rfl

/-- An invocation that goes on claims only as it did, and holds only what it held. Its own call
leaves neither a claim nor a release to make. -/
structure Continues (calls : Prop) (p p' : Phase) : Prop where
  claiming : ∀ k, p' = .claiming k → p = .claiming k ∧ ¬calls
  holding : ∀ claimed, p'.holding = some claimed →
    p.holding = some claimed ∧ (calls → ∀ run, p ≠ .releasing run)

theorem Continues.same (hcalls : ¬calls) (p : Phase) : Continues calls p p :=
  ⟨fun _ h => ⟨h, hcalls⟩, fun _ h => ⟨h, fun hc => absurd hc hcalls⟩⟩

theorem Continues.done (hclaiming : ∀ k, p' ≠ .claiming k) (hholding : p'.holding = none) :
    Continues calls p p' := by
  constructor
  · exact fun k h => absurd h (hclaiming k)
  · intro claimed h
    rw [hholding] at h
    cases h

theorem Continues.holds (hclaiming : ∀ k, p' ≠ .claiming k) (hholding : p'.holding = p.holding)
    (hnot : ∀ run, p ≠ .releasing run) : Continues calls p p' := by
  constructor
  · exact fun k h => absurd h (hclaiming k)
  · intro claimed h
    rw [hholding] at h
    exact ⟨h, fun _ => hnot⟩

end Phase

namespace ProcessChunkCommand

open Phase

theorem continues_fail (reason : Text) (p : Phase) (calls : Prop) :
    Continues calls p (fail reason p) := by
  cases p with
  | publishing run ids leftover =>
    exact .holds (fun _ => Phase.noConfusion) rfl (fun _ => Phase.noConfusion)
  | _ => exact .done (fun _ => Phase.noConfusion) rfl

theorem continues_read (c : ProcessChunkCommand) (run : ChunkRun) (calls : Prop) :
    Continues calls (.reading run) (c.read run) := by
  have hnot : ∀ run', Phase.reading run ≠ .releasing run' := fun _ => Phase.noConfusion
  rw [read]
  split
  · split
    · exact .done (fun _ => Phase.noConfusion) rfl
    · exact .holds (fun _ => Phase.noConfusion) rfl hnot
  · split
    · exact .done (fun _ => Phase.noConfusion) rfl
    · dsimp only
      split
      · exact .holds (fun _ => Phase.noConfusion) rfl hnot
      · exact .holds (fun _ => Phase.noConfusion) rfl hnot

/-- Only an answered claim gives an invocation a chunk. -/
theorem continues_resume (c : ProcessChunkCommand) (db : IngestionDb) (p : Phase) (calls : Prop) :
    (∃ k claimed, p = .claiming k ∧ (db.claimChunk k c.leaseMs).2 = some claimed ∧
      c.resume db p = .finding claimed) ∨ Continues calls p (c.resume db p) := by
  cases p with
  | claiming k =>
    rw [resume]
    split
    · exact .inr (.done (fun _ => Phase.noConfusion) rfl)
    · rename_i claimed hclaimed
      exact .inl ⟨k, claimed, rfl, hclaimed, rfl⟩
  | finding claimed =>
    exact .inr (.holds (fun _ => Phase.noConfusion) rfl (fun _ => Phase.noConfusion))
  | compiling claimed job =>
    exact .inr (.holds (fun _ => Phase.noConfusion) rfl (fun _ => Phase.noConfusion))
  | reading run => exact .inr (c.continues_read run calls)
  | storing run leftover =>
    right
    rw [resume]
    split
    · exact .holds (fun _ => Phase.noConfusion) rfl (fun _ => Phase.noConfusion)
    · split
      · exact .done (fun _ => Phase.noConfusion) rfl
      · exact .holds (fun _ => Phase.noConfusion) rfl (fun _ => Phase.noConfusion)
  | publishing run ids leftover =>
    exact .inr (.holds (fun _ => Phase.noConfusion) rfl (fun _ => Phase.noConfusion))
  | recordingJob k reason exhausted =>
    right
    rw [resume]
    split
    · exact .done (fun _ => Phase.noConfusion) rfl
    · exact .done (fun _ => Phase.noConfusion) rfl
  | _ => exact .inr (.done (fun _ => Phase.noConfusion) rfl)

theorem continues_compiled (c : ProcessChunkCommand) (calculator : BasePriceCalculator)
    (p : Phase) (hcalls : ¬calls) : Continues calls p (c.compiled calculator p) := by
  cases p with
  | compiling claimed job =>
    cases job with
    | none => exact .done (fun _ => Phase.noConfusion) rfl
    | some job => exact .holds (fun _ => Phase.noConfusion) rfl (fun _ => Phase.noConfusion)
  | _ => exact .same hcalls _

theorem continues_published (outOfTime : Bool) (p : Phase) (hcalls : ¬calls) :
    Continues calls p (published outOfTime p) := by
  cases p with
  | publishing run ids leftover =>
    have hnot : ∀ run', Phase.publishing run ids leftover ≠ .releasing run' :=
      fun _ => Phase.noConfusion
    rw [published]
    dsimp only
    split
    · exact .done (fun _ => Phase.noConfusion) rfl
    · split
      · exact .holds (fun _ => Phase.noConfusion) rfl hnot
      · exact .holds (fun _ => Phase.noConfusion) rfl hnot
  | _ => exact .same hcalls _

end ProcessChunkCommand

namespace IngestionWorld

open Phase ProcessChunkCommand

variable {c : ProcessChunkCommand} {w : IngestionWorld} {e : IngestionEvent}

/-- An invocation begins, is answered that its claim succeeded, or goes on. -/
theorem invocation_step (c : ProcessChunkCommand) (w : IngestionWorld) (e : IngestionEvent)
    (j : Nat) :
    (∃ k, e = .deliver j k ∧ (w.invocations j).ended ∧
      (w.step c e).invocations j = .claiming k) ∨
    (∃ k claimed, e = .step j ∧ w.invocations j = .claiming k ∧
      (w.db.claimChunk k c.leaseMs).2 = some claimed ∧
      (w.step c e).invocations j = .finding claimed) ∨
    Continues (e.caller = some j) (w.invocations j) ((w.step c e).invocations j) := by
  by_cases hmoved : ∃ phase, w.moved c e = some (j, phase)
  · obtain ⟨phase, hm⟩ := hmoved
    have hstep := step_moved hm
    cases e with
    | clock now => cases hm
    | completeJobIfDone jobId => cases hm
    | failJobIfExhausted jobId => cases hm
    | deliver i k =>
      rw [moved] at hm
      split at hm
      · rename_i hended
        cases hm
        exact .inl ⟨k, rfl, hended, hstep⟩
      · cases hm
    | step i =>
      rw [hstep]
      cases hm
      rcases c.continues_resume w.db (w.invocations j) (some j = some j) with
        ⟨k, claimed, hp, hclaimed, he⟩ | hcontinues
      · exact .inr (.inl ⟨k, claimed, rfl, hp, hclaimed, he⟩)
      · exact .inr (.inr hcontinues)
    | compiled i calculator =>
      rw [hstep]
      cases hm
      exact .inr (.inr (c.continues_compiled calculator _ (Option.some_ne_none _).symm))
    | published i delivered outOfTime =>
      rw [hstep]
      cases hm
      exact .inr (.inr (continues_published outOfTime _ (Option.some_ne_none _).symm))
    | fail i reason applied =>
      rw [hstep]
      cases hm
      exact .inr (.inr (continues_fail reason _ _))
    | kill i applied =>
      rw [hstep]
      cases hm
      exact .inr (.inr (.done (fun _ => Phase.noConfusion) rfl))
  · right
    right
    rw [step_unmoved fun phase hm => hmoved ⟨phase, hm⟩]
    apply Continues.same
    intro hcaller
    cases e with
    | step i =>
      cases hcaller
      exact hmoved ⟨_, rfl⟩
    | fail i reason applied =>
      cases hcaller
      exact hmoved ⟨_, rfl⟩
    | kill i applied =>
      cases hcaller
      exact hmoved ⟨_, rfl⟩
    | _ => cases hcaller

end IngestionWorld

/-- A lease ends after its claim, at a whole millisecond. -/
theorem leaseUntil_spec (now : Int) (hleaseMs : 1 ≤ leaseMs) :
    now < leaseUntil now leaseMs ∧ leaseUntil now leaseMs % 1000 = 0 := by
  rw [leaseUntil]
  omega

theorem IngestionDb.execute_now (db : IngestionDb) (statement : Statement) :
    (db.execute statement).now = db.now := by
  cases statement with
  | commit k batch =>
    rw [execute, commit]
    dsimp only
    split <;> rfl
  | _ => rfl

theorem IngestionWorld.step_now (c : ProcessChunkCommand) (w : IngestionWorld)
    (e : IngestionEvent) : (w.step c e).db.now = w.now e := by
  cases hs : w.issued c e with
  | none => rw [stored_of_none hs]
  | some statement =>
    rw [stored_of_issued hs, IngestionDb.execute_now]
    cases e with
    | clock now => cases hs
    | _ => rfl

theorem ProcessChunkCommand.statement_claim {c : ProcessChunkCommand}
    (h : c.statement db phase = some (.claimChunk k ms)) :
    phase = .claiming k ∧ ms = c.leaseMs := by
  cases phase with
  | claiming k' =>
    cases h
    exact ⟨rfl, rfl⟩
  | storing run leftover =>
    rw [statement] at h
    split at h
    · cases h
    · cases h
  | _ => cases h

theorem ProcessChunkCommand.statement_release {c : ProcessChunkCommand}
    (h : c.statement db phase = some (.releaseChunk k expiresAt)) :
    ∃ run, phase = .releasing run ∧ run.claimed.chunk = k ∧ run.claimed.leaseUntil = expiresAt := by
  cases phase with
  | releasing run =>
    cases h
    exact ⟨run, rfl, rfl, rfl⟩
  | storing run leftover =>
    rw [statement] at h
    split at h
    · cases h
    · cases h
  | _ => cases h

namespace ChunkWatch

variable {c : ProcessChunkCommand} {chunk : ChunkProcess} {s : ChunkWatch} {e : IngestionEvent}

/-- An invocation that begins is counted, and no other. -/
theorem begun_eq (h : ∀ k, e = .deliver j k → (s.world.invocations j).ended = false) :
    s.begun e j = s.deliveries j := by
  cases e with
  | deliver i k =>
    rw [begun]
    split
    · rename_i hended
      apply Function.update_of_ne
      rintro rfl
      rw [h k rfl] at hended
      cases hended
    · rfl
  | _ => rfl

theorem begun_self (h : (s.world.invocations j).ended) :
    s.begun (.deliver j k) j = s.deliveries j + 1 := by
  rw [begun, if_pos h]
  exact Function.update_self _ _ _

theorem le_begun (s : ChunkWatch) (e : IngestionEvent) (j : Nat) :
    s.deliveries j ≤ s.begun e j := by
  by_cases h : ∀ k, e = .deliver j k → (s.world.invocations j).ended = false
  · rw [begun_eq h]
  · rw [not_forall] at h
    obtain ⟨k, hk⟩ := h
    rw [Classical.not_imp, Bool.not_eq_false] at hk
    obtain ⟨rfl, hended⟩ := hk
    rw [begun_self hended]
    exact Nat.le_succ _

theorem claimed_eq_some (h : s.claimed c chunk e = some g) :
    ∃ i leaseMs row, e.caller = some i ∧ s.world.issued c e = some (.claimChunk chunk leaseMs) ∧
      (s.world.db.claimChunk chunk leaseMs).2 = some row ∧ g.holder = (i, s.deliveries i) ∧
      g.grantedAt = s.world.db.now ∧ row.leaseUntil = some g.expiresAt := by
  rw [claimed] at h
  split at h
  · rename_i i k leaseMs hcaller hs
    split at h
    · rename_i hk
      subst hk
      obtain ⟨expiresAt, hrow, rfl⟩ := Option.map_eq_some_iff.1 h
      obtain ⟨row, hrow, hl⟩ := Option.bind_eq_some_iff.1 hrow
      exact ⟨i, leaseMs, row, hcaller, hs, hrow, rfl, rfl, hl⟩
    · cases h
  · cases h

theorem releases_eq_some (h : s.releases c chunk e = some holder) :
    ∃ i expiresAt, e.caller = some i ∧ s.world.issued c e = some (.releaseChunk chunk expiresAt) ∧
      holder = (i, s.deliveries i) ∧
      (s.world.step c e).db.chunks.find chunk ≠ s.world.db.chunks.find chunk := by
  rw [releases] at h
  split at h
  · rename_i i k expiresAt hcaller hs
    split at h
    · rename_i hk
      obtain ⟨rfl, hne⟩ := hk
      exact ⟨i, expiresAt, hcaller, hs, (Option.some.inj h).symm, hne⟩
    · cases h
  · cases h

/-- The lock is sound, its claims are in the past and of invocations that have begun, one that is
about to claim has not, and one that may yet release has claimed and not released. -/
structure Kept (chunk : ChunkProcess) (s : ChunkWatch) : Prop where
  sound : (s.lock chunk).Sound
  granted : ∀ g ∈ s.claims, g.grantedAt ≤ s.world.db.now ∧ g.holder.2 ≤ s.deliveries g.holder.1
  claiming : ∀ i k, s.world.invocations i = .claiming k →
    ∀ g ∈ s.claims, g.holder ≠ (i, s.deliveries i)
  holding : ∀ i claimed, (s.world.invocations i).holding = some claimed → claimed.chunk = chunk →
    (∃ g ∈ s.claims, g.holder = (i, s.deliveries i) ∧ claimed.leaseUntil = some g.expiresAt) ∧
      (i, s.deliveries i) ∉ s.released

theorem Kept.obeys_claim (h : s.Kept chunk) (hcaller : e.caller = some i)
    (hs : s.world.issued c e = some (.claimChunk chunk leaseMs)) (hleaseMs : 1 ≤ c.leaseMs) :
    (s.lock chunk).Obeys (.claim (i, s.deliveries i) s.world.db.now
      (leaseUntil s.world.db.now leaseMs)) := by
  obtain ⟨j, hj, hstatement⟩ := caller_of_issued hs (.inl ⟨chunk, leaseMs, rfl⟩)
  cases hcaller.symm.trans hj
  obtain ⟨hp, rfl⟩ := ProcessChunkCommand.statement_claim hstatement
  exact ⟨fun g hg => ⟨h.claiming i chunk hp g hg, (h.granted g hg).1⟩,
    (leaseUntil_spec _ hleaseMs).1⟩

theorem Kept.obeys_release (h : s.Kept chunk) (hcaller : e.caller = some i)
    (hs : s.world.issued c e = some (.releaseChunk chunk (some expiresAt))) :
    (s.lock chunk).Obeys (.release (i, s.deliveries i) expiresAt) := by
  obtain ⟨j, hj, hstatement⟩ := caller_of_issued hs (.inr ⟨chunk, some expiresAt, rfl⟩)
  cases hcaller.symm.trans hj
  obtain ⟨run, hp, hchunk, hlease⟩ := ProcessChunkCommand.statement_release hstatement
  have hholding : (s.world.invocations i).holding = some run.claimed := by
    rw [hp]
    rfl
  obtain ⟨⟨g, hg, hholder, hg'⟩, hnot⟩ := h.holding i run.claimed hholding hchunk
  rw [hlease] at hg'
  exact ⟨⟨g, hg, hholder, (Option.some.inj hg').symm⟩, hnot⟩

theorem Kept.sound_step (h : s.Kept chunk) (hleaseMs : 1 ≤ c.leaseMs) (e : IngestionEvent) :
    ((s.step c chunk e).lock chunk).Sound := by
  rcases lock_cases c chunk s e with he | he | ⟨i, leaseMs, hcaller, hs, he⟩ |
    ⟨i, expiresAt, hcaller, hs, he⟩
  · rw [he]
    exact h.sound
  · rw [he]
    exact h.sound.step trivial
  · rw [he]
    exact h.sound.step (h.obeys_claim hcaller hs hleaseMs)
  · rw [he]
    exact h.sound.step (h.obeys_release hcaller hs)

theorem Kept.granted_step (h : s.Kept chunk) (hforward : s.world.db.now ≤ s.world.now e)
    (hg : g ∈ (s.step c chunk e).claims) : g.grantedAt ≤ (s.step c chunk e).world.db.now ∧
      g.holder.2 ≤ (s.step c chunk e).deliveries g.holder.1 := by
  have hnow : (s.step c chunk e).world.db.now = s.world.now e := s.world.step_now c e
  rw [hnow]
  have hbegun := le_begun s e g.holder.1
  rcases List.mem_append.1 hg with hnew | hold
  · obtain ⟨i, _, _, _, _, _, hholder, hat', _⟩ := claimed_eq_some (Option.mem_toList.1 hnew)
    rw [hat', hholder]
    rw [hholder] at hbegun
    exact ⟨hforward, hbegun⟩
  · obtain ⟨hle, hcount⟩ := h.granted g hold
    exact ⟨hle.trans hforward, hcount.trans hbegun⟩

/-- An invocation whose claim is answered is the latest claimant, and has released nothing. -/
theorem Kept.holding_claim (h : s.Kept chunk) (hclaiming : s.world.invocations j = .claiming k)
    (hclaimed : (s.world.db.claimChunk k c.leaseMs).2 = some row) (hchunk : row.chunk = chunk) :
    (∃ g ∈ (s.step c chunk (.step j)).claims,
      g.holder = (j, s.deliveries j) ∧ row.leaseUntil = some g.expiresAt) ∧
    (j, s.deliveries j) ∉ (s.step c chunk (.step j)).released := by
  obtain ⟨row₀, hfind, _, rfl⟩ := Table.updated_eq_some.1 hclaimed
  obtain rfl : k = chunk := (Table.find_some_key hfind).symm.trans hchunk
  have hs : s.world.issued c (.step j) = some (.claimChunk k c.leaseMs) :=
    congrArg (c.statement _) hclaiming
  have hgrant : s.claimed c k (.step j) = some ⟨(j, s.deliveries j), s.world.db.now,
      leaseUntil s.world.db.now c.leaseMs⟩ := by
    rw [claimed, IngestionEvent.caller, hs]
    dsimp only
    rw [if_pos rfl, hclaimed]
    rfl
  constructor
  · exact ⟨_, List.mem_append_left _ (Option.mem_toList.2 hgrant), rfl, rfl⟩
  · intro hr
    rcases List.mem_append.1 hr with hnew | hold
    · obtain ⟨i, expiresAt, _, hs', _⟩ := releases_eq_some (Option.mem_toList.1 hnew)
      cases hs.symm.trans hs'
    · obtain ⟨g, hg, hholder⟩ := h.sound.known _ hold
      exact h.claiming j k hclaiming g hg hholder

theorem Kept.step (h : s.Kept chunk) (hleaseMs : 1 ≤ c.leaseMs) (e : IngestionEvent)
    (hforward : s.world.db.now ≤ s.world.now e) : (s.step c chunk e).Kept chunk := by
  refine ⟨h.sound_step hleaseMs e, fun g hg => h.granted_step hforward hg, ?_, ?_⟩
  · intro j k hp g hg
    change (s.world.step c e).invocations j = .claiming k at hp
    change g.holder ≠ (j, s.begun e j)
    rcases IngestionWorld.invocation_step c s.world e j with
      ⟨k', rfl, hended, _⟩ | ⟨k', claimed, _, _, _, he⟩ | hcontinues
    · rw [begun_self hended]
      rcases List.mem_append.1 hg with hnew | hold
      · obtain ⟨i, _, _, hi, _⟩ := claimed_eq_some (Option.mem_toList.1 hnew)
        cases hi
      · intro hholder
        have hcount := (h.granted g hold).2
        rw [hholder] at hcount
        exact absurd hcount (Nat.not_succ_le_self _)
    · cases hp.symm.trans he
    · obtain ⟨hp, hcaller⟩ := hcontinues.claiming k hp
      rw [begun_eq (by rw [hp]; exact fun _ _ => rfl)]
      rcases List.mem_append.1 hg with hnew | hold
      · obtain ⟨i, _, _, hi, _, _, hholder, _⟩ := claimed_eq_some (Option.mem_toList.1 hnew)
        rw [hholder]
        intro hij
        exact hcaller ((Prod.mk.inj hij).1 ▸ hi)
      · exact h.claiming j k hp g hold
  · intro j claimed hp hchunk
    change ((s.world.step c e).invocations j).holding = some claimed at hp
    change (∃ g ∈ (s.step c chunk e).claims, g.holder = (j, s.begun e j) ∧ _) ∧
      (j, s.begun e j) ∉ (s.step c chunk e).released
    rcases IngestionWorld.invocation_step c s.world e j with
      ⟨k', _, _, he⟩ | ⟨k', claimed', rfl, hclaiming, hclaimed, he⟩ | hcontinues
    · rw [he] at hp
      cases hp
    · rw [he] at hp
      cases hp
      exact h.holding_claim hclaiming hclaimed hchunk
    · obtain ⟨hp, hnot⟩ := hcontinues.holding claimed hp
      obtain ⟨⟨g, hg, hholder, hl⟩, hreleased⟩ := h.holding j claimed hp hchunk
      rw [begun_eq fun _ _ => Phase.ended_of_holding hp]
      refine ⟨⟨g, List.mem_append_right _ hg, hholder, hl⟩, ?_⟩
      intro hr
      rcases List.mem_append.1 hr with hnew | hold
      · obtain ⟨i, expiresAt, hi, hs, hij, _⟩ := releases_eq_some (Option.mem_toList.1 hnew)
        cases (Prod.mk.inj hij).1
        obtain ⟨i, hi', hstatement⟩ := caller_of_issued hs (.inr ⟨chunk, expiresAt, rfl⟩)
        cases hi.symm.trans hi'
        obtain ⟨run, hrun, _⟩ := ProcessChunkCommand.statement_release hstatement
        exact hnot hi run hrun
      · exact hreleased hold

/-- A claim succeeds only when every earlier lease has passed or its holder has released the chunk,
and lasts until a later whole millisecond. A release changes the row only of a running chunk whose
latest claimant makes it. -/
structure Exclusive (c : ProcessChunkCommand) (chunk : ChunkProcess) (s : ChunkWatch)
    (e : IngestionEvent) : Prop where
  claim : ∀ claim, s.claimed c chunk e = some claim → ∀ earlier ∈ s.claims,
    earlier.expiresAt < claim.grantedAt ∨ earlier.holder ∈ s.released
  lasts : ∀ claim, s.claimed c chunk e = some claim → claim.grantedAt = s.world.db.now ∧
    claim.grantedAt < claim.expiresAt ∧ claim.expiresAt % 1000 = 0
  release : ∀ holder, s.releases c chunk e = some holder → ∃ latest rest,
    s.claims = latest :: rest ∧ latest.holder = holder ∧ ∃ row,
      s.world.db.chunks.find chunk = some row ∧ row.status = .running ∧
      row.leaseUntil = some latest.expiresAt

theorem Kept.exclusive (h : s.Kept chunk) (hleaseMs : 1 ≤ c.leaseMs) (e : IngestionEvent) :
    s.Exclusive c chunk e := by
  constructor
  · intro claim hclaim earlier hearlier
    obtain ⟨i, leaseMs, row, _, _, hrow, _, hgranted, _⟩ := claimed_eq_some hclaim
    rw [hgranted]
    obtain ⟨row₀, hfind, hclaimable, _⟩ := Table.updated_eq_some.1 hrow
    have hlock : (s.lock chunk).lease.Claimable s.world.db.now := by
      rw [lock, hfind]
      exact (claimable_iff _ row₀).2 hclaimable
    exact h.sound.exclusive hlock (fun g hg => (h.granted g hg).1) earlier hearlier
  · intro claim hclaim
    obtain ⟨i, leaseMs, row, hcaller, hs, hrow, _, hgranted, hexpires⟩ := claimed_eq_some hclaim
    obtain ⟨row₀, _, _, rfl⟩ := Table.updated_eq_some.1 hrow
    obtain ⟨_, _, hstatement⟩ := caller_of_issued hs (.inl ⟨chunk, leaseMs, rfl⟩)
    obtain ⟨_, rfl⟩ := ProcessChunkCommand.statement_claim hstatement
    have he : leaseUntil s.world.db.now c.leaseMs = claim.expiresAt := Option.some.inj hexpires
    rw [hgranted, ← he]
    exact ⟨rfl, leaseUntil_spec _ hleaseMs⟩
  · intro holder hholder
    obtain ⟨i, expiresAt, hcaller, hs, rfl, hne⟩ := releases_eq_some hholder
    cases expiresAt with
    | none => exact absurd (find_release_none hs) hne
    | some expiresAt =>
      rw [find_release hs] at hne
      cases hfind : s.world.db.chunks.find chunk with
      | none =>
        rw [hfind] at hne
        exact absurd rfl hne
      | some row =>
        rw [hfind, Option.map_some] at hne
        by_cases hlease : leaseOf (some row) = .held expiresAt
        · have hlock : (s.lock chunk).lease = .held expiresAt := by
            rw [lock, hfind]
            exact hlease
          obtain ⟨latest, rest, hclaims, hlatest, rfl⟩ :=
            h.sound.releases (h.obeys_release hcaller hs) hlock
          exact ⟨latest, rest, hclaims, hlatest, row, rfl, (leaseOf_eq_held row _).1 hlease⟩
        · rw [if_neg hlease] at hne
          exact absurd rfl hne

theorem kept_start (h : Registered w) (chunk : ChunkProcess) : (start w).Kept chunk := by
  constructor
  · apply LeaseLock.sound_start
    intro expiresAt he
    change leaseOf (w.db.chunks.find chunk) = .held expiresAt at he
    cases hfind : w.db.chunks.find chunk with
    | none =>
      rw [hfind] at he
      cases he
    | some row =>
      rw [hfind, (h.chunks row (Table.find_some_mem hfind)).2] at he
      cases he
  · exact fun g hg => absurd hg List.not_mem_nil
  · exact fun _ _ _ g hg => absurd hg List.not_mem_nil
  · intro i claimed hp
    change (w.invocations i).holding = some claimed at hp
    rw [h.idle i] at hp
    cases hp

/-- Whatever the invocations of a chunk do beside each other while the clock does not step back, a
lease excludes every other claim until it has passed or its holder gives it back, and no invocation
gives back a lease that another holds. -/
theorem lease_exclusive (h : Registered w) (c : ProcessChunkCommand) (hleaseMs : 1 ≤ c.leaseMs)
    (chunk : ChunkProcess) (events : List IngestionEvent)
    (hclock : Along (ChunkWatch.step c chunk) (fun s e => s.world.db.now ≤ s.world.now e)
      (start w) events) :
    Along (ChunkWatch.step c chunk) (Exclusive c chunk) (start w) events :=
  Along.of_invariant (fun _ e hkept hforward => hkept.step hleaseMs e hforward)
    (fun _ e hkept _ => hkept.exclusive hleaseMs e) (kept_start h chunk) hclock

/-- An invocation claims a chunk and stalls, another is refused it, and the lease passes. -/
def overrun : List IngestionEvent :=
  [.deliver 0 ⟨1, 0⟩, .step 0, .deliver 1 ⟨1, 0⟩, .step 1, .clock 90000001, .deliver 1 ⟨1, 0⟩]

/-- The chunk as the second claim of it finds it. -/
def overrunWatch : ChunkWatch :=
  run (ChunkWatch.step scarfCommand ⟨1, 0⟩) (start scarfImport) overrun

theorem lease_exclusive_overrun :
    overrunWatch.Exclusive scarfCommand ⟨1, 0⟩ (.step 1) ∧
    overrunWatch.claims = [⟨(0, 1), 0, 90000000⟩] ∧
    overrunWatch.claimed scarfCommand ⟨1, 0⟩ (.step 1) = some ⟨(1, 2), 90000001, 180000000⟩ := by
  have hexclusive := lease_exclusive scarfImport_registered scarfCommand (by decide) ⟨1, 0⟩
    (overrun ++ [.step 1]) (by decide +kernel)
  have hlast := (along_iff _ _).1 hexclusive overrun (.step 1) [] rfl
  exact ⟨hlast, by decide +kernel, by decide +kernel⟩

end ChunkWatch

end PromotionManagement
