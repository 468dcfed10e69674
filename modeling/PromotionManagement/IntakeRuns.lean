import PromotionManagement.IntakeSafety
import PromotionManagement.Library.Run

namespace PromotionManagement
open Library IntakeState
set_option autoImplicit true

namespace IntakeState

variable {s : IntakeState} {w : ProcessChunkCommand} {e : IngestionEvent}

theorem job_ingest (s : IntakeState) (w : ProcessChunkCommand) (e : IngestionEvent) (jobId : Nat)
    (file : Text) :
    Job { s with world := s.world.step w e } jobId file ↔ s.Job jobId file := by
  constructor
  · rintro ⟨job', hjob', rfl, rfl⟩
    obtain ⟨job, hjob, hid, hfile, _⟩ := IngestionWorld.job_step hjob'
    exact ⟨job, hjob, hid, hfile⟩
  · rintro ⟨job, hjob, rfl, rfl⟩
    have hid : job.id ∈ (s.world.step w e).db.jobs.rows.map JobRow.id := by
      rw [IngestionWorld.map_id_step]
      exact List.mem_map_of_mem hjob
    obtain ⟨job', hjob', he⟩ := List.mem_map.1 hid
    obtain ⟨job₀, hjob₀, hid₀, hfile, _⟩ := IngestionWorld.job_step hjob'
    have hsame := s.world.db.jobs.eq_of_key hjob₀ hjob (hid₀.trans he)
    exact ⟨job', hjob', he, hsame ▸ hfile.symm⟩

theorem range_ingest (s : IntakeState) (w : ProcessChunkCommand) (e : IngestionEvent)
    (jobId : Nat) (b : ChunkBoundary) :
    Range { s with world := s.world.step w e } jobId b ↔ s.Range jobId b := by
  constructor
  · rintro ⟨row', hrow', hchunk, hstart, hend⟩
    rcases IngestionWorld.chunk_after hrow' with hrow | ⟨_, _, row, hrow, hm⟩
    · exact ⟨row', hrow, hchunk, hstart, hend⟩
    · exact ⟨row, hrow, hm.chunk.symm.trans hchunk, hm.startOffset.symm.trans hstart,
        hm.endOffset.symm.trans hend⟩
  · rintro ⟨row, hrow, hchunk, hstart, hend⟩
    obtain ⟨row', hrow', hc, hs, he⟩ := IngestionWorld.keepsRanges w s.world e row hrow
    exact ⟨row', hrow', hc.trans hchunk, hs.trans hstart, he.trans hend⟩

/-- An import that is settled stays settled. -/
theorem unsettled_ingest (h : unsettled { s with world := s.world.step w e } jobId) :
    s.unsettled jobId := by
  rw [unsettled, Option.any_eq_true_iff_get] at h
  obtain ⟨hsome, hstatus⟩ := h
  obtain ⟨job', hfind⟩ := Option.isSome_iff_exists.1 hsome
  have hget := Option.get_of_mem hsome hfind
  rw [hget] at hstatus
  obtain ⟨job, hjob, hid, _, hmove⟩ := IngestionWorld.job_step (Table.find_some_mem hfind)
  have hkey : job.id = jobId := hid.trans (Table.find_some_key hfind)
  have hfound := s.world.db.jobs.find_of_mem hjob
  rw [hkey] at hfound
  rw [unsettled, hfound, Option.any_some]
  rcases hmove with he | he | he
  · rwa [he] at hstatus
  · rw [he] at hstatus
    cases hstatus
  · rw [he] at hstatus
    cases hstatus

end IntakeState

namespace Intake

variable {c : RegisterImportCommand} {s : IntakeState}

theorem ingest (h : Intake c s) (w : ProcessChunkCommand) (e : IngestionEvent) :
    Intake c { s with world := s.world.step w e } := by
  apply h.of_same
  · exact s.job_ingest w e
  · exact s.range_ingest w e
  · exact fun jobId => unsettled_ingest
  · rfl
  · exact Nat.le_refl _
  · exact fun _ hf => hf
  · exact fun _ _ _ => rfl
  · exact fun _ hc => .inl hc
  · intro i
    exact (h.sound i).mono (fun hf => hf) rfl (fun jobId => s.job_ingest w e jobId _)
      fun _ hc => hc
  · exact h.apart

/-- A refused transaction has drawn an id. -/
theorem skip (h : Intake c s) : Intake c { s with lastJobId := s.lastJobId + 1 } := by
  apply h.of_same
  · exact fun _ _ => Iff.rfl
  · exact fun _ _ => Iff.rfl
  · exact fun _ hu => hu
  · rfl
  · exact Nat.le_succ _
  · exact fun _ hf => hf
  · exact fun _ _ _ => rfl
  · exact fun _ hc => .inl hc
  · intro i
    exact (h.sound i).mono (fun hf => hf) rfl (fun _ => Iff.rfl) fun _ hc => hc
  · exact h.apart

theorem enqueue (h : Intake c s) (hrange : s.Range jobId b) :
    Intake c { s with enqueued := s.enqueued ++ [⟨jobId, b.chunkIndex⟩] } := by
  apply h.of_same
  · exact fun _ _ => Iff.rfl
  · exact fun _ _ => Iff.rfl
  · exact fun _ hu => hu
  · rfl
  · exact Nat.le_refl _
  · exact fun _ hf => hf
  · exact fun _ _ _ => rfl
  · intro chunk hc
    rcases List.mem_append.1 hc with hc | hc
    · exact .inl hc
    · rw [List.mem_singleton.1 hc]
      exact .inr ⟨b, hrange, rfl⟩
  · intro i
    exact (h.sound i).mono (fun hf => hf) rfl (fun _ => Iff.rfl)
      fun _ hc => List.mem_append_left _ hc
  · exact h.apart

theorem enqueue_sound (h : s.Imported c file jobId rest total) :
    (RegisterImportCommand.enqueue jobId rest total).Sound c s file := by
  rw [RegisterImportCommand.enqueue]
  split
  · rename_i hrest
    subst hrest
    exact h
  · exact h

theorem enqueue_holding (jobId : Nat) (rest : List ChunkBoundary) (total : Nat) :
    (RegisterImportCommand.enqueue jobId rest total).holding = false := by
  rw [RegisterImportCommand.enqueue]
  split <;> rfl

/-- The phase of a request that has forgotten its file, or goes on from what it awaited. -/
def Goes (s : IntakeState) (i : Nat) (phase : UploadPhase) : Prop :=
  phase = .idle ∨ phase = .answered .raised ∨ phase = s.next i

theorem goes_sound {phase : UploadPhase} {s' : IntakeState} (hgoes : Goes s i phase)
    (hnext : (s.next i).Sound c s' file) : phase.Sound c s' file := by
  rcases hgoes with rfl | rfl | rfl
  · trivial
  · trivial
  · exact hnext

theorem goes_holding {P : Prop} {phase : UploadPhase} (hgoes : Goes s i phase)
    (hnext : (s.next i).holding = true → P) (hp : phase.holding = true) : P := by
  rcases hgoes with rfl | rfl | rfl
  · cases hp
  · cases hp
  · exact hnext hp

/-- A request that awaits nothing stays where it is, or forgets its file. -/
theorem stays (h : Intake c s) {phase : UploadPhase} (hgoes : Goes s i phase)
    (hnext : s.next i = (s.uploads i).phase) : Intake c (s.setPhase i phase) := by
  apply h.setPhase
  · apply goes_sound hgoes
    rw [hnext]
    exact h.sound i
  · intro hp
    rw [← hnext]
    exact goes_holding hgoes id hp

/-- The transaction of a request whose file has been read. -/
theorem inspected (h : Intake c s) {phase : UploadPhase}
    (hp : (s.uploads i).phase = .inspecting vendor ⟨some bytes.length, some (c.sha256 bytes),
      some (chunkBoundaries bytes c.chunkBytes)⟩)
    (hb : s.disk (s.uploads i).file = some bytes) (hgoes : Goes s i phase) :
    Intake c ((s.awaited i).setPhase i phase) := by
  have hholding : (s.uploads i).phase.holding = true := by
    rw [hp]
    rfl
  have hheld := (h.sound i).held hholding
  cases hrefusal : RegisterImportCommand.refusal s vendor (c.sha256 bytes) with
  | some refused =>
    have hawaited : s.awaited i = { s with lastJobId := s.lastJobId + 1 } := by
      simp only [awaited, hp, RegisterImportCommand.insert, hrefusal]
    rw [hawaited]
    apply h.skip.setPhase
    · apply goes_sound hgoes
      simp only [next, hp, hrefusal]
      exact ⟨hheld.named, hheld.onDisk, hheld.free⟩
    · exact fun _ => hholding
  | none =>
    have hawaited : s.awaited i = RegisterImportCommand.insert s (s.uploads i).file vendor
        bytes.length (c.sha256 bytes) (chunkBoundaries bytes c.chunkBytes) := by
      simp only [awaited, hp]
    have hnext : s.next i = RegisterImportCommand.enqueue (s.lastJobId + 1)
        (chunkBoundaries bytes c.chunkBytes) (chunkBoundaries bytes c.chunkBytes).length := by
      simp only [next, hp, hrefusal]
    apply h.insert hholding hb hrefusal hawaited
    · apply goes_sound hgoes
      rw [hnext, hawaited, insert_eq hrefusal]
      apply enqueue_sound
      refine ⟨(h.job_register rfl _ _).2 (.inr ⟨rfl, rfl⟩), bytes, hb, rfl, fun b hb => hb, ?_⟩
      exact fun b hb => .inl hb
    · rcases hgoes with rfl | rfl | rfl
      · rfl
      · rfl
      · rw [hnext]
        exact enqueue_holding _ _ _

/-- What a request awaits is carried out, and the request goes on or forgets its file. -/
theorem resolved (h : Intake c s) (i : Nat) {phase : UploadPhase} (hgoes : Goes s i phase) :
    Intake c ((s.awaited i).setPhase i phase) := by
  have hsound := h.sound i
  cases hp : (s.uploads i).phase with
  | idle =>
    rw [awaited, hp]
    exact h.stays hgoes (by rw [next, hp])
  | received vendor =>
    rw [awaited, hp]
    exact h.stays hgoes (by rw [next, hp])
  | answered answer =>
    rw [awaited, hp]
    exact h.stays hgoes (by rw [next, hp])
  | discarding status message =>
    rw [awaited, hp]
    apply h.discard (by rw [hp]; rfl)
    rcases hgoes with rfl | rfl | rfl
    · exact .inl rfl
    · exact .inr ⟨.raised, rfl, fun _ _ he => UploadAnswer.noConfusion he⟩
    · rw [next, hp]
      exact .inr ⟨.refused status message, rfl, fun _ _ he => UploadAnswer.noConfusion he⟩
  | enqueueing jobId rest total =>
    cases rest with
    | nil =>
      rw [awaited, hp]
      exact h.stays hgoes (by rw [next, hp])
    | cons b rest =>
      rw [hp] at hsound
      obtain ⟨hj, bytes, hb, htotal, hrest, hall⟩ := hsound
      obtain ⟨_, _, bytes', hb', _, hranges⟩ := h.jobs jobId _ hj
      rw [hb] at hb'
      cases hb'
      have hrange := (hranges b).2 (hrest b List.mem_cons_self)
      rw [awaited, hp]
      apply (h.enqueue hrange).setPhase
      · apply goes_sound hgoes
        rw [next, hp]
        apply enqueue_sound
        refine ⟨hj, bytes, hb, htotal, fun b' hb' => hrest b' (List.mem_cons_of_mem b hb'), ?_⟩
        intro b' hb'
        rcases hall b' hb' with hmem | hmem
        · rcases List.mem_cons.1 hmem with rfl | hmem
          · exact .inr (List.mem_append_right _ (List.mem_singleton_self _))
          · exact .inl hmem
        · exact .inr (List.mem_append_left _ hmem)
      · intro hholding
        have hno := goes_holding hgoes id hholding
        rw [next, hp] at hno
        exact absurd hno (by rw [enqueue_holding]; exact Bool.false_ne_true)
  | inspecting vendor found =>
    rw [hp] at hsound
    obtain ⟨hheld, bytes, hb, hfinds⟩ := hsound
    obtain ⟨size, hash, boundaries⟩ := found
    cases size with
    | none =>
      rw [awaited, hp]
      exact h.stays hgoes (by rw [next, hp])
    | some size =>
      cases hash with
      | none =>
        rw [awaited, hp]
        exact h.stays hgoes (by rw [next, hp])
      | some hash =>
        cases boundaries with
        | none =>
          rw [awaited, hp]
          exact h.stays hgoes (by rw [next, hp])
        | some boundaries =>
          have hsize := hfinds.size size rfl
          have hhash := hfinds.fileSha256 hash rfl
          have hboundaries := hfinds.boundaries boundaries rfl
          subst hsize hhash hboundaries
          exact h.inspected hp hb hgoes

/-- A read of the file finds what is true of it. -/
theorem inspect (h : Intake c s) (i : Nat) {found : List UInt8 → Inspection → Inspection}
    (hfound : ∀ bytes inspection, inspection.Finds c bytes →
      (found bytes inspection).Finds c bytes) : Intake c (s.inspect i found) := by
  rw [IntakeState.inspect]
  split
  · rename_i vendor inspection bytes hp hb
    have hsound := h.sound i
    rw [hp] at hsound
    obtain ⟨hheld, bytes', hb', hfinds⟩ := hsound
    rw [hb] at hb'
    cases hb'
    apply h.setPhase
    · exact ⟨hheld, bytes, hb, hfound bytes inspection hfinds⟩
    · intro _
      rw [hp]
      rfl
  · exact h

theorem register (h : Intake c s) (i : Nat) : Intake c (s.register i) := by
  rw [IntakeState.register]
  split
  · rename_i vendor hp
    have hsound := h.sound i
    rw [hp] at hsound
    have hheld : s.Held (s.uploads i).file := hsound
    apply h.setPhase
    · split
      · exact hheld
      · obtain ⟨bytes, hb⟩ := hheld.onDisk
        exact ⟨hheld, bytes, hb, fun _ hn => (Option.some_ne_none _ hn.symm).elim,
          fun _ hn => (Option.some_ne_none _ hn.symm).elim,
          fun _ hn => (Option.some_ne_none _ hn.symm).elim⟩
    · intro _
      rw [hp]
      rfl
  · exact h

theorem abandon (h : Intake c s) (i : Nat) (applied : Bool) {phase : UploadPhase}
    (hphase : phase = .idle ∨ phase = .answered .raised) :
    Intake c (if (s.uploads i).phase.ended then s
      else (if applied then s.awaited i else s).setPhase i phase) := by
  split
  · exact h
  · split
    · exact h.resolved i (hphase.imp_right .inl)
    · apply h.setPhase
      · rcases hphase with rfl | rfl <;> trivial
      · rcases hphase with rfl | rfl <;> exact fun hp => Bool.noConfusion hp

theorem step (h : Intake c s) (w : ProcessChunkCommand) (e : IntakeEvent) :
    Intake c (s.step c w e) := by
  cases e with
  | ingest e => exact h.ingest _ e
  | receive i file bytes vendor => exact h.receive i file bytes vendor
  | register i => exact h.register i
  | stat i =>
    apply h.inspect
    intro bytes found hf
    exact ⟨fun size hs => (Option.some.inj hs).symm, hf.fileSha256, hf.boundaries⟩
  | hash i =>
    apply h.inspect
    intro bytes found hf
    exact ⟨hf.size, fun hash hh => (Option.some.inj hh).symm, hf.boundaries⟩
  | cut i =>
    apply h.inspect
    intro bytes found hf
    exact ⟨hf.size, hf.fileSha256, fun boundaries hb => (Option.some.inj hb).symm⟩
  | resolve i => exact h.resolved i (.inr (.inr rfl))
  | throw i applied => exact h.abandon i applied (.inr rfl)
  | kill i applied => exact h.abandon i applied (.inl rfl)

theorem initial (c : RegisterImportCommand) (now : Int) : Intake c (.initial now) where
  jobs := by
    rintro jobId file ⟨job, hjob, _⟩
    cases hjob
  imports f hf := absurd hf List.not_mem_nil
  ranges := by
    rintro jobId b ⟨row, hrow, _⟩
    cases hrow
  files := by
    rintro jobId jobId' file ⟨job, hjob, _⟩
    cases hjob
  hashes f hf := absurd hf List.not_mem_nil
  vendors f hf := absurd hf List.not_mem_nil
  enqueued chunk hc := absurd hc List.not_mem_nil
  sound i := trivial
  apart i j hi := Bool.noConfusion hi

theorem run (c : RegisterImportCommand) (w : ProcessChunkCommand) (now : Int)
    (events : List IntakeEvent) :
    Intake c (Library.run (IntakeState.step c w) (.initial now) events) :=
  run_invariant_always (fun _ e h => h.step w e) (initial c now) events

/-- The file of an import is not touched by what a request awaits. -/
theorem awaited_kept (h : Intake c s) (i : Nat) (hj : s.Job jobId file) :
    (s.awaited i).Job jobId file ∧ (s.awaited i).disk file = s.disk file := by
  rw [awaited]
  split
  · rename_i vendor size hash boundaries hp
    cases hrefusal : RegisterImportCommand.refusal s vendor hash with
    | some refused =>
      rw [RegisterImportCommand.insert, hrefusal]
      exact ⟨hj, rfl⟩
    | none =>
      rw [insert_eq hrefusal]
      exact ⟨(h.job_register rfl jobId file).2 (.inl hj), rfl⟩
  · rename_i status message hp
    refine ⟨hj, Function.update_of_ne ?_ _ _⟩
    rintro rfl
    exact ((h.sound i).held (by rw [hp]; rfl)).free jobId hj
  · exact ⟨hj, rfl⟩
  · exact ⟨hj, rfl⟩

theorem kept_step (h : Intake c s) (w : ProcessChunkCommand) (e : IntakeEvent)
    (hj : s.Job jobId file) :
    (s.step c w e).Job jobId file ∧ (s.step c w e).disk file = s.disk file := by
  have hinspect (i : Nat) (found : List UInt8 → Inspection → Inspection) :
      (s.inspect i found).Job jobId file ∧ (s.inspect i found).disk file = s.disk file := by
    rw [IntakeState.inspect]
    split <;> exact ⟨hj, rfl⟩
  have habandon (i : Nat) (applied : Bool) (phase : UploadPhase) :
      Job (if (s.uploads i).phase.ended then s
        else (if applied then s.awaited i else s).setPhase i phase) jobId file ∧
      (if (s.uploads i).phase.ended then s
        else (if applied then s.awaited i else s).setPhase i phase).disk file = s.disk file := by
    split
    · exact ⟨hj, rfl⟩
    · split
      · exact h.awaited_kept i hj
      · exact ⟨hj, rfl⟩
  cases e with
  | ingest e => exact ⟨(s.job_ingest _ e jobId file).2 hj, rfl⟩
  | receive i file' bytes vendor =>
    rw [IntakeState.step, IntakeState.receive]
    split
    · rename_i hguard
      refine ⟨hj, Function.update_of_ne ?_ _ _⟩
      rintro rfl
      exact of_decide_eq_true (List.all_eq_true.1 hguard.2 _ (h.jobs jobId file hj).2.1) rfl
    · exact ⟨hj, rfl⟩
  | register i =>
    rw [IntakeState.step, IntakeState.register]
    split <;> exact ⟨hj, rfl⟩
  | stat i => exact hinspect i _
  | hash i => exact hinspect i _
  | cut i => exact hinspect i _
  | resolve i => exact h.awaited_kept i hj
  | throw i applied => exact habandon i applied _
  | kill i applied => exact habandon i applied _

/-- An import and its file last for the rest of the run. -/
theorem kept_run (h : Intake c s) (w : ProcessChunkCommand) (events : List IntakeEvent)
    (hj : s.Job jobId file) :
    (Library.run (IntakeState.step c w) s events).Job jobId file ∧
      (Library.run (IntakeState.step c w) s events).disk file = s.disk file := by
  induction events generalizing s with
  | nil => exact ⟨hj, rfl⟩
  | cons e events ih =>
    obtain ⟨hj', hdisk⟩ := h.kept_step w e hj
    obtain ⟨hrun, hkept⟩ := ih (h.step w e) hj'
    exact ⟨hrun, hkept.trans hdisk⟩

end Intake

/-- Whatever the uploads, the workers and the failures between them do: an import's file is on disk
as it was when it was hashed and cut, and stays so; its row says so, and its chunks are the ranges
that it was cut into. No contents are imported twice, no vendor has two imports that are not
settled. An upload that was accepted has all its chunks on the queue, and one that was refused has
left neither a file nor an import. -/
theorem import_intake (c : RegisterImportCommand) (w : ProcessChunkCommand) (now : Int)
    (events : List IntakeEvent) :
    let s := Library.run (IntakeState.step c w) (.initial now) events
    (∀ jobId file, s.Job jobId file → ∃ bytes, s.disk file = some bytes ∧
      (∃ f ∈ s.imports.rows, f.jobId = jobId ∧ f.Describes c bytes) ∧
      (∀ b, s.Range jobId b ↔ b ∈ chunkBoundaries bytes c.chunkBytes) ∧
      ∀ later, (Library.run (IntakeState.step c w) s later).Job jobId file ∧
        (Library.run (IntakeState.step c w) s later).disk file = some bytes) ∧
    (∀ f ∈ s.imports.rows, ∀ g ∈ s.imports.rows, f.fileSha256 = g.fileSha256 → f = g) ∧
    (∀ f ∈ s.imports.rows, ∀ g ∈ s.imports.rows, f.vendor = g.vendor →
      s.unsettled f.jobId → s.unsettled g.jobId → f = g) ∧
    (∀ i jobId total, (s.uploads i).phase = .answered (.accepted jobId total) →
      s.Imported c (s.uploads i).file jobId [] total) ∧
    ∀ i status message, (s.uploads i).phase = .answered (.refused status message) →
      s.disk (s.uploads i).file = none ∧ ∀ jobId, ¬s.Job jobId (s.uploads i).file := by
  intro s
  have h : Intake c s := Intake.run c w now events
  refine ⟨?_, h.hashes, h.vendors, ?_, ?_⟩
  · intro jobId file hj
    obtain ⟨_, _, bytes, hb, hf, hr⟩ := h.jobs jobId file hj
    refine ⟨bytes, hb, hf, hr, fun later => ?_⟩
    obtain ⟨hrun, hkept⟩ := h.kept_run w later hj
    exact ⟨hrun, hkept.trans hb⟩
  · intro i jobId total hp
    have hsound := h.sound i
    rw [hp] at hsound
    exact hsound
  · intro i status message hp
    have hsound := h.sound i
    rw [hp] at hsound
    exact hsound.2

/-- Nothing is on disk but the files of imports, and those that requests have for themselves. -/
def IntakeState.Tidy (s : IntakeState) : Prop :=
  ∀ file bytes, s.disk file = some bytes → (∃ jobId, s.Job jobId file) ∨
    ∃ i, (s.uploads i).phase.holding = true ∧ (s.uploads i).file = file

/-- No request fails, and no process that serves one is killed. -/
def IntakeEvent.Completes : IntakeEvent → Prop
  | .throw _ _ => False
  | .kill _ _ => False
  | _ => True

namespace IntakeState.Tidy

variable {c : RegisterImportCommand} {s s' : IntakeState}

/-- A request that moves on and keeps its file, or hands it to an import. -/
theorem move (h : s.Tidy) (hdisk : ∀ file bytes, s'.disk file = some bytes →
      s.disk file = some bytes)
    (hjob : ∀ jobId file, s.Job jobId file → s'.Job jobId file)
    (huploads : s'.uploads = Function.update s.uploads i ⟨(s.uploads i).file, phase⟩)
    (hi : (s.uploads i).phase.holding = true → phase.holding = true ∨
      s'.disk (s.uploads i).file = none ∨ ∃ jobId, s'.Job jobId (s.uploads i).file) :
    s'.Tidy := by
  intro file bytes hb
  rcases h file bytes (hdisk file bytes hb) with ⟨jobId, hj⟩ | ⟨j, hp, rfl⟩
  · exact .inl ⟨jobId, hjob jobId file hj⟩
  · by_cases hj : j = i
    · rw [hj] at hp hb ⊢
      rcases hi hp with hphase | hnone | hj
      · right
        refine ⟨i, ?_⟩
        rw [huploads, Function.update_self]
        exact ⟨hphase, rfl⟩
      · rw [hnone] at hb
        cases hb
      · exact .inl hj
    · right
      refine ⟨j, ?_⟩
      rw [huploads, Function.update_of_ne hj]
      exact ⟨hp, rfl⟩

/-- A request moves on and nothing else changes. -/
theorem setPhase (h : s.Tidy) (i : Nat) {phase : UploadPhase}
    (hphase : (s.uploads i).phase.holding = true → phase.holding = true) :
    (s.setPhase i phase).Tidy :=
  h.move (fun _ _ hb => hb) (fun _ _ hj => hj) rfl fun hp => .inl (hphase hp)

theorem resolve (h : s.Tidy) (hi : Intake c s) (i : Nat) :
    ((s.awaited i).setPhase i (s.next i)).Tidy := by
  have hsame (hawaited : s.awaited i = s) (hnext : s.next i = (s.uploads i).phase) :
      ((s.awaited i).setPhase i (s.next i)).Tidy := by
    rw [hawaited, hnext]
    exact h.setPhase i id
  cases hp : (s.uploads i).phase with
  | discarding status message =>
    have hawaited : s.awaited i =
        { s with disk := Function.update s.disk (s.uploads i).file none } := by
      rw [awaited, hp]
    rw [hawaited]
    apply h.move
    · intro file bytes hb
      by_cases hf : file = (s.uploads i).file
      · rw [hf] at hb
        exact absurd ((Function.update_self ..).symm.trans hb) (Option.some_ne_none bytes).symm
      · exact (Function.update_of_ne hf _ _).symm.trans hb
    · exact fun _ _ hj => hj
    · rfl
    · exact fun _ => .inr (.inl (Function.update_self ..))
  | enqueueing jobId rest total =>
    cases rest with
    | nil => exact hsame (by rw [awaited, hp]) (by rw [next, hp])
    | cons b rest =>
      have hawaited : s.awaited i =
          { s with enqueued := s.enqueued ++ [⟨jobId, b.chunkIndex⟩] } := by
        rw [awaited, hp]
      rw [hawaited]
      apply h.move
      · exact fun _ _ hb => hb
      · exact fun _ _ hj => hj
      · rfl
      · rw [hp]
        exact fun hholding => Bool.noConfusion hholding
  | inspecting vendor found =>
    obtain ⟨size, hash, boundaries⟩ := found
    cases size with
    | none => exact hsame (by rw [awaited, hp]) (by rw [next, hp])
    | some size =>
      cases hash with
      | none => exact hsame (by rw [awaited, hp]) (by rw [next, hp])
      | some hash =>
        cases boundaries with
        | none => exact hsame (by rw [awaited, hp]) (by rw [next, hp])
        | some boundaries =>
          cases hrefusal : RegisterImportCommand.refusal s vendor hash with
          | some refused =>
            have hawaited : s.awaited i = { s with lastJobId := s.lastJobId + 1 } := by
              simp only [awaited, hp, RegisterImportCommand.insert, hrefusal]
            rw [hawaited]
            apply h.move
            · exact fun _ _ hb => hb
            · exact fun _ _ hj => hj
            · rfl
            · intro _
              left
              simp only [next, hp, hrefusal]
              rfl
          | none =>
            have hawaited : s.awaited i = RegisterImportCommand.insert s (s.uploads i).file
                vendor size hash boundaries := by
              simp only [awaited, hp]
            rw [hawaited, Intake.insert_eq hrefusal]
            apply h.move
            · exact fun _ _ hb => hb
            · exact fun jobId file hj => (hi.job_register rfl jobId file).2 (.inl hj)
            · rfl
            · exact fun _ => .inr (.inr ⟨_, (hi.job_register rfl _ _).2 (.inr ⟨rfl, rfl⟩)⟩)
  | _ => exact hsame (by rw [awaited, hp]) (by rw [next, hp])

theorem inspect (h : s.Tidy) (i : Nat) (found : List UInt8 → Inspection → Inspection) :
    (s.inspect i found).Tidy := by
  rw [IntakeState.inspect]
  split
  · exact h.setPhase i fun _ => rfl
  · exact h

theorem step (h : s.Tidy) (hi : Intake c s) (w : ProcessChunkCommand) (e : IntakeEvent)
    (he : e.Completes) : (s.step c w e).Tidy := by
  cases e with
  | ingest e =>
    intro file bytes hb
    rcases h file bytes hb with ⟨jobId, hj⟩ | hheld
    · exact .inl ⟨jobId, (s.job_ingest _ e jobId file).2 hj⟩
    · exact .inr hheld
  | receive i file bytes vendor =>
    rw [IntakeState.step, receive]
    split
    · rename_i hguard
      intro file' bytes' hb
      by_cases hf : file' = file
      · right
        refine ⟨i, ?_⟩
        simp only [Function.update_self]
        exact ⟨rfl, hf.symm⟩
      · have hold : s.disk file' = some bytes' := (Function.update_of_ne hf _ _).symm.trans hb
        rcases h file' bytes' hold with hj | ⟨j, hp, rfl⟩
        · exact .inl hj
        · have hji : j ≠ i := by
            rintro rfl
            rw [UploadPhase.holding_of_ended hguard.1] at hp
            cases hp
          right
          refine ⟨j, ?_⟩
          simp only [Function.update_of_ne hji, hp, and_self]
    · exact h
  | register i =>
    rw [IntakeState.step, register]
    split
    · apply h.setPhase
      intro _
      split <;> rfl
    · exact h
  | stat i => exact h.inspect i _
  | hash i => exact h.inspect i _
  | cut i => exact h.inspect i _
  | resolve i => exact h.resolve hi i
  | throw i applied => exact absurd he id
  | kill i applied => exact absurd he id

end IntakeState.Tidy

/-- Until a request fails or its process is killed, uploads leave nothing on disk that no import
reads and no request is at work on. -/
theorem uploads_tidy (c : RegisterImportCommand) (w : ProcessChunkCommand) (now : Int)
    (events : List IntakeEvent) (hcompletes : ∀ e ∈ events, e.Completes) :
    (Library.run (IntakeState.step c w) (.initial now) events).Tidy := by
  have h := run_invariant (I := fun s => Intake c s ∧ s.Tidy) (C := fun _ e => e.Completes)
    (fun s e h he => ⟨h.1.step w e, h.2.step h.1 w e he⟩)
    ⟨Intake.initial c now, fun file bytes hb => absurd hb (Option.some_ne_none bytes).symm⟩
    (along_of_mem hcompletes)
  exact h.2

/-- A file is uploaded and read, and its import registered and enqueued. -/
def scarfUpload : List IntakeEvent :=
  [.receive 0 "a.csv".toList scarfFile (some "acme".toList), .register 0, .cut 0, .stat 0, .hash 0,
    .resolve 0, .resolve 0]

theorem uploads_tidy_scarfUpload :
    (Library.run (IntakeState.step ⟨1000, fun _ => []⟩ scarfCommand) (.initial 0)
      scarfUpload).Tidy := by
  apply uploads_tidy
  intro e he
  simp only [scarfUpload, List.mem_cons, List.not_mem_nil, or_false] at he
  rcases he with rfl | rfl | rfl | rfl | rfl | rfl | rfl <;> trivial

end PromotionManagement
