import PromotionManagement.IntakeSteps

namespace PromotionManagement
open Library IntakeState
set_option autoImplicit true

theorem chunkBoundaries_nodup (file : List UInt8) (targetBytes : Nat) :
    ((chunkBoundaries file targetBytes).map ChunkBoundary.chunkIndex).Nodup := by
  rw [(chunkBoundaries_cut file targetBytes).numbered]
  exact List.nodup_range'

section
variable {chunks : Table ChunkRow.chunk} {f : ChunkBoundary → ChunkRow}

theorem mem_of_mem_insert {row r : ChunkRow} (h : row ∈ (chunks.insert r).rows) :
    row ∈ chunks.rows ∨ row = r := by
  cases hf : chunks.find r.chunk with
  | none => exact (Table.mem_insert chunks r hf).1 h
  | some r' =>
    rw [Table.insert, dif_neg (by rw [hf]; exact Option.some_ne_none r')] at h
    exact .inl h

theorem of_mem_foldl_insert {row : ChunkRow} {boundaries : List ChunkBoundary}
    (h : row ∈ (boundaries.foldl (fun chunks b => chunks.insert (f b)) chunks).rows) :
    row ∈ chunks.rows ∨ ∃ b ∈ boundaries, row = f b := by
  induction boundaries generalizing chunks with
  | nil => exact .inl h
  | cons b boundaries ih =>
    rcases ih h with h | ⟨b', hb', he⟩
    · rcases mem_of_mem_insert h with h | he
      · exact .inl h
      · exact .inr ⟨b, List.mem_cons_self, he⟩
    · exact .inr ⟨b', List.mem_cons_of_mem b hb', he⟩

theorem foldl_insert_mem {boundaries : List ChunkBoundary}
    (hnew : ∀ b ∈ boundaries, chunks.find (f b).chunk = none)
    (hnodup : (boundaries.map fun b => (f b).chunk).Nodup) (hb : b ∈ boundaries) :
    f b ∈ (boundaries.foldl (fun chunks b => chunks.insert (f b)) chunks).rows := by
  induction boundaries generalizing chunks with
  | nil => cases hb
  | cons b' boundaries ih =>
    rw [List.map_cons, List.nodup_cons] at hnodup
    have hfirst := hnew b' List.mem_cons_self
    rcases List.mem_cons.1 hb with rfl | hb
    · exact mem_foldl_insert ((Table.mem_insert chunks _ hfirst).2 (.inr rfl)) f boundaries
    · refine ih ?_ hnodup.2 hb
      intro b'' hb''
      rw [Table.find_insert chunks _ hfirst, if_neg, hnew b'' (List.mem_cons_of_mem b' hb'')]
      intro he
      exact hnodup.1 (he ▸ List.mem_map_of_mem (f := fun b => (f b).chunk) hb'')

end

namespace Intake

variable {c : RegisterImportCommand} {s : IntakeState}

theorem unregistered (h : Intake c s) : Unregistered s.world.db (s.lastJobId + 1) := by
  constructor
  · apply Table.find_eq_none.2
    intro job hjob he
    have hle := (h.jobs job.id job.fileRef ⟨job, hjob, rfl, rfl⟩).1
    omega
  · intro row hrow he
    obtain ⟨file, hj⟩ := h.ranges row.chunk.jobId
      ⟨row.chunk.chunkIndex, row.startOffset, row.endOffset⟩ ⟨row, hrow, rfl, rfl, rfl⟩
    have hle := (h.jobs _ _ hj).1
    omega

/-- What the transaction adds when no unique index refuses it. -/
theorem insert_eq (hrefusal : RegisterImportCommand.refusal s vendor fileSha256 = none) :
    RegisterImportCommand.insert s file vendor size fileSha256 boundaries =
      { s with
        world := { s.world with db := s.world.db.register (s.lastJobId + 1) file boundaries }
        imports := s.imports.insert
          ⟨s.lastJobId + 1, vendor, fileSha256, size, boundaries.length⟩
        lastJobId := s.lastJobId + 1 } := by
  rw [RegisterImportCommand.insert, hrefusal]

theorem job_register (h : Intake c s) {s' : IntakeState}
    (hdb : s'.world.db = s.world.db.register (s.lastJobId + 1) file boundaries) (jobId : Nat)
    (file' : Text) :
    s'.Job jobId file' ↔ s.Job jobId file' ∨ jobId = s.lastJobId + 1 ∧ file' = file := by
  have hmem (job : JobRow) : job ∈ s'.world.db.jobs.rows ↔ job ∈ s.world.db.jobs.rows ∨
      job = .registered (s.lastJobId + 1) file s.world.db.now := by
    rw [hdb]
    exact Table.mem_insert s.world.db.jobs _ h.unregistered.job
  constructor
  · rintro ⟨job, hjob, rfl, rfl⟩
    rcases (hmem job).1 hjob with hjob | rfl
    · exact .inl ⟨job, hjob, rfl, rfl⟩
    · exact .inr ⟨rfl, rfl⟩
  · rintro (⟨job, hjob, rfl, rfl⟩ | ⟨rfl, rfl⟩)
    · exact ⟨job, (hmem job).2 (.inl hjob), rfl, rfl⟩
    · exact ⟨_, (hmem _).2 (.inr rfl), rfl, rfl⟩

theorem range_register (h : Intake c s) {s' : IntakeState}
    (hdb : s'.world.db = s.world.db.register (s.lastJobId + 1) file boundaries)
    (hnodup : (boundaries.map ChunkBoundary.chunkIndex).Nodup) (jobId : Nat) (b : ChunkBoundary) :
    s'.Range jobId b ↔ s.Range jobId b ∨ jobId = s.lastJobId + 1 ∧ b ∈ boundaries := by
  have hchunks : s'.world.db.chunks = boundaries.foldl (fun chunks b => chunks.insert
      (.registered ⟨s.lastJobId + 1, b.chunkIndex⟩ b.startOffset b.endOffset))
      s.world.db.chunks := by
    rw [hdb]
    rfl
  rw [Range, hchunks]
  constructor
  · rintro ⟨row, hrow, hchunk, hstart, hend⟩
    rcases of_mem_foldl_insert hrow with hrow | ⟨b', hb', rfl⟩
    · exact .inl ⟨row, hrow, hchunk, hstart, hend⟩
    · obtain ⟨hid, hindex⟩ := ChunkProcess.mk.inj hchunk
      have he : b' = b := by
        cases b
        cases b'
        cases hindex
        cases hstart
        cases hend
        rfl
      exact .inr ⟨hid.symm, he ▸ hb'⟩
  · rintro (⟨row, hrow, hrest⟩ | ⟨rfl, hb⟩)
    · exact ⟨row, mem_foldl_insert hrow _ boundaries, hrest⟩
    · refine ⟨_, foldl_insert_mem ?_ ?_ hb, rfl, rfl, rfl⟩
      · intro b' _
        apply Table.find_eq_none.2
        intro row hrow he
        exact h.unregistered.chunks row hrow (congrArg ChunkProcess.jobId he)
      · have hmap : (boundaries.map fun b : ChunkBoundary => (ChunkRow.registered
            ⟨s.lastJobId + 1, b.chunkIndex⟩ b.startOffset b.endOffset).chunk) =
            (boundaries.map ChunkBoundary.chunkIndex).map (ChunkProcess.mk (s.lastJobId + 1)) := by
          rw [List.map_map]
          rfl
        rw [hmap]
        exact hnodup.map fun i j he => (ChunkProcess.mk.inj he).2

/-- Imports stay as they were where no row of theirs and no file of theirs changes. -/
theorem of_same (h : Intake c s) {s' : IntakeState}
    (hjob : ∀ jobId file, s'.Job jobId file ↔ s.Job jobId file)
    (hrange : ∀ jobId b, s'.Range jobId b ↔ s.Range jobId b)
    (hunsettled : ∀ jobId, s'.unsettled jobId → s.unsettled jobId)
    (himports : s'.imports = s.imports) (hlast : s.lastJobId ≤ s'.lastJobId)
    (hnames : ∀ file ∈ s.names, file ∈ s'.names)
    (hdisk : ∀ jobId file, s.Job jobId file → s'.disk file = s.disk file)
    (henqueued : ∀ chunk ∈ s'.enqueued, chunk ∈ s.enqueued ∨
      ∃ b, s.Range chunk.jobId b ∧ b.chunkIndex = chunk.chunkIndex)
    (hsound : ∀ i, (s'.uploads i).phase.Sound c s' (s'.uploads i).file)
    (hapart : ∀ i j, (s'.uploads i).phase.holding → (s'.uploads j).phase.holding →
      (s'.uploads i).file = (s'.uploads j).file → i = j) : Intake c s' := by
  constructor
  · intro jobId file hj
    have hj := (hjob jobId file).1 hj
    obtain ⟨hle, hname, bytes, hb, hf, hr⟩ := h.jobs jobId file hj
    rw [himports, hdisk jobId file hj]
    exact ⟨hle.trans hlast, hnames file hname, bytes, hb, hf,
      fun b => (hrange jobId b).trans (hr b)⟩
  · rw [himports]
    intro f hf
    obtain ⟨file, hj⟩ := h.imports f hf
    exact ⟨file, (hjob f.jobId file).2 hj⟩
  · intro jobId b hr
    obtain ⟨file, hj⟩ := h.ranges jobId b ((hrange jobId b).1 hr)
    exact ⟨file, (hjob jobId file).2 hj⟩
  · intro jobId jobId' file hj hj'
    exact h.files jobId jobId' file ((hjob jobId file).1 hj) ((hjob jobId' file).1 hj')
  · rw [himports]
    exact h.hashes
  · rw [himports]
    intro f hf g hg hv hfs hgs
    exact h.vendors f hf g hg hv (hunsettled _ hfs) (hunsettled _ hgs)
  · intro chunk hc
    rcases henqueued chunk hc with hc | ⟨b, hr, hb⟩
    · obtain ⟨b, hr, hb⟩ := h.enqueued chunk hc
      exact ⟨b, (hrange _ _).2 hr, hb⟩
    · exact ⟨b, (hrange _ _).2 hr, hb⟩
  · exact hsound
  · exact hapart

theorem sound_update {s' : IntakeState} {u : Upload} (h : Intake c s)
    (huploads : s'.uploads = Function.update s.uploads i u) (hu : u.phase.Sound c s' u.file)
    (hothers : ∀ j ≠ i, (s.uploads j).phase.Sound c s (s.uploads j).file →
      (s.uploads j).phase.Sound c s' (s.uploads j).file) (j : Nat) :
    (s'.uploads j).phase.Sound c s' (s'.uploads j).file := by
  rw [huploads]
  by_cases hj : j = i
  · rw [hj, Function.update_self]
    exact hu
  · rw [Function.update_of_ne hj]
    exact hothers j hj (h.sound j)

theorem apart_update {s' : IntakeState} {u : Upload} (h : Intake c s)
    (huploads : s'.uploads = Function.update s.uploads i u)
    (hu : ∀ j ≠ i, u.phase.holding → (s.uploads j).phase.holding → u.file ≠ (s.uploads j).file)
    (j k : Nat) (hj : (s'.uploads j).phase.holding) (hk : (s'.uploads k).phase.holding)
    (hfile : (s'.uploads j).file = (s'.uploads k).file) : j = k := by
  rw [huploads] at hj hk hfile
  by_cases hji : j = i
  · by_cases hki : k = i
    · rw [hji, hki]
    · rw [hji, Function.update_self] at hj hfile
      rw [Function.update_of_ne hki] at hk hfile
      exact absurd hfile (hu k hki hj hk)
  · rw [Function.update_of_ne hji] at hj hfile
    by_cases hki : k = i
    · rw [hki, Function.update_self] at hk hfile
      exact absurd hfile.symm (hu j hji hk hj)
    · rw [Function.update_of_ne hki] at hk hfile
      exact h.apart j k hj hk hfile

/-- A request goes on while nothing but it changes. -/
theorem setPhase (h : Intake c s) (i : Nat) {phase : UploadPhase}
    (hphase : phase.Sound c s (s.uploads i).file)
    (hholding : phase.holding = true → (s.uploads i).phase.holding = true) :
    Intake c (s.setPhase i phase) := by
  have hsame {file : Text} {phase' : UploadPhase} (hp : phase'.Sound c s file) :
      phase'.Sound c (s.setPhase i phase) file :=
    hp.mono (fun hf => hf) rfl (fun _ => Iff.rfl) fun _ hc => hc
  apply h.of_same
  · exact fun _ _ => Iff.rfl
  · exact fun _ _ => Iff.rfl
  · exact fun _ hu => hu
  · rfl
  · exact Nat.le_refl _
  · exact fun _ hf => hf
  · exact fun _ _ _ => rfl
  · exact fun _ hc => .inl hc
  · exact h.sound_update rfl (hsame hphase) fun _ _ => hsame
  · apply h.apart_update rfl
    intro j hj hp hpj he
    exact hj (h.apart i j (hholding hp) hpj he).symm

/-- The file of a request, unless it has forgotten it, has one of the names drawn. -/
theorem named (h : Intake c s) (j : Nat) : (s.uploads j).phase = .idle ∨
    (s.uploads j).phase = .answered .raised ∨ (s.uploads j).file ∈ s.names := by
  have hsound := h.sound j
  cases hp : (s.uploads j).phase with
  | idle => exact .inl rfl
  | enqueueing jobId rest total =>
    rw [hp] at hsound
    exact .inr (.inr (h.jobs _ _ hsound.1).2.1)
  | answered answer =>
    rw [hp] at hsound
    cases answer with
    | accepted jobId total => exact .inr (.inr (h.jobs _ _ hsound.1).2.1)
    | refused status message => exact .inr (.inr hsound.1)
    | raised => exact .inr (.inl rfl)
  | _ => exact .inr (.inr (hsound.held (by rw [hp]; rfl)).named)

/-- A file lands on disk under a name that was never drawn. -/
theorem receive (h : Intake c s) (i : Nat) (file : Text) (bytes : List UInt8)
    (vendor : Option Text) : Intake c (s.receive i file bytes vendor) := by
  rw [IntakeState.receive]
  split
  · rename_i hguard
    have hnew : file ∉ s.names :=
      fun hf => of_decide_eq_true (List.all_eq_true.1 hguard.2 _ hf) rfl
    have hfree (jobId : Nat) : ¬s.Job jobId file := fun hj => hnew (h.jobs jobId file hj).2.1
    have hname : ∀ f ∈ s.names, f ∈ file :: s.names := fun _ hf => List.mem_cons_of_mem file hf
    have hdisk (file' : Text) (hne : file' ≠ file) :
        Function.update s.disk file (some bytes) file' = s.disk file' :=
      Function.update_of_ne hne _ _
    apply h.of_same
    · exact fun _ _ => Iff.rfl
    · exact fun _ _ => Iff.rfl
    · exact fun _ hu => hu
    · rfl
    · exact Nat.le_refl _
    · exact hname
    · intro jobId file' hj
      apply hdisk
      rintro rfl
      exact hfree jobId hj
    · exact fun _ hc => .inl hc
    · apply h.sound_update rfl
      · exact ⟨List.mem_cons_self, ⟨bytes, Function.update_self ..⟩, hfree⟩
      · intro j _ hsound
        refine hsound.spared ?_ ⟨hname, hdisk, fun _ _ _ => Iff.rfl, fun _ hc => hc⟩
        refine (h.named j).imp_right fun hj => hj.imp_right fun hj => ?_
        rintro rfl
        exact hnew hj
    · apply h.apart_update rfl
      rintro j _ _ hpj rfl
      exact hnew ((h.sound j).held hpj).named
  · exact h

/-- The other requests, when a request gives up the file it has for itself. -/
theorem file_ne (h : Intake c s) (hi : (s.uploads i).phase.holding = true) (hj : j ≠ i) :
    (s.uploads j).phase = .idle ∨ (s.uploads j).phase = .answered .raised ∨
      (s.uploads j).file ≠ (s.uploads i).file :=
  (h.sound j).file_ne ((h.sound i).held hi) fun hp he => hj (h.apart j i hp hi he)

/-- A request deletes its file. -/
theorem discard (h : Intake c s) (hi : (s.uploads i).phase.holding = true) {phase : UploadPhase}
    (hphase : phase = .idle ∨ ∃ answer, phase = .answered answer ∧
      ∀ jobId total, answer ≠ .accepted jobId total) :
    Intake c (IntakeState.setPhase
      { s with disk := Function.update s.disk (s.uploads i).file none } i phase) := by
  have hheld := (h.sound i).held hi
  have hdisk (file : Text) (hne : file ≠ (s.uploads i).file) :
      Function.update s.disk (s.uploads i).file none file = s.disk file :=
    Function.update_of_ne hne _ _
  have hnot : phase.holding = false := by
    rcases hphase with rfl | ⟨answer, rfl, _⟩ <;> rfl
  apply h.of_same
  · exact fun _ _ => Iff.rfl
  · exact fun _ _ => Iff.rfl
  · exact fun _ hu => hu
  · rfl
  · exact Nat.le_refl _
  · exact fun _ hf => hf
  · intro jobId file hj
    apply hdisk
    rintro rfl
    exact hheld.free jobId hj
  · exact fun _ hc => .inl hc
  · apply h.sound_update rfl
    · rcases hphase with rfl | ⟨answer, rfl, hanswer⟩
      · trivial
      · cases answer with
        | accepted jobId total => exact absurd rfl (hanswer jobId total)
        | refused status message =>
          exact ⟨hheld.named, Function.update_self .., hheld.free⟩
        | raised => trivial
    · intro j hj hsound
      exact hsound.spared (h.file_ne hi hj) ⟨fun _ hf => hf, hdisk, fun _ _ _ => Iff.rfl,
        fun _ hc => hc⟩
  · apply h.apart_update rfl
    intro j _ hp
    rw [hnot] at hp
    cases hp

theorem refusal_none (h : RegisterImportCommand.refusal s vendor fileSha256 = none) :
    (∀ f ∈ s.imports.rows, f.fileSha256 ≠ fileSha256) ∧
      ∀ f ∈ s.imports.rows, f.vendor = vendor → ¬s.unsettled f.jobId := by
  rw [RegisterImportCommand.refusal] at h
  split at h
  · cases h
  · rename_i hhash
    split at h
    · cases h
    · rename_i hvendor
      rw [List.any_eq_true] at hhash hvendor
      constructor
      · exact fun f hf he => hhash ⟨f, hf, decide_eq_true he⟩
      · intro f hf he hu
        exact hvendor ⟨f, hf, Bool.and_eq_true_iff.2 ⟨decide_eq_true he, hu⟩⟩

theorem jobId_le (h : Intake c s) (hf : f ∈ s.imports.rows) : f.jobId ≤ s.lastJobId := by
  obtain ⟨file, hj⟩ := h.imports f hf
  exact (h.jobs f.jobId file hj).1

theorem unsettled_register (h : Intake c s) {s' : IntakeState}
    (hdb : s'.world.db = s.world.db.register (s.lastJobId + 1) file boundaries)
    (hle : jobId ≤ s.lastJobId) : s'.unsettled jobId = s.unsettled jobId := by
  have hjobs : s'.world.db.jobs = s.world.db.jobs.insert
      (.registered (s.lastJobId + 1) file s.world.db.now) := by
    rw [hdb]
    rfl
  rw [unsettled, unsettled, hjobs, Table.find_insert _ _ h.unregistered.job, if_neg]
  change ¬jobId = s.lastJobId + 1
  omega

/-- A transaction that no unique index refuses adds the import of a request's file. -/
theorem insert (h : Intake c s) (hi : (s.uploads i).phase.holding = true)
    (hbytes : s.disk (s.uploads i).file = some bytes)
    (hrefusal : RegisterImportCommand.refusal s vendor (c.sha256 bytes) = none)
    {phase : UploadPhase} {s₁ : IntakeState}
    (hs₁ : s₁ = RegisterImportCommand.insert s (s.uploads i).file vendor bytes.length
      (c.sha256 bytes) (chunkBoundaries bytes c.chunkBytes))
    (hphase : phase.Sound c s₁ (s.uploads i).file) (hnot : phase.holding = false) :
    Intake c (s₁.setPhase i phase) := by
  rw [insert_eq hrefusal] at hs₁
  have hheld := (h.sound i).held hi
  obtain ⟨hnewHash, hidle⟩ := refusal_none hrefusal
  have hdb : s₁.world.db = s.world.db.register (s.lastJobId + 1) (s.uploads i).file
      (chunkBoundaries bytes c.chunkBytes) := by rw [hs₁]
  have hjob := h.job_register hdb
  have hrange := h.range_register hdb (chunkBoundaries_nodup bytes c.chunkBytes)
  have hunsettled {jobId : Nat} (hle : jobId ≤ s.lastJobId) := h.unsettled_register hdb hle
  have himports (f : ImportFile) : f ∈ s₁.imports.rows ↔ f ∈ s.imports.rows ∨
      f = ⟨s.lastJobId + 1, vendor, c.sha256 bytes, bytes.length,
        (chunkBoundaries bytes c.chunkBytes).length⟩ := by
    rw [hs₁]
    apply Table.mem_insert
    apply Table.find_eq_none.2
    intro f hf he
    have hle := h.jobId_le hf
    rw [he] at hle
    exact absurd hle (Nat.not_succ_le_self _)
  have hdisk : s₁.disk = s.disk := by rw [hs₁]
  have hnames : s₁.names = s.names := by rw [hs₁]
  have henqueued : s₁.enqueued = s.enqueued := by rw [hs₁]
  have huploads : s₁.uploads = s.uploads := by rw [hs₁]
  have hlast : s₁.lastJobId = s.lastJobId + 1 := by rw [hs₁]
  have hset : (s₁.setPhase i phase).uploads =
      Function.update s.uploads i ⟨(s.uploads i).file, phase⟩ := by
    rw [IntakeState.setPhase, huploads]
  have hnoRange (b : ChunkBoundary) : ¬s.Range (s.lastJobId + 1) b := by
    intro hr
    obtain ⟨file, hj⟩ := h.ranges _ b hr
    exact absurd (h.jobs _ file hj).1 (Nat.not_succ_le_self _)
  constructor
  · intro jobId file hj
    change jobId ≤ s₁.lastJobId ∧ file ∈ s₁.names ∧ ∃ bytes, s₁.disk file = some bytes ∧
      (∃ f ∈ s₁.imports.rows, f.jobId = jobId ∧ f.Describes c bytes) ∧
      ∀ b, s₁.Range jobId b ↔ b ∈ chunkBoundaries bytes c.chunkBytes
    rw [hlast, hnames, hdisk]
    rcases (hjob jobId file).1 hj with hj | ⟨rfl, rfl⟩
    · obtain ⟨hle, hname, bytes', hb, ⟨f, hf, hid, hd⟩, hr⟩ := h.jobs jobId file hj
      refine ⟨hle.trans (Nat.le_succ _), hname, bytes', hb,
        ⟨f, (himports f).2 (.inl hf), hid, hd⟩, ?_⟩
      intro b
      rw [hrange, ← hr b, or_iff_left]
      rintro ⟨rfl, _⟩
      exact absurd hle (Nat.not_succ_le_self _)
    · refine ⟨Nat.le_refl _, hheld.named, bytes, hbytes,
        ⟨_, (himports _).2 (.inr rfl), rfl, rfl, rfl, rfl⟩, ?_⟩
      intro b
      rw [hrange]
      exact ⟨fun hr => hr.elim (fun hr => absurd hr (hnoRange b)) And.right,
        fun hb => .inr ⟨rfl, hb⟩⟩
  · intro f hf
    rcases (himports f).1 hf with hf | rfl
    · obtain ⟨file, hj⟩ := h.imports f hf
      exact ⟨file, (hjob f.jobId file).2 (.inl hj)⟩
    · exact ⟨_, (hjob _ _).2 (.inr ⟨rfl, rfl⟩)⟩
  · intro jobId b hr
    rcases (hrange jobId b).1 hr with hr | ⟨rfl, _⟩
    · obtain ⟨file, hj⟩ := h.ranges jobId b hr
      exact ⟨file, (hjob jobId file).2 (.inl hj)⟩
    · exact ⟨_, (hjob _ _).2 (.inr ⟨rfl, rfl⟩)⟩
  · intro jobId jobId' file hj hj'
    rcases (hjob jobId file).1 hj with hj | ⟨rfl, rfl⟩
    · rcases (hjob jobId' file).1 hj' with hj' | ⟨_, rfl⟩
      · exact h.files jobId jobId' file hj hj'
      · exact absurd hj (hheld.free jobId)
    · rcases (hjob jobId' _).1 hj' with hj' | ⟨rfl, _⟩
      · exact absurd hj' (hheld.free jobId')
      · rfl
  · intro f hf g hg he
    rcases (himports f).1 hf with hf | rfl
    · rcases (himports g).1 hg with hg | rfl
      · exact h.hashes f hf g hg he
      · exact absurd he (hnewHash f hf)
    · rcases (himports g).1 hg with hg | rfl
      · exact absurd he.symm (hnewHash g hg)
      · rfl
  · intro f hf g hg he hfs hgs
    change s₁.unsettled f.jobId = true at hfs
    change s₁.unsettled g.jobId = true at hgs
    rcases (himports f).1 hf with hf | rfl
    · rw [hunsettled (h.jobId_le hf)] at hfs
      rcases (himports g).1 hg with hg | rfl
      · rw [hunsettled (h.jobId_le hg)] at hgs
        exact h.vendors f hf g hg he hfs hgs
      · exact absurd hfs (hidle f hf he)
    · rcases (himports g).1 hg with hg | rfl
      · rw [hunsettled (h.jobId_le hg)] at hgs
        exact absurd hgs (hidle g hg he.symm)
      · rfl
  · intro chunk hc
    change chunk ∈ s₁.enqueued at hc
    rw [henqueued] at hc
    obtain ⟨b, hr, hb⟩ := h.enqueued chunk hc
    exact ⟨b, (hrange _ _).2 (.inl hr), hb⟩
  · apply h.sound_update hset
    · exact hphase.mono (fun hf => hf) rfl (fun _ => Iff.rfl) fun _ hc => hc
    · intro j hj hsound
      refine hsound.spared (h.file_ne hi hj) ⟨?_, ?_, ?_, ?_⟩
      · intro file hf
        change file ∈ s₁.names
        rwa [hnames]
      · exact fun file _ => congrFun hdisk file
      · intro jobId file hne
        exact (hjob jobId file).trans (or_iff_left fun he => hne he.2)
      · intro chunk hc
        change chunk ∈ s₁.enqueued
        rwa [henqueued]
  · apply h.apart_update hset
    intro j _ hp
    rw [hnot] at hp
    cases hp

end Intake

end PromotionManagement
