import PromotionManagement.CatalogueWrites
import PromotionManagement.ChunkBounds
import PromotionManagement.ResumedRanges

namespace PromotionManagement
open Library
set_option autoImplicit true

namespace IntakeState

/-- The chunk is a byte range of a file that was imported. -/
def Source (c : RegisterImportCommand) (s : IntakeState) (chunk : ChunkProcess)
    (b : ChunkBoundary) (bytes : List UInt8) : Prop :=
  chunk.chunkIndex = b.chunkIndex ∧ b ∈ chunkBoundaries bytes c.chunkBytes ∧
    ∃ file, s.Job chunk.jobId file ∧ s.disk file = some bytes

/-- The row is what some rules make of a line of its own import's file, at its own offset. -/
def Traces (c : RegisterImportCommand) (rules : BasePriceCalculator → Prop) (s : IntakeState)
    (u : ProductUpsert) : Prop :=
  ∃ b bytes line calculator, s.Source c ⟨u.ingestJobId, b.chunkIndex⟩ b bytes ∧
    rules calculator ∧ ReadAt bytes b u.ingestSourceOffset line ∧
    price calculator line u.ingestJobId u.ingestSourceOffset = .ok (some u)

/-- The chunk, as a worker claimed it, is a range of a file, to be taken up where its checkpoint
says. -/
def Claims (c : RegisterImportCommand) (s : IntakeState) (row : ChunkRow) : Prop :=
  ∃ b bytes, s.Source c row.chunk b bytes ∧ row.startOffset = b.startOffset ∧
    row.endOffset = b.endOffset ∧ Resumes bytes b row.nextOffset

/-- A run reads the file of its chunk, and every row of its batch comes from there. -/
def Runs (c : RegisterImportCommand) (rules : BasePriceCalculator → Prop) (s : IntakeState)
    (run : ChunkRun) : Prop :=
  rules run.calculator ∧ (∀ u ∈ run.batch.rows, s.Traces c rules u) ∧
    ∃ b bytes, s.Source c run.claimed.chunk b bytes ∧ Reading bytes b run

/-- What an invocation has in hand comes from the file of its chunk. -/
def Invokes (c : RegisterImportCommand) (rules : BasePriceCalculator → Prop) (s : IntakeState) :
    Phase → Prop
  | .finding claimed => s.Claims c claimed
  | .compiling claimed job =>
    s.Claims c claimed ∧ ∀ found ∈ job, s.Job claimed.chunk.jobId found.fileRef
  | .reading run => s.Runs c rules run
  | .storing run _ => s.Runs c rules run
  | .publishing run _ _ => s.Runs c rules run
  | _ => True

/-- Nothing is lost of the imports and their files. -/
def Holds (s s' : IntakeState) : Prop :=
  ∀ jobId file, s.Job jobId file → s'.Job jobId file ∧ s'.disk file = s.disk file

section
variable {c : RegisterImportCommand} {rules : BasePriceCalculator → Prop} {s s' : IntakeState}
  {run : ChunkRun}

theorem Job.unique (h : s.Job jobId file) (h' : s.Job jobId file') : file = file' := by
  obtain ⟨job, hj, hid, rfl⟩ := h
  obtain ⟨job', hj', hid', rfl⟩ := h'
  rw [s.world.db.jobs.eq_of_key hj hj' (hid.trans hid'.symm)]

/-- A chunk is a range of one file, and of one range of it. -/
theorem Source.unique (h : s.Source c chunk b bytes) (h' : s.Source c chunk b' bytes') :
    b = b' ∧ bytes = bytes' := by
  obtain ⟨hindex, hb, file, hj, hdisk⟩ := h
  obtain ⟨hindex', hb', file', hj', hdisk'⟩ := h'
  obtain rfl := hj.unique hj'
  obtain rfl : bytes = bytes' := Option.some.inj (hdisk.symm.trans hdisk')
  refine ⟨?_, rfl⟩
  exact List.inj_on_of_nodup_map (chunkBoundaries_nodup bytes c.chunkBytes) hb hb'
    (hindex.symm.trans hindex')

theorem Source.holds (h : s.Source c chunk b bytes) (hs : Holds s s') :
    s'.Source c chunk b bytes := by
  obtain ⟨hindex, hb, file, hj, hdisk⟩ := h
  obtain ⟨hj', hdisk'⟩ := hs chunk.jobId file hj
  exact ⟨hindex, hb, file, hj', hdisk'.trans hdisk⟩

theorem Traces.holds (h : s.Traces c rules u) (hs : Holds s s') : s'.Traces c rules u := by
  obtain ⟨b, bytes, line, calculator, hsource, hrest⟩ := h
  exact ⟨b, bytes, line, calculator, hsource.holds hs, hrest⟩

theorem Claims.holds (h : s.Claims c row) (hs : Holds s s') : s'.Claims c row := by
  obtain ⟨b, bytes, hsource, hrest⟩ := h
  exact ⟨b, bytes, hsource.holds hs, hrest⟩

theorem Runs.holds (h : s.Runs c rules run) (hs : Holds s s') : s'.Runs c rules run := by
  obtain ⟨hrules, hrows, b, bytes, hsource, hreading⟩ := h
  exact ⟨hrules, fun u hu => (hrows u hu).holds hs, b, bytes, hsource.holds hs, hreading⟩

theorem Invokes.holds {phase : Phase} (h : s.Invokes c rules phase) (hs : Holds s s') :
    s'.Invokes c rules phase := by
  cases phase with
  | finding claimed => exact Claims.holds h hs
  | compiling claimed job =>
    exact ⟨h.1.holds hs, fun found hf => (hs _ _ (h.2 found hf)).1⟩
  | reading run => exact Runs.holds h hs
  | storing run leftover => exact Runs.holds h hs
  | publishing run ids leftover => exact Runs.holds h hs
  | _ => trivial

theorem invokes_of_not_working {phase : Phase} (h : phase.working = false) :
    s.Invokes c rules phase := by
  cases phase with
  | finding claimed => cases h
  | compiling claimed job => cases h
  | reading run => cases h
  | storing run leftover => cases h
  | publishing run ids leftover => cases h
  | _ => trivial

/-- A turn of the loop prices the line at the run's offset. -/
theorem Runs.read (h : s.Runs c rules run) (w : ProcessChunkCommand) :
    s.Invokes c rules (w.read run) := by
  obtain ⟨hrules, hrows, b, bytes, hsource, hreading⟩ := h
  obtain ⟨claimed, calculator, lines, batch, rowStart, totals⟩ := run
  rw [ProcessChunkCommand.read]
  cases lines with
  | nil =>
    dsimp only
    split
    · trivial
    · exact ⟨hrules, hrows, b, bytes, hsource, hreading⟩
  | cons l lines =>
    obtain ⟨hread, hnext⟩ := hreading.next rfl
    obtain ⟨line, endOffset⟩ := l
    dsimp only
    split
    · trivial
    · rename_i priced hp
      have hadded (u : ProductUpsert) (hu : u ∈ (batch.add priced endOffset).rows) :
          s.Traces c rules u := by
        cases priced with
        | none => exact hrows u hu
        | some v =>
          rcases List.mem_append.1 hu with hu | hu
          · exact hrows u hu
          · rw [List.mem_singleton.1 hu]
            have hprovenance := price_provenance hp
            obtain ⟨hjob, hoffset⟩ := Prod.mk.inj (toLex.injective hprovenance)
            refine ⟨b, bytes, line, calculator, ?_, hrules, ?_, ?_⟩
            · rw [hjob, ← hsource.1]
              exact hsource
            · rw [hoffset]
              exact hread
            · rw [hjob, hoffset]
              exact hp
      have hruns : s.Runs c rules
          ⟨claimed, calculator, lines, batch.add priced endOffset, endOffset, totals⟩ :=
        ⟨hrules, hadded, b, bytes, hsource,
          hnext _ rfl rfl (batch.add_nextOffset priced endOffset)⟩
      split
      · exact hruns
      · exact hruns

end

end IntakeState

/-- A row of `products` after a batch is as it was, or is what the batch has for its SKU. -/
theorem Products.mem_upsertMany {p : Products} (hr : row ∈ (p.upsertMany batch).1.table.rows) :
    row ∈ p.table.rows ∨ ∃ u ∈ batch, row.sku = u.sku ∧ row.values = u.values ∧
      row.provenance = some u.provenance := by
  have hf := Table.find_of_mem _ hr
  cases hc : candidate batch row.sku with
  | none =>
    rw [p.find_upsertMany_absent hc] at hf
    exact .inl (Table.find_some_mem hf)
  | some u =>
    obtain ⟨hu, hsku⟩ := candidate_mem hc
    cases hold : p.table.find row.sku with
    | none =>
      obtain ⟨id, hnew⟩ := p.find_upsertMany_new hc hold
      obtain rfl : row = u.inserted id := Option.some.inj (hf.symm.trans hnew)
      exact .inr ⟨u, hu, rfl, rfl, rfl⟩
    | some old =>
      have hafter : row = old.after u :=
        Option.some.inj (hf.symm.trans (p.find_upsertMany_old hc hold))
      by_cases hreplaces : u.replaces old = true
      · rw [ProductRow.after, if_pos hreplaces] at hafter
        refine .inr ⟨u, hu, hsku.symm, ?_, ?_⟩
        · rw [hafter]
          rfl
        · rw [hafter]
          rfl
      · rw [ProductRow.after, if_neg hreplaces] at hafter
        rw [hafter]
        exact .inl (Table.find_some_mem hold)

/-- The values an admin gives a product. -/
def CreateProduct.productValues (input : CreateProduct) : ProductValues :=
  ⟨input.name, input.category, input.basePriceCents, input.stockQuantity, none⟩

/-- The rules of the run and the inputs of its admins cover what an event brings. -/
def CatalogueEvent.Within (rules : BasePriceCalculator → Prop) (created : CreateProduct → Prop) :
    CatalogueEvent → Prop
  | .intake (.ingest (.compiled _ calculator)) => rules calculator
  | .createProduct input => created input
  | _ => True

namespace IntakeState

/-- A product is as an admin created it, or as a row of an import has it. -/
def Stems (c : RegisterImportCommand) (rules : BasePriceCalculator → Prop)
    (created : CreateProduct → Prop) (s : IntakeState) (row : ProductRow) : Prop :=
  (∃ input, created input ∧ row.sku = input.sku ∧ row.values = input.productValues ∧
      row.provenance = none) ∨
    ∃ u, s.Traces c rules u ∧ row.sku = u.sku ∧ row.values = u.values ∧
      row.provenance = some u.provenance

/-- Checkpoints, workers and products all come from the files of the imports. -/
structure Traced (c : RegisterImportCommand) (rules : BasePriceCalculator → Prop)
    (created : CreateProduct → Prop) (s : IntakeState) : Prop where
  intake : Intake c s
  chunks : ∀ row ∈ s.world.db.chunks.rows, s.Claims c row
  invocations : ∀ i, s.Invokes c rules (s.world.invocations i)
  products : ∀ row ∈ s.world.db.products.table.rows, s.Stems c rules created row

variable {c : RegisterImportCommand} {rules : BasePriceCalculator → Prop}
  {created : CreateProduct → Prop} {s s' : IntakeState} {w : ProcessChunkCommand}

theorem Stems.holds (h : s.Stems c rules created row) (hs : Holds s s') :
    s'.Stems c rules created row := by
  rcases h with h | ⟨u, hu, hrest⟩
  · exact .inl h
  · exact .inr ⟨u, hu.holds hs, hrest⟩

/-- A worker moves a checkpoint only to where its run has read. -/
theorem Traced.claims_ingest (h : Traced c rules created s)
    (hr : row' ∈ (s.world.step w e).db.chunks.rows) : s.Claims c row' := by
  rcases IngestionWorld.chunk_after hr with hr | ⟨statement, hs, row, hr, hm⟩
  · exact h.chunks row' hr
  · have hclaims := h.chunks row hr
    cases hm with
    | kept => exact hclaims
    | claimed _ => exact hclaims
    | released _ => exact hclaims
    | failedOnce => exact hclaims
    | checkpointed _ =>
      obtain ⟨i, run, leftover, hi, hchunk, rfl, _⟩ := issued_commit hs
      have hruns := h.invocations i
      rw [hi] at hruns
      obtain ⟨_, _, b', bytes', hsource', hreading⟩ := hruns
      obtain ⟨b, bytes, hsource, hstart, hend, _⟩ := hclaims
      rw [hchunk] at hsource'
      obtain ⟨rfl, rfl⟩ := hsource.unique hsource'
      refine ⟨b, bytes, hsource, hstart, hend, ?_⟩
      change Resumes bytes b run.batch.nextOffset
      rw [hreading.batch]
      exact hreading.rowStart

theorem Traced.invokes_ingest (h : Traced c rules created s)
    (he : CatalogueEvent.Within rules created (.intake (.ingest e))) :
    ∀ i, s.Invokes c rules ((s.world.step (s.reading w) e).invocations i) := by
  apply IngestionWorld.phases_step
  · exact h.invocations
  · intro phase hp
    exact invokes_of_not_working hp
  · intro chunk claimed hc
    obtain ⟨row, hr, _, _, rfl⟩ := claimChunk_some hc
    exact h.chunks row hr
  · intro i claimed hi
    have hclaims := h.invocations i
    rw [hi] at hclaims
    refine ⟨hclaims, ?_⟩
    intro found hf
    exact ⟨found, Table.find_some_mem hf, Table.find_some_key hf, rfl⟩
  · intro i claimed job calculator hcompiled hi
    subst hcompiled
    have hclaims := h.invocations i
    rw [hi] at hclaims
    obtain ⟨⟨b, bytes, hsource, hstart, hend, hresumes⟩, hjob⟩ := hclaims
    obtain ⟨_, _, file, hj, hdisk⟩ := id hsource
    obtain rfl := hj.unique (hjob job rfl)
    have hfile : (s.reading w).files job.fileRef = bytes := by
      rw [reading]
      dsimp only
      rw [hdisk, Option.getD_some]
    refine ⟨he, fun u hu => absurd hu List.not_mem_nil, b, bytes, hsource, ?_⟩
    apply Reading.opens hresumes
    · dsimp only
      rw [hfile, hend]
    · rfl
    · rfl
  · intro i run hi
    have hruns := h.invocations i
    rw [hi] at hruns
    exact Runs.read hruns _
  · intro i run ids leftover hi
    have hruns := h.invocations i
    rw [hi] at hruns
    exact hruns
  · intro i run ids hi
    have hruns := h.invocations i
    rw [hi] at hruns
    obtain ⟨hrules, _, b, bytes, hsource, hreading⟩ := hruns
    refine ⟨hrules, fun u hu => absurd hu List.not_mem_nil, b, bytes, hsource, ?_⟩
    exact ⟨hreading.opened, hreading.rowStart, rfl⟩

theorem Traced.stems_ingest (h : Traced c rules created s)
    (hr : row ∈ (s.world.step w e).db.products.table.rows) : s.Stems c rules created row := by
  rcases s.world.products_step w e with hp | ⟨chunk, batch, hs, hp | hp⟩
  · rw [hp] at hr
    exact h.products row hr
  · rw [hp] at hr
    rcases Products.mem_upsertMany hr with hr | ⟨u, hu, hrow⟩
    · exact h.products row hr
    · obtain ⟨i, run, leftover, hi, _, rfl, _⟩ := issued_commit hs
      have hruns := h.invocations i
      rw [hi] at hruns
      exact .inr ⟨u, hruns.2.1 u hu, hrow⟩
  · rw [hp] at hr
    exact h.products row hr

theorem Traced.ingest (h : Traced c rules created s)
    (he : CatalogueEvent.Within rules created (.intake (.ingest e))) :
    Traced c rules created { s with world := s.world.step (s.reading w) e } := by
  have hs : Holds s { s with world := s.world.step (s.reading w) e } :=
    fun jobId file hj => ⟨(s.job_ingest _ e jobId file).2 hj, rfl⟩
  constructor
  · exact h.intake.ingest _ e
  · intro row hr
    exact (h.claims_ingest hr).holds hs
  · intro i
    exact (h.invokes_ingest he i).holds hs
  · intro row hr
    exact (h.stems_ingest hr).holds hs

/-- A chunk that is registered is taken up at its start. -/
theorem claims_registered (h : Intake c s) (hr : row ∈ s.world.db.chunks.rows)
    (hnext : row.nextOffset = row.startOffset) : s.Claims c row := by
  have hrange : s.Range row.chunk.jobId ⟨row.chunk.chunkIndex, row.startOffset, row.endOffset⟩ :=
    ⟨row, hr, rfl, rfl, rfl⟩
  obtain ⟨file, hj⟩ := h.ranges _ _ hrange
  obtain ⟨_, _, bytes, hdisk, _, hranges⟩ := h.jobs _ _ hj
  refine ⟨_, bytes, ⟨rfl, (hranges _).1 hrange, file, hj, hdisk⟩, rfl, rfl, ?_⟩
  rw [hnext]
  exact .start

/-- The uploads leave checkpoints, workers and products, and register new chunks. -/
theorem Traced.upload (h : Traced c rules created s) (hs : Holds s s') (hintake : Intake c s')
    (hw : s'.world = s.world ∨ ∃ jobId file boundaries, s'.world =
      { s.world with db := s.world.db.register jobId file boundaries }) :
    Traced c rules created s' := by
  rcases hw with hw | ⟨jobId, file, boundaries, hw⟩
  · constructor
    · exact hintake
    · rw [hw]
      exact fun row hr => (h.chunks row hr).holds hs
    · rw [hw]
      exact fun i => (h.invocations i).holds hs
    · rw [hw]
      exact fun row hr => (h.products row hr).holds hs
  · constructor
    · exact hintake
    · intro row hr
      have hr' := hr
      rw [hw] at hr'
      rcases of_mem_foldl_insert hr' with hold | ⟨b, _, hnew⟩
      · exact (h.chunks row hold).holds hs
      · exact claims_registered hintake hr (by rw [hnew]; rfl)
    · rw [hw]
      exact fun i => (h.invocations i).holds hs
    · rw [hw]
      exact fun row hr => (h.products row hr).holds hs

theorem Traced.createProduct (h : Traced c rules created s) (hinput : created input) :
    Traced c rules created (s.createProduct input) := by
  have hs : Holds s (s.createProduct input) := fun _ _ hj => ⟨hj, rfl⟩
  constructor
  · apply h.intake.of_same
    · exact fun _ _ => Iff.rfl
    · exact fun _ _ => Iff.rfl
    · exact fun _ hu => hu
    · rfl
    · exact Nat.le_refl _
    · exact fun _ hf => hf
    · exact fun _ _ _ => rfl
    · exact fun _ hc => .inl hc
    · intro i
      exact (h.intake.sound i).mono (fun hf => hf) rfl (fun _ => Iff.rfl) fun _ hc => hc
    · exact h.intake.apart
  · exact fun row hr => (h.chunks row hr).holds hs
  · exact fun i => (h.invocations i).holds hs
  · intro row hr
    change row ∈ (s.world.db.products.insert input).1.table.rows at hr
    rcases s.world.db.products.insert_eq input with hp | ⟨hf, hp⟩
    · rw [hp] at hr
      exact (h.products row hr).holds hs
    · rw [hp] at hr
      rcases (Table.mem_insert _ _ hf).1 hr with hr | rfl
      · exact (h.products row hr).holds hs
      · exact .inl ⟨input, hinput, rfl, rfl, rfl⟩

theorem Traced.step (h : Traced c rules created s) (w : ProcessChunkCommand) (e : CatalogueEvent)
    (he : e.Within rules created) : Traced c rules created (s.catalogue c w e) := by
  cases e with
  | createProduct input => exact h.createProduct he
  | intake e =>
    rcases world_step c w s e with ⟨e', rfl, _⟩ | hw
    · exact h.ingest he
    · apply h.upload
      · exact fun jobId file hj => h.intake.kept_step w e hj
      · exact h.intake.step w e
      · exact hw

theorem Traced.initial (c : RegisterImportCommand) (rules : BasePriceCalculator → Prop)
    (created : CreateProduct → Prop) (now : Int) : Traced c rules created (.initial now) where
  intake := .initial c now
  chunks _ hr := absurd hr List.not_mem_nil
  invocations _ := trivial
  products _ hr := absurd hr List.not_mem_nil

end IntakeState

/-- Whatever uploads, workers and admins do between them: a product is as an admin of the run
created it, or its SKU and all its values are what rules of the run make of the line that a worker
read at the product's own offset of its own import's file. In a file of valid UTF-8 with rows
within the bound, that line is the row of the file that starts there. -/
theorem catalogue_traceable (c : RegisterImportCommand) (w : ProcessChunkCommand) (now : Int)
    (events : List CatalogueEvent) :
    let s := Library.run (IntakeState.catalogue c w) (.initial now) events
    ∀ row ∈ s.world.db.products.table.rows,
      (∃ input, .createProduct input ∈ events ∧ row.sku = input.sku ∧
        row.values = input.productValues ∧ row.provenance = none) ∨
      ∃ u file bytes b line i calculator,
        row.sku = u.sku ∧ row.values = u.values ∧ row.provenance = some u.provenance ∧
        s.Job u.ingestJobId file ∧ s.disk file = some bytes ∧
        b ∈ chunkBoundaries bytes c.chunkBytes ∧
        .intake (.ingest (.compiled i calculator)) ∈ events ∧
        price calculator line u.ingestJobId u.ingestSourceOffset = .ok (some u) ∧
        ReadAt bytes b u.ingestSourceOffset line ∧
        (Legible bytes c.chunkBytes →
          (u.ingestSourceOffset, line) ∈ fileRows bytes b.startOffset b.endOffset) := by
  intro s row hr
  let rules (calculator : BasePriceCalculator) : Prop :=
    ∃ i, .intake (.ingest (.compiled i calculator)) ∈ events
  let created (input : CreateProduct) : Prop := .createProduct input ∈ events
  have hwithin (e : CatalogueEvent) (he : e ∈ events) : e.Within rules created := by
    unfold CatalogueEvent.Within
    split
    · exact ⟨_, he⟩
    · exact he
    · trivial
  have htraced : IntakeState.Traced c rules created s := by
    apply run_invariant (C := fun _ e => e.Within rules created)
    · exact fun s e h he => h.step w e he
    · exact .initial c rules created now
    · exact along_of_mem hwithin
  rcases htraced.products row hr with ⟨input, hinput, hrow⟩ | ⟨u, hu, hsku, hvalues, hp⟩
  · exact .inl ⟨input, hinput, hrow⟩
  · obtain ⟨b, bytes, line, calculator, ⟨_, hb, file, hj, hdisk⟩, ⟨i, hi⟩, hread, hprice⟩ := hu
    refine .inr ⟨u, file, bytes, b, line, i, calculator, hsku, hvalues, hp, hj, hdisk, hb, hi,
      hprice, hread, ?_⟩
    intro hlegible
    obtain ⟨hreadable, hle⟩ := hlegible.readable hb
    exact hread.mem_fileRows hreadable hle

end PromotionManagement
