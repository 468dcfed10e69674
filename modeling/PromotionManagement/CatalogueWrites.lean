import PromotionManagement.AdminWrites
import PromotionManagement.IntakeRuns

namespace PromotionManagement
open Library
set_option autoImplicit true

/-- A row of `products` is left as it was, or takes the values and the provenance of a row that
was written for its SKU, which is of a later import or a later row of its own. -/
def ProductRow.Advances (written : ProductUpsert → Prop) (row row' : ProductRow) : Prop :=
  row'.values = row.values ∧ row'.provenance = row.provenance ∨
    ∃ u, written u ∧ u.sku = row.sku ∧ row'.values = u.values ∧
      row'.provenance = some u.provenance ∧ ∀ p, row.provenance = some p → p < u.provenance

namespace ProductRow.Advances

variable {written : ProductUpsert → Prop} {row row' row'' : ProductRow}

theorem refl (row : ProductRow) : row.Advances written row := .inl ⟨rfl, rfl⟩

theorem mono {written' : ProductUpsert → Prop} (h : row.Advances written row')
    (hw : ∀ u, written u → written' u) : row.Advances written' row' := by
  refine h.imp_right ?_
  rintro ⟨u, hu, h⟩
  exact ⟨u, hw u hu, h⟩

theorem trans (h : row.Advances written row') (h' : row'.Advances written row'')
    (hsku : row'.sku = row.sku) : row.Advances written row'' := by
  rcases h' with ⟨hvalues', hp'⟩ | ⟨u', hu', hsku', hvalues', hp', hlt'⟩
  · rw [Advances, hvalues', hp']
    exact h
  · right
    refine ⟨u', hu', hsku'.trans hsku, hvalues', hp', ?_⟩
    intro p hp
    rcases h with ⟨_, hsame⟩ | ⟨u, _, _, _, hu, hlt⟩
    · exact hlt' p (hsame.trans hp)
    · exact (hlt p hp).trans (hlt' _ hu)

end ProductRow.Advances

namespace Products

/-- Every product is there later, under its SKU and its id. -/
structure Kept (written : ProductUpsert → Prop) (p p' : Products) : Prop where
  sequence : p.sequence ≤ p'.sequence
  rows : ∀ row ∈ p.table.rows, ∃ row' ∈ p'.table.rows, row'.sku = row.sku ∧ row'.id = row.id ∧
    row.Advances written row'

/-- The identity column has drawn the id of every product, from one on, and each for one
product. -/
structure Numbered (p : Products) : Prop where
  started : 0 < p.sequence
  positive : ∀ row ∈ p.table.rows, 0 < row.id
  drawn : ∀ row ∈ p.table.rows, row.id < p.sequence
  distinct : (p.table.rows.map ProductRow.id).Nodup

theorem Kept.of_rows {written : ProductUpsert → Prop} {p p' : Products}
    (hsequence : p.sequence ≤ p'.sequence)
    (hrows : ∀ row ∈ p.table.rows, row ∈ p'.table.rows) : Kept written p p' :=
  ⟨hsequence, fun row hr => ⟨row, hrows row hr, rfl, rfl, .refl row⟩⟩

theorem Kept.mono {written written' : ProductUpsert → Prop} {p p' : Products}
    (h : Kept written p p') (hw : ∀ u, written u → written' u) : Kept written' p p' := by
  refine ⟨h.sequence, ?_⟩
  intro row hr
  obtain ⟨row', hr', hsku, hid, ha⟩ := h.rows row hr
  exact ⟨row', hr', hsku, hid, ha.mono hw⟩

theorem Kept.trans {written : ProductUpsert → Prop} {p p' p'' : Products}
    (h : Kept written p p') (h' : Kept written p' p'') : Kept written p p'' := by
  refine ⟨h.sequence.trans h'.sequence, ?_⟩
  intro row hr
  obtain ⟨row', hr', hsku, hid, ha⟩ := h.rows row hr
  obtain ⟨row'', hr'', hsku', hid', ha'⟩ := h'.rows row' hr'
  exact ⟨row'', hr'', hsku'.trans hsku, hid'.trans hid, ha.trans ha' hsku⟩

theorem assigned_advances {u : ProductUpsert} (hsku : row.sku = u.sku) (h : u.replaces row) :
    row.Advances (· = u) (u.assigned row) := by
  rw [ProductUpsert.replaces, Bool.and_eq_true] at h
  refine .inr ⟨u, rfl, hsku.symm, rfl, rfl, ?_⟩
  intro p hp
  have hlt := h.1
  rw [hp] at hlt
  exact of_decide_eq_true hlt

theorem kept_store (p : Products) (u : ProductUpsert) : Kept (· = u) p (p.store u) := by
  refine ⟨Nat.le_succ p.sequence, ?_⟩
  intro row hr
  rw [store]
  dsimp only
  split
  · exact ⟨row, Table.mem_insert_of_mem hr _, rfl, rfl, .refl row⟩
  · by_cases hk : row.sku = u.sku ∧ u.replaces row
    · exact ⟨u.assigned row, Table.set_mem_update hr hk.1 hk.2, rfl, rfl,
        assigned_advances hk.1 hk.2⟩
    · exact ⟨row, Table.mem_update_of_not hr hk, rfl, rfl, .refl row⟩

theorem Numbered.empty : Numbered .empty where
  started := Nat.one_pos
  positive _ hr := absurd hr List.not_mem_nil
  drawn _ hr := absurd hr List.not_mem_nil
  distinct := List.nodup_nil

/-- The row of a new product takes an id that none has. -/
theorem Numbered.insert {p : Products} (h : Numbered p) (hid : row.id = p.sequence)
    (hf : p.table.find row.sku = none) : Numbered ⟨p.table.insert row, p.sequence + 1⟩ := by
  constructor
  · exact Nat.succ_pos p.sequence
  · intro row' hr'
    rcases (Table.mem_insert p.table row hf).1 hr' with hr' | rfl
    · exact h.positive row' hr'
    · exact h.started.trans_eq hid.symm
  · intro row' hr'
    rcases (Table.mem_insert p.table row hf).1 hr' with hr' | rfl
    · exact Nat.lt_succ_of_lt (h.drawn row' hr')
    · exact Nat.lt_succ_of_le hid.le
  · dsimp only
    rw [Table.insert, dif_pos hf, List.map_append, List.nodup_append]
    refine ⟨h.distinct, List.nodup_singleton _, ?_⟩
    intro id hmem id' hmem'
    obtain ⟨row', hr', rfl⟩ := List.mem_map.1 hmem
    rw [List.map_singleton, List.mem_singleton] at hmem'
    rw [hmem', hid]
    exact (h.drawn row' hr').ne

theorem Numbered.store {p : Products} (h : Numbered p) (u : ProductUpsert) :
    Numbered (p.store u) := by
  by_cases hf : p.table.find u.sku = none
  · rw [Products.store, if_pos hf]
    exact h.insert rfl hf
  · rw [Products.store, if_neg hf]
    have hids : (p.table.update u.sku u.replaces u.assigned u.assigned_sku).rows.map
        ProductRow.id = p.table.rows.map ProductRow.id :=
      p.table.map_update _ _ _ u.assigned_sku fun _ => rfl
    have hold {row' : ProductRow}
        (hr' : row' ∈ (p.table.update u.sku u.replaces u.assigned u.assigned_sku).rows) :
        ∃ row ∈ p.table.rows, row.id = row'.id := by
      have hmem := List.mem_map_of_mem (f := ProductRow.id) hr'
      rw [hids] at hmem
      exact List.mem_map.1 hmem
    constructor
    · exact Nat.succ_pos p.sequence
    · intro row' hr'
      obtain ⟨row, hr, hid⟩ := hold hr'
      rw [← hid]
      exact h.positive row hr
    · intro row' hr'
      obtain ⟨row, hr, hid⟩ := hold hr'
      rw [← hid]
      exact Nat.lt_succ_of_lt (h.drawn row hr)
    · dsimp only
      rw [hids]
      exact h.distinct

theorem kept_storeAll (p : Products) (us : List ProductUpsert) :
    Kept (· ∈ us) p (p.storeAll us).1 := by
  induction us generalizing p with
  | nil => exact .of_rows (Nat.le_refl _) fun _ hr => hr
  | cons u us ih =>
    have hfirst : Kept (· ∈ u :: us) p (p.store u) :=
      (p.kept_store u).mono fun v hv => List.mem_cons.2 (.inl hv)
    exact hfirst.trans ((ih _).mono fun v hv => List.mem_cons_of_mem u hv)

theorem Numbered.storeAll {p : Products} (h : Numbered p) (us : List ProductUpsert) :
    Numbered (p.storeAll us).1 := by
  induction us generalizing p with
  | nil => exact h
  | cons u us ih => exact ih (h.store u)

theorem kept_upsertMany (p : Products) (batch : List ProductUpsert) :
    Kept (· ∈ batch) p (p.upsertMany batch).1 := by
  rw [upsertMany_fst]
  exact (p.kept_storeAll _).mono fun u hu => Table.mem_of_mem_ofList hu

theorem Numbered.upsertMany {p : Products} (h : Numbered p) (batch : List ProductUpsert) :
    Numbered (p.upsertMany batch).1 := by
  rw [upsertMany_fst]
  exact h.storeAll _

/-- A transaction that is rolled back has drawn ids all the same. -/
theorem Numbered.draw {p : Products} {sequence : Nat} (h : Numbered p)
    (hle : p.sequence ≤ sequence) : Numbered ⟨p.table, sequence⟩ :=
  ⟨h.started.trans_le hle, h.positive, fun row hr => (h.drawn row hr).trans_le hle, h.distinct⟩

/-- A batch is written by its transaction, or leaves nothing but the ids it has drawn. -/
theorem kept_commit {p p' : Products} (batch : List ProductUpsert)
    (h : p' = (p.upsertMany batch).1 ∨ p' = ⟨p.table, (p.upsertMany batch).1.sequence⟩) :
    Kept (· ∈ batch) p p' ∧ (p.Numbered → p'.Numbered) := by
  have hkept := p.kept_upsertMany batch
  rcases h with rfl | rfl
  · exact ⟨hkept, fun h => h.upsertMany batch⟩
  · exact ⟨.of_rows hkept.sequence fun _ hr => hr, fun h => h.draw hkept.sequence⟩

/-- The insert of an admin adds one row, or none. -/
theorem insert_eq (p : Products) (input : CreateProduct) :
    (p.insert input).1 = ⟨p.table, p.sequence + 1⟩ ∨
      p.table.find input.sku = none ∧
        (p.insert input).1 = ⟨p.table.insert (p.inserted input), p.sequence + 1⟩ := by
  rw [insert]
  split
  · exact .inl rfl
  · split
    · rename_i h
      exact .inr ⟨h.1, rfl⟩
    · exact .inl rfl

end Products

/-- The transaction of a batch writes the batch, or nothing but the sequence. -/
theorem IngestionDb.commit_products (db : IngestionDb) (chunk : ChunkProcess) (batch : Batch) :
    (db.commit chunk batch).1.products = (db.products.upsertMany batch.rows).1 ∨
      (db.commit chunk batch).1.products =
        ⟨db.products.table, (db.products.upsertMany batch.rows).1.sequence⟩ := by
  rw [commit]
  dsimp only
  split
  · exact .inl rfl
  · exact .inr rfl

/-- What writes `products`: the workers behind the uploads, and the admins. -/
inductive CatalogueEvent where
  | intake (e : IntakeEvent)
  | createProduct (input : CreateProduct)

namespace IntakeState

def createProduct (s : IntakeState) (input : CreateProduct) : IntakeState :=
  { s with world := { s.world with db :=
    { s.world.db with products := (s.world.db.products.insert input).1 } } }

def catalogue (c : RegisterImportCommand) (w : ProcessChunkCommand) (s : IntakeState) :
    CatalogueEvent → IntakeState
  | .intake e => s.step c w e
  | .createProduct input => s.createProduct input

/-- What uploads do to the database and the workers: they register imports. -/
theorem world_awaited (s : IntakeState) (i : Nat) : (s.awaited i).world = s.world ∨
    ∃ jobId file boundaries, (s.awaited i).world =
      { s.world with db := s.world.db.register jobId file boundaries } := by
  rw [awaited]
  split
  · rename_i vendor size hash boundaries _
    rw [RegisterImportCommand.insert]
    dsimp only
    split
    · exact .inl rfl
    · exact .inr ⟨_, _, _, rfl⟩
  · exact .inl rfl
  · exact .inl rfl
  · exact .inl rfl

theorem world_step (c : RegisterImportCommand) (w : ProcessChunkCommand) (s : IntakeState)
    (e : IntakeEvent) :
    (∃ e', e = .ingest e' ∧
        s.step c w e = { s with world := s.world.step (s.reading w) e' }) ∨
      (s.step c w e).world = s.world ∨
      ∃ jobId file boundaries, (s.step c w e).world =
        { s.world with db := s.world.db.register jobId file boundaries } := by
  have habandon (i : Nat) (applied : Bool) (phase : UploadPhase) :
      (if (s.uploads i).phase.ended then s
        else (if applied then s.awaited i else s).setPhase i phase).world = s.world ∨
      ∃ jobId file boundaries, (if (s.uploads i).phase.ended then s
        else (if applied then s.awaited i else s).setPhase i phase).world =
          { s.world with db := s.world.db.register jobId file boundaries } := by
    split
    · exact .inl rfl
    · split
      · exact s.world_awaited i
      · exact .inl rfl
  have hinspect (i : Nat) (found : List UInt8 → Inspection → Inspection) :
      (s.inspect i found).world = s.world := by
    rw [inspect]
    split <;> rfl
  cases e with
  | ingest e => exact .inl ⟨e, rfl, rfl⟩
  | receive i file bytes vendor =>
    rw [step, receive]
    split
    · exact .inr (.inl rfl)
    · exact .inr (.inl rfl)
  | register i =>
    rw [step, register]
    split
    · exact .inr (.inl rfl)
    · exact .inr (.inl rfl)
  | stat i => exact .inr (.inl (hinspect i _))
  | hash i => exact .inr (.inl (hinspect i _))
  | cut i => exact .inr (.inl (hinspect i _))
  | resolve i => exact .inr (s.world_awaited i)
  | throw i applied => exact .inr (habandon i applied _)
  | kill i applied => exact .inr (habandon i applied _)

end IntakeState

namespace IngestionWorld

/-- Of the workers, only a commit writes `products`. -/
theorem products_step (c : ProcessChunkCommand) (w : IngestionWorld) (e : IngestionEvent) :
    (w.step c e).db.products = w.db.products ∨
      ∃ chunk batch, w.issued c e = some (.commit chunk batch) ∧
        ((w.step c e).db.products = (w.db.products.upsertMany batch.rows).1 ∨
          (w.step c e).db.products =
            ⟨w.db.products.table, (w.db.products.upsertMany batch.rows).1.sequence⟩) := by
  cases hs : w.issued c e with
  | none =>
    rw [stored_of_none hs]
    exact .inl rfl
  | some s =>
    rw [stored_of_issued hs]
    cases s with
    | commit chunk batch => exact .inr ⟨chunk, batch, rfl, w.db.commit_products chunk batch⟩
    | _ => exact .inl rfl

end IngestionWorld

namespace IntakeState

variable {c : RegisterImportCommand} {w : ProcessChunkCommand} {s : IntakeState}

/-- The row is in a batch whose commit the event carries out. -/
def Commits (w : ProcessChunkCommand) (s : IntakeState) (e : CatalogueEvent) (u : ProductUpsert) :
    Prop :=
  ∃ e' chunk batch, e = .intake (.ingest e') ∧
    s.world.issued (s.reading w) e' = some (.commit chunk batch) ∧ u ∈ batch.rows

/-- Some worker commits the row in the run. -/
def Writes (c : RegisterImportCommand) (w : ProcessChunkCommand) (s : IntakeState)
    (events : List CatalogueEvent) (u : ProductUpsert) : Prop :=
  ∃ pre e post, events = pre ++ e :: post ∧ (Library.run (catalogue c w) s pre).Commits w e u

/-- Whatever is done, every product stays, and ids stay distinct. -/
theorem catalogue_kept (c : RegisterImportCommand) (w : ProcessChunkCommand) (s : IntakeState)
    (e : CatalogueEvent) :
    Products.Kept (s.Commits w e) s.world.db.products (s.catalogue c w e).world.db.products ∧
      (s.world.db.products.Numbered → (s.catalogue c w e).world.db.products.Numbered) := by
  have hsame {p p' : Products} (h : p' = p) :
      Products.Kept (s.Commits w e) p p' ∧ (p.Numbered → p'.Numbered) := by
    subst h
    exact ⟨.of_rows (Nat.le_refl _) fun _ hr => hr, id⟩
  cases e with
  | intake e =>
    rcases world_step c w s e with ⟨e', rfl, _⟩ | hw | ⟨jobId, file, boundaries, hw⟩
    · rcases s.world.products_step (s.reading w) e' with hp | ⟨chunk, batch, hissued, hp⟩
      · exact hsame hp
      · obtain ⟨hkept, hnumbered⟩ := Products.kept_commit batch.rows hp
        exact ⟨hkept.mono fun u hu => ⟨e', chunk, batch, rfl, hissued, hu⟩, hnumbered⟩
    · exact hsame (by rw [catalogue, hw])
    · exact hsame (by rw [catalogue, hw]; rfl)
  | createProduct input =>
    rcases s.world.db.products.insert_eq input with hp | ⟨hf, hp⟩
    · rw [catalogue, createProduct]
      dsimp only
      rw [hp]
      exact ⟨.of_rows (Nat.le_succ _) fun _ hr => hr, fun h => h.draw (Nat.le_succ _)⟩
    · rw [catalogue, createProduct]
      dsimp only
      rw [hp]
      refine ⟨.of_rows (Nat.le_succ _) fun _ hr => Table.mem_insert_of_mem hr _, ?_⟩
      exact fun h => h.insert rfl hf

theorem catalogue_kept_run (c : RegisterImportCommand) (w : ProcessChunkCommand) (s : IntakeState)
    (events : List CatalogueEvent) :
    Products.Kept (s.Writes c w events) s.world.db.products
      (Library.run (catalogue c w) s events).world.db.products := by
  induction events generalizing s with
  | nil => exact .of_rows (Nat.le_refl _) fun _ hr => hr
  | cons e events ih =>
    have hfirst : Products.Kept (s.Writes c w (e :: events)) s.world.db.products
        (s.catalogue c w e).world.db.products :=
      (catalogue_kept c w s e).1.mono fun u hu => ⟨[], e, events, rfl, hu⟩
    refine hfirst.trans ((ih _).mono ?_)
    rintro u ⟨pre, e', post, rfl, hu⟩
    exact ⟨e :: pre, e', post, rfl, hu⟩

end IntakeState

/-- In every run of uploads, workers and admins, two products never share an id, a product keeps its
SKU and its id for the rest of the run, and its values change only to those of a row that a worker
commits for it, of a later row of its import or of a later import. -/
theorem catalogue_identity (c : RegisterImportCommand) (w : ProcessChunkCommand) (now : Int)
    (events later : List CatalogueEvent) :
    let s := Library.run (IntakeState.catalogue c w) (.initial now) events
    let s' := Library.run (IntakeState.catalogue c w) s later
    (∀ row ∈ s'.world.db.products.table.rows, ∀ other ∈ s'.world.db.products.table.rows,
      row.id = other.id → row = other) ∧
    ∀ row ∈ s.world.db.products.table.rows, ∃ row' ∈ s'.world.db.products.table.rows,
      row'.sku = row.sku ∧ row'.id = row.id ∧ row.Advances (s.Writes c w later) row' := by
  intro s s'
  have hempty : Products.Numbered (IntakeState.initial now).world.db.products :=
    .empty
  have hstep (s : IntakeState) (e : CatalogueEvent) (h : s.world.db.products.Numbered) :
      (s.catalogue c w e).world.db.products.Numbered :=
    (IntakeState.catalogue_kept c w s e).2 h
  have hnumbered : s'.world.db.products.Numbered :=
    run_invariant_always hstep (run_invariant_always hstep hempty events) later
  refine ⟨?_, (IntakeState.catalogue_kept_run c w s later).rows⟩
  intro row hr other ho hid
  exact List.inj_on_of_nodup_map hnumbered.distinct hr ho hid

end PromotionManagement
