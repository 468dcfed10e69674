import PromotionManagement.Library.Run
import PromotionManagement.IngestionSteps

namespace PromotionManagement
open Library
set_option autoImplicit true

namespace Products

/-- What `upsertMany` makes of the answers of its two queries, in whatever order they come. -/
def idsOf (rows : List ProductUpsert) (returned : List (Text × Nat))
    (select : List Text → List (Text × Nat)) : List (Option Nat) :=
  let byTheirSku : Table (Prod.fst : Text × Nat → Text) := Table.ofList Prod.fst returned
  let skipped := (rows.filter fun row => byTheirSku.find row.sku = none).map (·.sku)
  let byTheirSku :=
    if skipped.length > 0 then (select skipped).foldl Table.put byTheirSku else byTheirSku
  rows.map fun row => (byTheirSku.find row.sku).map Prod.snd

theorem upsertMany_snd (p : Products) (batch : List ProductUpsert) : (p.upsertMany batch).2 =
    idsOf (distinctSkus batch) (p.storeAll (distinctSkus batch)).2
      (p.upsertMany batch).1.selectIds := by
  rw [upsertMany_fst, upsertMany]
  split
  · rename_i h
    rw [List.eq_nil_of_length_eq_zero h]
    rfl
  · rfl

/-- The distinct SKUs of a batch in order of first occurrence. -/
def skusInOrder (batch : List ProductUpsert) : List Text := (batch.map ProductUpsert.sku).eraseDups

theorem map_sku_distinctSkus (batch : List ProductUpsert) :
    (distinctSkus batch).map ProductUpsert.sku = skusInOrder batch :=
  Table.map_key_ofList batch

/-- The product an entry names is the one stored under its SKU. -/
def Names (p : Products) (entry : Text × Nat) : Prop :=
  ∃ row, p.table.find entry.1 = some row ∧ row.id = entry.2

theorem after_id (row : ProductRow) (u : ProductUpsert) : (row.after u).id = row.id := by
  rw [ProductRow.after]
  split
  · rfl
  · rfl

theorem names_stored {p : Products} (h : p.stored u = some entry) : (p.store u).Names entry := by
  rw [stored] at h
  cases hf : p.table.find u.sku with
  | none =>
    rw [hf] at h
    cases h
    exact ⟨_, find_store_new p u hf, rfl⟩
  | some row =>
    simp only [hf] at h
    split at h
    · cases h
      refine ⟨row.after u, ?_, after_id row u⟩
      rw [Table.find_some_key hf]
      exact find_store_old p u hf
    · cases h

theorem stored_sku {p : Products} (h : p.stored u = some entry) : entry.1 = u.sku := by
  rw [stored] at h
  cases hf : p.table.find u.sku with
  | none =>
    rw [hf] at h
    cases h
    rfl
  | some row =>
    simp only [hf] at h
    split at h
    · cases h
      have hsku : row.sku = u.sku := Table.find_some_key hf
      exact hsku
    · cases h

theorem names_returned {p : Products} (hu : (us.map ProductUpsert.sku).Nodup)
    (h : entry ∈ (p.storeAll us).2) : (p.storeAll us).1.Names entry := by
  induction us generalizing p with
  | nil => cases h
  | cons u us ih =>
    rw [List.map_cons, List.nodup_cons] at hu
    rcases List.mem_append.1 h with h | h
    · obtain ⟨row, hr, hid⟩ := names_stored (Option.mem_toList.1 h)
      refine ⟨row, ?_, hid⟩
      rw [storeAll, find_storeAll_of_forall_ne]
      · exact hr
      · intro w hw he
        apply hu.1
        rw [← stored_sku (Option.mem_toList.1 h), ← he]
        exact List.mem_map_of_mem hw
    · exact ih hu.2 h

theorem names_selected {p : Products} (h : entry ∈ p.selectIds skus) : p.Names entry := by
  obtain ⟨row, hr, rfl⟩ := List.mem_map.1 h
  exact ⟨row, p.table.find_of_mem (List.mem_filter.1 hr).1, rfl⟩

theorem mem_selected {p : Products} (h : p.table.find s = some row) (hs : s ∈ skus) :
    (s, row.id) ∈ p.selectIds skus := by
  have hk := Table.find_some_key h
  apply List.mem_map.2
  refine ⟨row, List.mem_filter.2 ⟨Table.find_some_mem h, ?_⟩, ?_⟩
  · rw [hk]
    exact decide_eq_true hs
  · rw [hk]

/-- Every row of a batch is a product once its statement is over. -/
theorem find_storeAll_ne_none (p : Products) (hu : (us.map ProductUpsert.sku).Nodup)
    (h : u ∈ us) : ∃ row, (p.storeAll us).1.table.find u.sku = some row := by
  obtain ⟨q, _, hs⟩ := find_storeAll_of_mem p us hu h
  rw [hs]
  cases hf : q.table.find u.sku with
  | none => exact ⟨_, find_store_new q u hf⟩
  | some row => exact ⟨_, find_store_old q u hf⟩

/-- Where both queries name what is stored, and the second every product it is asked for, each row
gets the id of its product. -/
theorem find_idsOf {p : Products} {byTheirSku : Table (Prod.fst : Text × Nat → Text)}
    {found : List (Text × Nat)} (hr : ∀ entry ∈ byTheirSku.rows, p.Names entry)
    (hs : ∀ entry ∈ found, p.Names entry)
    (hk : (∃ entry ∈ found, entry.1 = s) ∨ byTheirSku.find s ≠ none) :
    ∃ row, p.table.find s = some row ∧
      ((found.foldl Table.put byTheirSku).find s).map Prod.snd = some row.id := by
  obtain ⟨entry, hf, he, row, hrow, hid⟩ := Table.find_foldl_put_of_forall hs hr hk
  rw [he] at hrow
  refine ⟨row, hrow, ?_⟩
  rw [hf, Option.map_some, hid]

/-- The id of the product with a SKU. -/
def HasId (p : Products) (s : Text) (id : Option Nat) : Prop :=
  ∃ row, p.table.find s = some row ∧ id = some row.id

theorem idsOf_hasId {p : Products} {rows : List ProductUpsert}
    {select : List Text → List (Text × Nat)} (hr : ∀ entry ∈ returned, p.Names entry)
    (hs : ∀ skus, (select skus).Perm (p.selectIds skus))
    (hp : ∀ u ∈ rows, ∃ row, p.table.find u.sku = some row) :
    List.Forall₂ p.HasId (rows.map ProductUpsert.sku) (idsOf rows returned select) := by
  have hrows : ∀ entry ∈ (Table.ofList Prod.fst returned).rows, p.Names entry :=
    fun entry h => hr entry (Table.mem_of_mem_ofList h)
  simp only [idsOf]
  generalize hb : Table.ofList Prod.fst returned = byTheirSku at hrows ⊢
  generalize hsk : (rows.filter fun row => byTheirSku.find row.sku = none).map (·.sku) = skipped
  have hin : ∀ u ∈ rows, byTheirSku.find u.sku = none → u.sku ∈ skipped := by
    intro u hu hn
    rw [← hsk]
    exact List.mem_map_of_mem (List.mem_filter.2 ⟨hu, decide_eq_true hn⟩)
  rw [List.forall₂_map_left_iff, List.forall₂_map_right_iff, List.forall₂_same]
  intro u hu
  have hmaps : ∀ found : List (Text × Nat), (∀ entry ∈ found, p.Names entry) →
      ((∃ entry ∈ found, entry.1 = u.sku) ∨ byTheirSku.find u.sku ≠ none) →
      p.HasId u.sku (((found.foldl Table.put byTheirSku).find u.sku).map Prod.snd) := by
    intro found hf hk
    obtain ⟨row, hrow, hid⟩ := find_idsOf hrows hf hk
    exact ⟨row, hrow, hid⟩
  by_cases hlen : skipped.length > 0
  · rw [if_pos hlen]
    apply hmaps
    · intro entry he
      exact names_selected ((hs skipped).subset he)
    · by_cases hn : byTheirSku.find u.sku = none
      · obtain ⟨row, hrow⟩ := hp u hu
        left
        exact ⟨_, (hs skipped).symm.subset (mem_selected hrow (hin u hu hn)), rfl⟩
      · exact .inr hn
  · rw [if_neg hlen]
    apply hmaps []
    · intro entry he
      cases he
    · right
      intro hn
      exact hlen (List.length_pos_of_mem (hin u hu hn))

/-- What a batch makes of a table, and the ids it answers with: one for each SKU in order of first
occurrence, which is its product's; the last row of a SKU is the one that meets the product; and
other products stay. -/
structure Upserted (p : Products) (batch : List ProductUpsert) (after : Products)
    (ids : List (Option Nat)) : Prop where
  ids : List.Forall₂ after.HasId (skusInOrder batch) ids
  inserted : (batch.filter fun u => u.sku = s).getLast? = some u → p.table.find s = none →
    ∃ id, after.table.find s = some (u.inserted id)
  met : (batch.filter fun u => u.sku = s).getLast? = some u → p.table.find s = some row →
    after.table.find s = some (row.after u)
  untouched : (∀ u ∈ batch, u.sku ≠ s) → after.table.find s = p.table.find s

/-- Whatever order the two queries answer in, a batch comes back with the ids of its products. -/
theorem upserted_idsOf (p : Products) (batch : List ProductUpsert)
    (hr : returned.Perm (p.storeAll (distinctSkus batch)).2)
    {select : List Text → List (Text × Nat)}
    (hs : ∀ skus, (select skus).Perm ((p.upsertMany batch).1.selectIds skus)) :
    Upserted p batch (p.upsertMany batch).1 (idsOf (distinctSkus batch) returned select) where
  ids := by
    have hu : ((distinctSkus batch).map ProductUpsert.sku).Nodup := Table.unique _
    rw [← map_sku_distinctSkus]
    apply idsOf_hasId _ hs
    · intro u h
      rw [upsertMany_fst]
      exact find_storeAll_ne_none p hu h
    · intro entry h
      rw [upsertMany_fst]
      exact names_returned hu (hr.subset h)
  inserted h hn := find_upsertMany_new p ((candidate_eq batch _).trans h) hn
  met h hrow := find_upsertMany_old p ((candidate_eq batch _).trans h) hrow
  untouched h := by
    apply find_upsertMany_absent
    rw [candidate_eq, List.getLast?_eq_none_iff, List.filter_eq_nil_iff]
    intro u hu
    rw [decide_eq_true_eq]
    exact h u hu

theorem upserted_upsertMany (p : Products) (batch : List ProductUpsert) :
    Upserted p batch (p.upsertMany batch).1 (p.upsertMany batch).2 := by
  rw [upsertMany_snd]
  exact upserted_idsOf p batch (.refl _) fun _ => .refl _

end Products

/-- How the transaction of `commit` ends. -/
inductive TransactionEnd where
  | committed (ids : List (Option Nat))
  | rolledBack
  | threw
deriving DecidableEq

/-- What `commit` answers: how many products were stored, `null`, or an error it lets through. -/
inductive CommitAnswer where
  | stored (count : Nat)
  | superseded
  | threw
deriving DecidableEq

namespace ProcessChunkCommand

/-- `this.db.transaction(...)`. The refusal of a row's values throws, as any other fault may, and
nothing of it is kept. -/
def transaction (c : ProcessChunkCommand) (faulty : Bool) (db : IngestionDb)
    (chunk : ChunkProcess) (batch : Batch) : IngestionDb × TransactionEnd :=
  if faulty ∨ UpsertRefused c.indexed db.products batch.rows then (db, .threw)
  else
    match db.commit chunk batch with
    | (db', some ids) => (db', .committed ids)
    | (db', none) => (db', .rolledBack)

/-- `commit`, with the lists of ids it hands to `publish`, whose failure is only logged. -/
def commit (c : ProcessChunkCommand) (faulty : Bool) (db : IngestionDb) (chunk : ChunkProcess)
    (batch : Batch) : IngestionDb × CommitAnswer × List (List (Option Nat)) :=
  match c.transaction faulty db chunk batch with
  | (db', .committed ids) => (db', .stored ids.length, if ids.length > 0 then [ids] else [])
  | (db', .rolledBack) => (db', .superseded, [])
  | (db', .threw) => (db', .threw, [])

theorem transaction_cases (c : ProcessChunkCommand) (faulty : Bool) (db : IngestionDb)
    (chunk : ChunkProcess) (batch : Batch) :
    c.transaction faulty db chunk batch = (db, .threw) ∨
    (∃ db', c.transaction faulty db chunk batch = (db', .rolledBack) ∧
      db'.products.table = db.products.table) ∨
    ∃ db', c.transaction faulty db chunk batch =
        (db', .committed (db.products.upsertMany batch.rows).2) ∧
      db'.products = (db.products.upsertMany batch.rows).1 := by
  rw [transaction]
  split
  · exact .inl rfl
  · right
    rw [IngestionDb.commit]
    generalize db.products.upsertMany batch.rows = out
    obtain ⟨products, ids⟩ := out
    dsimp only
    split
    · rename_i h
      split at h
      · cases h
        exact .inr ⟨_, rfl, rfl⟩
      · cases h
    · rename_i h
      split at h
      · cases h
      · cases h
        exact .inl ⟨_, rfl, rfl⟩

/-- A transaction that commits has stored its batch. -/
theorem transaction_committed {c : ProcessChunkCommand}
    (h : ∃ ids, (c.transaction faulty db chunk batch).2 = .committed ids) :
    ∃ db', c.transaction faulty db chunk batch =
        (db', .committed (db.products.upsertMany batch.rows).2) ∧
      db'.products = (db.products.upsertMany batch.rows).1 := by
  obtain ⟨ids, h⟩ := h
  rcases c.transaction_cases faulty db chunk batch with ht | ⟨db', ht, _⟩ | ht
  · rw [ht] at h
    cases h
  · rw [ht] at h
    cases h
  · exact ht

theorem commit_uncommitted {c : ProcessChunkCommand}
    (h : ∀ ids, (c.transaction faulty db chunk batch).2 ≠ .committed ids) :
    (c.commit faulty db chunk batch).2.2 = [] := by
  rw [commit]
  split
  · rename_i ht
    exact absurd (congrArg Prod.snd ht) (h _)
  · rfl
  · rfl

end ProcessChunkCommand

namespace Products

theorem length_upsertMany_ids_pos_iff (p : Products) (batch : List ProductUpsert) :
    (p.upsertMany batch).2.length > 0 ↔ batch ≠ [] := by
  rw [length_upsertMany_ids, gt_iff_lt, List.length_pos_iff, not_iff_not]
  constructor
  · intro h
    cases batch with
    | nil => rfl
    | cons u us =>
      have hmem : u.sku ∈ skusInOrder (u :: us) :=
        List.mem_eraseDups.2 (List.mem_map_of_mem List.mem_cons_self)
      rw [← map_sku_distinctSkus, h] at hmem
      cases hmem
  · rintro rfl
    rfl

end Products

/-- A batch comes back with the ids of exactly its products, whatever order its two queries answer
in, and they are published if and only if the transaction commits and the batch is not empty. -/
theorem batch_announces_its_products (c : ProcessChunkCommand) (faulty : Bool) (db : IngestionDb)
    (chunk : ChunkProcess) (batch : Batch) :
    (∀ returned select,
      returned.Perm (db.products.storeAll (Products.distinctSkus batch.rows)).2 →
      (∀ skus, (select skus).Perm ((db.products.upsertMany batch.rows).1.selectIds skus)) →
      Products.Upserted db.products batch.rows (db.products.upsertMany batch.rows).1
        (Products.idsOf (Products.distinctSkus batch.rows) returned select)) ∧
    Products.Upserted db.products batch.rows (db.products.upsertMany batch.rows).1
      (db.products.upsertMany batch.rows).2 ∧
    (∀ ids, ids ∈ (c.commit faulty db chunk batch).2.2 ↔
      (c.transaction faulty db chunk batch).2 = .committed ids ∧ batch.rows ≠ []) ∧
    (∀ ids, (c.transaction faulty db chunk batch).2 = .committed ids →
      ids = (db.products.upsertMany batch.rows).2 ∧
      (c.commit faulty db chunk batch).1.products = (db.products.upsertMany batch.rows).1) ∧
    (c.commit faulty db chunk batch).2.2.length ≤ 1 := by
  refine ⟨?_, Products.upserted_upsertMany _ _, ?_⟩
  · intro returned select hr hs
    exact Products.upserted_idsOf _ _ hr hs
  · have hlen := Products.length_upsertMany_ids_pos_iff db.products batch.rows
    by_cases hc : ∃ ids, (c.transaction faulty db chunk batch).2 = .committed ids
    · obtain ⟨db', h, hp⟩ := ProcessChunkCommand.transaction_committed hc
      rw [ProcessChunkCommand.commit, h]
      dsimp only
      refine ⟨?_, ?_, ?_⟩
      · intro ids
        by_cases hne : batch.rows ≠ []
        · rw [if_pos (hlen.2 hne), List.mem_singleton, TransactionEnd.committed.injEq]
          exact ⟨fun he => ⟨he.symm, hne⟩, fun he => he.1.symm⟩
        · rw [if_neg fun hl => hne (hlen.1 hl)]
          exact iff_of_false List.not_mem_nil fun hc => hne hc.2
      · intro ids hc
        cases hc
        exact ⟨rfl, hp⟩
      · split
        · exact Nat.le_refl 1
        · exact Nat.zero_le 1
    · rw [ProcessChunkCommand.commit_uncommitted fun ids h => hc ⟨ids, h⟩]
      refine ⟨?_, ?_, Nat.zero_le 1⟩
      · intro ids
        exact iff_of_false List.not_mem_nil fun h => hc ⟨ids, h.1⟩
      · intro ids h
        exact absurd ⟨ids, h⟩ hc

/-- An invocation that stores a batch goes on as the transaction ends, and awaits `publish` with
the ids of the batch. -/
theorem ProcessChunkCommand.resume_storing (c : ProcessChunkCommand) (db : IngestionDb)
    (run : ChunkRun) (leftover : Bool) :
    c.resume db (.storing run leftover) =
      match (c.transaction false db run.claimed.chunk run.batch).2 with
      | .committed ids => .publishing run ids leftover
      | .rolledBack => .returned ⟨true, true, false, run.totals⟩
      | .threw => .storing run leftover := by
  rw [resume, transaction]
  by_cases h : UpsertRefused c.indexed db.products run.batch.rows
  · rw [if_pos h, if_pos (Or.inr h)]
  · rw [if_neg h, if_neg fun hf => h (hf.resolve_left Bool.false_ne_true)]
    generalize db.commit run.claimed.chunk run.batch = out
    obtain ⟨db', ids⟩ := out
    cases ids with
    | none => rfl
    | some ids => rfl

namespace ProcessChunkCommand

variable {c : ProcessChunkCommand} {p : Phase}

theorem publishing_resume (h : c.resume db p = .publishing r ids leftover) :
    p = .publishing r ids leftover ∨ p = .storing r leftover ∧
      (c.transaction false db r.claimed.chunk r.batch).2 = .committed ids := by
  by_cases hp : ∃ r' leftover', p = .storing r' leftover'
  · obtain ⟨r', leftover', rfl⟩ := hp
    rw [resume_storing] at h
    right
    split at h
    · rename_i ids' hc
      cases h
      exact ⟨rfl, hc⟩
    · cases h
    · cases h
  · left
    apply phase_resume
      (P := fun phase => phase = .publishing r ids leftover → p = .publishing r ids leftover)
      _ _ _ _ _ _ h
    · exact fun h => h
    · rintro phase hw rfl
      cases hw
    · intro chunk claimed _ h
      cases h
    · intro claimed _ h
      cases h
    · intro r' _ h
      rw [read] at h
      split at h
      · split at h
        · cases h
        · cases h
      · split at h
        · cases h
        · dsimp only at h
          split at h
          · cases h
          · cases h
    · intro r' ids' leftover' hs
      exact absurd ⟨r', leftover', hs⟩ hp

theorem publishing_compiled (h : c.compiled calculator p = .publishing r ids leftover) :
    p = .publishing r ids leftover := by
  apply phase_compiled
    (P := fun phase => phase = .publishing r ids leftover → p = .publishing r ids leftover)
    _ _ _ h
  · exact fun h => h
  · rintro phase hw rfl
    cases hw
  · intro claimed job _ h
    cases h

theorem publishing_published (h : published outOfTime p = .publishing r ids leftover) :
    p = .publishing r ids leftover := by
  apply phase_published
    (P := fun phase => phase = .publishing r ids leftover → p = .publishing r ids leftover)
    _ _ _ h
  · exact fun h => h
  · rintro phase hw rfl
    cases hw
  · intro r' ids' _ h
    cases h

theorem publishing_fail (h : fail reason p = .publishing r ids leftover) :
    p = .publishing r ids leftover := by
  apply phase_fail
    (P := fun phase => phase = .publishing r ids leftover → p = .publishing r ids leftover)
    _ _ h
  · exact fun h => h
  · rintro phase hw rfl
    cases hw

end ProcessChunkCommand

namespace IngestionWorld

variable {c : ProcessChunkCommand} {w : IngestionWorld} {e : IngestionEvent}

/-- A step of a run commits a batch, and these are the ids of its products. -/
def CommittedIn (c : ProcessChunkCommand) (w : IngestionWorld) (es : List IngestionEvent)
    (ids : List (Option Nat)) : Prop :=
  ∃ before i after r leftover, es = before ++ .step i :: after ∧
    (run (step c) w before).invocations i = .storing r leftover ∧
    (c.transaction false (run (step c) w before).db r.claimed.chunk r.batch).2 =
      .committed ids

theorem CommittedIn.append (h : CommittedIn c w es ids) (fs : List IngestionEvent) :
    CommittedIn c w (es ++ fs) ids := by
  obtain ⟨before, i, after, r, leftover, rfl, hc⟩ := h
  refine ⟨before, i, after ++ fs, r, leftover, ?_, hc⟩
  rw [List.append_assoc, List.cons_append]

/-- An invocation comes to await `publish` only by the step that commits its batch. -/
theorem publishing_after (h : (w.step c e).invocations i = .publishing r ids leftover) :
    w.invocations i = .publishing r ids leftover ∨
    e = .step i ∧ w.invocations i = .storing r leftover ∧
      (c.transaction false w.db r.claimed.chunk r.batch).2 =
        .committed ids := by
  have hmoved (j : Nat) (phase : Phase) (hm : w.moved c e = some (j, phase)) :
      phase = .publishing r ids leftover ∧ j = i ∨
        w.invocations i = .publishing r ids leftover := by
    by_cases hj : i = j
    · subst hj
      rw [step_moved hm] at h
      exact .inl ⟨h, rfl⟩
    · right
      rwa [step_unmoved] at h
      rintro phase' hm'
      rw [hm] at hm'
      cases hm'
      exact hj rfl
  cases e with
  | clock now => exact .inl h
  | deliver j chunk =>
    by_cases he : (w.invocations j).ended = true
    · rcases hmoved j _ (if_pos he) with ⟨hp, _⟩ | h
      · cases hp
      · exact .inl h
    · simp only [step, moved, if_neg he] at h
      exact .inl h
  | step j =>
    rcases hmoved j _ rfl with ⟨hp, rfl⟩ | h
    · rcases ProcessChunkCommand.publishing_resume hp with hp | hc
      · exact .inl hp
      · exact .inr ⟨rfl, hc⟩
    · exact .inl h
  | compiled j calculator =>
    rcases hmoved j _ rfl with ⟨hp, rfl⟩ | h
    · exact .inl (ProcessChunkCommand.publishing_compiled hp)
    · exact .inl h
  | published j delivered outOfTime =>
    rcases hmoved j _ rfl with ⟨hp, rfl⟩ | h
    · exact .inl (ProcessChunkCommand.publishing_published hp)
    · exact .inl h
  | fail j reason applied =>
    rcases hmoved j _ rfl with ⟨hp, rfl⟩ | h
    · exact .inl (ProcessChunkCommand.publishing_fail hp)
    · exact .inl h
  | kill j applied =>
    rcases hmoved j _ rfl with ⟨hp, _⟩ | h
    · cases hp
    · exact .inl h
  | completeJobIfDone jobId => exact .inl h
  | failJobIfExhausted jobId => exact .inl h

theorem publishing_committed (hw : ∀ i r ids leftover, w.invocations i ≠ .publishing r ids leftover)
    (es : List IngestionEvent) :
    ∀ i r ids leftover, (run (step c) w es).invocations i = .publishing r ids leftover →
      CommittedIn c w es ids := by
  induction es using List.reverseRecOn with
  | nil =>
    intro i r ids leftover h
    exact absurd h (hw i r ids leftover)
  | append_singleton es e ih =>
    intro i r ids leftover h
    rw [run_append] at h
    rcases publishing_after h with h | ⟨rfl, hc⟩
    · exact (ih i r ids leftover h).append [e]
    · exact ⟨es, i, [], r, leftover, rfl, hc⟩

/-- However the invocations interleave and fail, every list of ids that reaches the queue comes from
a batch that a step of the run committed, and none is empty. -/
theorem published_committed (hw : ∀ i r ids leftover, w.invocations i ≠ .publishing r ids leftover)
    (hp : w.published = []) (es : List IngestionEvent) :
    ∀ ids ∈ (run (step c) w es).published, ids ≠ [] ∧ CommittedIn c w es ids := by
  induction es using List.reverseRecOn with
  | nil =>
    intro ids h
    rw [run_nil, hp] at h
    cases h
  | append_singleton es e ih =>
    intro ids h
    rw [run_append] at h
    rcases List.mem_append.1 h with h | h
    · exact ⟨(ih ids h).1, (ih ids h).2.append [e]⟩
    · obtain ⟨i, r, leftover, hi, hne⟩ : ∃ i r leftover,
          (run (step c) w es).invocations i = .publishing r ids leftover ∧ ids ≠ [] := by
        cases e with
        | published i delivered outOfTime =>
          rw [announcement] at h
          split at h
          · rename_i r ids' leftover hi
            split at h
            · rename_i hd
              rw [List.mem_singleton] at h
              subst h
              rw [Bool.and_eq_true, decide_eq_true_eq] at hd
              exact ⟨i, r, leftover, hi, List.length_pos_iff.1 hd.2⟩
            · cases h
          · cases h
        | _ => cases h
      exact ⟨hne, (publishing_committed hw es i r ids leftover hi).append [e]⟩

end IngestionWorld

end PromotionManagement
