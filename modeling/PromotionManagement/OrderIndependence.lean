import PromotionManagement.Chunking
import PromotionManagement.ImportOrder
import PromotionManagement.ResumedRanges

namespace PromotionManagement
open Library
set_option autoImplicit true

/-- A vendor import: its file, split into chunks at line feeds. -/
structure ImportJob where
  id : Nat
  file : List UInt8
  chunks : List ChunkBoundary
  cut : Cut file 0 (firstRowOffset file) chunks

/-- The chunks that an upload cuts. -/
def ImportJob.split (id : Nat) (file : List UInt8) (chunkBytes : Nat) : ImportJob :=
  ⟨id, file, chunkBoundaries file chunkBytes, chunkBoundaries_cut file chunkBytes⟩

/-- The rows of the file by offset, read line by line from its first row to its end. -/
def ImportJob.rows (job : ImportJob) : List (Nat × Text) :=
  sourceRows (firstRowOffset job.file)
    (readRangeLines job.file (firstRowOffset job.file) job.file.length)

/-- The accepted rows of every import, in the order of their provenance. -/
def importPlan (calculator : BasePriceCalculator) (jobs : List ImportJob) : List ProductUpsert :=
  jobs.flatMap fun job => acceptedRows calculator job.id job.rows

/-- One batch of one chunk of one of the imports: rows that follow one another, as a worker reads
them which has taken the chunk up. -/
structure BatchRef (jobs : List ImportJob) where
  job : ImportJob
  known : job ∈ jobs
  chunk : ChunkBoundary
  ofJob : chunk ∈ job.chunks
  from_ : Nat
  resumes : Resumes job.file chunk from_
  rows : List (Nat × Text)
  read : rows <:+: sourceRows from_ (readRangeLines job.file from_ chunk.endOffset)

/-- Batches in the order they commit: after the rows before them in their own chunk, as often as a
replay brings them, and only when no rule fault stops the pricing of their rows. -/
structure CommitOrder (calculator : BasePriceCalculator) (jobs : List ImportJob) where
  refs : List (BatchRef jobs)
  chunkOrder : ∀ pre r post, refs = pre ++ r :: post → ∀ row ∈ r.rows, ∀ offset line,
    ReadAt r.job.file r.chunk offset line → offset < row.1 →
      ∃ q ∈ pre ++ [r], q.job = r.job ∧ q.chunk = r.chunk ∧ ∃ line', (offset, line') ∈ q.rows
  priced : ∀ r ∈ refs, ∀ row ∈ r.rows,
    ∃ accepted, price calculator row.2 r.job.id row.1 = .ok accepted

/-- Whatever row a file has at an offset, some batch has committed what was read there. -/
def CommitOrder.Complete (order : CommitOrder calculator jobs) : Prop :=
  ∀ job ∈ jobs, ∀ row ∈ job.rows, ∃ r ∈ order.refs, r.job = job ∧ ∃ line, (row.1, line) ∈ r.rows

/-- The text of no row of the batch comes from where its chunk starts or was taken up. -/
def BatchRef.AsRead (r : BatchRef jobs) : Prop := ∀ row ∈ r.rows, row ∈ r.job.rows

def CommitOrder.ReadsAsFile (order : CommitOrder calculator jobs) : Prop :=
  ∀ r ∈ order.refs, r.AsRead

theorem ImportJob.rows_inOrder (job : ImportJob) : job.rows.Pairwise fun r s => r.1 < s.1 :=
  readRangeLines_inOrder job.file _ _

/-- Two rows of a file that start at one offset are one row. -/
theorem ImportJob.eq_of_offset {job : ImportJob} (hr : (offset, line) ∈ job.rows)
    (hs : (offset, line') ∈ job.rows) : line = line' := by
  have hnodup : (job.rows.map Prod.fst).Nodup :=
    List.pairwise_map.2 (job.rows_inOrder.imp fun hlt => hlt.ne)
  exact congrArg Prod.snd (List.inj_on_of_nodup_map hnodup hr hs rfl)

theorem importPlan_inOrder (h : jobs.Pairwise fun i j => i.id < j.id) :
    (importPlan c jobs).Pairwise fun u v => u.provenance < v.provenance := by
  rw [importPlan, List.pairwise_flatMap]
  refine ⟨fun job _ => acceptedRows_inOrder job.rows_inOrder, h.imp ?_⟩
  intro i j hij u hu v hv
  obtain ⟨_, _, hu⟩ := mem_acceptedRows.1 hu
  obtain ⟨_, _, hv⟩ := mem_acceptedRows.1 hv
  rw [price_provenance hu, price_provenance hv, Prod.Lex.toLex_lt_toLex]
  exact .inl hij

theorem eq_of_provenance {plan : List ProductUpsert}
    (h : plan.Pairwise fun u v => u.provenance < v.provenance) (hu : u ∈ plan) (hv : v ∈ plan)
    (he : u.provenance = v.provenance) : u = v := by
  have hp : (plan.map ProductUpsert.provenance).Nodup :=
    List.pairwise_map.2 (h.imp fun hlt => hlt.ne)
  exact List.inj_on_of_nodup_map hp hu hv he

namespace BatchRef

/-- What the batch offers the upsert: its accepted rows. -/
def accepted (calculator : BasePriceCalculator) (r : BatchRef jobs) : List ProductUpsert :=
  acceptedRows calculator r.job.id r.rows

theorem AsRead.committed {r : BatchRef jobs} (h : r.AsRead) :
    CommittedBatch (importPlan calculator jobs) (r.accepted calculator) := by
  refine ⟨?_, ?_⟩
  · intro u hu
    obtain ⟨row, hr, hp⟩ := mem_acceptedRows.1 hu
    exact List.mem_flatMap.2 ⟨r.job, r.known, mem_acceptedRows.2 ⟨row, h row hr, hp⟩⟩
  · exact acceptedRows_inOrder ((readRangeLines_inOrder r.job.file _ _).sublist r.read.sublist)

end BatchRef

theorem sourceRows_cut (start offset : Nat) (row done rest : Text) :
    sourceRows start (rowsFrom offset row (done ++ '\n' :: rest)) =
      sourceRows start (rowsFrom offset row (done ++ ['\n'])) ++
        sourceRows (offset + (Utf8.encode done).length + 1)
          (rowsFrom (offset + (Utf8.encode done).length + 1) [] rest) := by
  induction done generalizing start offset row with
  | nil =>
    rw [List.nil_append, List.nil_append, rowsFrom, if_pos rfl, rowsFrom, if_pos rfl, rowsFrom,
      if_pos rfl]
    rfl
  | cons c done ih =>
    have hlen : (Utf8.encode (c :: done)).length =
        (String.utf8EncodeChar c).length + (Utf8.encode done).length := by
      rw [Utf8.encode_cons, List.length_append]
    rw [List.cons_append, List.cons_append, rowsFrom, rowsFrom, hlen, ← Nat.add_assoc]
    split
    · rename_i hc
      subst hc
      rw [sourceRows, sourceRows, ih, List.cons_append, encodeChar_newline, List.length_singleton]
    · exact ih _ _ _

theorem readable_of_text (ht : byteRange file from_ to_ = Utf8.encode t) (hto : to_ ≤ file.length)
    (hb : WithinBound (rowsFrom from_ [] t)) :
    Readable file from_ to_ ∧ rowsOf file from_ to_ = rowsFrom from_ [] t := by
  have hrows : rowsOf file from_ to_ = rowsFrom from_ [] t := by
    rw [rowsOf, ht, Utf8.decode_encode]
  refine ⟨⟨?_, hto, hrows ▸ hb⟩, hrows⟩
  rw [ht, Utf8.decode_encode]

/-- The rows of a chunk are rows of the file, where it is valid UTF-8 in rows within the bound. -/
theorem Cut.rows_of_text (h : Cut file i start bs)
    (ht : byteRange file start file.length = Utf8.encode t)
    (hb : WithinBound (rowsFrom start [] t)) (hmem : b ∈ bs) :
    Readable file b.startOffset b.endOffset ∧ b.startOffset ≤ b.endOffset ∧
      ∀ r ∈ fileRows file b.startOffset b.endOffset,
        r ∈ sourceRows start (rowsFrom start [] t) := by
  induction bs generalizing i start t with
  | nil => cases hmem
  | cons b' bs ih =>
    obtain ⟨_, rfl, hlt, hn, hrest⟩ := h
    by_cases hbs : bs = []
    · subst hbs
      have hend : b'.endOffset = file.length := hrest
      rw [List.mem_singleton.1 hmem, fileRows, hend]
      obtain ⟨hreadable, hrows⟩ := readable_of_text ht (Nat.le_refl _) hb
      exact ⟨hreadable, hend ▸ hlt.le, fun r hr => hrows ▸ hr⟩
    · obtain ⟨h₁, h₂⟩ := byteRange_cut hlt hrest.le (hn hbs)
      obtain ⟨done, rest, rfl, hdone, hafter⟩ := encode_split_newline (h₂.symm.trans ht)
      have hhead : byteRange file b'.startOffset b'.endOffset = Utf8.encode (done ++ ['\n']) := by
        rw [h₁, hdone, Utf8.encode_append]
        rfl
      have hoffset : b'.startOffset + (Utf8.encode done).length + 1 = b'.endOffset := by
        have hend := hrest.le
        rw [← hdone, length_byteRange (by omega)]
        omega
      rw [rowsFrom_cut, hoffset] at hb
      rw [sourceRows_cut, hoffset]
      rcases List.mem_cons.1 hmem with rfl | hmem
      · obtain ⟨hreadable, hrows⟩ := readable_of_text hhead hrest.le
          fun l hl => hb l (List.mem_append_left _ hl)
        refine ⟨hreadable, hlt.le, fun r hr => List.mem_append_left _ ?_⟩
        rwa [fileRows, hrows] at hr
      · obtain ⟨hreadable, hle, hrows⟩ :=
          ih hrest hafter (fun l hl => hb l (List.mem_append_right _ hl)) hmem
        exact ⟨hreadable, hle, fun r hr => List.mem_append_right _ (hrows r hr)⟩

/-- Of valid UTF-8 in rows within the bound, every row is read as the file has it, wherever its
chunk starts and a worker takes it up. -/
theorem BatchRef.asRead_of_text (r : BatchRef jobs)
    (ht : byteRange r.job.file (firstRowOffset r.job.file) r.job.file.length = Utf8.encode t)
    (hb : WithinBound (rowsFrom (firstRowOffset r.job.file) [] t)) : r.AsRead := by
  obtain ⟨hreadable, hle, hrows⟩ := r.job.cut.rows_of_text ht hb r.ofJob
  intro row hr
  have hread : ReadAt r.job.file r.chunk row.1 row.2 := ⟨r.from_, r.resumes, r.read.subset hr⟩
  rw [ImportJob.rows, readRangeLines_eq ht (Nat.le_refl _) hb]
  exact hrows _ (hread.mem_fileRows hreadable hle)

/-- A lone first byte of a two-byte character ends the first row. -/
def heldByteJob : ImportJob :=
  .split 1 (Utf8.encode "h\nSKU-1,Scarf,Acc,1,5".toList ++ [0xc3, newline] ++
    Utf8.encode "SKU-2,Hat,Acc,1,5\n".toList) 1

/-- In a chunk of its own, the second row is read without what the byte leaves in the decoder. -/
theorem not_asRead_heldByte : ¬ ∀ r : BatchRef [heldByteJob], r.AsRead := by
  intro h
  have hr : sourceRows 23 (readRangeLines heldByteJob.file 23 41) =
      [(23, "SKU-2,Hat,Acc,1,5".toList)] := by decide +kernel
  have hmem := h ⟨heldByteJob, List.mem_singleton.2 rfl, ⟨1, 23, 41⟩, by decide +kernel, 23, .start,
    _, List.infix_rfl⟩ _ (hr ▸ List.mem_singleton.2 rfl)
  revert hmem
  decide +kernel

/-- The tables before any of the imports: no product comes from one. -/
def ImportState.initial (products : Products) : ImportState := ⟨products, []⟩

def commitRef (calculator : BasePriceCalculator) (s : ImportState) (r : BatchRef jobs) :
    ImportState := commitBatch s (r.accepted calculator)

/-- The state a commit order ends in. -/
def CommitOrder.final (order : CommitOrder calculator jobs) (products : Products) : ImportState :=
  run (commitRef calculator) (.initial products) order.refs

/-- The state an import of every file ends in, line by line from top to bottom. -/
def lineByLine (calculator : BasePriceCalculator) (jobs : List ImportJob) (products : Products) :
    ImportState :=
  run commitBatch (.initial products) ((importPlan calculator jobs).map fun u => [u])

theorem Tracked.initial (h : ∀ row ∈ products.table.rows, row.provenance = none) :
    Tracked plan (.initial products) := by
  refine ⟨fun u hu => absurd hu List.not_mem_nil, ?_⟩
  intro sku row p hf hp
  rw [h row (Table.find_some_mem hf)] at hp
  cases hp

theorem latestStored_initial (products : Products) : LatestStored (.initial products) :=
  fun _ hu => absurd hu.1 List.not_mem_nil

theorem committed_run (s : ImportState) (batches : List (List ProductUpsert)) :
    (run commitBatch s batches).committed = s.committed ++ batches.flatten := by
  induction batches generalizing s with
  | nil => exact (List.append_nil _).symm
  | cons b bs ih => rw [run_cons, ih, commitBatch, List.flatten_cons, List.append_assoc]

/-- The product of a SKU that no batch names stays what it was. -/
theorem valuesOf_run_absent (s : ImportState) (batches : List (List ProductUpsert))
    (h : ∀ b ∈ batches, ∀ u ∈ b, u.sku ≠ sku) :
    valuesOf (run commitBatch s batches).products sku = valuesOf s.products sku := by
  induction batches generalizing s with
  | nil => rfl
  | cons b bs ih =>
    rw [List.forall_mem_cons] at h
    rw [run_cons, ih _ h.2]
    have hc : Products.candidate b sku = none := by
      by_contra hn
      obtain ⟨u, hu⟩ := Option.ne_none_iff_exists'.1 hn
      exact h.1 u (Products.candidate_mem hu).1 (Products.candidate_mem hu).2
    exact congrArg (Option.map ProductRow.values) (Products.find_upsertMany_absent _ hc)

theorem run_commitRef (s : ImportState) (refs : List (BatchRef jobs)) :
    run (commitRef calculator) s refs =
      run commitBatch s (refs.map (BatchRef.accepted calculator)) := by
  rw [run, run, List.foldl_map]
  rfl

/-- A complete order that reads its rows as the files have them commits the rows of the plan and
no others. -/
theorem CommitOrder.committed_iff (order : CommitOrder calculator jobs) (h : order.Complete)
    (hread : order.ReadsAsFile) :
    u ∈ (order.final products).committed ↔ u ∈ importPlan calculator jobs := by
  rw [final, run_commitRef, committed_run, ImportState.initial, List.nil_append,
    List.mem_flatten]
  constructor
  · rintro ⟨_, hb, hu⟩
    obtain ⟨r, hr, rfl⟩ := List.mem_map.1 hb
    exact (hread r hr).committed.planned u hu
  · intro hu
    obtain ⟨job, hj, hu⟩ := List.mem_flatMap.1 hu
    obtain ⟨row, hr, hp⟩ := mem_acceptedRows.1 hu
    obtain ⟨r, hrefs, rfl, line, hline⟩ := h job hj row hr
    have hsame : line = row.2 := ImportJob.eq_of_offset (hread r hrefs _ hline) hr
    rw [hsame] at hline
    exact ⟨_, List.mem_map_of_mem hrefs, mem_acceptedRows.2 ⟨row, hline, hp⟩⟩

theorem lineByLine_committed :
    u ∈ (lineByLine calculator jobs products).committed ↔ u ∈ importPlan calculator jobs := by
  rw [lineByLine, committed_run, ImportState.initial, List.nil_append, ← List.flatMap_def,
    List.flatMap_singleton']

/-- Rows that come one by one in the order of their provenance never overtake. -/
theorem along_lines (us : List ProductUpsert)
    (hu : us.Pairwise fun u v => u.provenance < v.provenance)
    (hs : ∀ v ∈ s.committed, ∀ u ∈ us, v.provenance < u.provenance) :
    Along commitBatch (fun s b => ¬ Overtakes s b) s (us.map fun u => [u]) := by
  induction us generalizing s with
  | nil => trivial
  | cons u us ih =>
    rw [List.pairwise_cons] at hu
    refine ⟨?_, ih hu.2 ?_⟩
    · rintro ⟨w, _, hc, _, _, v, hv, _, hlt⟩
      have hw : w = u := List.mem_singleton.1 (Products.candidate_mem hc).1
      rw [hw] at hlt
      exact hlt.asymm (hs v hv u List.mem_cons_self)
    · intro v hv x hx
      rcases List.mem_append.1 hv with hv | hv
      · exact hs v hv x (List.mem_cons_of_mem _ hx)
      · rw [List.mem_singleton.1 hv]
        exact hu.1 x hx

section
variable {plan : List ProductUpsert}
  (hplan : plan.Pairwise fun u v => u.provenance < v.provenance)
include hplan

theorem tracked_latestStored_step (s : ImportState) (batch : List ProductUpsert)
    (h : Tracked plan s ∧ LatestStored s) (hb : CommittedBatch plan batch ∧ ¬ Overtakes s batch) :
    Tracked plan (commitBatch s batch) ∧ LatestStored (commitBatch s batch) := by
  refine ⟨h.1.commit hb.1, latestStored_of_not_overtakes ?_ h.1 h.2 hb.1 hb.2⟩
  intro u hu v hv he
  exact eq_of_provenance hplan hu hv he

theorem latestStored_commit_iff (s : ImportState) (batch : List ProductUpsert)
    (h : Tracked plan s ∧ LatestStored s) (hb : CommittedBatch plan batch) :
    LatestStored (commitBatch s batch) ↔ ¬ Overtakes s batch := by
  refine ⟨fun hl ho => not_latestStored_of_overtakes h.2 hb ho hl, fun ho => ?_⟩
  exact (tracked_latestStored_step hplan s batch h ⟨hb, ho⟩).2

end

namespace CommitOrder

/-- After every batch, each product holds the values of the latest row committed for it. -/
def KeepsLatest (order : CommitOrder calculator jobs) (products : Products) : Prop :=
  Along (commitRef calculator) (fun s r => LatestStored (commitRef calculator s r))
    (.initial products) order.refs

/-- No batch writes a row to a product for which a later row has already been committed. -/
def NeverOvertakes (order : CommitOrder calculator jobs) (products : Products) : Prop :=
  Along (commitRef calculator) (fun s r => ¬ Overtakes s (r.accepted calculator))
    (.initial products) order.refs

theorem final_latestStored (order : CommitOrder calculator jobs)
    (hjobs : jobs.Pairwise fun i j => i.id < j.id)
    (hp : ∀ row ∈ products.table.rows, row.provenance = none) (hread : order.ReadsAsFile)
    (h : order.NeverOvertakes products) : LatestStored (order.final products) := by
  have hsteps : Along (commitRef calculator)
      (fun s r => r.AsRead ∧ ¬ Overtakes s (r.accepted calculator)) (.initial products)
      order.refs := along_and.2 ⟨along_of_mem hread, h⟩
  have hrun : Tracked (importPlan calculator jobs) (order.final products) ∧
      LatestStored (order.final products) :=
    run_invariant
      (fun s r hi hc => tracked_latestStored_step (importPlan_inOrder hjobs) s
        (r.accepted calculator) hi ⟨hc.1.committed, hc.2⟩)
      ⟨.initial hp, latestStored_initial products⟩ hsteps
  exact hrun.2

theorem lineByLine_latestStored (hjobs : jobs.Pairwise fun i j => i.id < j.id)
    (hp : ∀ row ∈ products.table.rows, row.provenance = none) :
    LatestStored (lineByLine calculator jobs products) := by
  have ho := importPlan_inOrder (c := calculator) hjobs
  have hline : ∀ batch ∈ (importPlan calculator jobs).map fun u => [u],
      CommittedBatch (importPlan calculator jobs) batch := by
    intro batch hb
    obtain ⟨u, hu, rfl⟩ := List.mem_map.1 hb
    exact ⟨fun v hv => List.mem_singleton.1 hv ▸ hu, List.pairwise_singleton _ _⟩
  have hrun : Tracked (importPlan calculator jobs) (lineByLine calculator jobs products) ∧
      LatestStored (lineByLine calculator jobs products) :=
    run_invariant (tracked_latestStored_step ho)
      ⟨.initial hp, latestStored_initial products⟩
      (along_and.2 ⟨along_of_mem hline,
        along_lines _ ho fun v hv => absurd hv List.not_mem_nil⟩)
  exact hrun.2

/-- What the products hold in the end is decided by the rows and not by the order. -/
theorem final_values (order : CommitOrder calculator jobs) (hc : order.Complete)
    (hjobs : jobs.Pairwise fun i j => i.id < j.id)
    (hp : ∀ row ∈ products.table.rows, row.provenance = none) (hread : order.ReadsAsFile)
    (h : order.NeverOvertakes products) :
    (∀ u, Latest (importPlan calculator jobs) u →
        valuesOf (order.final products).products u.sku = some u.values) ∧
      ∀ sku, valuesOf (order.final products).products sku =
        valuesOf (lineByLine calculator jobs products).products sku := by
  have hcommitted {u : ProductUpsert} :
      u ∈ (order.final products).committed ↔ u ∈ importPlan calculator jobs :=
    order.committed_iff hc hread
  have hfinal (u : ProductUpsert) (hu : Latest (importPlan calculator jobs) u) :
      valuesOf (order.final products).products u.sku = some u.values :=
    order.final_latestStored hjobs hp hread h u
      ⟨hcommitted.2 hu.1, fun v hv => hu.2 v (hcommitted.1 hv)⟩
  have hline (u : ProductUpsert) (hu : Latest (importPlan calculator jobs) u) :
      valuesOf (lineByLine calculator jobs products).products u.sku = some u.values :=
    lineByLine_latestStored hjobs hp u
      ⟨lineByLine_committed.2 hu.1, fun v hv => hu.2 v (lineByLine_committed.1 hv)⟩
  refine ⟨hfinal, fun sku => ?_⟩
  by_cases hs : ∃ v ∈ importPlan calculator jobs, v.sku = sku
  · obtain ⟨v, hv, hvs⟩ := hs
    obtain ⟨u, hu, hus, _⟩ := exists_latest hv
    rw [← hvs, ← hus, hfinal u hu, hline u hu]
  · have hn {u : ProductUpsert} (hu : u ∈ importPlan calculator jobs) : u.sku ≠ sku :=
      fun he => hs ⟨u, hu, he⟩
    rw [final, run_commitRef, lineByLine, valuesOf_run_absent, valuesOf_run_absent]
    · intro b hb u hu
      obtain ⟨v, hv, rfl⟩ := List.mem_map.1 hb
      rw [List.mem_singleton.1 hu]
      exact hn hv
    · intro b hb u hu
      obtain ⟨r, hr, rfl⟩ := List.mem_map.1 hb
      exact hn ((hread r hr).committed.planned u hu)

end CommitOrder

/-- As long as no row's text depends on the split, the products follow the latest rows after every
batch exactly when no batch overtakes, and then a complete import ends as a line by line import
does. -/
theorem order_independent_iff (hjobs : jobs.Pairwise fun i j => i.id < j.id)
    (hp : ∀ row ∈ products.table.rows, row.provenance = none)
    (order : CommitOrder calculator jobs) (hread : order.ReadsAsFile) :
    (order.KeepsLatest products ↔ order.NeverOvertakes products) ∧
      (order.Complete → order.NeverOvertakes products →
        (∀ u, Latest (importPlan calculator jobs) u →
          valuesOf (order.final products).products u.sku = some u.values) ∧
        ∀ sku, valuesOf (order.final products).products sku =
          valuesOf (lineByLine calculator jobs products).products sku) := by
  have ho := importPlan_inOrder (c := calculator) hjobs
  refine ⟨?_, fun hc h => order.final_values hc hjobs hp hread h⟩
  have hasRead : Along (commitRef calculator) (fun _ r => r.AsRead) (.initial products)
      order.refs := along_of_mem hread
  have hboth : Along (commitRef calculator)
        (fun s r => r.AsRead ∧ LatestStored (commitRef calculator s r)) (.initial products)
        order.refs ↔
      Along (commitRef calculator)
        (fun s r => r.AsRead ∧ ¬ Overtakes s (r.accepted calculator)) (.initial products)
        order.refs := by
    apply along_congr (I := fun s => Tracked (importPlan calculator jobs) s ∧ LatestStored s)
    · intro s r hi hc
      exact tracked_latestStored_step ho s _ hi ⟨hc.1.committed, hc.2⟩
    · intro s r hi
      exact and_congr_right fun h => latestStored_commit_iff ho s _ hi h.committed
    · exact ⟨.initial hp, latestStored_initial products⟩
  rw [along_and, along_and] at hboth
  exact and_congr_right_iff.1 hboth hasRead

/-- One SKU three times: its stock goes from one to five and back. -/
def restockedFile : List UInt8 :=
  Utf8.encode ("sku,name,category,vendor_price,stock_quantity\n" ++
    "SKU-1,Wool scarf,Accessories,799.90,1\n" ++ "SKU-1,Wool scarf,Accessories,799.90,5\n" ++
    "SKU-1,Wool scarf,Accessories,799.90,1").toList

/-- Chunks so small that each holds one row. -/
def restockedJob : ImportJob := .split 1 restockedFile 1

def restockedLine (stock : Nat) : Text := s!"SKU-1,Wool scarf,Accessories,799.90,{stock}".toList

def restockedRow (stock offset : Nat) : ProductUpsert :=
  ⟨"SKU-1".toList, "Wool scarf".toList, "Accessories".toList, 83989, stock, 1757635200000, 1,
    offset⟩

theorem restocked_chunks : restockedJob.chunks = [⟨0, 46, 84⟩, ⟨1, 84, 122⟩, ⟨2, 122, 159⟩] := by
  decide +kernel

theorem restocked_rows : restockedJob.rows =
    [(46, restockedLine 1), (84, restockedLine 5), (122, restockedLine 1)] := by
  decide +kernel

theorem restocked_plan : importPlan commissionCalculator [restockedJob] =
    [restockedRow 1 46, restockedRow 5 84, restockedRow 1 122] := by
  decide +kernel

/-- The row of one chunk. -/
def restockedChunk (chunk : ChunkBoundary) (stock : Nat) (hc : chunk ∈ restockedJob.chunks)
    (hr : sourceRows chunk.startOffset
      (readRangeLines restockedJob.file chunk.startOffset chunk.endOffset) =
        [(chunk.startOffset, restockedLine stock)]) : BatchRef [restockedJob] where
  job := restockedJob
  known := List.mem_singleton.2 rfl
  chunk := chunk
  ofJob := hc
  from_ := chunk.startOffset
  resumes := .start
  rows := [(chunk.startOffset, restockedLine stock)]
  read := by rw [hr]

def restockedFirst : BatchRef [restockedJob] :=
  restockedChunk ⟨0, 46, 84⟩ 1 (by rw [restocked_chunks]; decide) (by decide +kernel)

def restockedSecond : BatchRef [restockedJob] :=
  restockedChunk ⟨1, 84, 122⟩ 5 (by rw [restocked_chunks]; decide) (by decide +kernel)

def restockedThird : BatchRef [restockedJob] :=
  restockedChunk ⟨2, 122, 159⟩ 1 (by rw [restocked_chunks]; decide) (by decide +kernel)

/-- The chunk in the middle commits last. -/
def restockedRefs : List (BatchRef [restockedJob]) :=
  [restockedFirst, restockedThird, restockedSecond]

theorem restockedRefs_start : ∀ r ∈ restockedRefs, ∀ row ∈ r.rows,
    row.1 = r.chunk.startOffset := by
  simp only [restockedRefs, restockedFirst, restockedSecond, restockedThird, restockedChunk,
    List.forall_mem_cons, List.not_mem_nil, false_implies, implies_true, and_self]

theorem restockedRefs_priced : ∀ r ∈ restockedRefs, ∀ row ∈ r.rows,
    ∃ accepted, price commissionCalculator row.2 r.job.id row.1 = .ok accepted := by
  simp only [restockedRefs, restockedFirst, restockedSecond, restockedThird, restockedChunk,
    List.forall_mem_cons, List.not_mem_nil, false_implies, implies_true, and_true]
  refine ⟨⟨some (restockedRow 1 46), ?_⟩, ⟨some (restockedRow 1 122), ?_⟩,
    ⟨some (restockedRow 5 84), ?_⟩⟩
  · decide +kernel
  · decide +kernel
  · decide +kernel

def restockedOrder : CommitOrder commissionCalculator [restockedJob] where
  refs := restockedRefs
  chunkOrder := by
    intro pre r post h row hrow offset line hread hlt
    have hr : r ∈ restockedRefs := h ▸ List.mem_append_right _ List.mem_cons_self
    rw [restockedRefs_start r hr row hrow] at hlt
    exact absurd hread.le (Nat.not_le_of_lt hlt)
  priced := restockedRefs_priced

theorem restockedOrder_complete : restockedOrder.Complete := by
  intro job hj row hr
  rw [List.mem_singleton.1 hj] at hr ⊢
  rw [restocked_rows, List.mem_cons, List.mem_cons, List.mem_singleton] at hr
  have hfirst : restockedFirst ∈ restockedRefs := List.mem_cons_self
  have hthird : restockedThird ∈ restockedRefs := List.mem_cons_of_mem _ List.mem_cons_self
  have hsecond : restockedSecond ∈ restockedRefs :=
    List.mem_cons_of_mem _ (List.mem_cons_of_mem _ List.mem_cons_self)
  rcases hr with rfl | rfl | rfl
  · exact ⟨_, hfirst, rfl, _, List.mem_singleton.2 rfl⟩
  · exact ⟨_, hsecond, rfl, _, List.mem_singleton.2 rfl⟩
  · exact ⟨_, hthird, rfl, _, List.mem_singleton.2 rfl⟩

theorem restockedOrder_readsAsFile : restockedOrder.ReadsAsFile := by
  intro r hr
  rw [BatchRef.AsRead, List.mem_singleton.1 r.known, restocked_rows]
  revert r
  change ∀ r ∈ restockedRefs, ∀ row ∈ r.rows, row ∈ _
  simp only [restockedRefs, restockedFirst, restockedSecond, restockedThird, restockedChunk,
    List.forall_mem_cons, List.not_mem_nil, false_implies, implies_true, and_true]
  decide +kernel

/-- The last row was skipped as unchanged, so the product keeps the provenance of the first, and
the row in the middle is stored over it. -/
theorem restocked_product_stale :
    restockedOrder.Complete ∧ restockedOrder.ReadsAsFile ∧
      Latest (importPlan commissionCalculator [restockedJob]) (restockedRow 1 122) ∧
      valuesOf (restockedOrder.final .empty).products "SKU-1".toList =
        some (restockedRow 5 84).values ∧
      (restockedRow 5 84).values ≠ (restockedRow 1 122).values := by
  refine ⟨restockedOrder_complete, restockedOrder_readsAsFile, ?_, ?_, ?_⟩
  · rw [restocked_plan]
    exact ⟨by decide +kernel, by decide +kernel⟩
  · decide +kernel
  · decide +kernel

theorem order_independent_iff_restocked :
    restockedOrder.KeepsLatest .empty ↔ restockedOrder.NeverOvertakes .empty :=
  (order_independent_iff (List.pairwise_singleton _ _) (fun _ h => absurd h List.not_mem_nil)
    restockedOrder restockedOrder_readsAsFile).1

end PromotionManagement
