import PromotionManagement.BatchPlan
import PromotionManagement.ChunkBoundaries

namespace PromotionManagement
open Library
set_option autoImplicit true

/-- Where a worker may take a range up: at its start, or at the end of a line that a worker which
took it up before has read. -/
inductive Resumes (bytes : List UInt8) (b : ChunkBoundary) : Nat → Prop where
  | start : Resumes bytes b b.startOffset
  | next : Resumes bytes b from_ → l ∈ readRangeLines bytes from_ b.endOffset →
      Resumes bytes b l.endOffset

/-- A worker on the range reads a line that starts at the offset. -/
def ReadAt (bytes : List UInt8) (b : ChunkBoundary) (offset : Nat) (line : Text) : Prop :=
  ∃ from_, Resumes bytes b from_ ∧
    (offset, line) ∈ sourceRows from_ (readRangeLines bytes from_ b.endOffset)

/-- The lines that a run has left are the last of those its reader was opened for. -/
structure Reading (bytes : List UInt8) (b : ChunkBoundary) (run : ChunkRun) : Prop where
  opened : ∃ from_, Resumes bytes b from_ ∧
    run.lines <:+ readRangeLines bytes from_ b.endOffset ∧
    sourceRows run.rowStart run.lines <:+
      sourceRows from_ (readRangeLines bytes from_ b.endOffset)
  rowStart : Resumes bytes b run.rowStart
  batch : run.batch.nextOffset = run.rowStart

section
variable {bytes : List UInt8} {b : ChunkBoundary} {run : ChunkRun}

/-- The line that a run reads next, and where that leaves its reader. -/
theorem Reading.next (h : Reading bytes b run) (hl : run.lines = l :: lines) :
    ReadAt bytes b run.rowStart l.line ∧ ∀ run' : ChunkRun, run'.lines = lines →
      run'.rowStart = l.endOffset → run'.batch.nextOffset = l.endOffset →
        Reading bytes b run' := by
  obtain ⟨from_, hfrom, hlines, hrows⟩ := h.opened
  rw [hl] at hlines
  rw [hl, sourceRows] at hrows
  refine ⟨⟨from_, hfrom, hrows.subset List.mem_cons_self⟩, ?_⟩
  intro run' hl' hstart hnext
  have hmem : l ∈ readRangeLines bytes from_ b.endOffset := hlines.subset List.mem_cons_self
  refine ⟨⟨from_, hfrom, ?_, ?_⟩, ?_, hnext.trans hstart.symm⟩
  · rw [hl']
    exact (List.suffix_cons l lines).trans hlines
  · rw [hl', hstart]
    exact (List.suffix_cons _ _).trans hrows
  · rw [hstart]
    exact hfrom.next hmem

theorem Reading.opens (h : Resumes bytes b from_)
    (hlines : run.lines = readRangeLines bytes from_ b.endOffset) (hstart : run.rowStart = from_)
    (hnext : run.batch.nextOffset = from_) : Reading bytes b run := by
  refine ⟨⟨from_, h, ?_, ?_⟩, ?_, hnext.trans hstart.symm⟩
  · rw [hlines]
  · rw [hlines, hstart]
  · rw [hstart]
    exact h

/-- The end of any row of a range is a row start. -/
theorem RowStart.of_mem (h : RowStart file from_ to_ offset) (hl : l ∈ rowsOf file offset to_) :
    RowStart file from_ to_ l.endOffset := by
  generalize hlines : rowsOf file offset to_ = lines at hl
  induction lines generalizing offset with
  | nil => cases hl
  | cons l' lines ih =>
    obtain ⟨hnext, hrest, _⟩ := h.next hlines
    rcases List.mem_cons.1 hl with rfl | hl
    · exact hnext
    · exact ih hnext hrest hl

/-- No worker takes a range up before its start. -/
theorem Resumes.le (h : Resumes bytes b from_) : b.startOffset ≤ from_ := by
  induction h with
  | start => exact Nat.le_refl _
  | @next from_ l _ hl ih =>
    by_cases hle : from_ ≤ b.endOffset
    · exact ih.trans ((readRangeLines_ascending bytes hle _).lt_of_mem hl).le
    · rw [readRangeLines, if_pos (Nat.le_of_not_le hle)] at hl
      cases hl

theorem ReadAt.le (h : ReadAt bytes b offset line) : b.startOffset ≤ offset := by
  obtain ⟨from_, hfrom, hmem⟩ := h
  by_cases hle : from_ ≤ b.endOffset
  · exact hfrom.le.trans (le_of_mem_sourceRows (readRangeLines_ascending bytes hle _) hmem)
  · rw [readRangeLines, if_pos (Nat.le_of_not_le hle)] at hmem
    cases hmem

/-- In a range of whole characters with rows within the bound, workers take up at row starts. -/
theorem Resumes.rowStart (h : Resumes bytes b offset)
    (hreadable : Readable bytes b.startOffset b.endOffset) (hle : b.startOffset ≤ b.endOffset) :
    RowStart bytes b.startOffset b.endOffset offset := by
  induction h with
  | start => exact hreadable.rowStart hle
  | next _ hl ih =>
    rw [ih.readable.readRangeLines_eq] at hl
    exact ih.of_mem hl

/-- What a worker reads at an offset of such a range is the row of the file that starts there. -/
theorem ReadAt.mem_fileRows (h : ReadAt bytes b offset line)
    (hreadable : Readable bytes b.startOffset b.endOffset) (hle : b.startOffset ≤ b.endOffset) :
    (offset, line) ∈ fileRows bytes b.startOffset b.endOffset := by
  obtain ⟨from_, hfrom, hmem⟩ := h
  have hstart := hfrom.rowStart hreadable hle
  obtain ⟨before, hsplit, _⟩ := hstart.split
  rw [hstart.readable.readRangeLines_eq] at hmem
  rw [hsplit]
  exact List.mem_append_right before hmem

end

/-- The first row starts after a line feed, or at the end of the file. -/
theorem rowBoundary_firstRowOffset (file : List UInt8) :
    RowBoundary file (firstRowOffset file) := by
  rw [firstRowOffset]
  split
  · exact .inr (.inl rfl)
  · rename_i i hi
    obtain ⟨_, hget⟩ := indexOfNewline_some hi
    obtain ⟨_, hnewline⟩ := byteRange_get hget
    rw [Nat.zero_add] at hnewline
    exact .inr (.inr ⟨Nat.succ_pos i, hnewline⟩)

theorem Cut.rowBoundary (h : Cut file i start bs) (hstart : RowBoundary file start)
    (hb : b ∈ bs) : RowBoundary file b.startOffset ∧ RowBoundary file b.endOffset ∧
      b.startOffset ≤ b.endOffset ∧ b.endOffset ≤ file.length := by
  induction bs generalizing i start with
  | nil => cases hb
  | cons b' bs ih =>
    have hle := h.2.2.2.2.le
    obtain ⟨_, rfl, hlt, hnewline, hrest⟩ := h
    have hend : RowBoundary file b'.endOffset := by
      by_cases hbs : bs = []
      · subst hbs
        exact .inr (.inl hrest)
      · exact .inr (.inr ⟨Nat.lt_of_le_of_lt (Nat.zero_le _) hlt, hnewline hbs⟩)
    rcases List.mem_cons.1 hb with rfl | hb
    · exact ⟨hstart, hend, hlt.le, hle⟩
    · exact ih hrest hend hb

/-- A file of valid UTF-8, whose chunks have rows within the bound. -/
structure Legible (bytes : List UInt8) (chunkBytes : Nat) : Prop where
  text : ∃ t, bytes = Utf8.encode t
  bound : ∀ b ∈ chunkBoundaries bytes chunkBytes,
    WithinBound (rowsOf bytes b.startOffset b.endOffset)

theorem Legible.readable (h : Legible bytes chunkBytes)
    (hb : b ∈ chunkBoundaries bytes chunkBytes) :
    Readable bytes b.startOffset b.endOffset ∧ b.startOffset ≤ b.endOffset := by
  obtain ⟨t, ht⟩ := h.text
  obtain ⟨hstart, hend, hle, hlen⟩ :=
    (chunkBoundaries_cut bytes chunkBytes).rowBoundary (rowBoundary_firstRowOffset bytes) hb
  exact ⟨readable_of_rowBoundary ht hstart hend hle hlen (h.bound b hb), hle⟩

end PromotionManagement
