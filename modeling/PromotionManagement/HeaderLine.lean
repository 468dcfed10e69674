import PromotionManagement.ChunkBoundaries
import PromotionManagement.ChunkBounds

namespace PromotionManagement
open Library
set_option autoImplicit true

/-- The offset past the mark that may begin a file. -/
def afterBom (file : List UInt8) : Nat := if file.take bom.length = bom then bom.length else 0

/-- The offset of the line feed that ends the first line of a file. -/
structure EndsHeader (file : List UInt8) (i : Nat) : Prop where
  after : afterBom file ≤ i
  ends : file[i]? = some newline
  first : ∀ j, afterBom file ≤ j → j < i → file[j]? ≠ some newline

theorem EndsHeader.lt (h : EndsHeader file i) : i < file.length :=
  (List.getElem?_eq_some_iff.1 h.ends).1

/-- A window sees the end of the first line when it reaches as far. -/
theorem EndsHeader.indexOfNewline (h : EndsHeader file i) (n : Nat) :
    indexOfNewline (file.take n) (afterBom file) = if i < n then some i else none := by
  have hget (j : Nat) : ((file.take n).drop (afterBom file))[j]? =
      if afterBom file + j < n then file[afterBom file + j]? else none := by
    rw [List.getElem?_drop, List.getElem?_take]
  rw [PromotionManagement.indexOfNewline]
  split
  · rename_i hlt
    have hi : afterBom file + (i - afterBom file) = i := Nat.add_sub_cancel' h.after
    have hfound := hget (i - afterBom file)
    rw [hi, if_pos hlt, h.ends] at hfound
    obtain ⟨hbound, hvalue⟩ := List.getElem?_eq_some_iff.1 hfound
    have hindex : ((file.take n).drop (afterBom file)).findIdx? (· = newline) =
        some (i - afterBom file) := by
      refine List.findIdx?_eq_some_iff_getElem.2 ⟨hbound, decide_eq_true hvalue, ?_⟩
      intro j hj hn
      have hbefore := hget j
      rw [List.getElem?_eq_getElem (hj.trans hbound), if_pos (by omega)] at hbefore
      apply h.first (afterBom file + j) (Nat.le_add_right _ _) (by omega)
      rw [← hbefore]
      exact congrArg some (of_decide_eq_true hn)
    rw [hindex, Option.map_some, hi]
  · rename_i hge
    rw [Option.map_eq_none_iff, List.findIdx?_eq_none_iff]
    intro b hb
    obtain ⟨j, hj⟩ := List.mem_iff_getElem?.1 hb
    rw [hget j] at hj
    split at hj
    · apply decide_eq_false
      rintro rfl
      exact h.first (afterBom file + j) (Nat.le_add_right _ _) (by omega) hj
    · cases hj

/-- The mark is looked for in the window, which is longer than it. -/
theorem afterBom_window (file : List UInt8) (hn : bom.length ≤ n) :
    (if (file.take n).take bom.length = bom then bom.length else 0) = afterBom file := by
  rw [List.take_take, Nat.min_eq_left hn, afterBom]

theorem EndsHeader.firstRowOffset (h : EndsHeader file i) :
    firstRowOffset file = if i < stepBytes then i + 1 else file.length := by
  have hwindow : byteRange file 0 (min file.length stepBytes) = file.take stepBytes := by
    rw [byteRange, List.drop_zero, Nat.min_comm, List.take_eq_take_iff, Nat.min_assoc,
      Nat.min_self]
  rw [PromotionManagement.firstRowOffset, hwindow, afterBom_window file (by decide),
    h.indexOfNewline]
  by_cases hlt : i < stepBytes
  · rw [if_pos hlt, if_pos hlt]
  · rw [if_neg hlt, if_neg hlt]

theorem chunksFrom_head (file : List UInt8) (targetBytes chunkIndex chunkStart : Nat) :
    ∃ b bs, chunksFrom file targetBytes chunkIndex chunkStart = b :: bs ∧
      b.startOffset = chunkStart := by
  rw [chunksFrom]
  split
  · exact ⟨_, _, rfl, rfl⟩
  · exact ⟨_, _, rfl, rfl⟩

/-- A file is cut into chunks from its first row on, if it has one. -/
theorem chunkBoundaries_head (file : List UInt8) (targetBytes : Nat) :
    (chunkBoundaries file targetBytes).head?.map ChunkBoundary.startOffset =
      if firstRowOffset file < file.length then some (firstRowOffset file) else none := by
  rw [chunkBoundaries]
  split
  · rename_i hge
    rw [if_neg (Nat.not_lt.2 hge)]
    rfl
  · rename_i hlt
    obtain ⟨b, bs, hb, hstart⟩ := chunksFrom_head file targetBytes 0 (firstRowOffset file)
    rw [if_pos (Nat.lt_of_not_le hlt), hb, List.head?_cons, Option.map_some, hstart]

/-- The rows that `RegisterImportCommand` inserts for a new file of an idle vendor: the job, and a
chunk for every range. -/
def IngestionDb.register (db : IngestionDb) (jobId : Nat) (fileRef : Text)
    (boundaries : List ChunkBoundary) : IngestionDb :=
  { db with
    jobs := db.jobs.insert (.registered jobId fileRef db.now)
    chunks := boundaries.foldl
      (fun chunks b =>
        chunks.insert (.registered ⟨jobId, b.chunkIndex⟩ b.startOffset b.endOffset)) db.chunks }

/-- An identity that no row has. -/
structure Unregistered (db : IngestionDb) (jobId : Nat) : Prop where
  job : db.jobs.find jobId = none
  chunks : ∀ row ∈ db.chunks.rows, row.chunk.jobId ≠ jobId

/-- The job of a file as it stands when nothing but its registration has happened and it is asked
whether it is done. -/
def registeredJob (db : IngestionDb) (jobId : Nat) (fileRef : Text)
    (boundaries : List ChunkBoundary) : Option JobRow :=
  ((db.register jobId fileRef boundaries).completeJobIfDone jobId).jobs.find jobId

/-- The header is the first line, and a file with more than it is not completed unread. -/
structure HeaderIsFirstLine (file : List UInt8) (targetBytes i : Nat) : Prop where
  empty : chunkBoundaries file targetBytes = [] ↔ i + 1 = file.length
  start : i + 1 < file.length →
    (chunkBoundaries file targetBytes).head?.map ChunkBoundary.startOffset = some (i + 1)
  imported : i + 1 < file.length → ∀ db jobId fileRef, Unregistered db jobId →
    ∀ job, registeredJob db jobId fileRef (chunkBoundaries file targetBytes) = some job →
      job.status = .running

theorem mem_foldl_insert {chunks : Table ChunkRow.chunk} {row : ChunkRow}
    (h : row ∈ chunks.rows) (f : ChunkBoundary → ChunkRow) (boundaries : List ChunkBoundary) :
    row ∈ (boundaries.foldl (fun chunks b => chunks.insert (f b)) chunks).rows := by
  induction boundaries generalizing chunks with
  | nil => exact h
  | cons b boundaries ih => exact ih (Table.mem_insert_of_mem h (f b))

theorem register_pending (hu : Unregistered db jobId) (b : ChunkBoundary)
    (boundaries : List ChunkBoundary) :
    .registered ⟨jobId, b.chunkIndex⟩ b.startOffset b.endOffset ∈
      (db.register jobId fileRef (b :: boundaries)).chunks.rows := by
  have hnew : db.chunks.find ⟨jobId, b.chunkIndex⟩ = none := by
    apply Table.find_eq_none.2
    intro row hr he
    exact hu.chunks row hr (congrArg ChunkProcess.jobId he)
  exact mem_foldl_insert ((Table.mem_insert db.chunks _ hnew).2 (.inr rfl)) _ boundaries

theorem register_allDone (hu : Unregistered db jobId) (fileRef : Text)
    (boundaries : List ChunkBoundary) :
    (db.register jobId fileRef boundaries).allDone jobId = true ↔ boundaries = [] := by
  rw [IngestionDb.allDone, IngestionDb.chunksOf, List.all_eq_true]
  constructor
  · intro hall
    cases boundaries with
    | nil => rfl
    | cons b boundaries =>
      have hdone := hall _ (List.mem_filter.2 ⟨register_pending hu b boundaries,
        decide_eq_true rfl⟩)
      cases hdone
  · rintro rfl row hr
    obtain ⟨hr, hid⟩ := List.mem_filter.1 hr
    exact absurd (of_decide_eq_true hid) (hu.chunks row hr)

/-- A job without chunks is completed as soon as it is asked for. -/
theorem registeredJob_eq (hu : Unregistered db jobId) (fileRef : Text)
    (boundaries : List ChunkBoundary) :
    registeredJob db jobId fileRef boundaries = some
      (if boundaries = [] then
        (db.register jobId fileRef boundaries).completed (.registered jobId fileRef db.now)
      else .registered jobId fileRef db.now) := by
  have hjob : (db.register jobId fileRef boundaries).jobs.find jobId =
      some (.registered jobId fileRef db.now) :=
    (Table.find_insert _ _ hu.job jobId).trans (if_pos rfl)
  rw [registeredJob, IngestionDb.completeJobIfDone, Table.find_update_self, hjob, Option.map_some]
  congr 1
  by_cases hb : boundaries = []
  · have hall := (register_allDone hu fileRef boundaries).2 hb
    rw [if_pos hb, if_pos]
    rw [hall]
    rfl
  · have hall : (db.register jobId fileRef boundaries).allDone jobId = false := by
      rw [← Bool.not_eq_true, register_allDone hu]
      exact hb
    rw [if_neg hb, if_neg]
    rw [hall, Bool.and_false]
    exact Bool.false_ne_true

/-- The header is exactly the first line when it ends in the first window, or with the file. -/
theorem headerIsFirstLine_iff (h : EndsHeader file i) (targetBytes : Nat) :
    HeaderIsFirstLine file targetBytes i ↔ i < stepBytes ∨ i + 1 = file.length := by
  have hoffset := h.firstRowOffset
  have hhead := chunkBoundaries_head file targetBytes
  constructor
  · intro hfirst
    by_contra hn
    rw [not_or] at hn
    rw [if_neg hn.1] at hoffset
    rw [hoffset, if_neg (Nat.lt_irrefl _), Option.map_eq_none_iff, List.head?_eq_none_iff] at hhead
    exact hn.2 (hfirst.empty.1 hhead)
  · intro hc
    have hstart : firstRowOffset file = i + 1 := by
      rcases hc with hlt | he
      · rw [hoffset, if_pos hlt]
      · rw [hoffset, he, ite_self]
    rw [hstart] at hhead
    have hne (hmore : i + 1 < file.length) : chunkBoundaries file targetBytes ≠ [] := by
      intro hnil
      rw [if_pos hmore, hnil] at hhead
      cases hhead
    refine ⟨⟨?_, ?_⟩, ?_, ?_⟩
    · intro hnil
      by_contra hend
      exact hne (Nat.lt_of_le_of_ne h.lt hend) hnil
    · intro hend
      rw [if_neg (Nat.not_lt.2 hend.ge), Option.map_eq_none_iff, List.head?_eq_none_iff] at hhead
      exact hhead
    · intro hmore
      rw [hhead, if_pos hmore]
    · intro hmore db jobId fileRef hu job hjob
      rw [registeredJob_eq hu, if_neg (hne hmore)] at hjob
      cases hjob
      rfl

/-- A header of 64 KiB without its line feed, and a row. -/
def longHeaderFile : List UInt8 := List.replicate stepBytes 0x68 ++ [newline, 0x61]

theorem longHeaderFile_ends : EndsHeader longHeaderFile stepBytes := by
  have hletter (j : Nat) (hj : j < stepBytes) : longHeaderFile[j]? = some 0x68 := by
    rw [longHeaderFile, List.getElem?_append_left (by rw [List.length_replicate]; exact hj),
      List.getElem?_replicate, if_pos hj]
  constructor
  · rw [afterBom]
    split
    · decide
    · exact Nat.zero_le _
  · rw [longHeaderFile, List.getElem?_append_right (by rw [List.length_replicate]),
      List.length_replicate, Nat.sub_self]
    rfl
  · intro j _ hj
    rw [hletter j hj]
    decide

theorem not_headerIsFirstLine_longHeader :
    ¬HeaderIsFirstLine longHeaderFile 4194304 stepBytes := by
  have hlength : longHeaderFile.length = stepBytes + 2 := by
    rw [longHeaderFile, List.length_append, List.length_replicate]
    rfl
  have hoffset : firstRowOffset longHeaderFile = longHeaderFile.length := by
    rw [longHeaderFile_ends.firstRowOffset, if_neg (Nat.lt_irrefl _)]
  intro h
  have hnil : chunkBoundaries longHeaderFile 4194304 = [] := by
    rw [chunkBoundaries, hoffset, if_pos (Nat.le_refl _)]
  have hend := h.empty.1 hnil
  omega

/-- The same row after a header of one letter. -/
theorem headerIsFirstLine_shortHeader :
    HeaderIsFirstLine [0x68, newline, 0x61] 4194304 1 :=
  (headerIsFirstLine_iff
    ⟨by decide, rfl, fun j _ hj => by rw [Nat.lt_one_iff.1 hj]; decide⟩ 4194304).2
      (.inl (by decide))

end PromotionManagement
