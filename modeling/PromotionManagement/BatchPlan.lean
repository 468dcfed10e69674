import PromotionManagement.ChunkBounds
import PromotionManagement.Library.Tiling
import PromotionManagement.VendorFileRows

namespace PromotionManagement
open Library
set_option autoImplicit true

/-- The rows of a range, each with the offset it starts at. -/
def sourceRows (from_ : Nat) : List RangeLine → List (Nat × Text)
  | [] => []
  | l :: lines => (from_, l.line) :: sourceRows l.endOffset lines

def fileRows (file : List UInt8) (from_ to_ : Nat) : List (Nat × Text) :=
  sourceRows from_ (rowsOf file from_ to_)

def rowsBetween (rows : List (Nat × Text)) (low high : Nat) : List (Nat × Text) :=
  rows.filter fun r => low ≤ r.1 && r.1 < high

/-- The row was the problem. -/
def rejects (calculator : BasePriceCalculator) (jobId : Nat) (row : Nat × Text) : Bool :=
  match price calculator row.2 jobId row.1 with
  | .ok none => true
  | _ => false

/-- A batch stores the accepted rows between its offsets and counts the rejected ones. -/
def Batch.Holds (calculator : BasePriceCalculator) (jobId : Nat) (rows : List (Nat × Text))
    (batch : Batch) : Prop :=
  batch.rows =
      acceptedRows calculator jobId (rowsBetween rows batch.seenOffset batch.nextOffset) ∧
    batch.rejected =
      (rowsBetween rows batch.seenOffset batch.nextOffset).countP (rejects calculator jobId)

/-- The batches that a loop over the lines makes when nothing interrupts it. -/
def planFrom (c : ProcessChunkCommand) (calculator : BasePriceCalculator) (jobId : Nat)
    (batch : Batch) : List RangeLine → List Batch
  | [] => if batch.isEmpty then [] else [batch]
  | l :: lines =>
    match price calculator l.line jobId batch.nextOffset with
    | .error _ => []
    | .ok priced =>
      let batch := batch.add priced l.endOffset
      if batch.rows.length + batch.rejected < c.batchSize then
        planFrom c calculator jobId batch lines
      else batch :: planFrom c calculator jobId (ProcessChunkCommand.emptyBatch l.endOffset) lines

/-- The batches of what is left of a range from an offset on. -/
def planAt (c : ProcessChunkCommand) (calculator : BasePriceCalculator) (jobId : Nat)
    (file : List UInt8) (offset to_ : Nat) : List Batch :=
  planFrom c calculator jobId (ProcessChunkCommand.emptyBatch offset) (rowsOf file offset to_)

/-- An offset of a range at which a row starts, or its end. -/
structure RowStart (file : List UInt8) (from_ to_ offset : Nat) : Prop where
  readable : Readable file offset to_
  le : offset ≤ to_
  split : ∃ before, fileRows file from_ to_ = before ++ fileRows file offset to_ ∧
    ∀ r ∈ before, r.1 < offset

theorem Readable.ascending (h : Readable file from_ to_) (hle : from_ ≤ to_) :
    Ascending from_ (rowsOf file from_ to_) to_ := by
  rw [← h.readRangeLines_eq (64 * 1024)]
  exact readRangeLines_ascending file hle _

theorem le_of_mem_sourceRows (h : Ascending from_ lines to_) (hr : r ∈ sourceRows from_ lines) :
    from_ ≤ r.1 := by
  induction lines generalizing from_ with
  | nil => cases hr
  | cons l lines ih =>
    rcases List.mem_cons.1 hr with rfl | hr
    · exact Nat.le_refl _
    · exact h.1.le.trans (ih h.2 hr)

theorem Ascending.sourceRows_inOrder (h : Ascending from_ lines to_) :
    (sourceRows from_ lines).Pairwise fun r s => r.1 < s.1 := by
  induction lines generalizing from_ with
  | nil => exact .nil
  | cons l lines ih =>
    exact List.pairwise_cons.2
      ⟨fun r hr => h.1.trans_le (le_of_mem_sourceRows h.2 hr), ih h.2⟩

/-- The rows that a reader finds stand in the order of their offsets. -/
theorem readRangeLines_inOrder (file : List UInt8) (from_ to_ : Nat) :
    (sourceRows from_ (readRangeLines file from_ to_)).Pairwise fun r s => r.1 < s.1 := by
  by_cases hle : from_ ≤ to_
  · exact (readRangeLines_ascending file hle _).sourceRows_inOrder
  · rw [readRangeLines, if_pos (Nat.le_of_not_le hle)]
    exact .nil

theorem Readable.le_of_mem (h : Readable file from_ to_) (hle : from_ ≤ to_)
    (hr : r ∈ fileRows file from_ to_) : from_ ≤ r.1 :=
  le_of_mem_sourceRows (h.ascending hle) hr

theorem Readable.fileRows_cons (h : Readable file from_ to_)
    (hr : rowsOf file from_ to_ = l :: lines) :
    fileRows file from_ to_ = (from_, l.line) :: fileRows file l.endOffset to_ := by
  rw [fileRows, hr, sourceRows, fileRows, (h.cons hr).2]

theorem Readable.rowStart (h : Readable file from_ to_) (hle : from_ ≤ to_) :
    RowStart file from_ to_ from_ :=
  ⟨h, hle, [], rfl, fun _ hr => absurd hr List.not_mem_nil⟩

/-- The rows before an offset and those from it on, as a window of the range sees them. -/
theorem rowsBetween_append_of {before after : List (Nat × Text)} (hb : ∀ r ∈ before, r.1 < mid)
    (ha : ∀ r ∈ after, mid ≤ r.1) (hlow : low ≤ mid) (hhigh : mid ≤ high) :
    rowsBetween (before ++ after) low high =
      rowsBetween (before ++ after) low mid ++ rowsBetween (before ++ after) mid high := by
  have hbefore (bound : Nat) (h : mid ≤ bound) :
      rowsBetween before low bound = before.filter fun r => low ≤ r.1 := by
    apply List.filter_congr
    intro r hr
    have hlt := hb r hr
    rw [decide_eq_true (show r.1 < bound by omega), Bool.and_true]
  have hafter (bound : Nat) (h : bound ≤ mid) :
      rowsBetween after bound high = after.filter fun r => r.1 < high := by
    apply List.filter_congr
    intro r hr
    have hle := ha r hr
    rw [decide_eq_true (show bound ≤ r.1 by omega), Bool.true_and]
  have hnone : rowsBetween after low mid = [] := by
    apply List.filter_eq_nil_iff.2
    intro r hr h
    rw [Bool.and_eq_true, decide_eq_true_eq, decide_eq_true_eq] at h
    exact absurd (ha r hr) (Nat.not_le_of_lt h.2)
  have hnone' : rowsBetween before mid high = [] := by
    apply List.filter_eq_nil_iff.2
    intro r hr h
    rw [Bool.and_eq_true, decide_eq_true_eq, decide_eq_true_eq] at h
    exact absurd (hb r hr) (Nat.not_lt_of_le h.1)
  have happend (low high : Nat) : rowsBetween (before ++ after) low high =
      rowsBetween before low high ++ rowsBetween after low high := List.filter_append _ _
  rw [happend, happend, happend, hnone, hnone', List.append_nil, List.nil_append,
    hbefore high hhigh, hbefore mid (Nat.le_refl _), hafter low hlow, hafter mid (Nat.le_refl _)]

namespace RowStart

theorem append (h : RowStart file from_ to_ mid) (hlow : low ≤ mid) (hhigh : mid ≤ high) :
    rowsBetween (fileRows file from_ to_) low high =
      rowsBetween (fileRows file from_ to_) low mid ++
        rowsBetween (fileRows file from_ to_) mid high := by
  obtain ⟨before, hs, hb⟩ := h.split
  rw [hs]
  exact rowsBetween_append_of hb (fun r hr => h.readable.le_of_mem h.le hr) hlow hhigh

/-- The end of the row at an offset is the next one, with the other rows after it. -/
theorem next (h : RowStart file from_ to_ offset) (hr : rowsOf file offset to_ = l :: lines) :
    RowStart file from_ to_ l.endOffset ∧ rowsOf file l.endOffset to_ = lines ∧
      offset < l.endOffset := by
  obtain ⟨hreadable, hlines⟩ := h.readable.cons hr
  have hasc := h.readable.ascending h.le
  rw [hr] at hasc
  obtain ⟨before, hs, hb⟩ := h.split
  refine ⟨⟨hreadable, hasc.2.le, before ++ [(offset, l.line)], ?_, ?_⟩, hlines, hasc.1⟩
  · rw [hs, h.readable.fileRows_cons hr, List.append_assoc]
    rfl
  · intro r hmem
    rcases List.mem_append.1 hmem with hmem | hmem
    · exact (hb r hmem).trans hasc.1
    · rw [List.mem_singleton.1 hmem]
      exact hasc.1

/-- The row at an offset is the only one up to its end. -/
theorem single (h : RowStart file from_ to_ offset) (hr : rowsOf file offset to_ = l :: lines) :
    rowsBetween (fileRows file from_ to_) offset l.endOffset = [(offset, l.line)] := by
  obtain ⟨before, hs, hb⟩ := h.split
  obtain ⟨hnext, _, hlt⟩ := h.next hr
  rw [hs, h.readable.fileRows_cons hr, rowsBetween, List.filter_append, List.filter_cons]
  have hbefore : (before.filter fun r => offset ≤ r.1 && r.1 < l.endOffset) = [] := by
    apply List.filter_eq_nil_iff.2
    intro r hmem hn
    rw [Bool.and_eq_true, decide_eq_true_eq, decide_eq_true_eq] at hn
    exact absurd (hb r hmem) (Nat.not_lt_of_le hn.1)
  have hafter : ((fileRows file l.endOffset to_).filter
      fun r => offset ≤ r.1 && r.1 < l.endOffset) = [] := by
    apply List.filter_eq_nil_iff.2
    intro r hmem hn
    rw [Bool.and_eq_true, decide_eq_true_eq, decide_eq_true_eq] at hn
    exact absurd (hnext.readable.le_of_mem hnext.le hmem) (Nat.not_le_of_lt hn.2)
  have hself : (decide (offset ≤ offset) && decide (offset < l.endOffset)) = true := by
    rw [decide_eq_true (Nat.le_refl _), decide_eq_true hlt]
    rfl
  rw [hbefore, hafter, if_pos hself, List.nil_append]

/-- Where no row is left, the range is at its end. -/
theorem at_end (h : RowStart file from_ to_ offset) :
    offset = to_ ∨ ∃ line, (offset, line) ∈ fileRows file from_ to_ := by
  obtain ⟨before, hs, _⟩ := h.split
  cases hr : rowsOf file offset to_ with
  | nil =>
    left
    have htext : Utf8.decode (byteRange file offset to_) = [] := by
      rcases split_newline (Utf8.decode (byteRange file offset to_)) with hn | ⟨d, t, ht, hd⟩
      · rw [rowsOf, rowsFrom_end hn, List.nil_append] at hr
        by_contra hne
        rw [if_neg hne] at hr
        cases hr
      · rw [rowsOf, ht, rowsFrom_newline hd] at hr
        cases hr
    have hbytes := h.readable.text
    rw [htext, Utf8.encode_nil, byteRange] at hbytes
    have hlen := congrArg List.length hbytes
    rw [List.length_drop, List.length_take, List.length_nil] at hlen
    have hinside := h.readable.inside
    have hle := h.le
    omega
  | cons l lines =>
    right
    apply Exists.intro l.line
    rw [hs, h.readable.fileRows_cons hr]
    exact List.mem_append_right _ List.mem_cons_self

end RowStart

theorem Batch.holds_empty (calculator : BasePriceCalculator) (jobId : Nat)
    (rows : List (Nat × Text)) (offset : Nat) :
    (ProcessChunkCommand.emptyBatch offset).Holds calculator jobId rows := by
  have hnone : rowsBetween rows offset offset = [] := by
    apply List.filter_eq_nil_iff.2
    intro r _ h
    rw [Bool.and_eq_true, decide_eq_true_eq, decide_eq_true_eq] at h
    omega
  rw [Batch.Holds, ProcessChunkCommand.emptyBatch]
  dsimp only
  rw [hnone]
  exact ⟨rfl, rfl⟩

/-- A priced row goes into the batch that has reached it. -/
theorem Batch.Holds.add {rows : List (Nat × Text)} {batch : Batch}
    (h : batch.Holds calculator jobId rows)
    (hp : price calculator line jobId batch.nextOffset = .ok priced)
    (hr : rowsBetween rows batch.seenOffset endOffset =
      rowsBetween rows batch.seenOffset batch.nextOffset ++ [(batch.nextOffset, line)]) :
    (batch.add priced endOffset).Holds calculator jobId rows := by
  rw [Batch.Holds, Batch.add_seenOffset, Batch.add_nextOffset, hr, acceptedRows,
    List.filterMap_append, List.countP_append, List.countP_singleton]
  have hrows := h.1
  have hrejected := h.2
  rw [acceptedRows] at hrows
  cases priced with
  | none =>
    have hrej : rejects calculator jobId (batch.nextOffset, line) = true := by
      rw [rejects, hp]
    rw [if_pos hrej, ← hrejected, ← hrows, List.filterMap_cons, hp]
    exact ⟨(List.append_nil _).symm, rfl⟩
  | some u =>
    have hrej : rejects calculator jobId (batch.nextOffset, line) = false := by
      rw [rejects, hp]
    rw [hrej, if_neg Bool.false_ne_true, ← hrejected, ← hrows, List.filterMap_cons, hp]
    exact ⟨rfl, rfl⟩

end PromotionManagement
