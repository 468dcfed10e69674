import PromotionManagement.Library.StringDecoder
import PromotionManagement.Text
import Mathlib.Data.List.Defs

namespace PromotionManagement
open Library
set_option autoImplicit true

/-- One row and the offset a checkpoint would store if the batch ending here committed. -/
structure RangeLine where
  line : Text
  endOffset : Nat
deriving DecidableEq

def newline : UInt8 := 0x0a

def maxRowChars : Nat := 1024 * 1024

/-- Appends while the row is within its bound. -/
def keep (pending next : Text) : Text :=
  if pending.length16 ≥ maxRowChars then pending else pending ++ next

/-- The variables of the loop over the windows. -/
structure RangeReader where
  decoder : StringDecoder
  pending : Text
  lineStart : Nat
  scanned : Nat

namespace RangeReader

def start (from_ : Nat) : RangeReader := ⟨.new, [], from_, from_⟩

/-- The scan of one window from its byte `i` on, where `segment` is `window.subarray(cut, i)`. -/
def readWindow (r : RangeReader) (segment : List UInt8) (i : Nat) :
    List UInt8 → List RangeLine × RangeReader
  | [] =>
    let (text, decoder) := r.decoder.write segment
    ([], { r with decoder := decoder, pending := keep r.pending text, scanned := r.scanned + i })
  | byte :: window =>
    if byte = newline then
      let (text, decoder) := r.decoder.write segment
      let endOffset := r.scanned + i + 1
      let (lines, r') :=
        { r with decoder := decoder, pending := [], lineStart := endOffset }.readWindow [] (i + 1)
          window
      (⟨keep r.pending text, endOffset⟩ :: lines, r')
    else r.readWindow (segment ++ [byte]) (i + 1) window

def readWindows (r : RangeReader) : List (List UInt8) → List RangeLine × RangeReader
  | [] => ([], r)
  | window :: windows =>
    let (lines, r) := r.readWindow [] 0 window
    let (more, r) := r.readWindows windows
    (lines ++ more, r)

end RangeReader

/-- The bytes of a file from one offset to another. -/
def byteRange (file : List UInt8) (from_ to_ : Nat) : List UInt8 := (file.take to_).drop from_

/-- `createReadStream(path, { start: from, end: to - 1, highWaterMark: windowBytes })` -/
def streamWindows (file : List UInt8) (from_ to_ windowBytes : Nat) : List (List UInt8) :=
  ((byteRange file from_ to_).toChunksAux (windowBytes - 1) 0).2

def readRangeLines (file : List UInt8) (from_ to_ : Nat) (windowBytes : Nat := 64 * 1024) :
    List RangeLine :=
  if from_ ≥ to_ then []
  else
    let (lines, r) :=
      (RangeReader.start from_).readWindows (streamWindows file from_ to_ windowBytes)
    let pending := r.pending ++ r.decoder.flush
    lines ++ if r.lineStart < to_ then [⟨pending, to_⟩] else []

theorem flatten_toChunksAux (n i : Nat) (l : List α) :
    (l.toChunksAux n i).1 ++ (l.toChunksAux n i).2.flatten = l := by
  induction l generalizing i with
  | nil => rfl
  | cons a l ih =>
    cases i with
    | zero => exact congrArg (a :: ·) (ih n)
    | succ i => exact congrArg (a :: ·) (ih i)

theorem flatten_streamWindows (file : List UInt8) (from_ to_ windowBytes : Nat) :
    (streamWindows file from_ to_ windowBytes).flatten = byteRange file from_ to_ := by
  have h := flatten_toChunksAux (windowBytes - 1) 0 (byteRange file from_ to_)
  rw [streamWindows]
  cases hb : byteRange file from_ to_ with
  | nil => rfl
  | cons b bytes =>
    rw [hb] at h
    exact h

theorem length_byteRange_le (file : List UInt8) (from_ to_ : Nat) :
    (byteRange file from_ to_).length ≤ to_ - from_ := by
  rw [byteRange, List.length_drop, List.length_take]
  omega

/-- Rows one after the other, from one offset up to another at most. -/
def Ascending (low : Nat) : List RangeLine → Nat → Prop
  | [], high => low ≤ high
  | l :: lines, high => low < l.endOffset ∧ Ascending l.endOffset lines high

theorem Ascending.le (h : Ascending low lines high) : low ≤ high := by
  induction lines generalizing low with
  | nil => exact h
  | cons l lines ih => exact h.1.le.trans (ih h.2)

theorem Ascending.lt_of_mem (h : Ascending low lines high) (hl : l ∈ lines) :
    low < l.endOffset := by
  induction lines generalizing low with
  | nil => cases hl
  | cons l' lines ih =>
    rcases List.mem_cons.1 hl with rfl | hl
    · exact h.1
    · exact h.1.trans (ih h.2 hl)

theorem Ascending.append (h : Ascending low lines mid) (h' : Ascending mid more high) :
    Ascending low (lines ++ more) high := by
  induction lines generalizing low with
  | nil =>
    cases more with
    | nil => exact Nat.le_trans h h'
    | cons l more => exact ⟨Nat.lt_of_le_of_lt h h'.1, h'.2⟩
  | cons l lines ih => exact ⟨h.1, ih h.2⟩

namespace RangeReader

/-- A window moves the scan to its end, and the rows it ends stand in order. -/
theorem readWindow_ascending (r : RangeReader) (segment : List UInt8) (i : Nat)
    (window : List UInt8) (h : r.lineStart ≤ r.scanned + i) :
    Ascending r.lineStart (r.readWindow segment i window).1
        (r.readWindow segment i window).2.lineStart ∧
      (r.readWindow segment i window).2.lineStart ≤ (r.readWindow segment i window).2.scanned ∧
      (r.readWindow segment i window).2.scanned = r.scanned + i + window.length := by
  induction window generalizing r segment i with
  | nil => exact ⟨Nat.le_refl _, h, rfl⟩
  | cons byte window ih =>
    rw [readWindow]
    split
    · obtain ⟨ha, hl, hs⟩ := ih { r with
        decoder := (r.decoder.write segment).2, pending := [], lineStart := r.scanned + i + 1 } []
        (i + 1) (Nat.le_refl _)
      refine ⟨⟨Nat.lt_succ_of_le h, ha⟩, hl, hs.trans ?_⟩
      rw [List.length_cons]
      dsimp only
      omega
    · obtain ⟨ha, hl, hs⟩ := ih r (segment ++ [byte]) (i + 1) (Nat.le_succ_of_le h)
      refine ⟨ha, hl, hs.trans ?_⟩
      rw [List.length_cons]
      omega

theorem readWindows_ascending (r : RangeReader) (windows : List (List UInt8))
    (h : r.lineStart ≤ r.scanned) :
    Ascending r.lineStart (r.readWindows windows).1 (r.readWindows windows).2.lineStart ∧
      (r.readWindows windows).2.lineStart ≤ (r.readWindows windows).2.scanned ∧
      (r.readWindows windows).2.scanned = r.scanned + windows.flatten.length := by
  induction windows generalizing r with
  | nil => exact ⟨Nat.le_refl _, h, rfl⟩
  | cons window windows ih =>
    obtain ⟨ha, hl, hs⟩ := r.readWindow_ascending [] 0 window h
    obtain ⟨ha', hl', hs'⟩ := ih (r.readWindow [] 0 window).2 hl
    refine ⟨ha.append ha', hl', hs'.trans ?_⟩
    rw [hs, List.flatten_cons, List.length_append]
    omega

end RangeReader

/-- The rows of a range stand in order inside it. -/
theorem readRangeLines_ascending (file : List UInt8) (h : from_ ≤ to_) (windowBytes : Nat) :
    Ascending from_ (readRangeLines file from_ to_ windowBytes) to_ := by
  rw [readRangeLines]
  split
  · exact h
  · obtain ⟨ha, hl, hs⟩ := (RangeReader.start from_).readWindows_ascending
      (streamWindows file from_ to_ windowBytes) (Nat.le_refl _)
    have hlen := length_byteRange_le file from_ to_
    rw [flatten_streamWindows] at hs
    have hstart : (RangeReader.start from_).scanned = from_ := rfl
    apply Ascending.append ha
    split
    · rename_i hlt
      exact ⟨hlt, Nat.le_refl _⟩
    · have hle : ((RangeReader.start from_).readWindows
          (streamWindows file from_ to_ windowBytes)).2.lineStart ≤ to_ := by omega
      exact hle

end PromotionManagement
