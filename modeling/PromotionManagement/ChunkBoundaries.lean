import PromotionManagement.VendorFileRows
import PromotionManagement.Library.Tiling

namespace PromotionManagement
open Library
set_option autoImplicit true

structure ChunkBoundary where
  chunkIndex : Nat
  startOffset : Nat
  endOffset : Nat
deriving DecidableEq

def bom : List UInt8 := [0xef, 0xbb, 0xbf]

/-- The bytes read at once, 64 KiB. -/
def stepBytes : Nat := 64 * 1024

/-- `buffer.indexOf(NEWLINE, from)` -/
def indexOfNewline (buffer : List UInt8) (from_ : Nat) : Option Nat :=
  ((buffer.drop from_).findIdx? (· = newline)).map (from_ + ·)

/-- Past the BOM, if any, and past the header line. -/
def firstRowOffset (file : List UInt8) : Nat :=
  let size := file.length
  let head := byteRange file 0 (min size stepBytes)
  let afterBom := if head.take bom.length = bom then bom.length else 0
  match indexOfNewline head afterBom with
  | none => size
  | some i => i + 1

/-- The offset just past the first newline at or after `at_`. -/
def nextNewlineAfter (file : List UInt8) (at_ : Nat) : Nat :=
  if at_ < file.length then
    let buffer := byteRange file at_ (at_ + min stepBytes (file.length - at_))
    match indexOfNewline buffer 0 with
    | some found => at_ + found + 1
    | none => nextNewlineAfter file (at_ + stepBytes)
  else file.length
termination_by file.length - at_
decreasing_by
  rw [stepBytes]
  omega

theorem indexOfNewline_some (h : indexOfNewline buffer from_ = some i) :
    from_ ≤ i ∧ buffer[i]? = some newline := by
  rw [indexOfNewline, Option.map_eq_some_iff] at h
  obtain ⟨j, hj, rfl⟩ := h
  obtain ⟨hlt, hget, _⟩ := List.findIdx?_eq_some_iff_getElem.1 hj
  refine ⟨Nat.le_add_right _ _, ?_⟩
  rw [← List.getElem?_drop, List.getElem?_eq_getElem hlt]
  exact congrArg some (of_decide_eq_true hget)

theorem byteRange_get (h : (byteRange file from_ to_)[i]? = some b) :
    from_ + i < to_ ∧ file[from_ + i]? = some b := by
  rw [byteRange, List.getElem?_drop, List.getElem?_take] at h
  split at h
  · rename_i hlt
    exact ⟨hlt, h⟩
  · cases h

/-- The scan for a newline moves forward, to one or to the end of the file. -/
theorem nextNewlineAfter_spec {file : List UInt8} {at_ : Nat} (h : at_ < file.length) :
    at_ < nextNewlineAfter file at_ ∧ nextNewlineAfter file at_ ≤ file.length ∧
      (nextNewlineAfter file at_ < file.length →
        file[nextNewlineAfter file at_ - 1]? = some newline) := by
  induction at_ using nextNewlineAfter.induct file with
  | case1 at_ hlt buffer found hfound =>
    rw [nextNewlineAfter, if_pos hlt]
    dsimp only
    rw [hfound]
    obtain ⟨_, hget⟩ := indexOfNewline_some hfound
    obtain ⟨_, hnewline⟩ := byteRange_get hget
    have hbound := (List.getElem?_eq_some_iff.1 hnewline).1
    refine ⟨by dsimp only; omega, hbound, fun _ => hnewline⟩
  | case2 at_ hlt buffer hnone ih =>
    have hnext : nextNewlineAfter file at_ = nextNewlineAfter file (at_ + stepBytes) := by
      rw [nextNewlineAfter, if_pos hlt]
      dsimp only
      rw [hnone]
    rw [hnext]
    by_cases hlt' : at_ + stepBytes < file.length
    · obtain ⟨h₁, h₂, h₃⟩ := ih hlt'
      exact ⟨by omega, h₂, h₃⟩
    · rw [nextNewlineAfter, if_neg hlt']
      exact ⟨hlt, Nat.le_refl _, fun hn => absurd hn (Nat.lt_irrefl _)⟩
  | case3 at_ hge => exact absurd h hge

/-- The loop over the chunks, from the start of one on. -/
def chunksFrom (file : List UInt8) (targetBytes chunkIndex chunkStart : Nat) :
    List ChunkBoundary :=
  let target := chunkStart + targetBytes
  if target ≥ file.length then [⟨chunkIndex, chunkStart, file.length⟩]
  else
    let end_ := nextNewlineAfter file target
    ⟨chunkIndex, chunkStart, end_⟩ ::
      if end_ ≥ file.length then [] else chunksFrom file targetBytes (chunkIndex + 1) end_
termination_by file.length - chunkStart
decreasing_by
  have h := (nextNewlineAfter_spec (show chunkStart + targetBytes < file.length by omega)).1
  omega

def chunkBoundaries (file : List UInt8) (targetBytes : Nat) : List ChunkBoundary :=
  let start := firstRowOffset file
  if start ≥ file.length then [] else chunksFrom file targetBytes 0 start

def ChunkBoundary.span (b : ChunkBoundary) : Nat × Nat := (b.startOffset, b.endOffset)

/-- Ranges that cover a file from an offset on: numbered in order, none of them empty, and cut
just past line feeds. -/
def Cut (file : List UInt8) (chunkIndex start : Nat) : List ChunkBoundary → Prop
  | [] => start = file.length
  | b :: bs => b.chunkIndex = chunkIndex ∧ b.startOffset = start ∧ start < b.endOffset ∧
    (bs ≠ [] → file[b.endOffset - 1]? = some newline) ∧ Cut file (chunkIndex + 1) b.endOffset bs

theorem chunksFrom_cut (file : List UInt8) (targetBytes chunkIndex chunkStart : Nat)
    (h : chunkStart < file.length) :
    Cut file chunkIndex chunkStart (chunksFrom file targetBytes chunkIndex chunkStart) := by
  induction chunkIndex, chunkStart using chunksFrom.induct file targetBytes with
  | case1 chunkIndex chunkStart target hge =>
    rw [chunksFrom, if_pos hge]
    exact ⟨rfl, rfl, h, fun hn => absurd rfl hn, rfl⟩
  | case2 chunkIndex chunkStart target hlt end_ ih =>
    obtain ⟨h₁, h₂, h₃⟩ := nextNewlineAfter_spec (Nat.lt_of_not_le hlt)
    have hstart : chunkStart < end_ := Nat.lt_of_le_of_lt (Nat.le_add_right _ _) h₁
    rw [chunksFrom, if_neg hlt]
    dsimp only
    split
    · rename_i hge
      exact ⟨rfl, rfl, hstart, fun hn => absurd rfl hn, Nat.le_antisymm h₂ hge⟩
    · rename_i hge
      exact ⟨rfl, rfl, hstart, fun _ => h₃ (Nat.lt_of_not_le hge), ih (Nat.lt_of_not_le hge)⟩

theorem firstRowOffset_le (file : List UInt8) : firstRowOffset file ≤ file.length := by
  rw [firstRowOffset]
  split
  · exact Nat.le_refl _
  · rename_i i hi
    obtain ⟨_, hget⟩ := indexOfNewline_some hi
    obtain ⟨_, hnewline⟩ := byteRange_get hget
    have hbound := (List.getElem?_eq_some_iff.1 hnewline).1
    omega

/-- Whatever the file, its chunks cover it from its first row on. -/
theorem chunkBoundaries_cut (file : List UInt8) (targetBytes : Nat) :
    Cut file 0 (firstRowOffset file) (chunkBoundaries file targetBytes) := by
  rw [chunkBoundaries]
  split
  · rename_i hge
    exact Nat.le_antisymm (firstRowOffset_le file) hge
  · rename_i hge
    exact chunksFrom_cut file targetBytes 0 _ (Nat.lt_of_not_le hge)

namespace Cut

theorem le (h : Cut file i start bs) : start ≤ file.length := by
  induction bs generalizing i start with
  | nil => exact Nat.le_of_eq h
  | cons b bs ih =>
    obtain ⟨_, _, hlt, _, hrest⟩ := h
    exact hlt.le.trans (ih hrest)

theorem tiles (h : Cut file i start bs) : Tiles start (bs.map ChunkBoundary.span) file.length := by
  induction bs generalizing i start with
  | nil => exact h
  | cons b bs ih =>
    obtain ⟨_, hstart, hlt, _, hrest⟩ := h
    exact ⟨hstart, hlt, ih hrest⟩

theorem numbered (h : Cut file i start bs) :
    bs.map ChunkBoundary.chunkIndex = List.range' i bs.length := by
  induction bs generalizing i start with
  | nil => rfl
  | cons b bs ih =>
    obtain ⟨hi, _, _, _, hrest⟩ := h
    rw [List.map_cons, List.length_cons, List.range'_succ, hi, ih hrest]

theorem internal (h : Cut file i start (before ++ b :: b' :: after)) :
    file[b.endOffset - 1]? = some newline := by
  induction before generalizing i start with
  | nil => exact h.2.2.2.1 (List.cons_ne_nil _ _)
  | cons c before ih => exact ih h.2.2.2.2

end Cut

end PromotionManagement
