import PromotionManagement.VendorFileRows
import PromotionManagement.Library.SplitWrites
import Mathlib.Data.List.Forall2

namespace PromotionManagement
open Library
set_option autoImplicit true

/-- The bytes of one row, without the line feed that ends it. -/
structure ByteRow where
  bytes : List UInt8
  startOffset : Nat
  terminated : Bool

def ByteRow.endOffset (r : ByteRow) : Nat :=
  r.startOffset + r.bytes.length + if r.terminated then 1 else 0

/-- The rows of the bytes after an offset, where `row` has been read since. -/
def byteRowsFrom (startOffset : Nat) (row : List UInt8) : List UInt8 → List ByteRow
  | [] => if row = [] then [] else [⟨row, startOffset, false⟩]
  | b :: bytes =>
    if b = newline then
      ⟨row, startOffset, true⟩ :: byteRowsFrom (startOffset + row.length + 1) [] bytes
    else byteRowsFrom startOffset (row ++ [b]) bytes

def byteRows (file : List UInt8) (from_ to_ : Nat) : List ByteRow :=
  byteRowsFrom from_ [] (byteRange file from_ to_)

/-- Every row with the decoder that the rows before it leave. -/
def carried (d : StringDecoder) : List ByteRow → List (StringDecoder × ByteRow)
  | [] => []
  | r :: rows => (d, r) :: carried (d.write r.bytes).2 rows

/-- The text of a row of which only some bytes are kept. -/
def keptText (d : StringDecoder) (r : ByteRow) (kept : List UInt8) : Text :=
  (d.write kept).1 ++ if r.terminated then [] else (d.write r.bytes).2.flush

/-- The text of a whole row. -/
def rowText (d : StringDecoder) (r : ByteRow) : Text := keptText d r r.bytes

/-- The bytes that are kept of a row: up to the first cut at which their text has reached the
bound. -/
structure Kept (cutAt : Nat → Prop) (d : StringDecoder) (r : ByteRow) (kept : List UInt8) :
    Prop where
  isPrefix : kept <+: r.bytes
  cut : kept = r.bytes ∨
    maxRowChars ≤ Text.length16 (d.write kept).1 ∧ cutAt (r.startOffset + kept.length)
  least : ∀ q, q <+: r.bytes → cutAt (r.startOffset + q.length) →
    maxRowChars ≤ Text.length16 (d.write q).1 → kept.length ≤ q.length

/-- What a row is read as when windows end at the cuts. -/
def Yields (cutAt : Nat → Prop) (p : StringDecoder × ByteRow) (l : RangeLine) : Prop :=
  l.endOffset = p.2.endOffset ∧ ∃ kept, Kept cutAt p.1 p.2 kept ∧ l.line = keptText p.1 p.2 kept

theorem Kept.eq (h : Kept cutAt d r q) (h' : Kept cutAt d r q') : q = q' := by
  have hlen : q.length = q'.length := by
    have hle := h.isPrefix.length_le
    have hle' := h'.isPrefix.length_le
    rcases h.cut with rfl | ⟨hm, hc⟩
    · rcases h'.cut with rfl | ⟨hm', hc'⟩
      · rfl
      · exact Nat.le_antisymm (h.least q' h'.isPrefix hc' hm') hle'
    · rcases h'.cut with rfl | ⟨hm', hc'⟩
      · exact Nat.le_antisymm hle (h'.least q h.isPrefix hc hm)
      · exact Nat.le_antisymm (h.least q' h'.isPrefix hc' hm') (h'.least q h.isPrefix hc hm)
  exact (List.prefix_of_prefix_length_le h.isPrefix h'.isPrefix hlen.le).eq_of_length hlen

theorem Yields.unique (h : Yields cutAt p l) (h' : Yields cutAt p l') : l = l' := by
  obtain ⟨line, endOffset⟩ := l
  obtain ⟨line', endOffset'⟩ := l'
  obtain ⟨he, q, hq, hl⟩ := h
  obtain ⟨he', q', hq', hl'⟩ := h'
  have hkept := hq.eq hq'
  subst hkept
  dsimp only at he he' hl hl'
  rw [he, he', hl, hl']

/-- A row within the bound is read whole. -/
theorem Yields.whole {p : StringDecoder × ByteRow} (h : Yields cutAt p l) (hd : p.1.Reached)
    (hb : (rowText p.1 p.2).length16 ≤ maxRowChars) : l = ⟨rowText p.1 p.2, p.2.endOffset⟩ := by
  obtain ⟨line, endOffset⟩ := l
  obtain ⟨d, r⟩ := p
  obtain ⟨he, q, hq, hl⟩ := h
  dsimp only at he hl hb hd
  rw [he, hl]
  congr 1
  rcases hq.cut with rfl | ⟨hm, _⟩
  · rfl
  · obtain ⟨more, hmore⟩ := hq.isPrefix
    dsimp only at hm hmore
    have hwrite := hd.write_append q more
    rw [hmore] at hwrite
    rw [rowText, keptText, hwrite, List.append_assoc, Text.length16_append] at hb
    rw [rowText, keptText, keptText, hwrite, List.append_assoc]
    have hnil : ((d.write q).2.write more).1 = [] := by
      cases htext : ((d.write q).2.write more).1 with
      | nil => rfl
      | cons c t =>
        have hc := length16_ne_zero c t
        rw [htext, Text.length16_append] at hb
        omega
    rw [hnil, List.nil_append]

/-- More of a row that has come as far as a cut: up to the next cut, or to its end. -/
theorem Kept.extend (hd : d.Reached) (h : Kept cutAt d ⟨x, s, t⟩ q) (piece : List UInt8)
    (t' : Bool) (hx : x = [] ∨ cutAt (s + x.length))
    (hin : ∀ o, s + x.length < o → o < s + x.length + piece.length → ¬cutAt o) :
    ∃ q', Kept cutAt d ⟨x ++ piece, s, t'⟩ q' ∧
      keep (d.write q).1 ((d.write x).2.write piece).1 = (d.write q').1 := by
  by_cases hm : maxRowChars ≤ Text.length16 (d.write q).1
  · refine ⟨q, ⟨h.isPrefix.trans (List.prefix_append _ _), ?_, ?_⟩, if_pos hm⟩
    · right
      refine ⟨hm, ?_⟩
      rcases h.cut with rfl | ⟨_, hc⟩
      · rcases hx with rfl | hx
        · rw [hd.write_nil] at hm
          have h₀ : ¬maxRowChars ≤ Text.length16 [] := by decide
          exact absurd hm h₀
        · exact hx
      · exact hc
    · intro q' hq' hc hm'
      by_cases hle : q'.length ≤ x.length
      · exact h.least q' (List.prefix_of_prefix_length_le hq' (List.prefix_append _ _) hle) hc hm'
      · exact h.isPrefix.length_le.trans (Nat.le_of_not_le hle)
  · have hq : q = x := by
      rcases h.cut with hq | ⟨hm', _⟩
      · exact hq
      · exact absurd hm' hm
    subst hq
    refine ⟨q ++ piece, ⟨List.prefix_refl _, .inl rfl, ?_⟩, ?_⟩
    · intro q' hq' hc hm'
      have hle := hq'.length_le
      dsimp only at hc hle
      rw [List.length_append] at hle ⊢
      by_cases hlt : q'.length ≤ q.length
      · have hp := List.prefix_of_prefix_length_le hq' (List.prefix_append _ _) hlt
        have hge : q.length ≤ q'.length := h.least q' hp hc hm'
        rw [hp.eq_of_length (Nat.le_antisymm hlt hge)] at hm'
        exact absurd hm' hm
      · by_contra hlt'
        exact hin (s + q'.length) (by omega) (by omega) hc
    · rw [keep, if_neg hm, hd.write_append]

theorem byteRowsFrom_append (h : newline ∉ bytes) :
    byteRowsFrom s row (bytes ++ rest) = byteRowsFrom s (row ++ bytes) rest := by
  induction bytes generalizing row with
  | nil => rw [List.nil_append, List.append_nil]
  | cons b bytes ih =>
    rw [List.mem_cons, not_or] at h
    rw [List.cons_append, byteRowsFrom, if_neg fun hb => h.1 hb.symm, ih h.2, List.append_assoc,
      List.singleton_append]

namespace RangeReader

/-- The reader is inside a row: it has read `x` of it since the decoder was `d`, and kept `q`. -/
structure Partway (cutAt : Nat → Prop) (r : RangeReader) (d : StringDecoder)
    (x q : List UInt8) : Prop where
  reached : d.Reached
  decoder : r.decoder = (d.write x).2
  kept : Kept cutAt d ⟨x, r.lineStart, true⟩ q
  pending : r.pending = (d.write q).1

theorem kept_nil (cutAt : Nat → Prop) (d : StringDecoder) (s : Nat) (t : Bool) :
    Kept cutAt d ⟨[], s, t⟩ [] :=
  ⟨List.prefix_refl _, .inl rfl, fun _ _ _ _ => Nat.zero_le _⟩

theorem Partway.start (hd : d.Reached) (hr : r.decoder = d) (hp : r.pending = []) :
    Partway cutAt r d [] [] := by
  refine ⟨hd, ?_, kept_nil _ _ _ _, ?_⟩
  · rw [hd.write_nil]
    exact hr
  · rw [hd.write_nil]
    exact hp

/-- What a reader leaves after some bytes: it stands at a cut, inside a row `x`. -/
structure Stands (cutAt : Nat → Prop) (r : RangeReader) (d : StringDecoder) (x q : List UInt8) :
    Prop extends Partway cutAt r d x q where
  at_cut : x = [] ∨ cutAt (r.lineStart + x.length)
  position : r.lineStart + x.length = r.scanned

theorem Partway.readWindow {segment : List UInt8} (h : Partway cutAt r d x q)
    (hx : x = [] ∨ cutAt (r.lineStart + x.length))
    (hpos : r.lineStart + x.length + segment.length = r.scanned + i)
    (hstart : r.scanned ≤ r.lineStart + x.length) (hs : newline ∉ segment)
    (hin : ∀ o, r.scanned < o → o < r.scanned + i + window.length → ¬cutAt o)
    (hend : cutAt (r.scanned + i + window.length)) :
    ∃ d' x' q', Stands cutAt (r.readWindow segment i window).2 d' x' q' ∧
      (r.readWindow segment i window).2.scanned = r.scanned + i + window.length ∧
      ∀ rest tail,
        List.Forall₂ (Yields cutAt)
          (carried d' (byteRowsFrom (r.readWindow segment i window).2.lineStart x' rest)) tail →
        List.Forall₂ (Yields cutAt)
          (carried d (byteRowsFrom r.lineStart (x ++ segment) (window ++ rest)))
          ((r.readWindow segment i window).1 ++ tail) := by
  induction window generalizing r segment i d x q with
  | nil =>
    obtain ⟨q', hq', hkeep⟩ := h.kept.extend h.reached segment true hx
      (fun o h₁ h₂ => hin o (by omega) (by rw [List.length_nil]; omega))
    rw [← h.pending, ← h.decoder] at hkeep
    have hlen : r.lineStart + (x ++ segment).length = r.scanned + i := by
      rw [List.length_append]
      omega
    refine ⟨d, x ++ segment, q', ⟨⟨h.reached, ?_, hq', hkeep⟩, .inr ?_, hlen⟩, rfl, ?_⟩
    · rw [h.reached.write_append, ← h.decoder]
      rfl
    · change cutAt (r.lineStart + (x ++ segment).length)
      rw [hlen]
      exact hend
    · intro rest tail ht
      exact ht
  | cons byte window ih =>
    rw [RangeReader.readWindow]
    split
    · rename_i hbyte
      subst hbyte
      obtain ⟨q', hq', hkeep⟩ := h.kept.extend h.reached segment true hx
        (fun o h₁ h₂ => hin o (by omega) (by rw [List.length_cons]; omega))
      rw [← h.pending, ← h.decoder] at hkeep
      have hdecoder : (r.decoder.write segment).2 = (d.write (x ++ segment)).2 := by
        rw [h.reached.write_append, ← h.decoder]
      have hlen : r.lineStart + (x ++ segment).length + 1 = r.scanned + i + 1 := by
        rw [List.length_append]
        omega
      have hnext : Partway cutAt ⟨(r.decoder.write segment).2, [], r.scanned + i + 1, r.scanned⟩
          (d.write (x ++ segment)).2 [] [] :=
        .start (h.reached.write _) hdecoder rfl
      have hlength : r.scanned + (i + 1) + window.length =
          r.scanned + i + (newline :: window).length := by
        rw [List.length_cons]
        omega
      obtain ⟨d', x', q'', hstands, hscanned, hrest⟩ := ih hnext (.inl rfl) rfl
        (Nat.le_of_lt (by dsimp only; omega)) List.not_mem_nil
        (fun o h₁ h₂ => hin o h₁ (hlength ▸ h₂)) (hlength ▸ hend)
      refine ⟨d', x', q'', hstands, hscanned.trans hlength, ?_⟩
      intro rest tail ht
      rw [List.cons_append, byteRowsFrom, if_pos rfl, carried, hlen]
      apply List.Forall₂.cons
      · refine ⟨hlen.symm, q', hq', hkeep.trans ?_⟩
        exact (List.append_nil _).symm
      · exact hrest rest tail ht
    · rename_i hbyte
      have hlength : r.scanned + (i + 1) + window.length =
          r.scanned + i + (byte :: window).length := by
        rw [List.length_cons]
        omega
      have hs' : newline ∉ segment ++ [byte] := by
        rw [List.mem_append, not_or, List.mem_singleton]
        exact ⟨hs, fun hn => hbyte hn.symm⟩
      have hpos' : r.lineStart + x.length + (segment ++ [byte]).length = r.scanned + (i + 1) := by
        rw [List.length_append, List.length_singleton]
        omega
      obtain ⟨d', x', q', hstands, hscanned, hrest⟩ := ih h hx hpos' hstart hs'
        (fun o h₁ h₂ => hin o h₁ (hlength ▸ h₂)) (hlength ▸ hend)
      refine ⟨d', x', q', hstands, hscanned.trans hlength, ?_⟩
      intro rest tail ht
      rw [List.cons_append, byteRowsFrom, if_neg hbyte, List.append_assoc]
      exact hrest rest tail ht

/-- Every window ends at a cut, and no cut is inside one. -/
def CutsAt (cutAt : Nat → Prop) (offset : Nat) : List (List UInt8) → Prop
  | [] => True
  | window :: windows =>
    (∀ o, offset < o → o < offset + window.length → ¬cutAt o) ∧
      cutAt (offset + window.length) ∧ CutsAt cutAt (offset + window.length) windows

/-- What is yielded after the last window. -/
def finish (r : RangeReader) : List RangeLine :=
  if r.lineStart < r.scanned then [⟨r.pending ++ r.decoder.flush, r.scanned⟩] else []

theorem Stands.finish (h : Stands cutAt r d x q) :
    List.Forall₂ (Yields cutAt) (carried d (byteRowsFrom r.lineStart x [])) r.finish := by
  have hpos := h.position
  rw [byteRowsFrom, RangeReader.finish]
  by_cases hx : x = []
  · subst hx
    rw [List.length_nil] at hpos
    rw [if_pos rfl, if_neg (by omega)]
    exact .nil
  · have hlen : x.length ≠ 0 := fun h₀ => hx (List.eq_nil_of_length_eq_zero h₀)
    rw [if_neg hx, if_pos (by omega)]
    apply List.Forall₂.cons _ .nil
    refine ⟨hpos.symm, q, ⟨h.kept.isPrefix, h.kept.cut, h.kept.least⟩, ?_⟩
    rw [h.pending, h.decoder]
    rfl

/-- Whatever the windows, what is yielded for each row is its text up to a cut. -/
theorem Stands.readWindows (h : Stands cutAt r d x q) (hc : CutsAt cutAt r.scanned windows) :
    (r.readWindows windows).2.scanned = r.scanned + windows.flatten.length ∧
      List.Forall₂ (Yields cutAt) (carried d (byteRowsFrom r.lineStart x windows.flatten))
        ((r.readWindows windows).1 ++ (r.readWindows windows).2.finish) := by
  induction windows generalizing r d x q with
  | nil => exact ⟨rfl, h.finish⟩
  | cons window windows ih =>
    obtain ⟨hin, hend, hc⟩ := hc
    have hpos := h.position
    obtain ⟨d', x', q', hstands, hscanned, hrest⟩ := h.toPartway.readWindow (i := 0) h.at_cut
      (by rw [List.length_nil, Nat.add_zero, Nat.add_zero]; exact hpos) hpos.ge List.not_mem_nil
      hin hend
    rw [Nat.add_zero] at hscanned
    obtain ⟨hs, hrows⟩ := ih hstands (hscanned ▸ hc)
    constructor
    · refine hs.trans ?_
      rw [hscanned, List.flatten_cons, List.length_append, Nat.add_assoc]
    · have hall := hrest _ _ hrows
      rw [List.append_nil, ← List.append_assoc] at hall
      exact hall

end RangeReader

theorem toChunksAux_eq (n i : Nat) (l : List α) :
    l.toChunksAux n i = (l.take i, ((l.drop i).toChunksAux n 0).2) := by
  induction l generalizing i with
  | nil =>
    rw [List.take_nil, List.drop_nil]
    rfl
  | cons a l ih =>
    cases i with
    | zero => rfl
    | succ i =>
      rw [List.toChunksAux, ih i]
      rfl

/-- The first window, and the windows of what is after it. -/
theorem toChunksAux_cons (n : Nat) (a : α) (l : List α) :
    ((a :: l).toChunksAux n 0).2 = (a :: l.take n) :: ((l.drop n).toChunksAux n 0).2 := by
  rw [List.toChunksAux, toChunksAux_eq n n l]

/-- Where the windows of a range end. -/
def windowEnd (from_ to_ windowBytes offset : Nat) : Prop :=
  (offset - from_) % windowBytes = 0 ∨ to_ ≤ offset

theorem cutsAt_windows (n k : Nat) (bytes : List UInt8) (ho : offset = from_ + k * (n + 1))
    (hto : offset + bytes.length = to_) :
    RangeReader.CutsAt (windowEnd from_ to_ (n + 1)) offset (bytes.toChunksAux n 0).2 := by
  induction hlen : bytes.length using Nat.strongRecOn generalizing bytes k offset with
  | ind len ih =>
    cases bytes with
    | nil => exact trivial
    | cons b l =>
      rw [toChunksAux_cons]
      rw [List.length_cons] at hto hlen
      have hwindow : (b :: l.take n).length = min n l.length + 1 := by
        rw [List.length_cons, List.length_take]
      refine ⟨?_, ?_, ?_⟩
      · rw [hwindow]
        intro o h₁ h₂ hc
        rcases hc with hc | hc
        · have ho' : o - from_ = (o - offset) + (n + 1) * k := by
            rw [Nat.mul_comm (n + 1) k]
            omega
          rw [ho', Nat.add_mul_mod_self_left, Nat.mod_eq_of_lt (by omega)] at hc
          omega
        · omega
      · rw [hwindow]
        by_cases hl : n ≤ l.length
        · left
          have ho' : offset + (min n l.length + 1) - from_ = (k + 1) * (n + 1) := by
            rw [Nat.succ_mul]
            omega
          rw [ho', Nat.mul_mod_left]
        · right
          omega
      · rw [hwindow]
        by_cases hl : n ≤ l.length
        · apply ih (l.drop n).length _ (k + 1) _ _ _ rfl
          · rw [List.length_drop]
            omega
          · rw [Nat.succ_mul]
            omega
          · rw [List.length_drop]
            omega
        · rw [List.drop_eq_nil_of_le (by omega)]
          exact trivial

theorem length_byteRange (h : to_ ≤ file.length) :
    (byteRange file from_ to_).length = to_ - from_ := by
  rw [byteRange, List.length_drop, List.length_take, Nat.min_eq_left h]

theorem byteRows_empty (h : to_ ≤ from_) (hto : to_ ≤ file.length) :
    byteRows file from_ to_ = [] := by
  have hnil : byteRange file from_ to_ = [] := by
    apply List.eq_nil_of_length_eq_zero
    rw [length_byteRange hto, Nat.sub_eq_zero_of_le h]
  rw [byteRows, hnil]
  rfl

theorem readRangeLines_empty (h : to_ ≤ from_) :
    readRangeLines file from_ to_ windowBytes = [] := by
  rw [readRangeLines, if_pos h]

/-- Every row of a range of a file is read as its text up to a cut. -/
theorem readRangeLines_yields (h : from_ < to_) (hto : to_ ≤ file.length) (hw : 1 ≤ windowBytes) :
    List.Forall₂ (Yields (windowEnd from_ to_ windowBytes))
      (carried .new (byteRows file from_ to_)) (readRangeLines file from_ to_ windowBytes) := by
  have hlen : (byteRange file from_ to_).length = to_ - from_ := length_byteRange hto
  obtain ⟨n, rfl⟩ : ∃ n, windowBytes = n + 1 := ⟨windowBytes - 1, by omega⟩
  have hcuts : RangeReader.CutsAt (windowEnd from_ to_ (n + 1)) (RangeReader.start from_).scanned
      (streamWindows file from_ to_ (n + 1)) :=
    cutsAt_windows n 0 _ (by rw [Nat.zero_mul]; rfl) (by rw [hlen]; exact Nat.add_sub_of_le h.le)
  have hstands : RangeReader.Stands (windowEnd from_ to_ (n + 1)) (RangeReader.start from_) .new
      [] [] :=
    ⟨.start StringDecoder.reached_new rfl rfl, .inl rfl, rfl⟩
  obtain ⟨hscanned, hrows⟩ := hstands.readWindows hcuts
  rw [flatten_streamWindows, hlen] at hscanned
  rw [flatten_streamWindows] at hrows
  have hend : ((RangeReader.start from_).readWindows
      (streamWindows file from_ to_ (n + 1))).2.scanned = to_ :=
    hscanned.trans (Nat.add_sub_of_le h.le)
  rw [RangeReader.finish, hend] at hrows
  rw [readRangeLines, if_neg (by omega)]
  exact hrows

theorem byteRowsFrom_bounds (h : r ∈ byteRowsFrom s row bytes) :
    s ≤ r.startOffset ∧ r.startOffset + r.bytes.length ≤ s + row.length + bytes.length := by
  induction bytes generalizing s row with
  | nil =>
    rw [byteRowsFrom] at h
    split at h
    · cases h
    · rw [List.mem_singleton] at h
      rw [h]
      exact ⟨Nat.le_refl _, Nat.le_refl _⟩
  | cons b bytes ih =>
    rw [byteRowsFrom] at h
    split at h
    · rcases List.mem_cons.1 h with rfl | h
      · refine ⟨Nat.le_refl _, Nat.le_add_right _ _⟩
      · obtain ⟨h₁, h₂⟩ := ih h
        rw [List.length_nil] at h₂
        rw [List.length_cons]
        omega
    · obtain ⟨h₁, h₂⟩ := ih h
      rw [List.length_append, List.length_singleton] at h₂
      rw [List.length_cons]
      omega

/-- What comes after a row are the rows of the bytes after it. -/
theorem byteRowsFrom_split (h : byteRowsFrom s row bytes = before ++ r :: after) :
    s + row.length ≤ r.endOffset ∧ r.endOffset ≤ s + row.length + bytes.length ∧
      after = byteRowsFrom r.endOffset [] (bytes.drop (r.endOffset - (s + row.length))) := by
  induction bytes generalizing s row before with
  | nil =>
    rw [byteRowsFrom] at h
    split at h
    · exact absurd h.symm (List.append_ne_nil_of_right_ne_nil _ (List.cons_ne_nil _ _))
    · cases before with
      | nil =>
        obtain ⟨rfl, rfl⟩ := List.cons.inj h
        refine ⟨Nat.le_refl _, Nat.le_refl _, ?_⟩
        rw [List.drop_nil]
        rfl
      | cons r' before =>
        have hnil := (List.cons.inj h).2
        exact absurd hnil.symm (List.append_ne_nil_of_right_ne_nil _ (List.cons_ne_nil _ _))
  | cons b bytes ih =>
    rw [byteRowsFrom] at h
    split at h
    · cases before with
      | nil =>
        obtain ⟨rfl, rfl⟩ := List.cons.inj h
        refine ⟨Nat.le_add_right _ _, ?_, ?_⟩
        · rw [List.length_cons]
          simp only [ByteRow.endOffset, if_true]
          omega
        · have hdrop : s + row.length + 1 - (s + row.length) = 1 := by omega
          simp only [ByteRow.endOffset, if_true, hdrop, List.drop_one, List.tail_cons]
      | cons r' before =>
        obtain ⟨h₁, h₂, h₃⟩ := ih (List.cons.inj h).2
        rw [List.length_nil, Nat.add_zero] at h₁ h₂ h₃
        refine ⟨by omega, by rw [List.length_cons]; omega, ?_⟩
        have hdrop : r.endOffset - (s + row.length) = r.endOffset - (s + row.length + 1) + 1 := by
          omega
        rw [hdrop, List.drop_succ_cons]
        exact h₃
    · obtain ⟨h₁, h₂, h₃⟩ := ih h
      rw [List.length_append, List.length_singleton, ← Nat.add_assoc] at h₁ h₂ h₃
      refine ⟨by omega, by rw [List.length_cons]; omega, ?_⟩
      have hdrop : r.endOffset - (s + row.length) = r.endOffset - (s + row.length + 1) + 1 := by
        omega
      rw [hdrop, List.drop_succ_cons]
      exact h₃

theorem forall₂_get {R : α → β → Prop} {i : Nat} (h : List.Forall₂ R xs ys)
    (hx : xs[i]? = some x) : ∃ y, ys[i]? = some y ∧ R x y := by
  induction h generalizing i with
  | nil => cases hx
  | cons hy _ ih =>
    cases i with
    | zero =>
      cases hx
      exact ⟨_, rfl, hy⟩
    | succ i => exact ih hx

theorem carried_mem (hd : d.Reached) (h : p ∈ carried d rows) : p.1.Reached ∧ p.2 ∈ rows := by
  induction rows generalizing d with
  | nil => cases h
  | cons r rows ih =>
    rcases List.mem_cons.1 h with rfl | h
    · exact ⟨hd, List.mem_cons_self⟩
    · obtain ⟨hp, hr⟩ := ih (hd.write _) h
      exact ⟨hp, List.mem_cons_of_mem _ hr⟩

/-- A range that starts again after one of its rows has the rows after it. -/
theorem byteRows_split (hto : to_ ≤ file.length) (hle : from_ ≤ to_)
    (h : byteRows file from_ to_ = before ++ r :: after) :
    from_ ≤ r.endOffset ∧ r.endOffset ≤ to_ ∧ byteRows file r.endOffset to_ = after := by
  obtain ⟨h₁, h₂, h₃⟩ := byteRowsFrom_split h
  have hlen : (byteRange file from_ to_).length = to_ - from_ := length_byteRange hto
  rw [List.length_nil, Nat.add_zero] at h₁ h₂ h₃
  refine ⟨h₁, by omega, ?_⟩
  rw [h₃, byteRows, ← byteRange_drop, Nat.add_sub_of_le h₁]

end PromotionManagement
