import PromotionManagement.ChunkBoundaries
import PromotionManagement.RangeRows

namespace PromotionManagement
open Library StringDecoder
set_option autoImplicit true

/-- The rows of the chunks of a file, one chunk after the other. -/
def readChunks (file : List UInt8) (chunks : List ChunkBoundary) (windowBytes : Nat) :
    List RangeLine :=
  chunks.flatMap fun b => readRangeLines file b.startOffset b.endOffset windowBytes

/-- The decoder that some rows leave. -/
def leaves (d : StringDecoder) (rows : List ByteRow) : StringDecoder :=
  rows.foldl (fun d r => (d.write r.bytes).2) d

/-- No chunk but the last ends with bytes of an incomplete character held back. -/
def EndsWhole (file : List UInt8) (chunks : List ChunkBoundary) : Prop :=
  ∀ b ∈ chunks.dropLast, leaves .new (byteRows file b.startOffset b.endOffset) = .new

theorem carried_append (d : StringDecoder) (xs ys : List ByteRow) :
    carried d (xs ++ ys) = carried d xs ++ carried (leaves d xs) ys := by
  induction xs generalizing d with
  | nil => rfl
  | cons r xs ih =>
    rw [List.cons_append, carried, ih, carried]
    rfl

theorem byteRowsFrom_newline (s : Nat) (row before after : List UInt8) :
    byteRowsFrom s row (before ++ newline :: after) =
      byteRowsFrom s row (before ++ [newline]) ++
        byteRowsFrom (s + row.length + before.length + 1) [] after := by
  induction before generalizing s row with
  | nil =>
    rw [List.nil_append, List.nil_append, byteRowsFrom, if_pos rfl, byteRowsFrom, if_pos rfl,
      byteRowsFrom, if_pos rfl]
    rfl
  | cons b before ih =>
    rw [List.cons_append, List.cons_append, byteRowsFrom, byteRowsFrom]
    split
    · have hoffset : s + row.length + 1 + ([] : List UInt8).length + before.length + 1 =
          s + row.length + (b :: before).length + 1 := by
        rw [List.length_nil, List.length_cons]
        omega
      rw [ih, hoffset, List.cons_append]
    · have hoffset : s + (row ++ [b]).length + before.length + 1 =
          s + row.length + (b :: before).length + 1 := by
        rw [List.length_append, List.length_singleton, List.length_cons]
        omega
      rw [ih, hoffset]

/-- A range that is cut just past a line feed. -/
theorem byteRange_cut (hlt : from_ < mid) (hle : mid ≤ to_) (hn : file[mid - 1]? = some newline) :
    byteRange file from_ mid = byteRange file from_ (mid - 1) ++ [newline] ∧
      byteRange file from_ to_ =
        byteRange file from_ (mid - 1) ++ newline :: byteRange file mid to_ := by
  obtain ⟨hbound, hget⟩ := List.getElem?_eq_some_iff.1 hn
  have hone : file.take mid = file.take (mid - 1) ++ [newline] := by
    have htake := List.take_append_getElem hbound
    rw [Nat.sub_add_cancel (by omega), hget] at htake
    exact htake.symm
  have hlen : from_ ≤ (file.take (mid - 1)).length := by
    rw [List.length_take]
    omega
  have htwo : file.take to_ = file.take mid ++ byteRange file mid to_ := by
    have hsplit := List.take_append_drop mid (file.take to_)
    rw [List.take_take, Nat.min_eq_left hle] at hsplit
    exact hsplit.symm
  constructor
  · rw [byteRange, hone, List.drop_append_of_le_length hlen]
    rfl
  · rw [byteRange, htwo, hone, List.append_assoc, List.drop_append_of_le_length hlen]
    rfl

theorem byteRows_cut (hlt : from_ < mid) (hle : mid ≤ to_) (hto : to_ ≤ file.length)
    (hn : file[mid - 1]? = some newline) :
    byteRows file from_ to_ = byteRows file from_ mid ++ byteRows file mid to_ := by
  obtain ⟨h₁, h₂⟩ := byteRange_cut hlt hle hn
  have hlen : from_ + ([] : List UInt8).length + (byteRange file from_ (mid - 1)).length + 1 =
      mid := by
    rw [length_byteRange (by omega), List.length_nil]
    omega
  rw [byteRows, byteRows, byteRows, h₁, h₂, byteRowsFrom_newline, hlen]

/-- Where every row ends, and what is read of a row within the bound. -/
def ReadsWithin (p : StringDecoder × ByteRow) (l : RangeLine) : Prop :=
  l.endOffset = p.2.endOffset ∧
    ((rowText p.1 p.2).length16 ≤ maxRowChars → l = ⟨rowText p.1 p.2, p.2.endOffset⟩)

theorem readsWithin_of_yields (hd : d.Reached)
    (h : List.Forall₂ (Yields cutAt) (carried d rows) lines) :
    List.Forall₂ ReadsWithin (carried d rows) lines := by
  induction rows generalizing d lines with
  | nil =>
    cases h
    exact .nil
  | cons r rows ih =>
    cases h with
    | cons hl hrest => exact .cons ⟨hl.1, hl.whole hd⟩ (ih (hd.write _) hrest)

/-- What is read of a range, whatever the windows. -/
theorem readRangeLines_readsWithin (from_ : Nat) (hto : to_ ≤ file.length)
    (hw : 1 ≤ windowBytes) :
    List.Forall₂ ReadsWithin (carried .new (byteRows file from_ to_))
      (readRangeLines file from_ to_ windowBytes) := by
  by_cases hlt : from_ < to_
  · exact readsWithin_of_yields reached_new (readRangeLines_yields hlt hto hw)
  · have hempty := Nat.le_of_not_lt hlt
    rw [byteRows_empty hempty hto, readRangeLines_empty hempty]
    exact .nil

theorem readsWithin_endOffset (h : List.Forall₂ ReadsWithin (carried d rows) lines) :
    lines.map RangeLine.endOffset = rows.map ByteRow.endOffset := by
  induction rows generalizing d lines with
  | nil =>
    cases h
    rfl
  | cons r rows ih =>
    cases h with
    | cons hl hrest => exact List.cons_eq_cons.2 ⟨hl.1, ih hrest⟩

theorem Cut.of_cons (h : Cut file i start (b :: bs)) (hne : bs ≠ []) :
    byteRows file start file.length =
      byteRows file start b.endOffset ++ byteRows file b.endOffset file.length := by
  obtain ⟨_, _, hlt, hn, hrest⟩ := h
  exact byteRows_cut hlt hrest.le (Nat.le_refl _) (hn hne)

/-- The chunks' rows end where the rows of the body end. -/
theorem Cut.endOffset (h : Cut file i start bs) (hw : 1 ≤ windowBytes) :
    (readChunks file bs windowBytes).map RangeLine.endOffset =
      (byteRows file start file.length).map ByteRow.endOffset := by
  induction bs generalizing i start with
  | nil =>
    rw [show start = file.length from h, byteRows, byteRange, List.take_length, List.drop_length]
    rfl
  | cons b bs ih =>
    have hrest := h.2.2.2.2
    have hhead := readsWithin_endOffset
      (readRangeLines_readsWithin b.startOffset hrest.le hw)
    rw [readChunks, List.flatMap_cons, List.map_append, hhead, h.2.1]
    by_cases hbs : bs = []
    · subst hbs
      rw [show b.endOffset = file.length from hrest]
      exact List.append_nil _
    · rw [h.of_cons hbs, List.map_append, ← ih hrest]
      rfl

/-- When no character is held back between chunks, their rows are read as in one go. -/
theorem Cut.readsWithin (h : Cut file i start bs) (hends : EndsWhole file bs)
    (hw : 1 ≤ windowBytes) : List.Forall₂ ReadsWithin
      (carried .new (byteRows file start file.length)) (readChunks file bs windowBytes) := by
  induction bs generalizing i start with
  | nil =>
    rw [show start = file.length from h, byteRows, byteRange, List.take_length, List.drop_length]
    exact .nil
  | cons b bs ih =>
    have hrest := h.2.2.2.2
    have hhead := readRangeLines_readsWithin b.startOffset hrest.le hw
    rw [h.2.1] at hhead
    rw [readChunks, List.flatMap_cons, h.2.1]
    by_cases hbs : bs = []
    · subst hbs
      rw [show b.endOffset = file.length from hrest] at hhead ⊢
      rw [List.flatMap_nil, List.append_nil]
      exact hhead
    · rw [EndsWhole, List.dropLast_cons_of_ne_nil hbs, List.forall_mem_cons, h.2.1] at hends
      rw [h.of_cons hbs, carried_append, hends.1]
      exact List.rel_append hhead (ih hrest hends.2)

theorem rowsFrom_cut (offset : Nat) (row done rest : Text) :
    rowsFrom offset row (done ++ '\n' :: rest) = rowsFrom offset row (done ++ ['\n']) ++
      rowsFrom (offset + (Utf8.encode done).length + 1) [] rest := by
  induction done generalizing offset row with
  | nil =>
    rw [List.nil_append, List.nil_append, rowsFrom, if_pos rfl, rowsFrom, if_pos rfl, rowsFrom,
      if_pos rfl]
    rfl
  | cons c done ih =>
    rw [List.cons_append, List.cons_append, rowsFrom, rowsFrom]
    split
    · rename_i hc
      subst hc
      have hlen : offset + 1 + (Utf8.encode done).length + 1 =
          offset + (Utf8.encode ('\n' :: done)).length + 1 := by
        rw [Utf8.encode_cons, List.length_append, encodeChar_newline, List.length_singleton]
        omega
      rw [ih, hlen, List.cons_append]
    · have hlen : offset + (String.utf8EncodeChar c).length + (Utf8.encode done).length + 1 =
          offset + (Utf8.encode (c :: done)).length + 1 := by
        rw [Utf8.encode_cons, List.length_append, ← Nat.add_assoc]
      rw [ih, hlen]

/-- Of valid UTF-8 in rows within the bound, the chunks' rows are those between the line feeds. -/
theorem Cut.readChunks_eq (h : Cut file i start bs)
    (ht : byteRange file start file.length = Utf8.encode t)
    (hb : WithinBound (rowsFrom start [] t)) (windowBytes : Nat) :
    readChunks file bs windowBytes = rowsFrom start [] t := by
  induction bs generalizing i start t with
  | nil =>
    rw [show start = file.length from h, byteRange, List.take_length, List.drop_length] at ht
    rw [Utf8.encode_eq_nil.1 ht.symm]
    rfl
  | cons b bs ih =>
    obtain ⟨_, hstart, hlt, hn, hrest⟩ := h
    rw [readChunks, List.flatMap_cons, hstart]
    by_cases hbs : bs = []
    · subst hbs
      rw [show b.endOffset = file.length from hrest, List.flatMap_nil, List.append_nil]
      exact readRangeLines_eq ht (Nat.le_refl _) hb windowBytes
    · obtain ⟨h₁, h₂⟩ := byteRange_cut hlt hrest.le (hn hbs)
      obtain ⟨done, rest, rfl, hdone, hafter⟩ := encode_split_newline (h₂.symm.trans ht)
      have hhead : byteRange file start b.endOffset = Utf8.encode (done ++ ['\n']) := by
        rw [h₁, hdone, Utf8.encode_append]
        rfl
      have hoffset : start + (Utf8.encode done).length + 1 = b.endOffset := by
        have hend := hrest.le
        rw [← hdone, length_byteRange (by omega)]
        omega
      rw [rowsFrom_cut, hoffset] at hb
      rw [rowsFrom_cut, hoffset,
        readRangeLines_eq hhead hrest.le (fun l hl => hb l (List.mem_append_left _ hl)) windowBytes]
      congr 1
      exact ih hrest hafter fun l hl => hb l (List.mem_append_right _ hl)

/-- What chunking keeps of every file: its ranges, where rows end, and the text of each row within
the bound. -/
theorem chunking_keeps (file : List UInt8) (targetBytes : Nat) :
    (chunkBoundaries file targetBytes).map ChunkBoundary.chunkIndex =
        List.range (chunkBoundaries file targetBytes).length ∧
      Tiles (firstRowOffset file) ((chunkBoundaries file targetBytes).map ChunkBoundary.span)
        file.length ∧
      (∀ before b b' after, chunkBoundaries file targetBytes = before ++ b :: b' :: after →
        file[b.endOffset - 1]? = some newline) ∧
      ∀ windowBytes whole, 1 ≤ windowBytes → 1 ≤ whole →
        (readChunks file (chunkBoundaries file targetBytes) windowBytes).map RangeLine.endOffset =
            (readRangeLines file (firstRowOffset file) file.length whole).map
              RangeLine.endOffset ∧
          (EndsWhole file (chunkBoundaries file targetBytes) →
            ∀ (i : Nat) p,
              (carried .new (byteRows file (firstRowOffset file) file.length))[i]? = some p →
              (rowText p.1 p.2).length16 ≤ maxRowChars →
              (readChunks file (chunkBoundaries file targetBytes) windowBytes)[i]? =
                (readRangeLines file (firstRowOffset file) file.length whole)[i]?) ∧
          ∀ t, byteRange file (firstRowOffset file) file.length = Utf8.encode t →
            WithinBound (rowsFrom (firstRowOffset file) [] t) →
            readChunks file (chunkBoundaries file targetBytes) windowBytes =
                rowsFrom (firstRowOffset file) [] t ∧
              readRangeLines file (firstRowOffset file) file.length whole =
                rowsFrom (firstRowOffset file) [] t := by
  have hcut := chunkBoundaries_cut file targetBytes
  refine ⟨hcut.numbered.trans List.range_eq_range'.symm, hcut.tiles, ?_, ?_⟩
  · intro before b b' after hb
    rw [hb] at hcut
    exact hcut.internal
  · intro windowBytes whole hw hwhole
    have hbody := readRangeLines_readsWithin (firstRowOffset file) (Nat.le_refl file.length) hwhole
    refine ⟨?_, ?_, ?_⟩
    · rw [hcut.endOffset hw, readsWithin_endOffset hbody]
    · intro hends i p hp hshort
      obtain ⟨l, hl, hread⟩ := forall₂_get (hcut.readsWithin hends hw) hp
      obtain ⟨l', hl', hread'⟩ := forall₂_get hbody hp
      rw [hl, hl', hread.2 hshort, hread'.2 hshort]
    · intro t ht hb
      exact ⟨hcut.readChunks_eq ht hb windowBytes, readRangeLines_eq ht (Nat.le_refl _) hb whole⟩

theorem chunking_keeps_endOffsets :
    (readChunks [0x68, newline, 0x61, newline, 0x62]
        (chunkBoundaries [0x68, newline, 0x61, newline, 0x62] 1) 2).map RangeLine.endOffset =
      (readRangeLines [0x68, newline, 0x61, newline, 0x62]
        (firstRowOffset [0x68, newline, 0x61, newline, 0x62]) 5 3).map RangeLine.endOffset :=
  ((chunking_keeps [0x68, newline, 0x61, newline, 0x62] 1).2.2.2 2 3 (by decide) (by decide)).1

/-- The rows of the chunks are those of the body in one go. -/
def ChunkingAgrees (file : List UInt8) (targetBytes windowBytes : Nat) : Prop :=
  readChunks file (chunkBoundaries file targetBytes) windowBytes =
    readRangeLines file (firstRowOffset file) file.length windowBytes

/-- A header, a row of one letter and a row of `n` letters without its line feed. -/
def longRowFile (n : Nat) : List UInt8 := [0x68, newline, 0x61, newline] ++ List.replicate n 0x78

theorem longRowFile_length (n : Nat) : (longRowFile n).length = n + 4 := by
  rw [longRowFile, List.length_append, List.length_replicate, Nat.add_comm]
  rfl

theorem newline_not_mem_letters (n : Nat) : newline ∉ List.replicate n (0x78 : UInt8) := by
  intro h
  exact absurd (List.eq_of_mem_replicate h) (by decide)

theorem firstRowOffset_longRow (n : Nat) : firstRowOffset (longRowFile n) = 2 := by
  obtain ⟨m, hm⟩ : ∃ m, min (longRowFile n).length stepBytes = m + 2 := by
    rw [longRowFile_length, stepBytes]
    exact ⟨min (n + 4) (64 * 1024) - 2, by omega⟩
  rw [firstRowOffset, hm]
  rfl

theorem nextNewlineAfter_none {file : List UInt8} (h : newline ∉ file.drop at_) :
    nextNewlineAfter file at_ = file.length := by
  by_cases hlt : at_ < file.length
  · obtain ⟨h₁, h₂, h₃⟩ := nextNewlineAfter_spec hlt
    by_contra hne
    have hn := h₃ (Nat.lt_of_le_of_ne h₂ hne)
    apply h
    apply List.mem_iff_getElem?.2
    apply Exists.intro (nextNewlineAfter file at_ - 1 - at_)
    rw [List.getElem?_drop, ← hn]
    congr 1
    omega
  · rw [nextNewlineAfter, if_neg hlt]

theorem nextNewlineAfter_longRow (n : Nat) : nextNewlineAfter (longRowFile n) 3 = 4 := by
  obtain ⟨m, hm⟩ : ∃ m, 3 + min stepBytes ((longRowFile n).length - 3) = m + 4 := by
    rw [longRowFile_length, stepBytes]
    exact ⟨3 + min (64 * 1024) (n + 4 - 3) - 4, by omega⟩
  have hlt : 3 < (longRowFile n).length := by
    rw [longRowFile_length]
    omega
  rw [nextNewlineAfter, if_pos hlt, hm]
  rfl

theorem chunkBoundaries_longRow (h : 2 ≤ n) :
    chunkBoundaries (longRowFile n) 1 = [⟨0, 2, 4⟩, ⟨1, 4, n + 4⟩] := by
  have hlast : nextNewlineAfter (longRowFile n) 5 = n + 4 := by
    have hdrop : (longRowFile n).drop 5 = (List.replicate n 0x78).drop 1 := rfl
    rw [nextNewlineAfter_none, longRowFile_length]
    rw [hdrop]
    exact fun hn => newline_not_mem_letters n (List.mem_of_mem_drop hn)
  have hsecond : chunksFrom (longRowFile n) 1 1 4 = [⟨1, 4, n + 4⟩] := by
    rw [chunksFrom, longRowFile_length, if_neg (by omega), hlast]
    dsimp only
    rw [if_pos (Nat.le_refl _)]
  rw [chunkBoundaries, firstRowOffset_longRow, longRowFile_length, if_neg (by omega), chunksFrom,
    longRowFile_length, if_neg (by omega), nextNewlineAfter_longRow]
  dsimp only
  rw [if_neg (by omega), hsecond]

theorem encode_letters (n : Nat) :
    Utf8.encode (List.replicate n 'x') = List.replicate n 0x78 := by
  induction n with
  | zero => rfl
  | succ n ih =>
    rw [List.replicate_succ, List.replicate_succ, Utf8.encode_cons, ih]
    have hx : String.utf8EncodeChar 'x' = [0x78] := by decide
    rw [hx]
    rfl

theorem write_letters (n : Nat) :
    StringDecoder.new.write (List.replicate n 0x78) = (List.replicate n 'x', .new) := by
  rw [← encode_letters]
  exact write_text _

theorem length16_letters (n : Nat) : Text.length16 (List.replicate n 'x') = n := by
  induction n with
  | zero => rfl
  | succ n ih =>
    rw [List.replicate_succ, Text.length16, List.map_cons, List.sum_cons]
    rw [Text.length16] at ih
    rw [ih, if_pos (by decide), Nat.add_comm]

/-- How much is kept of a row of letters that comes to its bound at a cut, or nowhere. -/
theorem kept_letters {cutAt : Nat → Prop} (hk : k ≤ n)
    (hcut : k = n ∨ maxRowChars ≤ k ∧ cutAt (s + k))
    (hleast : ∀ j, j ≤ n → maxRowChars ≤ j → cutAt (s + j) → k ≤ j) :
    Kept cutAt .new ⟨List.replicate n 0x78, s, false⟩ (List.replicate k 0x78) := by
  refine ⟨⟨List.replicate (n - k) 0x78, ?_⟩, ?_, ?_⟩
  · dsimp only
    rw [List.replicate_append_replicate, Nat.add_sub_of_le hk]
  · rcases hcut with rfl | ⟨hm, hc⟩
    · exact .inl rfl
    · right
      rw [write_letters, length16_letters, List.length_replicate]
      exact ⟨hm, hc⟩
  · intro q hq hc hm
    obtain ⟨j, hj, rfl⟩ : ∃ j ≤ n, q = List.replicate j 0x78 := by
      apply Exists.intro q.length
      have hle := hq.length_le
      dsimp only at hle
      rw [List.length_replicate] at hle
      refine ⟨hle, List.eq_replicate_iff.2 ⟨rfl, ?_⟩⟩
      intro b hb
      exact List.eq_of_mem_replicate (hq.subset hb)
    rw [List.length_replicate] at hc
    rw [List.length_replicate, List.length_replicate]
    rw [write_letters, length16_letters] at hm
    exact hleast j hj hm hc

theorem keptText_letters (n k s : Nat) :
    keptText .new ⟨List.replicate n 0x78, s, false⟩ (List.replicate k 0x78) =
      List.replicate k 'x' := by
  rw [keptText, write_letters, write_letters]
  exact List.append_nil _

theorem byteRows_longRow_last (n : Nat) :
    byteRows (longRowFile (n + 1)) 4 (n + 5) = [⟨List.replicate (n + 1) 0x78, 4, false⟩] := by
  have hrange : byteRange (longRowFile (n + 1)) 4 (n + 5) = List.replicate (n + 1) 0x78 := by
    rw [byteRange, List.take_of_length_le (longRowFile_length (n + 1)).le]
    rfl
  have hrows : byteRowsFrom 4 [] (List.replicate (n + 1) 0x78 ++ []) =
      byteRowsFrom 4 ([] ++ List.replicate (n + 1) 0x78) [] :=
    byteRowsFrom_append (newline_not_mem_letters (n + 1))
  rw [List.append_nil, List.nil_append] at hrows
  rw [byteRows, hrange, hrows, byteRowsFrom]
  exact if_neg (List.cons_ne_nil _ _)

theorem byteRows_longRow_body (n : Nat) :
    byteRows (longRowFile (n + 1)) 2 (n + 5) =
      [⟨[0x61], 2, true⟩, ⟨List.replicate (n + 1) 0x78, 4, false⟩] := by
  have hcut : byteRows (longRowFile (n + 1)) 2 (n + 5) =
      byteRows (longRowFile (n + 1)) 2 4 ++ byteRows (longRowFile (n + 1)) 4 (n + 5) :=
    byteRows_cut (by decide) (by omega) (longRowFile_length (n + 1)).ge rfl
  rw [hcut, byteRows_longRow_last]
  rfl

/-- What is read of a row of letters of which so many are kept. -/
theorem yields_letters (hkept : Kept cutAt .new ⟨List.replicate n 0x78, s, false⟩
      (List.replicate k 0x78))
    (hl : Yields cutAt (.new, ⟨List.replicate n 0x78, s, false⟩) l) :
    l.line = List.replicate k 'x' := by
  obtain ⟨_, q, hq, hline⟩ := hl
  rw [hline, hq.eq hkept]
  exact keptText_letters n k s

/-- A row beyond the bound is cut at the end of a window, so where its chunk begins matters. -/
theorem not_chunkingAgrees_longRow :
    ¬ChunkingAgrees (longRowFile (maxRowChars + 1)) 1 maxRowChars := by
  have hsize : (longRowFile (maxRowChars + 1)).length = maxRowChars + 5 := longRowFile_length _
  have hpos : 1 ≤ maxRowChars := by decide
  have hrows : byteRows (longRowFile (maxRowChars + 1)) 2 4 = [⟨[0x61], 2, true⟩] := rfl
  have hhead : List.Forall₂ (Yields (windowEnd 2 4 maxRowChars)) _
      (readRangeLines (longRowFile (maxRowChars + 1)) 2 4 maxRowChars) :=
    readRangeLines_yields (by omega) (by rw [hsize]; omega) hpos
  have hbody : List.Forall₂ (Yields (windowEnd 2 (maxRowChars + 5) maxRowChars)) _ _ :=
    readRangeLines_yields (by omega) hsize.ge hpos
  have htail : List.Forall₂ (Yields (windowEnd 4 (maxRowChars + 5) maxRowChars)) _ _ :=
    readRangeLines_yields (by omega) hsize.ge hpos
  rw [hrows] at hhead
  rw [byteRows_longRow_body] at hbody
  rw [byteRows_longRow_last] at htail
  intro h
  rw [ChunkingAgrees, chunkBoundaries_longRow (by decide), firstRowOffset_longRow, hsize,
    readChunks, List.flatMap_cons, List.flatMap_cons, List.flatMap_nil, List.append_nil] at h
  dsimp only at h
  generalize readRangeLines (longRowFile (maxRowChars + 1)) 2 4 maxRowChars = head at h hhead
  generalize readRangeLines (longRowFile (maxRowChars + 1)) 2 (maxRowChars + 5) maxRowChars =
    body at h hbody
  generalize readRangeLines (longRowFile (maxRowChars + 1)) 4 (maxRowChars + 5) maxRowChars =
    tail at h htail
  obtain ⟨l₀, head, -, hnil, rfl⟩ := List.forall₂_cons_left_iff.1 hhead
  obtain ⟨l₁, tail, hl₁, -, rfl⟩ := List.forall₂_cons_left_iff.1 htail
  obtain ⟨m₀, body, -, hrest, rfl⟩ := List.forall₂_cons_left_iff.1 hbody
  obtain ⟨m₁, body, hm₁, -, rfl⟩ := List.forall₂_cons_left_iff.1 hrest
  cases hnil
  have heq : l₁ = m₁ := (List.cons.inj (List.cons.inj h).2).1
  have hcut : Kept (windowEnd 4 (maxRowChars + 5) maxRowChars) .new
      ⟨List.replicate (maxRowChars + 1) 0x78, 4, false⟩ (List.replicate maxRowChars 0x78) := by
    refine kept_letters (Nat.le_succ _) (.inr ⟨Nat.le_refl _, .inl ?_⟩) fun j _ hj _ => hj
    rw [Nat.add_sub_cancel_left, Nat.mod_self]
  have hwhole : Kept (windowEnd 2 (maxRowChars + 5) maxRowChars) .new
      ⟨List.replicate (maxRowChars + 1) 0x78, 4, false⟩
      (List.replicate (maxRowChars + 1) 0x78) := by
    refine kept_letters (Nat.le_refl _) (.inl rfl) ?_
    intro j hj hm hc
    rw [windowEnd] at hc
    rw [maxRowChars] at hj hm hc ⊢
    omega
  have hline₁ := yields_letters hcut hl₁
  have hline₂ := yields_letters hwhole hm₁
  rw [← heq, hline₁] at hline₂
  have hlen := congrArg List.length hline₂
  rw [List.length_replicate, List.length_replicate] at hlen
  omega

/-- Bytes held back at the end of one chunk are lost to the next. -/
theorem not_chunkingAgrees :
    ¬ChunkingAgrees (longRowFile (maxRowChars + 1)) 1 maxRowChars ∧
      ¬ChunkingAgrees [0x68, newline, 0xc3, newline, 0x41, newline] 1 (64 * 1024) := by
  refine ⟨not_chunkingAgrees_longRow, ?_⟩
  rw [ChunkingAgrees]
  decide +kernel

end PromotionManagement
