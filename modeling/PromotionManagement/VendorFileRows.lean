import PromotionManagement.ReadRangeLines

namespace PromotionManagement
open Library Utf8
set_option autoImplicit true

/-- The rows of a text, split at its line feeds, where `row` has been read before the offset. -/
def rowsFrom (offset : Nat) (row : Text) : Text → List RangeLine
  | [] => if row = [] then [] else [⟨row, offset⟩]
  | c :: t =>
    if c = '\n' then ⟨row, offset + 1⟩ :: rowsFrom (offset + 1) [] t
    else rowsFrom (offset + (String.utf8EncodeChar c).length) (row ++ [c]) t

/-- Every row is within the bound. -/
def WithinBound (rows : List RangeLine) : Prop := ∀ l ∈ rows, l.line.length16 ≤ maxRowChars

theorem encodeChar_newline : String.utf8EncodeChar '\n' = [newline] := by decide

theorem newline_leadLength : leadLength newline = 0 := by decide

theorem newline_not_continuation : isContinuation newline = false := by decide

/-- A line feed is a character of its own. -/
theorem eq_newline_of_mem (h : newline ∈ String.utf8EncodeChar c) : c = '\n' := by
  rcases encodeChar_cases c with ⟨b, hb, hv, _⟩ | ⟨b, rest, hb, hrest, _, hlead, _, hall⟩
  · rw [hb, List.mem_singleton] at h
    subst h
    have hc := ofNat_val c
    rw [← hv] at hc
    exact hc.symm.trans (by decide)
  · rw [hb] at h
    rcases List.mem_cons.1 h with rfl | h
    · rw [newline_leadLength] at hlead
      omega
    · have hk := hall newline h
      rw [newline_not_continuation] at hk
      cases hk

theorem mem_of_newline_not_mem (h : newline ∉ encode t) : ∀ c ∈ t, c ≠ '\n' := by
  rintro c hc rfl
  apply h
  apply List.mem_flatMap.2
  exact ⟨'\n', hc, encodeChar_newline ▸ List.mem_singleton_self _⟩

/-- A cut between two bytes of a text: whole characters, then the beginning of one. -/
theorem encode_split {t : Text} (h : before ++ after = encode t) :
    ∃ done rest held missing, t = done ++ rest ∧ before = encode done ++ held ∧
      StringDecoder.Begins held missing ∧ held ++ after = encode rest := by
  induction t generalizing before with
  | nil =>
    obtain ⟨rfl, rfl⟩ := List.append_eq_nil_iff.1 h
    exact ⟨[], [], [], 0, rfl, rfl, StringDecoder.begins_nil, rfl⟩
  | cons c t ih =>
    rw [encode_cons] at h
    rcases List.append_eq_append_iff.1 h with ⟨more, hm, ha⟩ | ⟨more, hm, ht⟩
    · by_cases hb : before = []
      · subst hb
        refine ⟨[], c :: t, [], 0, rfl, rfl, StringDecoder.begins_nil, ?_⟩
        rw [encode_cons]
        exact h
      · by_cases hmore : more = []
        · subst hmore
          rw [List.append_nil] at hm
          refine ⟨[c], t, [], 0, rfl, ?_, StringDecoder.begins_nil, ha⟩
          rw [← hm, encode_cons, encode_nil, List.append_nil, List.append_nil]
        · refine ⟨[], c :: t, before, more.length, rfl, rfl, ?_, ?_⟩
          · exact .inr ⟨c, more, hm, hb, hmore, rfl⟩
          · rw [encode_cons]
            exact h
    · obtain ⟨done, rest, held, missing, rfl, rfl, hb, hr⟩ := ih ht.symm
      refine ⟨c :: done, rest, held, missing, rfl, ?_, hb, hr⟩
      rw [hm, encode_cons, List.append_assoc]

theorem encodeChar_ne_nil (c : Char) : String.utf8EncodeChar c ≠ [] := by
  rcases encodeChar_cases c with ⟨b, hb, _⟩ | ⟨b, rest, hb, _⟩
  · rw [hb]
    exact List.cons_ne_nil _ _
  · rw [hb]
    exact List.cons_ne_nil _ _

/-- A line feed does not follow a lead byte before the character has all its bytes. -/
theorem newline_not_in_character {more after tail : List UInt8} (hm : missing ≠ 0)
    (hlead : leadLength b = more.length + 1 + missing) :
    b :: more ++ newline :: after ≠ String.utf8EncodeChar c ++ tail := by
  intro h
  rcases encodeChar_cases c with ⟨a, ha, hv, hc⟩ | ⟨a, rest, ha, _, hlen, hl, _, hall⟩
  · rw [ha, List.cons_append, List.cons_append, List.cons.injEq] at h
    obtain ⟨rfl, _⟩ := h
    have hzero : leadLength b = 0 := by
      rw [leadLength, if_neg (by omega), if_neg (by omega), if_neg (by omega)]
    omega
  · rw [ha, List.cons_append, List.cons_append, List.cons.injEq] at h
    obtain ⟨rfl, h⟩ := h
    have hlt : more.length < rest.length := by omega
    have hmem : newline ∈ rest := by
      have hg := congrArg (fun l => l[more.length]?) h
      rw [List.getElem?_append_right (Nat.le_refl _), Nat.sub_self, List.getElem?_cons_zero,
        List.getElem?_append_left hlt] at hg
      exact List.mem_of_getElem? hg.symm
    have hk := hall newline hmem
    rw [newline_not_continuation] at hk
    cases hk

/-- The bytes before a line feed are those of whole characters. -/
theorem encode_split_newline {t : Text} (h : before ++ newline :: after = encode t) :
    ∃ done rest, t = done ++ '\n' :: rest ∧ before = encode done ∧ after = encode rest := by
  obtain ⟨done, rest, held, missing, rfl, rfl, hb, hr⟩ := encode_split h
  cases rest with
  | nil => exact absurd hr (List.append_ne_nil_of_right_ne_nil _ (List.cons_ne_nil _ _))
  | cons c rest =>
    rw [encode_cons] at hr
    have hheld : held = [] := by
      by_contra hne
      obtain ⟨b, more, rfl, hm, hlead, _⟩ := StringDecoder.begins_cases hb hne
      exact newline_not_in_character hm hlead hr
    subst hheld
    have hc : newline ∈ String.utf8EncodeChar c := by
      obtain ⟨b, more, hmore⟩ := List.exists_cons_of_ne_nil (encodeChar_ne_nil c)
      rw [hmore, List.nil_append, List.cons_append, List.cons.injEq] at hr
      rw [hmore, hr.1]
      exact List.mem_cons_self
    have hnl := eq_newline_of_mem hc
    subst hnl
    rw [encodeChar_newline] at hr
    apply Exists.intro done
    apply Exists.intro rest
    exact ⟨rfl, List.append_nil _, (List.cons.inj hr).2⟩

theorem length16_ne_zero (c : Char) (t : Text) : Text.length16 (c :: t) ≠ 0 := by
  rw [Text.length16, List.map_cons, List.sum_cons]
  split
  · omega
  · omega

/-- Nothing is dropped from a row that stays within the bound. -/
theorem keep_eq (h : (pending ++ next).length16 ≤ maxRowChars) :
    keep pending next = pending ++ next := by
  rw [Text.length16_append] at h
  rw [keep]
  split
  · cases next with
    | nil => exact (List.append_nil _).symm
    | cons c t =>
      have hc := length16_ne_zero c t
      omega
  · rfl

theorem rowsFrom_append (h : ∀ c ∈ done, c ≠ '\n') :
    rowsFrom offset row (done ++ rest) =
      rowsFrom (offset + (encode done).length) (row ++ done) rest := by
  induction done generalizing offset row with
  | nil => rw [List.nil_append, List.append_nil, encode_nil, List.length_nil, Nat.add_zero]
  | cons c done ih =>
    rw [List.forall_mem_cons] at h
    rw [List.cons_append, rowsFrom, if_neg h.1, ih h.2, encode_cons, List.length_append,
      Nat.add_assoc, List.append_assoc, List.singleton_append]

theorem rowsFrom_newline (h : ∀ c ∈ done, c ≠ '\n') :
    rowsFrom offset row (done ++ '\n' :: rest) =
      ⟨row ++ done, offset + (encode done).length + 1⟩ ::
        rowsFrom (offset + (encode done).length + 1) [] rest := by
  rw [rowsFrom_append h, rowsFrom, if_pos rfl]

/-- A text ends its first row at a line feed or at its own end. -/
theorem split_newline (t : Text) : (∀ c ∈ t, c ≠ '\n') ∨
    ∃ done rest, t = done ++ '\n' :: rest ∧ ∀ c ∈ done, c ≠ '\n' := by
  induction t with
  | nil => exact .inl fun c hc => absurd hc List.not_mem_nil
  | cons c t ih =>
    by_cases hc : c = '\n'
    · subst hc
      exact .inr ⟨[], t, rfl, fun c hc => absurd hc List.not_mem_nil⟩
    · rcases ih with h | ⟨done, rest, rfl, h⟩
      · exact .inl (List.forall_mem_cons.2 ⟨hc, h⟩)
      · exact .inr ⟨c :: done, rest, rfl, List.forall_mem_cons.2 ⟨hc, h⟩⟩

theorem rowsFrom_end (h : ∀ c ∈ t, c ≠ '\n') :
    rowsFrom offset row t =
      if row ++ t = [] then [] else [⟨row ++ t, offset + (encode t).length⟩] := by
  have ht : rowsFrom offset row (t ++ []) =
      rowsFrom (offset + (encode t).length) (row ++ t) [] := rowsFrom_append h
  rw [List.append_nil] at ht
  rw [ht, rowsFrom]

/-- What has been read of a row is within the bound. -/
theorem WithinBound.row_le (h : WithinBound (rowsFrom offset row t)) :
    row.length16 ≤ maxRowChars := by
  rcases split_newline t with ht | ⟨done, rest, rfl, hd⟩
  · rw [rowsFrom_end ht] at h
    split at h
    · rename_i hn
      rw [(List.append_eq_nil_iff.1 hn).1]
      exact Nat.zero_le _
    · have hl := h _ (List.mem_singleton_self _)
      rw [Text.length16_append] at hl
      omega
  · rw [rowsFrom_newline hd] at h
    have hl := h _ List.mem_cons_self
    rw [Text.length16_append] at hl
    omega

/-- The text of a row, and the text of the rows after it. -/
theorem rowsFrom_cons (h : rowsFrom offset [] t = l :: rows) :
    ∃ done rest, t = done ++ rest ∧ l.endOffset = offset + (encode done).length ∧
      rows = rowsFrom l.endOffset [] rest := by
  rcases split_newline t with ht | ⟨done, rest, rfl, hd⟩
  · rw [rowsFrom_end ht] at h
    split at h
    · cases h
    · cases h
      exact ⟨t, [], (List.append_nil t).symm, rfl, rfl⟩
  · rw [rowsFrom_newline hd] at h
    cases h
    apply Exists.intro (done ++ ['\n'])
    apply Exists.intro rest
    have hlen : (encode (done ++ ['\n'])).length = (encode done).length + 1 := by
      rw [encode_append, List.length_append]
      rfl
    rw [hlen, List.append_assoc, List.singleton_append]
    exact ⟨rfl, rfl, rfl⟩

namespace RangeReader

/-- The offset of the first byte that is not yet part of the row's text. -/
def decoded (r : RangeReader) : Nat := r.lineStart + (encode r.pending).length

/-- The reader is inside a text: `t` is what comes after the row's text, of which it has scanned
`segment` and the bytes its decoder holds back, up to an offset. -/
structure Inside (r : RangeReader) (segment : List UInt8) (offset : Nat) (ahead : List UInt8)
    (t : Text) : Prop where
  begins : StringDecoder.Begins r.decoder.buffered r.decoder.missing
  bytes : r.decoder.buffered ++ segment ++ ahead = encode t
  offset : r.decoded + (r.decoder.buffered ++ segment).length = offset
  bound : WithinBound (rowsFrom r.decoded r.pending t)

/-- A segment that ends with the window is decoded up to its last whole character. -/
theorem Inside.write_rest {segment : List UInt8} (h : Inside r segment (r.scanned + i) ahead t)
    (hs : newline ∉ r.decoder.buffered ++ segment) :
    ∃ u, Inside (r.readWindow segment i []).2 [] (r.readWindow segment i []).2.scanned ahead u ∧
      newline ∉ (r.readWindow segment i []).2.decoder.buffered ∧
      rowsFrom r.decoded r.pending t =
        rowsFrom (r.readWindow segment i []).2.decoded (r.readWindow segment i []).2.pending u := by
  obtain ⟨done, rest, held, missing, rfl, hb, hheld, hr⟩ := encode_split h.bytes
  have hw := StringDecoder.write_encode h.begins hb hheld
  rw [hb] at hs
  rw [List.mem_append, not_or] at hs
  have hrows : rowsFrom r.decoded r.pending (done ++ rest) =
      rowsFrom (r.decoded + (encode done).length) (r.pending ++ done) rest :=
    rowsFrom_append (mem_of_newline_not_mem hs.1)
  have hbound := h.bound
  rw [hrows] at hbound
  have hkeep := keep_eq hbound.row_le
  have hdecoded : r.lineStart + (encode (r.pending ++ done)).length =
      r.decoded + (encode done).length := by
    rw [encode_append, List.length_append, decoded, Nat.add_assoc]
  have hoffset := h.offset
  rw [hb, List.length_append, ← Nat.add_assoc] at hoffset
  have hread : r.readWindow segment i [] =
      ([], ⟨⟨held, missing⟩, r.pending ++ done, r.lineStart, r.scanned + i⟩) := by
    rw [RangeReader.readWindow, hw]
    dsimp only
    rw [hkeep]
  rw [hread]
  apply Exists.intro rest
  refine ⟨⟨hheld, ?_, ?_, ?_⟩, hs.2, ?_⟩
  · rw [List.append_nil]
    exact hr
  · rw [List.append_nil]
    exact (congrArg (· + held.length) hdecoded).trans hoffset
  · rw [decoded, hdecoded]
    exact hbound
  · exact hrows.trans (congrArg (rowsFrom · (r.pending ++ done) rest) hdecoded.symm)

/-- A window's rows are those of the text, and it leaves the reader inside what is after them. -/
theorem Inside.readWindow {segment : List UInt8}
    (h : Inside r segment (r.scanned + i) (window ++ ahead) t)
    (hs : newline ∉ r.decoder.buffered ++ segment) :
    ∃ u, Inside (r.readWindow segment i window).2 []
        (r.readWindow segment i window).2.scanned ahead u ∧
      newline ∉ (r.readWindow segment i window).2.decoder.buffered ∧
      rowsFrom r.decoded r.pending t = (r.readWindow segment i window).1 ++
        rowsFrom (r.readWindow segment i window).2.decoded
          (r.readWindow segment i window).2.pending u := by
  induction window generalizing r segment i t with
  | nil => exact h.write_rest hs
  | cons byte window ih =>
    by_cases hbyte : byte = newline
    · subst hbyte
      have hbytes := h.bytes
      rw [List.cons_append] at hbytes
      obtain ⟨done, rest, rfl, hb, ha⟩ := encode_split_newline hbytes
      have hb' : r.decoder.buffered ++ segment = encode done ++ [] :=
        hb.trans (List.append_nil _).symm
      have hw := StringDecoder.write_encode h.begins hb' StringDecoder.begins_nil
      rw [hb] at hs
      have hrows : rowsFrom r.decoded r.pending (done ++ '\n' :: rest) =
          ⟨r.pending ++ done, r.decoded + (encode done).length + 1⟩ ::
            rowsFrom (r.decoded + (encode done).length + 1) [] rest :=
        rowsFrom_newline (mem_of_newline_not_mem hs)
      have hend : r.decoded + (encode done).length + 1 = r.scanned + i + 1 := by
        rw [← h.offset, hb]
      have hbound := h.bound
      rw [hrows] at hbound
      rw [hend] at hrows hbound
      have hkeep : keep r.pending done = r.pending ++ done := by
        apply keep_eq
        exact hbound _ List.mem_cons_self
      have hread : r.readWindow segment i (newline :: window) =
          (⟨r.pending ++ done, r.scanned + i + 1⟩ ::
              (RangeReader.readWindow ⟨⟨[], 0⟩, [], r.scanned + i + 1, r.scanned⟩ [] (i + 1)
                window).1,
            (RangeReader.readWindow ⟨⟨[], 0⟩, [], r.scanned + i + 1, r.scanned⟩ [] (i + 1)
              window).2) := by
        rw [RangeReader.readWindow, if_pos rfl, hw]
        dsimp only
        rw [hkeep]
      rw [hread, hrows]
      have hnext : Inside ⟨⟨[], 0⟩, [], r.scanned + i + 1, r.scanned⟩ []
          (r.scanned + (i + 1)) (window ++ ahead) rest := by
        refine ⟨StringDecoder.begins_nil, ha, rfl, ?_⟩
        intro l hl
        exact hbound l (List.mem_cons_of_mem _ hl)
      obtain ⟨u, hu, hn, hr⟩ := ih hnext List.not_mem_nil
      exact ⟨u, hu, hn, congrArg (List.cons _) hr⟩
    · rw [RangeReader.readWindow, if_neg hbyte]
      apply ih
      · refine ⟨h.begins, ?_, ?_, h.bound⟩
        · rw [← h.bytes]
          simp only [List.append_assoc, List.cons_append, List.nil_append]
        · have ho := h.offset
          simp only [List.length_append, List.length_cons, List.length_nil] at ho ⊢
          omega
      · rw [← List.append_assoc, List.mem_append, not_or, List.mem_singleton]
        exact ⟨hs, fun hn => hbyte hn.symm⟩

theorem Inside.readWindows (h : Inside r [] r.scanned (windows.flatten ++ ahead) t)
    (hs : newline ∉ r.decoder.buffered) :
    ∃ u, Inside (r.readWindows windows).2 [] (r.readWindows windows).2.scanned ahead u ∧
      rowsFrom r.decoded r.pending t = (r.readWindows windows).1 ++
        rowsFrom (r.readWindows windows).2.decoded (r.readWindows windows).2.pending u := by
  induction windows generalizing r t with
  | nil => exact ⟨t, h, rfl⟩
  | cons window windows ih =>
    rw [List.flatten_cons, List.append_assoc] at h
    have hs' : newline ∉ r.decoder.buffered ++ [] := by
      rw [List.append_nil]
      exact hs
    obtain ⟨u, hu, hn, hr⟩ := h.readWindow (i := 0) hs'
    obtain ⟨v, hv, hr'⟩ := ih hu hn
    apply Exists.intro v
    refine ⟨hv, hr.trans ?_⟩
    rw [hr']
    exact (List.append_assoc _ _ _).symm

end RangeReader

/-- Bytes that begin a character are not the whole of a text. -/
theorem begins_encode {missing : Nat} (h : StringDecoder.Begins (encode t) missing) : t = [] := by
  have h₁ := StringDecoder.incomplete_encode t StringDecoder.begins_nil
  have h₂ := StringDecoder.incomplete_encode [] h
  rw [List.append_nil] at h₁
  rw [encode_nil, List.nil_append, h₁] at h₂
  have hlen := congrArg Prod.fst h₂
  exact encode_eq_nil.1 (List.eq_nil_of_length_eq_zero hlen.symm)

/-- Whatever the windows, the rows of a range are those of its text. -/
theorem readRangeLines_eq (h : byteRange file from_ to_ = encode t) (hto : to_ ≤ file.length)
    (hb : WithinBound (rowsFrom from_ [] t)) (windowBytes : Nat) :
    readRangeLines file from_ to_ windowBytes = rowsFrom from_ [] t := by
  rw [readRangeLines]
  split
  · rename_i hle
    rw [byteRange, List.drop_eq_nil_of_le] at h
    · rw [encode_eq_nil.1 h.symm]
      rfl
    · rw [List.length_take]
      omega
  · rename_i hlt
    have hstart : RangeReader.Inside (.start from_) [] (RangeReader.start from_).scanned
        ((streamWindows file from_ to_ windowBytes).flatten ++ []) t := by
      refine ⟨StringDecoder.begins_nil, ?_, rfl, hb⟩
      rw [flatten_streamWindows]
      exact (List.append_nil _).trans h
    obtain ⟨u, hu, hr⟩ := hstart.readWindows List.not_mem_nil
    have hscanned := ((RangeReader.start from_).readWindows_ascending
      (streamWindows file from_ to_ windowBytes) (Nat.le_refl _)).2.2
    rw [flatten_streamWindows] at hscanned
    generalize (RangeReader.start from_).readWindows
      (streamWindows file from_ to_ windowBytes) = out at hu hr hscanned
    obtain ⟨lines, r⟩ := out
    dsimp only at hu hr hscanned ⊢
    have hbuffered := hu.bytes
    rw [List.append_nil, List.append_nil] at hbuffered
    have hbegins := hu.begins
    rw [hbuffered] at hbegins
    have hnil := begins_encode hbegins
    subst hnil
    have hflush : r.decoder.flush = [] := by
      rw [StringDecoder.flush, hbuffered]
      exact decode_encode []
    have hend : r.decoded = to_ := by
      have ho := hu.offset
      rw [hbuffered] at ho
      have hlen : (byteRange file from_ to_).length = to_ - from_ := by
        rw [byteRange, List.length_drop, List.length_take]
        omega
      have hs : (RangeReader.start from_).scanned = from_ := rfl
      rw [encode_nil, List.nil_append, List.length_nil] at ho
      omega
    have hrest : rowsFrom r.decoded r.pending [] =
        if r.lineStart < to_ then [⟨r.pending, to_⟩] else [] := by
      rw [rowsFrom, hend]
      rw [RangeReader.decoded] at hend
      by_cases hp : r.pending = []
      · rw [hp, encode_nil, List.length_nil] at hend
        rw [if_pos hp, if_neg (by omega)]
      · have hne : (encode r.pending).length ≠ 0 := by
          intro hz
          exact hp (encode_eq_nil.1 (List.eq_nil_of_length_eq_zero hz))
        rw [if_neg hp, if_pos (by omega)]
    rw [hflush, List.append_nil, ← hrest]
    exact hr.symm

/-- The rows of a range of a file, by its text. -/
def rowsOf (file : List UInt8) (from_ to_ : Nat) : List RangeLine :=
  rowsFrom from_ [] (decode (byteRange file from_ to_))

/-- The offset is an end of the file, or just past a line feed. -/
def RowBoundary (file : List UInt8) (offset : Nat) : Prop :=
  offset = 0 ∨ offset = file.length ∨ 0 < offset ∧ file[offset - 1]? = some newline

/-- A range of whole characters, in rows within the bound. -/
structure Readable (file : List UInt8) (from_ to_ : Nat) : Prop where
  text : encode (decode (byteRange file from_ to_)) = byteRange file from_ to_
  inside : to_ ≤ file.length
  bound : WithinBound (rowsOf file from_ to_)

theorem Readable.readRangeLines_eq (h : Readable file from_ to_) (windowBytes : Nat) :
    readRangeLines file from_ to_ windowBytes = rowsOf file from_ to_ :=
  PromotionManagement.readRangeLines_eq h.text.symm h.inside h.bound windowBytes

theorem byteRange_drop (file : List UInt8) (from_ to_ n : Nat) :
    byteRange file (from_ + n) to_ = (byteRange file from_ to_).drop n := by
  rw [byteRange, byteRange, List.drop_drop]

/-- After its first row, a range has the rows of what is left of it. -/
theorem Readable.cons (h : Readable file from_ to_) (hr : rowsOf file from_ to_ = l :: rows) :
    Readable file l.endOffset to_ ∧ rowsOf file l.endOffset to_ = rows := by
  obtain ⟨done, rest, ht, ho, hrows⟩ := rowsFrom_cons hr
  have htext := h.text
  rw [ht, encode_append] at htext
  have hrest : byteRange file l.endOffset to_ = encode rest := by
    rw [ho, byteRange_drop, ← htext, List.drop_left]
  have hafter : rowsOf file l.endOffset to_ = rows := by
    rw [rowsOf, hrest, decode_encode, hrows]
  refine ⟨⟨?_, h.inside, ?_⟩, hafter⟩
  · rw [hrest, decode_encode]
  · intro k hk
    apply h.bound
    rw [hafter] at hk
    rw [hr]
    exact List.mem_cons_of_mem _ hk

/-- A row boundary cuts a text between two characters. -/
theorem RowBoundary.cut (h : RowBoundary file offset) (hf : file = encode t) :
    ∃ before after, t = before ++ after ∧ file.take offset = encode before ∧
      file.drop offset = encode after := by
  rcases h with rfl | rfl | ⟨hpos, hn⟩
  · exact ⟨[], t, rfl, rfl, hf⟩
  · refine ⟨t, [], (List.append_nil t).symm, ?_, ?_⟩
    · rw [List.take_length, hf]
    · rw [List.drop_length, encode_nil]
  · obtain ⟨hlt, hget⟩ := List.getElem?_eq_some_iff.1 hn
    have hsplit : file = file.take (offset - 1) ++ newline :: file.drop offset := by
      have hdrop := List.drop_eq_getElem_cons hlt
      rw [hget, Nat.sub_add_cancel hpos] at hdrop
      rw [← hdrop, List.take_append_drop]
    obtain ⟨done, rest, rfl, hb, ha⟩ := encode_split_newline (hsplit.symm.trans hf)
    refine ⟨done ++ ['\n'], rest, ?_, ?_, ha⟩
    · rw [List.append_assoc, List.singleton_append]
    · have htake := List.take_append_getElem hlt
      rw [Nat.sub_add_cancel hpos, hget, hb] at htake
      rw [encode_append, ← htake]
      rfl

theorem RowBoundary.take (h : RowBoundary file offset) (hle : offset ≤ to_) :
    RowBoundary (file.take to_) offset := by
  rcases h with rfl | rfl | ⟨hpos, hn⟩
  · exact .inl rfl
  · right
    left
    rw [List.length_take, Nat.min_eq_right hle]
  · right
    right
    refine ⟨hpos, ?_⟩
    rw [List.getElem?_take_of_lt (by omega)]
    exact hn

/-- Between two row boundaries, a file of valid UTF-8 is readable. -/
theorem readable_of_rowBoundary (hf : file = encode t) (hfrom : RowBoundary file from_)
    (hto : RowBoundary file to_) (hle : from_ ≤ to_) (hlen : to_ ≤ file.length)
    (hb : WithinBound (rowsOf file from_ to_)) : Readable file from_ to_ := by
  obtain ⟨before, after, _, htake, _⟩ := hto.cut hf
  obtain ⟨start, middle, _, _, hdrop⟩ := (hfrom.take hle).cut htake
  refine ⟨?_, hlen, hb⟩
  rw [byteRange, hdrop, decode_encode]

end PromotionManagement
