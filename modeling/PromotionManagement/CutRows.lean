import PromotionManagement.RangeRows
import PromotionManagement.VendorColumns

namespace PromotionManagement
open Library StringDecoder
set_option autoImplicit true

/-- A text that is shorter than its row is rejected, whatever the windows. -/
def RejectsCut (file : List UInt8) (from_ to_ : Nat) : Prop :=
  ∀ windowBytes, 1 ≤ windowBytes → ∀ (i : Nat) p l,
    (carried .new (byteRows file from_ to_))[i]? = some p →
    (readRangeLines file from_ to_ windowBytes)[i]? = some l →
    l.line.length16 < (rowText p.1 p.2).length16 →
    ∃ rejection, parseVendorRow l.line = .error rejection

/-- No beginning of a row that has reached the bound, short of its whole text, reads as a vendor
row. -/
def NoPrefixPasses (file : List UInt8) (from_ to_ : Nat) : Prop :=
  ∀ p ∈ carried .new (byteRows file from_ to_), ∀ kept, kept <+: p.2.bytes →
    maxRowChars ≤ Text.length16 (p.1.write kept).1 →
    (keptText p.1 p.2 kept).length16 < (rowText p.1 p.2).length16 →
    ∃ rejection, parseVendorRow (keptText p.1 p.2 kept) = .error rejection

/-- A window that ends with a beginning of a row cuts the row there. -/
theorem kept_at_window {p : StringDecoder × ByteRow} (hd : p.1.Reached)
    (hstart : from_ ≤ p.2.startOffset) (hend : p.2.startOffset + p.2.bytes.length ≤ to_)
    (hbegins : q <+: p.2.bytes) (hm : maxRowChars ≤ Text.length16 (p.1.write q).1)
    (hq : Kept (windowEnd from_ to_ (p.2.startOffset + q.length - from_)) p.1 p.2 q') : q' = q := by
  have hle := hq.least q hbegins (.inl (Nat.mod_self _)) hm
  have hlen := hbegins.length_le
  have heq : q'.length = q.length := by
    rcases hq.cut with rfl | ⟨hm', hc⟩
    · exact Nat.le_antisymm hle hlen
    · have hne : q'.length ≠ 0 := by
        intro h₀
        rw [List.eq_nil_of_length_eq_zero h₀, hd.write_nil] at hm'
        have hnil : ¬maxRowChars ≤ Text.length16 [] := by decide
        exact hnil hm'
      rcases hc with hc | hc
      · by_contra hlt
        rw [Nat.mod_eq_of_lt (by omega)] at hc
        omega
      · omega
  exact (List.prefix_of_prefix_length_le hq.isPrefix hbegins heq.le).eq_of_length heq

theorem RejectsCut.noPrefixPasses (h : from_ < to_) (hto : to_ ≤ file.length)
    (hr : RejectsCut file from_ to_) : NoPrefixPasses file from_ to_ := by
  intro p hp q hbegins hm hshort
  obtain ⟨i, hi⟩ := List.mem_iff_getElem?.1 hp
  obtain ⟨hd, hrow⟩ := carried_mem reached_new hp
  obtain ⟨h₁, h₂⟩ := byteRowsFrom_bounds hrow
  rw [length_byteRange hto, List.length_nil] at h₂
  have hne : q.length ≠ 0 := by
    intro h₀
    rw [List.eq_nil_of_length_eq_zero h₀, hd.write_nil] at hm
    have hnil : ¬maxRowChars ≤ Text.length16 [] := by decide
    exact hnil hm
  have hw : 1 ≤ p.2.startOffset + q.length - from_ := by omega
  obtain ⟨l, hl, _, q', hq', hline⟩ := forall₂_get (readRangeLines_yields h hto hw) hi
  have hkept := kept_at_window hd h₁ (by omega) hbegins hm hq'
  rw [hkept] at hline
  rw [← hline]
  exact hr _ hw i p l hi hl (hline ▸ hshort)

/-- A cut row is rejected exactly when no beginning of it passes for a row. -/
theorem rejectsCut_iff (h : from_ < to_) (hto : to_ ≤ file.length) :
    RejectsCut file from_ to_ ↔ NoPrefixPasses file from_ to_ := by
  constructor
  · exact RejectsCut.noPrefixPasses h hto
  · intro hn windowBytes hw i p l hp hl hshort
    obtain ⟨l', hl', _, q, hq, hline⟩ := forall₂_get (readRangeLines_yields h hto hw) hp
    rw [hl, Option.some.injEq] at hl'
    subst hl'
    rw [hline] at hshort ⊢
    rcases hq.cut with rfl | ⟨hm, _⟩
    · exact absurd hshort (Nat.lt_irrefl _)
    · exact hn p (List.mem_of_getElem? hp) q hq.isPrefix hm hshort

def spaces (n : Nat) : Text := List.replicate n ' '

/-- A row whose stock is followed by spaces, and then by more. -/
def paddedRow (n : Nat) : Text := "a,b,c,1,5".toList ++ spaces n

theorem splitCsvFrom_spaces (fields : List Text) (field : Text) (n : Nat) :
    splitCsvFrom fields field false (spaces n) = fields ++ [field ++ spaces n] := by
  induction n generalizing field with
  | zero =>
    rw [spaces, List.replicate_zero, splitCsvFrom, List.append_nil]
  | succ n ih =>
    have hfield : field ++ spaces (n + 1) = field ++ [' '] ++ spaces n := by
      rw [List.append_assoc]
      rfl
    rw [hfield, ← ih]
    rfl

theorem trim_spaces (t : Text) (n : Nat) : Text.trim (t ++ spaces n) = t.trim := by
  apply trim_append_trimmed
  intro c hc
  rw [List.eq_of_mem_replicate hc]
  rfl

/-- The spaces are trimmed away, and the row passes. -/
theorem parseVendorRow_padded (n : Nat) :
    parseVendorRow (paddedRow n) = .ok ⟨['a'], ['b'], ['c'], 100, 5⟩ := by
  have hsplit : splitCsvLine (paddedRow n) = [['a'], ['b'], ['c'], ['1'], ['5'] ++ spaces n] :=
    splitCsvFrom_spaces [['a'], ['b'], ['c'], ['1']] ['5'] n
  have hfields : vendorFields (paddedRow n) = [['a'], ['b'], ['c'], ['1'], ['5']] := by
    rw [vendorFields_eq, ← map_trim_splitCsvLine, hsplit]
    simp only [List.map_cons, List.map_nil, trim_spaces]
    rfl
  rw [parseVendorRow, hfields]
  decide +kernel

/-- A padded row as long as the bound and a sixth column, without its line feed. -/
def paddedFile : List UInt8 := Utf8.encode (paddedRow (maxRowChars - 9) ++ [',', 'x'])

theorem length16_spaces (n : Nat) : Text.length16 (spaces n) = n := by
  induction n with
  | zero => rfl
  | succ n ih =>
    rw [spaces, List.replicate_succ, Text.length16, List.map_cons, List.sum_cons]
    rw [spaces, Text.length16] at ih
    rw [ih, if_pos (by decide), Nat.add_comm]

theorem length16_paddedRow (n : Nat) : (paddedRow n).length16 = 9 + n := by
  have hhead : Text.length16 "a,b,c,1,5".toList = 9 := by decide +kernel
  have hsum := Text.length16_append "a,b,c,1,5".toList (spaces n)
  rw [hhead, length16_spaces] at hsum
  exact hsum

theorem newline_not_mem_encode {t : Text} (h : '\n' ∉ t) : newline ∉ Utf8.encode t := by
  intro hn
  obtain ⟨c, hc, hb⟩ := List.mem_flatMap.1 hn
  rw [eq_newline_of_mem hb] at hc
  exact h hc

/-- A text without a line feed is one row. -/
theorem byteRows_encode {t : Text} (h : '\n' ∉ t) (hne : t ≠ []) :
    byteRows (Utf8.encode t) 0 (Utf8.encode t).length = [⟨Utf8.encode t, 0, false⟩] := by
  have hrows : byteRowsFrom 0 [] (Utf8.encode t ++ []) =
      byteRowsFrom 0 ([] ++ Utf8.encode t) [] :=
    byteRowsFrom_append (newline_not_mem_encode h)
  rw [List.append_nil, List.nil_append] at hrows
  rw [byteRows, byteRange, List.take_length, List.drop_zero, hrows, byteRowsFrom]
  exact if_neg fun hnil => hne (Utf8.encode_eq_nil.1 hnil)

theorem padded_ne_nil : paddedRow (maxRowChars - 9) ++ [',', 'x'] ≠ [] :=
  List.append_ne_nil_of_right_ne_nil _ (List.cons_ne_nil _ _)

theorem length_paddedFile_pos : 0 < paddedFile.length :=
  List.length_pos_of_ne_nil fun hnil => padded_ne_nil (Utf8.encode_eq_nil.1 hnil)

/-- The row passes without its sixth column. -/
theorem prefix_passes_padded : ¬NoPrefixPasses paddedFile 0 paddedFile.length := by
  intro hno
  have hnewline : '\n' ∉ paddedRow (maxRowChars - 9) ++ [',', 'x'] := by
    intro hm
    rcases List.mem_append.1 hm with hm | hm
    · rcases List.mem_append.1 hm with hm | hm
      · exact absurd hm (by decide)
      · exact absurd (List.eq_of_mem_replicate hm) (by decide)
    · exact absurd hm (by decide)
  have hrows : byteRows paddedFile 0 paddedFile.length = [⟨paddedFile, 0, false⟩] :=
    byteRows_encode hnewline padded_ne_nil
  rw [NoPrefixPasses, hrows, carried, List.forall_mem_cons] at hno
  have hwhole : StringDecoder.new.write paddedFile =
      (paddedRow (maxRowChars - 9) ++ [',', 'x'], .new) := write_text _
  have hkept : keptText .new ⟨paddedFile, 0, false⟩ (Utf8.encode (paddedRow (maxRowChars - 9))) =
      paddedRow (maxRowChars - 9) := by
    rw [keptText, write_text, hwhole]
    exact List.append_nil _
  have htext : rowText .new ⟨paddedFile, 0, false⟩ =
      paddedRow (maxRowChars - 9) ++ [',', 'x'] := by
    rw [rowText, keptText, hwhole]
    exact List.append_nil _
  have hlen : (paddedRow (maxRowChars - 9)).length16 = maxRowChars := by
    rw [length16_paddedRow]
    decide
  obtain ⟨rejection, hr⟩ := hno.1 (Utf8.encode (paddedRow (maxRowChars - 9)))
    ⟨Utf8.encode [',', 'x'], (Utf8.encode_append _ _).symm⟩
    (by rw [write_text]; exact hlen.ge)
    (by
      rw [hkept, htext, Text.length16_append]
      exact Nat.lt_add_of_pos_right (by decide))
  rw [hkept, parseVendorRow_padded] at hr
  cases hr

theorem rejectsCut_iff_padded :
    (RejectsCut paddedFile 0 paddedFile.length ↔
      NoPrefixPasses paddedFile 0 paddedFile.length) ∧
    ¬NoPrefixPasses paddedFile 0 paddedFile.length :=
  ⟨rejectsCut_iff length_paddedFile_pos (Nat.le_refl _), prefix_passes_padded⟩

/-- A row is stored although it was cut before its sixth column. -/
theorem not_rejectsCut_padded : ¬RejectsCut paddedFile 0 paddedFile.length := fun h =>
  prefix_passes_padded (RejectsCut.noPrefixPasses length_paddedFile_pos (Nat.le_refl _) h)

end PromotionManagement
