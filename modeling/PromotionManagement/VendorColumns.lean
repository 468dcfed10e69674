import PromotionManagement.Library.Csv
import PromotionManagement.VendorRow
import Mathlib.Data.List.TakeWhile

namespace PromotionManagement
open Library Dialect
set_option autoImplicit true

def vendorDialect : Dialect Char := ⟨'"', ',', by decide⟩

theorem read_next {fields : List Text} {field : Text} {inside : Bool} {c : Char} {rest : Text}
    (hq : c ≠ '"') (hs : ¬(c = ',' ∧ inside = false)) :
    fields ++ (vendorDialect.readColumns inside rest).modifyHead ((field ++ [c]) ++ ·) =
      fields ++ (vendorDialect.readColumns inside (c :: rest)).modifyHead (field ++ ·) := by
  have h := readColumns_cons_of_ne (d := vendorDialect) inside hq hs rest
  rw [h, List.modifyHead_modifyHead]
  simp only [Function.comp_def, List.append_assoc, List.singleton_append]

theorem splitCsvFrom_eq (fields : List Text) (field : Text) (inside : Bool) (line : Text) :
    splitCsvFrom fields field inside line =
      fields ++ (vendorDialect.readColumns inside line).modifyHead (field ++ ·) := by
  induction fields, field, inside, line using splitCsvFrom.induct with
  | case1 fields field inside =>
    rw [splitCsvFrom, readColumns, columns]
    dsimp only
    rw [unquoted, List.map_nil, List.modifyHead_cons, List.append_nil]
  | case2 fields field rest ih =>
    have h := readColumns_double (d := vendorDialect) rest
    rw [splitCsvFrom, ih, show '"' = vendorDialect.quote from rfl, h, List.modifyHead_modifyHead]
    simp only [Function.comp_def, List.append_assoc, List.singleton_append]
  | case3 fields field rest hne ih =>
    rw [splitCsvFrom, ih]
    · have h : rest.head? ≠ some '"' := by
        intro hh
        obtain ⟨more, rfl⟩ := List.head?_eq_some_iff.1 hh
        exact hne more rfl
      exact congrArg (fields ++ List.modifyHead (field ++ ·) ·)
        (readColumns_close (d := vendorDialect) h).symm
    · exact hne
  | case4 fields field c rest hdouble hclose ih =>
    have hc : c ≠ '"' := fun hc => hclose hc
    rw [splitCsvFrom, ih]
    · exact read_next hc (fun h => Bool.false_ne_true h.2.symm)
    · exact hdouble
    · exact hclose
  | case5 fields field rest ih =>
    rw [splitCsvFrom, ih]
    exact congrArg (fields ++ List.modifyHead (field ++ ·) ·)
      (readColumns_open (d := vendorDialect) rest).symm
  | case6 fields field rest ih =>
    have h := readColumns_separator (d := vendorDialect) rest
    rw [splitCsvFrom, ih, show ',' = vendorDialect.separator from rfl, h, List.modifyHead_cons,
      List.append_assoc, List.append_nil]
    exact congrArg (fields ++ field :: ·) (congrFun List.modifyHead_id _)
  | case7 fields field c rest hquote hcomma ih =>
    rw [splitCsvFrom, ih]
    · exact read_next hquote (fun h => hcomma h.1)
    · exact hquote
    · exact hcomma

/-- The columns of a line are its texts between the commas outside of quotes. -/
theorem splitCsvLine_eq (line : Text) : splitCsvLine line =
    (vendorDialect.columns false line).map (vendorDialect.unquoted false) := by
  rw [splitCsvLine, splitCsvFrom_eq, List.nil_append, ← readColumns_false]
  exact congrFun List.modifyHead_id _

theorem trim_append_trimmed (t : Text) (h : ∀ c ∈ u, isTrimmed c = true) :
    Text.trim (t ++ u) = t.trim := by
  have hu : ∀ c ∈ u.reverse, isTrimmed c = true := fun c hc => h c (List.mem_reverse.1 hc)
  rw [Text.trim, Text.trim, List.dropWhile_append]
  split
  · rename_i he
    rw [List.isEmpty_iff] at he
    rw [he, List.dropWhile_eq_nil_iff.2 h]
  · rw [List.reverse_append, List.dropWhile_append_of_pos hu]

theorem trim_trimmed_append (h : ∀ c ∈ u, isTrimmed c = true) (t : Text) :
    Text.trim (u ++ t) = t.trim := by
  rw [Text.trim, List.dropWhile_append_of_pos h, ← Text.trim]

/-- The columns of a line as `parseVendorRow` reads them. -/
def trimmedColumns (line : Text) : List Text :=
  (vendorDialect.columns false line).map fun column =>
    Text.trim (vendorDialect.unquoted false column)

/-- A carriage return that ends a line goes with the blanks of its last column. -/
theorem trimmedColumns_carriageReturn (line : Text) :
    trimmedColumns (line ++ ['\r']) = trimmedColumns line := by
  obtain ⟨init, last, hc, hc'⟩ :=
    columns_concat (d := vendorDialect) (c := '\r') false (by decide) line
  rw [trimmedColumns, trimmedColumns, hc, hc', List.map_append, List.map_append,
    List.map_singleton, List.map_singleton, unquoted_concat false (by decide),
    trim_append_trimmed _ (List.forall_mem_singleton.2 rfl)]

theorem map_trim_splitCsvLine (line : Text) :
    (splitCsvLine line).map Text.trim = trimmedColumns line := by
  rw [splitCsvLine_eq, List.map_map]
  rfl

theorem vendorFields_eq (line : Text) : vendorFields line = trimmedColumns line := by
  rw [vendorFields, map_trim_splitCsvLine, stripCarriageReturn]
  split
  · rename_i hcr
    obtain ⟨t, rfl⟩ := List.getLast?_eq_some_iff.1 hcr
    rw [List.dropLast_concat, trimmedColumns_carriageReturn]
  · rfl

/-- A price of a whole part and a fraction of two places at most. -/
structure PriceLiteral where
  whole : Text
  fraction : Text
  wholeDigits : whole ≠ [] ∧ whole.all digit = true
  fractionDigits : fraction.length ≤ 2 ∧ fraction.all digit = true

namespace PriceLiteral

def text (p : PriceLiteral) : Text :=
  if p.fraction = [] then p.whole else p.whole ++ '.' :: p.fraction

def cents (p : PriceLiteral) : Nat :=
  Nat.ofDigitChars 10 p.whole 0 * 100 +
    Nat.ofDigitChars 10 p.fraction 0 * 10 ^ (2 - p.fraction.length)

end PriceLiteral

/-- A whole number of any length. -/
structure StockLiteral where
  text : Text
  digits : text ≠ [] ∧ text.all digit = true

def StockLiteral.quantity (s : StockLiteral) : Nat := Nat.ofDigitChars 10 s.text 0

/-- Five columns that hold a row: its texts, its price in cents and its stock, both of them exact
as a number. -/
def HoldsRow (columns : List Text) (row : VendorRow) : Prop :=
  ∃ (price : PriceLiteral) (stock : StockLiteral),
    columns = [row.sku, row.name, row.category, price.text, stock.text] ∧
    (row.sku ≠ [] ∧ row.name ≠ [] ∧ row.category ≠ []) ∧
    (row.vendorPriceCents = price.cents ∧ price.cents ≤ maxSafeInteger) ∧
    row.stockQuantity = stock.quantity ∧ stock.quantity ≤ maxSafeInteger

theorem not_mem_of_digits {t : Text} (h : t.all digit = true) (hc : digit c = false) : c ∉ t := by
  intro hm
  rw [List.all_eq_true.1 h c hm] at hc
  cases hc

namespace PriceLiteral

theorem centDigits (p : PriceLiteral) : Nat.ofDigitChars 10 (centDigits p.text) 0 = p.cents := by
  have hwhole : '.' ∉ p.whole := not_mem_of_digits p.wholeDigits.2 (by decide)
  have hfraction : '.' ∉ p.fraction := not_mem_of_digits p.fractionDigits.2 (by decide)
  have hpad : Nat.ofDigitChars 10 (p.whole ++ padFraction p.fraction) 0 = p.cents := by
    have hpow : 10 ^ (2 - p.fraction.length) * 10 ^ p.fraction.length = 100 := by
      rw [← pow_add, Nat.sub_add_cancel p.fractionDigits.1]
      rfl
    rw [padFraction, Nat.ofDigitChars_append, Nat.ofDigitChars_append,
      Nat.ofDigitChars_replicate_zero, Nat.ofDigitChars_eq_ofDigitChars_zero, Nat.mul_add,
      ← Nat.mul_assoc, hpow, cents]
    ring
  rw [← hpad, text]
  split
  · rename_i hnil
    rw [PromotionManagement.centDigits, List.splitOn_eq_singleton hwhole, hnil]
  · rw [PromotionManagement.centDigits, List.splitOn_append_cons_self_of_not_mem hwhole,
      List.splitOn_eq_singleton hfraction]

theorem shape (p : PriceLiteral) : priceShape p.text = true := by
  have hdigits := List.all_eq_true.1 p.wholeDigits.2
  rw [priceShape, text]
  split
  · rw [List.takeWhile_eq_self_iff.2 hdigits, List.dropWhile_eq_nil_iff.2 hdigits]
    exact Bool.and_eq_true_iff.2 ⟨decide_eq_true p.wholeDigits.1, rfl⟩
  · rename_i hne
    have hlength : p.fraction.length = 1 ∨ p.fraction.length = 2 := by
      have h₀ := List.length_pos_iff.2 hne
      have h₂ := p.fractionDigits.1
      omega
    have hdot : digit '.' = false := by decide
    rw [List.takeWhile_append_of_pos hdigits, List.dropWhile_append_of_pos hdigits]
    rw [List.takeWhile_cons_of_neg (by rw [hdot]; exact Bool.false_ne_true),
      List.dropWhile_cons_of_neg (by rw [hdot]; exact Bool.false_ne_true), List.append_nil]
    simp only [p.wholeDigits.1, p.fractionDigits.2, hlength, ne_eq, not_false_eq_true, decide_true,
      Bool.and_true, beq_self_eq_true, Bool.or_eq_true, beq_iff_eq, Bool.true_and]

theorem exists_text (h : priceShape t = true) : ∃ p : PriceLiteral, p.text = t := by
  rw [priceShape, Bool.and_eq_true_iff] at h
  obtain ⟨hwhole, hfraction⟩ := h
  have hdigits : (t.takeWhile digit).all digit = true :=
    List.all_eq_true.2 fun c hc => List.mem_takeWhile_imp hc
  have hsplit := List.takeWhile_append_dropWhile (p := digit) (l := t)
  split at hfraction
  · rename_i hdrop
    refine ⟨⟨t.takeWhile digit, [], ⟨of_decide_eq_true hwhole, hdigits⟩, by decide, rfl⟩, ?_⟩
    rw [hdrop, List.append_nil] at hsplit
    exact hsplit
  · rename_i c fraction hdrop
    simp only [Bool.and_eq_true, Bool.or_eq_true, beq_iff_eq] at hfraction
    obtain ⟨⟨rfl, hlength⟩, hall⟩ := hfraction
    refine ⟨⟨t.takeWhile digit, fraction, ⟨of_decide_eq_true hwhole, hdigits⟩, by omega, hall⟩, ?_⟩
    rw [text, if_neg, ← hdrop]
    · exact hsplit
    · rintro rfl
      rcases hlength with h | h <;> cases h

end PriceLiteral

theorem StockLiteral.shape (s : StockLiteral) : stockShape s.text = true :=
  Bool.and_eq_true_iff.2 ⟨decide_eq_true s.digits.1, s.digits.2⟩

theorem StockLiteral.exists_text (h : stockShape t = true) : ∃ s : StockLiteral, s.text = t := by
  rw [stockShape, Bool.and_eq_true_iff] at h
  exact ⟨⟨t, of_decide_eq_true h.1, h.2⟩, rfl⟩

theorem fieldRejection_none {sku name category price stock : Text} :
    fieldRejection sku name category price stock = none ↔
      (sku ≠ [] ∧ name ≠ [] ∧ category ≠ []) ∧
        priceShape price = true ∧ stockShape stock = true := by
  rw [fieldRejection]
  constructor
  · intro h
    split at h
    · cases h
    · split at h
      · cases h
      · split at h
        · cases h
        · split at h
          · cases h
          · split at h
            · cases h
            · rename_i hsku hname hcategory hprice hstock
              exact ⟨⟨hsku, hname, hcategory⟩, Bool.eq_true_of_not_eq_false hprice,
                Bool.eq_true_of_not_eq_false hstock⟩
  · rintro ⟨⟨hsku, hname, hcategory⟩, hprice, hstock⟩
    rw [if_neg hsku, if_neg hname, if_neg hcategory, hprice, hstock]
    rfl

theorem safe_toNumber {digits : Text} (h : Nat.ofDigitChars 10 digits 0 ≤ maxSafeInteger) :
    isSafeInteger (toNumber digits) = true ∧
      toNumber digits = Nat.ofDigitChars 10 digits 0 := by
  have hlt : Nat.ofDigitChars 10 digits 0 < 2 ^ 53 := Nat.lt_of_le_of_lt h (by decide)
  exact ⟨(isSafeInteger_toDouble _).2 hlt, toDouble_of_lt hlt⟩

/-- A line is read as the row that its columns hold, and rejected when they hold none. -/
theorem parseVendorRow_iff : parseVendorRow line = .ok row ↔ HoldsRow (vendorFields line) row := by
  constructor
  · intro h
    obtain ⟨price, stock, hfields, hnone, hcents, hcentsMax, hstock, hstockMax⟩ :=
      parseVendorRow_ok h
    obtain ⟨htexts, hprice, hshape⟩ := fieldRejection_none.1 hnone
    obtain ⟨p, rfl⟩ := PriceLiteral.exists_text hprice
    obtain ⟨s, rfl⟩ := StockLiteral.exists_text hshape
    rw [p.centDigits] at hcents
    rw [hcents] at hcentsMax
    rw [hstock] at hstockMax
    exact ⟨p, s, hfields, htexts, ⟨hcents, hcentsMax⟩, hstock, hstockMax⟩
  · rintro ⟨p, s, hfields, htexts, ⟨hcents, hcentsMax⟩, hstock, hstockMax⟩
    rw [← p.centDigits] at hcentsMax
    obtain ⟨hsafe, hvalue⟩ := safe_toNumber hcentsMax
    obtain ⟨hsafe', hvalue'⟩ := safe_toNumber hstockMax
    have hnone := fieldRejection_none.2 ⟨htexts, p.shape, s.shape⟩
    rw [parseVendorRow, hfields]
    dsimp only
    rw [hnone]
    dsimp only
    rw [hsafe, hsafe', if_neg (Ne.symm Bool.false_ne_true), if_neg (Ne.symm Bool.false_ne_true),
      hvalue, hvalue', p.centDigits, ← hcents,
      show Nat.ofDigitChars 10 s.text 0 = s.quantity from rfl, ← hstock]

end PromotionManagement
