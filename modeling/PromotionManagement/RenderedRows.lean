import PromotionManagement.VendorColumns
import Mathlib.Data.List.Forall2

namespace PromotionManagement
open Library Dialect
set_option autoImplicit true

/-- A text of a row: not empty, and without blanks around it. -/
structure FieldValue where
  text : Text
  ne_nil : text ≠ []
  trimmed : text.trim = text

/-- A rendering of a value: bare among blanks, or between quotes. -/
inductive Renders (value : Text) : Text → Prop where
  | bare (before after : Text) (hbefore : ∀ c ∈ before, isTrimmed c = true)
      (hafter : ∀ c ∈ after, isTrimmed c = true) (hquote : '"' ∉ value) (hcomma : ',' ∉ value) :
      Renders value (before ++ value ++ after)
  | quoted : Renders value ('"' :: (vendorDialect.escape value ++ ['"']))

/-- A line of renderings, with or without a carriage return at its end. -/
def RendersLine (values : List Text) (line : Text) : Prop :=
  ∃ pieces ending, List.Forall₂ Renders values pieces ∧ (ending = [] ∨ ending = ['\r']) ∧
    line = [','].intercalate pieces ++ ending

theorem not_mem_trimmed {t : Text} (h : ∀ c ∈ t, isTrimmed c = true) (hc : isTrimmed c = false) :
    c ∉ t := by
  intro hm
  rw [h c hm] at hc
  cases hc

theorem Renders.isColumn (h : Renders value piece) : vendorDialect.IsColumn piece := by
  cases h with
  | bare before after hbefore hafter hquote hcomma =>
    have blanks {t : Text} (ht : ∀ c ∈ t, isTrimmed c = true) : vendorDialect.IsColumn t :=
      isColumn_bare (not_mem_trimmed ht (by decide)) (not_mem_trimmed ht (by decide))
    exact ((blanks hbefore).append (isColumn_bare hquote hcomma)).append (blanks hafter)
  | quoted => exact isColumn_quoted value

theorem Renders.trim (h : Renders value piece) :
    Text.trim (vendorDialect.unquoted false piece) = value.trim := by
  cases h with
  | bare before after hbefore hafter hquote hcomma =>
    have hnone : vendorDialect.quote ∉ before ++ value ++ after := by
      rw [List.mem_append, List.mem_append, not_or, not_or]
      exact ⟨⟨not_mem_trimmed hbefore (by decide), hquote⟩, not_mem_trimmed hafter (by decide)⟩
    rw [unquoted_of_not_mem false hnone, trim_append_trimmed _ hafter,
      trim_trimmed_append hbefore]
  | quoted =>
    have hopen := unquoted_open (d := vendorDialect) (vendorDialect.escape value ++ ['"'])
    have hescape := unquoted_escape (d := vendorDialect) (u := []) value (fun h => nomatch h)
    rw [show '"' = vendorDialect.quote from rfl] at *
    rw [hopen, hescape, unquoted, List.append_nil]

theorem columns_of_renders (h : List.Forall₂ Renders values pieces) :
    (∀ piece ∈ pieces, vendorDialect.IsColumn piece) ∧
      pieces.map (fun piece => Text.trim (vendorDialect.unquoted false piece)) =
        values.map Text.trim := by
  induction h with
  | nil => exact ⟨fun piece hp => absurd hp List.not_mem_nil, rfl⟩
  | cons hr _ ih =>
    rw [List.map_cons, List.map_cons, hr.trim, ih.2, List.forall_mem_cons]
    exact ⟨⟨hr.isColumn, ih.1⟩, rfl⟩

/-- A line of renderings is read as the values it renders. -/
theorem RendersLine.vendorFields (h : RendersLine values line) (hne : values ≠ []) :
    vendorFields line = values.map Text.trim := by
  obtain ⟨pieces, ending, hpieces, hending, rfl⟩ := h
  have hpieces_ne : pieces ≠ [] := by
    rintro rfl
    exact hne (List.forall₂_nil_right_iff.1 hpieces)
  obtain ⟨hcolumns, hmap⟩ := columns_of_renders hpieces
  have hjoin : trimmedColumns ([','].intercalate pieces) = values.map Text.trim := by
    have hj := columns_join (d := vendorDialect) hpieces_ne hcolumns
    rw [trimmedColumns, show [','] = [vendorDialect.separator] from rfl, hj, hmap]
  rw [vendorFields_eq]
  rcases hending with rfl | rfl
  · rw [List.append_nil, hjoin]
  · rw [trimmedColumns_carriageReturn, hjoin]

theorem trim_of_digits {t : Text} (h : ∀ c ∈ t, isTrimmed c = false) : t.trim = t := by
  have hself (u : Text) (hu : ∀ c ∈ u, isTrimmed c = false) : u.dropWhile isTrimmed = u := by
    cases u with
    | nil => rfl
    | cons c u =>
      rw [List.dropWhile_cons_of_neg]
      rw [hu c List.mem_cons_self]
      exact Bool.false_ne_true
  rw [Text.trim, hself t h, hself, List.reverse_reverse]
  exact fun c hc => h c (List.mem_reverse.1 hc)

theorem not_isTrimmed_of_digit (h : digit c = true) : isTrimmed c = false :=
  not_isTrimmed_of_isDigit h

theorem PriceLiteral.trim (p : PriceLiteral) : p.text.trim = p.text := by
  have hwhole := List.all_eq_true.1 p.wholeDigits.2
  have hfraction := List.all_eq_true.1 p.fractionDigits.2
  apply trim_of_digits
  intro c hc
  rw [text] at hc
  split at hc
  · exact not_isTrimmed_of_digit (hwhole c hc)
  · rw [List.mem_append, List.mem_cons] at hc
    rcases hc with hc | rfl | hc
    · exact not_isTrimmed_of_digit (hwhole c hc)
    · decide
    · exact not_isTrimmed_of_digit (hfraction c hc)

theorem StockLiteral.trim (s : StockLiteral) : s.text.trim = s.text := by
  apply trim_of_digits
  exact fun c hc => not_isTrimmed_of_digit (List.all_eq_true.1 s.digits.2 c hc)

/-- Every rendering of a row is read as that row, with its price in exact cents, unless its price
or its stock is above the largest safe integer. -/
theorem parseVendorRow_renders (sku name category : FieldValue) (price : PriceLiteral)
    (stock : StockLiteral)
    (h : RendersLine [sku.text, name.text, category.text, price.text, stock.text] line) :
    (price.cents ≤ maxSafeInteger → stock.quantity ≤ maxSafeInteger →
      parseVendorRow line =
        .ok ⟨sku.text, name.text, category.text, price.cents, stock.quantity⟩) ∧
    ((∃ row, parseVendorRow line = .ok row) ↔
      price.cents ≤ maxSafeInteger ∧ stock.quantity ≤ maxSafeInteger) := by
  have hfields := h.vendorFields (List.cons_ne_nil _ _)
  simp only [List.map_cons, List.map_nil, sku.trimmed, name.trimmed, category.trimmed, price.trim,
    stock.trim] at hfields
  have hread (hcents : price.cents ≤ maxSafeInteger) (hstock : stock.quantity ≤ maxSafeInteger) :
      parseVendorRow line =
        .ok ⟨sku.text, name.text, category.text, price.cents, stock.quantity⟩ := by
    rw [parseVendorRow_iff, hfields]
    exact ⟨price, stock, rfl, ⟨sku.ne_nil, name.ne_nil, category.ne_nil⟩, ⟨rfl, hcents⟩, rfl,
      hstock⟩
  refine ⟨hread, ?_, fun h => ⟨_, hread h.1 h.2⟩⟩
  rintro ⟨row, hrow⟩
  rw [parseVendorRow_iff, hfields] at hrow
  obtain ⟨price', stock', he, _, ⟨_, hcents⟩, _, hstock⟩ := hrow
  simp only [List.cons.injEq, and_true] at he
  obtain ⟨_, _, _, hprice, htext⟩ := he
  rw [← price'.centDigits, ← hprice, price.centDigits] at hcents
  rw [StockLiteral.quantity, ← htext] at hstock
  exact ⟨hcents, hstock⟩

def scarfSku : FieldValue := ⟨"SKU-1".toList, by decide, by decide +kernel⟩

def scarfName : FieldValue := ⟨"Scarf, \"wool\"".toList, by decide, by decide +kernel⟩

def scarfCategory : FieldValue := ⟨"Accessories".toList, by decide, by decide +kernel⟩

/-- 870 cents, with a leading zero and one fraction digit. -/
def scarfPrice : PriceLiteral := ⟨"08".toList, "7".toList, by decide, by decide⟩

def scarfStock : StockLiteral := ⟨"12".toList, by decide⟩

theorem scarfLine_renders : RendersLine
    [scarfSku.text, scarfName.text, scarfCategory.text, scarfPrice.text, scarfStock.text]
    "SKU-1,\"Scarf, \"\"wool\"\"\",Accessories\t, 08.7,12\r".toList := by
  have hnone : ∀ c ∈ ([] : Text), isTrimmed c = true := fun _ h => absurd h List.not_mem_nil
  refine ⟨["SKU-1".toList, "\"Scarf, \"\"wool\"\"\"".toList, "Accessories\t".toList,
    " 08.7".toList, "12".toList], ['\r'], ?_, .inr rfl, by decide +kernel⟩
  refine .cons (.bare [] [] hnone hnone (by decide) (by decide)) ?_
  refine .cons .quoted ?_
  refine .cons (.bare [] ['\t'] hnone (List.forall_mem_singleton.2 (by decide)) (by decide)
    (by decide)) ?_
  refine .cons (.bare [' '] [] (List.forall_mem_singleton.2 (by decide)) hnone (by decide)
    (by decide)) ?_
  exact .cons (.bare [] [] hnone hnone (by decide) (by decide)) .nil

theorem parseVendorRow_renders_scarfLine :
    parseVendorRow "SKU-1,\"Scarf, \"\"wool\"\"\",Accessories\t, 08.7,12\r".toList =
      .ok ⟨"SKU-1".toList, "Scarf, \"wool\"".toList, "Accessories".toList, 870, 12⟩ :=
  (parseVendorRow_renders scarfSku scarfName scarfCategory scarfPrice scarfStock
    scarfLine_renders).1 (by decide) (by decide)

end PromotionManagement
