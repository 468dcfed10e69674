import PromotionManagement.VendorColumns

namespace PromotionManagement
open Library Dialect
set_option autoImplicit true

/-- What RFC 4180 allows in a field. -/
def WellFormedField : RecordField Char → Prop
  | .bare text => '"' ∉ text ∧ ',' ∉ text ∧ '\r' ∉ text ∧ '\n' ∉ text
  | .quoted _ => True

/-- An RFC 4180 record with a line feed in a quoted field. -/
structure BrokenRecord where
  fields : List (RecordField Char)
  wellFormed : ∀ field ∈ fields, WellFormedField field
  broken : ∃ text, .quoted text ∈ fields ∧ '\n' ∈ text

namespace BrokenRecord

/-- The record up to the line feed that ends it, which may follow a carriage return. -/
def text (r : BrokenRecord) (crlf : Bool) : Text :=
  vendorDialect.recordText r.fields ++ if crlf then ['\r'] else []

/-- The lines a record is cut into at its line feeds. -/
def physicalLines (r : BrokenRecord) (crlf : Bool) : List Text := (r.text crlf).splitOn '\n'

/-- No line of the record is read as a row. -/
def Rejected (r : BrokenRecord) (crlf : Bool) : Prop :=
  ∀ line ∈ r.physicalLines crlf, ∃ reason, parseVendorRow line = .error reason

/-- The text of a record, marked with what stands inside its quotes. -/
def marked (r : BrokenRecord) (crlf : Bool) : List (Char × Bool) :=
  vendorDialect.markedRecord r.fields ++ if crlf then [('\r', false)] else []

/-- The columns of a line cut at the commas of one mark. -/
def cutAt (mark : Bool) (line : List (Char × Bool)) : List Text :=
  (line.splitOnP fun p => p.1 = ',' && p.2 = mark).map fun column =>
    Text.trim (vendorDialect.unquoted false (column.map Prod.fst))

/-- The columns that the lines expose: those of the first line at the commas outside of the
record's quotes, those of every later line at the commas inside of them. -/
def exposedColumns (r : BrokenRecord) (crlf : Bool) : List (List Text) :=
  match (r.marked crlf).splitOnP fun p => p.1 = '\n' with
  | [] => []
  | first :: rest => cutAt false first :: rest.map (cutAt true)

theorem marked_fst (r : BrokenRecord) (crlf : Bool) :
    (r.marked crlf).map Prod.fst = r.text crlf := by
  rw [marked, text, List.map_append, markedRecord_fst]
  cases crlf <;> rfl

theorem marked_marked (r : BrokenRecord) (crlf : Bool) :
    vendorDialect.Marked false (r.marked crlf) := by
  have hbare : ∀ field ∈ r.fields, ∀ t, field = .bare t → vendorDialect.quote ∉ t := by
    rintro field hf text rfl
    exact (r.wellFormed _ hf).1
  obtain ⟨hm, hp⟩ := marked_record hbare
  rw [marked, marked_append, markedRecord_fst, hp]
  refine ⟨hm, ?_⟩
  cases crlf with
  | false => trivial
  | true => exact ⟨fun _ => rfl, trivial⟩

theorem marked_newline (r : BrokenRecord) (crlf : Bool) :
    ∀ p ∈ r.marked crlf, p.1 = '\n' → p.2 = true := by
  intro p hp hc
  rcases List.mem_append.1 hp with hp | hp
  · apply inside_of_mem (d := vendorDialect) (by decide) (by decide) _ p hp hc
    rintro field hf text rfl
    exact (r.wellFormed _ hf).2.2.2
  · cases crlf with
    | false => cases hp
    | true =>
      rw [List.mem_singleton.1 hp] at hc
      exact absurd hc (by decide)

theorem trimmedColumns_of_marked (mark : Bool) (h : vendorDialect.Marked mark line) :
    trimmedColumns (line.map Prod.fst) = cutAt mark line := by
  have hcolumns := columns_of_marked mark h
  rw [Bool.xor_self] at hcolumns
  rw [trimmedColumns, hcolumns, List.map_map]
  rfl

/-- A line that begins inside a quoted field is read with inside and outside exchanged. -/
theorem physicalLines_columns (r : BrokenRecord) (crlf : Bool) :
    (r.physicalLines crlf).map trimmedColumns = r.exposedColumns crlf := by
  obtain ⟨first, rest, hsplit, hfirst, hrest⟩ :=
    marked_lines (d := vendorDialect) (by decide) (r.marked_marked crlf) (r.marked_newline crlf)
  rw [physicalLines, ← marked_fst, splitOnP_map_fst, exposedColumns, hsplit, List.map_map,
    List.map_cons, Function.comp_apply, trimmedColumns_of_marked false hfirst]
  apply congrArg (cutAt false first :: ·)
  apply List.map_congr_left
  intro line hl
  exact trimmedColumns_of_marked true (hrest line hl)

theorem parseVendorRow_rejected_iff : (∃ reason, parseVendorRow line = .error reason) ↔
    ∀ row, ¬HoldsRow (trimmedColumns line) row := by
  rw [← vendorFields_eq]
  cases h : parseVendorRow line with
  | error reason =>
    refine ⟨fun _ row hrow => ?_, fun _ => ⟨reason, rfl⟩⟩
    rw [← parseVendorRow_iff, h] at hrow
    cases hrow
  | ok row =>
    refine ⟨fun ⟨reason, hr⟩ => ?_, fun hn => absurd (parseVendorRow_iff.1 h) (hn row)⟩
    cases hr

/-- The lines of a broken record are rejected exactly when no columns that they expose hold a
row. -/
theorem rejected_iff (r : BrokenRecord) (crlf : Bool) :
    r.Rejected crlf ↔ ∀ columns ∈ r.exposedColumns crlf, ∀ row, ¬HoldsRow columns row := by
  rw [← physicalLines_columns, List.forall_mem_map]
  exact forall₂_congr fun line _ => parseVendorRow_rejected_iff

/-- A name of three lines, the second of which reads as a row. -/
def smuggledRow : BrokenRecord where
  fields := [.bare "SKU-9".toList,
    .quoted "Wool scarf\nSKU-1,Scarf,Accessories,1,5\nred".toList, .bare "Accessories".toList,
    .bare "799.90".toList, .bare "12".toList]
  wellFormed := by simp [WellFormedField]
  broken := ⟨_, List.mem_cons_of_mem _ List.mem_cons_self, by decide⟩

theorem smuggledRow_accepted : ¬smuggledRow.Rejected false := by
  intro h
  obtain ⟨reason, hr⟩ := h "SKU-1,Scarf,Accessories,1,5".toList (by decide +kernel)
  have hrow : parseVendorRow "SKU-1,Scarf,Accessories,1,5".toList =
      .ok ⟨"SKU-1".toList, "Scarf".toList, "Accessories".toList, 100, 5⟩ := by decide +kernel
  rw [hrow] at hr
  cases hr

end BrokenRecord

end PromotionManagement
