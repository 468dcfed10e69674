import PromotionManagement.Library.Keyset
import PromotionManagement.ProductPricer
import PromotionManagement.ProductRepository

namespace PromotionManagement
open Library
set_option autoImplicit true

/-- The `products` table, by its primary key. -/
abbrev Catalogue := Table ProductRow.id

namespace ProductSourceRepository

def page : Nat := 1000

def candidate (p : PromotionRow) : PromotionCandidate := ⟨p.id, p.name, p.discountType, p.value⟩

def sourceRow (row : ProductRow) (product category : Option PromotionRow) : SourceRow where
  id := row.id
  sku := row.sku
  name := row.values.name
  category := row.values.category
  basePriceCents := row.values.basePriceCents
  stockQuantity := row.values.stockQuantity
  pricingRulesVersion := row.values.pricingRulesVersion
  productPromotion := product.map candidate
  categoryPromotion := category.map candidate

/-- The right side of a left join: the rows that match, or one of nulls. -/
def matching (l : List α) : List (Option α) := if l = [] then [none] else l.map some

def productPromotions (active : List PromotionRow) (row : ProductRow) : List PromotionRow :=
  active.filter fun p => p.productId = some row.id

def categoryPromotions (active : List PromotionRow) (row : ProductRow) : List PromotionRow :=
  active.filter fun p => p.category = some row.values.category

/-- The rows the two left joins make of one product. -/
def joined (active : List PromotionRow) (row : ProductRow) : List SourceRow :=
  (matching (productPromotions active row)).flatMap fun pp =>
    (matching (categoryPromotions active row)).map fun cp => sourceRow row pp cp

/-- The rows of `active_promotions`. -/
def activePromotions (promotions : List PromotionRow) (now : Int) : List PromotionRow :=
  promotions.filter fun p => p.activeAt now

def read (products : Catalogue) (active : List PromotionRow) (ids : List Nat) : List SourceRow :=
  (products.rows.filter fun row => row.id ∈ ids).flatMap (joined active)

def idsInCategory (products : Catalogue) (category : Text) (afterId : Nat) : List Nat :=
  (((products.rows.filter fun row => row.values.category = category ∧ row.id > afterId).map
    ProductRow.id).mergeSort).take page

def idsAfter (products : Catalogue) (afterId : Nat) : List Nat :=
  (((products.rows.filter fun row => row.id > afterId).map ProductRow.id).mergeSort).take page

def presentIds (products : Catalogue) (ids : List Nat) : List Nat :=
  (products.rows.filter fun row => row.id ∈ ids).map ProductRow.id

/-- The rows that `categoryCounts` counts for one category. -/
def inCategory (products : Catalogue) (category : Text) : List ProductRow :=
  products.rows.filter fun row => row.values.category = category

/-- A product with its active promotions, the last of each were there several. -/
def current (active : List PromotionRow) (row : ProductRow) : SourceRow :=
  sourceRow row (productPromotions active row).getLast? (categoryPromotions active row).getLast?

theorem getLast?_matching (l : List α) : (matching l).getLast? = some l.getLast? := by
  cases l with
  | nil => rfl
  | cons a l =>
    rw [matching, if_neg (List.cons_ne_nil a l), List.getLast?_map]
    rw [List.getLast?_eq_some_getLast (List.cons_ne_nil a l)]
    rfl

theorem joined_id (h : r ∈ joined active row) : r.id = row.id := by
  obtain ⟨pp, _, hr⟩ := List.mem_flatMap.1 h
  obtain ⟨cp, _, rfl⟩ := List.mem_map.1 hr
  rfl

theorem getLast?_joined (active : List PromotionRow) (row : ProductRow) :
    (joined active row).getLast? = some (current active row) := by
  have hpp := getLast?_matching (productPromotions active row)
  have hcp := getLast?_matching (categoryPromotions active row)
  obtain ⟨init, hinit⟩ := List.getLast?_eq_some_iff.1 hpp
  rw [joined, hinit, List.flatMap_append, List.flatMap_singleton, List.getLast?_append,
    List.getLast?_map, hcp]
  rfl

theorem matching_of_length_le_one {l : List α} (h : l.length ≤ 1) : matching l = [l.getLast?] := by
  cases l with
  | nil => rfl
  | cons a l =>
    cases l with
    | nil => rfl
    | cons b l => exact absurd h (Nat.not_le.2 (Nat.succ_lt_succ (Nat.succ_pos _)))

/-- With one active promotion of a target at most, the joins keep one row of a product. -/
theorem joined_of_length_le_one (hp : (productPromotions active row).length ≤ 1)
    (hc : (categoryPromotions active row).length ≤ 1) :
    joined active row = [current active row] := by
  rw [joined, matching_of_length_le_one hp, matching_of_length_le_one hc]
  rfl

/-- `new Map(rows.map((row) => [row.id, row]))` -/
def found (rows : List SourceRow) : Table SourceRow.id := Table.ofList SourceRow.id rows

theorem filter_flatMap_joined (rows : List ProductRow) (hrows : (rows.map ProductRow.id).Nodup)
    (active : List PromotionRow) (hrow : row ∈ rows) :
    (rows.flatMap (joined active)).filter (fun r => r.id = row.id) = joined active row := by
  have hself (p : ProductRow) (hp : p.id = row.id) :
      (joined active p).filter (fun r => r.id = row.id) = joined active p := by
    apply List.filter_eq_self.2
    intro r hr
    rw [joined_id hr, hp]
    exact decide_eq_true rfl
  have hother (p : ProductRow) (hp : p.id ≠ row.id) :
      (joined active p).filter (fun r => r.id = row.id) = [] := by
    apply List.filter_eq_nil_iff.2
    intro r hr
    rw [joined_id hr]
    exact decide_eq_true_iff.not.2 hp
  induction rows with
  | nil => cases hrow
  | cons p rows ih =>
    rw [List.map_cons, List.nodup_cons] at hrows
    rw [List.flatMap_cons, List.filter_append]
    rcases List.mem_cons.1 hrow with rfl | hrow
    · rw [hself row rfl]
      have hrest : (rows.flatMap (joined active)).filter (fun r => r.id = row.id) = [] := by
        apply List.filter_eq_nil_iff.2
        intro r hr
        obtain ⟨q, hq, hrq⟩ := List.mem_flatMap.1 hr
        rw [joined_id hrq]
        apply decide_eq_true_iff.not.2
        intro he
        exact hrows.1 (he ▸ List.mem_map_of_mem hq)
      rw [hrest, List.append_nil]
    · rw [ih hrows.2 hrow, hother p, List.nil_append]
      intro he
      exact hrows.1 (he ▸ List.mem_map_of_mem hrow)

theorem mem_read {products : Catalogue} (h : r ∈ read products active ids) :
    ∃ row ∈ products.rows, row.id ∈ ids ∧ r.id = row.id := by
  obtain ⟨row, hrow, hr⟩ := List.mem_flatMap.1 h
  obtain ⟨hmem, hid⟩ := List.mem_filter.1 hrow
  exact ⟨row, hmem, of_decide_eq_true hid, joined_id hr⟩

/-- The rows read of a requested product are the rows its joins make of it. -/
theorem filter_read {products : Catalogue} (hrow : row ∈ products.rows) (hid : row.id ∈ ids)
    (active : List PromotionRow) :
    (read products active ids).filter (fun r => r.id = row.id) = joined active row := by
  apply filter_flatMap_joined
  · exact products.unique.sublist (List.Sublist.map _ List.filter_sublist)
  · exact List.mem_filter.2 ⟨hrow, decide_eq_true hid⟩

/-- A requested product is found with its active promotions. -/
theorem find_read {products : Catalogue} (hrow : row ∈ products.rows) (hid : row.id ∈ ids)
    (active : List PromotionRow) :
    (found (read products active ids)).find row.id = some (current active row) := by
  rw [found, Table.find_ofList, filter_read hrow hid]
  exact getLast?_joined active row

/-- What is found is a product that was asked for. -/
theorem mem_found {products : Catalogue} (h : r ∈ (found (read products active ids)).rows) :
    ∃ row ∈ products.rows, row.id ∈ ids ∧ r = current active row := by
  obtain ⟨row, hrow, hid, he⟩ := mem_read (Table.mem_of_mem_ofList h)
  have hf := (found (read products active ids)).find_of_mem h
  rw [he, find_read hrow hid] at hf
  exact ⟨row, hrow, hid, (Option.some.inj hf).symm⟩

theorem mem_map_inCategory {products : Catalogue} :
    id' ∈ (inCategory products category).map ProductRow.id ↔
      ∃ row ∈ products.rows, row.id = id' ∧ row.values.category = category := by
  rw [List.mem_map]
  constructor
  · rintro ⟨row, hrow, hid⟩
    obtain ⟨hrow, hc⟩ := List.mem_filter.1 hrow
    exact ⟨row, hrow, hid, of_decide_eq_true hc⟩
  · rintro ⟨row, hrow, hid, hc⟩
    exact ⟨row, List.mem_filter.2 ⟨hrow, decide_eq_true hc⟩, hid⟩

/-- Pages of any size, of the products of a category. -/
theorem isPage_inCategory (hlimit : 1 ≤ limit) (products : Catalogue) (category : Text)
    (afterId : Nat) :
    IsPage (fun id => ∃ row ∈ products.rows, row.id = id ∧ row.values.category = category) afterId
      (keysetPage limit ((inCategory products category).map ProductRow.id) afterId) := by
  have hids : ((inCategory products category).map ProductRow.id).Nodup :=
    products.unique.sublist (List.Sublist.map _ List.filter_sublist)
  exact (isPage_keysetPage hlimit hids afterId).congr fun _ => mem_map_inCategory

theorem isPage_rows (hlimit : 1 ≤ limit) (products : Catalogue) (afterId : Nat) :
    IsPage (fun id => ∃ row ∈ products.rows, row.id = id) afterId
      (keysetPage limit (products.rows.map ProductRow.id) afterId) :=
  (isPage_keysetPage hlimit products.unique afterId).congr fun _ => List.mem_map

theorem idsInCategory_eq (products : Catalogue) (category : Text) (afterId : Nat) :
    idsInCategory products category afterId =
      keysetPage page ((inCategory products category).map ProductRow.id) afterId := by
  have hrows : (products.rows.filter fun row => row.values.category = category ∧ row.id > afterId) =
      products.rows.filter fun row => decide (afterId < row.id) &&
        decide (row.values.category = category) := by
    apply List.filter_congr
    intro row _
    rw [Bool.decide_and, Bool.and_comm]
  rw [keysetPage, List.filter_map, inCategory, List.filter_filter, idsInCategory, hrows]
  rfl

theorem idsAfter_eq (products : Catalogue) (afterId : Nat) :
    idsAfter products afterId = keysetPage page (products.rows.map ProductRow.id) afterId := by
  rw [keysetPage, List.filter_map]
  rfl

/-- A product of the category past the cursor is on the page, or past its last id. -/
theorem idsInCategory_cases {products : Catalogue} (hrow : row ∈ products.rows)
    (hafter : afterId < row.id) :
    row.id ∈ idsInCategory products row.values.category afterId ∨
      ∃ last, (idsInCategory products row.values.category afterId).getLast? = some last ∧
        last < row.id := by
  rw [idsInCategory_eq]
  apply (isPage_inCategory (by decide) products row.values.category afterId).reaches
  · exact ⟨row, hrow, rfl, rfl⟩
  · exact hafter

theorem mem_idsInCategory {products : Catalogue} (h : id' ∈ idsInCategory products c afterId) :
    ∃ row ∈ products.rows, row.id = id' ∧ row.values.category = c ∧ afterId < row.id := by
  rw [idsInCategory_eq] at h
  obtain ⟨⟨row, hrow, rfl, hc⟩, hafter⟩ :=
    (isPage_inCategory (by decide) products c afterId).sound id' h
  exact ⟨row, hrow, rfl, hc, hafter⟩

/-- A product past the cursor is on the page, or past its last id. -/
theorem idsAfter_cases {products : Catalogue} (hrow : row ∈ products.rows)
    (hafter : afterId < row.id) : row.id ∈ idsAfter products afterId ∨
      ∃ last, (idsAfter products afterId).getLast? = some last ∧ last < row.id := by
  rw [idsAfter_eq]
  exact (isPage_rows (by decide) products afterId).reaches row.id ⟨row, hrow, rfl⟩ hafter

theorem mem_presentIds {products : Catalogue} :
    id' ∈ presentIds products ids ↔ id' ∈ ids ∧ ∃ row ∈ products.rows, row.id = id' := by
  rw [presentIds, List.mem_map]
  constructor
  · rintro ⟨row, hrow, rfl⟩
    obtain ⟨hrow, hid⟩ := List.mem_filter.1 hrow
    exact ⟨of_decide_eq_true hid, row, hrow, rfl⟩
  · rintro ⟨hid, row, hrow, rfl⟩
    exact ⟨row, List.mem_filter.2 ⟨hrow, decide_eq_true hid⟩, rfl⟩

end ProductSourceRepository

end PromotionManagement
