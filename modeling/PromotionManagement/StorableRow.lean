import PromotionManagement.PricedRow

namespace PromotionManagement
set_option autoImplicit true

def maxInteger : Nat := 2 ^ 31 - 1

def maxBigint : Nat := 2 ^ 63 - 1

/-- PostgreSQL `text` holds every character but U+0000. -/
def IsPgText (t : Text) : Prop := ∀ c ∈ t, c ≠ Char.ofNat 0

instance : DecidablePred IsPgText := fun t => List.decidableBAll (fun c => c ≠ Char.ofNat 0) t

/-- The bytes of an index entry, a multiple of eight. -/
def maxAlign (n : Nat) : Nat := (n + 7) / 8 * 8

/-- The bytes an entry of a B-tree index may have. -/
def maxIndexEntry : Nat := 2704

/-- An entry of `products_sku_unique`, of whose text the index keeps `indexed` bytes. -/
def skuEntry (indexed : Text → Nat) (sku : Text) : Nat := maxAlign (8 + indexed sku)

/-- An entry of `products_category_id_idx`, the product's id after its category. -/
def categoryEntry (indexed : Text → Nat) (category : Text) : Nat :=
  maxAlign (8 + indexed category) + 8

/-- What an index keeps of a text that it does not compress: its UTF-8 and a header. -/
def uncompressed (t : Text) : Nat :=
  let bytes := (t.map Char.utf8Size).sum
  if bytes ≤ 126 then bytes + 1 else bytes + 4

/-- The column types and checks of `products` that a row's values can break. -/
structure InColumns (u : ProductUpsert) : Prop where
  sku : IsPgText u.sku
  name : IsPgText u.name
  category : IsPgText u.category
  base_price : 0 ≤ u.basePriceCents ∧ u.basePriceCents ≤ maxBigint
  stock : u.stockQuantity ≤ maxInteger
  version : 0 ≤ u.pricingRulesVersion ∧ u.pricingRulesVersion ≤ maxBigint
  job : u.ingestJobId ≤ maxBigint
  offset : u.ingestSourceOffset ≤ maxBigint

/-- The indexes of `products` have room for the row. An index compresses a long text, so that what
it keeps of one depends on the text. -/
structure Indexable (indexed : Text → Nat) (u : ProductUpsert) : Prop where
  sku_unique : skuEntry indexed u.sku ≤ maxIndexEntry
  category_id_idx : categoryEntry indexed u.category ≤ maxIndexEntry

/-- The table takes the row. -/
structure Storable (indexed : Text → Nat) (u : ProductUpsert) : Prop
    extends InColumns u, Indexable indexed u

/-- The database refuses the statement `upsertMany` sends for a batch, for a row's values. A row
that the guard skips makes no entry in an index. -/
def UpsertRefused (indexed : Text → Nat) (products : Products) (batch : List ProductUpsert) :
    Prop :=
  ∃ u ∈ Products.distinctSkus batch,
    ¬ InColumns u ∨ (products.stored u).isSome ∧ ¬ Indexable indexed u

instance : DecidablePred InColumns := fun u =>
  decidable_of_iff (IsPgText u.sku ∧ IsPgText u.name ∧ IsPgText u.category ∧
      (0 ≤ u.basePriceCents ∧ u.basePriceCents ≤ maxBigint) ∧ u.stockQuantity ≤ maxInteger ∧
      (0 ≤ u.pricingRulesVersion ∧ u.pricingRulesVersion ≤ maxBigint) ∧
      u.ingestJobId ≤ maxBigint ∧ u.ingestSourceOffset ≤ maxBigint)
    ⟨fun ⟨h₁, h₂, h₃, h₄, h₅, h₆, h₇, h₈⟩ => ⟨h₁, h₂, h₃, h₄, h₅, h₆, h₇, h₈⟩,
      fun ⟨h₁, h₂, h₃, h₄, h₅, h₆, h₇, h₈⟩ => ⟨h₁, h₂, h₃, h₄, h₅, h₆, h₇, h₈⟩⟩

instance (indexed : Text → Nat) : DecidablePred (Indexable indexed) := fun u =>
  decidable_of_iff (skuEntry indexed u.sku ≤ maxIndexEntry ∧
      categoryEntry indexed u.category ≤ maxIndexEntry)
    ⟨fun ⟨h₁, h₂⟩ => ⟨h₁, h₂⟩, fun ⟨h₁, h₂⟩ => ⟨h₁, h₂⟩⟩

instance (indexed : Text → Nat) (products : Products) :
    DecidablePred (UpsertRefused indexed products) := fun batch =>
  inferInstanceAs (Decidable (∃ u ∈ Products.distinctSkus batch,
    ¬ InColumns u ∨ (products.stored u).isSome ∧ ¬ Indexable indexed u))

theorem not_refused_of_storable
    (h : ∀ u ∈ Products.distinctSkus batch, Storable indexed u) (products : Products) :
    ¬ UpsertRefused indexed products batch := by
  rintro ⟨u, hu, hn | ⟨_, hn⟩⟩
  · exact hn (h u hu).toInColumns
  · exact hn (h u hu).toIndexable

theorem inColumns_of_not_refused (h : ¬ UpsertRefused indexed products batch)
    (hu : u ∈ Products.distinctSkus batch) : InColumns u := by
  by_contra hn
  exact h ⟨u, hu, .inl hn⟩

/-- Neither `parseVendorRow` nor `calculate` lets the line through. -/
def RowRejected (c : BasePriceCalculator) (line : Text) : Prop :=
  ∀ row, parseVendorRow line = .ok row →
    ∀ base version, c.calculate row.facts ≠ .priced base version

/-- The texts of the line are free of U+0000, its stock is within `integer`, and its sku and its
category fit the entries of their indexes. -/
def FieldsInRange (indexed : Text → Nat) (line : Text) : Prop :=
  match vendorFields line with
  | [sku, name, category, _, stock] =>
    (IsPgText sku ∧ IsPgText name ∧ IsPgText category) ∧
      Nat.ofDigitChars 10 stock 0 ≤ maxInteger ∧
      skuEntry indexed sku ≤ maxIndexEntry ∧ categoryEntry indexed category ≤ maxIndexEntry
  | _ => False

theorem price_ok_or_rejected (c : BasePriceCalculator) (line : Text) (jobId offset : Nat) :
    RowRejected c line ∨ ∃ u, price c line jobId offset = .ok (some u) := by
  cases hr : parseVendorRow line with
  | error reason =>
    left
    intro row h
    rw [hr] at h
    cases h
  | ok row =>
    cases hc : c.calculate row.facts with
    | priced base version =>
      right
      simp only [price, hr, hc, Except.ok.injEq, Option.some.injEq, exists_eq']
    | rejected fault by' reason =>
      left
      intro row' h base version hp
      rw [hr] at h
      cases h
      rw [hc] at hp
      cases hp

theorem price_not_rejected (h : price c line jobId offset = .ok (some u)) :
    ¬ RowRejected c line := by
  obtain ⟨row, hr, hc, _⟩ := price_accepted h
  intro hn
  exact hn row hr _ _ hc

/-- Of the limits of the table, an accepted line can miss those its own text decides. -/
theorem accepted_storable_iff {engine : RulesEngine}
    (hc : BasePriceCalculator.fromRules engine rules = .ok c)
    (hj : jobId ≤ maxBigint) (ho : offset ≤ maxBigint)
    (h : price c line jobId offset = .ok (some u)) :
    Storable indexed u ↔ FieldsInRange indexed line := by
  obtain ⟨row, hr, hp, hu⟩ := price_accepted h
  obtain ⟨price', stock, hf, _, _, _, hs, _⟩ := parseVendorRow_ok hr
  obtain ⟨⟨hb, hb'⟩, hv⟩ := BasePriceCalculator.calculate_priced hp
  have hn := BasePriceCalculator.newestVersion_bounds
    (BasePriceCalculator.activeIngestionRules rules)
  rw [BasePriceCalculator.fromRules_version hc] at hv
  simp only [FieldsInRange, hf, ← hs]
  rw [hu]
  refine ⟨fun hst => ⟨⟨hst.sku, hst.name, hst.category⟩, hst.stock, hst.sku_unique,
    hst.category_id_idx⟩, ?_⟩
  rintro ⟨⟨hsku, hname, hcategory⟩, hstock, hunique, hidx⟩
  simp only [maxSafeInteger] at hb'
  refine ⟨⟨hsku, hname, hcategory, ⟨hb, ?_⟩, hstock, ⟨?_, ?_⟩, hj, ho⟩, hunique, hidx⟩
  · simp only [maxBigint]
    omega
  · simp only [hv]
    exact hn.1
  · simp only [hv, maxBigint]
    omega

/-- A line is rejected or storable exactly when it is rejected or its fields are in range, and
a batch of such lines is never refused, whatever the table holds. -/
theorem rejected_or_storable_iff (indexed : Text → Nat) {engine : RulesEngine}
    (hc : BasePriceCalculator.fromRules engine rules = .ok c) (hj : jobId ≤ maxBigint) :
    (∀ line offset, offset ≤ maxBigint →
      ((RowRejected c line ∨
          ∀ u, price c line jobId offset = .ok (some u) → Storable indexed u) ↔
        (RowRejected c line ∨ FieldsInRange indexed line))) ∧
    ∀ rows : List (Nat × Text), (∀ row ∈ rows, row.1 ≤ maxBigint) →
      (∀ row ∈ rows, RowRejected c row.2 ∨ FieldsInRange indexed row.2) →
      ∀ products, ¬ UpsertRefused indexed products (acceptedRows c jobId rows) := by
  refine ⟨?_, ?_⟩
  · intro line offset ho
    refine or_congr_right' fun hn => ?_
    obtain ⟨u, hu⟩ := (price_ok_or_rejected c line jobId offset).resolve_left hn
    refine ⟨fun h => (accepted_storable_iff hc hj ho hu).1 (h u hu), ?_⟩
    intro h v hv
    exact (accepted_storable_iff hc hj ho hv).2 h
  · intro rows ho h
    apply not_refused_of_storable
    intro u hu
    obtain ⟨row, hr, hp⟩ := mem_acceptedRows.1 (Library.Table.mem_of_mem_ofList hu)
    have hf := (h row hr).resolve_left (price_not_rejected hp)
    exact (accepted_storable_iff hc hj (ho row hr) hp).2 hf

/-- The seeded commission, which applies to the whole catalogue. -/
def commissionRule : PricingRuleRow where
  id := 3
  type := .ingestion
  name := "vendor commission"
  conditions := .obj [("all", .arr [.obj [("fact", .str "vendorPriceCents"),
    ("operator", .str "greaterThanInclusive"), ("value", .num 0)]])]
  event := .obj [("type", .str "adjustPercentBps"), ("params", .obj [("value", .num 500)])]
  priority := 10
  active := true
  updatedAt := ⟨1757635200000, by decide⟩

/-- An engine all of whose rules hold of every row, as the commission's does. -/
def everyRuleFires : RulesEngine := fun rules _ => .ok rules

def commissionCalculator : BasePriceCalculator where
  engine := everyRuleFires [⟨"pricing rule 3 (\"vendor commission\")", 1,
    commissionRule.conditions, .adjustPercentBps 500⟩]
  ruleIds := [3]
  pricingRulesVersion := 1757635200000

theorem commissionCalculator_compiled :
    BasePriceCalculator.fromRules everyRuleFires [commissionRule] = .ok commissionCalculator := by
  rfl

def overstockedLine : Text := "SKU-1,Wool scarf,Accessories,799.90,2147483648".toList

def overstockedRow : ProductUpsert :=
  ⟨"SKU-1".toList, "Wool scarf".toList, "Accessories".toList, 83989, 2147483648, 1757635200000,
    1, 0⟩

/-- The stock of this line is one more than `integer` holds, and nothing rejects it. -/
theorem overstocked_line_refused :
    BasePriceCalculator.fromRules everyRuleFires [commissionRule] = .ok commissionCalculator ∧
      ¬ (RowRejected commissionCalculator overstockedLine ∨
        ∀ u, price commissionCalculator overstockedLine 1 0 = .ok (some u) →
          Storable uncompressed u) ∧
      ∀ products, UpsertRefused uncompressed products
        (acceptedRows commissionCalculator 1 [(0, overstockedLine)]) := by
  have hu : price commissionCalculator overstockedLine 1 0 = .ok (some overstockedRow) := by
    decide +kernel
  have hn : ¬ InColumns overstockedRow := fun h =>
    Nat.not_le_of_lt (Nat.lt_succ_self maxInteger) h.stock
  have ha : acceptedRows commissionCalculator 1 [(0, overstockedLine)] = [overstockedRow] := by
    rw [acceptedRows, List.filterMap_cons, hu]
    rfl
  refine ⟨commissionCalculator_compiled, ?_, ?_⟩
  · rintro (h | h)
    · exact price_not_rejected hu h
    · exact hn (h _ hu).toInColumns
  · intro products
    rw [ha]
    exact ⟨overstockedRow, List.mem_singleton.2 rfl, .inl hn⟩

theorem rejected_or_storable_iff_commission :
    ((RowRejected commissionCalculator overstockedLine ∨
        ∀ u, price commissionCalculator overstockedLine 1 0 = .ok (some u) →
          Storable uncompressed u) ↔
      (RowRejected commissionCalculator overstockedLine ∨
        FieldsInRange uncompressed overstockedLine)) :=
  (rejected_or_storable_iff uncompressed commissionCalculator_compiled (by decide)).1 _ _
    (by decide)

end PromotionManagement
