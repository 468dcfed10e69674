import PromotionManagement.SeededPromotionRules

namespace PromotionManagement
set_option autoImplicit true

/-- A candidate that the calculator accepts. -/
structure PromotionCandidate.Priceable (p : PromotionCandidate) : Prop where
  value : 0 < p.value ∧ p.value ≤ maxSafeInteger
  percentage : p.discountType = .percentage → p.value ≤ 10000

/-- What a product costs under a candidate, the discount rounded down. -/
def PromotionCandidate.cost (base : Int) (p : PromotionCandidate) : Int :=
  match p.discountType with
  | .percentage => base - base * p.value / 10000
  | .fixed => max (base - p.value) 0

def SourceRow.IsCandidate (row : SourceRow) (p : PromotionCandidate) : Prop :=
  row.productPromotion = some p ∨ row.categoryPromotion = some p

/-- The base price, and the prices of the priceable candidates. -/
def SourceRow.offers (row : SourceRow) : Set Int :=
  {cents | cents = row.basePriceCents ∨
    ∃ p, row.IsCandidate p ∧ p.Priceable ∧ cents = p.cost row.basePriceCents}

def ProductEntry.Names (entry : ProductEntry) (p : PromotionCandidate) : Prop :=
  entry.promotionId = some p.id ∧ entry.promotionName = some p.name

/-- The entry names no promotion. -/
def ProductEntry.Unnamed (entry : ProductEntry) : Prop :=
  entry.promotionId = none ∧ entry.promotionName = none

/-- The product's promotion is priceable, and not dearer than the category's. -/
structure SourceRow.ProductWins (row : SourceRow) (p : PromotionCandidate) : Prop where
  candidate : row.productPromotion = some p
  priceable : p.Priceable
  least : ∀ q, row.categoryPromotion = some q → q.Priceable →
    p.cost row.basePriceCents ≤ q.cost row.basePriceCents

/-- The category's promotion is priceable, and strictly cheaper than the product's or alone. -/
structure SourceRow.CategoryWins (row : SourceRow) (q : PromotionCandidate) : Prop where
  candidate : row.categoryPromotion = some q
  priceable : q.Priceable
  least : ∀ p, row.productPromotion = some p → p.Priceable →
    q.cost row.basePriceCents < p.cost row.basePriceCents

/-- The entry has the lowest of the offers, and names the promotion that makes it. -/
structure SourceRow.Cheapest (row : SourceRow) (entry : ProductEntry) : Prop where
  lowest : IsLeast row.offers entry.effectivePriceCents
  product : ∀ p, row.ProductWins p → entry.Names p
  category : ∀ q, row.CategoryWins q → entry.Names q
  none : entry.Unnamed ↔ ∀ p, row.IsCandidate p → ¬p.Priceable

namespace EffectivePriceCalculator

theorem valueError_none_iff (p : PromotionCandidate) :
    p.discountType.valueError p.value = none ↔
      (p.discountType = .percentage → p.value ≤ 10000) := by
  cases p.discountType with
  | percentage => simp [DiscountType.valueError, DiscountType.fullDiscountBasisPoints]
  | fixed => simp [DiscountType.valueError]

theorem cost_eq (hbase : 0 ≤ base) (hp : PromotionCandidate.Priceable p) :
    (if p.discountType.discountCents base p.value > base then 0
      else base - p.discountType.discountCents base p.value) = p.cost base := by
  rw [PromotionCandidate.cost]
  cases hd : p.discountType with
  | percentage =>
    have hle : base * p.value / 10000 ≤ base := by
      apply Int.ediv_le_of_le_mul (by decide)
      exact Int.mul_le_mul_of_nonneg_left (hp.percentage hd) hbase
    exact if_neg (Int.not_lt.2 hle)
  | fixed =>
    change (if p.value > base then 0 else base - p.value) = max (base - p.value) 0
    by_cases h : p.value > base
    · rw [if_pos h, max_eq_right (by omega)]
    · rw [if_neg h, max_eq_left (by omega)]

/-- The calculator gives its cost to exactly the candidate that is priceable. -/
theorem calculate_ok_iff (hbase : InRange base) :
    calculate base p = .ok cents ↔ p.Priceable ∧ cents = p.cost base := by
  rw [calculate]
  split
  · rename_i reason hreason
    refine ⟨(nomatch ·), fun h => ?_⟩
    rw [validate_none_iff.2 ⟨hbase, h.1.value, (valueError_none_iff p).2 h.1.percentage⟩] at hreason
    cases hreason
  · rename_i hnone
    obtain ⟨_, hvalue, herror⟩ := validate_none_iff.1 hnone
    have hp : p.Priceable := ⟨hvalue, (valueError_none_iff p).1 herror⟩
    dsimp only
    rw [cost_eq hbase.1 hp, Except.ok.injEq, eq_comm]
    exact (and_iff_right hp).symm

end EffectivePriceCalculator

theorem PromotionCandidate.Priceable.cost_le {p : PromotionCandidate} (h : p.Priceable)
    (hbase : InRange base) : p.cost base ≤ base := by
  have hvalue := h.value.1
  rw [PromotionCandidate.cost]
  split
  · have : 0 ≤ base * p.value / 10000 :=
      Int.ediv_nonneg (Int.mul_nonneg hbase.1 (Int.le_of_lt hvalue)) (by decide)
    omega
  · exact max_le (by omega) hbase.1

namespace SourceRow.Cheapest

/-- A candidate no dearer than any other has the lowest offer. -/
theorem isLeast_offers {row : SourceRow} (hbase : InRange row.basePriceCents)
    (hp : row.IsCandidate p) (hpriceable : p.Priceable)
    (hle : ∀ q, row.IsCandidate q → q.Priceable →
      p.cost row.basePriceCents ≤ q.cost row.basePriceCents) :
    IsLeast row.offers (p.cost row.basePriceCents) := by
  refine ⟨.inr ⟨p, hp, hpriceable, rfl⟩, ?_⟩
  rintro cents (rfl | ⟨q, hq, hqp, rfl⟩)
  · exact hpriceable.cost_le hbase
  · exact hle q hq hqp

theorem named {entry : ProductEntry} (h : entry.Names p) : ¬entry.Unnamed := by
  intro hu
  rw [ProductEntry.Unnamed, h.1] at hu
  exact Option.some_ne_none _ hu.1

protected theorem ofProduct {row : SourceRow} {entry : ProductEntry}
    (hbase : InRange row.basePriceCents) (hp : row.ProductWins p)
    (hcents : entry.effectivePriceCents = p.cost row.basePriceCents) (hnames : entry.Names p) :
    row.Cheapest entry where
  lowest := by
    rw [hcents]
    refine isLeast_offers hbase (.inl hp.candidate) hp.priceable fun q hq hqp => ?_
    rcases hq with hq | hq
    · rw [hp.candidate] at hq
      cases hq
      exact Int.le_refl _
    · exact hp.least q hq hqp
  product p' hp' := by
    have heq := hp.candidate.symm.trans hp'.candidate
    cases heq
    exact hnames
  category q hq :=
    absurd (hq.least p hp.candidate hp.priceable)
      (Int.not_lt.2 (hp.least q hq.candidate hq.priceable))
  none := ⟨fun h => absurd h (named hnames),
    fun h => absurd hp.priceable (h p (.inl hp.candidate))⟩

protected theorem ofCategory {row : SourceRow} {entry : ProductEntry}
    (hbase : InRange row.basePriceCents) (hq : row.CategoryWins q)
    (hcents : entry.effectivePriceCents = q.cost row.basePriceCents) (hnames : entry.Names q) :
    row.Cheapest entry where
  lowest := by
    rw [hcents]
    refine isLeast_offers hbase (.inr hq.candidate) hq.priceable fun p hp hpp => ?_
    rcases hp with hp | hp
    · exact Int.le_of_lt (hq.least p hp hpp)
    · rw [hq.candidate] at hp
      cases hp
      exact Int.le_refl _
  product p hp :=
    absurd (hq.least p hp.candidate hp.priceable)
      (Int.not_lt.2 (hp.least q hq.candidate hq.priceable))
  category q' hq' := by
    have heq := hq.candidate.symm.trans hq'.candidate
    cases heq
    exact hnames
  none := ⟨fun h => absurd h (named hnames),
    fun h => absurd hq.priceable (h q (.inr hq.candidate))⟩

protected theorem ofBase {row : SourceRow} {entry : ProductEntry}
    (hnone : ∀ p, row.IsCandidate p → ¬p.Priceable)
    (hcents : entry.effectivePriceCents = row.basePriceCents) (hunnamed : entry.Unnamed) :
    row.Cheapest entry where
  lowest := by
    rw [hcents]
    refine ⟨.inl rfl, ?_⟩
    rintro cents (rfl | ⟨q, hq, hqp, rfl⟩)
    · exact Int.le_refl _
    · exact absurd hqp (hnone q hq)
  product p hp := absurd hp.priceable (hnone p (.inl hp.candidate))
  category q hq := absurd hq.priceable (hnone q (.inr hq.candidate))
  none := ⟨fun _ => hnone, fun _ => hunnamed⟩

end SourceRow.Cheapest

namespace ProductPricer

theorem priced_eq_some (hbase : InRange row.basePriceCents) :
    priced row promotion = some (p, cents) ↔
      promotion = some p ∧ p.Priceable ∧ cents = p.cost row.basePriceCents := by
  rw [priced, Option.bind_eq_some_iff]
  constructor
  · rintro ⟨q, rfl, hq⟩
    split at hq
    · rename_i hc
      cases hq
      exact ⟨rfl, (EffectivePriceCalculator.calculate_ok_iff hbase).1 hc⟩
    · cases hq
  · rintro ⟨rfl, h⟩
    exact ⟨p, rfl, by rw [(EffectivePriceCalculator.calculate_ok_iff hbase).2 h]⟩

theorem priced_eq_none (hbase : InRange row.basePriceCents) :
    priced row promotion = none ↔ ∀ p, promotion = some p → ¬p.Priceable := by
  rw [Option.eq_none_iff_forall_ne_some]
  constructor
  · intro h p hp hpriceable
    exact h (p, _) ((priced_eq_some hbase).2 ⟨hp, hpriceable, rfl⟩)
  · rintro h ⟨p, cents⟩ hp
    obtain ⟨hpromotion, hpriceable, _⟩ := (priced_eq_some hbase).1 hp
    exact h p hpromotion hpriceable

/-- What the cheaper level applies: a candidate not dearer than the other, or nothing. -/
theorem applied_cheaper (hbase : InRange row.basePriceCents)
    (hlevel : level = PromotionResolver.cheaper (facts row).productPriceCents
      (facts row).categoryPriceCents) :
    (∃ p, row.ProductWins p ∧ applied row level = some (p, p.cost row.basePriceCents)) ∨
      (∃ q, row.CategoryWins q ∧ applied row level = some (q, q.cost row.basePriceCents)) ∨
      (∀ p, row.IsCandidate p → ¬p.Priceable) ∧ applied row level = none := by
  subst level
  rw [facts]
  dsimp only
  cases hp : priced row row.productPromotion with
  | none =>
    have hproduct := (priced_eq_none hbase).1 hp
    cases hq : priced row row.categoryPromotion with
    | none =>
      have hcategory := (priced_eq_none hbase).1 hq
      exact .inr (.inr ⟨fun p h => h.elim (hproduct p) (hcategory p), rfl⟩)
    | some c =>
      obtain ⟨q, cents⟩ := c
      obtain ⟨hcategory, hpriceable, rfl⟩ := (priced_eq_some hbase).1 hq
      exact .inr (.inl ⟨q, ⟨hcategory, hpriceable, fun p h h' => absurd h' (hproduct p h)⟩, hq⟩)
  | some c =>
    obtain ⟨p, cents⟩ := c
    obtain ⟨hproduct, hpriceable, rfl⟩ := (priced_eq_some hbase).1 hp
    cases hq : priced row row.categoryPromotion with
    | none =>
      have hcategory := (priced_eq_none hbase).1 hq
      exact .inl ⟨p, ⟨hproduct, hpriceable, fun q h h' => absurd h' (hcategory q h)⟩, hp⟩
    | some c' =>
      obtain ⟨q, cents'⟩ := c'
      obtain ⟨hcategory, hpriceable', rfl⟩ := (priced_eq_some hbase).1 hq
      rw [Option.map_some, Option.map_some, PromotionResolver.cheaper]
      split
      · rename_i hle
        refine .inl ⟨p, ⟨hproduct, hpriceable, fun q' h _ => ?_⟩, hp⟩
        rw [hcategory] at h
        cases h
        exact hle
      · rename_i hlt
        refine .inr (.inl ⟨q, ⟨hcategory, hpriceable', fun p' h _ => ?_⟩, hq⟩)
        rw [hproduct] at h
        cases h
        exact Int.not_le.1 hlt

theorem price_some (h : applied row (PromotionResolver.select results) = some (p, cents)) :
    (price row results).effectivePriceCents = cents ∧ (price row results).Names p := by
  rw [ProductEntry.Names]
  simp only [price, h, Option.map_some, Option.getD_some, and_self]

theorem price_none (h : applied row (PromotionResolver.select results) = none) :
    (price row results).effectivePriceCents = row.basePriceCents ∧
      (price row results).Unnamed := by
  rw [ProductEntry.Unnamed]
  simp only [price, h, Option.map_none, Option.getD_none, and_self]

/-- Where the cheaper level is selected, the entry is at the lowest offer. -/
theorem price_cheapest (hbase : InRange row.basePriceCents)
    (hselect : PromotionResolver.select results = PromotionResolver.cheaper
      (facts row).productPriceCents (facts row).categoryPriceCents) :
    row.Cheapest (price row results) := by
  rcases applied_cheaper hbase hselect with ⟨p, hp, h⟩ | ⟨q, hq, h⟩ | ⟨hnone, h⟩
  · obtain ⟨hcents, hnames⟩ := price_some h
    exact .ofProduct hbase hp hcents hnames
  · obtain ⟨hcents, hnames⟩ := price_some h
    exact .ofCategory hbase hq hcents hnames
  · obtain ⟨hcents, hunnamed⟩ := price_none h
    exact .ofBase hnone hcents hunnamed

/-- Under the seeded policy, in whatever order its rules were loaded and report, every product is
priced, and at the lowest offer. -/
theorem price_seeded {engine : PromotionRulesEngine}
    (hholds : PromotionResolver.EvaluatesConditions holds)
    (hengine : PromotionResolver.ReportsMatching engine holds)
    (hload : PromotionResolver.fromRules engine rules = .ok resolver) (hrules : SeededPolicy rules)
    (row : SourceRow) (hbase : InRange row.basePriceCents) :
    (∃ entry, Prices resolver.engine row entry) ∧
      ∀ entry, Prices resolver.engine row entry → row.Cheapest entry := by
  obtain ⟨⟨results, hresults⟩, hselect⟩ :=
    PromotionResolver.select_seeded hholds hengine hload hrules (facts row)
  refine ⟨⟨_, results, hresults, rfl⟩, ?_⟩
  rintro entry ⟨results', hresults', rfl⟩
  exact price_cheapest hbase (hselect results' hresults')

def ownDiscount : PromotionCandidate := ⟨1, "Own discount".toList, .percentage, 500⟩

def halfPrice : PromotionCandidate := ⟨2, "Half price".toList, .percentage, 5000⟩

/-- An accessory that has a promotion of its own during the sale of its category. -/
def accessory : SourceRow where
  id := 9
  sku := "SKU-9".toList
  name := "Glove".toList
  category := "accessories".toList
  basePriceCents := 1999
  stockQuantity := 12
  pricingRulesVersion := none
  productPromotion := some ownDiscount
  categoryPromotion := some halfPrice

theorem accessory_categoryWins : accessory.CategoryWins halfPrice where
  candidate := rfl
  priceable := ⟨by decide, by decide⟩
  least := by
    intro p hp _
    cases hp
    decide

open PromotionResolver in
theorem price_seeded_accessory : ∃ resolver,
    fromRules reportingEngine seededTable = .ok resolver ∧
      ∀ entry, Prices resolver.engine accessory entry →
        entry.effectivePriceCents = 1000 ∧ entry.Names halfPrice := by
  have hbase : InRange accessory.basePriceCents := ⟨by decide, by decide⟩
  refine ⟨_, rfl, fun entry hentry => ?_⟩
  have h := (price_seeded evaluatesConditions_evaluate reportsMatching_reportingEngine rfl
    seededPolicy_table accessory hbase).2 entry hentry
  refine ⟨?_, h.category halfPrice accessory_categoryWins⟩
  refine h.lowest.unique (SourceRow.Cheapest.isLeast_offers hbase
    (.inr accessory_categoryWins.candidate) accessory_categoryWins.priceable fun q hq _ => ?_)
  rcases hq with hq | hq
  · cases hq
    decide
  · cases hq
    decide

end ProductPricer

end PromotionManagement
