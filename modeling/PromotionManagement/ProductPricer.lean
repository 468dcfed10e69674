import PromotionManagement.ProductWriteRepository
import PromotionManagement.PromotionRepository

namespace PromotionManagement
set_option autoImplicit true

structure PromotionCandidate where
  id : Nat
  name : Text
  discountType : DiscountType
  value : Int
deriving DecidableEq

/-- A product as the source gives it, with the promotions that may apply to it. -/
structure SourceRow where
  id : Nat
  sku : Text
  name : Text
  category : Text
  basePriceCents : Int
  stockQuantity : Nat
  pricingRulesVersion : Option Int
  productPromotion : Option PromotionCandidate
  categoryPromotion : Option PromotionCandidate
deriving DecidableEq

inductive CandidateLevel where
  | product
  | category
deriving DecidableEq

structure CandidateFacts where
  category : Text
  stockQuantity : Nat
  basePriceCents : Int
  productPriceCents : Option Int
  categoryPriceCents : Option Int
deriving DecidableEq

/-- A rule that matched: its priority and the level its event selects. -/
structure RuleResult where
  priority : Int
  level : CandidateLevel
deriving DecidableEq

/-- What `Engine.run` may report about a set of facts. -/
abbrev PromotionEngine := CandidateFacts → List RuleResult → Bool

namespace DiscountType

def fullDiscountBasisPoints : Int := 10000

def valueError : DiscountType → Int → Option String
  | .percentage, value =>
    if value > fullDiscountBasisPoints then some "discount is above 10000 basis points" else none
  | .fixed, _ => none

/-- A percentage is floored. -/
def discountCents : DiscountType → Int → Int → Int
  | .percentage, baseCents, value => baseCents * value / 10000
  | .fixed, _, value => value

end DiscountType

namespace EffectivePriceCalculator

def validateBasePriceAndDiscount (basePriceCents : Int) (value : Int) (discount : DiscountType) :
    Option String :=
  if basePriceCents < 0 || !isSafeInteger basePriceCents.toNat then
    some "base price is not a whole number of minor units in range"
  else if value ≤ 0 || !isSafeInteger value.toNat then
    some "discount value is not a whole, positive number"
  else discount.valueError value

def calculate (basePriceCents : Int) (promotion : PromotionCandidate) : Except String Int :=
  match validateBasePriceAndDiscount basePriceCents promotion.value promotion.discountType with
  | some reason => .error reason
  | none =>
    let cents := promotion.discountType.discountCents basePriceCents promotion.value
    .ok (if cents > basePriceCents then 0 else basePriceCents - cents)

theorem validate_none_iff {base value : Int} {discount : DiscountType} :
    validateBasePriceAndDiscount base value discount = none ↔
      (0 ≤ base ∧ base ≤ maxSafeInteger) ∧ (0 < value ∧ value ≤ maxSafeInteger) ∧
        discount.valueError value = none := by
  have hbase : (base < 0 || !isSafeInteger base.toNat) = true ↔
      ¬(0 ≤ base ∧ base ≤ maxSafeInteger) := by
    simp only [isSafeInteger, Bool.or_eq_true, decide_eq_true_iff, Bool.not_eq_true',
      decide_eq_false_iff_not, Int.toNat_le]
    omega
  have hvalue : (value ≤ 0 || !isSafeInteger value.toNat) = true ↔
      ¬(0 < value ∧ value ≤ maxSafeInteger) := by
    simp only [isSafeInteger, Bool.or_eq_true, decide_eq_true_iff, Bool.not_eq_true',
      decide_eq_false_iff_not, Int.toNat_le]
    omega
  rw [validateBasePriceAndDiscount]
  split
  · rename_i h
    exact ⟨fun hn => absurd hn (Option.some_ne_none _), fun hv => absurd hv.1 (hbase.1 h)⟩
  · rename_i h
    split
    · rename_i h'
      exact ⟨fun hn => absurd hn (Option.some_ne_none _), fun hv => absurd hv.2.1 (hvalue.1 h')⟩
    · rename_i h'
      exact ⟨fun hn => ⟨not_not.1 (mt hbase.2 h), not_not.1 (mt hvalue.2 h'), hn⟩,
        fun hv => hv.2.2⟩

end EffectivePriceCalculator

namespace PromotionResolver

/-- The first of the results with the greatest priority. -/
def winner (results : List RuleResult) : Option RuleResult :=
  results.foldl
    (fun best result =>
      match best with
      | none => some result
      | some b => if result.priority > b.priority then some result else some b)
    none

def select (results : List RuleResult) : Option CandidateLevel :=
  (winner results).map RuleResult.level

end PromotionResolver

namespace ProductPricer

/-- A candidate with the price it gives, unless it cannot be priced. -/
def priced (row : SourceRow) (promotion : Option PromotionCandidate) :
    Option (PromotionCandidate × Int) :=
  promotion.bind fun p =>
    match EffectivePriceCalculator.calculate row.basePriceCents p with
    | .ok effectivePriceCents => some (p, effectivePriceCents)
    | .error _ => none

def facts (row : SourceRow) : CandidateFacts where
  category := row.category
  stockQuantity := row.stockQuantity
  basePriceCents := row.basePriceCents
  productPriceCents := (priced row row.productPromotion).map Prod.snd
  categoryPriceCents := (priced row row.categoryPromotion).map Prod.snd

def applied (row : SourceRow) (level : Option CandidateLevel) :
    Option (PromotionCandidate × Int) :=
  match level with
  | some .product => priced row row.productPromotion
  | some .category => priced row row.categoryPromotion
  | none => none

def price (row : SourceRow) (results : List RuleResult) : ProductEntry :=
  let applied := applied row (PromotionResolver.select results)
  { id := row.id
    sku := row.sku
    name := row.name
    category := row.category
    basePriceCents := row.basePriceCents
    effectivePriceCents := (applied.map Prod.snd).getD row.basePriceCents
    stockQuantity := row.stockQuantity
    promotionId := applied.map fun a => a.1.id
    promotionName := applied.map fun a => a.1.name
    pricingRulesVersion := row.pricingRulesVersion }

/-- An entry that `price` computes of a row, by what the engine may report about it. -/
def Prices (engine : PromotionEngine) (row : SourceRow) (entry : ProductEntry) : Prop :=
  ∃ results, engine (facts row) results ∧ price row results = entry

/-- An engine whose report is a function of the facts leaves one entry. -/
theorem Prices.unique {engine : PromotionEngine} (h : Prices engine row entry)
    (h' : Prices engine row entry')
    (hengine : ∀ facts results results', engine facts results → engine facts results' →
      results = results') : entry = entry' := by
  obtain ⟨results, hr, rfl⟩ := h
  obtain ⟨results', hr', rfl⟩ := h'
  rw [hengine _ _ _ hr hr']

end ProductPricer

end PromotionManagement
