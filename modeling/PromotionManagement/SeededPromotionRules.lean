import PromotionManagement.PromotionResolver

namespace PromotionManagement
set_option autoImplicit true

/-- The columns that a seed of `pricing_rules` writes; a seeded rule is active. -/
structure PromotionRuleSeed where
  name : String
  conditions : Json
  event : Json
  priority : Int

namespace PromotionRuleSeed

def all (conditions : List Json) : Json := .obj [("all", .arr conditions)]

def condition (fact operator : String) (value : Json) : Json :=
  .obj [("fact", .str fact), ("operator", .str operator), ("value", value)]

def reference (fact : String) : Json := .obj [("fact", .str fact)]

def selectCandidate (level : String) : Json :=
  .obj [("type", .str "selectCandidate"), ("params", .obj [("level", .str level)])]

def productOnly : PromotionRuleSeed where
  name := "product-only"
  conditions := all [condition "productPriceCents" "notEqual" .null,
    condition "categoryPriceCents" "equal" .null]
  event := selectCandidate "product"
  priority := 30

def categoryOnly : PromotionRuleSeed where
  name := "category-only"
  conditions := all [condition "productPriceCents" "equal" .null,
    condition "categoryPriceCents" "notEqual" .null]
  event := selectCandidate "category"
  priority := 25

def lowerPriceProduct : PromotionRuleSeed where
  name := "lower-price-product"
  conditions := all [condition "productPriceCents" "notEqual" .null,
    condition "categoryPriceCents" "notEqual" .null,
    condition "productPriceCents" "lessThanInclusive" (reference "categoryPriceCents")]
  event := selectCandidate "product"
  priority := 20

def lowerPriceCategory : PromotionRuleSeed where
  name := "lower-price-category"
  conditions := all [condition "productPriceCents" "notEqual" .null,
    condition "categoryPriceCents" "notEqual" .null,
    condition "categoryPriceCents" "lessThan" (reference "productPriceCents")]
  event := selectCandidate "category"
  priority := 15

/-- The rules of migration 0006. -/
def seeded : List PromotionRuleSeed :=
  [productOnly, categoryOnly, lowerPriceProduct, lowerPriceCategory]

end PromotionRuleSeed

def PricingRuleRow.seed (row : PromotionRuleRow) : PromotionRuleSeed :=
  ⟨row.name, row.conditions, row.event, row.priority⟩

/-- The active promotion rules are the seeded ones, in any order. -/
def SeededPolicy (rows : List PromotionRuleRow) : Prop :=
  ((rows.filter fun row => row.active && row.type = .promotion).map PricingRuleRow.seed).Perm
    PromotionRuleSeed.seeded

/-- A price among the facts: null where the candidate is absent or cannot be priced. -/
def CandidateFacts.price (facts : CandidateFacts) : String → Option (Option Int)
  | "basePriceCents" => some (some facts.basePriceCents)
  | "productPriceCents" => some facts.productPriceCents
  | "categoryPriceCents" => some facts.categoryPriceCents
  | _ => none

namespace PromotionResolver
open PromotionRuleSeed

/-- What `json-rules-engine` documents of the operators that the seeded rules use. -/
structure EvaluatesConditions (holds : Json → CandidateFacts → Bool) : Prop where
  all : ∀ conditions facts, holds (all conditions) facts = true ↔
    ∀ c ∈ conditions, holds c facts = true
  equal : ∀ fact facts price, facts.price fact = some price →
    (holds (condition fact "equal" .null) facts = true ↔ price = none)
  notEqual : ∀ fact facts price, facts.price fact = some price →
    (holds (condition fact "notEqual" .null) facts = true ↔ price ≠ none)
  lessThanInclusive : ∀ fact other facts a b, facts.price fact = some (some a) →
    facts.price other = some (some b) →
    (holds (condition fact "lessThanInclusive" (reference other)) facts = true ↔ a ≤ b)
  lessThan : ∀ fact other facts a b, facts.price fact = some (some a) →
    facts.price other = some (some b) →
    (holds (condition fact "lessThan" (reference other)) facts = true ↔ a < b)

/-- `json-rules-engine` reports every rule whose conditions hold, in any order. -/
structure ReportsMatching (engine : PromotionRulesEngine) (holds : Json → CandidateFacts → Bool) :
    Prop where
  reports : ∀ rules, (∀ rule ∈ rules, engine.addRule rule = .ok ()) →
    ∀ facts, ∃ results, engine.run rules facts results = true
  matching : ∀ rules facts results, (∀ rule ∈ rules, engine.addRule rule = .ok ()) →
    engine.run rules facts results = true →
    results.Perm ((rules.filter fun rule => holds rule.conditions facts).map CandidateRule.result)

/-- The level of the cheaper candidate, the product's on a tie. -/
def cheaper : Option Int → Option Int → Option CandidateLevel
  | none, none => none
  | some _, none => some .product
  | none, some _ => some .category
  | some product, some category => if product ≤ category then some .product else some .category

theorem productOnly_holds (h : EvaluatesConditions holds) (facts : CandidateFacts) :
    holds productOnly.conditions facts = true ↔
      facts.productPriceCents ≠ none ∧ facts.categoryPriceCents = none := by
  rw [productOnly, h.all, List.forall_mem_cons, List.forall_mem_singleton,
    h.notEqual _ facts facts.productPriceCents rfl, h.equal _ facts facts.categoryPriceCents rfl]

theorem categoryOnly_holds (h : EvaluatesConditions holds) (facts : CandidateFacts) :
    holds categoryOnly.conditions facts = true ↔
      facts.productPriceCents = none ∧ facts.categoryPriceCents ≠ none := by
  rw [categoryOnly, h.all, List.forall_mem_cons, List.forall_mem_singleton,
    h.equal _ facts facts.productPriceCents rfl, h.notEqual _ facts facts.categoryPriceCents rfl]

theorem lowerPriceProduct_holds (h : EvaluatesConditions holds) (facts : CandidateFacts) :
    holds lowerPriceProduct.conditions facts = true ↔
      ∃ a b, facts.productPriceCents = some a ∧ facts.categoryPriceCents = some b ∧ a ≤ b := by
  have hcompare {a b : Int} (ha : facts.productPriceCents = some a)
      (hb : facts.categoryPriceCents = some b) :=
    h.lessThanInclusive "productPriceCents" "categoryPriceCents" facts a b (congrArg some ha)
      (congrArg some hb)
  rw [lowerPriceProduct, h.all, List.forall_mem_cons, List.forall_mem_cons,
    List.forall_mem_singleton, h.notEqual _ facts facts.productPriceCents rfl,
    h.notEqual _ facts facts.categoryPriceCents rfl, Option.ne_none_iff_exists',
    Option.ne_none_iff_exists']
  constructor
  · rintro ⟨⟨a, ha⟩, ⟨b, hb⟩, hle⟩
    exact ⟨a, b, ha, hb, (hcompare ha hb).1 hle⟩
  · rintro ⟨a, b, ha, hb, hle⟩
    exact ⟨⟨a, ha⟩, ⟨b, hb⟩, (hcompare ha hb).2 hle⟩

theorem lowerPriceCategory_holds (h : EvaluatesConditions holds) (facts : CandidateFacts) :
    holds lowerPriceCategory.conditions facts = true ↔
      ∃ a b, facts.productPriceCents = some a ∧ facts.categoryPriceCents = some b ∧ b < a := by
  have hcompare {a b : Int} (ha : facts.productPriceCents = some a)
      (hb : facts.categoryPriceCents = some b) :=
    h.lessThan "categoryPriceCents" "productPriceCents" facts b a (congrArg some hb)
      (congrArg some ha)
  rw [lowerPriceCategory, h.all, List.forall_mem_cons, List.forall_mem_cons,
    List.forall_mem_singleton, h.notEqual _ facts facts.productPriceCents rfl,
    h.notEqual _ facts facts.categoryPriceCents rfl, Option.ne_none_iff_exists',
    Option.ne_none_iff_exists']
  constructor
  · rintro ⟨⟨a, ha⟩, ⟨b, hb⟩, hlt⟩
    exact ⟨a, b, ha, hb, (hcompare ha hb).1 hlt⟩
  · rintro ⟨a, b, ha, hb, hlt⟩
    exact ⟨⟨a, ha⟩, ⟨b, hb⟩, (hcompare ha hb).2 hlt⟩

/-- The conditions of a seed, and what the engine reports of it. -/
def reported (seed : PromotionRuleSeed) : Option (Json × RuleResult) :=
  match selectCandidateEvent seed.event with
  | .ok level => some (seed.conditions, ⟨seed.priority, level⟩)
  | .error _ => none

theorem seeded_reported : seeded.filterMap reported =
    [(productOnly.conditions, ⟨30, .product⟩), (categoryOnly.conditions, ⟨25, .category⟩),
      (lowerPriceProduct.conditions, ⟨20, .product⟩),
      (lowerPriceCategory.conditions, ⟨15, .category⟩)] := rfl

/-- No two of the seeded rules hold together, and one of them does when there is a candidate. -/
theorem seeded_matching (h : EvaluatesConditions holds) (facts : CandidateFacts) :
    ∃ priority, ((seeded.filterMap reported).filter fun r => holds r.1 facts).map Prod.snd =
      (cheaper facts.productPriceCents facts.categoryPriceCents).toList.map
        fun level => ⟨priority, level⟩ := by
  have h30 := productOnly_holds h facts
  have h25 := categoryOnly_holds h facts
  have h20 := lowerPriceProduct_holds h facts
  have h15 := lowerPriceCategory_holds h facts
  rw [seeded_reported]
  cases hp : facts.productPriceCents with
  | none =>
    cases hc : facts.categoryPriceCents with
    | none => exact ⟨0, by simp [hp, hc, cheaper, h30, h25, h20, h15]⟩
    | some b => exact ⟨25, by simp [hp, hc, cheaper, h30, h25, h20, h15]⟩
  | some a =>
    cases hc : facts.categoryPriceCents with
    | none => exact ⟨30, by simp [hp, hc, cheaper, h30, h25, h20, h15]⟩
    | some b =>
      rcases le_or_gt a b with hle | hlt
      · have hn : ¬b < a := Int.not_lt.2 hle
        exact ⟨20, by simp [hp, hc, cheaper, h30, h25, h20, h15, hle, hn]⟩
      · have hn : ¬a ≤ b := Int.not_le.2 hlt
        exact ⟨15, by simp [hp, hc, cheaper, h30, h25, h20, h15, hlt, hn]⟩

theorem added_reported {engine : PromotionRulesEngine}
    (h : List.Forall₂ (Added engine) rows rules) :
    (rows.map PricingRuleRow.seed).filterMap reported =
      rules.map fun rule => (rule.conditions, rule.result) := by
  induction h with
  | nil => rfl
  | @cons row rule _ _ hadded _ ih =>
    have hrow : reported row.seed = some (rule.conditions, rule.result) := by
      rw [reported, PricingRuleRow.seed]
      dsimp only
      rw [hadded.level, CandidateRule.result, hadded.conditions, hadded.priority]
    rw [List.map_cons, List.filterMap_cons, hrow, ih, List.map_cons]

/-- The seeded policy selects the cheaper candidate, whatever the order of the results. -/
theorem select_seeded {engine : PromotionRulesEngine} (hholds : EvaluatesConditions holds)
    (hengine : ReportsMatching engine holds) (hload : fromRules engine rows = .ok resolver)
    (hrows : SeededPolicy rows) (facts : CandidateFacts) :
    (∃ results, resolver.engine facts results = true) ∧
      ∀ results, resolver.engine facts results = true →
        select results = cheaper facts.productPriceCents facts.categoryPriceCents := by
  obtain ⟨rules, hadded, rfl⟩ := fromRules_ok hload
  have haccepted : ∀ rule ∈ rules, engine.addRule rule = .ok () :=
    ((List.forall₂_and_left rules _).1 (hadded.flip.imp fun _ _ h => ⟨h.accepted, h⟩)).1
  refine ⟨hengine.reports rules haccepted facts, fun results hresults => ?_⟩
  have hmatching := hengine.matching rules facts results haccepted hresults
  have hseeds : (rules.map fun rule => (rule.conditions, rule.result)).Perm
      (seeded.filterMap reported) := by
    rw [← added_reported hadded]
    exact (((activePromotionRules_perm rows).map _).trans hrows).filterMap reported
  obtain ⟨priority, hlist⟩ := seeded_matching hholds facts
  have hresult : results.Perm ((cheaper facts.productPriceCents facts.categoryPriceCents).toList.map
      fun level => ⟨priority, level⟩) := by
    rw [← hlist]
    refine hmatching.trans ?_
    have := (hseeds.filter fun r => holds r.1 facts).map Prod.snd
    rw [List.filter_map, List.map_map] at this
    exact this
  cases hlevel : cheaper facts.productPriceCents facts.categoryPriceCents with
  | none =>
    rw [hlevel] at hresult
    rw [hresult.eq_nil]
    rfl
  | some level =>
    rw [hlevel] at hresult
    rw [List.perm_singleton.1 hresult]
    rfl

mutual

/-- The documented meaning of the conditions that the seeded rules use. The priority that a
condition may carry decides when it is evaluated and not what it says. -/
def evaluate (facts : CandidateFacts) : Json → Bool
  | .obj [("all", .arr conditions)] => evaluateAll facts conditions
  | .obj (("fact", .str fact) :: ("operator", .str operator) :: ("value", value) :: _) =>
    match facts.price fact, operator, value with
    | some price, "equal", .null => price = none
    | some price, "notEqual", .null => price ≠ none
    | some (some a), "lessThanInclusive", .obj [("fact", .str other)] =>
      (facts.price other).join.any fun b => a ≤ b
    | some (some a), "lessThan", .obj [("fact", .str other)] =>
      (facts.price other).join.any fun b => a < b
    | _, _, _ => false
  | _ => false

def evaluateAll (facts : CandidateFacts) : List Json → Bool
  | [] => true
  | condition :: conditions => evaluate facts condition && evaluateAll facts conditions

end

theorem evaluateAll_iff (facts : CandidateFacts) (conditions : List Json) :
    evaluateAll facts conditions = true ↔ ∀ c ∈ conditions, evaluate facts c = true := by
  induction conditions with
  | nil => simp [evaluateAll]
  | cons condition conditions ih =>
    rw [evaluateAll, Bool.and_eq_true, ih, List.forall_mem_cons]

theorem evaluatesConditions_evaluate :
    EvaluatesConditions fun conditions facts => evaluate facts conditions where
  all conditions facts := by
    rw [PromotionRuleSeed.all, evaluate]
    exact evaluateAll_iff facts conditions
  equal fact facts price h := by simp [condition, evaluate, h]
  notEqual fact facts price h := by simp [condition, evaluate, h]
  lessThanInclusive fact other facts a b ha hb := by
    simp [condition, reference, evaluate, ha, hb]
  lessThan fact other facts a b ha hb := by
    simp [condition, reference, evaluate, ha, hb]

/-- An engine that accepts every rule and reports the rules that match in their order. -/
def reportingEngine : PromotionRulesEngine where
  addRule _ := .ok ()
  run rules facts results :=
    results = (rules.filter fun rule => evaluate facts rule.conditions).map CandidateRule.result

theorem reportsMatching_reportingEngine :
    ReportsMatching reportingEngine fun conditions facts => evaluate facts conditions where
  reports _ _ _ := ⟨_, decide_eq_true rfl⟩
  matching _ _ _ _ h := .of_eq (of_decide_eq_true h)

/-- The row of a seed, as the table holds it. -/
def seededRow (id : Nat) (seed : PromotionRuleSeed) : PromotionRuleRow where
  id
  type := .promotion
  name := seed.name
  conditions := seed.conditions
  event := seed.event
  priority := seed.priority
  active := true
  updatedAt := ⟨1757808000000, by decide⟩

/-- The tables of the ingestion layer and of the seeded policy, read in no order of theirs. -/
def seededTable : List PromotionRuleRow :=
  [seededRow 7 lowerPriceCategory, commissionRule, seededRow 6 lowerPriceProduct,
    seededRow 5 categoryOnly, seededRow 4 productOnly]

theorem seededPolicy_table : SeededPolicy seededTable := List.reverse_perm seeded

end PromotionResolver

end PromotionManagement
