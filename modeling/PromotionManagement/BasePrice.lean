import PromotionManagement.StorableRow

namespace PromotionManagement
set_option autoImplicit true

/-- An exact price in cents. -/
def InRange (cents : Int) : Prop := 0 ≤ cents ∧ cents ≤ maxSafeInteger

/-- An adjustment in exact integers, a percentage rounded down. -/
def AdjustmentEvent.exact (cents : Int) : AdjustmentEvent → Int
  | .adjustCents value => cents + value
  | .adjustPercentBps value => (cents * (10000 + value)) / 10000

/-- What a rule makes of a price. -/
def PricingRuleRow.adjust (cents : Int) (rule : PricingRuleRow) : Int :=
  match BasePriceCalculator.adjustmentEvent rule.event with
  | some event => event.exact cents
  | none => cents

/-- The price after rules have applied one after another. -/
def priceAfter (cents : Int) (rules : List PricingRuleRow) : Int :=
  rules.foldl PricingRuleRow.adjust cents

/-- The name under which a rule is compiled and reported. -/
def PricingRuleRow.where_ (rule : PricingRuleRow) : String :=
  s!"pricing rule {rule.id} (\"{rule.name}\")"

/-- An active rule of the ingestion layer. -/
def PricingRuleRow.applies (rule : PricingRuleRow) : Bool := rule.active && rule.type = .ingestion

/-- By priority descending, then by id ascending. -/
def PricingRuleRow.Before (a b : PricingRuleRow) : Prop :=
  b.priority < a.priority ∨ a.priority = b.priority ∧ a.id < b.id

/-- A vendor row that `calculate` prices, its category trimmed. -/
structure ValidRow (row : VendorRowFacts) : Prop where
  category : row.category.trim ≠ []
  price : InRange row.vendorPriceCents
  stock : 0 ≤ row.stockQuantity ∧ row.stockQuantity ≤ maxSafeInteger

def VendorRowFacts.trimmed (row : VendorRowFacts) : VendorRowFacts :=
  { row with category := row.category.trim }

namespace BasePriceCalculator

/-- A rule that the engine has run on the probe row. -/
def Probed (engine : RulesEngine) (rule : RuleProperties) : Prop :=
  ∃ results, engine [{ rule with conditions := withoutPriorities rule.conditions }] probeRow =
    .ok results

/-- `json-rules-engine` reports exactly the rules whose conditions hold of a row, in descending
order of distinct priorities. -/
def ReportsByPriority (engine : RulesEngine) (fires : Json → VendorRowFacts → Bool) : Prop :=
  ∀ rules, (∀ rule ∈ rules, Probed engine rule) → (rules.map RuleProperties.priority).Nodup →
    ∀ facts, ∃ results, engine rules facts = .ok results ∧
      results.Perm (rules.filter fun rule => fires rule.conditions facts) ∧
      results.Pairwise fun a b => b.priority < a.priority

/-- What `toRule` keeps of a row. -/
structure Compiled (engine : RulesEngine) (row : PricingRuleRow) (rule : RuleProperties) :
    Prop where
  name : rule.name = row.where_
  conditions : rule.conditions = row.conditions
  event : adjustmentEvent row.event = some rule.event
  probed : Probed engine rule

theorem toRule_compiled {engine : RulesEngine} (h : toRule engine row priority = .ok rule) :
    Compiled engine row rule ∧ rule.priority = priority := by
  rw [toRule] at h
  dsimp only at h
  split at h
  · cases h
  · rename_i event hevent
    split at h
    · cases h
    · split at h
      · cases h
      · rename_i results hprobe
        cases h
        exact ⟨⟨rfl, rfl, hevent, results, hprobe⟩, rfl⟩

/-- The rules of the engine are the rows in their order, with descending priorities. -/
theorem compileRules_compiled {engine : RulesEngine} (h : compileRules engine rows = .ok rules) :
    List.Forall₂ (Compiled engine) rows rules ∧
      (∀ rule ∈ rules, rule.priority ≤ rows.length) ∧
      rules.Pairwise fun a b => b.priority < a.priority := by
  induction rows generalizing rules with
  | nil =>
    cases h
    exact ⟨.nil, fun rule hr => absurd hr List.not_mem_nil, .nil⟩
  | cons row rows ih =>
    rw [compileRules] at h
    obtain ⟨rule, hrule, h⟩ := ok_of_bind h
    obtain ⟨rest, hrest, h⟩ := ok_of_bind h
    cases h
    obtain ⟨hcompiled, hpriority⟩ := toRule_compiled hrule
    obtain ⟨hrows, hle, hpairwise⟩ := ih hrest
    refine ⟨.cons hcompiled hrows, ?_, ?_⟩
    · rw [List.forall_mem_cons, hpriority, List.length_cons]
      refine ⟨Int.le_refl _, fun rule' hr => ?_⟩
      have := hle rule' hr
      omega
    · rw [List.pairwise_cons]
      refine ⟨fun rule' hr => ?_, hpairwise⟩
      have := hle rule' hr
      omega

theorem adjustmentValue_ge (h : adjustmentValue (some least) params = some value) :
    least ≤ value := by
  unfold adjustmentValue at h
  split at h
  · split at h
    · rename_i hq
      cases h
      exact hq.2.2 least rfl
    · cases h
  · cases h

theorem adjustmentOf_ge (h : adjustmentOf type params = some (.adjustPercentBps value)) :
    -10000 ≤ value := by
  rw [adjustmentOf] at h
  split at h
  · obtain ⟨v, hv, he⟩ := Option.map_eq_some_iff.1 h
    cases he
    exact adjustmentValue_ge hv
  · split at h
    · obtain ⟨v, _, he⟩ := Option.map_eq_some_iff.1 h
      cases he
    · cases h

theorem adjustmentEvent_ge (h : adjustmentEvent event = some (.adjustPercentBps value)) :
    -10000 ≤ value := by
  unfold adjustmentEvent at h
  split at h
  · exact adjustmentOf_ge h
  · exact adjustmentOf_ge h
  · cases h

/-- Neither factor of a percentage is negative, where truncating is rounding down. -/
theorem apply_exact (h : adjustmentEvent event = some adjustment) (hc : 0 ≤ cents) :
    adjustment.apply cents = adjustment.exact cents := by
  cases adjustment with
  | adjustCents value => rfl
  | adjustPercentBps value =>
    have hv := adjustmentEvent_ge h
    have hprod : 0 ≤ cents * (10000 + value) := Int.mul_nonneg hc (by omega)
    exact Int.tdiv_eq_ediv_of_nonneg hprod

theorem priceOutOfRange_of_inRange (h : InRange cents) (rejectedBy : String) :
    priceOutOfRange cents rejectedBy = none := by
  rw [priceOutOfRange, if_neg (Int.not_lt.2 h.1), if_neg (Int.not_lt.2 h.2)]

theorem priceOutOfRange_of_not (h : ¬InRange cents) (rejectedBy : String) :
    ∃ reason, priceOutOfRange cents rejectedBy =
      some (.rejected .row (some rejectedBy) reason) := by
  rw [priceOutOfRange]
  split
  · exact ⟨_, rfl⟩
  · rename_i hlow
    split
    · exact ⟨_, rfl⟩
    · rename_i hhigh
      exact absurd ⟨Int.not_lt.1 hlow, Int.not_lt.1 hhigh⟩ h

/-- One turn of the loop, over a rule that was compiled from a row. -/
theorem applyResults_cons {engine : RulesEngine} (hc : Compiled engine row rule)
    (hstart : 0 ≤ cents) (version : Int) (results : List RuleProperties) :
    (InRange (row.adjust cents) → applyResults version cents (rule :: results) =
      applyResults version (row.adjust cents) results) ∧
    (¬InRange (row.adjust cents) → ∃ reason, applyResults version cents (rule :: results) =
      .rejected .row (some row.where_) reason) := by
  have hadjust : row.adjust cents = rule.event.apply cents := by
    rw [apply_exact hc.event hstart, PricingRuleRow.adjust, hc.event]
  rw [applyResults, ← hadjust, hc.name]
  constructor
  · intro hin
    rw [priceOutOfRange_of_inRange hin]
  · intro hout
    obtain ⟨reason, hr⟩ := priceOutOfRange_of_not hout row.where_
    rw [hr]
    exact ⟨reason, rfl⟩

/-- The loop gives the folded price when every price on the way is exact. -/
theorem applyResults_fold {engine : RulesEngine} (h : List.Forall₂ (Compiled engine) rows results)
    (hin : ∀ n, InRange (priceAfter cents (rows.take n))) (version : Int) :
    applyResults version cents results = .priced (priceAfter cents rows) version := by
  induction h generalizing cents with
  | nil => rfl
  | @cons row _ _ _ hc _ ih =>
    have hstart : InRange cents := hin 0
    have hnext : InRange (row.adjust cents) := hin 1
    rw [(applyResults_cons hc hstart.1 version _).1 hnext]
    exact ih fun n => hin (n + 1)

/-- The loop rejects the row for the first rule that leaves the range. -/
theorem applyResults_rejects {engine : RulesEngine}
    (h : List.Forall₂ (Compiled engine) (before ++ rule :: after) results)
    (hin : ∀ n, InRange (priceAfter cents (before.take n)))
    (hout : ¬InRange (priceAfter cents (before ++ [rule]))) (version : Int) :
    ∃ reason, applyResults version cents results =
      .rejected .row (some rule.where_) reason := by
  have hstart : InRange cents := hin 0
  induction before generalizing cents results with
  | nil =>
    cases h with
    | cons hc _ => exact (applyResults_cons hc hstart.1 version _).2 hout
  | cons row before ih =>
    have hnext : InRange (row.adjust cents) := hin 1
    cases h with
    | cons hc hrest =>
      rw [(applyResults_cons hc hstart.1 version _).1 hnext]
      exact ih hrest (fun n => hin (n + 1)) hout hnext

theorem inRange_take_cons (h : InRange cents)
    (hin : ∀ n, InRange (priceAfter (row.adjust cents) (rows.take n))) :
    ∀ n, InRange (priceAfter cents ((row :: rows).take n)) := by
  intro n
  cases n with
  | zero => exact h
  | succ n => exact hin n

/-- The prices on the way stay exact, or a first rule takes them out of range. -/
theorem inRange_or_leaves (rows : List PricingRuleRow) (h : InRange cents) :
    (∀ n, InRange (priceAfter cents (rows.take n))) ∨
      ∃ before rule after, rows = before ++ rule :: after ∧
        (∀ n, InRange (priceAfter cents (before.take n))) ∧
        ¬InRange (priceAfter cents (before ++ [rule])) := by
  induction rows generalizing cents with
  | nil =>
    left
    intro n
    rw [List.take_nil]
    exact h
  | cons row rows ih =>
    by_cases hnext : InRange (row.adjust cents)
    · rcases ih hnext with hin | ⟨before, rule, after, hsplit, hin, hout⟩
      · exact .inl (inRange_take_cons h hin)
      · exact .inr ⟨row :: before, rule, after, by rw [hsplit, List.cons_append],
          inRange_take_cons h hin, hout⟩
    · refine .inr ⟨[], row, rows, rfl, fun n => ?_, hnext⟩
      rw [List.take_nil]
      exact h

theorem applyResults_priced_iff {engine : RulesEngine}
    (h : List.Forall₂ (Compiled engine) rows results) (hstart : InRange start) (version : Int) :
    applyResults version start results = .priced cents version' ↔
      (∀ n, InRange (priceAfter start (rows.take n))) ∧ cents = priceAfter start rows ∧
        version' = version := by
  constructor
  · intro hpriced
    rcases inRange_or_leaves rows hstart with hin | ⟨before, rule, after, hsplit, hin, hout⟩
    · rw [applyResults_fold h hin] at hpriced
      cases hpriced
      exact ⟨hin, rfl, rfl⟩
    · obtain ⟨reason, hr⟩ := applyResults_rejects (hsplit ▸ h) hin hout version
      rw [hr] at hpriced
      cases hpriced
  · rintro ⟨hin, rfl, rfl⟩
    exact applyResults_fold h hin _

theorem before_asymm {a b : PricingRuleRow} (h : a.Before b) : ¬b.Before a := by
  intro h'
  rcases h with h | h
  · rcases h' with h' | h' <;> omega
  · rcases h' with h' | h' <;> omega

/-- One order of a list is by `Before`. -/
theorem eq_of_before {as bs : List PricingRuleRow} (h : as.Perm bs)
    (ha : as.Pairwise PricingRuleRow.Before) (hb : bs.Pairwise PricingRuleRow.Before) : as = bs :=
  h.eq_of_pairwise (fun _ _ _ _ hab hba => absurd hba (before_asymm hab)) ha hb

instance : IsTrans PricingRuleRow rulePrecedes where
  trans a b c hab hbc := by
    rcases hab with hab | hab
    · left
      rcases hbc with hbc | hbc <;> omega
    · rcases hbc with hbc | hbc
      · left
        omega
      · right
        omega

instance : Std.Total rulePrecedes where
  total a b := by
    rcases Int.lt_trichotomy a.priority b.priority with h | h | h
    · exact .inr (.inl h)
    · rcases Nat.le_total a.id b.id with hid | hid
      · exact .inl (.inr ⟨h, hid⟩)
      · exact .inr (.inr ⟨h.symm, hid⟩)
    · exact .inl (.inl h)

theorem activeIngestionRules_perm (rows : List PricingRuleRow) :
    (activeIngestionRules rows).Perm (rows.filter PricingRuleRow.applies) :=
  List.perm_insertionSort rulePrecedes _

theorem activeIngestionRules_before (h : (rows.map PricingRuleRow.id).Nodup) :
    (activeIngestionRules rows).Pairwise PricingRuleRow.Before := by
  have hsorted := List.pairwise_insertionSort rulePrecedes
    (rows.filter fun row => row.active && row.type = .ingestion)
  have hfilter : ((rows.filter PricingRuleRow.applies).map PricingRuleRow.id).Nodup :=
    h.sublist (List.filter_sublist.map _)
  have hdistinct : (activeIngestionRules rows).Pairwise fun a b => a.id ≠ b.id :=
    List.pairwise_map.1 (((activeIngestionRules_perm rows).map _).nodup_iff.2 hfilter)
  refine (hsorted.and hdistinct).imp fun {a b} hab => ?_
  rcases hab.1 with hlt | ⟨heq, hle⟩
  · exact .inl hlt
  · exact .inr ⟨heq, Nat.lt_of_le_of_ne hle hab.2⟩

/-- Only the active ingestion rules count, in whatever order they are given. -/
theorem fromRules_congr (h : (rows.map PricingRuleRow.id).Nodup)
    (h' : (rows'.map PricingRuleRow.id).Nodup)
    (hp : (rows'.filter PricingRuleRow.applies).Perm (rows.filter PricingRuleRow.applies))
    (engine : RulesEngine) : fromRules engine rows' = fromRules engine rows := by
  have hactive : (activeIngestionRules rows').Perm (activeIngestionRules rows) :=
    (activeIngestionRules_perm rows').trans (hp.trans (activeIngestionRules_perm rows).symm)
  rw [fromRules, eq_of_before hactive (activeIngestionRules_before h')
    (activeIngestionRules_before h), fromRules]

theorem vendorRowFacts_valid (h : ValidRow row) : vendorRowFacts row = .ok row.trimmed := by
  have hwhole {n : Int} (hn : 0 ≤ n ∧ n ≤ maxSafeInteger) : wholeNumberIssue n = none := by
    rw [wholeNumberIssue, if_neg (Int.not_lt.2 hn.2), if_neg (by omega), if_neg (Int.not_lt.2 hn.1)]
  rw [vendorRowFacts, if_neg h.category, hwhole h.price, hwhole h.stock]
  rfl

/-- The engine reports the matching rules in the order of the rows. -/
theorem calculate_results {engine : RulesEngine} (hengine : ReportsByPriority engine fires)
    (hc : fromRules engine rows = .ok c) (hrow : ValidRow row) :
    ∃ results, List.Forall₂ (Compiled engine)
        ((activeIngestionRules rows).filter fun rule => fires rule.conditions row.trimmed) results ∧
      c.calculate row = applyResults c.pricingRulesVersion row.vendorPriceCents results := by
  obtain ⟨_, rules, hrules, rfl⟩ := fromRules_ok hc
  obtain ⟨hcompiled, _, hpriorities⟩ := compileRules_compiled hrules
  have hprobed : ∀ rule ∈ rules, Probed engine rule :=
    ((List.forall₂_and_left rules _).1 (hcompiled.flip.imp fun _ _ h => ⟨h.probed, h⟩)).1
  have hnodup : (rules.map RuleProperties.priority).Nodup :=
    List.pairwise_map.2 (hpriorities.imp fun h => (Int.ne_of_lt h).symm)
  obtain ⟨results, hresults, hperm, hdesc⟩ := hengine rules hprobed hnodup row.trimmed
  have heq : results = rules.filter fun rule => fires rule.conditions row.trimmed :=
    hperm.eq_of_pairwise (fun _ _ _ _ hab hba => absurd hba (Int.lt_asymm hab)) hdesc
      (hpriorities.filter _)
  refine ⟨results, ?_, ?_⟩
  · rw [heq]
    refine List.rel_filter ?_ hcompiled
    intro row' rule hr
    dsimp only
    rw [hr.conditions]
  · rw [calculate, vendorRowFacts_valid hrow]
    dsimp only
    rw [hresults]
    rfl

/-- `calculate` folds the matching rules exactly, and names the first that leaves the range. -/
theorem calculate_exact {engine : RulesEngine} (hengine : ReportsByPriority engine fires)
    (hids : (rows.map PricingRuleRow.id).Nodup) (hc : fromRules engine rows = .ok c)
    (hrow : ValidRow row) :
    ∃ matched : List PricingRuleRow,
      matched.Perm (rows.filter fun rule => rule.applies && fires rule.conditions row.trimmed) ∧
      matched.Pairwise PricingRuleRow.Before ∧
      (∀ cents version, c.calculate row = .priced cents version ↔
        (∀ n, InRange (priceAfter row.vendorPriceCents (matched.take n))) ∧
          cents = priceAfter row.vendorPriceCents matched ∧ version = c.pricingRulesVersion) ∧
      (∀ before rule after, matched = before ++ rule :: after →
        (∀ n, InRange (priceAfter row.vendorPriceCents (before.take n))) →
        ¬InRange (priceAfter row.vendorPriceCents (before ++ [rule])) →
        ∃ reason, c.calculate row = .rejected .row (some rule.where_) reason) ∧
      ∀ rows', (rows'.map PricingRuleRow.id).Nodup →
        (rows'.filter PricingRuleRow.applies).Perm (rows.filter PricingRuleRow.applies) →
        fromRules engine rows' = .ok c := by
  obtain ⟨results, hresults, hcalculate⟩ := calculate_results hengine hc hrow
  refine ⟨(activeIngestionRules rows).filter fun rule => fires rule.conditions row.trimmed,
    ?_, (activeIngestionRules_before hids).filter _, ?_, ?_, ?_⟩
  · have hperm := (activeIngestionRules_perm rows).filter fun rule =>
      fires rule.conditions row.trimmed
    rw [List.filter_filter] at hperm
    exact hperm.trans (.of_eq (List.filter_congr fun rule _ => Bool.and_comm _ _))
  · intro cents version
    rw [hcalculate]
    exact applyResults_priced_iff hresults hrow.price _
  · intro before rule after hsplit hin hout
    rw [hcalculate]
    exact applyResults_rejects (hsplit ▸ hresults) hin hout _
  · intro rows' hids' hp
    rw [← hc]
    exact fromRules_congr hids hids' hp engine

/-- An engine that reports the rules that fire by descending priority. -/
def firingByPriority (fires : Json → VendorRowFacts → Bool) : RulesEngine := fun rules facts =>
  .ok ((rules.filter fun rule => fires rule.conditions facts).insertionSort
    fun a b => b.priority ≤ a.priority)

theorem reportsByPriority_firing (fires : Json → VendorRowFacts → Bool) :
    ReportsByPriority (firingByPriority fires) fires := by
  intro rules _ hnodup facts
  have hperm := List.perm_insertionSort (fun a b : RuleProperties => b.priority ≤ a.priority)
    (rules.filter fun rule => fires rule.conditions facts)
  refine ⟨_, rfl, hperm, ?_⟩
  have : IsTrans RuleProperties fun a b => b.priority ≤ a.priority :=
    ⟨fun a b c hab hbc => Int.le_trans hbc hab⟩
  have : Std.Total fun a b : RuleProperties => b.priority ≤ a.priority :=
    ⟨fun a b => Int.le_total _ _⟩
  have hsorted := List.pairwise_insertionSort
    (fun a b : RuleProperties => b.priority ≤ a.priority)
    (rules.filter fun rule => fires rule.conditions facts)
  have hdistinct := List.pairwise_map.1
    ((hperm.map RuleProperties.priority).nodup_iff.2 (hnodup.sublist (List.filter_sublist.map _)))
  exact (hsorted.and hdistinct).imp fun h => lt_of_le_of_ne h.1 h.2.symm

/-- The conditions of the seeded ingestion rules. -/
def seededConditionFires (conditions : Json) (facts : VendorRowFacts) : Bool :=
  match conditions with
  | .obj [("all", .arr [.obj [("fact", .str fact), ("operator", .str operator),
      ("value", .str value)]])] =>
    fact = "category" ∧ operator = "equal" ∧ facts.category = value.toList
  | .obj [("all", .arr [.obj [("fact", .str fact), ("operator", .str operator),
      ("value", .num value)]])] =>
    fact = "stockQuantity" ∧ operator = "greaterThan" ∧ value < facts.stockQuantity ∨
      fact = "vendorPriceCents" ∧ operator = "greaterThanInclusive" ∧
        value ≤ facts.vendorPriceCents
  | _ => false

def markupRule : PricingRuleRow where
  id := 1
  type := .ingestion
  name := "electronics category markup"
  conditions := .obj [("all", .arr [.obj [("fact", .str "category"), ("operator", .str "equal"),
    ("value", .str "Electronics")]])]
  event := .obj [("type", .str "adjustPercentBps"), ("params", .obj [("value", .num 1500)])]
  priority := 30
  active := true
  updatedAt := commissionRule.updatedAt

def bulkDiscountRule : PricingRuleRow where
  id := 2
  type := .ingestion
  name := "bulk stock discount"
  conditions := .obj [("all", .arr [.obj [("fact", .str "stockQuantity"),
    ("operator", .str "greaterThan"), ("value", .num 100)]])]
  event := .obj [("type", .str "adjustPercentBps"), ("params", .obj [("value", .num (-300))])]
  priority := 20
  active := true
  updatedAt := commissionRule.updatedAt

def seededRules : List PricingRuleRow := [commissionRule, markupRule, bulkDiscountRule]

def bulkElectronics : VendorRowFacts := ⟨"Electronics ".toList, 3333, 150⟩

/-- 33.33 plus 15%, less 3%, plus 5%, rounded down to the cent at each rule. -/
theorem calculate_exact_seeded : ∃ c,
    fromRules (firingByPriority seededConditionFires) seededRules = .ok c ∧
      c.calculate bulkElectronics = .priced 3902 1757635200000 := by
  have hids : (seededRules.map PricingRuleRow.id).Nodup := by decide
  have hrow : ValidRow bulkElectronics :=
    ⟨by decide, by unfold InRange; decide, by decide⟩
  refine ⟨_, rfl, ?_⟩
  obtain ⟨matched, hperm, hbefore, hpriced, _⟩ :=
    calculate_exact (reportsByPriority_firing seededConditionFires) hids rfl hrow
  have hmatched : matched = [markupRule, bulkDiscountRule, commissionRule] := by
    refine eq_of_before (hperm.trans (List.perm_append_singleton commissionRule
      [markupRule, bulkDiscountRule]).symm) hbefore ?_
    simp [PricingRuleRow.Before, markupRule, bulkDiscountRule, commissionRule]
  rw [hpriced, hmatched]
  refine ⟨fun n => ?_, by decide +kernel, rfl⟩
  unfold InRange
  match n with
  | 0 => decide +kernel
  | 1 => decide +kernel
  | 2 => decide +kernel
  | n + 3 =>
    rw [List.take_of_length_le (Nat.le_add_left 3 n)]
    decide +kernel

end BasePriceCalculator

end PromotionManagement
