import PromotionManagement.BasePrice
import PromotionManagement.ProductPricer

namespace PromotionManagement
set_option autoImplicit true

/-- The same columns of the same table as `PricingRuleRow`. -/
abbrev PromotionRuleRow := PricingRuleRow

/-- A rule as the engine holds it, with the level its event selects. -/
structure CandidateRule where
  name : String
  priority : Int
  conditions : Json
  level : CandidateLevel

/-- What the engine reports of a rule that matched. -/
def CandidateRule.result (rule : CandidateRule) : RuleResult := ⟨rule.priority, rule.level⟩

/-- `json-rules-engine`: `addRule` throws on a rule that it cannot compile, and a run may report
its results in several orders. -/
structure PromotionRulesEngine where
  addRule : CandidateRule → Except String Unit
  run : List CandidateRule → PromotionEngine

structure PromotionResolver where
  engine : PromotionEngine
  ruleIds : List Nat

/-- How an issue names the type of what it received. -/
def Json.received : Json → String
  | .null => "null"
  | .bool _ => "boolean"
  | .num _ => "number"
  | .str _ => "string"
  | .arr _ => "array"
  | .obj _ => "object"

namespace PromotionResolver

/-- The issue of an object that holds other keys than the schema's. -/
def unrecognizedKeys (known : List String) (fields : List (String × Json)) :
    Except String Unit :=
  match (fields.map Prod.fst).filter fun key => key ∉ known with
  | [] => .ok ()
  | [key] => .error ("Unrecognized key: \"" ++ key ++ "\"")
  | keys => .error ("Unrecognized keys: " ++
      ", ".intercalate (keys.map fun key => "\"" ++ key ++ "\""))

def levelOf : Option Json → Except String CandidateLevel
  | some (.str "product") => .ok .product
  | some (.str "category") => .ok .category
  | _ => .error "Invalid option: expected one of \"product\"|\"category\""

def paramsOf : Option Json → Except String CandidateLevel
  | some (.obj fields) => do
    let level ← levelOf (fields.lookup "level")
    unrecognizedKeys ["level"] fields
    return level
  | some params => .error ("Invalid input: expected object, received " ++ params.received)
  | none => .error "Invalid input: expected object, received undefined"

/-- `selectCandidateEvent.safeParse`, with the message of its first issue. -/
def selectCandidateEvent : Json → Except String CandidateLevel
  | .obj fields =>
    match fields.lookup "type" with
    | some (.str "selectCandidate") => do
      let level ← paramsOf (fields.lookup "params")
      unrecognizedKeys ["type", "params"] fields
      return level
    | _ => .error "Invalid input: expected \"selectCandidate\""
  | event => .error ("Invalid input: expected object, received " ++ event.received)

def toRule (row : PromotionRuleRow) : Except String CandidateRule :=
  let name := s!"promotion rule {row.id} (\"{row.name}\")"
  match selectCandidateEvent row.event with
  | .error message => .error s!"{name} has a malformed event: {message}"
  | .ok level => .ok { name, priority := row.priority, conditions := row.conditions, level }

def activePromotionRules (rows : List PromotionRuleRow) : List PromotionRuleRow :=
  (rows.filter fun row => row.active && row.type = .promotion).insertionSort
    BasePriceCalculator.rulePrecedes

/-- The loop that compiles each rule and adds it to the engine. -/
def addRules (engine : PromotionRulesEngine) :
    List PromotionRuleRow → Except String (List CandidateRule)
  | [] => .ok []
  | row :: rows => do
    let rule ← toRule row
    engine.addRule rule
    return rule :: (← addRules engine rows)

def fromRules (engine : PromotionRulesEngine) (rows : List PromotionRuleRow) :
    Except String PromotionResolver :=
  let active := activePromotionRules rows
  if active = [] then
    .error "no active promotion rules (none seeded, or every rule deactivated)"
  else do
    let rules ← addRules engine active
    return ⟨engine.run rules, active.map (·.id)⟩

/-- What `toRule` keeps of a row, in a rule that the engine accepted. -/
structure Added (engine : PromotionRulesEngine) (row : PromotionRuleRow) (rule : CandidateRule) :
    Prop where
  priority : rule.priority = row.priority
  conditions : rule.conditions = row.conditions
  level : selectCandidateEvent row.event = .ok rule.level
  accepted : engine.addRule rule = .ok ()

theorem addRules_added {engine : PromotionRulesEngine} (h : addRules engine rows = .ok rules) :
    List.Forall₂ (Added engine) rows rules := by
  induction rows generalizing rules with
  | nil =>
    cases h
    exact .nil
  | cons row rows ih =>
    rw [addRules] at h
    obtain ⟨rule, hrule, h⟩ := BasePriceCalculator.ok_of_bind h
    obtain ⟨_, haccepted, h⟩ := BasePriceCalculator.ok_of_bind h
    obtain ⟨rest, hrest, h⟩ := BasePriceCalculator.ok_of_bind h
    cases h
    refine .cons ?_ (ih hrest)
    unfold toRule at hrule
    split at hrule
    · cases hrule
    · rename_i level hlevel
      cases hrule
      exact ⟨rfl, rfl, hlevel, haccepted⟩

theorem fromRules_ok {engine : PromotionRulesEngine} (h : fromRules engine rows = .ok resolver) :
    ∃ rules, List.Forall₂ (Added engine) (activePromotionRules rows) rules ∧
      resolver = ⟨engine.run rules, (activePromotionRules rows).map (·.id)⟩ := by
  rw [fromRules] at h
  split at h
  · cases h
  · obtain ⟨rules, hrules, h⟩ := BasePriceCalculator.ok_of_bind h
    cases h
    exact ⟨rules, addRules_added hrules, rfl⟩

theorem activePromotionRules_perm (rows : List PromotionRuleRow) :
    (activePromotionRules rows).Perm
      (rows.filter fun row => row.active && row.type = .promotion) :=
  List.perm_insertionSort BasePriceCalculator.rulePrecedes _

end PromotionResolver

end PromotionManagement
