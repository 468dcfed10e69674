import PromotionManagement.Text
import Mathlib.Data.List.Sort
import Mathlib.Data.Rat.Defs

namespace PromotionManagement
set_option autoImplicit true

/-- A `jsonb` value. -/
inductive Json
  | null
  | bool (b : Bool)
  | num (q : Rat)
  | str (s : String)
  | arr (items : List Json)
  | obj (fields : List (String × Json))

/-- A JavaScript `Date`: epoch milliseconds, at most 8.64e15 from the epoch either way. -/
structure JsDate where
  time : Int
  bounded : time.natAbs ≤ 8640000000000000

inductive RuleType
  | ingestion
  | promotion
deriving DecidableEq, Repr

structure PricingRuleRow where
  id : Nat
  type : RuleType
  name : String
  conditions : Json
  event : Json
  priority : Int
  active : Bool
  updatedAt : JsDate

inductive AdjustmentEvent
  | adjustPercentBps (value : Int)
  | adjustCents (value : Int)
deriving DecidableEq, Repr

structure VendorRowFacts where
  category : Text
  vendorPriceCents : Int
  stockQuantity : Int
deriving DecidableEq, Repr

inductive Fault
  | row
  | rules
deriving DecidableEq, Repr

/-- `rejectedBy` is null exactly when the vendor price itself was unusable. -/
inductive PricingOutcome
  | priced (basePriceCents : Int) (pricingRulesVersion : Int)
  | rejected (fault : Fault) (rejectedBy : Option String) (reason : String)
deriving DecidableEq, Repr

/-- A rule as the engine holds it, and as the engine reports it once it has fired. -/
structure RuleProperties where
  name : String
  priority : Int
  conditions : Json
  event : AdjustmentEvent

/-- `json-rules-engine`: the rules that fire on a row, in the order it reports them. -/
abbrev RulesEngine := List RuleProperties → VendorRowFacts → Except String (List RuleProperties)

structure BasePriceCalculator where
  engine : VendorRowFacts → Except String (List RuleProperties)
  ruleIds : List Nat
  pricingRulesVersion : Int

/-- The first issue of `z.number().int().min(0)`, whose `int` allows safe integers only. -/
def wholeNumberIssue (n : Int) : Option String :=
  if maxSafeInteger < n then some "Too big: expected int to be <=9007199254740991"
  else if n < -maxSafeInteger then some "Too small: expected int to be >=-9007199254740991"
  else if n < 0 then some "Too small: expected number to be >=0"
  else none

/-- `vendorRowFacts.safeParse`, with the field path and message of its first issue. -/
def vendorRowFacts (row : VendorRowFacts) : Except String VendorRowFacts :=
  if row.category.trim = [] then
    .error "category: Too small: expected string to have >=1 characters"
  else
    match wholeNumberIssue row.vendorPriceCents with
    | some issue => .error ("vendorPriceCents: " ++ issue)
    | none =>
      match wholeNumberIssue row.stockQuantity with
      | some issue => .error ("stockQuantity: " ++ issue)
      | none => .ok { row with category := row.category.trim }

def priceOutOfRange (cents : Int) (rejectedBy : String) : Option PricingOutcome :=
  if cents < 0 then
    some (.rejected .row (some rejectedBy) s!"price {cents} is below zero")
  else if maxSafeInteger < cents then
    some (.rejected .row (some rejectedBy)
      s!"price {cents} is above the largest exact cent value {maxSafeInteger}")
  else none

/-- `BigInt` division truncates towards zero. -/
def AdjustmentEvent.apply (cents : Int) : AdjustmentEvent → Int
  | .adjustCents value => cents + value
  | .adjustPercentBps value => (cents * (10000 + value)).tdiv 10000

namespace BasePriceCalculator

/-- The loop of `calculate` over the rules that fired. -/
def applyResults (version : Int) (cents : Int) : List RuleProperties → PricingOutcome
  | [] => .priced cents version
  | result :: results =>
    let next := result.event.apply cents
    match priceOutOfRange next result.name with
    | some rejected => rejected
    | none => applyResults version next results

def calculate (c : BasePriceCalculator) (row : VendorRowFacts) : PricingOutcome :=
  match vendorRowFacts row with
  | .error issue => .rejected .row none issue
  | .ok facts =>
    match c.engine facts with
    | .error reason => .rejected .rules none reason
    | .ok results => applyResults c.pricingRulesVersion facts.vendorPriceCents results

/-- `b.priority - a.priority || a.id - b.id` -/
def rulePrecedes (a b : PricingRuleRow) : Prop :=
  b.priority < a.priority ∨ (a.priority = b.priority ∧ a.id ≤ b.id)

instance : DecidableRel rulePrecedes := fun a b =>
  inferInstanceAs (Decidable (b.priority < a.priority ∨ (a.priority = b.priority ∧ a.id ≤ b.id)))

def activeIngestionRules (rows : List PricingRuleRow) : List PricingRuleRow :=
  (rows.filter fun row => row.active && row.type = .ingestion).insertionSort rulePrecedes

def newestVersion (rows : List PricingRuleRow) : Int :=
  rows.foldl (fun newest row => max newest row.updatedAt.time) 0

/-- A safe integer at least `min`, read from a `params` object that holds nothing else. -/
def adjustmentValue (min : Option Int) : Json → Option Int
  | .obj [("value", .num q)] =>
    if q.den = 1 ∧ q.num.natAbs ≤ maxSafeInteger ∧ ∀ m ∈ min, m ≤ q.num then some q.num else none
  | _ => none

def adjustmentOf (type : String) (params : Json) : Option AdjustmentEvent :=
  if type = "adjustPercentBps" then
    (adjustmentValue (some (-10000)) params).map .adjustPercentBps
  else if type = "adjustCents" then (adjustmentValue none params).map .adjustCents
  else none

def adjustmentEvent : Json → Option AdjustmentEvent
  | .obj [("type", .str type), ("params", params)] => adjustmentOf type params
  | .obj [("params", params), ("type", .str type)] => adjustmentOf type params
  | _ => none

mutual

/-- Both `{all:[]}` and `{any:[]}` are well-formed and fire on every row. -/
def hasEmptyGroup : Json → Bool
  | .arr items => someItemHasEmptyGroup items
  | .obj fields =>
    (fields.any fun f => (f.1 == "all" || f.1 == "any") && f.2 matches .arr []) ||
      someFieldHasEmptyGroup fields
  | _ => false

def someItemHasEmptyGroup : List Json → Bool
  | [] => false
  | item :: items => hasEmptyGroup item || someItemHasEmptyGroup items

def someFieldHasEmptyGroup : List (String × Json) → Bool
  | [] => false
  | (_, value) :: fields => hasEmptyGroup value || someFieldHasEmptyGroup fields

end

mutual

/-- The engine stops at the first priority set that decides, so the probe strips priorities. -/
def withoutPriorities : Json → Json
  | .arr items => .arr (itemsWithoutPriorities items)
  | .obj fields => .obj (fieldsWithoutPriorities fields)
  | node => node

def itemsWithoutPriorities : List Json → List Json
  | [] => []
  | item :: items => withoutPriorities item :: itemsWithoutPriorities items

def fieldsWithoutPriorities : List (String × Json) → List (String × Json)
  | [] => []
  | (key, value) :: fields =>
    if key = "priority" then fieldsWithoutPriorities fields
    else (key, withoutPriorities value) :: fieldsWithoutPriorities fields

end

def probeRow : VendorRowFacts := ⟨"probe".toList, 0, 0⟩

def toRule (engine : RulesEngine) (row : PricingRuleRow) (priority : Int) :
    Except String RuleProperties :=
  let name := s!"pricing rule {row.id} (\"{row.name}\")"
  match adjustmentEvent row.event with
  | none => .error s!"{name} has a malformed event"
  | some event =>
    if hasEmptyGroup row.conditions then
      .error s!"{name} has an empty all or any, which matches every row or none"
    else
      let properties := { name, priority, conditions := row.conditions, event }
      match engine [{ properties with conditions := withoutPriorities row.conditions }]
          probeRow with
      | .error message => .error s!"{name} cannot be compiled: {message}"
      | .ok _ => .ok properties

/-- The two sort keys become one distinct engine priority for each rule. -/
def compileRules (engine : RulesEngine) : List PricingRuleRow → Except String (List RuleProperties)
  | [] => .ok []
  | row :: rows => do
    let rule ← toRule engine row (rows.length + 1)
    return rule :: (← compileRules engine rows)

def fromRules (engine : RulesEngine) (rows : List PricingRuleRow) :
    Except String BasePriceCalculator :=
  let active := activeIngestionRules rows
  if active = [] then
    .error "no active ingestion pricing rules (none seeded, or every rule deactivated)"
  else do
    let rules ← compileRules engine active
    return ⟨engine rules, active.map (·.id), newestVersion active⟩

theorem ok_of_bind {x : Except ε α} {f : α → Except ε β} (h : (x >>= f) = .ok b) :
    ∃ a, x = .ok a ∧ f a = .ok b := by
  cases x with
  | error e => cases h
  | ok a => exact ⟨a, rfl, h⟩

theorem fromRules_ok {engine : RulesEngine} (h : fromRules engine rows = .ok c) :
    activeIngestionRules rows ≠ [] ∧ ∃ rules,
      compileRules engine (activeIngestionRules rows) = .ok rules ∧
        c = ⟨engine rules, (activeIngestionRules rows).map (·.id),
          newestVersion (activeIngestionRules rows)⟩ := by
  rw [fromRules] at h
  split at h
  · cases h
  · rename_i hne
    obtain ⟨rules, hrules, hc⟩ := ok_of_bind h
    cases hc
    exact ⟨hne, rules, hrules, rfl⟩

end BasePriceCalculator

end PromotionManagement
