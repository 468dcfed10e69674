import PromotionManagement.AdminInput
import PromotionManagement.BoundarySweep

namespace PromotionManagement
open Library
set_option autoImplicit true

/-- What the values of one row of the API's own insert are; the other columns stay null. -/
structure CreateProduct where
  sku : Text
  name : Text
  category : Text
  basePriceCents : Nat
  stockQuantity : Nat

namespace SqlParameter

/-- A parameter of a statement is read as a value of the column's type, or refused. -/
def text (s : JsString) : Option Text := if IsPgText s.toText then some s.toText else none

def integer (n : Nat) : Option Nat := if n ≤ maxInteger then some n else none

def bigint (n : Nat) : Option Nat := if n ≤ maxBigint then some n else none

def timestamptz (d : IsoDatetime) : Option Int :=
  if IsoDatetime.firstInstant ≤ d.time then some (micros d.time) else none

/-- `value ?? null` -/
def nullable (read : α → Option β) : Option α → Option (Option β)
  | some value => (read value).map some
  | none => some none

theorem text_eq_some (s : JsString) : text s = some t ↔ (0 : UInt16) ∉ s ∧ s.toText = t := by
  rw [text, Option.ite_none_right_eq_some, s.isPgText_toText, Option.some.injEq]

theorem integer_of_le (h : n ≤ maxInteger) : integer n = some n := if_pos h

theorem bigint_of_le (h : n ≤ maxBigint) : bigint n = some n := if_pos h

theorem timestamptz_eq_some (d : IsoDatetime) :
    timestamptz d = some i ↔ d.date.year ≠ 0 ∧ micros d.time = i := by
  rw [timestamptz, Option.ite_none_right_eq_some, d.firstInstant_le_iff, Option.some.injEq]

theorem nullable_bigint (h : ∀ n ∈ number, n ≤ maxBigint) :
    nullable bigint number = some number := by
  cases number with
  | none => rfl
  | some n => rw [nullable, bigint_of_le (h n rfl), Option.map_some]

theorem nullable_text_eq_some (s : Option JsString) :
    nullable text s = some t ↔ (∀ u ∈ s, (0 : UInt16) ∉ u) ∧ s.map JsString.toText = t := by
  cases s with
  | none =>
    rw [nullable, Option.some.injEq, Option.map_none]
    refine (and_iff_right ?_).symm
    intro u hu
    cases hu
  | some u =>
    simp only [nullable, Option.map_eq_some_iff, text_eq_some, Option.mem_def, Option.some.injEq,
      forall_eq', Option.map_some]
    constructor
    · rintro ⟨_, ⟨hu, rfl⟩, rfl⟩
      exact ⟨hu, rfl⟩
    · rintro ⟨hu, rfl⟩
      exact ⟨_, ⟨hu, rfl⟩, rfl⟩

/-- A statement that reads a parameter this way has it in its domain, and goes on with its value. -/
theorem read_bind {x : Option α} (hx : ∀ a, x = some a ↔ P ∧ b = a) :
    (x >>= f) = some c ↔ P ∧ f b = some c := by
  rw [Option.bind_eq_bind, Option.bind_eq_some_iff]
  constructor
  · rintro ⟨a, ha, hf⟩
    obtain ⟨hp, rfl⟩ := (hx a).1 ha
    exact ⟨hp, hf⟩
  · rintro ⟨hp, hf⟩
    exact ⟨b, (hx b).2 ⟨hp, rfl⟩, hf⟩

theorem text_bind (s : JsString) :
    (text s >>= f) = some c ↔ (0 : UInt16) ∉ s ∧ f s.toText = some c :=
  read_bind fun _ => text_eq_some s

theorem timestamptz_bind (d : IsoDatetime) :
    (timestamptz d >>= f) = some c ↔ d.date.year ≠ 0 ∧ f (micros d.time) = some c :=
  read_bind fun _ => timestamptz_eq_some d

theorem nullable_text_bind (s : Option JsString) : (nullable text s >>= f) = some c ↔
    (∀ u ∈ s, (0 : UInt16) ∉ u) ∧ f (s.map JsString.toText) = some c :=
  read_bind fun _ => nullable_text_eq_some s

end SqlParameter

open SqlParameter

namespace CreatePromotionInput

/-- The parameters of the insert, as the columns hold them. -/
def parameters (input : CreatePromotionInput) : Option CreatePromotion := do
  let name ← text input.name
  let value ← integer input.value
  let startsAt ← timestamptz input.startsAt
  let endsAt ← timestamptz input.endsAt
  let productId ← nullable bigint input.productId
  let category ← nullable text input.category
  some ⟨name, input.discountType, value, startsAt, endsAt, productId, category⟩

def texts (input : CreatePromotionInput) : List JsString := input.name :: input.category.toList

/-- The values that accepted parameters are read as. -/
def values (input : CreatePromotionInput) : CreatePromotion where
  name := input.name.toText
  discountType := input.discountType
  value := input.value
  startsAt := micros input.startsAt.time
  endsAt := micros input.endsAt.time
  productId := input.productId
  category := input.category.map JsString.toText

theorem Accepted.endsAt_year {input : CreatePromotionInput} (h : input.Accepted)
    (hyear : input.startsAt.date.year ≠ 0) : input.endsAt.date.year ≠ 0 := by
  rw [← IsoDatetime.firstInstant_le_iff] at hyear ⊢
  exact hyear.trans h.window.le

/-- Of an accepted body, its texts and the year it starts in decide what the columns take. -/
theorem Accepted.parameters_eq_some {input : CreatePromotionInput} (h : input.Accepted) :
    input.parameters = some values' ↔ ((∀ s ∈ input.texts, (0 : UInt16) ∉ s) ∧
      input.startsAt.date.year ≠ 0) ∧ input.values = values' := by
  rw [texts, List.forall_mem_cons, parameters, text_bind, integer_of_le h.value.2,
    Option.bind_eq_bind, Option.bind_some, timestamptz_bind, timestamptz_bind,
    nullable_bigint h.productId, Option.bind_eq_bind, Option.bind_some, nullable_text_bind,
    Option.some.injEq]
  simp only [Option.mem_toList]
  constructor
  · rintro ⟨hname, hyear, _, hcategory, hv⟩
    exact ⟨⟨⟨hname, hcategory⟩, hyear⟩, hv⟩
  · rintro ⟨⟨⟨hname, hcategory⟩, hyear⟩, hv⟩
    exact ⟨hname, hyear, h.endsAt_year hyear, hcategory, hv⟩

end CreatePromotionInput

namespace AssignPromotionInput

def parameters (input : AssignPromotionInput) : Option AssignPromotion := do
  let productId ← nullable bigint input.productId
  let category ← nullable text input.category
  some ⟨productId, category⟩

def texts (input : AssignPromotionInput) : List JsString := input.category.toList

def values (target : AssignPromotionInput) : AssignPromotion where
  productId := target.productId
  category := target.category.map JsString.toText

theorem Accepted.parameters_eq_some {target : AssignPromotionInput} (h : target.Accepted) :
    target.parameters = some values' ↔
      (∀ s ∈ target.texts, (0 : UInt16) ∉ s) ∧ target.values = values' := by
  rw [texts, parameters, nullable_bigint h.productId, Option.bind_eq_bind, Option.bind_some,
    nullable_text_bind, Option.some.injEq]
  simp only [Option.mem_toList]
  exact Iff.rfl

end AssignPromotionInput

namespace CreateProductInput

def parameters (input : CreateProductInput) : Option CreateProduct := do
  let sku ← text input.sku
  let name ← text input.name
  let category ← text input.category
  let basePriceCents ← bigint input.basePriceCents
  let stockQuantity ← integer input.stockQuantity
  some ⟨sku, name, category, basePriceCents, stockQuantity⟩

def texts (input : CreateProductInput) : List JsString := [input.sku, input.name, input.category]

def values (input : CreateProductInput) : CreateProduct where
  sku := input.sku.toText
  name := input.name.toText
  category := input.category.toText
  basePriceCents := input.basePriceCents
  stockQuantity := input.stockQuantity

theorem Accepted.parameters_eq_some {input : CreateProductInput} (h : input.Accepted) :
    input.parameters = some values' ↔
      (∀ s ∈ input.texts, (0 : UInt16) ∉ s) ∧ input.values = values' := by
  rw [texts, List.forall_mem_cons, List.forall_mem_cons, List.forall_mem_singleton, parameters,
    text_bind, text_bind, text_bind, bigint_of_le h.basePriceCents, Option.bind_eq_bind,
    Option.bind_some, integer_of_le h.stockQuantity, Option.bind_some, Option.some.injEq,
    and_assoc, and_assoc]
  exact Iff.rfl

end CreateProductInput

end PromotionManagement
