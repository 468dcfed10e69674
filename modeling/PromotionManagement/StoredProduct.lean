import PromotionManagement.ProductPricer
import Mathlib.Data.List.TakeWhile

namespace PromotionManagement
open Library
set_option autoImplicit true

/-- What a schema refuses: the first issue it finds. -/
structure Issue where
  path : String
  message : String
deriving DecidableEq

/-- A stored hash, as the schema reads it. -/
structure StoredFields where
  id : Nat
  sku : Text
  name : Text
  category : Text
  basePriceCents : Int
  effectivePriceCents : Int
  stockQuantity : Nat
  promotionId : Option Nat
  promotionName : Option Text
deriving DecidableEq

structure PromotionView where
  id : Nat
  name : Text
deriving DecidableEq

/-- The shape that a storefront client reads. -/
structure ProductView where
  id : Nat
  sku : Text
  name : Text
  category : Text
  basePriceCents : Int
  effectivePriceCents : Int
  stockQuantity : Nat
  promotion : Option PromotionView
deriving DecidableEq

namespace StoredProduct

def blankIsAbsent : Option Text → Option Text
  | some value => if value.trim = [] then none else some value
  | none => none

/-- `z.string()` -/
def string (path : String) : Option Text → Except Issue Text
  | some value => .ok value
  | none => .error ⟨path, "Invalid input: expected string, received undefined"⟩

/-- A string of digits, read as a number that is a safe integer. -/
def digits (path : String) : Option Text → Except Issue Nat
  | some value =>
    if !isDigits value then .error ⟨path, "Invalid string: must match pattern /^\\d+$/"⟩
    else if !isSafeInteger (toNumber value) then
      .error ⟨path, "Too big: expected int to be <=9007199254740991"⟩
    else .ok (toNumber value)
  | none => .error ⟨path, "Invalid input: expected string, received undefined"⟩

/-- `schema.optional()` -/
def optional (schema : Option Text → Except Issue α) : Option Text → Except Issue (Option α)
  | some value => (schema (some value)).map some
  | none => .ok none

/-- One `refine` of the object, whose issues name no field. -/
def refine (holds : Bool) (message : String) : Except Issue Unit :=
  if holds then .ok () else .error ⟨"", message⟩

end StoredProduct

open StoredProduct in
def storedProduct (hash : Text → Option Text) : Except Issue StoredFields := do
  let field (name : String) : Option Text := hash name.toList
  let id ← digits "id" (field "id")
  let sku ← string "sku" (field "sku")
  let name ← string "name" (field "name")
  let category ← string "category" (field "category")
  let basePriceCents ← digits "basePriceCents" (field "basePriceCents")
  let effectivePriceCents ← digits "effectivePriceCents" (field "effectivePriceCents")
  let stockQuantity ← digits "stockQuantity" (field "stockQuantity")
  let promotionId ← optional (digits "promotionId") (blankIsAbsent (field "promotionId"))
  let promotionName ← optional (string "promotionName") (blankIsAbsent (field "promotionName"))
  refine (promotionId.isNone == promotionName.isNone)
    "a stored promotion needs both an id and a name"
  refine (effectivePriceCents ≤ basePriceCents)
    "an effective price cannot exceed the base price it came from"
  refine (promotionId.isSome || effectivePriceCents = basePriceCents)
    "a discounted price must name the promotion that made it"
  return ⟨id, sku, name, category, basePriceCents, effectivePriceCents, stockQuantity, promotionId,
    promotionName⟩

def productView (hash : Text → Option Text) : Except Issue ProductView := do
  let stored ← storedProduct hash
  return { id := stored.id
           sku := stored.sku
           name := stored.name
           category := stored.category
           basePriceCents := stored.basePriceCents
           effectivePriceCents := stored.effectivePriceCents
           stockQuantity := stored.stockQuantity
           promotion :=
            match stored.promotionId, stored.promotionName with
            | some id, some name => some ⟨id, name⟩
            | _, _ => none }

/-- What the refinements of the reader ask of an entry, with numbers that a double keeps. -/
structure ProductEntry.Servable (entry : ProductEntry) : Prop where
  id : entry.id ≤ maxSafeInteger
  basePriceCents : entry.basePriceCents ≤ maxSafeInteger
  effectivePriceCents : 0 ≤ entry.effectivePriceCents ∧
    entry.effectivePriceCents ≤ entry.basePriceCents
  stockQuantity : entry.stockQuantity ≤ maxSafeInteger
  promotion : (entry.promotionId = none ∧ entry.promotionName = none ∧
      entry.effectivePriceCents = entry.basePriceCents) ∨
    ∃ id name, entry.promotionId = some id ∧ entry.promotionName = some name ∧
      id ≤ maxSafeInteger ∧ Text.trim name ≠ []

/-- The view of an entry that is served as it was computed. -/
def ProductEntry.view (entry : ProductEntry) : ProductView where
  id := entry.id
  sku := entry.sku
  name := entry.name
  category := entry.category
  basePriceCents := entry.basePriceCents
  effectivePriceCents := entry.effectivePriceCents
  stockQuantity := entry.stockQuantity
  promotion :=
    match entry.promotionId, entry.promotionName with
    | some id, some name => some ⟨id, name⟩
    | _, _ => none

namespace StoredProduct

theorem digits_toDigits (path : String) (h : n ≤ maxSafeInteger) :
    digits path (some (Nat.toDigits 10 n)) = .ok n := by
  have hs : isSafeInteger n = true := decide_eq_true h
  simp only [digits, isDigits_toDigits, toNumber_toDigits_of_safe h, hs, Bool.not_true,
    Bool.false_eq_true, if_false]

theorem digits_intText (path : String) {z : Int} (h : 0 ≤ z) (hz : z ≤ maxSafeInteger) :
    digits path (some (intText z)) = .ok z.toNat := by
  obtain ⟨n, rfl⟩ := Int.eq_ofNat_of_zero_le h
  exact digits_toDigits path (Int.ofNat_le.1 hz)

theorem isTrimmed_of_trim {t : Text} (h : t.trim = []) (hc : c ∈ t) : isTrimmed c = true := by
  rw [Text.trim, List.reverse_eq_nil_iff] at h
  by_contra hn
  have hmem : c ∈ t.dropWhile isTrimmed := by
    rw [← List.takeWhile_append_dropWhile (p := isTrimmed) (l := t), List.mem_append] at hc
    exact hc.resolve_left fun ht => hn (List.mem_takeWhile_imp ht)
  exact hn (List.dropWhile_eq_nil_iff.1 h c (List.mem_reverse.2 hmem))

theorem blankIsAbsent_toDigits (n : Nat) :
    blankIsAbsent (some (Nat.toDigits 10 n)) = some (Nat.toDigits 10 n) := by
  apply if_neg
  intro h
  obtain ⟨c, rest, hd⟩ := List.exists_cons_of_ne_nil (@Nat.toDigits_ne_nil n 10)
  have hc : c ∈ Nat.toDigits 10 n := hd ▸ List.mem_cons_self
  have hdigit := not_isTrimmed_of_isDigit
    (Nat.isDigit_of_mem_toDigits (by decide) (by decide) hc)
  rw [isTrimmed_of_trim h hc] at hdigit
  cases hdigit

theorem ok_bind (a : α) (f : α → Except Issue β) : (Except.ok a >>= f) = f a := rfl

theorem string_some (path : String) (value : Text) : string path (some value) = .ok value := rfl

theorem optional_none (schema : Option Text → Except Issue α) : optional schema none = .ok none :=
  rfl

theorem optional_some {schema : Option Text → Except Issue α} (h : schema (some value) = .ok a) :
    optional schema (some value) = .ok (some a) := by
  rw [optional, h]
  rfl

theorem refine_true (message : String) : refine true message = .ok () := rfl

/-- The hash that the fields of an entry make. -/
def stored (entry : ProductEntry) (sourceReadAt : Text) : Text → Option Text :=
  RedisStore.setFields (fun _ => none) (ProductWriteRepository.fieldsOf entry sourceReadAt)

theorem stored_fields (entry : ProductEntry) (sourceReadAt : Text) :
    stored entry sourceReadAt "id".toList = some (Nat.toDigits 10 entry.id) ∧
    stored entry sourceReadAt "sku".toList = some entry.sku ∧
    stored entry sourceReadAt "name".toList = some entry.name ∧
    stored entry sourceReadAt "category".toList = some entry.category ∧
    stored entry sourceReadAt "basePriceCents".toList = some (intText entry.basePriceCents) ∧
    stored entry sourceReadAt "effectivePriceCents".toList =
      some (intText entry.effectivePriceCents) ∧
    stored entry sourceReadAt "stockQuantity".toList =
      some (Nat.toDigits 10 entry.stockQuantity) := by
  rw [stored, ProductWriteRepository.fieldsOf]
  cases entry.promotionId <;> cases entry.promotionName <;> cases entry.pricingRulesVersion <;>
    exact ⟨rfl, rfl, rfl, rfl, rfl, rfl, rfl⟩

theorem stored_promotion {entry : ProductEntry} (hid : entry.promotionId = some id')
    (hname : entry.promotionName = some name) (sourceReadAt : Text) :
    stored entry sourceReadAt "promotionId".toList = some (Nat.toDigits 10 id') ∧
      stored entry sourceReadAt "promotionName".toList = some name := by
  rw [stored, ProductWriteRepository.fieldsOf, hid, hname]
  cases entry.pricingRulesVersion <;> exact ⟨rfl, rfl⟩

theorem stored_no_promotion {entry : ProductEntry} (hid : entry.promotionId = none)
    (sourceReadAt : Text) :
    stored entry sourceReadAt "promotionId".toList = none ∧
      stored entry sourceReadAt "promotionName".toList = none := by
  rw [stored, ProductWriteRepository.fieldsOf, hid]
  cases entry.pricingRulesVersion <;> exact ⟨rfl, rfl⟩

/-- What is stored of a servable entry is read back as it was computed. -/
theorem productView_stored {entry : ProductEntry} (h : entry.Servable) (sourceReadAt : Text) :
    productView (stored entry sourceReadAt) = .ok entry.view := by
  obtain ⟨hid, hsku, hname, hcategory, hbase, heffective, hstock⟩ :=
    stored_fields entry sourceReadAt
  have hbase' := h.effectivePriceCents.1.trans h.effectivePriceCents.2
  have heffective' := h.effectivePriceCents.2.trans h.basePriceCents
  have hnat := Int.toNat_of_nonneg hbase'
  have hnat' := Int.toNat_of_nonneg h.effectivePriceCents.1
  have hle : decide (entry.effectivePriceCents.toNat ≤ entry.basePriceCents.toNat) = true :=
    decide_eq_true (Int.toNat_le_toNat h.effectivePriceCents.2)
  rcases h.promotion with ⟨hp, hn, he⟩ | ⟨id, name, hp, hn, hs, ht⟩
  · obtain ⟨hpid, hpname⟩ := stored_no_promotion hp sourceReadAt
    have heq : decide (entry.effectivePriceCents.toNat = entry.basePriceCents.toNat) = true :=
      decide_eq_true (congrArg Int.toNat he)
    simp only [productView, storedProduct, hid, hsku, hname, hcategory, hbase, heffective, hstock,
      hpid, hpname, digits_toDigits _ h.id, digits_intText _ hbase' h.basePriceCents,
      digits_intText _ h.effectivePriceCents.1 heffective', digits_toDigits _ h.stockQuantity,
      string_some, blankIsAbsent, optional_none, ok_bind, hle, heq, Bool.or_true, refine_true,
      hnat, hnat']
    rw [ProductEntry.view, hp]
    rfl
  · obtain ⟨hpid, hpname⟩ := stored_promotion hp hn sourceReadAt
    have hblank : blankIsAbsent (some name) = some name := if_neg ht
    simp only [productView, storedProduct, hid, hsku, hname, hcategory, hbase, heffective, hstock,
      hpid, hpname, digits_toDigits _ h.id, digits_intText _ hbase' h.basePriceCents,
      digits_intText _ h.effectivePriceCents.1 heffective', digits_toDigits _ h.stockQuantity,
      string_some, blankIsAbsent_toDigits, hblank, optional_some (digits_toDigits _ hs),
      optional_some (string_some _ _), ok_bind, hle, Option.isNone_some, BEq.rfl,
      Option.isSome_some, Bool.true_or, refine_true, hnat, hnat']
    rw [ProductEntry.view, hp, hn]
    rfl

end StoredProduct

namespace EffectivePriceCalculator

/-- A price that is calculated is no higher than the base, and no lower than nothing. -/
theorem calculate_bounds (h : calculate base p = .ok cents) : 0 ≤ cents ∧ cents ≤ base := by
  rw [calculate] at h
  split at h
  · cases h
  · rename_i hv
    obtain ⟨⟨hbase, _⟩, ⟨hvalue, _⟩, _⟩ := validate_none_iff.1 hv
    have hcents : 0 ≤ p.discountType.discountCents base p.value := by
      cases p.discountType with
      | percentage =>
        apply Int.ediv_nonneg _ (by decide)
        exact Int.mul_nonneg hbase (Int.le_of_lt hvalue)
      | fixed => exact Int.le_of_lt hvalue
    cases h
    split
    · exact ⟨Int.le_refl 0, hbase⟩
    · rename_i hle
      omega

end EffectivePriceCalculator

/-- What the tables, the columns that are read as JavaScript numbers, and the schema of a creation,
whose name is not blank, allow of a candidate. -/
structure PromotionCandidate.Allowed (p : PromotionCandidate) : Prop where
  id : p.id ≤ maxSafeInteger
  name : Text.trim p.name ≠ []
  value : 0 < p.value

/-- What the tables, and the columns that are read as JavaScript numbers, allow of a row. -/
structure SourceRow.Allowed (row : SourceRow) : Prop where
  id : row.id ≤ maxSafeInteger
  basePriceCents : 0 ≤ row.basePriceCents ∧ row.basePriceCents ≤ maxSafeInteger
  stockQuantity : row.stockQuantity < 2 ^ 31
  productPromotion : ∀ p, row.productPromotion = some p → p.Allowed
  categoryPromotion : ∀ p, row.categoryPromotion = some p → p.Allowed

namespace ProductPricer

theorem applied_cases (h : applied row level = some (p, cents)) :
    (row.productPromotion = some p ∨ row.categoryPromotion = some p) ∧
      EffectivePriceCalculator.calculate row.basePriceCents p = .ok cents := by
  have hpriced {promotion : Option PromotionCandidate}
      (hp : priced row promotion = some (p, cents)) :
      promotion = some p ∧ EffectivePriceCalculator.calculate row.basePriceCents p = .ok cents := by
    obtain ⟨q, rfl, hq⟩ := Option.bind_eq_some_iff.1 hp
    split at hq
    · rename_i hc
      cases hq
      exact ⟨rfl, hc⟩
    · cases hq
  cases level with
  | none => cases h
  | some level =>
    cases level with
    | product => exact ⟨.inl (hpriced h).1, (hpriced h).2⟩
    | category => exact ⟨.inr (hpriced h).1, (hpriced h).2⟩

/-- An entry is servable, whatever the rules answer. -/
theorem servable_price {row : SourceRow} (h : row.Allowed) (results : List RuleResult) :
    (price row results).Servable := by
  have hstock : row.stockQuantity ≤ maxSafeInteger := by
    have := h.stockQuantity
    rw [maxSafeInteger]
    omega
  cases ha : applied row (PromotionResolver.select results) with
  | none =>
    refine ⟨h.id, h.basePriceCents.2, ?_, hstock, .inl ?_⟩
    · simp only [price, ha, Option.map_none, Option.getD_none]
      exact ⟨h.basePriceCents.1, Int.le_refl _⟩
    · simp only [price, ha, Option.map_none, Option.getD_none, and_self]
  | some a =>
    obtain ⟨p, cents⟩ := a
    obtain ⟨hp, hc⟩ := applied_cases ha
    have hallowed : p.Allowed := hp.elim (h.productPromotion p) (h.categoryPromotion p)
    refine ⟨h.id, h.basePriceCents.2, ?_, hstock, .inr ⟨p.id, p.name, ?_⟩⟩
    · simp only [price, ha, Option.map_some, Option.getD_some]
      exact EffectivePriceCalculator.calculate_bounds hc
    · simp only [price, ha, Option.map_some, true_and]
      exact ⟨hallowed.id, hallowed.name⟩

/-- What the pricer makes of an allowed row is stored, parsed and served as it was computed, with
the promotion that was applied. -/
theorem productView_price (row : SourceRow) (h : row.Allowed) (results : List RuleResult)
    (sourceReadAt : Nat) (db : ReadModel) :
    productView (((db.del (ProductReadRepository.productKey row.id)).hset
        (ProductReadRepository.productKey row.id)
        (ProductWriteRepository.fieldsOf (price row results)
          (Nat.toDigits 10 sourceReadAt))).hash (ProductReadRepository.productKey row.id)) =
      .ok { id := row.id
            sku := row.sku
            name := row.name
            category := row.category
            basePriceCents := row.basePriceCents
            effectivePriceCents := (price row results).effectivePriceCents
            stockQuantity := row.stockQuantity
            promotion := (applied row (PromotionResolver.select results)).map fun a =>
              ⟨a.1.id, a.1.name⟩ } := by
  rw [RedisStore.hset_hash_self, RedisStore.del_hash_self]
  refine (StoredProduct.productView_stored (servable_price h results) _).trans ?_
  rw [ProductEntry.view]
  cases ha : applied row (PromotionResolver.select results) with
  | none => simp only [price, ha, Option.map_none]
  | some a => simp only [price, ha, Option.map_some]

def winterSale : PromotionCandidate := ⟨3, "Winter sale".toList, .percentage, 1000⟩

def kazak : SourceRow where
  id := 7
  sku := "SKU-7".toList
  name := "Kazak".toList
  category := "knitwear".toList
  basePriceCents := 10000
  stockQuantity := 3
  pricingRulesVersion := none
  productPromotion := some winterSale
  categoryPromotion := none

theorem kazak_allowed : kazak.Allowed where
  id := by decide
  basePriceCents := by decide
  stockQuantity := by decide
  productPromotion := by
    intro p hp
    cases hp
    exact ⟨by decide, by decide +kernel, by decide⟩
  categoryPromotion := by
    intro p hp
    cases hp

theorem productView_price_kazak :
    productView ((((RedisStore.empty : ReadModel).del (ProductReadRepository.productKey 7)).hset
        (ProductReadRepository.productKey 7)
        (ProductWriteRepository.fieldsOf (price kazak [⟨10, .product⟩])
          (Nat.toDigits 10 1757635200000000))).hash (ProductReadRepository.productKey 7)) =
      .ok { id := 7
            sku := "SKU-7".toList
            name := "Kazak".toList
            category := "knitwear".toList
            basePriceCents := 10000
            effectivePriceCents := 9000
            stockQuantity := 3
            promotion := some ⟨3, "Winter sale".toList⟩ } :=
  productView_price kazak kazak_allowed [⟨10, .product⟩] 1757635200000000 .empty

end ProductPricer

end PromotionManagement
