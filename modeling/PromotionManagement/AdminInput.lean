import PromotionManagement.Library.Calendar
import PromotionManagement.Library.Utf8
import PromotionManagement.PromotionRepository
import PromotionManagement.SerializeError
import PromotionManagement.StorableRow

namespace PromotionManagement
open Library
set_option autoImplicit true

namespace JsString

def isHigh (u : UInt16) : Bool := 0xd800 ≤ u.toNat && u.toNat < 0xdc00

def isLow (u : UInt16) : Bool := 0xdc00 ≤ u.toNat && u.toNat < 0xe000

/-- The character of a unit that is half of no pair. -/
def single (u : UInt16) : Char :=
  if isHigh u || isLow u then Utf8.replacement else Char.ofNat u.toNat

/-- The text that reaches the database, which is encoded as UTF-8. -/
def toText : JsString → Text
  | [] => []
  | [u] => [single u]
  | u :: v :: s =>
    if isHigh u && isLow v then
      Char.ofNat (0x10000 + (u.toNat - 0xd800) * 0x400 + (v.toNat - 0xdc00)) :: toText s
    else single u :: toText (v :: s)

def trim (s : JsString) : JsString :=
  ((s.dropWhile fun u => isTrimmed (single u)).reverse.dropWhile
    fun u => isTrimmed (single u)).reverse

theorem toNat_ofNat {n : Nat} (h : n.isValidChar) : (Char.ofNat n).toNat = n := by
  rw [Char.ofNat, dif_pos h]
  rfl

theorem ofNat_eq_zero {n : Nat} (h : n.isValidChar) : Char.ofNat n = Char.ofNat 0 ↔ n = 0 := by
  constructor
  · intro he
    rw [← toNat_ofNat h, he]
    rfl
  · rintro rfl
    rfl

theorem single_eq_zero (u : UInt16) : single u = Char.ofNat 0 ↔ u = 0 := by
  rw [single]
  split
  · rename_i h
    refine iff_of_false (by decide) ?_
    rintro rfl
    cases h
  · rename_i h
    have hlt := u.toNat_lt
    simp only [isHigh, isLow, Bool.or_eq_true, Bool.and_eq_true, decide_eq_true_eq] at h
    have hvalid : u.toNat.isValidChar := by
      rw [Nat.isValidChar]
      omega
    rw [ofNat_eq_zero hvalid]
    exact ⟨fun h => UInt16.toNat_inj.1 h, fun h => by rw [h]; rfl⟩

/-- The character of a pair is none of a single unit's. -/
theorem pair_ne_zero {u v : UInt16} (hu : isHigh u = true) (hv : isLow v = true) :
    Char.ofNat (0x10000 + (u.toNat - 0xd800) * 0x400 + (v.toNat - 0xdc00)) ≠ Char.ofNat 0 := by
  simp only [isHigh, isLow, Bool.and_eq_true, decide_eq_true_eq] at hu hv
  have hvalid : (0x10000 + (u.toNat - 0xd800) * 0x400 + (v.toNat - 0xdc00)).isValidChar := by
    rw [Nat.isValidChar]
    omega
  rw [ne_eq, ofNat_eq_zero hvalid]
  omega

/-- The text of a string holds U+0000 exactly when the string does. -/
theorem isPgText_toText (s : JsString) : IsPgText s.toText ↔ (0 : UInt16) ∉ s := by
  rw [IsPgText]
  induction s using toText.induct with
  | case1 => exact iff_of_true (fun c h => absurd h List.not_mem_nil) List.not_mem_nil
  | case2 u =>
    rw [toText, List.forall_mem_singleton, List.mem_singleton, ne_eq, single_eq_zero, eq_comm]
  | case3 u v s h ih =>
    rw [toText, if_pos h, List.forall_mem_cons, ih]
    rw [Bool.and_eq_true] at h
    have hu : (0 : UInt16) ≠ u := by
      rintro rfl
      cases h.1
    have hv : (0 : UInt16) ≠ v := by
      rintro rfl
      cases h.2
    simp only [pair_ne_zero h.1 h.2, List.mem_cons, hu, hv, ne_eq, not_false_eq_true, true_and,
      false_or]
  | case4 u v s h ih =>
    rw [toText, if_neg h, List.forall_mem_cons, ih, ne_eq, single_eq_zero, eq_comm]
    simp only [List.mem_cons, not_or]

end JsString

/-- What `z.iso.datetime()` takes: a UTC instant of a day of the years 0000 to 9999, which
`new Date` reads to the millisecond. -/
structure IsoDatetime where
  date : CivilDate
  hour : Nat
  minute : Nat
  second : Nat
  millisecond : Nat
  year_le : date.year ≤ 9999
  hour_lt : hour < 24
  minute_lt : minute < 60
  second_lt : second < 60
  millisecond_lt : millisecond < 1000
deriving DecidableEq

namespace IsoDatetime
open Calendar

/-- Epoch milliseconds. -/
def time (d : IsoDatetime) : Int :=
  ((d.date.days : Int) - daysBeforeYear 1970) * 86400000 +
    (d.hour * 3600000 + d.minute * 60000 + d.second * 1000 + d.millisecond : Nat)

/-- `\d{n}` at the front of a text. -/
def digits (n : Nat) (t : Text) : Option (Nat × Text) :=
  if (t.take n).length = n ∧ isDigits (t.take n) then
    some (Nat.ofDigitChars 10 (t.take n) 0, t.drop n)
  else none

def literal (c : Char) : Text → Option Text
  | [] => none
  | d :: t => if c = d then some t else none

/-- `:[0-5]\d(\.\d+)?Z`, to the end. Digits of the fraction past the third are dropped. -/
def secondsThenZ (t : Text) : Option (Nat × Nat) := do
  let t ← literal ':' t
  let (second, t) ← digits 2 t
  if t = ['Z'] then some (second, 0)
  else
    let t ← literal '.' t
    let fraction := t.takeWhile Char.isDigit
    if isDigits fraction ∧ t.dropWhile Char.isDigit = ['Z'] then
      some (second, Nat.ofDigitChars 10 ((fraction ++ ['0', '0']).take 3) 0)
    else none

/-- The instant of some fields, if they are one. -/
def ofFields (year month day hour minute second millisecond : Nat) : Option IsoDatetime :=
  if h : (1 ≤ month ∧ month ≤ 12 ∧ 1 ≤ day ∧ day ≤ daysInMonth year month) ∧ year ≤ 9999 ∧
      hour < 24 ∧ minute < 60 ∧ second < 60 ∧ millisecond < 1000 then
    some
      { date := ⟨year, month, day, h.1.1, h.1.2.1, h.1.2.2.1, h.1.2.2.2⟩
        hour := hour
        minute := minute
        second := second
        millisecond := millisecond
        year_le := h.2.1
        hour_lt := h.2.2.1
        minute_lt := h.2.2.2.1
        second_lt := h.2.2.2.2.1
        millisecond_lt := h.2.2.2.2.2 }
  else none

/-- `z.iso.datetime()` and `new Date` of what it takes. -/
def parse (t : Text) : Option IsoDatetime := do
  let (year, t) ← digits 4 t
  let t ← literal '-' t
  let (month, t) ← digits 2 t
  let t ← literal '-' t
  let (day, t) ← digits 2 t
  let t ← literal 'T' t
  let (hour, t) ← digits 2 t
  let t ← literal ':' t
  let (minute, t) ← digits 2 t
  let (second, millisecond) ← secondsThenZ t
  ofFields year month day hour minute second millisecond

/-- The first instant of year 1, which follows 1 BC: PostgreSQL has no year 0. -/
def firstInstant : Int := ((daysBeforeYear 1 : Int) - daysBeforeYear 1970) * 86400000

theorem firstInstant_le_iff (d : IsoDatetime) : firstInstant ≤ d.time ↔ d.date.year ≠ 0 := by
  have hyear := d.date.le_year_iff 1
  have hhour := d.hour_lt
  have hminute := d.minute_lt
  have hsecond := d.second_lt
  have hmillisecond := d.millisecond_lt
  rw [firstInstant, time, ← Nat.one_le_iff_ne_zero, hyear]
  omega

end IsoDatetime

/-- A parsed JSON body. A literal beyond the doubles has become an infinity, here `none`. -/
inductive JsonBody where
  | null
  | bool (b : Bool)
  | num (value : Option Rat)
  | str (s : JsString)
  | arr (items : List JsonBody)
  | obj (fields : List (JsString × JsonBody))

/-- The first issue of a schema. What `zod` says of a field by itself is its own text. -/
inductive InputIssue where
  | field (path : String)
  | unrecognizedKeys
  | refinement (message path : String)
deriving DecidableEq

structure CreatePromotionInput where
  name : JsString
  discountType : DiscountType
  value : Nat
  startsAt : IsoDatetime
  endsAt : IsoDatetime
  productId : Option Nat
  category : Option JsString
deriving DecidableEq

structure AssignPromotionInput where
  productId : Option Nat
  category : Option JsString
deriving DecidableEq

structure CreateProductInput where
  sku : JsString
  name : JsString
  category : JsString
  basePriceCents : Nat
  stockQuantity : Nat
deriving DecidableEq

namespace AdminInput

/-- `z.string().trim().min(least).max(greatest)` -/
def string (least greatest : Nat) : Option JsonBody → Option JsString
  | some (.str s) =>
    if least ≤ s.trim.length ∧ s.trim.length ≤ greatest then some s.trim else none
  | _ => none

/-- `z.number().int()` between two bounds. `int` takes safe integers only. -/
def wholeNumber (least greatest : Nat) : Option JsonBody → Option Nat
  | some (.num (some q)) =>
    if q.den = 1 ∧ (least : Int) ≤ q.num ∧ q.num ≤ greatest ∧ q.num ≤ maxSafeInteger then
      some q.num.toNat
    else none
  | _ => none

def datetime : Option JsonBody → Option IsoDatetime
  | some (.str s) => IsoDatetime.parse s.toText
  | _ => none

/-- `z.enum(['percentage', 'fixed'])` -/
def discountType : Option JsonBody → Option DiscountType
  | some (.str s) =>
    if s = units "percentage" then some .percentage
    else if s = units "fixed" then some .fixed
    else none
  | _ => none

/-- `schema.optional()` -/
def optional (schema : Option JsonBody → Option α) : Option JsonBody → Option (Option α)
  | some value => (schema (some value)).map some
  | none => some none

def object : JsonBody → Except InputIssue (List (JsString × JsonBody))
  | .obj fields => .ok fields
  | _ => .error (.field "")

def field (fields : List (JsString × JsonBody)) (path : String)
    (schema : Option JsonBody → Option α) : Except InputIssue α :=
  match schema (fields.lookup (units path)) with
  | some value => .ok value
  | none => .error (.field path)

/-- `strictObject` refuses a key that its shape does not have. -/
def strict (fields : List (JsString × JsonBody)) (keys : List String) : Except InputIssue Unit :=
  if fields.all fun f => (keys.map units).contains f.1 then .ok ()
  else .error .unrecognizedKeys

def refine (holds : Bool) (message path : String) : Except InputIssue Unit :=
  if holds then .ok () else .error (.refinement message path)

end AdminInput

open AdminInput in
/-- The body of `POST /api/promotions`, read at an instant of the process's clock. -/
def createPromotionInput (now : Int) (body : JsonBody) :
    Except InputIssue CreatePromotionInput := do
  let fields ← object body
  let name ← field fields "name" (string 1 200)
  let discountType ← field fields "discountType" discountType
  let value ← field fields "value" (wholeNumber 1 2147483647)
  let startsAt ← field fields "startsAt" datetime
  let endsAt ← field fields "endsAt" datetime
  let productId ← field fields "productId" (optional (wholeNumber 1 maxSafeInteger))
  let category ← field fields "category" (optional (string 1 100))
  strict fields
    ["name", "discountType", "value", "startsAt", "endsAt", "productId", "category"]
  refine (productId.isNone || category.isNone)
    "a promotion targets one product or one category, never both" "category"
  refine (discountType ≠ .percentage || value ≤ 10000)
    "a percentage discount is at most 10000 basis points" "value"
  refine (endsAt.time > startsAt.time) "endsAt is after startsAt" "endsAt"
  refine (endsAt.time > now) "endsAt is in the future" "endsAt"
  .ok ⟨name, discountType, value, startsAt, endsAt, productId, category⟩

open AdminInput in
/-- Assigning names exactly one target: a draft with neither is still a draft. -/
def assignPromotionInput (body : JsonBody) : Except InputIssue AssignPromotionInput := do
  let fields ← object body
  let productId ← field fields "productId" (optional (wholeNumber 1 maxSafeInteger))
  let category ← field fields "category" (optional (string 1 100))
  strict fields ["productId", "category"]
  refine (productId.isNone != category.isNone)
    "assign names exactly one of productId or category" "category"
  .ok ⟨productId, category⟩

open AdminInput in
/-- The body of `POST /api/products`. -/
def createProductInput (body : JsonBody) : Except InputIssue CreateProductInput := do
  let fields ← object body
  let sku ← field fields "sku" (string 1 64)
  let name ← field fields "name" (string 1 200)
  let category ← field fields "category" (string 1 100)
  let basePriceCents ← field fields "basePriceCents" (wholeNumber 0 maxSafeInteger)
  let stockQuantity ← field fields "stockQuantity" (wholeNumber 0 2147483647)
  strict fields ["sku", "name", "category", "basePriceCents", "stockQuantity"]
  .ok ⟨sku, name, category, basePriceCents, stockQuantity⟩

/-- `z.string().regex(/^\d+$/).transform(Number).pipe(z.number().int().min(1))` -/
def promotionIdInput (id : Text) : Option Nat :=
  if isDigits id ∧ isSafeInteger (toNumber id) ∧ 1 ≤ toNumber id then some (toNumber id) else none

namespace AdminInput

theorem refine_ok (h : refine holds message path = .ok u) : holds = true := by
  rw [refine] at h
  split at h
  · assumption
  · cases h

theorem field_ok (h : field fields path schema = .ok value) :
    schema (fields.lookup (units path)) = some value := by
  rw [field] at h
  split at h
  · rename_i value' hs
    cases h
    exact hs
  · cases h

theorem wholeNumber_some (h : wholeNumber least greatest value = some n) :
    least ≤ n ∧ n ≤ greatest ∧ n ≤ maxSafeInteger := by
  cases value with
  | none => cases h
  | some value =>
    cases value with
    | num q =>
      cases q with
      | none => cases h
      | some q =>
        rw [wholeNumber] at h
        split at h
        · cases h
          omega
        · cases h
    | _ => cases h

theorem optional_some (h : optional schema value = some (some a)) :
    ∃ value', schema (some value') = some a := by
  cases value with
  | none => cases h
  | some value' =>
    obtain ⟨a', ha, he⟩ := Option.map_eq_some_iff.1 h
    cases he
    exact ⟨value', ha⟩

/-- A safe integer fits a `bigint`. -/
theorem le_maxBigint (h : n ≤ maxSafeInteger) : n ≤ maxBigint := by
  rw [maxSafeInteger] at h
  rw [maxBigint]
  omega

theorem optional_le_maxBigint
    (h : field fields path (optional (wholeNumber least greatest)) = .ok number) :
    ∀ n ∈ number, n ≤ maxBigint := by
  rintro n rfl
  obtain ⟨value, hv⟩ := optional_some (field_ok h)
  exact le_maxBigint (wholeNumber_some hv).2.2

end AdminInput

open AdminInput BasePriceCalculator

/-- What an accepted body of a new promotion meets, of the limits of the table. -/
structure CreatePromotionInput.Accepted (input : CreatePromotionInput) : Prop where
  value : 1 ≤ input.value ∧ input.value ≤ maxInteger
  productId : ∀ n ∈ input.productId, n ≤ maxBigint
  one_target : input.productId = none ∨ input.category = none
  percentage : input.discountType ≠ .percentage ∨ input.value ≤ 10000
  window : input.startsAt.time < input.endsAt.time

theorem createPromotionInput_accepted (h : createPromotionInput now body = .ok input) :
    input.Accepted := by
  obtain ⟨fields, _, h⟩ := ok_of_bind h
  obtain ⟨name, _, h⟩ := ok_of_bind h
  obtain ⟨discount, _, h⟩ := ok_of_bind h
  obtain ⟨value, hvalue, h⟩ := ok_of_bind h
  obtain ⟨startsAt, _, h⟩ := ok_of_bind h
  obtain ⟨endsAt, _, h⟩ := ok_of_bind h
  obtain ⟨productId, hproduct, h⟩ := ok_of_bind h
  obtain ⟨category, _, h⟩ := ok_of_bind h
  obtain ⟨_, _, h⟩ := ok_of_bind h
  obtain ⟨_, htarget, h⟩ := ok_of_bind h
  obtain ⟨_, hpercentage, h⟩ := ok_of_bind h
  obtain ⟨_, hwindow, h⟩ := ok_of_bind h
  obtain ⟨_, _, h⟩ := ok_of_bind h
  cases h
  have hbounds := wholeNumber_some (field_ok hvalue)
  refine ⟨⟨hbounds.1, hbounds.2.1⟩, optional_le_maxBigint hproduct, ?_, ?_,
    of_decide_eq_true (refine_ok hwindow)⟩
  · simpa only [Bool.or_eq_true, Option.isNone_iff_eq_none] using refine_ok htarget
  · simpa only [Bool.or_eq_true, decide_eq_true_eq] using refine_ok hpercentage

structure AssignPromotionInput.Accepted (input : AssignPromotionInput) : Prop where
  productId : ∀ n ∈ input.productId, n ≤ maxBigint
  one_target : (input.productId.isNone != input.category.isNone) = true

theorem assignPromotionInput_accepted (h : assignPromotionInput body = .ok input) :
    input.Accepted := by
  obtain ⟨fields, _, h⟩ := ok_of_bind h
  obtain ⟨productId, hproduct, h⟩ := ok_of_bind h
  obtain ⟨category, _, h⟩ := ok_of_bind h
  obtain ⟨_, _, h⟩ := ok_of_bind h
  obtain ⟨_, htarget, h⟩ := ok_of_bind h
  cases h
  exact ⟨optional_le_maxBigint hproduct, refine_ok htarget⟩

structure CreateProductInput.Accepted (input : CreateProductInput) : Prop where
  basePriceCents : input.basePriceCents ≤ maxBigint
  stockQuantity : input.stockQuantity ≤ maxInteger

theorem createProductInput_accepted (h : createProductInput body = .ok input) :
    input.Accepted := by
  obtain ⟨fields, _, h⟩ := ok_of_bind h
  obtain ⟨sku, _, h⟩ := ok_of_bind h
  obtain ⟨name, _, h⟩ := ok_of_bind h
  obtain ⟨category, _, h⟩ := ok_of_bind h
  obtain ⟨price, hprice, h⟩ := ok_of_bind h
  obtain ⟨stock, hstock, h⟩ := ok_of_bind h
  obtain ⟨_, _, h⟩ := ok_of_bind h
  cases h
  exact ⟨le_maxBigint (wholeNumber_some (field_ok hprice)).2.2,
    (wholeNumber_some (field_ok hstock)).2.1⟩

theorem promotionIdInput_le {id : Nat} (h : promotionIdInput text = some id) :
    id ≤ maxBigint := by
  rw [promotionIdInput] at h
  split at h
  · rename_i hid
    cases h
    exact le_maxBigint (of_decide_eq_true hid.2.1)
  · cases h

end PromotionManagement
