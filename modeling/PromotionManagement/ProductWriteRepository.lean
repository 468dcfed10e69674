import PromotionManagement.Library.Redis
import PromotionManagement.Text

namespace PromotionManagement
open Library
set_option autoImplicit true

abbrev ReadModel := RedisStore Text Int

/-- What the storefront holds of a product. -/
structure ProductEntry where
  id : Nat
  sku : Text
  name : Text
  category : Text
  basePriceCents : Int
  effectivePriceCents : Int
  stockQuantity : Nat
  promotionId : Option Nat
  promotionName : Option Text
  pricingRulesVersion : Option Int
deriving DecidableEq

namespace ProductReadRepository

def allProducts : Text := "products:all".toList

def productKey (id : Nat) : Text := "product:".toList ++ Nat.toDigits 10 id

def categoryKey (category : Text) : Text := "category:".toList ++ category

end ProductReadRepository

def padDigits (width n : Nat) : Text :=
  let digits := Nat.toDigits 10 n
  List.replicate (width - digits.length) '0' ++ digits

/-- The year, month and day of a count of days from 1970, in the calendar `Date` uses. -/
def civilDate (days : Nat) : Nat × Nat × Nat :=
  let z := days + 719468
  let doe := z % 146097
  let yoe := (doe - doe / 1460 + doe / 36524 - doe / 146096) / 365
  let doy := doe - (365 * yoe + yoe / 4 - yoe / 100)
  let mp := (5 * doy + 2) / 153
  let day := doy - (153 * mp + 2) / 5 + 1
  let month := if mp < 10 then mp + 3 else mp - 9
  (yoe + z / 146097 * 400 + (if month ≤ 2 then 1 else 0), month, day)

/-- `toISOString` of a date in milliseconds, up to the year 9999. -/
def isoString (ms : Nat) : Text :=
  let (year, month, day) := civilDate (ms / 86400000)
  padDigits 4 year ++ '-' :: padDigits 2 month ++ '-' :: padDigits 2 day ++
    'T' :: padDigits 2 (ms / 3600000 % 24) ++ ':' :: padDigits 2 (ms / 60000 % 60) ++
    ':' :: padDigits 2 (ms / 1000 % 60) ++ '.' :: padDigits 3 (ms % 1000) ++ ['Z']

example : isoString 1757635200123 = "2025-09-12T00:00:00.123Z".toList := by decide +kernel

/-- How a script ends: it applies, or answers with the token that won, or raises. -/
inductive ScriptReply where
  | applied
  | refused (token : Text)
  | raised
deriving DecidableEq

/-- What the head of both scripts finds out. -/
inductive TokenRead where
  | newer (wasCategory : Text)
  | refused (stored : Text)
  | raised

/-- `READ_TOKEN`: a token is the microseconds of a read, a colon and a category. -/
def readToken (db : ReadModel) (tokens id sourceReadAt : Text) : TokenRead :=
  match db.hget tokens id with
  | none => .newer []
  | some token =>
    match token.dropWhile (· ≠ ':') with
    | [] => .raised
    | _ :: wasCategory =>
      let stored := token.takeWhile (· ≠ ':')
      match number? stored, number? sourceReadAt with
      | some s, some r => if s ≥ r then .refused stored else .newer wasCategory
      | _, _ => .raised

/-- The `WRITE` script. -/
def writeProductEntry (db : ReadModel)
    (tokens entry category allProducts id sourceReadAt wasCategoryKey price categoryName : Text)
    (fields : List Text) : ReadModel × ScriptReply :=
  match readToken db tokens id sourceReadAt with
  | .raised => (db, .raised)
  | .refused stored => (db, .refused stored)
  | .newer wasCategory =>
    let db :=
      if wasCategory ≠ [] ∧ wasCategory ≠ categoryName then
        db.zrem (wasCategoryKey ++ wasCategory) id
      else db
    let db := db.hset tokens [id, sourceReadAt ++ ':' :: categoryName]
    let db := db.del entry
    let db := db.hset entry fields
    let db := db.zadd number? category price id
    let db := db.zadd number? allProducts price id
    (db, .applied)

/-- The `REMOVE` script. -/
def removeProductEntry (db : ReadModel)
    (tokens entry allProducts id sourceReadAt wasCategoryKey : Text) : ReadModel × ScriptReply :=
  match readToken db tokens id sourceReadAt with
  | .raised => (db, .raised)
  | .refused stored => (db, .refused stored)
  | .newer wasCategory =>
    let db := if wasCategory ≠ [] then db.zrem (wasCategoryKey ++ wasCategory) id else db
    let db := db.hset tokens [id, sourceReadAt ++ [':']]
    let db := db.del entry
    let db := db.zrem allProducts id
    (db, .applied)

namespace ProductWriteRepository

def tokens : Text := "readmodel:source-read-at".toList

/-- The fields of an entry. `updatedAt` is rendered from the token. -/
def fieldsOf (entry : ProductEntry) (sourceReadAt : Text) : List Text :=
  ["id".toList, Nat.toDigits 10 entry.id,
    "sku".toList, entry.sku,
    "name".toList, entry.name,
    "category".toList, entry.category,
    "basePriceCents".toList, intText entry.basePriceCents,
    "effectivePriceCents".toList, intText entry.effectivePriceCents,
    "stockQuantity".toList, Nat.toDigits 10 entry.stockQuantity,
    "updatedAt".toList, isoString (toNumber sourceReadAt / 1000)] ++
  (match entry.promotionId, entry.promotionName with
    | some id, some name =>
      ["promotionId".toList, Nat.toDigits 10 id, "promotionName".toList, name]
    | _, _ => []) ++
  (match entry.pricingRulesVersion with
    | some version => ["pricingRulesVersion".toList, intText version]
    | none => [])

/-- One call of `writeAll`. -/
def write (db : ReadModel) (entry : ProductEntry) (sourceReadAt : Text) :
    ReadModel × ScriptReply :=
  writeProductEntry db tokens (ProductReadRepository.productKey entry.id)
    (ProductReadRepository.categoryKey entry.category) ProductReadRepository.allProducts
    (Nat.toDigits 10 entry.id) sourceReadAt (ProductReadRepository.categoryKey [])
    (intText entry.effectivePriceCents) entry.category (fieldsOf entry sourceReadAt)

/-- One call of `removeAll`. -/
def remove (db : ReadModel) (id : Nat) (sourceReadAt : Text) : ReadModel × ScriptReply :=
  removeProductEntry db tokens (ProductReadRepository.productKey id)
    ProductReadRepository.allProducts (Nat.toDigits 10 id) sourceReadAt
    (ProductReadRepository.categoryKey [])

end ProductWriteRepository

/-- One execution of one of the two scripts, with the instant its source was read. -/
inductive ReadModelOp where
  | write (entry : ProductEntry) (sourceReadAt : Nat)
  | remove (id : Nat) (sourceReadAt : Nat)
deriving DecidableEq

namespace ReadModelOp

def productId : ReadModelOp → Nat
  | .write entry _ => entry.id
  | .remove id _ => id

def sourceReadAt : ReadModelOp → Nat
  | .write _ sourceReadAt => sourceReadAt
  | .remove _ sourceReadAt => sourceReadAt

def run (db : ReadModel) : ReadModelOp → ReadModel × ScriptReply
  | .write entry sourceReadAt =>
    ProductWriteRepository.write db entry (Nat.toDigits 10 sourceReadAt)
  | .remove id sourceReadAt =>
    ProductWriteRepository.remove db id (Nat.toDigits 10 sourceReadAt)

end ReadModelOp

def execute (db : ReadModel) (op : ReadModelOp) : ReadModel := (op.run db).1

end PromotionManagement
