import Mathlib.Data.Char
import PromotionManagement.Library.SortedSet
import PromotionManagement.StoredProduct

namespace PromotionManagement
open Library
set_option autoImplicit true

inductive SortOrder where
  | asc
  | desc
deriving DecidableEq

/-- A listing request that the schema has taken. -/
structure ListProductsInput where
  category : Option Text
  order : SortOrder
  page : Nat
  pageSize : Nat
  category_length : ∀ c ∈ category, 1 ≤ c.length16 ∧ c.length16 ≤ 256
  page_pos : 1 ≤ page
  pageSize_pos : 1 ≤ pageSize
  pageSize_le : pageSize ≤ 100
  offset_le : (page - 1) * pageSize ≤ 10000

namespace ListProductsInput

def offset (input : ListProductsInput) : Nat := (input.page - 1) * input.pageSize

/-- The names and values of a query string. A name that comes twice is an array, which no field
takes. -/
abbrev Query := List (Text × Text)

def fields : List String := ["category", "sort", "order", "page", "pageSize"]

/-- A field of the query: the schema of a value that is there, or the default. -/
def field (query : Query) (name : String) (schema : Text → Option α) (absent : α) : Option α :=
  match query.filter fun pair => pair.1 = name.toList with
  | [] => some absent
  | [pair] => schema pair.2
  | _ => none

def digits (max : Nat) (value : Text) : Option Nat :=
  if isDigits value ∧ isSafeInteger (toNumber value) ∧ 1 ≤ toNumber value ∧ toNumber value ≤ max
  then some (toNumber value)
  else none

def order? (value : Text) : Option SortOrder :=
  if value = "asc".toList then some .asc else if value = "desc".toList then some .desc else none

end ListProductsInput

open ListProductsInput in
def listProductsInput (query : Query) : Option ListProductsInput := do
  let category ← field query "category" (fun c => some (some c)) none
  let _ ← field query "sort" (fun v => if v = "effectivePrice".toList then some () else none) ()
  let order ← field query "order" order? .asc
  let page ← field query "page" (digits maxSafeInteger) 1
  let pageSize ← field query "pageSize" (digits 100) 20
  if h : (∀ c ∈ category, 1 ≤ c.length16 ∧ c.length16 ≤ 256) ∧ 1 ≤ page ∧ 1 ≤ pageSize ∧
      pageSize ≤ 100 ∧ (page - 1) * pageSize ≤ 10000 ∧
      query.all (fun pair => fields.any fun name => pair.1 = name.toList) = true then
    some ⟨category, order, page, pageSize, h.1, h.2.1, h.2.2.1, h.2.2.2.1, h.2.2.2.2.1⟩
  else none

/-- The digits of a product's id, in the path. -/
def findProductInput (value : Text) : Option Nat :=
  if isDigits value ∧ isSafeInteger (toNumber value) ∧ 1 ≤ toNumber value then
    some (toNumber value)
  else none

/-- The id of a product asks for it. -/
theorem findProductInput_toDigits (hpos : 1 ≤ n) (h : n ≤ maxSafeInteger) :
    findProductInput (Nat.toDigits 10 n) = some n := by
  have hs : isSafeInteger n = true := decide_eq_true h
  rw [findProductInput, toNumber_toDigits_of_safe h, if_pos ⟨isDigits_toDigits n, hs, hpos⟩]

/-- Why a read of the storefront gives no answer. -/
inductive ReadFailure where
  | unavailable
  | wrongType (key : Text)
  | unparsable (issue : Issue)
  | notFound
deriving DecidableEq

abbrev RedisReads := RedisSnapshot Text Int

/-- A hash, as a list of its fields and values. -/
abbrev HashReply := List (Text × Text)

namespace ProductReadRepository

def listKey : Option Text → Text
  | none => allProducts
  | some category => categoryKey category

/-- `productKey` of a member of an index, which goes to Redis as it is. -/
def memberKey (member : Text) : Text := "product:".toList ++ member

/-- `classify`: `WRONGTYPE` names the key, and anything else is a store that was not reached. -/
def reached (key : Text) : Option (Except RedisError α) → Except ReadFailure α
  | none => .error .unavailable
  | some (.error .wrongType) => .error (.wrongType key)
  | some (.ok reply) => .ok reply

/-- `undefined` for an empty hash, which is how Redis says no key. -/
def present (hash : HashReply) : Option HashReply := if hash = [] then none else some hash

def find (redis : Option RedisReads) (id : Nat) : Except ReadFailure (Option HashReply) := do
  let hash ← reached (productKey id) (redis.map fun snap => snap.hgetall (productKey id))
  return present hash

def page (redis : Option RedisReads) (category : Option Text) (order : SortOrder)
    (offset size : Nat) : Except ReadFailure (List Text) :=
  let key := listKey category
  reached key (redis.map fun snap => snap.zrange key (order = .desc) offset size)

def count (redis : Option RedisReads) (category : Option Text) : Except ReadFailure Nat :=
  let key := listKey category
  reached key (redis.map fun snap => snap.zcard key)

/-- One pipeline, whose commands other clients' commands may come between. -/
def findAll (redis : Nat → Option RedisReads) :
    List Text → Except ReadFailure (List (Option HashReply))
  | [] => .ok []
  | id :: ids => do
    let hash ← reached (memberKey id) ((redis 0).map fun snap => snap.hgetall (memberKey id))
    let hashes ← findAll (fun n => redis (n + 1)) ids
    return present hash :: hashes

end ProductReadRepository

/-- `productView.parse` -/
def parseView (hash : HashReply) : Except ReadFailure ProductView :=
  (productView (RedisSnapshot.field hash)).mapError .unparsable

/-- What a listing answers, and the members that its log line names. -/
structure ProductPage where
  items : List ProductView
  page : Nat
  pageSize : Nat
  total : Nat
  dropped : List Text
deriving DecidableEq

open ProductReadRepository

/-- `redis n` is what the `n`th command finds: Redis as it is when it runs that command, or no
Redis. -/
def ListProductsQuery.execute (redis : Nat → Option RedisReads) (input : ListProductsInput) :
    Except ReadFailure ProductPage := do
  let ids ← page (redis 0) input.category input.order input.offset input.pageSize
  let total ← count (redis 1) input.category
  let hashes ← findAll (fun n => redis (n + 2)) ids
  let dropped := ((ids.zip hashes).filter fun pair => pair.2.isNone).map Prod.fst
  let items ← (hashes.filterMap fun hash => hash).mapM parseView
  return ⟨items, input.page, input.pageSize, total, dropped⟩

def FindProductQuery.execute (redis : Option RedisReads) (id : Nat) :
    Except ReadFailure ProductView := do
  match ← find redis id with
  | none => .error .notFound
  | some hash => parseView hash

end PromotionManagement
