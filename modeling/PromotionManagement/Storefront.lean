import PromotionManagement.Library.Run
import PromotionManagement.ProductSourceRepository

namespace PromotionManagement
open Library
set_option autoImplicit true

/-- `product.upserted` and `promotion.changed`. -/
inductive Announcement where
  | upserted (productIds : List Nat)
  | changed (promotionId : Nat)
deriving DecidableEq

/-- Where a handler stands between two of its awaits. -/
inductive HandlerPhase where
  | idle
  | reading (productIds : List Nat)
  | writing (productIds : List Nat) (scripts : List ReadModelOp)
  | finding (promotionId : Nat)
  | publishing (promotionId productId : Nat)
  | scanning (promotionId : Nat) (category : Text) (afterId : Nat)
  | paging (promotionId : Nat) (category : Text) (productIds : List Nat)
deriving DecidableEq

namespace HandlerPhase

/-- The announcement a handler works on. -/
def announcement : HandlerPhase → Option Announcement
  | .idle => none
  | .reading productIds => some (.upserted productIds)
  | .writing productIds _ => some (.upserted productIds)
  | .finding promotionId => some (.changed promotionId)
  | .publishing promotionId _ => some (.changed promotionId)
  | .scanning promotionId _ _ => some (.changed promotionId)
  | .paging promotionId _ _ => some (.changed promotionId)

/-- The scripts a handler has sent and Redis has not run. -/
def scripts : HandlerPhase → List ReadModelOp
  | .writing _ scripts => scripts
  | _ => []

end HandlerPhase

def Announcement.start : Announcement → HandlerPhase
  | .upserted productIds => .reading productIds
  | .changed promotionId => .finding promotionId

/-- PostgreSQL, the announcements not yet taken, the handlers and Redis. `orphaned` are the scripts
of handlers that died, `executed` those that Redis has run. -/
structure StorefrontState where
  now : Int
  products : Catalogue
  promotions : Promotions
  pending : List Announcement
  handlers : Nat → HandlerPhase
  orphaned : List ReadModelOp
  lastReadAt : Nat
  readModel : ReadModel
  executed : List ReadModelOp

/-- What happens: a clock tick, a committed write, an announcement, or a step of a handler. -/
inductive StorefrontEvent where
  | clock (now : Int)
  | insertProduct (row : ProductRow)
  | updateProduct (productId : Nat) (values : ProductValues) (provenance : Option Provenance)
  | createPromotion (input : CreatePromotion) (stamp : Int)
  | assignPromotion (promotionId : Nat) (target : AssignPromotion) (stamp : Int)
  | cancelPromotion (promotionId : Nat) (stamp : Int)
  | announce (announcement : Announcement)
  | deliver (handler position : Nat)
  | read (handler sourceReadAt : Nat) (results : Nat → List RuleResult)
  | run (handler : Nat)
  | runOrphan (position : Nat)
  | find (handler : Nat)
  | publish (handler : Nat)
  | scan (handler : Nat)
  | kill (handler : Nat)

namespace ProductUpsertedHandler

/-- What `handle` sends to Redis, one read of PostgreSQL later. -/
def scripts (productIds : List Nat) (rows : List SourceRow) (sourceReadAt : Nat)
    (results : Nat → List RuleResult) : List ReadModelOp :=
  let found := ProductSourceRepository.found rows
  let deleted := productIds.filter fun id => found.find id = none
  let entries := found.rows.map fun row => ProductPricer.price row (results row.id)
  entries.map (fun entry => .write entry sourceReadAt) ++
    deleted.map fun id => .remove id sourceReadAt

end ProductUpsertedHandler

namespace PromotionChangedHandler

/-- Where `handle` goes with the promotion it found. -/
def next (promotionId : Nat) : Option PromotionRow → HandlerPhase
  | none => .idle
  | some p =>
    match p.productId, p.category with
    | some productId, _ => .publishing promotionId productId
    | none, some category => .scanning promotionId category 0
    | none, none => .idle

end PromotionChangedHandler

/-- An active promotion has a boundary after one instant and up to another. -/
def PromotionRow.hasBoundary (p : PromotionRow) (since upTo : Int) : Bool :=
  p.status = .active &&
    ((since < p.startsAt && p.startsAt ≤ upTo) || (since < p.endsAt && p.endsAt ≤ upTo))

namespace StorefrontState

def initial (now : Int) : StorefrontState where
  now := now
  products := .empty
  promotions := .empty
  pending := []
  handlers := fun _ => .idle
  orphaned := []
  lastReadAt := 0
  readModel := .empty
  executed := []

def announced (s : StorefrontState) (announcements : List Announcement) : StorefrontState :=
  { s with pending := s.pending ++ announcements }

def setHandler (s : StorefrontState) (i : Nat) (phase : HandlerPhase) : StorefrontState :=
  { s with handlers := Function.update s.handlers i phase }

@[simp] theorem setHandler_self (s : StorefrontState) (i : Nat) (phase : HandlerPhase) :
    (s.setHandler i phase).handlers i = phase := Function.update_self ..

/-- The clock does not step back, and each boundary it crosses is announced. -/
def tick (s : StorefrontState) (now : Int) : StorefrontState :=
  let now := max s.now now
  let crossed := s.promotions.table.rows.filter fun p => p.hasBoundary s.now now
  { s with now := now }.announced (crossed.map fun p : PromotionRow => .changed p.id)

/-- A new product, with the id its sequence gave it and a category that is not blank. -/
def insertProduct (s : StorefrontState) (row : ProductRow) : StorefrontState :=
  if 0 < row.id ∧ row.values.category ≠ [] ∧ s.products.find row.id = none then
    { s with products := s.products.insert row }.announced [.upserted [row.id]]
  else s

def assignValues (values : ProductValues) (provenance : Option Provenance) (row : ProductRow) :
    ProductRow :=
  { row with values := values, provenance := provenance }

theorem assignValues_id (values : ProductValues) (provenance : Option Provenance)
    (row : ProductRow) : (assignValues values provenance row).id = row.id := rfl

def updateProduct (s : StorefrontState) (productId : Nat) (values : ProductValues)
    (provenance : Option Provenance) : StorefrontState :=
  if values.category ≠ [] then
    let products := Table.update s.products productId (fun _ => true)
      (assignValues values provenance) (assignValues_id values provenance)
    { s with products := products }.announced [.upserted [productId]]
  else s

/-- A created or assigned promotion is announced when it is already running; a later start is a
boundary of its own. -/
def write (s : StorefrontState) (written : Promotions × PromotionWriteOutcome) :
    StorefrontState :=
  { s with promotions := written.1 }.announced
    (match written.2 with
      | .ok row =>
        if row.status = PromotionStatus.active ∧ row.startsAt ≤ s.now then [.changed row.id] else []
      | _ => [])

def productExists (s : StorefrontState) (id : Nat) : Bool := (s.products.find id).isSome

def cancelPromotion (s : StorefrontState) (promotionId : Nat) (stamp : Int) : StorefrontState :=
  let cancelled := s.promotions.cancel promotionId stamp
  { s with promotions := cancelled.1 }.announced
    (match cancelled.2 with
      | some (row, true) => [.changed row.id]
      | _ => [])

def active (s : StorefrontState) : List PromotionRow :=
  ProductSourceRepository.activePromotions s.promotions.table.rows s.now

/-- The source row of a product, as a read at this instant gives it. -/
def current (s : StorefrontState) (row : ProductRow) : SourceRow :=
  ProductSourceRepository.current s.active row

def deliver (s : StorefrontState) (i position : Nat) : StorefrontState :=
  match s.handlers i, s.pending[position]? with
  | .idle, some announcement =>
    { s with pending := s.pending.eraseIdx position }.setHandler i announcement.start
  | _, _ => s

/-- One statement reads the rows and the instant, a later one than any read before it; the engine
is then asked about each row. -/
def read (engine : PromotionEngine) (s : StorefrontState) (i sourceReadAt : Nat)
    (results : Nat → List RuleResult) : StorefrontState :=
  match s.handlers i with
  | .reading productIds =>
    let rows := ProductSourceRepository.read s.products s.active productIds
    let found := ProductSourceRepository.found rows
    if s.lastReadAt < sourceReadAt ∧ sourceReadAt < 2 ^ 53 ∧
        ∀ row ∈ found.rows, engine (ProductPricer.facts row) (results row.id) then
      { s with lastReadAt := sourceReadAt }.setHandler i
        (.writing productIds (ProductUpsertedHandler.scripts productIds rows sourceReadAt results))
    else s
  | _ => s

/-- Redis runs the next script of a handler, which ends after its last one. -/
def runNext (s : StorefrontState) (i : Nat) : StorefrontState :=
  match s.handlers i with
  | .writing productIds (op :: scripts) =>
    { s with readModel := execute s.readModel op, executed := s.executed ++ [op] }.setHandler i
      (.writing productIds scripts)
  | .writing _ [] => s.setHandler i .idle
  | _ => s

/-- Redis runs a script whose handler has died since it sent it. -/
def runOrphan (s : StorefrontState) (position : Nat) : StorefrontState :=
  match s.orphaned[position]? with
  | some op =>
    { s with
      readModel := execute s.readModel op
      executed := s.executed ++ [op]
      orphaned := s.orphaned.eraseIdx position }
  | none => s

def find (s : StorefrontState) (i : Nat) : StorefrontState :=
  match s.handlers i with
  | .finding promotionId =>
    s.setHandler i (PromotionChangedHandler.next promotionId (s.promotions.table.find promotionId))
  | _ => s

/-- One page of `recomputeCategory`, which ends at the first empty one. -/
def scan (s : StorefrontState) (i : Nat) : StorefrontState :=
  match s.handlers i with
  | .scanning promotionId category afterId =>
    match ProductSourceRepository.idsInCategory s.products category afterId with
    | [] => s.setHandler i .idle
    | productIds => s.setHandler i (.paging promotionId category productIds)
  | _ => s

def publish (s : StorefrontState) (i : Nat) : StorefrontState :=
  match s.handlers i with
  | .publishing _ productId => (s.announced [.upserted [productId]]).setHandler i .idle
  | .paging promotionId category productIds =>
    (s.announced [.upserted productIds]).setHandler i
      (.scanning promotionId category (productIds.getLast?.getD 0))
  | _ => s

/-- A handler dies or throws: its announcement is delivered again, and the scripts it has sent may
still run. -/
def kill (s : StorefrontState) (i : Nat) : StorefrontState :=
  { s with orphaned := s.orphaned ++ (s.handlers i).scripts }.announced
    (s.handlers i).announcement.toList |>.setHandler i .idle

def step (engine : PromotionEngine) (s : StorefrontState) : StorefrontEvent → StorefrontState
  | .clock now => s.tick now
  | .insertProduct row => s.insertProduct row
  | .updateProduct productId values provenance => s.updateProduct productId values provenance
  | .createPromotion input stamp =>
    s.write (s.promotions.insert s.productExists input stamp)
  | .assignPromotion promotionId target stamp =>
    s.write (s.promotions.assign s.productExists promotionId target stamp)
  | .cancelPromotion promotionId stamp => s.cancelPromotion promotionId stamp
  | .announce announcement => s.announced [announcement]
  | .deliver i position => s.deliver i position
  | .read i sourceReadAt results => s.read engine i sourceReadAt results
  | .run i => s.runNext i
  | .runOrphan position => s.runOrphan position
  | .find i => s.find i
  | .publish i => s.publish i
  | .scan i => s.scan i
  | .kill i => s.kill i

end StorefrontState

end PromotionManagement
