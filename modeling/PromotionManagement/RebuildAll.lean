import PromotionManagement.RebuildReadModelCommand

namespace PromotionManagement
open Library ProductSourceRepository ProductReadRepository
set_option autoImplicit true

/-- What a batch of ids is for: a page of the catalogue, or what a `SCAN` found without a row. -/
inductive RebuildPass where
  | pages (afterId : Nat)
  | orphans (last : Bool)
deriving DecidableEq

/-- Where a call of `rebuildAll` stands between two of its awaits. -/
inductive RebuildPhase where
  | waiting
  | paging (afterId : Nat)
  | recomputing (pass : RebuildPass) (productIds : List Nat)
  | writing (pass : RebuildPass) (scripts : List ReadModelOp)
  | scanning
  | looking (ids : List Nat) (last : Bool)
  | publishing
  | published
  | failed
deriving DecidableEq

/-- Where a call goes once its batch has been handled. -/
def RebuildPass.next : RebuildPass → RebuildPhase
  | .pages afterId => .paging afterId
  | .orphans true => .publishing
  | .orphans false => .scanning

def RebuildPhase.scripts : RebuildPhase → List ReadModelOp
  | .writing _ scripts => scripts
  | _ => []

/-- A call: the catalogue and the newest read when it began, the reads it made, the ids its `SCAN`
has returned, and the ids whose keys have been there since it began until they were returned. -/
structure Rebuild where
  began : Catalogue
  beganAt : Nat
  reads : List Nat
  seen : List Nat
  steady : List Nat
  phase : RebuildPhase

/-- A read of PostgreSQL and what it read. -/
structure SourceReading where
  products : Catalogue
  read : SourceRead

/-- PostgreSQL, Redis, the calls, and the calls that have set `readmodel:ready`. `sent` are scripts
of event handlers, or of calls that have failed, that Redis has not run; `executed` those it has
run. -/
structure RebuildState where
  products : Catalogue
  lastReadAt : Nat
  log : List SourceReading
  readModel : ReadModel
  executed : List ReadModelOp
  sent : List ReadModelOp
  rebuilds : Nat → Rebuild
  opened : List Nat

/-- A committed write, a handler's read, a script run for it, or a step of a call. -/
inductive RebuildEvent where
  | insertProduct (row : ProductRow)
  | updateProduct (productId : Nat) (values : ProductValues) (provenance : Option Provenance)
  | handle (productIds : List Nat) (source : SourceRead)
  | run (position : Nat)
  | begin (call : Nat)
  | page (call : Nat)
  | read (call : Nat) (source : SourceRead)
  | write (call : Nat)
  | scan (call : Nat) (ids : List Nat) (last : Bool)
  | look (call : Nat)
  | publish (call : Nat)
  | throw (call : Nat)

namespace RebuildState

/-- A catalogue, and a read model that some scripts have left, while others are on their way. -/
def start (products : Catalogue) (lastReadAt : Nat) (executed sent : List ReadModelOp) :
    RebuildState where
  products := products
  lastReadAt := lastReadAt
  log := []
  readModel := Library.run execute .empty executed
  executed := executed
  sent := sent
  rebuilds := fun _ => ⟨.empty, 0, [], [], [], .waiting⟩
  opened := []

/-- `product:<id>` is there. Every hash a script writes has an id. -/
def present (s : RebuildState) (id : Nat) : Bool :=
  (s.readModel.hget (productKey id) "id".toList).isSome

/-- The ids whose keys are there. -/
def keys (s : RebuildState) : List Nat :=
  ((s.executed.map ReadModelOp.productId).dedup).filter s.present

def setRebuild (s : RebuildState) (i : Nat) (rebuild : Rebuild) : RebuildState :=
  { s with rebuilds := Function.update s.rebuilds i rebuild }

@[simp] theorem setRebuild_self (s : RebuildState) (i : Nat) (rebuild : Rebuild) :
    (s.setRebuild i rebuild).rebuilds i = rebuild := Function.update_self ..

theorem setRebuild_of_ne (s : RebuildState) (rebuild : Rebuild) (h : j ≠ i) :
    (s.setRebuild i rebuild).rebuilds j = s.rebuilds j := Function.update_of_ne h ..

def setPhase (s : RebuildState) (i : Nat) (phase : RebuildPhase) : RebuildState :=
  s.setRebuild i { s.rebuilds i with phase := phase }

/-- A new product, with the id its sequence gave it and a category that is not blank. -/
def insertProduct (s : RebuildState) (row : ProductRow) : RebuildState :=
  if 0 < row.id ∧ row.values.category ≠ [] ∧ s.products.find row.id = none then
    { s with products := s.products.insert row }
  else s

def updateProduct (s : RebuildState) (productId : Nat) (values : ProductValues)
    (provenance : Option Provenance) : RebuildState :=
  if values.category ≠ [] then
    let products := Table.update s.products productId (fun _ => true)
      (StorefrontState.assignValues values provenance)
      (StorefrontState.assignValues_id values provenance)
    { s with products := products }
  else s

/-- A read comes later than every read before it, at an instant a double holds exactly. -/
def Later (s : RebuildState) (source : SourceRead) : Prop :=
  s.lastReadAt < source.sourceReadAt ∧ source.sourceReadAt < 2 ^ 53

instance (s : RebuildState) (source : SourceRead) : Decidable (s.Later source) :=
  inferInstanceAs (Decidable (_ ∧ _))

def readAt (s : RebuildState) (source : SourceRead) : RebuildState :=
  { s with lastReadAt := source.sourceReadAt, log := s.log ++ [⟨s.products, source⟩] }

/-- What `ProductUpsertedHandler.handle` sends after a read. -/
def scripts (s : RebuildState) (productIds : List Nat) (source : SourceRead) :
    List ReadModelOp :=
  ProductUpsertedHandler.scripts productIds
    (ProductSourceRepository.read s.products source.active productIds) source.sourceReadAt
    source.results

/-- An event handler, or a scoped rebuild, reads and sends its scripts. -/
def handle (s : RebuildState) (productIds : List Nat) (source : SourceRead) : RebuildState :=
  if s.Later source then
    { s.readAt source with sent := s.sent ++ s.scripts productIds source }
  else s

def runScript (s : RebuildState) (op : ReadModelOp) : RebuildState :=
  { s with readModel := execute s.readModel op, executed := s.executed ++ [op] }

/-- Redis runs a script of a handler. They may arrive in any order, or never. -/
def run (s : RebuildState) (position : Nat) : RebuildState :=
  match s.sent[position]? with
  | some op => { s.runScript op with sent := s.sent.eraseIdx position }
  | none => s

def begin (s : RebuildState) (i : Nat) : RebuildState :=
  match (s.rebuilds i).phase with
  | .waiting => s.setRebuild i ⟨s.products, s.lastReadAt, [], [], s.keys, .paging 0⟩
  | _ => s

/-- The next page of the catalogue, or the first `SCAN` after the last one. -/
def page (s : RebuildState) (i : Nat) : RebuildState :=
  match (s.rebuilds i).phase with
  | .paging afterId =>
    let productIds := idsAfter s.products afterId
    if h : productIds = [] then s.setPhase i .scanning
    else s.setPhase i (.recomputing (.pages (productIds.getLast h)) productIds)
  | _ => s

/-- The read of a batch, whose scripts are then sent. -/
def read (s : RebuildState) (i : Nat) (source : SourceRead) : RebuildState :=
  match (s.rebuilds i).phase with
  | .recomputing pass productIds =>
    if s.Later source then
      (s.readAt source).setRebuild i
        { s.rebuilds i with
          reads := (s.rebuilds i).reads ++ [source.sourceReadAt]
          phase := .writing pass (s.scripts productIds source) }
    else s
  | _ => s

/-- Redis runs the next script of a batch, which has been handled after its last one. -/
def write (s : RebuildState) (i : Nat) : RebuildState :=
  match (s.rebuilds i).phase with
  | .writing pass (op :: scripts) => (s.runScript op).setPhase i (.writing pass scripts)
  | .writing pass [] => s.setPhase i pass.next
  | _ => s

/-- One `SCAN` call returns keys that are there. By the last one, every key that was there
throughout has been returned. -/
def scan (s : RebuildState) (i : Nat) (ids : List Nat) (last : Bool) : RebuildState :=
  match (s.rebuilds i).phase with
  | .scanning =>
    if (∀ id ∈ ids, s.present id) ∧
        (last → ∀ id ∈ (s.rebuilds i).steady, id ∈ (s.rebuilds i).seen ++ ids) then
      s.setRebuild i
        { s.rebuilds i with seen := (s.rebuilds i).seen ++ ids, phase := .looking ids last }
    else s
  | _ => s

/-- The ids that PostgreSQL does not hold are recomputed. -/
def look (s : RebuildState) (i : Nat) : RebuildState :=
  match (s.rebuilds i).phase with
  | .looking ids last =>
    let present := presentIds s.products ids
    let orphans := ids.filter fun id => id ∉ present
    if orphans = [] then s.setPhase i (RebuildPass.orphans last).next
    else s.setPhase i (.recomputing (.orphans last) orphans)
  | _ => s

/-- Sets `readmodel:ready`. -/
def publish (s : RebuildState) (i : Nat) : RebuildState :=
  match (s.rebuilds i).phase with
  | .publishing => { s with opened := s.opened ++ [i] }.setPhase i .published
  | _ => s

/-- A call throws wherever it is; the scripts it has sent may still run. -/
def throw (s : RebuildState) (i : Nat) : RebuildState :=
  match (s.rebuilds i).phase with
  | .waiting => s
  | .published => s
  | .failed => s
  | phase => { s with sent := s.sent ++ phase.scripts }.setPhase i .failed

def act (s : RebuildState) : RebuildEvent → RebuildState
  | .insertProduct row => s.insertProduct row
  | .updateProduct productId values provenance => s.updateProduct productId values provenance
  | .handle productIds source => s.handle productIds source
  | .run position => s.run position
  | .begin i => s.begin i
  | .page i => s.page i
  | .read i source => s.read i source
  | .write i => s.write i
  | .scan i ids last => s.scan i ids last
  | .look i => s.look i
  | .publish i => s.publish i
  | .throw i => s.throw i

/-- A key that is gone before a call's `SCAN` has returned it was not there throughout. -/
def watched (s : RebuildState) (rebuild : Rebuild) : Rebuild :=
  { rebuild with steady := rebuild.steady.filter fun id => id ∈ rebuild.seen || s.present id }

def step (s : RebuildState) (e : RebuildEvent) : RebuildState :=
  { s.act e with rebuilds := fun i => (s.act e).watched ((s.act e).rebuilds i) }

end RebuildState

end PromotionManagement
