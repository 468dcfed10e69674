import PromotionManagement.QuietWrites
import PromotionManagement.SweepPromptness

namespace PromotionManagement
open Library
set_option autoImplicit true

namespace SweepState

/-- The job that a sweep asks the queue to take, and its promotion. -/
def publishing (s : SweepState) : SweepEvent → Option (Text × Nat)
  | .publish i outcome =>
    match s.sweepers i with
    | .sweeping w =>
      match w.toPublish with
      | [] => none
      | promotionId :: _ =>
        if outcome.lands then some (SweepBoundariesCommand.jobId promotionId w.since, promotionId)
        else none
    | _ => none
  | _ => none

/-- The promotions that an event has the queue really take a job for. -/
def adding (s : SweepState) : SweepEvent → List Nat
  | .enqueue job promotionId => if s.queue.Holds job then [] else [promotionId]
  | e =>
    match s.publishing e with
    | some (job, promotionId) => if s.queue.Holds job then [] else [promotionId]
    | none => []

/-- The promotions whose job a sweep published under an id that the queue still held. -/
def dropping (s : SweepState) (e : SweepEvent) : List Nat :=
  match s.publishing e with
  | some (job, promotionId) => if s.queue.Holds job then [promotionId] else []
  | none => []

/-- The promotions whose prices an event changes there and then. -/
def repriced (productExists : Nat → Bool) (s : SweepState) : SweepEvent → List Nat
  | .clock now =>
    (s.promotions.table.rows.filter fun p => p.hasBoundary s.now now).map PromotionRow.id
  | .insert input stamp => (s.promotions.insert productExists input stamp).2.running s.now
  | .assign promotionId target stamp =>
    (s.promotions.assign productExists promotionId target stamp).2.running s.now
  | .cancel promotionId stamp =>
    match (s.promotions.cancel promotionId stamp).2 with
    | some (row, true) => [row.id]
    | _ => []
  | _ => []

end SweepState

/-- What the storefront sees of an event: a move of the clock, or a write of promotions. -/
def SweepEvent.source : SweepEvent → Option StorefrontEvent
  | .clock now => some (.clock now)
  | .insert input stamp => some (.createPromotion input stamp)
  | .assign promotionId target stamp => some (.assignPromotion promotionId target stamp)
  | .cancel promotionId stamp => some (.cancelPromotion promotionId stamp)
  | _ => none

/-- The storefront, and the sweeps that announce promotions to it: no write of a promotion does, and
no move of the clock. Since the queue last took a job for it, each of `stale` repriced products, and
a sweep's job for each of `dropped` was not taken. -/
structure SweptState where
  front : StorefrontState
  sweep : SweepState
  stale : List Nat
  dropped : List Nat

inductive SweptEvent where
  | sweep (e : SweepEvent)
  | front (e : StorefrontEvent)

namespace SweptState

def initial (now watermark : Int) (queue : JobQueue Text) : SweptState where
  front := .initial now
  sweep := .initial now watermark queue
  stale := []
  dropped := []

def adding (s : SweptState) : SweptEvent → List Nat
  | .sweep e => s.sweep.adding e
  | .front _ => []

def repriced (s : SweptState) : SweptEvent → List Nat
  | .sweep e => s.sweep.repriced s.front.productExists e
  | .front _ => []

def dropping (s : SweptState) : SweptEvent → List Nat
  | .sweep e => s.sweep.dropping e
  | .front _ => []

def step (engine : PromotionEngine) (s : SweptState) : SweptEvent → SweptState
  | .sweep e =>
    let sweep := SweepState.step s.front.productExists s.sweep e
    let added := s.sweep.adding e
    { front := { s.front with now := sweep.now, promotions := sweep.promotions }.announced
        (added.map .changed)
      sweep := sweep
      stale := (s.stale ++ s.sweep.repriced s.front.productExists e).filter fun id => id ∉ added
      dropped := (s.dropped ++ s.sweep.dropping e).filter fun id => id ∉ added }
  | .front e => if e.writesPromotions then s else { s with front := s.front.step engine e }

end SweptState

end PromotionManagement
