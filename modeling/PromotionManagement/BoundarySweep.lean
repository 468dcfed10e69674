import PromotionManagement.EventQueue
import PromotionManagement.PromotionRepository
import Mathlib.Data.List.Sort
import Mathlib.Logic.Function.Basic

namespace PromotionManagement
open Library
set_option autoImplicit true

def commitLagSeconds : Int := 30

def maxWindowSeconds : Int := 3600

/-- A JavaScript `Date` holds whole milliseconds, and PostgreSQL counts microseconds. -/
def micros (date : Int) : Int := date * 1000

def PromotionRow.instants (p : PromotionRow) : List Int :=
  [p.startsAt, p.endsAt] ++ p.cancelledAt.toList ++ [p.createdAt]

/-- The `where` of the sweep: a promotion that is not a draft, with an instant in the window. -/
def PromotionRow.crosses (since windowEnd : Int) (p : PromotionRow) : Bool :=
  p.status ≠ .draft && p.instants.any fun b => micros since < b && b ≤ micros windowEnd

namespace BoundaryRepository

/-- `new Date` of the least of the two bounds, which drops its microseconds. -/
def windowEnd (now since : Int) : Int :=
  min (now - commitLagSeconds * 1000000) (micros since + maxWindowSeconds * 1000000) / 1000

def crossed (since windowEnd : Int) (rows : List PromotionRow) : List Nat :=
  (((rows.filter fun p => p.crosses since windowEnd).insertionSort
    fun p q => p.id ≤ q.id).map PromotionRow.id).eraseDups

end BoundaryRepository

def SweepBoundariesCommand.jobId (promotionId : Nat) (since : Int) : Text :=
  "sweep:".toList ++ Nat.toDigits 10 promotionId ++ ':' :: intText since

/-- What one sweep holds after its reads: the window, the rows its second query saw, the ids it
selected, and those it has yet to publish. -/
structure Sweep where
  since : Int
  windowEnd : Int
  snapshot : List PromotionRow
  promotionIds : List Nat
  toPublish : List Nat
deriving DecidableEq

inductive SweepPhase where
  | idle
  | bounded (since windowEnd : Int)
  | sweeping (sweep : Sweep)
deriving DecidableEq

/-- How a call ends. One that fails may have taken effect all the same. -/
inductive Outcome where
  | done
  | failed (landed : Bool)
deriving DecidableEq

def Outcome.lands : Outcome → Bool
  | .done => true
  | .failed landed => landed

/-- A `promotion.changed` job that the queue really took. -/
structure AddedJob where
  id : Text
  promotionId : Nat
  addedAt : Int
deriving DecidableEq

/-- The database, the queue and the sweepers, with what the run has done so far: when each
promotion became active, the jobs added (newest first) and the sweeps that moved the watermark. -/
structure SweepState where
  now : Int
  watermark : Int
  promotions : Promotions
  activeSince : Nat → Option Int
  sweepers : Nat → SweepPhase
  queue : JobQueue Text
  added : List AddedJob
  advanced : List Sweep

/-- A write carries the instant its transaction stamps and commits where it stands in the run. -/
inductive SweepEvent where
  | clock (now : Int)
  | insert (input : CreatePromotion) (stamp : Int)
  | assign (promotionId : Nat) (target : AssignPromotion) (stamp : Int)
  | cancel (promotionId : Nat) (stamp : Int)
  | bounds (sweeper : Nat)
  | read (sweeper : Nat)
  | publish (sweeper : Nat) (outcome : Outcome)
  | advance (sweeper : Nat) (outcome : Outcome)
  | kill (sweeper : Nat)
  | enqueue (job : Text) (promotionId : Nat)
  | complete (job : Text)
  | fail (job : Text)
  | retry (job : Text)
  | remove (job : Text)

namespace SweepState

def initial (now watermark : Int) (queue : JobQueue Text) : SweepState where
  now := now
  watermark := watermark
  promotions := .empty
  activeSince := fun _ => none
  sweepers := fun _ => .idle
  queue := queue
  added := []
  advanced := []

def setPhase (s : SweepState) (i : Nat) (phase : SweepPhase) : SweepState :=
  { s with sweepers := Function.update s.sweepers i phase }

/-- `promotion.changed` goes to the queue, which takes it unless it holds the id. -/
def addJob (s : SweepState) (id : Text) (promotionId : Nat) : SweepState :=
  { s with
    queue := s.queue.add id
    added := if s.queue.Holds id then s.added else ⟨id, promotionId, s.now⟩ :: s.added }

/-- A write of promotions, which makes the one it answers with active if it says so. -/
def write (s : SweepState) (written : Promotions × PromotionWriteOutcome) (stamp : Int) :
    SweepState :=
  { s with
    promotions := written.1
    activeSince :=
      match written.2 with
      | .ok row =>
        if row.status = .active then Function.update s.activeSince row.id (some stamp)
        else s.activeSince
      | _ => s.activeSince }

/-- The first query of `crossedSince`, and the answer it gives itself when the window is empty. -/
def readBounds (s : SweepState) (i : Nat) : SweepState :=
  let windowEnd := BoundaryRepository.windowEnd s.now s.watermark
  if windowEnd ≤ s.watermark then
    s.setPhase i (.sweeping ⟨s.watermark, s.watermark, [], [], []⟩)
  else s.setPhase i (.bounded s.watermark windowEnd)

/-- The second query of `crossedSince`. -/
def readRows (s : SweepState) (i : Nat) (since windowEnd : Int) : SweepState :=
  let rows := s.promotions.table.rows
  let promotionIds := BoundaryRepository.crossed since windowEnd rows
  s.setPhase i (.sweeping ⟨since, windowEnd, rows, promotionIds, promotionIds⟩)

def publishNext (s : SweepState) (i : Nat) (sweep : Sweep) (outcome : Outcome) : SweepState :=
  match sweep.toPublish with
  | [] => s
  | promotionId :: rest =>
    let id := SweepBoundariesCommand.jobId promotionId sweep.since
    let s := if outcome.lands then s.addJob id promotionId else s
    match outcome with
    | .done => s.setPhase i (.sweeping { sweep with toPublish := rest })
    | .failed _ => s.setPhase i .idle

/-- The compare-and-set of the watermark. -/
def advanceFrom (s : SweepState) (i : Nat) (sweep : Sweep) (outcome : Outcome) : SweepState :=
  { s.setPhase i .idle with
    watermark := if outcome.lands ∧ s.watermark = sweep.since then sweep.windowEnd else s.watermark
    advanced :=
      if outcome.lands ∧ s.watermark = sweep.since then s.advanced ++ [sweep] else s.advanced }

def step (productExists : Nat → Bool) (s : SweepState) : SweepEvent → SweepState
  | .clock now => { s with now := now }
  | .insert input stamp => s.write (s.promotions.insert productExists input stamp) stamp
  | .assign promotionId target stamp =>
    s.write (s.promotions.assign productExists promotionId target stamp) stamp
  | .cancel promotionId stamp =>
    { s with promotions := (s.promotions.cancel promotionId stamp).1 }
  | .bounds i =>
    match s.sweepers i with
    | .idle => s.readBounds i
    | _ => s
  | .read i =>
    match s.sweepers i with
    | .bounded since windowEnd => s.readRows i since windowEnd
    | _ => s
  | .publish i outcome =>
    match s.sweepers i with
    | .sweeping sweep => s.publishNext i sweep outcome
    | _ => s
  | .advance i outcome =>
    match s.sweepers i with
    | .sweeping sweep => if sweep.toPublish = [] then s.advanceFrom i sweep outcome else s
    | _ => s
  | .kill i => s.setPhase i .idle
  | .enqueue job promotionId => s.addJob job promotionId
  | .complete job => { s with queue := s.queue.complete job }
  | .fail job => { s with queue := s.queue.fail job }
  | .retry job => { s with queue := s.queue.retry job }
  | .remove job => { s with queue := s.queue.remove job }

/-- The sweep whose advance an event makes succeed. -/
def advancing (s : SweepState) : SweepEvent → Option Sweep
  | .advance i outcome =>
    match s.sweepers i with
    | .sweeping sweep =>
      if sweep.toPublish = [] ∧ outcome.lands ∧ s.watermark = sweep.since then some sweep
      else none
    | _ => none
  | _ => none

end SweepState

end PromotionManagement
