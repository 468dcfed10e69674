import PromotionManagement.AnnouncementFailures
import PromotionManagement.QuietWrites

namespace PromotionManagement
open Library
set_option autoImplicit true

/-- A call that the request of a committed write has yet to bring to the queue, and the time since
when it may start it. A publication that cancels is followed by removals, once it is confirmed. -/
structure Asked where
  operation : QueueOperation
  since : Int
  cancels : Bool
deriving DecidableEq

namespace Asked

def jobId (asked : Asked) : Option Text :=
  match asked.operation with
  | .publish _ (some options) => some options.jobId
  | _ => none

end Asked

/-- What a write stamped at an instant goes on to ask of the queue. -/
def PromotionWriteOutcome.asks (newDate : Int → Int) (stamp since : Int) :
    PromotionWriteOutcome → List Asked
  | .ok row =>
    if row.status = .active then
      (dueJobs (row.view newDate) (stamp / 1000)).map fun operation => ⟨operation, since, false⟩
    else []
  | _ => []

def StorefrontState.asks (newDate : Int → Int) (s : StorefrontState) (since : Int) :
    StorefrontEvent → List Asked
  | .createPromotion input stamp =>
    (s.promotions.insert s.productExists input stamp).2.asks newDate stamp since
  | .assignPromotion promotionId target stamp =>
    (s.promotions.assign s.productExists promotionId target stamp).2.asks newDate stamp since
  | .cancelPromotion promotionId stamp =>
    match (s.promotions.cancel promotionId stamp).2 with
    | some (row, true) => [⟨.publish row.id none, since, true⟩]
    | _ => []
  | _ => []

/-- The storefront, the requests that announce promotions, and the queue of their jobs. `delayed`
are the jobs of boundaries that no worker has taken, and `held` the ids of such jobs, taken or not,
that the queue has not forgotten. Each of `stale` has repriced products since it was last announced,
and `lost` are the calls that came to nothing. -/
structure AnnouncedState where
  front : StorefrontState
  asked : List Asked
  delayed : List QueuedJob
  held : List Text
  stale : List Nat
  lost : List Asked

/-- Calls land or are lost in any order. One that lands may be reported as failed, as `confirmed`
tells, and one that is lost may be that of a request that died. -/
inductive AnnouncedEvent where
  | front (e : StorefrontEvent)
  | land (position : Nat) (startedAt : Int) (confirmed : Bool)
  | lose (position : Nat)
  | take (position : Nat)
  | forget (jobId : Text)

namespace AnnouncedState

def initial (now : Int) : AnnouncedState := ⟨.initial now, [], [], [], [], []⟩

/-- The clock of the processes, in milliseconds, which is off that of the database. -/
def clock (skew : Int) (s : AnnouncedState) : Int := s.front.now / 1000 + skew

def announce (s : AnnouncedState) (promotionId : Nat) : AnnouncedState :=
  { s with
    front := s.front.announced [.changed promotionId]
    stale := s.stale.filter fun id => id ∉ [promotionId] }

/-- The queue takes a delayed job, unless it holds the id. -/
def schedule (s : AnnouncedState) (startedAt : Int) (promotionId : Nat) (options : JobsOptions) :
    AnnouncedState :=
  if s.held.any fun id => id = options.jobId then s
  else
    { s with
      delayed := s.delayed ++ [⟨options.jobId, promotionId, startedAt + options.delay⟩]
      held := options.jobId :: s.held }

def forget (s : AnnouncedState) (jobId : Text) : List Text := s.held.filter fun id => id ≠ jobId

/-- A job that a worker has taken is locked, and stays. -/
def remove (s : AnnouncedState) (jobId : Text) : AnnouncedState :=
  { s with
    delayed := s.delayed.filter fun job => job.jobId ≠ jobId
    held := if s.delayed.any fun job => job.jobId = jobId then s.forget jobId else s.held }

def removals (promotionId : Nat) (since : Int) : List Asked :=
  [⟨.remove (PromotionScheduler.jobId promotionId .activate), since, false⟩,
    ⟨.remove (PromotionScheduler.jobId promotionId .expire), since, false⟩]

def land (skew : Int) (s : AnnouncedState) (startedAt : Int) (confirmed : Bool) (asked : Asked) :
    AnnouncedState :=
  match asked.operation with
  | .publish promotionId none =>
    if asked.cancels && confirmed then
      { s.announce promotionId with asked := s.asked ++ removals promotionId (s.clock skew) }
    else s.announce promotionId
  | .publish promotionId (some options) => s.schedule startedAt promotionId options
  | .remove jobId => s.remove jobId

def step (newDate : Int → Int) (engine : PromotionEngine) (skew : Int) (s : AnnouncedState) :
    AnnouncedEvent → AnnouncedState
  | .front e =>
    if e.writesPromotions then
      { s with
        front := s.front.quiet engine e
        asked := s.asked ++ s.front.asks newDate (s.clock skew) e
        stale := s.stale ++ s.front.repriced e }
    else { s with front := s.front.step engine e }
  | .land position startedAt confirmed =>
    match s.asked[position]? with
    | some asked =>
      if asked.since ≤ startedAt ∧ startedAt ≤ s.clock skew then
        { s with asked := s.asked.eraseIdx position }.land skew startedAt confirmed asked
      else s
    | none => s
  | .lose position =>
    match s.asked[position]? with
    | some asked =>
      { s with
        asked := s.asked.eraseIdx position
        lost := s.lost ++ [asked] }
    | none => s
  | .take position =>
    match s.delayed[position]? with
    | some job =>
      if job.dueAt ≤ s.clock skew then
        { s with delayed := s.delayed.eraseIdx position }.announce job.promotionId
      else s
    | none => s
  | .forget jobId =>
    if s.delayed.any fun job => job.jobId = jobId then s
    else { s with held := s.forget jobId }

/-- The promotions that an event announces. -/
def announcing (skew : Int) (s : AnnouncedState) : AnnouncedEvent → List Nat
  | .land position startedAt _ =>
    match s.asked[position]? with
    | some ⟨.publish promotionId none, since, _⟩ =>
      if since ≤ startedAt ∧ startedAt ≤ s.clock skew then [promotionId] else []
    | _ => []
  | .take position =>
    match s.delayed[position]? with
    | some job => if job.dueAt ≤ s.clock skew then [job.promotionId] else []
    | none => []
  | _ => []

def repriced (s : AnnouncedState) : AnnouncedEvent → List Nat
  | .front e => s.front.repriced e
  | _ => []

/-- The call that an event loses. -/
def losing (s : AnnouncedState) : AnnouncedEvent → Option Asked
  | .lose position => s.asked[position]?
  | _ => none

end AnnouncedState

end PromotionManagement
