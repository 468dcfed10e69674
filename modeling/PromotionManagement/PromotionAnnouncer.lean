import PromotionManagement.Library.Tasks
import PromotionManagement.EventQueue
import PromotionManagement.PromotionRepository

namespace PromotionManagement
open Library
set_option autoImplicit true

/-- The two delayed jobs that carry a promotion's window. -/
inductive PromotionBoundary where
  | activate
  | expire
deriving DecidableEq, Repr

def PromotionBoundary.name : PromotionBoundary → Text
  | .activate => "activate".toList
  | .expire => "expire".toList

/-- What the announcer reads of a `PromotionView`, a promotion as the admin API returns it. A `Date`
holds whole milliseconds. -/
structure AdminPromotionView where
  id : Nat
  status : PromotionStatus
  startsAt : Int
  endsAt : Int
deriving DecidableEq, Repr

/-- A row as it is read back, with what `new Date` makes of its instants. -/
def PromotionRow.view (newDate : Int → Int) (p : PromotionRow) : AdminPromotionView :=
  ⟨p.id, p.status, newDate p.startsAt, newDate p.endsAt⟩

structure JobsOptions where
  jobId : Text
  delay : Nat
deriving DecidableEq

/-- The operations on the queue of `promotion.changed`. -/
inductive QueueOperation where
  | publish (promotionId : Nat) (options : Option JobsOptions)
  | remove (jobId : Text)
deriving DecidableEq

namespace PromotionScheduler

def jobId (promotionId : Nat) (boundary : PromotionBoundary) : Text :=
  "promo:".toList ++ Nat.toDigits 10 promotionId ++ ':' :: boundary.name

def options (promotionId : Nat) (boundary : PromotionBoundary) (at' now : Int) : JobsOptions :=
  ⟨jobId promotionId boundary, (max 0 (at' - now)).toNat⟩

def schedule (promotionId : Nat) (boundary : PromotionBoundary) (at' now : Int) :
    Task QueueOperation Nat :=
  Task.call (.publish promotionId (some (options promotionId boundary at' now)))

def cancel (promotionId : Nat) : Task QueueOperation Unit := do
  let activate ← Task.call (.remove (jobId promotionId .activate))
  let expire ← Task.call (.remove (jobId promotionId .expire))
  Task.all [activate, expire]

end PromotionScheduler

namespace PromotionAnnouncer

/-- A step that settles on its own: its failure is logged, not raised. -/
def settle (work : Task QueueOperation Unit) : Task QueueOperation Bool :=
  (do work; pure true : Task QueueOperation Bool).catching (pure false)

/-- The `Promise.all` of steps that cannot fail: all are under way before the first is awaited. -/
def announceBoundaries (promotion : AdminPromotionView) (now : Int) (alreadyRunning : Bool) :
    Task QueueOperation Unit := do
  let expire ← PromotionScheduler.schedule promotion.id .expire promotion.endsAt now
  match alreadyRunning with
  | true => discard (settle (Task.all [expire]))
  | false =>
    let activate ← PromotionScheduler.schedule promotion.id .activate promotion.startsAt now
    discard (settle (Task.all [expire]))
    discard (settle (Task.all [activate]))

def announce (promotion : AdminPromotionView) (now : Int) : Task QueueOperation Unit :=
  if promotion.status ≠ .active then pure ()
  else if promotion.startsAt ≤ now then do
    let published ← Task.call (.publish promotion.id none)
    discard (settle (Task.all [published]))
    announceBoundaries promotion now true
  else announceBoundaries promotion now false

def announceCancellation (promotionId : Nat) : Task QueueOperation Unit := do
  let published ← Task.call (.publish promotionId none)
  let announced ← settle (Task.all [published])
  match announced with
  | true => discard (settle (PromotionScheduler.cancel promotionId))
  | false => pure ()

end PromotionAnnouncer

/-- What a write that has committed goes on to announce, at the instant it answers with. -/
def announcing (newDate : Int → Int) (outcome : PromotionWriteOutcome) (now : Int) :
    Task QueueOperation PromotionRow :=
  match outcome with
  | .ok promotion => do
    PromotionAnnouncer.announce (promotion.view newDate) (now / 1000)
    pure promotion
  | _ => .thrown

def CreatePromotionCommand.execute (newDate : Int → Int) (p : Promotions)
    (productExists : Nat → Bool) (input : CreatePromotion) (now : Int) :
    Promotions × Task QueueOperation PromotionRow :=
  let written := p.insert productExists input now
  (written.1, announcing newDate written.2 now)

def AssignPromotionCommand.execute (newDate : Int → Int) (p : Promotions)
    (productExists : Nat → Bool) (id : Nat) (target : AssignPromotion) (now : Int) :
    Promotions × Task QueueOperation PromotionRow :=
  let written := p.assign productExists id target now
  (written.1, announcing newDate written.2 now)

/-- `CancelPromotionCommand.execute`: what it leaves in the table, and what it goes on to do. -/
def CancelPromotionCommand.execute (p : Promotions) (id : Nat) (now : Int) :
    Promotions × Task QueueOperation PromotionRow :=
  match p.cancel id now with
  | (p', none) => (p', .thrown)
  | (p', some (promotion, true)) =>
    (p', do
      PromotionAnnouncer.announceCancellation id
      pure promotion)
  | (p', some (promotion, false)) => (p', pure promotion)

/-- A queue with its workers: a job that one of them has taken is locked. -/
structure WorkedQueue (JobId : Type) where
  jobs : JobQueue JobId
  active : List JobId
deriving DecidableEq

namespace WorkedQueue

variable {JobId : Type}

def enqueue (q : WorkedQueue JobId) (id : JobId) : WorkedQueue JobId :=
  { q with jobs := { q.jobs with waiting := q.jobs.waiting ++ [id] } }

theorem waiting_enqueue (q : WorkedQueue JobId) (id : JobId) :
    q.jobs.waiting ⊆ (q.enqueue id).jobs.waiting :=
  List.subset_append_left _ _

variable [DecidableEq JobId]

def Holds (q : WorkedQueue JobId) (id : JobId) : Prop := q.jobs.Holds id ∨ id ∈ q.active

instance (q : WorkedQueue JobId) (id : JobId) : Decidable (q.Holds id) :=
  inferInstanceAs (Decidable (_ ∨ _))

/-- A locked job is not removed. -/
def remove (q : WorkedQueue JobId) (id : JobId) : WorkedQueue JobId :=
  { q with jobs := q.jobs.remove id }

def take (q : WorkedQueue JobId) (id : JobId) : WorkedQueue JobId :=
  if id ∈ q.jobs.waiting then
    ⟨{ q.jobs with waiting := q.jobs.waiting.erase id }, q.active ++ [id]⟩
  else q

def finish (q : WorkedQueue JobId) (id : JobId) (ok : Bool) : WorkedQueue JobId :=
  if id ∈ q.active then
    { jobs :=
        if ok then
          { q.jobs with completed := (id :: q.jobs.completed).take EventQueue.removeOnComplete }
        else { q.jobs with failed := id :: q.jobs.failed }
      active := q.active.erase id }
  else q

theorem waiting_remove {q : WorkedQueue JobId} {held id : JobId} (h : held ∈ q.jobs.waiting)
    (hne : held ≠ id) : held ∈ (q.remove id).jobs.waiting :=
  (List.mem_erase_of_ne hne).2 h

theorem waiting_take {q : WorkedQueue JobId} {held id : JobId} (h : held ∈ q.jobs.waiting)
    (hne : held ≠ id) : held ∈ (q.take id).jobs.waiting := by
  rw [take]
  split
  · exact (List.mem_erase_of_ne hne).2 h
  · exact h

theorem waiting_finish (q : WorkedQueue JobId) (id : JobId) (ok : Bool) :
    (q.finish id ok).jobs.waiting = q.jobs.waiting := by
  rw [finish]
  split
  · cases ok with
    | true => rfl
    | false => rfl
  · rfl

end WorkedQueue

structure QueuedJob where
  jobId : Text
  promotionId : Nat
  dueAt : Int
deriving DecidableEq

/-- The promotions queue and its count of jobs, the clock of its producers in milliseconds, and the
jobs added since it was opened. -/
structure QueueState where
  queue : WorkedQueue Text
  counter : Nat
  clock : Int
  enqueued : List QueuedJob

/-- What others do with the queue meanwhile: time passes, workers take jobs and end them, and other
requests publish and remove. -/
inductive QueueEvent where
  | tick (elapsed : Nat)
  | take (jobId : Text)
  | finish (jobId : Text) (ok : Bool)
  | publish (promotionId : Nat) (options : Option JobsOptions)
  | remove (jobId : Text)
deriving DecidableEq

/-- The event takes a job away from those that wait. -/
def QueueEvent.takes (jobId : Text) : QueueEvent → Prop
  | .take taken => taken = jobId
  | .remove removed => removed = jobId
  | _ => False

namespace QueueState

def opened (queue : WorkedQueue Text) (counter : Nat) (clock : Int) : QueueState :=
  ⟨queue, counter, clock, []⟩

def enqueue (s : QueueState) (job : QueuedJob) : QueueState :=
  { s with
    queue := s.queue.enqueue job.jobId
    enqueued := s.enqueued ++ [job] }

/-- `add` counts every job. It ignores one whose custom id the queue still holds, and an id of its
own making is new. -/
def publish (s : QueueState) (startedAt : Int) (promotionId : Nat) :
    Option JobsOptions → QueueState
  | none =>
    { s with counter := s.counter + 1 }.enqueue
      ⟨Nat.toDigits 10 (s.counter + 1), promotionId, startedAt⟩
  | some options =>
    if s.queue.Holds options.jobId then { s with counter := s.counter + 1 }
    else
      { s with counter := s.counter + 1 }.enqueue
        ⟨options.jobId, promotionId, startedAt + options.delay⟩

def apply (s : QueueState) (startedAt : Int) : QueueOperation → QueueState
  | .publish promotionId options => s.publish startedAt promotionId options
  | .remove jobId => { s with queue := s.queue.remove jobId }

def act (s : QueueState) : QueueEvent → QueueState
  | .tick elapsed => { s with clock := s.clock + elapsed }
  | .take jobId => { s with queue := s.queue.take jobId }
  | .finish jobId ok => { s with queue := s.queue.finish jobId ok }
  | .publish promotionId options => s.publish s.clock promotionId options
  | .remove jobId => { s with queue := s.queue.remove jobId }

def backend : Backend QueueState QueueOperation Int QueueEvent := ⟨clock, apply, act⟩

end QueueState

end PromotionManagement
