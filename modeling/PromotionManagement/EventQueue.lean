import Mathlib.Data.List.Nodup

namespace PromotionManagement
set_option autoImplicit true

/-- One BullMQ queue: the ids of the jobs to run, and of those kept after they ran, newest
first. -/
structure JobQueue (JobId : Type) where
  waiting : List JobId
  completed : List JobId
  failed : List JobId
deriving DecidableEq

namespace EventQueue

def removeOnComplete : Nat := 1000

end EventQueue

namespace JobQueue

variable {JobId : Type} [DecidableEq JobId]

def empty : JobQueue JobId := ⟨[], [], []⟩

def Holds (q : JobQueue JobId) (id : JobId) : Prop :=
  id ∈ q.waiting ∨ id ∈ q.completed ∨ id ∈ q.failed

instance (q : JobQueue JobId) (id : JobId) : Decidable (q.Holds id) :=
  inferInstanceAs (Decidable (_ ∨ _ ∨ _))

/-- An add with an id that the queue still holds changes nothing. -/
def add (q : JobQueue JobId) (id : JobId) : JobQueue JobId :=
  if q.Holds id then q else { q with waiting := q.waiting ++ [id] }

def complete (q : JobQueue JobId) (id : JobId) : JobQueue JobId :=
  if id ∈ q.waiting then
    { q with
      waiting := q.waiting.erase id
      completed := (id :: q.completed).take EventQueue.removeOnComplete }
  else q

/-- The last attempt of a job fails. `removeOnFail: false` keeps it. -/
def fail (q : JobQueue JobId) (id : JobId) : JobQueue JobId :=
  if id ∈ q.waiting then
    { q with waiting := q.waiting.erase id, failed := id :: q.failed }
  else q

def retry (q : JobQueue JobId) (id : JobId) : JobQueue JobId :=
  if id ∈ q.failed then
    { q with waiting := q.waiting ++ [id], failed := q.failed.erase id }
  else q

def remove (q : JobQueue JobId) (id : JobId) : JobQueue JobId :=
  ⟨q.waiting.erase id, q.completed.erase id, q.failed.erase id⟩

/-- The failed jobs between two ranks, both included, from the newest. -/
def getFailed (q : JobQueue JobId) (first last : Nat) : List JobId :=
  (q.failed.drop first).take (last + 1 - first)

end JobQueue

namespace EventQueue

variable {JobId : Type} [DecidableEq JobId]

/-- What jobs fail for the last time before each operation of a walk, in order. -/
abbrev Consumers (JobId : Type) := Nat → List JobId

/-- A walk over the failed set: the queue, the `seen` set, and the retries it has asked for. -/
structure RetryWalk (JobId : Type) where
  queue : JobQueue JobId
  operations : Nat
  seen : List JobId
  retried : List JobId
deriving DecidableEq

namespace RetryWalk

def start (queue : JobQueue JobId) : RetryWalk JobId := ⟨queue, 0, [], []⟩

/-- The consumers run on while an operation is awaited. -/
def awaited (consumers : Consumers JobId) (w : RetryWalk JobId) : RetryWalk JobId :=
  { w with
    queue := (consumers w.operations).foldl JobQueue.fail w.queue
    operations := w.operations + 1 }

def retryJob (consumers : Consumers JobId) (w : RetryWalk JobId) (id : JobId) :
    RetryWalk JobId :=
  let w := { w with seen := w.seen.insert id }
  let w := w.awaited consumers
  { w with queue := w.queue.retry id, retried := w.retried ++ [id] }

def fresh (pageSize : Nat) (w : RetryWalk JobId) : List JobId :=
  (w.queue.getFailed 0 (pageSize - 1)).filter fun id => id ∉ w.seen

end RetryWalk

/-- The loop of `retryFailed`, which answers with `seen.size` when a page has no fresh job. -/
def retryFailed (consumers : Consumers JobId) (pageSize : Nat) :
    Nat → RetryWalk JobId → Option (RetryWalk JobId)
  | 0, _ => none
  | fuel + 1, w =>
    let w := w.awaited consumers
    if (w.fresh pageSize).length = 0 then some w
    else retryFailed consumers pageSize fuel
      ((w.fresh pageSize).foldl (RetryWalk.retryJob consumers) w)

/-- The states in which the loop has a page before it. -/
def pagesRead (consumers : Consumers JobId) (pageSize : Nat) :
    Nat → RetryWalk JobId → List (RetryWalk JobId)
  | 0, _ => []
  | fuel + 1, w =>
    let w := w.awaited consumers
    if (w.fresh pageSize).length = 0 then [w]
    else w :: pagesRead consumers pageSize fuel
      ((w.fresh pageSize).foldl (RetryWalk.retryJob consumers) w)

end EventQueue

end PromotionManagement
