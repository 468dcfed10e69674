import PromotionManagement.Library.SharedEngine
import PromotionManagement.BasePriceCalculator

namespace PromotionManagement
open Library
set_option autoImplicit true

/-- How far the promise that `run` returns has come. -/
inductive RunPromise where
  | waiting
  | running (run : EngineRun VendorRowFacts (List RuleProperties) RuleProperties)
  | fulfilled (results : List RuleProperties)
  | rejected (error : String)

/-- A call of `calculate` on a row that parses. `after` is the call whose promise was in `queue`,
and `handled` that the promise which replaced it there is settled. -/
structure PricingCall where
  row : VendorRowFacts
  facts : VendorRowFacts
  after : Option Nat
  promise : RunPromise
  handled : Bool

/-- What `calculate` returns once its run is settled. -/
def PricingCall.outcome (pricingRulesVersion : Int) (call : PricingCall) : Option PricingOutcome :=
  match call.promise with
  | .fulfilled results => some (BasePriceCalculator.applyResults pricingRulesVersion
      call.facts.vendorPriceCents results)
  | .rejected error => some (.rejected .rules none error)
  | _ => none

/-- One calculator with its engine, the calls in their order, the promise in `queue` by its call,
and the calls that the engine was run for. -/
structure PricingQueue where
  running : Bool
  calls : List PricingCall
  queue : Option Nat
  spentBy : Option String
  started : List Nat

inductive PricingEvent where
  | calculate (row : VendorRowFacts)
  | callback (i : Nat)
  | evaluate (i : Nat)
  | finish (i : Nat)
  | fail (i : Nat) (error : String)
  | settle (i : Nat)

namespace PricingQueue

def empty : PricingQueue := ⟨false, [], none, none, []⟩

def put (q : PricingQueue) (i : Nat) (call : PricingCall) : PricingQueue :=
  { q with calls := q.calls.set i call }

/-- The queue starts as a resolved promise. -/
def settled (q : PricingQueue) : Option Nat → Bool
  | none => true
  | some i => q.calls[i]?.any PricingCall.handled

variable (report : List RuleProperties → VendorRowFacts → List RuleProperties)
  (sets : List (List RuleProperties))

/-- A call takes its place after the promise in `queue`, which its own replaces. -/
def called (q : PricingQueue) (row facts : VendorRowFacts) : PricingQueue :=
  { q with
    calls := q.calls ++ [⟨row, facts, q.queue, .waiting, false⟩]
    queue := some q.calls.length }

/-- `this.queue.then(...)`: `spentBy` is checked again before the engine is run. -/
def callback (q : PricingQueue) (i : Nat) (call : PricingCall) : PricingQueue :=
  match call.promise with
  | .waiting =>
    if q.settled call.after then
      match q.spentBy with
      | some error => q.put i { call with promise := .rejected error }
      | none =>
        { q.put i { call with promise := .running (.start sets call.facts) } with
          running := true
          started := q.started ++ [i] }
    else q
  | _ => q

def evaluate (q : PricingQueue) (i : Nat) (call : PricingCall) : PricingQueue :=
  match call.promise with
  | .running run =>
    if run.left = [] then q
    else q.put i { call with promise := .running (run.evaluate report q.running) }
  | _ => q

def finish (q : PricingQueue) (i : Nat) (call : PricingCall) : PricingQueue :=
  match call.promise with
  | .running run =>
    if run.left = [] then
      { q.put i { call with promise := .fulfilled run.results } with running := false }
    else q
  | _ => q

def fail (q : PricingQueue) (i : Nat) (error : String) (call : PricingCall) : PricingQueue :=
  match call.promise with
  | .running _ => q.put i { call with promise := .rejected error }
  | _ => q

/-- `run.catch(...)`, which passes what was fulfilled through. -/
def settle (q : PricingQueue) (i : Nat) (call : PricingCall) : PricingQueue :=
  if call.handled then q
  else
    match call.promise with
    | .fulfilled _ => q.put i { call with handled := true }
    | .rejected error => { q.put i { call with handled := true } with spentBy := some error }
    | _ => q

def step (q : PricingQueue) : PricingEvent → PricingQueue
  | .calculate row =>
    match vendorRowFacts row with
    | .error _ => q
    | .ok facts => q.called row facts
  | .callback i => q.calls[i]?.elim q (q.callback sets i)
  | .evaluate i => q.calls[i]?.elim q (q.evaluate report i)
  | .finish i => q.calls[i]?.elim q (q.finish i)
  | .fail i error => q.calls[i]?.elim q (q.fail i error)
  | .settle i => q.calls[i]?.elim q (q.settle i)

/-- A step that changes the queue, other than a call. -/
inductive Advances (q : PricingQueue) : PricingQueue → Prop
  | reject (hcall : q.calls[i]? = some call) (hp : call.promise = .waiting)
      (hafter : q.settled call.after = true) (hspent : q.spentBy = some error) :
      Advances q (q.put i { call with promise := .rejected error })
  | start (hcall : q.calls[i]? = some call) (hp : call.promise = .waiting)
      (hafter : q.settled call.after = true) (hspent : q.spentBy = none) :
      Advances q { q.put i { call with promise := .running (.start sets call.facts) } with
        running := true
        started := q.started ++ [i] }
  | evaluate (hcall : q.calls[i]? = some call) (hp : call.promise = .running r)
      (hleft : r.left ≠ []) :
      Advances q (q.put i { call with promise := .running (r.evaluate report q.running) })
  | finish (hcall : q.calls[i]? = some call) (hp : call.promise = .running r)
      (hleft : r.left = []) :
      Advances q { q.put i { call with promise := .fulfilled r.results } with running := false }
  | fail (hcall : q.calls[i]? = some call) (hp : call.promise = .running r) :
      Advances q (q.put i { call with promise := .rejected error })
  | pass (hcall : q.calls[i]? = some call) (hp : call.promise = .fulfilled results)
      (hhandled : call.handled = false) : Advances q (q.put i { call with handled := true })
  | spend (hcall : q.calls[i]? = some call) (hp : call.promise = .rejected error)
      (hhandled : call.handled = false) :
      Advances q { q.put i { call with handled := true } with spentBy := some error }

variable {report sets}

theorem callback_cases {q : PricingQueue} (h : q.calls[i]? = some call) :
    q.callback sets i call = q ∨ Advances report sets q (q.callback sets i call) := by
  unfold callback
  split
  · rename_i hp
    split
    · rename_i hafter
      split
      · rename_i hspent
        exact .inr (.reject h hp hafter hspent)
      · rename_i hspent
        exact .inr (.start h hp hafter hspent)
    · exact .inl rfl
  · exact .inl rfl

theorem evaluate_cases {q : PricingQueue} (h : q.calls[i]? = some call) :
    q.evaluate report i call = q ∨ Advances report sets q (q.evaluate report i call) := by
  unfold evaluate
  split
  · rename_i hp
    split
    · exact .inl rfl
    · rename_i hleft
      exact .inr (.evaluate h hp hleft)
  · exact .inl rfl

theorem finish_cases {q : PricingQueue} (h : q.calls[i]? = some call) :
    q.finish i call = q ∨ Advances report sets q (q.finish i call) := by
  unfold finish
  split
  · rename_i hp
    split
    · rename_i hleft
      exact .inr (.finish h hp hleft)
    · exact .inl rfl
  · exact .inl rfl

theorem fail_cases {q : PricingQueue} (h : q.calls[i]? = some call) :
    q.fail i error call = q ∨ Advances report sets q (q.fail i error call) := by
  unfold fail
  split
  · rename_i hp
    exact .inr (.fail h hp)
  · exact .inl rfl

theorem settle_cases {q : PricingQueue} (h : q.calls[i]? = some call) :
    q.settle i call = q ∨ Advances report sets q (q.settle i call) := by
  unfold settle
  split
  · exact .inl rfl
  · rename_i hhandled
    have hhandled' := Bool.eq_false_of_not_eq_true hhandled
    split
    · rename_i hp
      exact .inr (.pass h hp hhandled')
    · rename_i hp
      exact .inr (.spend h hp hhandled')
    · exact .inl rfl

/-- All that one event can do: nothing, a call, or a step of the promises or of the engine. -/
theorem step_cases (q : PricingQueue) (e : PricingEvent) :
    step report sets q e = q ∨
      (∃ row facts, e = .calculate row ∧ vendorRowFacts row = .ok facts ∧
        step report sets q e = q.called row facts) ∨
      Advances report sets q (step report sets q e) := by
  have hcall {f : PricingCall → PricingQueue} (i : Nat)
      (h : ∀ call, q.calls[i]? = some call → f call = q ∨ Advances report sets q (f call)) :
      q.calls[i]?.elim q f = q ∨ Advances report sets q (q.calls[i]?.elim q f) := by
    cases hi : q.calls[i]? with
    | none => exact .inl rfl
    | some call => exact h call hi
  cases e with
  | calculate row =>
    rw [step]
    split
    · exact .inl rfl
    · rename_i facts hfacts
      exact .inr (.inl ⟨row, facts, rfl, hfacts, rfl⟩)
  | callback i => exact (hcall i fun _ h => callback_cases h).imp_right .inr
  | evaluate i => exact (hcall i fun _ h => evaluate_cases h).imp_right .inr
  | finish i => exact (hcall i fun _ h => finish_cases h).imp_right .inr
  | fail i error => exact (hcall i fun _ h => fail_cases h).imp_right .inr
  | settle i => exact (hcall i fun _ h => settle_cases h).imp_right .inr

end PricingQueue

end PromotionManagement
