import PromotionManagement.ConcurrentPricing

namespace PromotionManagement
open Library
set_option autoImplicit true

namespace PricingQueue

/-- The promise that a call finds in `queue` is that of the call before it. -/
def previous : Nat → Option Nat
  | 0 => none
  | i + 1 => some i

variable (report : List RuleProperties → VendorRowFacts → List RuleProperties)
  (sets : List (List RuleProperties))

/-- The last call that the engine was run for. -/
def Last (running : Bool) (spentBy : Option String) (call : PricingCall) : Prop :=
  match call.promise with
  | .waiting => False
  | .running r => running = true ∧ call.handled = false ∧ spentBy = none ∧
      r.facts = call.facts ∧ ∃ before, sets = before ++ r.left ∧
        r.results = EngineRun.all report before call.facts
  | .fulfilled results => spentBy = none ∧ results = EngineRun.all report sets call.facts
  | .rejected error => spentBy = if call.handled then some error else none

/-- A call that the engine was not run for. -/
def Rest (spentBy : Option String) (call : PricingCall) : Prop :=
  match call.promise with
  | .waiting => call.handled = false
  | .rejected error => spentBy = some error
  | _ => False

/-- The engine has been run for the first calls, one after another, and not after a failure. -/
structure Serial (q : PricingQueue) : Prop where
  started : q.started = List.range q.started.length
  le : q.started.length ≤ q.calls.length
  queue : q.queue = previous q.calls.length
  after : ∀ (i : Nat) (call : PricingCall), q.calls[i]? = some call → call.after = previous i
  parsed : ∀ (i : Nat) (call : PricingCall), q.calls[i]? = some call →
    vendorRowFacts call.row = .ok call.facts
  done : ∀ (i : Nat) (call : PricingCall), q.calls[i]? = some call → i + 1 < q.started.length →
    call.promise = .fulfilled (EngineRun.all report sets call.facts) ∧ call.handled = true
  last : ∀ (i : Nat) (call : PricingCall), q.calls[i]? = some call → i + 1 = q.started.length →
    Last report sets q.running q.spentBy call
  rest : ∀ (i : Nat) (call : PricingCall), q.calls[i]? = some call → q.started.length ≤ i →
    Rest q.spentBy call
  unspent : q.started = [] → q.spentBy = none

variable {report sets} {q : PricingQueue} {call call' : PricingCall} {i : Nat}

theorem serial_empty : Serial report sets empty where
  started := rfl
  le := Nat.le_refl 0
  queue := rfl
  after _ _ h := nomatch h
  parsed _ _ h := nomatch h
  done _ _ h := nomatch h
  last _ _ h := nomatch h
  rest _ _ h := nomatch h
  unspent _ := rfl

namespace Serial

/-- Where a call stands follows from its promise. -/
theorem position (h : Serial report sets q) (hcall : q.calls[i]? = some call) :
    match call.promise with
    | .waiting => q.started.length ≤ i
    | .running _ => i + 1 = q.started.length
    | .fulfilled _ => i + 1 ≤ q.started.length
    | .rejected _ => q.started.length ≤ i + 1 := by
  rcases Nat.lt_trichotomy (i + 1) q.started.length with hlt | heq | hgt
  · rw [(h.done i call hcall hlt).1]
    exact Nat.le_of_lt hlt
  · have hlast := h.last i call hcall heq
    rw [Last] at hlast
    split at hlast
    · exact hlast.elim
    · exact heq
    · exact Nat.le_of_eq heq
    · exact Nat.le_of_eq heq.symm
  · have hrest := h.rest i call hcall (Nat.le_of_lt_succ hgt)
    rw [Rest] at hrest
    split at hrest
    · rename_i hp
      rw [hp]
      exact Nat.le_of_lt_succ hgt
    · rename_i hp
      rw [hp]
      exact Nat.le_of_lt hgt
    · exact hrest.elim

theorem getElem?_put (hcall : q.calls[i]? = some call) (call' : PricingCall) (j : Nat) :
    (q.put i call').calls[j]? = if i = j then some call' else q.calls[j]? := by
  rw [put, List.getElem?_set]
  split
  · rename_i hij
    subst hij
    rw [if_pos (List.getElem?_eq_some_iff.1 hcall).1]
  · rfl

theorem forall_put {P : Nat → PricingCall → Prop} (hcall : q.calls[i]? = some call)
    (hold : ∀ j c, q.calls[j]? = some c → j ≠ i → P j c) (hnew : P i call') (j : Nat)
    (c : PricingCall) (hc : (q.put i call').calls[j]? = some c) : P j c := by
  rw [getElem?_put hcall] at hc
  split at hc
  · rename_i hij
    subst hij
    cases hc
    exact hnew
  · rename_i hij
    exact hold j c hc (Ne.symm hij)

/-- A step of one call's promise that runs the engine for no other call. -/
theorem put {running' : Bool} {spentBy' : Option String}
    (h : Serial report sets q) (hcall : q.calls[i]? = some call)
    (hafter : call'.after = call.after) (hparsed : call'.row = call.row ∧ call'.facts = call.facts)
    (hdone : i + 1 < q.started.length →
      call'.promise = .fulfilled (EngineRun.all report sets call.facts) ∧ call'.handled = true)
    (hlast : i + 1 = q.started.length → Last report sets running' spentBy' call')
    (hrest : q.started.length ≤ i → Rest spentBy' call')
    (hlasts : i + 1 ≠ q.started.length → ∀ c, Last report sets q.running q.spentBy c →
      Last report sets running' spentBy' c)
    (hrests : ∀ c, Rest q.spentBy c → Rest spentBy' c)
    (hunspent : q.started = [] → spentBy' = none) :
    Serial report sets { q.put i call' with
      running := running'
      spentBy := spentBy' } := by
  refine ⟨h.started, ?_, ?_, ?_, ?_, ?_, ?_, ?_, hunspent⟩
  · exact h.le.trans_eq List.length_set.symm
  · exact h.queue.trans (congrArg previous List.length_set.symm)
  · exact forall_put hcall (fun j c hc _ => h.after j c hc) (hafter.trans (h.after i call hcall))
  · refine forall_put hcall (fun j c hc _ => h.parsed j c hc) ?_
    rw [hparsed.1, hparsed.2]
    exact h.parsed i call hcall
  · refine forall_put hcall (fun j c hc _ => h.done j c hc) ?_
    rw [hparsed.2]
    exact hdone
  · refine forall_put hcall (fun j c hc hj hjl => ?_) hlast
    exact hlasts (fun hi => hj (Nat.succ.inj (hjl.trans hi.symm))) c (h.last j c hc hjl)
  · exact forall_put hcall (fun j c hc _ hj => hrests c (h.rest j c hc hj)) hrest

theorem called (h : Serial report sets q) (hfacts : vendorRowFacts row = .ok facts) :
    Serial report sets (q.called row facts) := by
  have hcalls {P : Nat → PricingCall → Prop} (hold : ∀ j c, q.calls[j]? = some c → P j c)
      (hnew : P q.calls.length ⟨row, facts, q.queue, .waiting, false⟩) (j : Nat) (c : PricingCall)
      (hc : (q.called row facts).calls[j]? = some c) : P j c := by
    rw [PricingQueue.called, List.getElem?_append] at hc
    split at hc
    · exact hold j c hc
    · rename_i hj
      rw [List.getElem?_singleton] at hc
      split at hc
      · rename_i hzero
        cases hc
        rwa [Nat.le_antisymm (Nat.le_of_sub_eq_zero hzero) (Nat.le_of_not_lt hj)]
      · cases hc
  have hlength : (q.called row facts).calls.length = q.calls.length + 1 :=
    List.length_append
  refine ⟨h.started, ?_, ?_, ?_, ?_, ?_, ?_, ?_, h.unspent⟩
  · rw [hlength]
    exact Nat.le_succ_of_le h.le
  · rw [hlength]
    rfl
  · exact hcalls h.after h.queue
  · exact hcalls h.parsed hfacts
  · exact hcalls h.done fun hlt => absurd h.le (Nat.not_le.2 (Nat.lt_of_succ_lt hlt))
  · exact hcalls h.last fun heq => absurd h.le (Nat.not_le.2 (Nat.lt_of_succ_le (Nat.le_of_eq heq)))
  · exact hcalls h.rest fun _ => rfl

/-- A settled promise lets the next call run the engine only when its own run was fulfilled. -/
theorem settled_iff (h : Serial report sets q) (hspent : q.spentBy = none)
    (hi : q.started.length ≤ i) (hafter : q.settled (previous i) = true) :
    i = q.started.length ∧ ∀ j call, q.calls[j]? = some call → j + 1 = q.started.length →
      call.promise = .fulfilled (EngineRun.all report sets call.facts) ∧ call.handled = true := by
  cases i with
  | zero =>
    have hzero := Nat.le_zero.1 hi
    exact ⟨hzero.symm, fun j _ _ hj => absurd (hj.trans hzero) (Nat.succ_ne_zero j)⟩
  | succ i =>
    rw [previous, settled, Option.any_eq_true] at hafter
    obtain ⟨c, hc, hhandled⟩ := hafter
    have hstarted : i + 1 = q.started.length := by
      apply Nat.le_antisymm _ hi
      by_contra hn
      have hrest := h.rest i c hc (Nat.le_of_lt_succ (Nat.not_le.1 hn))
      rw [Rest] at hrest
      split at hrest
      · rw [hhandled] at hrest
        cases hrest
      · rw [hspent] at hrest
        cases hrest
      · exact hrest
    refine ⟨hstarted, fun j call hcall hj => ?_⟩
    obtain rfl : j = i := Nat.succ.inj (hj.trans hstarted.symm)
    rw [hc] at hcall
    cases hcall
    have hlast := h.last j c hc hj
    rw [Last] at hlast
    split at hlast
    · exact hlast.elim
    · rw [hhandled] at hlast
      cases hlast.2.1
    · rename_i hp
      rw [hp, hlast.2]
      exact ⟨rfl, hhandled⟩
    · rw [hhandled, hspent] at hlast
      cases hlast

theorem start (h : Serial report sets q) (hcall : q.calls[i]? = some call)
    (hp : call.promise = .waiting) (hafter : q.settled call.after = true)
    (hspent : q.spentBy = none) :
    Serial report sets { q.put i { call with promise := .running (.start sets call.facts) } with
      running := true
      started := q.started ++ [i] } := by
  have hi := h.position hcall
  rw [hp] at hi
  rw [h.after i call hcall] at hafter
  obtain ⟨rfl, hlast⟩ := h.settled_iff hspent hi hafter
  have hhandled : call.handled = false := by
    have hrest := h.rest _ call hcall (Nat.le_refl _)
    rwa [Rest, hp] at hrest
  have hlength : (q.started ++ [q.started.length]).length = q.started.length + 1 :=
    List.length_append
  refine ⟨?_, ?_, h.queue.trans (congrArg previous List.length_set.symm), ?_, ?_, ?_, ?_, ?_, ?_⟩
  · rw [hlength, List.range_succ, ← h.started]
  · rw [hlength]
    exact (List.getElem?_eq_some_iff.1 hcall).1.trans_eq List.length_set.symm
  · exact forall_put hcall (fun j c hc _ => h.after j c hc) (h.after _ call hcall)
  · exact forall_put hcall (fun j c hc _ => h.parsed j c hc) (h.parsed _ call hcall)
  · rw [hlength]
    refine forall_put hcall (fun j c hc _ hj => ?_) fun hj => absurd hj (Nat.lt_irrefl _)
    rcases Nat.lt_or_eq_of_le (Nat.le_of_lt_succ hj) with hlt | heq
    · exact h.done j c hc hlt
    · exact hlast j c hc heq
  · rw [hlength]
    refine forall_put hcall (fun j c _ hj hjl => absurd (Nat.succ.inj hjl) hj) fun _ => ?_
    exact ⟨rfl, hhandled, hspent, rfl, [], rfl, rfl⟩
  · rw [hlength]
    refine forall_put hcall (fun j c hc _ hj => h.rest j c hc (Nat.le_of_succ_le hj)) fun hj => ?_
    exact absurd hj (Nat.not_succ_le_self _)
  · exact fun hnil => absurd hnil (List.concat_ne_nil _ _)

/-- The engine runs for one call only, which is the last that it was run for. -/
theorem last_running (h : Serial report sets q)
    (hcall : q.calls[i]? = some call) (hp : call.promise = .running r) :
    i + 1 = q.started.length ∧ q.running = true ∧ call.handled = false ∧ q.spentBy = none ∧
      r.facts = call.facts ∧ ∃ before, sets = before ++ r.left ∧
        r.results = EngineRun.all report before call.facts := by
  have hi := h.position hcall
  rw [hp] at hi
  have hlast := h.last i call hcall hi
  rw [Last, hp] at hlast
  exact ⟨hi, hlast⟩

/-- A step of the call that the engine runs for. -/
theorem put_running {running' : Bool} (h : Serial report sets q)
    (hcall : q.calls[i]? = some call) (hp : call.promise = .running r)
    (hafter : call'.after = call.after) (hparsed : call'.row = call.row ∧ call'.facts = call.facts)
    (hlast : Last report sets running' q.spentBy call') :
    Serial report sets { q.put i call' with running := running' } := by
  obtain ⟨hi, _⟩ := h.last_running hcall hp
  exact h.put hcall hafter hparsed (fun hlt => absurd hi (Nat.ne_of_lt hlt)) (fun _ => hlast)
    (fun hle => absurd hi (Nat.ne_of_gt (Nat.lt_succ_of_le hle))) (fun hne => absurd hi hne)
    (fun _ => id) h.unspent

/-- A rejection leaves its error in `spentBy`, where the rejections after it found it. -/
theorem spend (h : Serial report sets q) (hcall : q.calls[i]? = some call)
    (hp : call.promise = .rejected error) (hhandled : call.handled = false) :
    Serial report sets { q.put i { call with handled := true } with spentBy := some error } := by
  have hi := h.position hcall
  rw [hp] at hi
  rcases Nat.lt_or_eq_of_le hi with hlt | heq
  · have hrest := h.rest i call hcall (Nat.le_of_lt_succ hlt)
    rw [Rest, hp] at hrest
    rw [← hrest]
    exact h.put hcall rfl ⟨rfl, rfl⟩ (fun hlt' => absurd hi (Nat.not_le.2 hlt'))
      (fun heq => absurd heq (Nat.ne_of_gt hlt)) (fun _ => by rwa [Rest, hp]) (fun _ _ => id)
      (fun _ => id) h.unspent
  · have hlast := h.last i call hcall heq.symm
    rw [Last, hp, hhandled] at hlast
    refine h.put hcall rfl ⟨rfl, rfl⟩ (fun hlt => absurd hi (Nat.not_le.2 hlt))
      (fun _ => by rw [Last, hp]; rfl) (fun hle => absurd hle (Nat.not_le.2 (Nat.lt_of_succ_le
        (Nat.le_of_eq heq.symm)))) (fun hne => absurd heq.symm hne) (fun c hc => ?_)
      fun hnil => absurd ((congrArg List.length hnil).symm.trans heq) (Nat.succ_ne_zero i).symm
    rw [hlast, Rest] at hc
    rw [Rest]
    split at hc
    · exact hc
    · cases hc
    · exact hc.elim

theorem advances (h : Serial report sets q) (hq : Advances report sets q q') :
    Serial report sets q' := by
  cases hq with
  | @reject i call error hcall hp hafter hspent =>
    have hi := h.position hcall
    rw [hp] at hi
    exact h.put hcall rfl ⟨rfl, rfl⟩ (fun hlt => absurd hi (Nat.not_le.2 (Nat.lt_of_succ_lt hlt)))
      (fun heq => absurd hi (Nat.not_le.2 (Nat.lt_of_succ_le (Nat.le_of_eq heq))))
      (fun _ => hspent) (fun _ _ => id) (fun _ => id) h.unspent
  | start hcall hp hafter hspent => exact h.start hcall hp hafter hspent
  | @evaluate i call r hcall hp hleft =>
    obtain ⟨_, hrunning, hhandled, hspent, hfacts, before, hsets, hresults⟩ :=
      h.last_running hcall hp
    refine h.put_running hcall hp rfl ⟨rfl, rfl⟩ ⟨hrunning, hhandled, hspent, ?_⟩
    obtain ⟨next, left, hnext⟩ := List.exists_cons_of_ne_nil hleft
    rw [EngineRun.evaluate, hnext, hrunning]
    refine ⟨hfacts, before ++ [next], ?_, ?_⟩
    · rw [hsets, hnext, List.append_assoc]
      rfl
    · rw [EngineRun.all_append, ← hresults, ← hfacts]
      exact congrArg (r.results ++ ·) (List.append_nil _).symm
  | @finish i call r hcall hp hleft =>
    obtain ⟨_, _, _, hspent, _, before, hsets, hresults⟩ := h.last_running hcall hp
    refine h.put_running hcall hp rfl ⟨rfl, rfl⟩ ⟨hspent, ?_⟩
    rw [hsets, hleft, List.append_nil]
    exact hresults
  | @fail i call r error hcall hp =>
    obtain ⟨_, _, hhandled, hspent, _⟩ := h.last_running hcall hp
    refine h.put_running hcall hp rfl ⟨rfl, rfl⟩ ?_
    change q.spentBy = if call.handled then some error else none
    rw [hhandled]
    exact hspent
  | @pass i call results hcall hp hhandled =>
    have hi := h.position hcall
    rw [hp] at hi
    refine h.put hcall rfl ⟨rfl, rfl⟩ (fun hlt => ⟨(h.done i call hcall hlt).1, rfl⟩)
      (fun heq => ?_) (fun hle => absurd hi (Nat.not_le.2 (Nat.lt_succ_of_le hle)))
      (fun _ _ => id) (fun _ => id) h.unspent
    have hlast := h.last i call hcall heq
    rw [Last, hp] at hlast
    rw [Last, hp]
    exact hlast
  | spend hcall hp hhandled => exact h.spend hcall hp hhandled

theorem step (h : Serial report sets q) (e : PricingEvent) :
    Serial report sets (q.step report sets e) := by
  rcases q.step_cases e with he | ⟨row, facts, _, hfacts, he⟩ | hadvances
  · rw [he]
    exact h
  · rw [he]
    exact h.called hfacts
  · exact h.advances hadvances

theorem run (events : List PricingEvent) :
    Serial report sets (run (PricingQueue.step report sets) empty events) :=
  run_invariant_always (fun _ e h => h.step e) serial_empty events

end Serial

variable (report sets)

/-- How many steps a promise has still to take, at most. -/
def promiseLeft : RunPromise → Nat
  | .waiting => sets.length + 2
  | .running r => r.left.length + 1
  | _ => 0

def callLeft (call : PricingCall) : Nat :=
  promiseLeft sets call.promise + if call.handled then 0 else 1

def left (q : PricingQueue) : Nat := (q.calls.map (callLeft sets)).sum

/-- The engine's run for a call failed. -/
def Failed (q : PricingQueue) (i : Nat) (error : String) : Prop :=
  i ∈ q.started ∧ ∃ call, q.calls[i]? = some call ∧ call.promise = .rejected error

/-- The engine runs for a call. -/
def Runs (q : PricingQueue) (i : Nat) : Prop :=
  ∃ call r, q.calls[i]? = some call ∧ call.promise = .running r

/-- Nothing is left to happen but further calls. -/
def Quiet (q : PricingQueue) : Prop :=
  ∀ e, (∀ row, e ≠ .calculate row) → q.step report sets e = q

/-- The calculator whose engine nothing else runs. -/
def alone (ruleIds : List Nat) (version : Int) : BasePriceCalculator where
  engine facts := .ok (EngineRun.all report sets facts)
  ruleIds
  pricingRulesVersion := version

/-- The calls come out as if they had been made one after another, each when the one before it was
over, up to the first whose engine run failed. -/
structure Sequential (ruleIds : List Nat) (version : Int) (q : PricingQueue) : Prop where
  inCallOrder : q.started = List.range q.started.length
  oneAtATime : ∀ i j, q.Runs i → q.Runs j → i = j
  notRunAgain : ∀ j error, q.Failed j error → q.started = List.range (j + 1)
  before : ∀ (i : Nat) (call : PricingCall) outcome, q.calls[i]? = some call →
    call.outcome version = some outcome → (∀ j error, q.Failed j error → i < j) →
    outcome = (alone report sets ruleIds version).calculate call.row
  after : ∀ (i : Nat) (call : PricingCall) outcome j error, q.calls[i]? = some call →
    call.outcome version = some outcome → q.Failed j error → j ≤ i →
    outcome = .rejected .rules none error
  advances : ∀ e, (∀ row, e ≠ .calculate row) →
    q.step report sets e = q ∨ (q.step report sets e).left sets < q.left sets
  ends : Quiet report sets q → ∀ (i : Nat) (call : PricingCall), q.calls[i]? = some call →
    ∃ outcome, call.outcome version = some outcome

/-- The row that an event brings to the engine's queue: that of a call whose row parses. -/
def queuedRow : PricingEvent → Option VendorRowFacts
  | .calculate row =>
    match vendorRowFacts row with
    | .error _ => none
    | .ok _ => some row
  | _ => none

variable {report sets}

theorem put_rows (hcall : q.calls[i]? = some call) (hrow : call'.row = call.row) :
    (q.put i call').calls.map PricingCall.row = q.calls.map PricingCall.row := by
  have hget : (q.calls.map PricingCall.row)[i]? = some call.row := by
    rw [List.getElem?_map, hcall, Option.map_some]
  obtain ⟨hi, hrow'⟩ := List.getElem?_eq_some_iff.1 hget
  rw [put, List.map_set, hrow, ← hrow', List.set_getElem_self]

theorem Advances.rows (h : Advances report sets q q') :
    q'.calls.map PricingCall.row = q.calls.map PricingCall.row := by
  cases h with
  | reject hcall => exact put_rows hcall rfl
  | start hcall => exact put_rows hcall rfl
  | evaluate hcall => exact put_rows hcall rfl
  | finish hcall => exact put_rows hcall rfl
  | fail hcall => exact put_rows hcall rfl
  | pass hcall => exact put_rows hcall rfl
  | spend hcall => exact put_rows hcall rfl

theorem step_rows (q : PricingQueue) (e : PricingEvent) :
    (q.step report sets e).calls.map PricingCall.row =
      q.calls.map PricingCall.row ++ (queuedRow e).toList := by
  have hsame (hnone : queuedRow e = none) (he : ∀ row, e ≠ .calculate row) :
      (q.step report sets e).calls.map PricingCall.row =
        q.calls.map PricingCall.row ++ (queuedRow e).toList := by
    rw [hnone, Option.toList_none, List.append_nil]
    rcases q.step_cases e with hq | ⟨row, _, hcalculate, _⟩ | hadvances
    · rw [hq]
    · exact absurd hcalculate (he row)
    · exact hadvances.rows
  cases e with
  | calculate row =>
    rw [step, queuedRow]
    cases vendorRowFacts row with
    | error _ => exact (List.append_nil _).symm
    | ok facts => exact List.map_append
  | callback i => exact hsame rfl fun _ h => by cases h
  | evaluate i => exact hsame rfl fun _ h => by cases h
  | finish i => exact hsame rfl fun _ h => by cases h
  | fail i error => exact hsame rfl fun _ h => by cases h
  | settle i => exact hsame rfl fun _ h => by cases h

/-- Every call on a row that parses is in the queue, in the order of the calls. -/
theorem run_rows (q : PricingQueue) (events : List PricingEvent) :
    (Library.run (step report sets) q events).calls.map PricingCall.row =
      q.calls.map PricingCall.row ++ events.filterMap queuedRow := by
  induction events generalizing q with
  | nil => exact (List.append_nil _).symm
  | cons e events ih =>
    rw [run_cons, ih, step_rows, List.append_assoc]
    cases hqueues : queuedRow e with
    | none => rw [List.filterMap_cons_none hqueues, Option.toList_none, List.nil_append]
    | some row => rw [List.filterMap_cons_some hqueues, Option.toList_some, List.singleton_append]

theorem left_put_lt (hcall : q.calls[i]? = some call)
    (hlt : callLeft sets call' < callLeft sets call) :
    ((q.put i call').calls.map (callLeft sets)).sum < (q.calls.map (callLeft sets)).sum := by
  obtain ⟨hi, hget⟩ := List.getElem?_eq_some_iff.1 hcall
  have hsplit : q.calls = q.calls.take i ++ call :: q.calls.drop (i + 1) := by
    rw [← hget, ← List.drop_eq_getElem_cons hi, List.take_append_drop]
  rw [put, List.set_eq_take_append_cons_drop, if_pos hi]
  conv => rhs; rw [hsplit]
  simp only [List.map_append, List.map_cons, List.sum_append, List.sum_cons]
  omega

/-- A promise that takes a step has fewer left. -/
theorem callLeft_lt (h : promiseLeft sets p < promiseLeft sets call.promise) :
    callLeft sets { call with promise := p } < callLeft sets call :=
  Nat.add_lt_add_right h _

theorem callLeft_handled_lt (h : call.handled = false) :
    callLeft sets { call with handled := true } < callLeft sets call := by
  rw [callLeft, callLeft, h]
  exact Nat.lt_succ_self _

/-- Every step but a call brings the calls nearer to their end. -/
theorem advances_left (hq : Advances report sets q q') : q'.left sets < q.left sets := by
  cases hq with
  | reject hcall hp hafter hspent =>
    apply left_put_lt hcall
    apply callLeft_lt
    rw [hp]
    exact Nat.succ_pos _
  | start hcall hp hafter hspent =>
    apply left_put_lt hcall
    apply callLeft_lt
    rw [hp]
    exact Nat.lt_succ_self _
  | evaluate hcall hp hleft =>
    apply left_put_lt hcall
    apply callLeft_lt
    obtain ⟨next, left, hnext⟩ := List.exists_cons_of_ne_nil hleft
    rw [hp, EngineRun.evaluate, hnext, promiseLeft, promiseLeft, hnext]
    exact Nat.lt_succ_self _
  | finish hcall hp hleft =>
    apply left_put_lt hcall
    apply callLeft_lt
    rw [hp]
    exact Nat.succ_pos _
  | fail hcall hp =>
    apply left_put_lt hcall
    apply callLeft_lt
    rw [hp]
    exact Nat.succ_pos _
  | pass hcall hp hhandled => exact left_put_lt hcall (callLeft_handled_lt hhandled)
  | spend hcall hp hhandled => exact left_put_lt hcall (callLeft_handled_lt hhandled)

theorem not_advances_of_quiet (hquiet : Quiet report sets q) (he : ∀ row, e ≠ .calculate row)
    (hstep : q.step report sets e = q') : ¬Advances report sets q q' := by
  intro hq
  have hlt := advances_left hq
  rw [← hstep, hquiet e he] at hlt
  exact Nat.lt_irrefl _ hlt

/-- A quiet queue has no engine run in progress. -/
theorem not_running_of_quiet (hquiet : Quiet report sets q)
    (hcall : q.calls[i]? = some call) : call.promise ≠ .running r := by
  intro hp
  by_cases hleft : r.left = []
  · apply not_advances_of_quiet hquiet (e := .finish i) (fun _ => PricingEvent.noConfusion) _
      (.finish hcall hp hleft)
    simp only [PricingQueue.step, hcall, Option.elim_some, PricingQueue.finish, hp, if_pos hleft]
  · apply not_advances_of_quiet hquiet (e := .evaluate i) (fun _ => PricingEvent.noConfusion) _
      (.evaluate hcall hp hleft)
    simp only [PricingQueue.step, hcall, Option.elim_some, PricingQueue.evaluate, hp,
      if_neg hleft]

/-- In a quiet queue every promise is settled, and what caught it has run. -/
theorem handled_of_quiet (hquiet : Quiet report sets q)
    (hcall : q.calls[i]? = some call) (hp : call.promise ≠ .waiting) : call.handled = true := by
  by_contra hn
  have hhandled := Bool.eq_false_of_not_eq_true hn
  cases hpromise : call.promise with
  | waiting => exact hp hpromise
  | running r => exact not_running_of_quiet hquiet hcall hpromise
  | fulfilled results =>
    apply not_advances_of_quiet hquiet (e := .settle i) (fun _ => PricingEvent.noConfusion) _
      (.pass hcall hpromise hhandled)
    simp only [PricingQueue.step, hcall, Option.elim_some, PricingQueue.settle, hpromise, hhandled,
      Bool.false_eq_true, if_false]
  | rejected error =>
    apply not_advances_of_quiet hquiet (e := .settle i) (fun _ => PricingEvent.noConfusion) _
      (.spend hcall hpromise hhandled)
    simp only [PricingQueue.step, hcall, Option.elim_some, PricingQueue.settle, hpromise, hhandled,
      Bool.false_eq_true, if_false]

theorem not_waiting_of_settled (hquiet : Quiet report sets q) (hcall : q.calls[i]? = some call)
    (hsettled : q.settled call.after = true) : call.promise ≠ .waiting := by
  intro hp
  cases hspent : q.spentBy with
  | none =>
    apply not_advances_of_quiet hquiet (e := .callback i) (fun _ => PricingEvent.noConfusion) _
      (.start hcall hp hsettled hspent)
    simp only [PricingQueue.step, hcall, Option.elim_some, PricingQueue.callback, hp, hsettled,
      if_true, hspent]
  | some error =>
    apply not_advances_of_quiet hquiet (e := .callback i) (fun _ => PricingEvent.noConfusion) _
      (.reject hcall hp hsettled hspent)
    simp only [PricingQueue.step, hcall, Option.elim_some, PricingQueue.callback, hp, hsettled,
      if_true, hspent]

/-- In a quiet queue the callbacks of all calls have run, one after another. -/
theorem not_waiting_of_quiet (h : Serial report sets q) (hquiet : Quiet report sets q)
    (hcall : q.calls[i]? = some call) : call.promise ≠ .waiting := by
  induction i generalizing call with
  | zero =>
    apply not_waiting_of_settled hquiet hcall
    rw [h.after 0 call hcall]
    rfl
  | succ i ih =>
    have hi := (List.getElem?_eq_some_iff.1 hcall).1
    have hbefore := List.getElem?_eq_getElem (Nat.lt_of_succ_lt hi)
    apply not_waiting_of_settled hquiet hcall
    rw [h.after (i + 1) call hcall, previous, settled, hbefore]
    exact handled_of_quiet hquiet hbefore (ih hbefore)

/-- While a call has no outcome, some step but a call is to come. -/
theorem outcome_of_quiet (h : Serial report sets q)
    (hquiet : Quiet report sets q) (hcall : q.calls[i]? = some call) (version : Int) :
    ∃ outcome, call.outcome version = some outcome := by
  have hwaiting := not_waiting_of_quiet h hquiet hcall
  rw [PricingCall.outcome]
  cases hp : call.promise with
  | waiting => exact absurd hp hwaiting
  | running r => exact absurd hp (not_running_of_quiet hquiet hcall)
  | fulfilled results => exact ⟨_, rfl⟩
  | rejected error => exact ⟨_, rfl⟩

/-- What spent the engine is the failure of the last run. -/
theorem spent_last (h : Serial report sets q) (hspent : q.spentBy = some error) :
    ∃ j, j + 1 = q.started.length ∧
      ∃ call, q.calls[j]? = some call ∧ call.promise = .rejected error := by
  cases hk : q.started.length with
  | zero =>
    rw [h.unspent (List.eq_nil_of_length_eq_zero hk)] at hspent
    cases hspent
  | succ j =>
    have hj : j < q.calls.length := Nat.lt_of_lt_of_le (hk ▸ Nat.lt_succ_self j) h.le
    have hcall := List.getElem?_eq_getElem hj
    refine ⟨j, rfl, _, hcall, ?_⟩
    have hlast := h.last j _ hcall hk.symm
    rw [Last, hspent] at hlast
    split at hlast
    · exact hlast.elim
    · cases hlast.2.2.1
    · cases hlast.1
    · rename_i hp
      split at hlast
      · cases hlast
        exact hp
      · cases hlast

theorem failed_last (h : Serial report sets q) (hfailed : q.Failed j error) :
    j + 1 = q.started.length ∧
      ∃ call, q.calls[j]? = some call ∧ call.promise = .rejected error := by
  obtain ⟨hj, call, hcall, hp⟩ := hfailed
  rw [h.started, List.mem_range] at hj
  refine ⟨Nat.le_antisymm hj ?_, call, hcall, hp⟩
  have := h.position hcall
  rwa [hp] at this

/-- Before a failure a call comes out as it does alone. -/
theorem outcome_before (h : Serial report sets q) (hcall : q.calls[i]? = some call)
    (houtcome : call.outcome version = some outcome)
    (hbefore : ∀ j error, q.Failed j error → i < j) (ruleIds : List Nat) :
    outcome = (alone report sets ruleIds version).calculate call.row := by
  have hi := h.position hcall
  rw [PricingCall.outcome] at houtcome
  cases hp : call.promise with
  | waiting =>
    rw [hp] at houtcome
    cases houtcome
  | running r =>
    rw [hp] at houtcome
    cases houtcome
  | fulfilled results =>
    rw [hp] at houtcome hi
    have hresults : results = EngineRun.all report sets call.facts := by
      rcases Nat.lt_or_eq_of_le hi with hlt | heq
      · have hdone := (h.done i call hcall hlt).1
        rw [hp] at hdone
        cases hdone
        rfl
      · have hlast := h.last i call hcall heq
        rw [Last, hp] at hlast
        exact hlast.2
    cases houtcome
    rw [BasePriceCalculator.calculate, h.parsed i call hcall, hresults]
    rfl
  | rejected error =>
    rw [hp] at hi
    rcases Nat.lt_or_eq_of_le hi with hlt | heq
    · have hrest := h.rest i call hcall (Nat.le_of_lt_succ hlt)
      rw [Rest, hp] at hrest
      obtain ⟨j, hj, hrejected⟩ := spent_last h hrest
      have hstarted : j ∈ q.started := by
        rw [h.started, List.mem_range, ← hj]
        exact Nat.lt_succ_self j
      have := hbefore j error ⟨hstarted, hrejected⟩
      omega
    · have hstarted : i ∈ q.started := by
        rw [h.started, List.mem_range, heq]
        exact Nat.lt_succ_self i
      exact absurd (hbefore i error ⟨hstarted, call, hcall, hp⟩) (Nat.lt_irrefl i)

/-- From a failure on, every call comes out with it. -/
theorem outcome_after (h : Serial report sets q) (hcall : q.calls[i]? = some call)
    (houtcome : call.outcome version = some outcome) (hfailed : q.Failed j error) (hj : j ≤ i) :
    outcome = .rejected .rules none error := by
  obtain ⟨hlast, c, hc, hp⟩ := failed_last h hfailed
  rcases Nat.lt_or_eq_of_le hj with hlt | rfl
  · have hrest := h.rest i call hcall (by omega)
    rw [PricingCall.outcome] at houtcome
    rw [Rest] at hrest
    split at hrest
    · rename_i hw
      rw [hw] at houtcome
      cases houtcome
    · rename_i error' hr
      rw [hr] at houtcome
      cases houtcome
      obtain ⟨j', hj', c', hc', hp'⟩ := spent_last h hrest
      obtain rfl : j' = j := by omega
      rw [hc] at hc'
      cases hc'
      rw [hp] at hp'
      cases hp'
      rfl
    · exact hrest.elim
  · rw [hc] at hcall
    cases hcall
    rw [PricingCall.outcome, hp] at houtcome
    cases houtcome
    rfl

/-- However calls overlap and whichever runs fail, the engine runs for one call at a time and in
call order, a call comes out as it does alone until a run fails and with the failure from then
on, and every call comes out; the calls are those made on the rows that parse. -/
theorem concurrent_sequential (report : List RuleProperties → VendorRowFacts → List RuleProperties)
    (sets : List (List RuleProperties)) (ruleIds : List Nat) (version : Int)
    (events : List PricingEvent) :
    (Library.run (step report sets) empty events).calls.map PricingCall.row =
        events.filterMap queuedRow ∧
      Sequential report sets ruleIds version (Library.run (step report sets) empty events) := by
  have h : Serial report sets (Library.run (step report sets) empty events) := Serial.run events
  refine ⟨run_rows empty events, h.started, ?_, ?_, ?_, ?_, ?_, ?_⟩
  · rintro i j ⟨c, r, hc, hr⟩ ⟨c', r', hc', hr'⟩
    exact Nat.succ.inj ((h.last_running hc hr).1.trans (h.last_running hc' hr').1.symm)
  · intro j error hfailed
    rw [(failed_last h hfailed).1]
    exact h.started
  · exact fun i call outcome hcall ho hb => outcome_before h hcall ho hb ruleIds
  · exact fun i call outcome j error hcall ho hf hj => outcome_after h hcall ho hf hj
  · intro e he
    rcases step_cases (Library.run (step report sets) empty events) e with
      heq | ⟨row, _, rfl, _⟩ | hadvances
    · exact .inl heq
    · exact absurd rfl (he row)
    · exact .inr (advances_left hadvances)
  · exact fun hquiet i call hcall => outcome_of_quiet h hquiet hcall version

end PricingQueue

end PromotionManagement
