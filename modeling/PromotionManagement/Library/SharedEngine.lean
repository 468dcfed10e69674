import PromotionManagement.Library.Run
import Mathlib.Data.List.Sort
import Mathlib.Data.List.Dedup
import Mathlib.Data.Int.Order.Basic

namespace PromotionManagement.Library
set_option autoImplicit true

/-- The priorities of rules, each once and the highest first. -/
def priorities (priority : ρ → Int) (rules : List ρ) : List Int :=
  (rules.map priority).dedup.insertionSort fun a b => b ≤ a

/-- The rules that share a priority, in descending order of priority. -/
def prioritySets (priority : ρ → Int) (rules : List ρ) : List (List ρ) :=
  (priorities priority rules).map fun p => rules.filter fun rule => priority rule = p

theorem priorities_descend (priority : ρ → Int) (rules : List ρ) :
    (priorities priority rules).Pairwise fun a b => b < a := by
  have hsorted : (priorities priority rules).Pairwise fun a b => b ≤ a :=
    List.pairwise_insertionSort (fun a b : Int => b ≤ a) _
  have hnodup : (priorities priority rules).Nodup :=
    (List.perm_insertionSort _ _).nodup_iff.2 (List.nodup_dedup _)
  exact (hsorted.and hnodup).imp fun h => lt_of_le_of_ne h.1 h.2.symm

/-- A run of an engine: the sets of rules that it has still to evaluate, and what the others
reported. -/
structure EngineRun (F S R : Type) where
  facts : F
  left : List S
  results : List R

namespace EngineRun

def start (sets : List S) (facts : F) : EngineRun F S R := ⟨facts, sets, []⟩

/-- What a run reports that nothing interferes with. -/
def all (report : S → F → List R) (sets : List S) (facts : F) : List R :=
  sets.flatMap fun set => report set facts

/-- A run evaluates its next set only while the engine is running. -/
def evaluate (report : S → F → List R) (running : Bool) (r : EngineRun F S R) :
    EngineRun F S R :=
  match r.left with
  | [] => r
  | next :: left =>
    { r with left, results := if running then r.results ++ report next r.facts else r.results }

theorem all_append (report : S → F → List R) (as bs : List S) (facts : F) :
    all report (as ++ bs) facts = all report as facts ++ all report bs facts :=
  List.flatMap_append

theorem all_eq_nil {report : S → F → List R} {sets : List S} {facts : F}
    (h : ∀ set ∈ sets, report set facts = []) : all report sets facts = [] :=
  List.flatMap_eq_nil_iff.2 h

end EngineRun

/-- Runs that were started together on one engine, which keeps for all of them whether it is
running. -/
structure SharedEngine (ι F S R : Type) where
  running : Bool
  runs : ι → EngineRun F S R

namespace SharedEngine

variable [DecidableEq ι]

/-- Every run sets the engine to running at its start. -/
def start (sets : List S) (facts : ι → F) : SharedEngine ι F S R :=
  ⟨true, fun i => .start sets (facts i)⟩

/-- The next step of one run is its next set, or its end, which sets the engine to finished. -/
def step (report : S → F → List R) (e : SharedEngine ι F S R) (i : ι) : SharedEngine ι F S R :=
  match (e.runs i).left with
  | [] => { e with running := false }
  | _ :: _ => { e with runs := Function.update e.runs i ((e.runs i).evaluate report e.running) }

/-- The steps of a schedule that come before any run ends, for runs that have so many sets left. -/
def beforeFirstEnd (left : ι → Nat) : List ι → List ι
  | [] => []
  | i :: schedule =>
    if left i = 0 then []
    else i :: beforeFirstEnd (Function.update left i (left i - 1)) schedule

theorem step_end (report : S → F → List R) {e : SharedEngine ι F S R}
    (h : (e.runs i).left = []) : step report e i = ⟨false, e.runs⟩ := by
  rw [step, h]

theorem step_set (report : S → F → List R) {e : SharedEngine ι F S R}
    (h : (e.runs i).left = next :: left) : step report e i =
      ⟨e.running, Function.update e.runs i ⟨(e.runs i).facts, left, if e.running then
        (e.runs i).results ++ report next (e.runs i).facts else (e.runs i).results⟩⟩ := by
  rw [step, EngineRun.evaluate, h]

/-- Nothing is evaluated after a run has ended. -/
theorem run_results_of_finished (report : S → F → List R) (e : SharedEngine ι F S R)
    (h : e.running = false) (schedule : List ι) (i : ι) :
    ((run (step report) e schedule).runs i).results = (e.runs i).results := by
  induction schedule generalizing e with
  | nil => rfl
  | cons j schedule ih =>
    rw [run_cons]
    cases hleft : (e.runs j).left with
    | nil => rw [step_end report hleft, ih ⟨false, e.runs⟩ rfl]
    | cons next left =>
      have hstep := step_set report hleft
      rw [h] at hstep
      rw [hstep, ih ⟨false, _⟩ rfl]
      dsimp only
      by_cases hj : i = j
      · subst hj
        rw [Function.update_self]
        rfl
      · rw [Function.update_of_ne hj]

/-- A run reports what the sets report that it evaluates before any run ends. -/
theorem run_results (report : S → F → List R) (e : SharedEngine ι F S R)
    (h : e.running = true) (schedule : List ι) (i : ι) :
    ((run (step report) e schedule).runs i).results = (e.runs i).results ++
      EngineRun.all report ((e.runs i).left.take
        ((beforeFirstEnd (fun j => (e.runs j).left.length) schedule).count i))
        (e.runs i).facts := by
  induction schedule generalizing e with
  | nil => exact (List.append_nil _).symm
  | cons j schedule ih =>
    rw [run_cons, beforeFirstEnd]
    cases hleft : (e.runs j).left with
    | nil =>
      rw [step_end report hleft, run_results_of_finished report ⟨false, e.runs⟩ rfl]
      exact (List.append_nil _).symm
    | cons next left =>
      have hstep := step_set report hleft
      rw [h] at hstep
      have hlengths : (fun k => ((step report e j).runs k).left.length) =
          Function.update (fun k => (e.runs k).left.length) j left.length := by
        funext k
        rw [hstep]
        dsimp only
        by_cases hk : k = j
        · subst hk
          rw [Function.update_self, Function.update_self]
        · rw [Function.update_of_ne hk, Function.update_of_ne hk]
      rw [ih (step report e j) (by rw [hstep]), hlengths, List.length_cons,
        if_neg (Nat.succ_ne_zero _), Nat.add_sub_cancel, hstep]
      dsimp only
      by_cases hj : i = j
      · subst hj
        rw [Function.update_self, List.count_cons_self, hleft, List.take_succ_cons, if_pos rfl,
          List.append_assoc]
        rfl
      · rw [Function.update_of_ne hj, List.count_cons_of_ne (Ne.symm hj)]

/-- A run that is alone evaluates all of its sets. -/
theorem count_beforeFirstEnd_alone {left : ι → Nat} {i : ι} (h : ∀ j, j = i)
    {schedule : List ι} (hcount : left i ≤ schedule.count i) :
    (beforeFirstEnd left schedule).count i = left i := by
  induction schedule generalizing left with
  | nil => exact (Nat.le_zero.1 hcount).symm
  | cons j schedule ih =>
    obtain rfl := h j
    rw [beforeFirstEnd]
    rw [List.count_cons_self] at hcount
    split
    · rename_i hzero
      exact hzero.symm
    · rename_i hpos
      rw [List.count_cons_self, ih]
      · rw [Function.update_self]
        omega
      · rw [Function.update_self]
        omega

end SharedEngine

end PromotionManagement.Library
