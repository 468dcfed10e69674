import Mathlib.Data.List.Basic
import Mathlib.Data.List.Induction

namespace PromotionManagement.Library
set_option autoImplicit true

/-- A run applies its events to a state in order. -/
def run (step : σ → ε → σ) (s : σ) (es : List ε) : σ := es.foldl step s

@[simp] theorem run_nil (step : σ → ε → σ) (s : σ) : run step s [] = s := rfl

@[simp] theorem run_cons (step : σ → ε → σ) (s : σ) (e : ε) (es : List ε) :
    run step s (e :: es) = run step (step s e) es := rfl

theorem run_append (step : σ → ε → σ) (s : σ) (es fs : List ε) :
    run step s (es ++ fs) = run step (run step s es) fs :=
  List.foldl_append

/-- A property of a state and the event that meets it holds at every step of a run. -/
def Along (step : σ → ε → σ) (P : σ → ε → Prop) (s : σ) : List ε → Prop
  | [] => True
  | e :: es => P s e ∧ Along step P (step s e) es

instance Along.decidable (step : σ → ε → σ) (P : σ → ε → Prop)
    [∀ s e, Decidable (P s e)] : ∀ (s : σ) (es : List ε), Decidable (Along step P s es)
  | _, [] => .isTrue trivial
  | s, e :: es =>
    have := Along.decidable step P (step s e) es
    inferInstanceAs (Decidable (P s e ∧ Along step P (step s e) es))

theorem along_append {step : σ → ε → σ} {P : σ → ε → Prop} (s : σ) (es fs : List ε) :
    Along step P s (es ++ fs) ↔ Along step P s es ∧ Along step P (run step s es) fs := by
  induction es generalizing s with
  | nil => simp only [List.nil_append, Along, run_nil, true_and]
  | cons e es ih => simp only [List.cons_append, Along, run_cons, ih, and_assoc]

/-- A property holds along a run exactly when it holds after each of its prefixes. -/
theorem along_iff {step : σ → ε → σ} {P : σ → ε → Prop} (s : σ) (es : List ε) :
    Along step P s es ↔ ∀ pre e post, es = pre ++ e :: post → P (run step s pre) e := by
  constructor
  · rintro h pre e post rfl
    exact ((along_append s pre (e :: post)).1 h).2.1
  · intro h
    induction es generalizing s with
    | nil => trivial
    | cons e es ih =>
      refine ⟨h [] e es rfl, ih _ ?_⟩
      rintro pre f post rfl
      exact h (e :: pre) f post rfl

theorem along_and {step : σ → ε → σ} {P Q : σ → ε → Prop} :
    Along step (fun s e => P s e ∧ Q s e) s es ↔ Along step P s es ∧ Along step Q s es := by
  induction es generalizing s with
  | nil => simp only [Along, and_self]
  | cons e es ih => simp only [Along, ih, and_and_and_comm]

theorem Along.mono {step : σ → ε → σ} {P Q : σ → ε → Prop} (h : Along step P s es)
    (hPQ : ∀ s e, P s e → Q s e) : Along step Q s es := by
  induction es generalizing s with
  | nil => trivial
  | cons e es ih => exact ⟨hPQ _ _ h.1, ih h.2⟩

theorem along_of_forall {step : σ → ε → σ} {P : σ → ε → Prop} (h : ∀ s e, P s e) :
    Along step P s es := by
  induction es generalizing s with
  | nil => trivial
  | cons e es ih => exact ⟨h _ _, ih⟩

theorem along_of_mem {step : σ → ε → σ} {C : ε → Prop} (h : ∀ e ∈ es, C e) :
    Along step (fun _ e => C e) s es := by
  induction es generalizing s with
  | nil => trivial
  | cons e es ih =>
    rw [List.forall_mem_cons] at h
    exact ⟨h.1, ih h.2⟩

/-- An invariant kept by every step that meets a condition holds after a run of such steps. -/
theorem run_invariant {step : σ → ε → σ} {C : σ → ε → Prop} {I : σ → Prop}
    (hstep : ∀ s e, I s → C s e → I (step s e)) (h₀ : I s) (hc : Along step C s es) :
    I (run step s es) := by
  induction es generalizing s with
  | nil => exact h₀
  | cons e es ih => exact ih (hstep _ _ h₀ hc.1) hc.2

/-- An invariant kept by every step holds after every run. -/
theorem run_invariant_always {step : σ → ε → σ} {I : σ → Prop}
    (hstep : ∀ s e, I s → I (step s e)) (h₀ : I s) (es : List ε) : I (run step s es) :=
  run_invariant (C := fun _ _ => True) (fun s e h _ => hstep s e h) h₀
    (along_of_forall fun _ _ => trivial)

/-- What an invariant and a condition give at one step, they give along a whole run. -/
theorem Along.of_invariant {step : σ → ε → σ} {C P : σ → ε → Prop} {I : σ → Prop}
    (hstep : ∀ s e, I s → C s e → I (step s e)) (hP : ∀ s e, I s → C s e → P s e)
    (h₀ : I s) (hc : Along step C s es) : Along step P s es := by
  induction es generalizing s with
  | nil => trivial
  | cons e es ih => exact ⟨hP _ _ h₀ hc.1, ih (hstep _ _ h₀ hc.1) hc.2⟩

/-- Equivalent at every invariant state, a law and a condition hold along the same runs. -/
theorem along_congr {step : σ → ε → σ} {P C : σ → ε → Prop} {I : σ → Prop}
    (hstep : ∀ s e, I s → C s e → I (step s e)) (hPC : ∀ s e, I s → (P s e ↔ C s e))
    (h₀ : I s) : Along step P s es ↔ Along step C s es := by
  induction es generalizing s with
  | nil => exact Iff.rfl
  | cons e es ih =>
    simp only [Along, hPC s e h₀]
    exact and_congr_right fun hc => ih (hstep _ _ h₀ hc)

/-- What only some events begin, and each later one keeps, began at one of them and was kept
since. -/
theorem begun_since {step : σ → ε → σ} (I : σ → Prop) (begins : σ → ε → Prop)
    {keeps : σ → ε → Prop}
    (hstep : ∀ s e, I (step s e) → keeps s e ∧ (I s ∨ begins s e)) (h₀ : ¬I s)
    (h : I (run step s es)) : ∃ pre e post, es = pre ++ e :: post ∧
      begins (run step s pre) e ∧ Along step keeps (run step s (pre ++ [e])) post := by
  induction es using List.reverseRecOn with
  | nil => exact absurd h h₀
  | append_singleton es f ih =>
    rw [run_append] at h
    obtain ⟨hkeeps, hI | hbegins⟩ := hstep _ f h
    · obtain ⟨pre, e, post, rfl, hbegins, halong⟩ := ih hI
      refine ⟨pre, e, post ++ [f], List.append_assoc pre (e :: post) [f], hbegins, ?_⟩
      refine (along_append _ post [f]).2 ⟨halong, ?_, trivial⟩
      rw [← run_append, List.append_assoc, List.singleton_append]
      exact hkeeps
    · exact ⟨es, f, [], rfl, hbegins, trivial⟩

/-- How many events of a run meet a state that picks them. -/
def tally (step : σ → ε → σ) (picks : σ → ε → Bool) (s : σ) : List ε → Nat
  | [] => 0
  | e :: es => (if picks s e then 1 else 0) + tally step picks (step s e) es

/-- What is spent for good by the event it picks is picked by no other. -/
theorem tally_spent {step : σ → ε → σ} {picks : σ → ε → Bool} {Spent : σ → Prop}
    (hkeep : ∀ s e, Spent s → Spent (step s e)) (hspent : ∀ s e, Spent s → picks s e = false)
    (hs : Spent s) (es : List ε) : tally step picks s es = 0 := by
  induction es generalizing s with
  | nil => rfl
  | cons e es ih =>
    rw [tally, hspent s e hs, ih (hkeep s e hs)]
    rfl

theorem tally_le_one {step : σ → ε → σ} {picks : σ → ε → Bool} {Spent : σ → Prop}
    (hkeep : ∀ s e, Spent s → Spent (step s e)) (hspent : ∀ s e, Spent s → picks s e = false)
    (hpicks : ∀ s e, picks s e = true → Spent (step s e)) (s : σ) (es : List ε) :
    tally step picks s es ≤ 1 := by
  induction es generalizing s with
  | nil => exact Nat.zero_le 1
  | cons e es ih =>
    rw [tally]
    split
    · rename_i hp
      exact Nat.le_of_eq (congrArg (1 + ·) (tally_spent hkeep hspent (hpicks s e hp) es))
    · rw [Nat.zero_add]
      exact ih _

/-- A run that spends what its start had not spent picks exactly one of its events. -/
theorem tally_eq_one {step : σ → ε → σ} {picks : σ → ε → Bool} {Spent : σ → Prop}
    (hkeep : ∀ s e, Spent s → Spent (step s e)) (hspent : ∀ s e, Spent s → picks s e = false)
    (hpicks : ∀ s e, ¬Spent s → (picks s e = true ↔ Spent (step s e))) (hs : ¬Spent s)
    (hrun : Spent (run step s es)) : tally step picks s es = 1 := by
  induction es generalizing s with
  | nil => exact absurd hrun hs
  | cons e es ih =>
    rw [tally]
    split
    · rename_i hp
      rw [tally_spent hkeep hspent ((hpicks s e hs).1 hp) es]
    · rename_i hp
      rw [Nat.zero_add]
      exact ih (fun h => hp ((hpicks s e hs).2 h)) hrun

/-- What some event of a run spends is spent at the end of it. -/
theorem spent_of_tally_pos {step : σ → ε → σ} {picks : σ → ε → Bool} {Spent : σ → Prop}
    (hkeep : ∀ s e, Spent s → Spent (step s e))
    (hpicks : ∀ s e, picks s e = true → Spent (step s e))
    (h : 0 < tally step picks s es) : Spent (run step s es) := by
  induction es generalizing s with
  | nil => cases h
  | cons e es ih =>
    rw [tally] at h
    split at h
    · rename_i hp
      exact run_invariant_always hkeep (hpicks s e hp) es
    · rw [Nat.zero_add] at h
      exact ih h

end PromotionManagement.Library
