import Mathlib.Order.Monotone.Defs
import Mathlib.Order.Lattice

namespace PromotionManagement.Library
set_option autoImplicit true

variable {α : Type} [LinearOrder α]

/-- Consecutive half-open intervals from `a` to `b`, none of them empty. -/
def Tiles (a : α) : List (α × α) → α → Prop
  | [], b => a = b
  | w :: ws, b => w.1 = a ∧ a < w.2 ∧ Tiles w.2 ws b

namespace Tiles

theorem snoc {a b c : α} (h : Tiles a ws b) (hc : b < c) : Tiles a (ws ++ [(b, c)]) c := by
  induction ws generalizing a with
  | nil =>
    cases h
    exact ⟨rfl, hc, rfl⟩
  | cons w ws ih => exact ⟨h.1, h.2.1, ih h.2.2⟩

theorem le {a b : α} (h : Tiles a ws b) : a ≤ b := by
  induction ws generalizing a with
  | nil => exact le_of_eq h
  | cons w ws ih => exact h.2.1.le.trans (ih h.2.2)

theorem bounds {a b : α} (h : Tiles a ws b) (hw : w ∈ ws) : a ≤ w.1 ∧ w.2 ≤ b := by
  induction ws generalizing a with
  | nil => cases hw
  | cons v ws ih =>
    rcases List.mem_cons.1 hw with rfl | hw
    · exact ⟨h.1.ge, h.2.2.le⟩
    · obtain ⟨hl, hr⟩ := ih h.2.2 hw
      exact ⟨h.2.1.le.trans hl, hr⟩

/-- Every point of the span lies in an interval, and every point of an interval in the span. -/
theorem covers {a b : α} (h : Tiles a ws b) (t : α) :
    (a < t ∧ t ≤ b) ↔ ∃ w ∈ ws, w.1 < t ∧ t ≤ w.2 := by
  induction ws generalizing a with
  | nil =>
    cases h
    exact ⟨fun ht => absurd ht.1 ht.2.not_gt, fun ⟨w, hw, _⟩ => absurd hw List.not_mem_nil⟩
  | cons w ws ih =>
    obtain ⟨hw, hlt, hr⟩ := h
    simp only [List.mem_cons, exists_eq_or_imp, ← ih hr, hw]
    rcases le_or_gt t w.2 with ht | ht
    · have hn : ¬ (w.2 < t ∧ t ≤ b) := fun hn => hn.1.not_ge ht
      rw [or_iff_left hn]
      exact and_congr_right fun _ => ⟨fun _ => ht, fun _ => ht.trans hr.le⟩
    · have hn : ¬ (a < t ∧ t ≤ w.2) := fun hn => hn.2.not_gt ht
      rw [or_iff_right hn]
      exact and_congr_left fun _ => ⟨fun _ => ht, fun _ => hlt.trans ht⟩

/-- A point is in one of the intervals when it is in the span, and in none otherwise. -/
theorem countP_eq {a b : α} (h : Tiles a ws b) (t : α) :
    (ws.countP fun w => w.1 ≤ t && t < w.2) = if a ≤ t ∧ t < b then 1 else 0 := by
  induction ws generalizing a with
  | nil =>
    cases h
    rw [if_neg fun ht => ht.1.not_gt ht.2]
    rfl
  | cons w ws ih =>
    obtain ⟨rfl, hlt, hr⟩ := h
    rw [List.countP_cons, ih hr]
    rcases lt_or_ge t w.2 with ht | ht
    · have hrest : ¬ (w.2 ≤ t ∧ t < b) := fun hn => hn.1.not_gt ht
      have hspan : (decide (w.1 ≤ t) && decide (t < w.2)) = true ↔ w.1 ≤ t ∧ t < b := by
        rw [Bool.and_eq_true, decide_eq_true_eq, decide_eq_true_eq]
        exact and_congr_right fun _ => ⟨fun _ => ht.trans_le hr.le, fun _ => ht⟩
      rw [if_neg hrest, Nat.zero_add]
      exact if_congr hspan rfl rfl
    · have hself : ¬ (decide (w.1 ≤ t) && decide (t < w.2)) = true := by
        rw [Bool.and_eq_true, decide_eq_true_eq, decide_eq_true_eq]
        exact fun hn => hn.2.not_ge ht
      rw [if_neg hself, Nat.add_zero]
      exact if_congr (and_congr_left fun _ => ⟨fun _ => hlt.le.trans ht, fun _ => ht⟩) rfl rfl

theorem map {β : Type} [LinearOrder β] {a b : α} {f : α → β} (hf : StrictMono f)
    (h : Tiles a ws b) : Tiles (f a) (ws.map fun w => (f w.1, f w.2)) (f b) := by
  induction ws generalizing a with
  | nil => exact congrArg f h
  | cons w ws ih => exact ⟨congrArg f h.1, hf h.2.1, ih h.2.2⟩

end Tiles

end PromotionManagement.Library
