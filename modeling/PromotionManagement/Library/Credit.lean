import Mathlib.Data.List.Basic

namespace PromotionManagement.Library
set_option autoImplicit true

/-- What has been spent, and what agents still hold a claim to spend, was paid for in full. -/
def Credited (price spent paid : Nat) (holds : ι → Prop) : Prop :=
  ∃ owing : List ι, (∀ i, holds i → i ∈ owing) ∧ price * (spent + owing.length) ≤ paid

namespace Credited

theorem zero {holds : ι → Prop} (h : ∀ i, ¬holds i) (price paid : Nat) :
    Credited price 0 paid holds := by
  refine ⟨[], fun i hi => absurd hi (h i), ?_⟩
  exact Nat.zero_le paid

theorem le {holds : ι → Prop} (h : Credited price spent paid holds) : price * spent ≤ paid := by
  obtain ⟨owing, _, hle⟩ := h
  exact Nat.le_trans (Nat.mul_le_mul_left price (Nat.le_add_right spent owing.length)) hle

theorem mono {holds holds' : ι → Prop} (h : Credited price spent paid holds)
    (hpaid : paid ≤ paid') (hh : ∀ i, holds' i → holds i) : Credited price spent paid' holds' := by
  obtain ⟨owing, hmem, hle⟩ := h
  exact ⟨owing, fun i hi => hmem i (hh i hi), Nat.le_trans hle hpaid⟩

/-- A claim that is paid for may be given to an agent. -/
theorem earn {holds holds' : ι → Prop} {i : ι} (h : Credited price spent paid holds)
    (hpaid : paid + price ≤ paid') (hh : ∀ j, holds' j → j = i ∨ holds j) :
    Credited price spent paid' holds' := by
  obtain ⟨owing, hmem, hle⟩ := h
  refine ⟨i :: owing, ?_, ?_⟩
  · intro j hj
    rcases hh j hj with rfl | hj
    · exact List.mem_cons_self
    · exact List.mem_cons_of_mem i (hmem j hj)
  · rw [List.length_cons, ← Nat.add_assoc, Nat.mul_add, Nat.mul_one]
    exact Nat.le_trans (Nat.add_le_add_right hle price) hpaid

/-- An agent that spends its claim holds it no longer. -/
theorem spend [DecidableEq ι] {holds holds' : ι → Prop} {i : ι}
    (h : Credited price spent paid holds) (hpaid : paid ≤ paid') (hi : holds i)
    (hi' : ¬holds' i) (hh : ∀ j, holds' j → holds j) :
    Credited price (spent + 1) paid' holds' := by
  obtain ⟨owing, hmem, hle⟩ := h
  refine ⟨owing.erase i, ?_, ?_⟩
  · intro j hj
    apply (List.mem_erase_of_ne _).2 (hmem j (hh j hj))
    rintro rfl
    exact hi' hj
  · have hlen := List.length_erase_of_mem (hmem i hi)
    have hpos := List.length_pos_of_mem (hmem i hi)
    have hsame : spent + 1 + (owing.erase i).length = spent + owing.length := by omega
    rw [hsame]
    exact Nat.le_trans hle hpaid

end Credited

end PromotionManagement.Library
