import PromotionManagement.StorefrontConvergence

namespace PromotionManagement
open Library
set_option autoImplicit true

namespace StorefrontState

theorem perm_announced (pending l new : List Announcement) :
    ((pending ++ l) ++ new).Perm ((pending ++ new) ++ l) := by
  rw [List.append_assoc, List.append_assoc]
  exact List.perm_append_comm.append_left pending

theorem read_announced (engine : PromotionEngine) (s : StorefrontState) (i sourceReadAt : Nat)
    (results : Nat → List RuleResult) (l : List Announcement) :
    (s.announced l).read engine i sourceReadAt results =
      (s.read engine i sourceReadAt results).announced l := by
  have hi' : (s.announced l).handlers i = s.handlers i := rfl
  rw [read, read, hi']
  cases s.handlers i with
  | reading productIds =>
    dsimp only
    rw [apply_ite fun t : StorefrontState => t.announced l]
    rfl
  | _ => rfl

/-- Announcements that wait at the end of the queue change nothing about an event. -/
theorem step_announced (engine : PromotionEngine) (s : StorefrontState) (l : List Announcement)
    (e : StorefrontEvent)
    (hdeliver : ∀ i position, e = .deliver i position → position < s.pending.length) :
    ∃ pending, (s.announced l).step engine e = { s.step engine e with pending := pending } ∧
      pending.Perm ((s.step engine e).pending ++ l) := by
  cases e with
  | clock now => exact ⟨_, rfl, perm_announced _ _ _⟩
  | insertProduct row =>
    by_cases hnew : 0 < row.id ∧ row.values.category ≠ [] ∧ s.products.find row.id = none
    · have hheld : (s.announced l).insertProduct row = _ := if_pos hnew
      have hplain : s.insertProduct row = _ := if_pos hnew
      rw [step, step, hheld, hplain]
      exact ⟨_, rfl, perm_announced _ _ _⟩
    · have hheld : (s.announced l).insertProduct row = _ := if_neg hnew
      have hplain : s.insertProduct row = _ := if_neg hnew
      rw [step, step, hheld, hplain]
      exact ⟨_, rfl, .refl _⟩
  | updateProduct productId values provenance =>
    by_cases hlisted : values.category ≠ []
    · have hheld : (s.announced l).updateProduct productId values provenance = _ := if_pos hlisted
      have hplain : s.updateProduct productId values provenance = _ := if_pos hlisted
      rw [step, step, hheld, hplain]
      exact ⟨_, rfl, perm_announced _ _ _⟩
    · have hheld : (s.announced l).updateProduct productId values provenance = _ := if_neg hlisted
      have hplain : s.updateProduct productId values provenance = _ := if_neg hlisted
      rw [step, step, hheld, hplain]
      exact ⟨_, rfl, .refl _⟩
  | createPromotion input stamp => exact ⟨_, rfl, perm_announced _ _ _⟩
  | assignPromotion promotionId target stamp => exact ⟨_, rfl, perm_announced _ _ _⟩
  | cancelPromotion promotionId stamp => exact ⟨_, rfl, perm_announced _ _ _⟩
  | announce announcement => exact ⟨_, rfl, perm_announced _ _ _⟩
  | deliver i position =>
    have hlt := hdeliver i position rfl
    have hget : (s.pending ++ l)[position]? = s.pending[position]? :=
      List.getElem?_append_left hlt
    have herase : (s.pending ++ l).eraseIdx position = s.pending.eraseIdx position ++ l :=
      List.eraseIdx_append_of_lt_length hlt l
    simp only [step, deliver, announced, hget]
    split
    · exact ⟨_, rfl, .of_eq herase⟩
    · exact ⟨_, rfl, .refl _⟩
  | read i sourceReadAt results =>
    exact ⟨_, s.read_announced engine i sourceReadAt results l, .refl _⟩
  | run i =>
    simp only [step, runNext, announced]
    split
    · exact ⟨_, rfl, .refl _⟩
    · exact ⟨_, rfl, .refl _⟩
    · exact ⟨_, rfl, .refl _⟩
  | runOrphan position =>
    simp only [step, runOrphan, announced]
    split
    · exact ⟨_, rfl, .refl _⟩
    · exact ⟨_, rfl, .refl _⟩
  | find i =>
    simp only [step, find, announced]
    split
    · exact ⟨_, rfl, .refl _⟩
    · exact ⟨_, rfl, .refl _⟩
  | publish i =>
    simp only [step, publish, announced]
    split
    · exact ⟨_, rfl, perm_announced _ _ _⟩
    · exact ⟨_, rfl, perm_announced _ _ _⟩
    · exact ⟨_, rfl, .refl _⟩
  | scan i =>
    simp only [step, scan, announced]
    split
    · split
      · exact ⟨_, rfl, .refl _⟩
      · exact ⟨_, rfl, .refl _⟩
    · exact ⟨_, rfl, .refl _⟩
  | kill i => exact ⟨_, rfl, perm_announced _ _ _⟩

end StorefrontState

namespace Converging

open StorefrontState

variable {s s' : StorefrontState} {engine : PromotionEngine}

/-- What is announced may be announced in other ways. -/
theorem covered (h : Converging engine s) (hsource : SameSource s s') (hredis : SameRedis s s')
    (hhandlers : s'.handlers = s.handlers)
    (hpending : ∀ row ∈ s.products.rows, ∀ a ∈ s.pending, a.Leads s.rows row →
      ∃ a' ∈ s'.pending, a'.Leads s.rows row) : Converging engine s' := by
  have hupdate : s'.handlers = Function.update s.handlers 0 (s.handlers 0) := by
    rw [hhandlers, Function.update_eq_self]
  apply h.move hsource hredis hupdate rfl (h.sound 0)
  intro row hrow ho
  rcases ho with ⟨a, ha, hl⟩ | ⟨i, hl⟩
  · left
    rw [hsource.rows]
    exact hpending row hrow a ha hl
  · right
    rw [hsource.rows, hhandlers]
    exact ⟨i, hl⟩

/-- An event, whatever announcements are still held back. -/
theorem step_announced (h : Converging engine (s.announced l)) (e : StorefrontEvent) :
    Converging engine ((s.step engine e).announced l) := by
  by_cases hdeliver : ∀ i position, e = .deliver i position → position < s.pending.length
  · obtain ⟨pending, hs, hp⟩ := s.step_announced engine l e hdeliver
    have hstep := h.step e
    rw [hs] at hstep
    refine hstep.covered ?_ ?_ rfl fun row _ a ha hl => ⟨a, hp.subset ha, hl⟩
    · exact ⟨rfl, rfl, rfl⟩
    · exact ⟨rfl, rfl, rfl, rfl⟩
  · simp only [not_forall, not_lt] at hdeliver
    obtain ⟨i, position, rfl, hlen⟩ := hdeliver
    have hsame : s.step engine (.deliver i position) = s := by
      simp only [StorefrontState.step, StorefrontState.deliver, List.getElem?_eq_none hlen]
      split
      · rename_i hnone
        cases hnone
      · rfl
    rw [hsame]
    exact h

end Converging

end PromotionManagement
