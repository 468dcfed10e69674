import PromotionManagement.BasePriceCalculator
import PromotionManagement.ProductRepository
import PromotionManagement.VendorRow

namespace PromotionManagement
open Library
set_option autoImplicit true

def VendorRow.facts (row : VendorRow) : VendorRowFacts :=
  ⟨row.category, row.vendorPriceCents, row.stockQuantity⟩

/-- Prices one row, or returns `none` because the row was the problem. A `rules` fault throws. -/
def price (calculator : BasePriceCalculator) (line : Text) (jobId sourceOffset : Nat) :
    Except String (Option ProductUpsert) :=
  match parseVendorRow line with
  | .error _ => .ok none
  | .ok row =>
    match calculator.calculate row.facts with
    | .rejected .rules _ reason => .error s!"pricing rules rejected a row: {reason}"
    | .rejected .row _ _ => .ok none
    | .priced basePriceCents pricingRulesVersion =>
      .ok (some
        { sku := row.sku
          name := row.name
          category := row.category
          basePriceCents
          stockQuantity := row.stockQuantity
          pricingRulesVersion
          ingestJobId := jobId
          ingestSourceOffset := sourceOffset })

theorem priceOutOfRange_none (h : priceOutOfRange cents by' = none) :
    0 ≤ cents ∧ cents ≤ maxSafeInteger := by
  rw [priceOutOfRange] at h
  split at h
  · cases h
  · split at h
    · cases h
    · omega

theorem wholeNumberIssue_none (h : wholeNumberIssue n = none) : 0 ≤ n ∧ n ≤ maxSafeInteger := by
  rw [wholeNumberIssue] at h
  split at h
  · cases h
  · split at h
    · cases h
    · split at h
      · cases h
      · omega

namespace BasePriceCalculator

/-- Every intermediate price is checked, so a price that comes out was in range throughout. -/
theorem applyResults_priced (h : applyResults version cents results = .priced base v)
    (hc : 0 ≤ cents ∧ cents ≤ maxSafeInteger) :
    (0 ≤ base ∧ base ≤ maxSafeInteger) ∧ v = version := by
  induction results generalizing cents with
  | nil =>
    cases h
    exact ⟨hc, rfl⟩
  | cons result results ih =>
    rw [applyResults] at h
    split at h
    · rename_i rejected hr
      rw [priceOutOfRange] at hr
      split at hr
      · cases hr; cases h
      · split at hr
        · cases hr; cases h
        · cases hr
    · rename_i hr
      exact ih h (priceOutOfRange_none hr)

theorem calculate_priced {c : BasePriceCalculator} (h : c.calculate row = .priced base v) :
    (0 ≤ base ∧ base ≤ maxSafeInteger) ∧ v = c.pricingRulesVersion := by
  rw [calculate] at h
  split at h
  · cases h
  · rename_i facts hf
    split at h
    · cases h
    · refine applyResults_priced h ?_
      rw [vendorRowFacts] at hf
      split at hf
      · cases hf
      · split at hf
        · cases hf
        · rename_i hw
          split at hf
          · cases hf
          · cases hf
            exact wholeNumberIssue_none hw

theorem newestVersion_bounds (rows : List PricingRuleRow) :
    0 ≤ newestVersion rows ∧ newestVersion rows ≤ 8640000000000000 := by
  have hfold (v : Int) (hv : 0 ≤ v ∧ v ≤ 8640000000000000) :
      0 ≤ rows.foldl (fun newest row => max newest row.updatedAt.time) v ∧
        rows.foldl (fun newest row => max newest row.updatedAt.time) v ≤ 8640000000000000 := by
    induction rows generalizing v with
    | nil => exact hv
    | cons row rows ih =>
      have hb := row.updatedAt.bounded
      have hm : 0 ≤ max v row.updatedAt.time ∧ max v row.updatedAt.time ≤ 8640000000000000 := by
        omega
      exact ih _ hm
  exact hfold 0 (by omega)

theorem fromRules_version {engine : RulesEngine} (h : fromRules engine rows = .ok c) :
    c.pricingRulesVersion = newestVersion (activeIngestionRules rows) := by
  obtain ⟨_, rules, _, rfl⟩ := fromRules_ok h
  rfl

end BasePriceCalculator

/-- What an accepted line turns into, field by field. -/
theorem price_accepted (h : price calculator line jobId sourceOffset = .ok (some u)) :
    ∃ row, parseVendorRow line = .ok row ∧
      calculator.calculate row.facts = .priced u.basePriceCents u.pricingRulesVersion ∧
      u = { sku := row.sku, name := row.name, category := row.category
            basePriceCents := u.basePriceCents, stockQuantity := row.stockQuantity
            pricingRulesVersion := u.pricingRulesVersion
            ingestJobId := jobId, ingestSourceOffset := sourceOffset } := by
  rw [price] at h
  split at h
  · cases h
  · rename_i row hrow
    split at h
    · cases h
    · cases h
    · rename_i base version hc
      cases h
      exact ⟨row, hrow, hc, rfl⟩

/-- The rows of a file that the import accepts, each with the offset it starts at. -/
def acceptedRows (calculator : BasePriceCalculator) (jobId : Nat) (rows : List (Nat × Text)) :
    List ProductUpsert :=
  rows.filterMap fun row =>
    match price calculator row.2 jobId row.1 with
    | .ok accepted => accepted
    | .error _ => none

theorem mem_acceptedRows : u ∈ acceptedRows calculator jobId rows ↔
    ∃ row ∈ rows, price calculator row.2 jobId row.1 = .ok (some u) := by
  simp only [acceptedRows, List.mem_filterMap]
  refine ⟨?_, ?_⟩
  · rintro ⟨row, hr, h⟩
    refine ⟨row, hr, ?_⟩
    split at h
    · rename_i hp
      rw [hp, h]
    · cases h
  · rintro ⟨row, hr, h⟩
    exact ⟨row, hr, by rw [h]⟩

theorem price_provenance (h : price calculator line jobId sourceOffset = .ok (some u)) :
    u.provenance = toLex (jobId, sourceOffset) := by
  obtain ⟨row, _, _, hu⟩ := price_accepted h
  rw [hu]
  rfl

theorem acceptedRows_inOrder (h : rows.Pairwise fun r s => r.1 < s.1) :
    (acceptedRows c jobId rows).Pairwise fun u v => u.provenance < v.provenance := by
  rw [acceptedRows, List.pairwise_filterMap]
  refine h.imp ?_
  intro r s hrs u hu v hv
  have hp {row : Nat × Text} {u : ProductUpsert}
      (hu : (match price c row.2 jobId row.1 with
        | .ok accepted => accepted
        | .error _ => none) = some u) : u.provenance = toLex (jobId, row.1) := by
    split at hu
    · rename_i hp
      rw [hu] at hp
      exact price_provenance hp
    · cases hu
  rw [hp hu, hp hv, Prod.Lex.toLex_lt_toLex]
  exact .inr ⟨rfl, hrs⟩

end PromotionManagement
