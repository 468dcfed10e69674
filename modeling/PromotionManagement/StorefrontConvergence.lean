import PromotionManagement.StorefrontHandlers
import PromotionManagement.StorefrontWrites

namespace PromotionManagement
open Library ProductSourceRepository
set_option autoImplicit true

namespace Converging

open StorefrontState

variable {s s' : StorefrontState} {engine : PromotionEngine}

theorem step (h : Converging engine s) (e : StorefrontEvent) :
    Converging engine (s.step engine e) := by
  cases e with
  | clock now => exact h.tick now
  | insertProduct row => exact h.insertProduct row
  | updateProduct productId values provenance => exact h.updateProduct productId values provenance
  | createPromotion input stamp => exact h.createPromotion input stamp
  | assignPromotion promotionId target stamp => exact h.assignPromotion promotionId target stamp
  | cancelPromotion promotionId stamp => exact h.cancelPromotion promotionId stamp
  | announce announcement => exact h.announced [announcement]
  | deliver i position => exact h.deliver i position
  | read i sourceReadAt results => exact h.read i sourceReadAt results
  | run i => exact h.runNext i
  | runOrphan position => exact h.runOrphan position
  | find i => exact h.find i
  | publish i => exact h.publish i
  | scan i => exact h.scan i
  | kill i => exact h.kill i

theorem run (engine : PromotionEngine) (now : Int) (events : List StorefrontEvent) :
    Converging engine (Library.run (StorefrontState.step engine) (.initial now) events) :=
  run_invariant_always (fun _ e h => h.step e) (initial now) events

/-- Once no handler works, the script that is fresh for a product has run, and is the newest. -/
theorem fresh_holds (h : Converging engine s) (hidle : ∀ i, s.handlers i = .idle)
    (hf : s.Fresh engine row) :
    ∃ entry sourceReadAt, ProductPricer.Prices engine (s.current row) entry ∧
      Holds s.readModel row.id (some (.write entry sourceReadAt)) := by
  obtain ⟨entry, sourceReadAt, hp, hlive, hnewest⟩ := hf
  have hid : entry.id = row.id := by
    obtain ⟨results, _, rfl⟩ := hp
    rfl
  have hrun : .write entry sourceReadAt ∈ s.executed := by
    rcases hlive with hlive | ⟨i, hlive⟩
    · exact hlive
    · rw [hidle] at hlive
      exact absurd hlive List.not_mem_nil
  refine ⟨entry, sourceReadAt, hp, ?_⟩
  have hholds := h.represents.holds row.id
  cases hn : newestOp s.executed row.id with
  | none => exact absurd hid (newest_eq_none.1 hn _ hrun)
  | some op =>
    obtain ⟨hop, hopid⟩ := newest_mem hn
    have hle := stamp_le_newest hn hrun hid
    rcases hnewest op (.inl (.inl hop)) hopid with rfl | hlt
    · rw [hn] at hholds
      exact hholds
    · exact absurd hle (Nat.not_le.2 hlt)

/-- Once nothing is pending and no handler works, the newest script of a product has run. -/
theorem holds (h : Converging engine s) (hpending : s.pending = [])
    (hidle : ∀ i, s.handlers i = .idle) (hrow : row ∈ s.products.rows) :
    ∃ entry sourceReadAt, ProductPricer.Prices engine (s.current row) entry ∧
      Holds s.readModel row.id (some (.write entry sourceReadAt)) := by
  rcases h.settled row hrow with (⟨a, ha, _⟩ | ⟨i, hl⟩) | hf
  · rw [hpending] at ha
    exact absurd ha List.not_mem_nil
  · rw [hidle] at hl
    exact absurd hl id
  · exact h.fresh_holds hidle hf

end Converging

/-- Whenever no announcement is pending and no handler is in progress, Redis holds for every
product the entry that the pricer computes from its current row and promotions, the only one when
the engine's report is a function of the facts. -/
theorem storefront_converges (engine : PromotionEngine) (now : Int)
    (events : List StorefrontEvent) (s : StorefrontState)
    (hs : s = Library.run (StorefrontState.step engine) (.initial now) events)
    (hpending : s.pending = []) (hidle : ∀ i, s.handlers i = .idle) :
    ∀ row ∈ s.products.rows, ∃ entry sourceReadAt,
      ProductPricer.Prices engine (s.current row) entry ∧
      Holds s.readModel row.id (some (.write entry sourceReadAt)) ∧
      ((∀ facts results results', engine facts results → engine facts results' →
        results = results') →
        ∀ entry', ProductPricer.Prices engine (s.current row) entry' → entry' = entry) := by
  subst hs
  intro row hrow
  obtain ⟨entry, sourceReadAt, hp, hh⟩ :=
    (Converging.run engine now events).holds hpending hidle hrow
  exact ⟨entry, sourceReadAt, hp, hh, fun hengine entry' hp' => hp'.unique hp hengine⟩

/-- The product's own promotion applies when it can be priced. -/
def productFirst : PromotionEngine := fun facts results =>
  results = if facts.productPriceCents.isSome then [⟨1, .product⟩] else []

def scarf : ProductRow := ⟨1, ['S'], ⟨['N'], ['a'], 1000, 5, none⟩, none⟩

def movedScarf : ProductValues := ⟨['N'], ['b', ':'], 1000, 4, none⟩

def scarfSale : CreatePromotion := ⟨['P'], .percentage, 2500, 0, 100, some 1, none⟩

/-- A product is created and put on sale; a handler reads it, dies after its script was sent, and
the script runs after the product has moved and been written again. -/
def scarfRun : List StorefrontEvent :=
  [.insertProduct scarf, .deliver 0 0, .read 0 1 fun _ => [], .kill 0,
    .createPromotion scarfSale 10, .updateProduct 1 movedScarf none, .deliver 0 0,
    .read 0 2 fun _ => [⟨1, .product⟩], .run 0, .run 0, .runOrphan 0, .deliver 1 0, .find 1,
    .publish 1, .deliver 1 0, .read 1 3 fun _ => [⟨1, .product⟩], .run 1, .run 1, .deliver 0 0,
    .read 0 4 fun _ => [⟨1, .product⟩], .run 0, .run 0]

theorem scarfRun_idle (i : Nat) :
    (Library.run (StorefrontState.step productFirst) (.initial 10) scarfRun).handlers i =
      .idle := by
  match i with
  | 0 => rfl
  | 1 => rfl
  | i + 2 => rfl

theorem storefront_converges_scarfRun :
    ∃ entry sourceReadAt,
      ProductPricer.Prices productFirst ⟨1, ['S'], ['N'], ['b', ':'], 1000, 4, none,
        some ⟨1, ['P'], .percentage, 2500⟩, none⟩ entry ∧
      Holds (Library.run (StorefrontState.step productFirst) (.initial 10) scarfRun).readModel 1
        (some (.write entry sourceReadAt)) := by
  obtain ⟨entry, sourceReadAt, hp, hh, _⟩ := storefront_converges productFirst 10 scarfRun _ rfl
    rfl scarfRun_idle ⟨1, ['S'], movedScarf, none⟩ (List.mem_singleton_self _)
  exact ⟨entry, sourceReadAt, hp, hh⟩

end PromotionManagement
