import PromotionManagement.HeldAnnouncements

namespace PromotionManagement
open Library
set_option autoImplicit true

/-- A promotion that a write has just made, or left, running. -/
def PromotionWriteOutcome.running (now : Int) : PromotionWriteOutcome → List Nat
  | .ok row => if row.status = .active ∧ row.startsAt ≤ now then [row.id] else []
  | _ => []

theorem PromotionWriteOutcome.mem_running {outcome : PromotionWriteOutcome} {id : Nat}
    (h : id ∈ outcome.running now) :
    ∃ row, outcome = .ok row ∧ row.status = .active ∧ row.startsAt ≤ now ∧ row.id = id := by
  cases outcome with
  | ok row =>
    rw [running] at h
    split at h
    · rename_i hrunning
      exact ⟨row, rfl, hrunning.1, hrunning.2, (List.mem_singleton.1 h).symm⟩
    · exact absurd h List.not_mem_nil
  | _ => exact absurd h List.not_mem_nil

def StorefrontEvent.writesPromotions : StorefrontEvent → Bool
  | .clock _ => true
  | .createPromotion _ _ => true
  | .assignPromotion _ _ _ => true
  | .cancelPromotion _ _ => true
  | _ => false

namespace StorefrontState

variable {engine : PromotionEngine} {s : StorefrontState} {stale : List Nat}

/-- The storefront after an event, with nothing announced. -/
def quiet (engine : PromotionEngine) (s : StorefrontState) (e : StorefrontEvent) :
    StorefrontState :=
  { s.step engine e with pending := s.pending }

/-- The promotions whose prices an event changes there and then. -/
def repriced (s : StorefrontState) : StorefrontEvent → List Nat
  | .clock now =>
    (s.promotions.table.rows.filter fun p => p.hasBoundary s.now (max s.now now)).map
      PromotionRow.id
  | .createPromotion input stamp =>
    (s.promotions.insert s.productExists input stamp).2.running s.now
  | .assignPromotion promotionId target stamp =>
    (s.promotions.assign s.productExists promotionId target stamp).2.running s.now
  | .cancelPromotion promotionId stamp =>
    match (s.promotions.cancel promotionId stamp).2 with
    | some (row, true) => [row.id]
    | _ => []
  | _ => []

/-- A write announces the promotion it has just made, or left, running. -/
theorem write_running (s : StorefrontState) (written : Promotions × PromotionWriteOutcome) :
    s.write written = { s with promotions := written.1 }.announced
      ((written.2.running s.now).map .changed) := by
  obtain ⟨promotions, outcome⟩ := written
  rw [write]
  cases outcome with
  | ok row =>
    rw [PromotionWriteOutcome.running, apply_ite (List.map Announcement.changed)]
    rfl
  | _ => rfl

/-- An event that writes promotions announces what it reprices, and nothing else. -/
theorem step_quiet (engine : PromotionEngine) (s : StorefrontState) {e : StorefrontEvent}
    (he : e.writesPromotions = true) :
    s.step engine e = (s.quiet engine e).announced ((s.repriced e).map .changed) := by
  cases e with
  | clock now =>
    rw [quiet, step, tick, repriced, List.map_map]
    rfl
  | createPromotion input stamp =>
    rw [quiet, step, write_running]
    rfl
  | assignPromotion promotionId target stamp =>
    rw [quiet, step, write_running]
    rfl
  | cancelPromotion promotionId stamp =>
    rw [quiet, step, cancelPromotion, repriced]
    cases hc : (s.promotions.cancel promotionId stamp).2 with
    | none => rfl
    | some answer =>
      obtain ⟨row, _ | _⟩ := answer
      · rfl
      · rfl
  | _ => cases he

/-- The clock and the promotions change at the events that write them, and at no other. -/
theorem promotions_kept (engine : PromotionEngine) (s : StorefrontState) {e : StorefrontEvent}
    (he : e.writesPromotions = false) :
    (s.step engine e).now = s.now ∧ (s.step engine e).promotions = s.promotions := by
  cases e with
  | clock now => cases he
  | createPromotion input stamp => cases he
  | assignPromotion promotionId target stamp => cases he
  | cancelPromotion promotionId stamp => cases he
  | insertProduct row => rw [step, insertProduct]; split <;> exact ⟨rfl, rfl⟩
  | updateProduct productId values provenance =>
    rw [step, updateProduct]
    split <;> exact ⟨rfl, rfl⟩
  | announce announcement => exact ⟨rfl, rfl⟩
  | deliver i position => rw [step, deliver]; split <;> exact ⟨rfl, rfl⟩
  | read i t results =>
    rw [step, read]
    split
    · dsimp only
      split <;> exact ⟨rfl, rfl⟩
    · exact ⟨rfl, rfl⟩
  | run i => rw [step, runNext]; split <;> exact ⟨rfl, rfl⟩
  | runOrphan position => rw [step, runOrphan]; split <;> exact ⟨rfl, rfl⟩
  | find i => rw [step, find]; split <;> exact ⟨rfl, rfl⟩
  | publish i => rw [step, publish]; split <;> exact ⟨rfl, rfl⟩
  | scan i =>
    rw [step, scan]
    split
    · split <;> exact ⟨rfl, rfl⟩
    · exact ⟨rfl, rfl⟩
  | kill i => exact ⟨rfl, rfl⟩

/-- The storefront converges, were each of some of these promotions announced. -/
def ConvergesBut (engine : PromotionEngine) (s : StorefrontState) (stale : List Nat) : Prop :=
  ∃ held : List Nat, (∀ id ∈ held, id ∈ stale) ∧
    Converging engine (s.announced (held.map .changed))

namespace ConvergesBut

theorem initial (engine : PromotionEngine) (now : Int) : ConvergesBut engine (.initial now) [] :=
  ⟨[], fun _ h => h, .initial now⟩

theorem step (h : ConvergesBut engine s stale) (e : StorefrontEvent) :
    ConvergesBut engine (s.step engine e) stale := by
  obtain ⟨held, hheld, hconverging⟩ := h
  exact ⟨held, hheld, hconverging.step_announced e⟩

/-- Before any announcement, what an event reprices is held back as well. -/
theorem quiet (h : ConvergesBut engine s stale) {e : StorefrontEvent}
    (he : e.writesPromotions = true) :
    ConvergesBut engine (s.quiet engine e) (stale ++ s.repriced e) := by
  obtain ⟨held, hheld, hconverging⟩ := h
  have hstep := hconverging.step_announced e
  rw [step_quiet engine s he, announced, announced, List.append_assoc, ← List.map_append] at hstep
  refine ⟨s.repriced e ++ held, ?_, hstep⟩
  intro id hid
  exact List.mem_append.2 ((List.mem_append.1 hid).symm.imp_left (hheld id))

/-- Announcements held back are made, each once or more. -/
theorem release (h : ConvergesBut engine s stale) (added : List Nat) :
    ConvergesBut engine (s.announced (added.map .changed))
      (stale.filter fun id => id ∉ added) := by
  obtain ⟨held, hheld, hconverging⟩ := h
  refine ⟨held.filter fun id => id ∉ added, ?_, ?_⟩
  · intro id hid
    obtain ⟨hid, hadded⟩ := List.mem_filter.1 hid
    exact List.mem_filter.2 ⟨hheld id hid, hadded⟩
  · refine hconverging.covered ?_ ?_ rfl ?_
    · exact ⟨rfl, rfl, rfl⟩
    · exact ⟨rfl, rfl, rfl, rfl⟩
    intro row _ a ha hl
    refine ⟨a, ?_, hl⟩
    rcases List.mem_append.1 ha with ha | ha
    · exact List.mem_append_left _ (List.mem_append_left _ ha)
    · obtain ⟨id, hid, rfl⟩ := List.mem_map.1 ha
      by_cases hadded : id ∈ added
      · exact List.mem_append_left _ (List.mem_append_right _ (List.mem_map_of_mem hadded))
      · apply List.mem_append_right
        exact List.mem_map_of_mem (List.mem_filter.2 ⟨hid, decide_eq_true hadded⟩)

/-- Once nothing is pending and no handler works, each product has its entry, or is the target of
a promotion that is stale. -/
theorem settled (h : ConvergesBut engine s stale) (hpending : s.pending = [])
    (hidle : ∀ i, s.handlers i = .idle) (hrow : row ∈ s.products.rows) :
    (∃ entry sourceReadAt, ProductPricer.Prices engine (s.current row) entry ∧
      Holds s.readModel row.id (some (.write entry sourceReadAt))) ∨
    ∃ p ∈ s.rows, p.Targets row ∧ p.id ∈ stale := by
  obtain ⟨held, hheld, hconverging⟩ := h
  rcases hconverging.settled row hrow with (⟨a, ha, hl⟩ | ⟨i, hl⟩) | hf
  · right
    rw [announced, hpending] at ha
    obtain ⟨id, hid, rfl⟩ := List.mem_map.1 ha
    obtain ⟨p, hp, rfl, htargets⟩ := hl
    exact ⟨p, hp, htargets, hheld p.id hid⟩
  · exact absurd ((hidle i ▸ hl : HandlerPhase.idle.Leads _ row)) id
  · exact .inl (hconverging.fresh_holds hidle hf)

end ConvergesBut

end StorefrontState

end PromotionManagement
