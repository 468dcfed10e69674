import PromotionManagement.SweepRepair

namespace PromotionManagement
open Library
set_option autoImplicit true

namespace SweptState

/-- The promotions of the storefront are those of the sweeps, and so is its clock. -/
structure Joined (s : SweptState) : Prop where
  now : s.front.now = s.sweep.now
  promotions : s.front.promotions = s.sweep.promotions

/-- The storefront as an event of the sweeps leaves it, before any announcement. -/
def written (s : SweptState) (e : SweepEvent) : StorefrontState :=
  { s.front with
    now := (SweepState.step s.front.productExists s.sweep e).now
    promotions := (SweepState.step s.front.productExists s.sweep e).promotions }

/-- What an event of the sweeps is to the storefront, but for its announcements. -/
theorem Joined.quiet {s : SweptState} (h : s.Joined) (engine : PromotionEngine) {e : SweepEvent}
    (hforward : Forward s.sweep e) (hsource : e.source = some e') :
    e'.writesPromotions = true ∧ s.written e = s.front.quiet engine e' ∧
      s.sweep.repriced s.front.productExists e = s.front.repriced e' := by
  cases e with
  | clock now =>
    cases hsource
    have hnow : s.sweep.now ≤ now := hforward
    refine ⟨rfl, ?_, ?_⟩
    · rw [written, SweepState.step, StorefrontState.quiet, StorefrontState.step,
        StorefrontState.tick, h.now, max_eq_right hnow, ← h.promotions]
      rfl
    · rw [SweepState.repriced, StorefrontState.repriced, h.now, h.promotions, max_eq_right hnow]
  | insert input stamp =>
    cases hsource
    refine ⟨rfl, ?_, ?_⟩
    · rw [written, SweepState.step, SweepState.write, StorefrontState.quiet, StorefrontState.step,
        ← h.now, ← h.promotions]
      rfl
    · rw [SweepState.repriced, StorefrontState.repriced, h.now, h.promotions]
  | assign promotionId target stamp =>
    cases hsource
    refine ⟨rfl, ?_, ?_⟩
    · rw [written, SweepState.step, SweepState.write, StorefrontState.quiet, StorefrontState.step,
        ← h.now, ← h.promotions]
      rfl
    · rw [SweepState.repriced, StorefrontState.repriced, h.now, h.promotions]
  | cancel promotionId stamp =>
    cases hsource
    refine ⟨rfl, ?_, ?_⟩
    · rw [written, SweepState.step, StorefrontState.quiet, StorefrontState.step, ← h.now,
        ← h.promotions]
      rfl
    · rw [StorefrontState.repriced, h.promotions]
      rfl
  | _ => cases hsource

end SweptState

/-- Each product that no pending announcement and no handler will recompute is fresh, or is the
target of a stale promotion. -/
structure SweptConverging (engine : PromotionEngine) (watermark₀ : Int) (s : SweptState) :
    Prop where
  repairing : Repairing watermark₀ s
  joined : s.Joined
  converging : s.front.ConvergesBut engine s.stale

namespace SweptConverging

variable {engine : PromotionEngine} {watermark₀ : Int} {s : SweptState}

theorem initial (engine : PromotionEngine) (hstarted : micros watermark ≤ now)
    (queue : JobQueue Text) : SweptConverging engine watermark (.initial now watermark queue) where
  repairing := .initial hstarted queue
  joined := ⟨rfl, rfl⟩
  converging := .initial engine now

theorem written (h : SweptConverging engine watermark₀ s) {e : SweepEvent}
    (hforward : Forward s.sweep e) : (s.written e).ConvergesBut engine
      (s.stale ++ s.sweep.repriced s.front.productExists e) := by
  cases hsource : e.source with
  | some e' =>
    obtain ⟨hwrites, hwritten, hrepriced⟩ := h.joined.quiet engine hforward hsource
    rw [hwritten, hrepriced]
    exact h.converging.quiet hwrites
  | none =>
    have hframe : SweepState.Frame s.sweep (SweepState.step s.front.productExists s.sweep e) := by
      rcases SweepState.step_frame s.front.productExists s.sweep e with hframe | ⟨now, rfl⟩ |
        ⟨input, stamp, rfl⟩ | ⟨promotionId, target, stamp, rfl⟩ | ⟨promotionId, stamp, rfl⟩
      · exact hframe
      · cases hsource
      · cases hsource
      · cases hsource
      · cases hsource
    have hsame : s.written e = s.front := by
      rw [SweptState.written, hframe.now, hframe.promotions, ← h.joined.now, ← h.joined.promotions]
    rw [hsame]
    obtain ⟨held, hheld, hconverging⟩ := h.converging
    exact ⟨held, fun id hid => List.mem_append_left _ (hheld id hid), hconverging⟩

theorem step (h : SweptConverging engine watermark₀ s) {e : SweptEvent}
    (htimed : s.Timed watermark₀ e) : SweptConverging engine watermark₀ (s.step engine e) := by
  refine ⟨h.repairing.step engine htimed, ?_, ?_⟩
  · cases e with
    | sweep e => exact ⟨rfl, rfl⟩
    | front e =>
      rw [SweptState.step]
      split
      · exact h.joined
      · rename_i hwrites
        rw [Bool.not_eq_true] at hwrites
        obtain ⟨hnow, hpromotions⟩ := StorefrontState.promotions_kept engine s.front hwrites
        exact ⟨hnow.trans h.joined.now, hpromotions.trans h.joined.promotions⟩
  · cases e with
    | sweep e => exact (h.written htimed.1).release (s.sweep.adding e)
    | front e =>
      rw [SweptState.step]
      split
      · exact h.converging
      · exact h.converging.step e

end SweptConverging

namespace SweptState

variable {engine : PromotionEngine}

/-- Since an event of the run concerned the promotion, the queue has taken no job for it. -/
def UntakenSince (engine : PromotionEngine) (s : SweptState) (events : List SweptEvent)
    (concerned : SweptState → SweptEvent → List Nat) (id : Nat) : Prop :=
  ∃ pre e post, events = pre ++ e :: post ∧ id ∈ concerned (run (step engine) s pre) e ∧
    Along (step engine) (fun s e => id ∉ s.adding e) (run (step engine) s (pre ++ [e])) post

theorem stale_since {s : SweptState} {id : Nat} (h₀ : id ∉ s.stale)
    (h : id ∈ (run (step engine) s events).stale) : UntakenSince engine s events repriced id := by
  refine begun_since (fun s : SweptState => id ∈ s.stale) (fun s e => id ∈ s.repriced e) ?_ h₀ h
  intro s e h
  cases e with
  | sweep e =>
    obtain ⟨hid, hadded⟩ := List.mem_filter.1 h
    exact ⟨of_decide_eq_true hadded, List.mem_append.1 hid⟩
  | front e =>
    refine ⟨List.not_mem_nil, .inl ?_⟩
    rw [step] at h
    split at h
    · exact h
    · exact h

theorem dropped_since {s : SweptState} {id : Nat} (h₀ : id ∉ s.dropped)
    (h : id ∈ (run (step engine) s events).dropped) : UntakenSince engine s events dropping id := by
  refine begun_since (fun s : SweptState => id ∈ s.dropped) (fun s e => id ∈ s.dropping e) ?_ h₀ h
  intro s e h
  cases e with
  | sweep e =>
    obtain ⟨hid, hadded⟩ := List.mem_filter.1 h
    exact ⟨of_decide_eq_true hadded, List.mem_append.1 hid⟩
  | front e =>
    refine ⟨List.not_mem_nil, .inl ?_⟩
    rw [step] at h
    split at h
    · exact h
    · exact h

end SweptState

def scarfOpening : CreatePromotion :=
  ⟨['P'], .percentage, 2500, 100000000, 200000000, some 1, none⟩

/-- A product is published, its sale opens unannounced, and a sweep has it published again. -/
def sweptScarf : List SweptEvent :=
  [.front (.insertProduct scarf), .front (.deliver 0 0), .front (.read 0 1 fun _ => []),
    .front (.run 0), .front (.run 0), .sweep (.clock 10000000),
    .sweep (.insert scarfOpening 9000000), .sweep (.clock 140000000), .sweep (.bounds 0),
    .sweep (.read 0), .sweep (.publish 0 .done), .sweep (.advance 0 .done), .front (.deliver 0 0),
    .front (.find 0), .front (.publish 0), .front (.deliver 0 0),
    .front (.read 0 2 fun _ => [⟨1, .product⟩]), .front (.run 0), .front (.run 0)]

def sweptScarfEnd : SweptState :=
  run (SweptState.step productFirst) (.initial 0 0 .empty) sweptScarf

theorem sweptScarf_idle (i : Nat) : sweptScarfEnd.front.handlers i = .idle := by
  match i with
  | 0 => rfl
  | i + 1 => rfl

theorem sweptScarf_timed :
    Along (SweptState.step productFirst) (SweptState.Timed 0) (.initial 0 0 .empty) sweptScarf := by
  refine ⟨trivial, trivial, trivial, trivial, trivial, ⟨?_, trivial, trivial⟩,
    ⟨trivial, ?_, ?_, ?_⟩, ⟨?_, trivial, trivial⟩, ⟨trivial, trivial, trivial⟩,
    ⟨trivial, trivial, trivial⟩, ⟨trivial, trivial, trivial⟩, ⟨trivial, trivial, trivial⟩, trivial,
    trivial, trivial, trivial, trivial, trivial, trivial, trivial⟩
  · change (0 : Int) ≤ 10000000
    decide
  · change (10000000 : Int) < 9000000 + 30 * 1000000
    decide
  · change (0 : Int) < 9000000
    decide
  · change (9000000 : Int) ≤ 10000000
    decide
  · change (10000000 : Int) ≤ 140000000
    decide

theorem sweptScarf_kept : Along (SweptState.step productFirst) (fun s e => s.dropping e = [])
    (.initial 0 0 .empty) sweptScarf := by
  decide +kernel

end PromotionManagement
