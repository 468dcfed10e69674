import PromotionManagement.SweepBehind

namespace PromotionManagement
open Library
set_option autoImplicit true

namespace SweptState

/-- What is asked of a run: a clock that does not step back, and writes that commit within the lag
of their stamp. -/
def Timed (watermark₀ : Int) (s : SweptState) : SweptEvent → Prop
  | .sweep e => Forward s.sweep e ∧ Prompt s.sweep e ∧ Stamped watermark₀ s.sweep e
  | .front _ => True

/-- A sweep past the instant has the promotion to announce, or had its job dropped. -/
def Accounted (s : SweptState) (t : Int) (id : Nat) : Prop :=
  Behind s.sweep t id ∨ id ∈ s.dropped

end SweptState

/-- Each stale promotion is accounted for at the watermark, and at the end of each window whose
sweep has published it. -/
structure Repairing (watermark₀ : Int) (s : SweptState) : Prop where
  swept : Swept watermark₀ s.sweep
  lagging : Lagging s.sweep
  timely : Timely watermark₀ s.sweep
  started : micros watermark₀ ≤ s.sweep.now
  activated : s.sweep.Activated
  passed : ∀ id ∈ s.stale, s.Accounted s.sweep.watermark id
  windows : ∀ i w, s.sweep.sweepers i = .sweeping w → w.since ≠ w.windowEnd →
    ∀ id ∈ w.promotionIds, id ∉ w.toPublish → id ∈ s.stale → s.Accounted w.windowEnd id

namespace Repairing

variable {watermark₀ t : Int} {s : SweptState} {engine : PromotionEngine} {e : SweepEvent}

theorem initial (hstarted : micros watermark ≤ now) (queue : JobQueue Text) :
    Repairing watermark (.initial now watermark queue) where
  swept := .initial now watermark queue
  lagging := .initial now watermark queue
  timely := .initial now watermark queue
  started := hstarted
  activated _ hp := absurd hp List.not_mem_nil
  passed _ hid := absurd hid List.not_mem_nil
  windows _ _ hi := absurd hi SweepPhase.noConfusion

/-- What was accounted for when it was stale is so after an event, if it is stale then. -/
theorem accounted (h : Repairing watermark₀ s) (ht : Trails watermark₀ s.sweep t)
    (htimed : s.Timed watermark₀ (.sweep e)) {id : Nat}
    (hid : id ∈ (s.step engine (.sweep e)).stale) (hold : id ∈ s.stale → s.Accounted t id) :
    (s.step engine (.sweep e)).Accounted t id := by
  obtain ⟨hforward, hprompt, hstamped⟩ := htimed
  obtain ⟨hid, hadded⟩ := List.mem_filter.1 hid
  rcases List.mem_append.1 hid with hid | hid
  · rcases hold hid with hbehind | hdropped
    · exact .inl (hbehind.step h.timely ht hforward hprompt hstamped)
    · exact .inr (List.mem_filter.2 ⟨List.mem_append_left _ hdropped, hadded⟩)
  · exact .inl (.repriced ht h.started h.activated hprompt hstamped hid)

/-- A promotion that is stale when its window closes was not one that the sweep repaired. -/
theorem closed (h : Repairing watermark₀ s) {i : Nat} (hi : s.sweep.sweepers i = .sweeping w)
    (hto : w.toPublish = []) (hsince : s.sweep.watermark = w.since) (hne : w.since ≠ w.windowEnd)
    {id : Nat} (hid : id ∈ s.stale) : s.Accounted w.windowEnd id := by
  rcases h.passed id hid with ⟨p, hp, rfl, hover⟩ | hdropped
  · rcases hover with ⟨b, hd, hlt, hle⟩ | hassigned
    · by_cases hb : b ≤ micros w.windowEnd
      · rw [hsince] at hlt
        have hread := h.timely.seen i w hi p hp b hd hlt hb
        have hpublished : p.id ∉ w.toPublish := by
          rw [hto]
          exact List.not_mem_nil
        exact h.windows i w hi hne p.id hread hpublished hid
      · exact .inl ⟨p, hp, rfl, .inl ⟨b, hd, not_le.1 hb, hle⟩⟩
    · exact .inl ⟨p, hp, rfl, .inr hassigned⟩
  · exact .inr hdropped

theorem step_passed (h : Repairing watermark₀ s) (htimed : s.Timed watermark₀ (.sweep e)) :
    ∀ id ∈ (s.step engine (.sweep e)).stale,
      (s.step engine (.sweep e)).Accounted (s.step engine (.sweep e)).sweep.watermark id := by
  intro id hid
  have hstays : (s.step engine (.sweep e)).Accounted s.sweep.watermark id :=
    h.accounted h.timely.trails htimed hid (h.passed id)
  rcases SweepState.step_watermark s.front.productExists s.sweep e with
    ⟨_, hw, _⟩ | ⟨w, hadv, hw, _⟩
  · have hwatermark : (s.step engine (.sweep e)).sweep.watermark = s.sweep.watermark := hw
    rw [hwatermark]
    exact hstays
  · have hwatermark : (s.step engine (.sweep e)).sweep.watermark = w.windowEnd := hw
    rw [hwatermark]
    obtain ⟨i, _, _, hi, hto, _, hsince⟩ := SweepState.advancing_eq_some hadv
    by_cases hne : w.since = w.windowEnd
    · rw [← hne, ← hsince]
      exact hstays
    · exact h.accounted (h.lagging.trails hi hne watermark₀) htimed hid (h.closed hi hto hsince hne)

/-- A promotion that a sweep has just published is stale no more, or its job was dropped. -/
theorem published {i : Nat} (hi : s.sweep.sweepers i = .sweeping w)
    (hto : w.toPublish = promotionId :: rest)
    (hid : promotionId ∈ (s.step engine (.sweep (.publish i .done))).stale) :
    promotionId ∈ (s.step engine (.sweep (.publish i .done))).dropped := by
  have hpublishing : s.sweep.publishing (.publish i .done) =
      some (SweepBoundariesCommand.jobId promotionId w.since, promotionId) := by
    simp only [SweepState.publishing, hi, hto, Outcome.lands, if_true]
  obtain ⟨_, hadded⟩ := List.mem_filter.1 hid
  refine List.mem_filter.2 ⟨List.mem_append_right _ ?_, hadded⟩
  rw [SweepState.dropping, hpublishing]
  by_cases hholds : s.sweep.queue.Holds (SweepBoundariesCommand.jobId promotionId w.since)
  · simp only [hholds, if_true, List.mem_singleton]
  · have htaken : promotionId ∈ s.sweep.adding (.publish i .done) := by
      simp only [SweepState.adding, hpublishing, hholds, if_false, List.mem_singleton]
    exact absurd htaken (of_decide_eq_true hadded)

theorem step_windows (h : Repairing watermark₀ s) (htimed : s.Timed watermark₀ (.sweep e))
    (i : Nat) (w : Sweep) (hi : (s.step engine (.sweep e)).sweep.sweepers i = .sweeping w)
    (hne : w.since ≠ w.windowEnd) (id : Nat) (hid : id ∈ w.promotionIds) (hto : id ∉ w.toPublish)
    (hstale : id ∈ (s.step engine (.sweep e)).stale) :
    (s.step engine (.sweep e)).Accounted w.windowEnd id := by
  rcases SweepState.step_sweepers s.front.productExists s.sweep e i with hs | hs | hs | ⟨_, hs⟩ |
    ⟨a, c, _, hs⟩ | ⟨v, promotionId, rest, rfl, hv, hp, hs⟩
  · have hw := hs.symm.trans hi
    exact h.accounted (h.lagging.trails hw hne watermark₀) htimed hstale
      (h.windows i w hw hne id hid hto)
  · cases hs.symm.trans hi
  · cases hs.symm.trans hi
    exact absurd rfl hne
  · cases hs.symm.trans hi
  · cases hs.symm.trans hi
    exact absurd hid hto
  · cases hs.symm.trans hi
    by_cases heq : id = promotionId
    · subst heq
      exact .inr (published hv hp hstale)
    · refine h.accounted (h.lagging.trails hv hne watermark₀) htimed hstale
        (h.windows i v hv hne id hid ?_)
      rw [hp]
      exact fun hmem => (List.mem_cons.1 hmem).elim heq hto

theorem step (h : Repairing watermark₀ s) (engine : PromotionEngine) {e : SweptEvent}
    (htimed : s.Timed watermark₀ e) : Repairing watermark₀ (s.step engine e) := by
  cases e with
  | sweep e =>
    obtain ⟨hforward, hprompt, hstamped⟩ := htimed
    exact {
      swept := h.swept.step e
      lagging := h.lagging.step hforward
      timely := .step h.lagging h.timely hforward hprompt
      started := h.started.trans (SweepState.step_now s.front.productExists hforward)
      activated := h.activated.step hforward hstamped
      passed := h.step_passed ⟨hforward, hprompt, hstamped⟩
      windows := h.step_windows ⟨hforward, hprompt, hstamped⟩ }
  | front e =>
    rw [SweptState.step]
    split
    · exact h
    · exact ⟨h.swept, h.lagging, h.timely, h.started, h.activated, h.passed, h.windows⟩

end Repairing

end PromotionManagement
