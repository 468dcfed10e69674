import PromotionManagement.BoundarySweep
import PromotionManagement.Library.Run
import PromotionManagement.Library.Tiling

namespace PromotionManagement
open Library
set_option autoImplicit true

namespace BoundaryRepository

theorem micros_windowEnd_le (now since : Int) :
    micros (windowEnd now since) ≤ now - commitLagSeconds * 1000000 := by
  simp only [micros, windowEnd, commitLagSeconds, maxWindowSeconds]
  omega

theorem mem_crossed {promotionId : Nat} : promotionId ∈ crossed since upTo rows ↔
    ∃ p ∈ rows, p.crosses since upTo ∧ p.id = promotionId := by
  simp only [crossed, List.mem_eraseDups, List.mem_map, List.mem_insertionSort, List.mem_filter,
    and_assoc]

end BoundaryRepository

theorem PromotionRow.crosses_of {p : PromotionRow} (hd : p.status ≠ .draft)
    (hb : b ∈ p.instants) (hl : micros since < b) (hr : b ≤ micros windowEnd) :
    p.crosses since windowEnd := by
  rw [crosses, Bool.and_eq_true, decide_eq_true_iff, List.any_eq_true]
  refine ⟨hd, b, hb, ?_⟩
  rw [Bool.and_eq_true, decide_eq_true_iff, decide_eq_true_iff]
  exact ⟨hl, hr⟩

/-- The clock does not step back. -/
def Forward (s : SweepState) : SweepEvent → Prop
  | .clock now => s.now ≤ now
  | _ => True

/-- Every promotion of the snapshot with an instant in the window is among the ids. -/
def Sweep.Selects (w : Sweep) : Prop :=
  ∀ p ∈ w.snapshot, p.status ≠ .draft → ∀ b ∈ p.instants, micros w.since < b →
    b ≤ micros w.windowEnd → p.id ∈ w.promotionIds

namespace SweepState

variable {s : SweepState} {productExists : Nat → Bool}

/-- The sweeps that moved the watermark, which those over an empty window do not. -/
def windows (s : SweepState) : List Sweep := s.advanced.filter fun w => w.since ≠ w.windowEnd

theorem setPhase_sweepers (i j : Nat) (phase : SweepPhase) :
    (s.setPhase i phase).sweepers j = if j = i then phase else s.sweepers j :=
  Function.update_apply _ _ _ _

theorem readBounds_sweepers (s : SweepState) (i j : Nat) :
    (s.readBounds i).sweepers j = s.sweepers j ∨
    (s.readBounds i).sweepers j = .sweeping ⟨s.watermark, s.watermark, [], [], []⟩ ∨
    (s.watermark < BoundaryRepository.windowEnd s.now s.watermark ∧
      (s.readBounds i).sweepers j =
        .bounded s.watermark (BoundaryRepository.windowEnd s.now s.watermark)) := by
  by_cases hj : j = i
  · subst hj
    by_cases hle : BoundaryRepository.windowEnd s.now s.watermark ≤ s.watermark
    · simp only [readBounds, hle, if_true, setPhase_sweepers, true_or, or_true]
    · simp only [readBounds, hle, if_false, setPhase_sweepers, not_le.1 hle, if_true, and_self,
        or_true]
  · left
    simp only [readBounds]
    split
    · exact (setPhase_sweepers _ _ _).trans (if_neg hj)
    · exact (setPhase_sweepers _ _ _).trans (if_neg hj)

theorem publishNext_sweepers (s : SweepState) (i j : Nat) (w : Sweep) (outcome : Outcome) :
    (s.publishNext i w outcome).sweepers j = s.sweepers j ∨
    (s.publishNext i w outcome).sweepers j = .idle ∨
    (∃ promotionId rest, outcome = .done ∧ j = i ∧ w.toPublish = promotionId :: rest ∧
      (s.publishNext i w outcome).sweepers j = .sweeping { w with toPublish := rest }) := by
  cases hp : w.toPublish with
  | nil =>
    left
    simp only [publishNext, hp]
  | cons promotionId rest =>
    have hs (id : Text) : (if outcome.lands then s.addJob id promotionId else s).sweepers j =
        s.sweepers j := by
      split <;> rfl
    by_cases hj : j = i
    · cases outcome with
      | done =>
        right; right
        refine ⟨promotionId, rest, rfl, hj, rfl, ?_⟩
        simp only [publishNext, hp, setPhase_sweepers, hj, if_true]
      | failed landed =>
        right; left
        simp only [publishNext, hp, setPhase_sweepers, hj, if_true]
    · left
      cases outcome with
      | done =>
        simp only [publishNext, hp, setPhase_sweepers, hj, if_false]
        exact hs _
      | failed landed =>
        simp only [publishNext, hp, setPhase_sweepers, hj, if_false]
        exact hs _

theorem publishNext_watermark (s : SweepState) (i : Nat) (w : Sweep) (outcome : Outcome) :
    (s.publishNext i w outcome).watermark = s.watermark ∧
      (s.publishNext i w outcome).advanced = s.advanced := by
  rw [publishNext]
  split
  · exact ⟨rfl, rfl⟩
  · rcases outcome with _ | _ | _
    · exact ⟨rfl, rfl⟩
    · exact ⟨rfl, rfl⟩
    · exact ⟨rfl, rfl⟩

theorem advanceFrom_sweepers (s : SweepState) (i j : Nat) (w : Sweep) (outcome : Outcome) :
    (s.advanceFrom i w outcome).sweepers j = s.sweepers j ∨
    (s.advanceFrom i w outcome).sweepers j = .idle := by
  change (s.setPhase i .idle).sweepers j = _ ∨ (s.setPhase i .idle).sweepers j = _
  rw [setPhase_sweepers]
  split
  · exact .inr rfl
  · exact .inl rfl

/-- What one event can do to the phase of a sweeper. -/
theorem step_sweepers (productExists : Nat → Bool) (s : SweepState) (e : SweepEvent) (j : Nat) :
    (step productExists s e).sweepers j = s.sweepers j ∨
    (step productExists s e).sweepers j = .idle ∨
    (step productExists s e).sweepers j = .sweeping ⟨s.watermark, s.watermark, [], [], []⟩ ∨
    (s.watermark < BoundaryRepository.windowEnd s.now s.watermark ∧
      (step productExists s e).sweepers j =
        .bounded s.watermark (BoundaryRepository.windowEnd s.now s.watermark)) ∨
    (∃ since windowEnd, s.sweepers j = .bounded since windowEnd ∧
      (step productExists s e).sweepers j = .sweeping
        ⟨since, windowEnd, s.promotions.table.rows,
          BoundaryRepository.crossed since windowEnd s.promotions.table.rows,
          BoundaryRepository.crossed since windowEnd s.promotions.table.rows⟩) ∨
    (∃ w promotionId rest, e = .publish j .done ∧ s.sweepers j = .sweeping w ∧
      w.toPublish = promotionId :: rest ∧
      (step productExists s e).sweepers j = .sweeping { w with toPublish := rest }) := by
  cases e with
  | kill i =>
    rw [step, setPhase_sweepers]
    split
    · exact .inr (.inl rfl)
    · exact .inl rfl
  | bounds i =>
    rw [step]
    split
    · rcases s.readBounds_sweepers i j with h | h | h
      · exact .inl h
      · exact .inr (.inr (.inl h))
      · exact .inr (.inr (.inr (.inl h)))
    · exact .inl rfl
  | read i =>
    rw [step]
    split
    · rename_i since windowEnd hi
      rw [readRows, setPhase_sweepers]
      split
      · rename_i hj
        subst hj
        exact .inr (.inr (.inr (.inr (.inl ⟨since, windowEnd, hi, rfl⟩))))
      · exact .inl rfl
    · exact .inl rfl
  | publish i outcome =>
    rw [step]
    split
    · rename_i w hi
      rcases s.publishNext_sweepers i j w outcome with h | h | ⟨p, rest, ho, hj, hp, h⟩
      · exact .inl h
      · exact .inr (.inl h)
      · subst ho hj
        exact .inr (.inr (.inr (.inr (.inr ⟨w, p, rest, rfl, hi, hp, h⟩))))
    · exact .inl rfl
  | advance i outcome =>
    rw [step]
    split
    · split
      · rcases s.advanceFrom_sweepers i j _ outcome with h | h
        · exact .inl h
        · exact .inr (.inl h)
      · exact .inl rfl
    · exact .inl rfl
  | _ => exact .inl rfl

/-- What a confirmed publish leaves behind. -/
theorem publish_done (productExists : Nat → Bool) {w : Sweep} (hi : s.sweepers i = .sweeping w)
    (hp : w.toPublish = promotionId :: rest) :
    step productExists s (.publish i .done) =
      (s.addJob (SweepBoundariesCommand.jobId promotionId w.since) promotionId).setPhase i
        (.sweeping { w with toPublish := rest }) := by
  simp only [step, hi, publishNext, hp, Outcome.lands, if_true]

theorem advancing_eq_some {e : SweepEvent} (h : s.advancing e = some w) :
    ∃ i outcome, e = .advance i outcome ∧ s.sweepers i = .sweeping w ∧ w.toPublish = [] ∧
      outcome.lands ∧ s.watermark = w.since := by
  cases e with
  | advance i outcome =>
    rw [advancing] at h
    split at h
    · rename_i sweep hi
      split at h
      · rename_i hc
        cases h
        exact ⟨i, outcome, rfl, hi, hc⟩
      · cases h
    · cases h
  | _ => cases h

/-- Only a successful advance moves the watermark. -/
theorem step_watermark (productExists : Nat → Bool) (s : SweepState) (e : SweepEvent) :
    (s.advancing e = none ∧ (step productExists s e).watermark = s.watermark ∧
      (step productExists s e).advanced = s.advanced) ∨
    (∃ w, s.advancing e = some w ∧ (step productExists s e).watermark = w.windowEnd ∧
      (step productExists s e).advanced = s.advanced ++ [w]) := by
  cases e with
  | bounds i =>
    left
    refine ⟨rfl, ?_⟩
    rw [step]
    split
    · rw [readBounds]
      split
      · exact ⟨rfl, rfl⟩
      · exact ⟨rfl, rfl⟩
    · exact ⟨rfl, rfl⟩
  | read i =>
    left
    refine ⟨rfl, ?_⟩
    rw [step]
    split
    · exact ⟨rfl, rfl⟩
    · exact ⟨rfl, rfl⟩
  | publish i outcome =>
    left
    refine ⟨rfl, ?_⟩
    rw [step]
    split
    · exact s.publishNext_watermark i _ outcome
    · exact ⟨rfl, rfl⟩
  | advance i outcome =>
    rw [step, advancing]
    split
    · rename_i w hi
      by_cases hp : w.toPublish = []
      · by_cases hc : outcome.lands ∧ s.watermark = w.since
        · right
          rw [if_pos ⟨hp, hc⟩, if_pos hp]
          exact ⟨w, rfl, if_pos hc, if_pos hc⟩
        · left
          rw [if_neg (fun h => hc h.2), if_pos hp]
          exact ⟨rfl, if_neg hc, if_neg hc⟩
      · left
        rw [if_neg (fun h => hp h.1), if_neg hp]
        exact ⟨rfl, rfl, rfl⟩
    · exact .inl ⟨rfl, rfl, rfl⟩
  | _ => exact .inl ⟨rfl, rfl, rfl⟩

/-- What the events leave alone that are neither a write of promotions nor a move of the clock. -/
structure Frame (s s' : SweepState) : Prop where
  now : s'.now = s.now
  promotions : s'.promotions = s.promotions
  activeSince : s'.activeSince = s.activeSince

theorem Frame.refl (s : SweepState) : Frame s s := ⟨rfl, rfl, rfl⟩

theorem readBounds_frame (s : SweepState) (i : Nat) : Frame s (s.readBounds i) := by
  rw [readBounds]
  split
  · exact ⟨rfl, rfl, rfl⟩
  · exact ⟨rfl, rfl, rfl⟩

theorem publishNext_frame (s : SweepState) (i : Nat) (w : Sweep) (outcome : Outcome) :
    Frame s (s.publishNext i w outcome) := by
  rw [publishNext]
  split
  · exact .refl s
  · rcases outcome with _ | _ | _
    · exact ⟨rfl, rfl, rfl⟩
    · exact ⟨rfl, rfl, rfl⟩
    · exact ⟨rfl, rfl, rfl⟩

theorem step_frame (productExists : Nat → Bool) (s : SweepState) (e : SweepEvent) :
    Frame s (step productExists s e) ∨ (∃ now, e = .clock now) ∨
      (∃ input stamp, e = .insert input stamp) ∨
      (∃ promotionId target stamp, e = .assign promotionId target stamp) ∨
      ∃ promotionId stamp, e = .cancel promotionId stamp := by
  cases e with
  | clock now => exact .inr (.inl ⟨now, rfl⟩)
  | insert input stamp => exact .inr (.inr (.inl ⟨input, stamp, rfl⟩))
  | assign promotionId target stamp =>
    exact .inr (.inr (.inr (.inl ⟨promotionId, target, stamp, rfl⟩)))
  | cancel promotionId stamp => exact .inr (.inr (.inr (.inr ⟨promotionId, stamp, rfl⟩)))
  | bounds i =>
    left
    rw [step]
    split
    · exact s.readBounds_frame i
    · exact .refl s
  | read i =>
    left
    rw [step]
    split
    · exact ⟨rfl, rfl, rfl⟩
    · exact .refl s
  | publish i outcome =>
    left
    rw [step]
    split
    · exact s.publishNext_frame i _ outcome
    · exact .refl s
  | advance i outcome =>
    left
    rw [step]
    split
    · split
      · exact ⟨rfl, rfl, rfl⟩
      · exact .refl s
    · exact .refl s
  | _ => exact .inl ⟨rfl, rfl, rfl⟩

theorem step_now (productExists : Nat → Bool) {e : SweepEvent} (h : Forward s e) :
    s.now ≤ (step productExists s e).now := by
  rcases step_frame productExists s e with hf | ⟨now, rfl⟩ | ⟨input, stamp, rfl⟩ |
    ⟨promotionId, target, stamp, rfl⟩ | ⟨promotionId, stamp, rfl⟩
  · exact hf.now.ge
  · exact h
  · exact le_refl s.now
  · exact le_refl s.now
  · exact le_refl s.now

end SweepState

/-- What holds of a sweep between its reads and its advance. -/
structure Sweep.Sound (w : Sweep) : Prop where
  ordered : w.since ≤ w.windowEnd
  selects : w.Selects

theorem Sweep.Selects.of_crossed (since upTo : Int) (rows : List PromotionRow)
    (toPublish : List Nat) :
    Selects ⟨since, upTo, rows, BoundaryRepository.crossed since upTo rows, toPublish⟩ := by
  intro p hp hd b hb hl hr
  exact BoundaryRepository.mem_crossed.2 ⟨p, hp, PromotionRow.crosses_of hd hb hl hr, rfl⟩

/-- The windows swept so far tile the time from the first watermark, whatever the clock does. -/
structure Swept (watermark₀ : Int) (s : SweepState) : Prop where
  tiles : Tiles watermark₀ (s.windows.map fun w => (w.since, w.windowEnd)) s.watermark
  bounded : ∀ i since upTo, s.sweepers i = .bounded since upTo → since < upTo
  sound : ∀ i w, s.sweepers i = .sweeping w → w.Sound
  selected : ∀ w ∈ s.advanced, w.Selects

namespace Swept

variable {s : SweepState} {productExists : Nat → Bool} {watermark₀ : Int}

theorem initial (now watermark : Int) (queue : JobQueue Text) :
    Swept watermark (.initial now watermark queue) := by
  refine ⟨rfl, ?_, ?_, ?_⟩
  · intro i since upTo h
    cases h
  · intro i w h
    cases h
  · intro w h
    cases h

theorem step_bounded (h : Swept watermark₀ s) (e : SweepEvent) (i : Nat) (since upTo : Int)
    (hi : (SweepState.step productExists s e).sweepers i = .bounded since upTo) :
    since < upTo := by
  rcases SweepState.step_sweepers productExists s e i with
    hs | hs | hs | ⟨hlt, hs⟩ | ⟨a, b, _, hs⟩ | ⟨w, p, rest, _, _, _, hs⟩
  · exact h.bounded i since upTo (hs.symm.trans hi)
  · rw [hs] at hi
    cases hi
  · rw [hs] at hi
    cases hi
  · rw [hs] at hi
    cases hi
    exact hlt
  · rw [hs] at hi
    cases hi
  · rw [hs] at hi
    cases hi

theorem step_sound (h : Swept watermark₀ s) (e : SweepEvent) (i : Nat) (w : Sweep)
    (hi : (SweepState.step productExists s e).sweepers i = .sweeping w) : w.Sound := by
  rcases SweepState.step_sweepers productExists s e i with hs | hs | hs | ⟨_, hs⟩ | ⟨a, b, hb, hs⟩ |
    ⟨v, p, rest, he, hv, hp, hs⟩
  · exact h.sound i w (hs.symm.trans hi)
  · rw [hs] at hi
    cases hi
  · rw [hs] at hi
    cases hi
    refine ⟨le_refl s.watermark, ?_⟩
    intro q hq
    cases hq
  · rw [hs] at hi
    cases hi
  · rw [hs] at hi
    cases hi
    exact ⟨(h.bounded i a b hb).le, .of_crossed a b _ _⟩
  · rw [hs] at hi
    cases hi
    exact ⟨(h.sound i v hv).ordered, (h.sound i v hv).selects⟩

/-- An advance over a window that is not empty lays one more tile. -/
theorem step_tiles (h : Swept watermark₀ s) (e : SweepEvent) :
    Tiles watermark₀ ((SweepState.step productExists s e).windows.map fun w =>
      (w.since, w.windowEnd)) (SweepState.step productExists s e).watermark := by
  rcases SweepState.step_watermark productExists s e with
    ⟨_, hw, ha⟩ | ⟨w, hadv, hw, ha⟩
  · rw [SweepState.windows, hw, ha]
    exact h.tiles
  · obtain ⟨i, _, _, hi, _, _, hsince⟩ := SweepState.advancing_eq_some hadv
    have hle := (h.sound i w hi).ordered
    rw [SweepState.windows, hw, ha, List.filter_append]
    by_cases he : w.since = w.windowEnd
    · rw [List.filter_cons_of_neg (by simpa using he), List.filter_nil, List.append_nil, ← he,
        ← hsince]
      exact h.tiles
    · rw [List.filter_cons_of_pos (by simpa using he), List.filter_nil, List.map_append]
      have ht := h.tiles
      rw [hsince] at ht
      exact ht.snoc (lt_of_le_of_ne hle he)

theorem step (h : Swept watermark₀ s) (e : SweepEvent) :
    Swept watermark₀ (SweepState.step productExists s e) := by
  refine ⟨h.step_tiles e, h.step_bounded e, h.step_sound e, ?_⟩
  rcases SweepState.step_watermark productExists s e with
    ⟨_, _, ha⟩ | ⟨w, hadv, _, ha⟩
  · rw [ha]
    exact h.selected
  · obtain ⟨i, _, _, hi, _⟩ := SweepState.advancing_eq_some hadv
    rw [ha]
    intro v hv
    rcases List.mem_append.1 hv with hv | hv
    · exact h.selected v hv
    · rw [List.mem_singleton.1 hv]
      exact (h.sound i w hi).selects

end Swept

/-- While the clock does not step back, the sweeps look no closer to the present than the lag. -/
structure Lagging (s : SweepState) : Prop where
  bounded : ∀ i since upTo, s.sweepers i = .bounded since upTo →
    micros upTo ≤ s.now - commitLagSeconds * 1000000
  sweeping : ∀ i w, s.sweepers i = .sweeping w → w.since = w.windowEnd ∨
    micros w.windowEnd ≤ s.now - commitLagSeconds * 1000000

namespace Lagging

variable {s : SweepState} {productExists : Nat → Bool}

theorem initial (now watermark : Int) (queue : JobQueue Text) :
    Lagging (.initial now watermark queue) := by
  refine ⟨?_, ?_⟩
  · intro i since upTo h
    cases h
  · intro i w h
    cases h

theorem step (h : Lagging s) {e : SweepEvent} (hp : Forward s e) :
    Lagging (SweepState.step productExists s e) := by
  have hnow := SweepState.step_now productExists hp
  have hlater {b : Int} (hb : micros b ≤ s.now - commitLagSeconds * 1000000) :
      micros b ≤ (SweepState.step productExists s e).now - commitLagSeconds * 1000000 := by
    omega
  refine ⟨?_, ?_⟩
  · intro i since upTo hi
    rcases SweepState.step_sweepers productExists s e i with hs | hs | hs | ⟨_, hs⟩ |
      ⟨a, b, _, hs⟩ | ⟨w, p, rest, _, _, _, hs⟩
    · exact hlater (h.bounded i since upTo (hs.symm.trans hi))
    · rw [hs] at hi
      cases hi
    · rw [hs] at hi
      cases hi
    · rw [hs] at hi
      cases hi
      exact hlater (BoundaryRepository.micros_windowEnd_le s.now s.watermark)
    · rw [hs] at hi
      cases hi
    · rw [hs] at hi
      cases hi
  · intro i w hi
    rcases SweepState.step_sweepers productExists s e i with hs | hs | hs | ⟨_, hs⟩ |
      ⟨a, b, hb, hs⟩ | ⟨v, p, rest, _, hv, _, hs⟩
    · exact (h.sweeping i w (hs.symm.trans hi)).imp_right hlater
    · rw [hs] at hi
      cases hi
    · rw [hs] at hi
      cases hi
      exact .inl rfl
    · rw [hs] at hi
      cases hi
    · rw [hs] at hi
      cases hi
      exact .inr (hlater (h.bounded i a b hb))
    · rw [hs] at hi
      cases hi
      exact (h.sweeping i v hv).imp_right hlater

end Lagging

end PromotionManagement
