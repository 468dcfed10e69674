import PromotionManagement.SweepPromptness

namespace PromotionManagement
open Library
set_option autoImplicit true

/-- An instant of the promotion lies in the window. -/
def Sweep.Covers (w : Sweep) (p : PromotionRow) (b : Int) : Prop :=
  b ∈ p.instants ∧ micros w.since < b ∧ b ≤ micros w.windowEnd

/-- The job the queue holds under an id: the last one it took. -/
def SweepState.heldJob (s : SweepState) (id : Text) : Option AddedJob :=
  s.added.find? fun job => job.id = id

/-- When an advance succeeds, each promotion with an instant in the window has a job that was
really added at that instant or later. -/
def Reannounced (s : SweepState) (e : SweepEvent) : Prop :=
  ∀ w, s.advancing e = some w → ∀ p ∈ s.promotions.table.rows, ∀ b, w.Covers p b →
    ∃ job ∈ s.added, job.promotionId = p.id ∧ b ≤ job.addedAt

/-- A publish that meets a held id meets a job added after the instants it announces. -/
def HeldIsFresh (s : SweepState) : SweepEvent → Prop
  | .publish i _ => ∀ w promotionId rest, s.sweepers i = .sweeping w →
    w.toPublish = promotionId :: rest →
    s.queue.Holds (SweepBoundariesCommand.jobId promotionId w.since) →
    ∃ job, s.heldJob (SweepBoundariesCommand.jobId promotionId w.since) = some job ∧
      job.promotionId = promotionId ∧
      ∀ p ∈ w.snapshot, p.id = promotionId → ∀ b, w.Covers p b → b ≤ job.addedAt
  | _ => True

/-- At an advance, each promotion with an instant in the window had it, and was not a draft, when
the sweep read. -/
def ReadBySweep (s : SweepState) (e : SweepEvent) : Prop :=
  ∀ w, s.advancing e = some w → ∀ p ∈ s.promotions.table.rows, ∀ b, w.Covers p b →
    ∃ q ∈ w.snapshot, q.id = p.id ∧ q.status ≠ .draft ∧ w.Covers q b

def BoundaryKept (s : SweepState) (e : SweepEvent) : Prop :=
  Forward s e ∧ HeldIsFresh s e ∧ ReadBySweep s e

/-- What a sweep has published so far was added late enough. -/
def Announcing (s : SweepState) : Prop :=
  ∀ i w, s.sweepers i = .sweeping w → ∀ id ∈ w.promotionIds, id ∈ w.toPublish ∨
    ∀ p ∈ w.snapshot, p.id = id → ∀ b, w.Covers p b →
      ∃ job ∈ s.added, job.promotionId = id ∧ b ≤ job.addedAt

namespace SweepState

variable {s : SweepState}

theorem addJob_added (s : SweepState) (id : Text) (promotionId : Nat) :
    ∀ job ∈ s.added, job ∈ (s.addJob id promotionId).added := by
  intro job hjob
  rw [addJob]
  dsimp only
  split
  · exact hjob
  · exact List.mem_cons_of_mem _ hjob

/-- What was added stays added. -/
theorem step_added (productExists : Nat → Bool) (s : SweepState) (e : SweepEvent) :
    ∀ job ∈ s.added, job ∈ (step productExists s e).added := by
  intro job hjob
  cases e with
  | enqueue id promotionId => exact s.addJob_added id promotionId job hjob
  | bounds i =>
    rw [step]
    split
    · rw [readBounds]
      split
      · exact hjob
      · exact hjob
    · exact hjob
  | read i =>
    rw [step]
    split
    · exact hjob
    · exact hjob
  | publish i outcome =>
    rw [step]
    split
    · rw [publishNext]
      split
      · exact hjob
      · rcases outcome with _ | _ | _
        · exact s.addJob_added _ _ job hjob
        · exact hjob
        · exact s.addJob_added _ _ job hjob
    · exact hjob
  | advance i outcome =>
    rw [step]
    split
    · split
      · exact hjob
      · exact hjob
    · exact hjob
  | _ => exact hjob

end SweepState

namespace Announcing

variable {s : SweepState} {productExists : Nat → Bool}

theorem initial (now watermark : Int) (queue : JobQueue Text) :
    Announcing (.initial now watermark queue) := by
  intro i w h
  cases h

/-- A publish adds a job now, after the whole window, or finds one that is late enough. -/
theorem publish (hlag : Lagging s) (hheld : HeldIsFresh s (.publish i .done))
    (hi : s.sweepers i = .sweeping w) (hp : w.toPublish = promotionId :: rest) :
    ∀ p ∈ w.snapshot, p.id = promotionId → ∀ b, w.Covers p b →
      ∃ job ∈ (SweepState.step productExists s (.publish i .done)).added,
        job.promotionId = promotionId ∧ b ≤ job.addedAt := by
  intro p hps hpi b hb
  by_cases hq : s.queue.Holds (SweepBoundariesCommand.jobId promotionId w.since)
  · obtain ⟨job, hjob, hjp, hfresh⟩ := hheld w promotionId rest hi hp hq
    have hmem := SweepState.step_added productExists s (.publish i .done) job
      (List.mem_of_find?_eq_some hjob)
    exact ⟨job, hmem, hjp, hfresh p hps hpi b hb⟩
  · have hadded : (SweepState.step productExists s (.publish i .done)).added =
        ⟨SweepBoundariesCommand.jobId promotionId w.since, promotionId, s.now⟩ :: s.added := by
      rw [SweepState.publish_done productExists hi hp]
      exact if_neg hq
    rw [hadded]
    refine ⟨_, List.mem_cons_self, rfl, ?_⟩
    obtain ⟨_, hl, hr⟩ := hb
    rcases hlag.sweeping i w hi with he | hle
    · rw [he] at hl
      exact absurd hr hl.not_ge
    · simp only [commitLagSeconds] at hle
      dsimp only
      omega

theorem step (h : Announcing s) (hlag : Lagging s) {e : SweepEvent} (hheld : HeldIsFresh s e) :
    Announcing (SweepState.step productExists s e) := by
  intro i w hi
  rcases SweepState.step_sweepers productExists s e i with hs | hs | hs | ⟨_, hs⟩ |
    ⟨a, b, _, hs⟩ | ⟨v, promotionId, rest, rfl, hv, hp, hs⟩
  · intro id hid
    refine (h i w (hs.symm.trans hi) id hid).imp_right ?_
    intro hdone p hps hpi b hb
    obtain ⟨job, hjob, hj⟩ := hdone p hps hpi b hb
    exact ⟨job, SweepState.step_added productExists s e job hjob, hj⟩
  · rw [hs] at hi
    cases hi
  · rw [hs] at hi
    cases hi
    intro id hid
    cases hid
  · rw [hs] at hi
    cases hi
  · rw [hs] at hi
    cases hi
    intro id hid
    exact .inl hid
  · rw [hs] at hi
    cases hi
    intro id hid
    rcases h i v hv id hid with hto | hdone
    · rw [hp] at hto
      rcases List.mem_cons.1 hto with rfl | hto
      · right
        intro p hps hpi b hb
        exact publish hlag hheld hv hp p hps hpi b hb
      · exact .inl hto
    · right
      intro p hps hpi b hb
      obtain ⟨job, hjob, hj⟩ := hdone p hps hpi b hb
      exact ⟨job, SweepState.step_added productExists s _ job hjob, hj⟩

end Announcing

/-- A run whose publishes never meet a held job that is too old, and whose sweeps read every
promotion they pass, really announces each boundary it passes. -/
theorem reannounced_of_kept (productExists : Nat → Bool) (now watermark : Int)
    (queue : JobQueue Text) (es : List SweepEvent)
    (hkept : Along (SweepState.step productExists) BoundaryKept (.initial now watermark queue) es) :
    Along (SweepState.step productExists) Reannounced (.initial now watermark queue) es := by
  apply Along.of_invariant (I := fun s => Swept watermark s ∧ Lagging s ∧ Announcing s) _ _
    ⟨.initial now watermark queue, .initial now watermark queue, .initial now watermark queue⟩
    hkept
  · intro s e ⟨hs, hlag, ha⟩ ⟨hf, hheld, _⟩
    exact ⟨hs.step e, hlag.step hf, ha.step hlag hheld⟩
  · intro s e ⟨hs, _, ha⟩ ⟨_, _, hread⟩ w hw p hp b hb
    obtain ⟨i, _, _, hi, hto, _, _⟩ := SweepState.advancing_eq_some hw
    obtain ⟨q, hq, hqi, hqd, hqb⟩ := hread w hw p hp b hb
    have hid : q.id ∈ w.promotionIds :=
      (hs.sound i w hi).selects q hq hqd b hqb.1 hqb.2.1 hqb.2.2
    rcases ha i w hi q.id hid with hn | hdone
    · rw [hto] at hn
      cases hn
    · rw [← hqi]
      exact hdone q hq rfl b hqb

/-- The sale opens and a sweep announces it, but its advance fails. The sale closes, and the next
sweep starts from the same watermark. -/
def closedSale : List SweepEvent :=
  [.insert flashSale 0, .clock 140000000, .bounds 0, .read 0, .publish 0 .done,
    .advance 0 (.failed false), .clock 240000000, .bounds 1, .read 1, .publish 1 .done]

def closedSaleSweep : Sweep :=
  ⟨0, 210000, [Promotions.empty.inserted flashSale 0], [1], []⟩

/-- The close is announced under the id of the opening, which the queue still holds. -/
theorem close_not_reannounced :
    ¬ Along (SweepState.step fun _ => true) Reannounced (.initial 0 0 .empty)
      (closedSale ++ [.advance 1 .done]) := by
  intro h
  have hlaw := (along_iff _ _).1 h closedSale (.advance 1 .done) [] rfl
  have hw : (run (SweepState.step fun _ => true) (.initial 0 0 .empty) closedSale).advancing
      (.advance 1 .done) = some closedSaleSweep := by decide +kernel
  have hadded : (run (SweepState.step fun _ => true) (.initial 0 0 .empty) closedSale).added =
      [⟨SweepBoundariesCommand.jobId 1 0, 1, 140000000⟩] := by decide +kernel
  obtain ⟨job, hjob, _, hb⟩ := hlaw closedSaleSweep hw (Promotions.empty.inserted flashSale 0)
    (by decide +kernel) 200000000 ⟨by decide, by decide, by decide⟩
  rw [hadded, List.mem_singleton] at hjob
  subst hjob
  exact absurd hb (by decide)

theorem reannounced_of_kept_promptSweep :
    Along (SweepState.step fun _ => true) Reannounced (.initial 0 0 .empty) promptSweep := by
  apply reannounced_of_kept (fun _ => true) 0 0 .empty promptSweep
  have hnone {s : SweepState} {e : SweepEvent} (h : s.advancing e = none) : ReadBySweep s e := by
    intro w hw
    rw [h] at hw
    cases hw
  refine ⟨⟨?_, trivial, hnone rfl⟩, ⟨trivial, trivial, hnone rfl⟩, ⟨?_, trivial, hnone rfl⟩,
    ⟨trivial, trivial, hnone rfl⟩, ⟨trivial, trivial, hnone rfl⟩, ⟨trivial, ?_, hnone rfl⟩,
    ⟨trivial, trivial, ?_⟩, trivial⟩
  · change (0 : Int) ≤ 10000000
    decide
  · change (10000000 : Int) ≤ 140000000
    decide
  · intro w promotionId rest _ _ hq
    rcases hq with hq | hq | hq
    · cases hq
    · cases hq
    · cases hq
  · intro w hw p hp b hb
    have hsweep : w = ⟨0, 110000, [Promotions.empty.inserted flashSale 9000000], [1], []⟩ := by
      rw [← Option.some_inj, ← hw]
      decide +kernel
    subst hsweep
    exact ⟨p, hp, rfl, by
      rw [List.mem_singleton.1 hp]
      decide, hb⟩

end PromotionManagement
