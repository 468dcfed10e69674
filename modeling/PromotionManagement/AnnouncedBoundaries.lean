import PromotionManagement.AnnouncedStorefront
import Mathlib.Data.List.Perm.Basic

namespace PromotionManagement
open Library PromotionScheduler
set_option autoImplicit true

def PromotionRow.instant (p : PromotionRow) : PromotionBoundary → Int
  | .activate => p.startsAt
  | .expire => p.endsAt

/-- The operation announces the promotion now, or carries a boundary of it that has passed. -/
def PromotionRow.AnnouncedBy (p : PromotionRow) (now : Int) (op : QueueOperation) : Prop :=
  op = .publish p.id none ∨ ∃ boundary options, p.instant boundary ≤ now ∧
    op = .publish p.id (some options) ∧ options.jobId = jobId p.id boundary

theorem PromotionRow.AnnouncedBy.mono {p : PromotionRow} {now now' : Int}
    (h : p.AnnouncedBy now op) (hnow : now ≤ now') : p.AnnouncedBy now' op := by
  rcases h with h | ⟨boundary, options, hpassed, h⟩
  · exact .inl h
  · exact .inr ⟨boundary, options, hpassed.trans hnow, h⟩

theorem PromotionBoundary.not_mem_name (boundary : PromotionBoundary) : ':' ∉ boundary.name := by
  cases boundary with
  | activate => decide
  | expire => decide

theorem jobId_injective {m n : Nat} {boundary boundary' : PromotionBoundary}
    (h : jobId m boundary = jobId n boundary') : m = n ∧ boundary = boundary' := by
  rw [jobId, jobId, List.append_assoc, List.append_assoc] at h
  have h := List.append_cancel_left h
  obtain ⟨hdigits, _, hname⟩ := (List.append_cons_inj_of_notMem
    (not_mem_toDigits rfl m) boundary.not_mem_name).1 h
  refine ⟨toDigits_injective hdigits, ?_⟩
  cases boundary with
  | activate =>
    cases boundary' with
    | activate => rfl
    | expire => exact absurd hname (by decide)
  | expire =>
    cases boundary' with
    | activate => exact absurd hname (by decide)
    | expire => rfl

theorem mem_eraseIdx_or {l : List α} {i : Nat} (hi : l[i]? = some b) (h : a ∈ l) :
    a = b ∨ a ∈ l.eraseIdx i := by
  obtain ⟨hlt, rfl⟩ := List.getElem?_eq_some_iff.1 hi
  exact List.mem_cons.1 ((List.getElem_cons_eraseIdx_perm hlt).mem_iff.2 h)

namespace AnnouncedState

/-- The promotions, as they are in the database. -/
def rows (s : AnnouncedState) : List PromotionRow := s.front.promotions.table.rows

/-- The ids of the delayed jobs that are asked for, and of those that the queue knows. -/
def ids (s : AnnouncedState) : List Text := s.asked.filterMap Asked.jobId ++ s.held

/-- The job of a boundary is asked for, or is in the queue, and is due no earlier than it. -/
def Carries (skew : Int) (s : AnnouncedState) (p : PromotionRow) (boundary : PromotionBoundary) :
    Prop :=
  (∃ a ∈ s.asked, ∃ options, a.operation = .publish p.id (some options) ∧
    options.jobId = jobId p.id boundary ∧
    p.instant boundary ≤ (a.since - skew + options.delay) * 1000) ∨
  ∃ job ∈ s.delayed, job.promotionId = p.id ∧ job.jobId = jobId p.id boundary ∧
    p.instant boundary ≤ (job.dueAt - skew) * 1000

/-- The call for the job of a boundary was lost. -/
def Missed (s : AnnouncedState) (p : PromotionRow) (boundary : PromotionBoundary) : Prop :=
  ∃ a ∈ s.lost, ∃ options, a.operation = .publish p.id (some options) ∧
    options.jobId = jobId p.id boundary

/-- An announcement of the promotion that is due is on its way, or was lost. -/
def Awaits (s : AnnouncedState) (p : PromotionRow) : Prop :=
  (∃ a ∈ s.asked, p.AnnouncedBy s.front.now a.operation) ∨
  (∃ job ∈ s.delayed, job.promotionId = p.id ∧ ∃ boundary, job.jobId = jobId p.id boundary ∧
    p.instant boundary ≤ s.front.now) ∨
  ∃ a ∈ s.lost, p.AnnouncedBy s.front.now a.operation

/-- A boundary that has been carried is awaited once it has passed. -/
theorem awaits_of_carried {s : AnnouncedState} (h : s.Carries skew p boundary ∨ s.Missed p boundary)
    (hpassed : p.instant boundary ≤ s.front.now) : s.Awaits p := by
  rcases h with (⟨a, ha, options, hop, hid, _⟩ | ⟨job, hjob, hp, hid, _⟩) |
    ⟨a, ha, options, hop, hid⟩
  · exact .inl ⟨a, ha, .inr ⟨boundary, options, hpassed, hop, hid⟩⟩
  · exact .inr (.inl ⟨job, hjob, hp, boundary, hid, hpassed⟩)
  · exact .inr (.inr ⟨a, ha, .inr ⟨boundary, options, hpassed, hop, hid⟩⟩)

variable {s s' : AnnouncedState} {skew : Int} {p : PromotionRow}

theorem Carries.mono (h : s.Carries skew p boundary) (hasked : s.asked ⊆ s'.asked)
    (hdelayed : s.delayed ⊆ s'.delayed) : s'.Carries skew p boundary := by
  rcases h with ⟨a, ha, h⟩ | ⟨job, hjob, h⟩
  · exact .inl ⟨a, hasked ha, h⟩
  · exact .inr ⟨job, hdelayed hjob, h⟩

theorem Awaits.mono (h : s.Awaits p) (hnow : s.front.now ≤ s'.front.now)
    (hasked : s.asked ⊆ s'.asked) (hdelayed : s.delayed ⊆ s'.delayed) (hlost : s.lost ⊆ s'.lost) :
    s'.Awaits p := by
  rcases h with ⟨a, ha, h⟩ | ⟨job, hjob, hid, boundary, hjid, hpassed⟩ | ⟨a, ha, h⟩
  · exact .inl ⟨a, hasked ha, h.mono hnow⟩
  · exact .inr (.inl ⟨job, hdelayed hjob, hid, boundary, hjid, hpassed.trans hnow⟩)
  · exact .inr (.inr ⟨a, hlost ha, h.mono hnow⟩)

end AnnouncedState

/-- What the requests and the queue hold is of promotions that are no drafts: the job of each
boundary at most once, and removals only once the promotion is cancelled and stale no more. -/
structure Orderly (s : AnnouncedState) : Prop where
  plain : ∀ p ∈ s.rows, ∀ boundary, PlainDate (p.instant boundary)
  distinct : s.ids.Nodup
  scheduled : ∀ id ∈ s.ids, ∃ p ∈ s.rows, p.status ≠ .draft ∧
    ∃ boundary, id = jobId p.id boundary
  cancels : ∀ a ∈ s.asked, a.cancels = true → ∀ promotionId,
    a.operation = .publish promotionId none →
    ∃ p ∈ s.rows, p.id = promotionId ∧ p.status = .cancelled
  removals : ∀ a ∈ s.asked, ∀ id, a.operation = .remove id →
    ∃ p ∈ s.rows, p.status = .cancelled ∧ p.id ∉ s.stale ∧ ∃ boundary, id = jobId p.id boundary

/-- No promotion goes back to draft, or is restored. -/
def Onward (before after : List PromotionRow) : Prop :=
  ∀ p ∈ before, p.status ≠ .draft → ∃ q ∈ after, q.id = p.id ∧ q.status ≠ .draft ∧
    (p.status = .cancelled → q.status = .cancelled)

theorem Onward.refl (rows : List PromotionRow) : Onward rows rows :=
  fun p hp hd => ⟨p, hp, rfl, hd, id⟩

theorem ne_draft_of_cancelled {p : PromotionRow} (h : p.status = .cancelled) :
    p.status ≠ .draft := by
  rw [h]
  decide

namespace Orderly

variable {s s' : AnnouncedState}

theorem initial (now : Int) : Orderly (.initial now) where
  plain _ hp := absurd hp List.not_mem_nil
  distinct := List.nodup_nil
  scheduled _ hid := absurd hid List.not_mem_nil
  cancels _ ha := absurd ha List.not_mem_nil
  removals _ ha := absurd ha List.not_mem_nil

/-- Nothing new is asked, and no cancelled promotion becomes stale. -/
theorem move (h : Orderly s) (hrows : Onward s.rows s'.rows)
    (hplain : ∀ p ∈ s'.rows, ∀ boundary, PlainDate (p.instant boundary))
    (hasked : s'.asked ⊆ s.asked)
    (hids : s'.ids.Sublist s.ids)
    (hstale : ∀ p ∈ s.rows, p.status = .cancelled → p.id ∈ s'.stale → p.id ∈ s.stale) :
    Orderly s' where
  plain := hplain
  distinct := h.distinct.sublist hids
  scheduled id hid := by
    obtain ⟨p, hp, hd, hjob⟩ := h.scheduled id (hids.subset hid)
    obtain ⟨q, hq, hqi, hqd, _⟩ := hrows p hp hd
    rw [← hqi] at hjob
    exact ⟨q, hq, hqd, hjob⟩
  cancels a ha hcancels promotionId hop := by
    obtain ⟨p, hp, rfl, hcancelled⟩ := h.cancels a (hasked ha) hcancels promotionId hop
    obtain ⟨q, hq, hqi, _, hqc⟩ := hrows p hp (ne_draft_of_cancelled hcancelled)
    exact ⟨q, hq, hqi, hqc hcancelled⟩
  removals a ha id hop := by
    obtain ⟨p, hp, hcancelled, hfresh, hjob⟩ := h.removals a (hasked ha) id hop
    obtain ⟨q, hq, hqi, _, hqc⟩ := hrows p hp (ne_draft_of_cancelled hcancelled)
    rw [← hqi] at hjob
    refine ⟨q, hq, hqc hcancelled, ?_, hjob⟩
    rw [hqi]
    exact fun hmem => hfresh (hstale p hp hcancelled hmem)

/-- More is asked: the jobs of boundaries that none was asked for, or calls for a promotion that is
cancelled. -/
theorem ask (h : Orderly s) (new : List Asked) (hdistinct : (new.filterMap Asked.jobId).Nodup)
    (hscheduled : ∀ id ∈ new.filterMap Asked.jobId, id ∉ s.ids ∧
      ∃ p ∈ s.rows, p.status ≠ .draft ∧ ∃ boundary, id = jobId p.id boundary)
    (hcancels : ∀ a ∈ new, a.cancels = true → ∀ promotionId,
      a.operation = .publish promotionId none →
      ∃ p ∈ s.rows, p.id = promotionId ∧ p.status = .cancelled)
    (hremovals : ∀ a ∈ new, ∀ id, a.operation = .remove id →
      ∃ p ∈ s.rows, p.status = .cancelled ∧ p.id ∉ s.stale ∧
        ∃ boundary, id = jobId p.id boundary) :
    Orderly { s with asked := s.asked ++ new } := by
  have hids : ({ s with asked := s.asked ++ new } : AnnouncedState).ids.Perm
      (new.filterMap Asked.jobId ++ s.ids) := by
    rw [AnnouncedState.ids, AnnouncedState.ids, List.filterMap_append, ← List.append_assoc]
    exact List.perm_append_comm.append_right s.held
  constructor
  · exact h.plain
  · rw [hids.nodup_iff, List.nodup_append]
    refine ⟨hdistinct, h.distinct, ?_⟩
    rintro id hid _ hold rfl
    exact (hscheduled id hid).1 hold
  · intro id hid
    rcases List.mem_append.1 (hids.subset hid) with hid | hid
    · exact (hscheduled id hid).2
    · exact h.scheduled id hid
  · intro a ha
    exact (List.mem_append.1 ha).elim (h.cancels a) (hcancels a)
  · intro a ha
    exact (List.mem_append.1 ha).elim (h.removals a) (hremovals a)

/-- One call is no longer asked for. -/
theorem erase (h : Orderly s) (position : Nat) :
    Orderly { s with asked := s.asked.eraseIdx position } := by
  refine h.move (.refl _) h.plain List.eraseIdx_subset ?_ fun _ _ _ hmem => hmem
  exact ((List.eraseIdx_sublist s.asked position).filterMap Asked.jobId).append_right s.held

section
variable {position : Nat} {asked : Asked} {id : Text}

/-- The id of a call for a delayed job is one of those known, once. -/
theorem ids_perm (hget : s.asked[position]? = some asked) (hjob : asked.jobId = some id) :
    s.ids.Perm (id :: ({ s with asked := s.asked.eraseIdx position } : AnnouncedState).ids) := by
  obtain ⟨hlt, rfl⟩ := List.getElem?_eq_some_iff.1 hget
  have hmap := (List.getElem_cons_eraseIdx_perm hlt).symm.filterMap Asked.jobId
  rw [List.filterMap_cons_some hjob] at hmap
  exact hmap.append_right s.held

theorem not_mem_held (h : Orderly s) (hget : s.asked[position]? = some asked)
    (hjob : asked.jobId = some id) : id ∉ s.held := by
  have hdistinct := (ids_perm hget hjob).nodup_iff.1 h.distinct
  exact fun hid => (List.nodup_cons.1 hdistinct).1 (List.mem_append_right _ hid)

/-- The queue takes a job that is asked for. -/
theorem schedule (h : Orderly s) (hget : s.asked[position]? = some asked)
    (hjob : asked.jobId = some id) (job : QueuedJob) :
    Orderly
      { s with
        asked := s.asked.eraseIdx position
        delayed := s.delayed ++ [job]
        held := id :: s.held } := by
  have herase := h.erase position
  have hids := List.perm_middle.trans (ids_perm hget hjob).symm
  refine ⟨herase.plain, ?_, ?_, herase.cancels, herase.removals⟩
  · exact hids.nodup_iff.2 h.distinct
  · exact fun id hid => h.scheduled id (hids.subset hid)

end

end Orderly

end PromotionManagement
