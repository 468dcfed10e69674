import PromotionManagement.SweepWindows

namespace PromotionManagement
open Library
set_option autoImplicit true

/-- The instants of a promotion that the sweeps owe an announcement: its cancellation, and those
from when it became active. -/
def Due (activeSince : Nat → Option Int) (p : PromotionRow) (b : Int) : Prop :=
  b ∈ p.instants ∧ (p.cancelledAt = some b ∨ ∃ a, activeSince p.id = some a ∧ a ≤ b)

/-- A write commits within the lag of the instant it stamps. -/
def Prompt (s : SweepState) : SweepEvent → Prop
  | .insert _ stamp | .assign _ _ stamp | .cancel _ stamp =>
    s.now < stamp + commitLagSeconds * 1000000
  | _ => True

/-- What promptness adds: a write that commits within the lag is always ahead of the sweeps. -/
structure Timely (watermark₀ : Int) (s : SweepState) : Prop where
  watermark : s.watermark = watermark₀ ∨
    micros s.watermark ≤ s.now - commitLagSeconds * 1000000
  known : ∀ id a, s.activeSince id = some a → ∃ p ∈ s.promotions.table.rows,
    p.id = id ∧ p.status ≠ .draft
  cancelled : ∀ p ∈ s.promotions.table.rows, p.cancelledAt ≠ none → p.status ≠ .draft
  seen : ∀ i w, s.sweepers i = .sweeping w → ∀ p ∈ s.promotions.table.rows, ∀ b,
    Due s.activeSince p b → micros w.since < b → b ≤ micros w.windowEnd → p.id ∈ w.promotionIds

theorem mem_instants_cancelled {p : PromotionRow} (h : b ∈ (p.cancelled stamp).instants) :
    b ∈ p.instants ∨ b = stamp := by
  simp only [PromotionRow.instants, PromotionRow.cancelled, Option.toList_some, List.mem_append,
    List.mem_cons, List.not_mem_nil, or_false] at h ⊢
  tauto

namespace Timely

variable {s : SweepState} {productExists : Nat → Bool} {watermark₀ : Int}

theorem activeSince_of_refused (written : Promotions × PromotionWriteOutcome) (stamp : Int)
    (h : ∀ row, written.2 ≠ .ok row) : (s.write written stamp).activeSince = s.activeSince := by
  cases ho : written.2 with
  | ok row => exact absurd ho (h row)
  | refused reason => simp only [SweepState.write, ho]
  | raised => simp only [SweepState.write, ho]

theorem activeSince_of_ok (written : Promotions × PromotionWriteOutcome) (stamp : Int)
    (h : written.2 = .ok row) : (s.write written stamp).activeSince =
      if row.status = .active then Function.update s.activeSince row.id (some stamp)
      else s.activeSince := by
  simp only [SweepState.write, h]

theorem due_insert (h : Timely watermark₀ s) (input : CreatePromotion) (stamp : Int)
    {p : PromotionRow}
    (hm : p ∈ (SweepState.step productExists s (.insert input stamp)).promotions.table.rows)
    (hd : Due (SweepState.step productExists s (.insert input stamp)).activeSince p b) :
    (p ∈ s.promotions.table.rows ∧ Due s.activeSince p b) ∨ stamp ≤ b := by
  rw [SweepState.step] at hm hd
  rcases s.promotions.insert_cases productExists input stamp with ⟨hf, _, hi⟩ | ⟨ht, hn⟩
  · rw [activeSince_of_ok _ _ (congrArg Prod.snd hi)] at hd
    rw [SweepState.write, hi] at hm
    have hfresh := Table.find_eq_none.1 hf
    rcases (Table.mem_insert _ _ hf).1 hm with hm | rfl
    · left
      refine ⟨hm, hd.1, hd.2.imp_right ?_⟩
      rintro ⟨a, ha, hab⟩
      split at ha
      · rw [Function.update_of_ne (hfresh p hm)] at ha
        exact ⟨a, ha, hab⟩
      · exact ⟨a, ha, hab⟩
    · right
      rcases hd.2 with hc | ⟨a, ha, hab⟩
      · cases hc
      · split at ha
        · rw [Function.update_self] at ha
          cases ha
          exact hab
        · obtain ⟨q, hq, hqi, _⟩ := h.known _ a ha
          exact absurd hqi (hfresh q hq)
  · rw [activeSince_of_refused _ _ hn] at hd
    rw [SweepState.write, ht] at hm
    exact .inl ⟨hm, hd⟩

theorem due_assign (promotionId : Nat) (target : AssignPromotion) (stamp : Int)
    {p : PromotionRow}
    (hm : p ∈ (SweepState.step productExists s
      (.assign promotionId target stamp)).promotions.table.rows)
    (hd : Due (SweepState.step productExists s
      (.assign promotionId target stamp)).activeSince p b) :
    (∃ q ∈ s.promotions.table.rows, q.id = p.id ∧ Due s.activeSince q b) ∨ stamp ≤ b := by
  rw [SweepState.step] at hm hd
  rcases s.promotions.assign_cases productExists promotionId target stamp with
    ⟨row, _, _, _, _, ht, ho⟩ | ⟨ht, hn⟩
  · have hactive : (row.assigned target).status = .active := rfl
    rw [activeSince_of_ok _ _ ho, if_pos hactive, PromotionRow.assigned_id] at hd
    rw [SweepState.write, ht] at hm
    obtain ⟨q, hq, rfl⟩ := Table.mem_update.1 hm
    have hsame (r : PromotionRow) (hr : r = q ∨ r = q.assigned target)
        (hd : Due (Function.update s.activeSince row.id (some stamp)) r b) :
        (∃ q ∈ s.promotions.table.rows, q.id = r.id ∧ Due s.activeSince q b) ∨ stamp ≤ b := by
      have hid : q.id = r.id := by
        rcases hr with rfl | rfl
        · rfl
        · rfl
      have hi : r.instants = q.instants := by
        rcases hr with rfl | rfl
        · rfl
        · rfl
      have hc : r.cancelledAt = q.cancelledAt := by
        rcases hr with rfl | rfl
        · rfl
        · rfl
      rw [Due, hi, hc, ← hid] at hd
      rcases hd.2 with hcancel | ⟨a, ha, hab⟩
      · exact .inl ⟨q, hq, hid, hd.1, .inl hcancel⟩
      · by_cases he : q.id = row.id
        · rw [he, Function.update_self] at ha
          cases ha
          exact .inr hab
        · rw [Function.update_of_ne he] at ha
          exact .inl ⟨q, hq, hid, hd.1, .inr ⟨a, ha, hab⟩⟩
    apply hsame _ _ hd
    split
    · exact .inr rfl
    · exact .inl rfl
  · rw [activeSince_of_refused _ _ hn] at hd
    rw [SweepState.write, ht] at hm
    exact .inl ⟨p, hm, rfl, hd⟩

theorem due_cancel (promotionId : Nat) (stamp : Int) {p : PromotionRow}
    (hm : p ∈ (SweepState.step productExists s
      (.cancel promotionId stamp)).promotions.table.rows)
    (hd : Due s.activeSince p b) :
    (∃ q ∈ s.promotions.table.rows, q.id = p.id ∧ Due s.activeSince q b) ∨ stamp ≤ b := by
  rw [SweepState.step] at hm
  rcases s.promotions.cancel_cases promotionId stamp with ⟨row, _, _, ht, _⟩ | ⟨ht, _⟩
  · change p ∈ (s.promotions.cancel promotionId stamp).1.table.rows at hm
    rw [ht] at hm
    obtain ⟨q, hq, rfl⟩ := Table.mem_update.1 hm
    by_cases hg : q.id = promotionId ∧ decide (q.status ≠ .cancelled) = true
    · rw [if_pos hg] at hd ⊢
      rcases mem_instants_cancelled hd.1 with hb | rfl
      · rcases hd.2 with hc | ha
        · exact .inr (Option.some.inj hc).le
        · exact .inl ⟨q, hq, rfl, hb, .inr ha⟩
      · exact .inr (le_refl b)
    · rw [if_neg hg] at hd ⊢
      exact .inl ⟨q, hq, rfl, hd⟩
  · change p ∈ (s.promotions.cancel promotionId stamp).1.table.rows at hm
    rw [ht] at hm
    exact .inl ⟨p, hm, rfl, hd⟩

/-- An instant that a write makes due lies ahead of everything the sweeps have looked at. -/
theorem due_step (h : Timely watermark₀ s) {e : SweepEvent} (hp : Prompt s e) {p : PromotionRow}
    (hm : p ∈ (SweepState.step productExists s e).promotions.table.rows)
    (hd : Due (SweepState.step productExists s e).activeSince p b) :
    (∃ q ∈ s.promotions.table.rows, q.id = p.id ∧ Due s.activeSince q b) ∨
      s.now < b + commitLagSeconds * 1000000 := by
  have hahead {stamp : Int} (hs : s.now < stamp + commitLagSeconds * 1000000)
      (hb : stamp ≤ b) : s.now < b + commitLagSeconds * 1000000 := by omega
  rcases SweepState.step_frame productExists s e with hf | ⟨now, rfl⟩ | ⟨input, stamp, rfl⟩ |
    ⟨promotionId, target, stamp, rfl⟩ | ⟨promotionId, stamp, rfl⟩
  · rw [hf.promotions] at hm
    rw [hf.activeSince] at hd
    exact .inl ⟨p, hm, rfl, hd⟩
  · exact .inl ⟨p, hm, rfl, hd⟩
  · exact (h.due_insert input stamp hm hd).imp (fun hq => ⟨p, hq.1, rfl, hq.2⟩) (hahead hp)
  · exact (due_assign promotionId target stamp hm hd).imp_right (hahead hp)
  · exact (due_cancel promotionId stamp hm hd).imp_right (hahead hp)

/-- A promotion that is not a draft stays in the table and never becomes one. -/
theorem rows_step (productExists : Nat → Bool) (s : SweepState) (e : SweepEvent) {q : PromotionRow}
    (hq : q ∈ s.promotions.table.rows) (hd : q.status ≠ .draft) :
    ∃ p ∈ (SweepState.step productExists s e).promotions.table.rows,
      p.id = q.id ∧ p.status ≠ .draft := by
  rcases SweepState.step_frame productExists s e with hf | ⟨now, rfl⟩ | ⟨input, stamp, rfl⟩ |
    ⟨promotionId, target, stamp, rfl⟩ | ⟨promotionId, stamp, rfl⟩
  · rw [hf.promotions]
    exact ⟨q, hq, rfl, hd⟩
  · exact ⟨q, hq, rfl, hd⟩
  · rw [SweepState.step, SweepState.write]
    rcases s.promotions.insert_cases productExists input stamp with ⟨hf, _, hi⟩ | ⟨ht, _⟩
    · rw [hi]
      exact ⟨q, (Table.mem_insert _ _ hf).2 (.inl hq), rfl, hd⟩
    · rw [ht]
      exact ⟨q, hq, rfl, hd⟩
  · rw [SweepState.step, SweepState.write]
    rcases s.promotions.assign_cases productExists promotionId target stamp with
      ⟨_, _, _, _, _, ht, _⟩ | ⟨ht, _⟩
    · rw [ht]
      refine ⟨_, Table.mem_update.2 ⟨q, hq, rfl⟩, ?_⟩
      split
      · exact ⟨rfl, PromotionRow.assigned_ne_draft target q⟩
      · exact ⟨rfl, hd⟩
    · rw [ht]
      exact ⟨q, hq, rfl, hd⟩
  · rw [SweepState.step]
    rcases s.promotions.cancel_cases promotionId stamp with ⟨_, _, _, ht, _⟩ | ⟨ht, _⟩
    · rw [ht]
      refine ⟨_, Table.mem_update.2 ⟨q, hq, rfl⟩, ?_⟩
      split
      · exact ⟨rfl, PromotionRow.cancelled_ne_draft stamp q⟩
      · exact ⟨rfl, hd⟩
    · rw [ht]
      exact ⟨q, hq, rfl, hd⟩

theorem known_step (h : Timely watermark₀ s) (e : SweepEvent) (id : Nat) (a : Int)
    (ha : (SweepState.step productExists s e).activeSince id = some a) :
    ∃ p ∈ (SweepState.step productExists s e).promotions.table.rows,
      p.id = id ∧ p.status ≠ .draft := by
  have hold {a : Int} (ha : s.activeSince id = some a) :
      ∃ p ∈ (SweepState.step productExists s e).promotions.table.rows,
        p.id = id ∧ p.status ≠ .draft := by
    obtain ⟨q, hq, hqi, hqd⟩ := h.known id a ha
    obtain ⟨p, hp, hpi, hpd⟩ := rows_step productExists s e hq hqd
    exact ⟨p, hp, hpi.trans hqi, hpd⟩
  rcases SweepState.step_frame productExists s e with hf | ⟨now, rfl⟩ | ⟨input, stamp, rfl⟩ |
    ⟨promotionId, target, stamp, rfl⟩ | ⟨promotionId, stamp, rfl⟩
  · rw [hf.activeSince] at ha
    exact hold ha
  · exact hold ha
  · rw [SweepState.step] at ha
    rcases s.promotions.insert_cases productExists input stamp with ⟨hf, _, hi⟩ | ⟨_, hn⟩
    · rw [activeSince_of_ok _ _ (congrArg Prod.snd hi)] at ha
      split at ha
      · rename_i hactive
        by_cases he : id = (s.promotions.inserted input stamp).id
        · refine ⟨s.promotions.inserted input stamp, ?_, he.symm, ?_⟩
          · rw [SweepState.step, SweepState.write, hi]
            exact (Table.mem_insert _ _ hf).2 (.inr rfl)
          · rw [hactive]
            decide
        · rw [Function.update_of_ne he] at ha
          exact hold ha
      · exact hold ha
    · rw [activeSince_of_refused _ _ hn] at ha
      exact hold ha
  · rw [SweepState.step] at ha
    rcases s.promotions.assign_cases productExists promotionId target stamp with
      ⟨row, hf, hd, hlt, _, ht, ho⟩ | ⟨_, hn⟩
    · have hactive : (row.assigned target).status = .active := rfl
      rw [activeSince_of_ok _ _ ho, if_pos hactive, PromotionRow.assigned_id] at ha
      by_cases he : id = row.id
      · refine ⟨row.assigned target, ?_, he.symm, PromotionRow.assigned_ne_draft target row⟩
        rw [SweepState.step, SweepState.write, ht]
        refine Table.mem_update.2 ⟨row, Table.find_some_mem hf, if_pos ⟨?_, ?_⟩⟩
        · exact Table.find_some_key hf
        · rw [Bool.and_eq_true, decide_eq_true_iff, decide_eq_true_iff]
          exact ⟨hd, hlt⟩
      · rw [Function.update_of_ne he] at ha
        exact hold ha
    · rw [activeSince_of_refused _ _ hn] at ha
      exact hold ha
  · exact hold ha

theorem cancelled_step (h : Timely watermark₀ s) (e : SweepEvent) :
    ∀ p ∈ (SweepState.step productExists s e).promotions.table.rows,
      p.cancelledAt ≠ none → p.status ≠ .draft := by
  rcases SweepState.step_frame productExists s e with hf | ⟨now, rfl⟩ | ⟨input, stamp, rfl⟩ |
    ⟨promotionId, target, stamp, rfl⟩ | ⟨promotionId, stamp, rfl⟩
  · rw [hf.promotions]
    exact h.cancelled
  · exact h.cancelled
  · rw [SweepState.step, SweepState.write]
    rcases s.promotions.insert_cases productExists input stamp with ⟨hf, _, hi⟩ | ⟨ht, _⟩
    · rw [hi]
      intro p hp hc
      rcases (Table.mem_insert _ _ hf).1 hp with hp | rfl
      · exact h.cancelled p hp hc
      · exact absurd rfl hc
    · rw [ht]
      exact h.cancelled
  · rw [SweepState.step, SweepState.write]
    rcases s.promotions.assign_cases productExists promotionId target stamp with
      ⟨_, _, _, _, _, ht, _⟩ | ⟨ht, _⟩
    · rw [ht]
      intro p hp hc
      obtain ⟨q, hq, rfl⟩ := Table.mem_update.1 hp
      split at hc
      · rename_i hg
        rw [if_pos hg]
        exact PromotionRow.assigned_ne_draft target q
      · rename_i hg
        rw [if_neg hg]
        exact h.cancelled q hq hc
    · rw [ht]
      exact h.cancelled
  · rw [SweepState.step]
    rcases s.promotions.cancel_cases promotionId stamp with ⟨_, _, _, ht, _⟩ | ⟨ht, _⟩
    · rw [ht]
      intro p hp hc
      obtain ⟨q, hq, rfl⟩ := Table.mem_update.1 hp
      split at hc
      · rename_i hg
        rw [if_pos hg]
        exact PromotionRow.cancelled_ne_draft stamp q
      · rename_i hg
        rw [if_neg hg]
        exact h.cancelled q hq hc
    · rw [ht]
      exact h.cancelled

theorem not_draft_of_due (h : Timely watermark₀ s) {p : PromotionRow}
    (hp : p ∈ s.promotions.table.rows) (hd : Due s.activeSince p b) : p.status ≠ .draft := by
  rcases hd.2 with hc | ⟨a, ha, _⟩
  · apply h.cancelled p hp
    rw [hc]
    exact Option.some_ne_none b
  · obtain ⟨q, hq, hqi, hqd⟩ := h.known p.id a ha
    rw [← s.promotions.table.eq_of_key hq hp hqi]
    exact hqd

theorem initial (now watermark : Int) (queue : JobQueue Text) :
    Timely watermark (.initial now watermark queue) := by
  refine ⟨.inl rfl, ?_, ?_, ?_⟩
  · intro id a h
    cases h
  · intro p h
    cases h
  · intro i w h
    cases h

theorem step_seen (hlag : Lagging s) (h : Timely watermark₀ s) {e : SweepEvent} (hp : Prompt s e)
    (i : Nat)
    (w : Sweep) (hi : (SweepState.step productExists s e).sweepers i = .sweeping w)
    (p : PromotionRow) (hm : p ∈ (SweepState.step productExists s e).promotions.table.rows)
    (b : Int) (hd : Due (SweepState.step productExists s e).activeSince p b)
    (hl : micros w.since < b) (hr : b ≤ micros w.windowEnd) : p.id ∈ w.promotionIds := by
  have hdue := h.due_step hp hm hd
  have hnot {upTo : Int} (hu : micros upTo ≤ s.now - commitLagSeconds * 1000000)
      (hb : b ≤ micros upTo) : ¬ s.now < b + commitLagSeconds * 1000000 := by omega
  rcases SweepState.step_sweepers productExists s e i with hs | hs | hs | ⟨_, hs⟩ |
    ⟨a, c, hb, hs⟩ | ⟨v, id, rest, _, hv, _, hs⟩
  · have hw := hs.symm.trans hi
    rcases hlag.sweeping i w hw with he | hle
    · rw [he] at hl
      exact absurd hr hl.not_ge
    · obtain ⟨q, hq, hqi, hqd⟩ := hdue.resolve_right (hnot hle hr)
      rw [← hqi]
      exact h.seen i w hw q hq b hqd hl hr
  · rw [hs] at hi
    cases hi
  · rw [hs] at hi
    cases hi
    exact absurd hr hl.not_ge
  · rw [hs] at hi
    cases hi
  · rw [hs] at hi
    cases hi
    obtain ⟨q, hq, hqi, hqd⟩ := hdue.resolve_right (hnot (hlag.bounded i a c hb) hr)
    have hc := PromotionRow.crosses_of (h.not_draft_of_due hq hqd) hqd.1 hl hr
    exact BoundaryRepository.mem_crossed.2 ⟨q, hq, hc, hqi⟩
  · rw [hs] at hi
    cases hi
    rcases hlag.sweeping i v hv with he | hle
    · have hr' : b ≤ micros v.windowEnd := hr
      rw [← he] at hr'
      exact absurd hr' hl.not_ge
    · obtain ⟨q, hq, hqi, hqd⟩ := hdue.resolve_right (hnot hle hr)
      rw [← hqi]
      exact h.seen i v hv q hq b hqd hl hr

theorem step_watermark (hlag : Lagging s) (h : Timely watermark₀ s) {e : SweepEvent}
    (hf : Forward s e) : (SweepState.step productExists s e).watermark = watermark₀ ∨
      micros (SweepState.step productExists s e).watermark ≤
        (SweepState.step productExists s e).now - commitLagSeconds * 1000000 := by
  have hnow := SweepState.step_now productExists hf
  have hstays : s.watermark = watermark₀ ∨ micros s.watermark ≤
      (SweepState.step productExists s e).now - commitLagSeconds * 1000000 := by
    apply h.watermark.imp_right
    intro hw
    omega
  rcases SweepState.step_watermark productExists s e with ⟨_, hw, _⟩ | ⟨w, hadv, hw, _⟩
  · rw [hw]
    exact hstays
  · rw [hw]
    obtain ⟨i, _, _, hi, _, _, hsince⟩ := SweepState.advancing_eq_some hadv
    rcases hlag.sweeping i w hi with he | hle
    · rw [← he, ← hsince]
      exact hstays
    · right
      omega

theorem step (hlag : Lagging s) (h : Timely watermark₀ s) {e : SweepEvent} (hf : Forward s e)
    (hp : Prompt s e) :
    Timely watermark₀ (SweepState.step productExists s e) where
  watermark := step_watermark hlag h hf
  known := h.known_step e
  cancelled := h.cancelled_step e
  seen := step_seen hlag h hp

/-- What is due after a run was due before it, if the sweeps could look at it even then. -/
theorem due_of_run (h : Lagging s ∧ Timely watermark₀ s)
    (hprompt : Along (SweepState.step productExists) (fun s e => Forward s e ∧ Prompt s e) s es)
    (hb : b + commitLagSeconds * 1000000 ≤ s.now) {p : PromotionRow}
    (hm : p ∈ (run (SweepState.step productExists) s es).promotions.table.rows)
    (hd : Due (run (SweepState.step productExists) s es).activeSince p b) :
    ∃ q ∈ s.promotions.table.rows, q.id = p.id ∧ Due s.activeSince q b := by
  induction es generalizing s with
  | nil => exact ⟨p, hm, rfl, hd⟩
  | cons e es ih =>
    obtain ⟨⟨hf, hp⟩, hrest⟩ := hprompt
    have hnow := SweepState.step_now productExists hf
    obtain ⟨q, hq, hqi, hqd⟩ :=
      ih ⟨h.1.step hf, step h.1 h.2 hf hp⟩ hrest (hb.trans hnow) hm hd
    rcases h.2.due_step hp hq hqd with ⟨q', hq', hid, hd'⟩ | hahead
    · exact ⟨q', hq', hid.trans hqi, hd'⟩
    · exact absurd hb (not_le.2 hahead)

end Timely

theorem watermark_mono (productExists : Nat → Bool) (hs : Swept watermark₀ s)
    (es : List SweepEvent) :
    s.watermark ≤ (run (SweepState.step productExists) s es).watermark := by
  induction es generalizing s with
  | nil => exact le_refl s.watermark
  | cons e es ih =>
    apply le_trans _ (ih (hs.step e))
    rcases SweepState.step_watermark productExists s e with ⟨_, hw, _⟩ | ⟨w, hadv, hw, _⟩
    · exact hw.ge
    · obtain ⟨i, _, _, hi, _, _, hsince⟩ := SweepState.advancing_eq_some hadv
      rw [hw, hsince]
      exact (hs.sound i w hi).ordered

theorem micros_lt (h : a < b) : micros a < micros b := by
  rw [micros, micros]
  omega

theorem JobQueue.holds_add (q : JobQueue Text) (id : Text) : (q.add id).Holds id := by
  rw [add]
  split
  · rename_i hq
    exact hq
  · exact .inl (List.mem_append_right _ (List.mem_singleton.2 rfl))

namespace SweepState

variable {productExists : Nat → Bool} {s : SweepState}

/-- The sweeper is on the sweep, whatever that has yet to publish. -/
def Sweeps (s : SweepState) (i : Nat) (w : Sweep) : Prop :=
  ∃ left, s.sweepers i = .sweeping { w with toPublish := left }

/-- The sweep's next publish is the promotion's, and then the queue holds its job: it takes it,
unless it held one of that id. -/
structure Publishes (productExists : Nat → Bool) (s : SweepState) (i : Nat) (w : Sweep)
    (promotionId : Nat) : Prop where
  next : ∃ rest, s.sweepers i = .sweeping { w with toPublish := promotionId :: rest }
  holds : (step productExists s (.publish i .done)).queue.Holds
    (SweepBoundariesCommand.jobId promotionId w.since)
  added : s.queue.Holds (SweepBoundariesCommand.jobId promotionId w.since) ∨
    ⟨SweepBoundariesCommand.jobId promotionId w.since, promotionId, s.now⟩ ∈
      (step productExists s (.publish i .done)).added

theorem publishes_next
    (hi : s.sweepers i = .sweeping { w with toPublish := promotionId :: rest }) :
    s.Publishes productExists i w promotionId := by
  refine ⟨⟨rest, hi⟩, ?_, ?_⟩
  · rw [publish_done productExists hi rfl]
    exact JobQueue.holds_add _ _
  · rw [publish_done productExists hi rfl]
    by_cases hq : s.queue.Holds (SweepBoundariesCommand.jobId promotionId w.since)
    · exact .inl hq
    · right
      have hadded : (s.addJob (SweepBoundariesCommand.jobId promotionId w.since)
          promotionId).added = ⟨SweepBoundariesCommand.jobId promotionId w.since, promotionId,
            s.now⟩ :: s.added := if_neg hq
      exact hadded ▸ List.mem_cons_self

/-- A promotion that a sweep selected and has no longer to publish was no longer to publish a step
before, or that step published it. -/
theorem step_unpublished {e : SweepEvent}
    (hi : (step productExists s e).sweepers i = .sweeping { w with toPublish := left })
    (hid : promotionId ∈ w.promotionIds) (hnot : promotionId ∉ left) :
    s.Sweeps i w ∧
      ((∃ left, s.sweepers i = .sweeping { w with toPublish := left } ∧ promotionId ∉ left) ∨
        e = .publish i .done ∧ s.Publishes productExists i w promotionId) := by
  rcases step_sweepers productExists s e i with
    hs | hs | hs | ⟨_, hs⟩ | ⟨_, _, _, hs⟩ | ⟨v, id, rest, rfl, hv, hp, hs⟩
  · have hbefore := hs.symm.trans hi
    exact ⟨⟨left, hbefore⟩, .inl ⟨left, hbefore, hnot⟩⟩
  · cases hs.symm.trans hi
  · have hw := hs.symm.trans hi
    rw [SweepPhase.sweeping.injEq, Sweep.mk.injEq] at hw
    rw [← hw.2.2.2.1] at hid
    cases hid
  · cases hs.symm.trans hi
  · have hw := hs.symm.trans hi
    rw [SweepPhase.sweeping.injEq, Sweep.mk.injEq] at hw
    rw [← hw.2.2.2.1, hw.2.2.2.2] at hid
    exact absurd hid hnot
  · have hw := hs.symm.trans hi
    have hbefore : s.sweepers i = .sweeping { w with toPublish := id :: left } := by
      obtain ⟨since, upTo, snapshot, promotionIds, toPublish⟩ := v
      cases hp
      cases hw
      exact hv
    refine ⟨⟨_, hbefore⟩, ?_⟩
    by_cases he : promotionId = id
    · subst he
      exact .inr ⟨rfl, publishes_next hbefore⟩
    · exact .inl ⟨_, hbefore, fun hmem => (List.mem_cons.1 hmem).elim he hnot⟩

/-- A sweep has published every promotion it selected and has no longer to publish. -/
theorem published_since (hi : (run (step productExists) s es).sweepers i = .sweeping w)
    (hs : ∀ v, s.sweepers i ≠ .sweeping v) (hid : promotionId ∈ w.promotionIds)
    (hto : promotionId ∉ w.toPublish) :
    ∃ pre post, es = pre ++ .publish i .done :: post ∧
      (run (step productExists) s pre).Publishes productExists i w promotionId ∧
      Along (step productExists) (fun s _ => s.Sweeps i w)
        (run (step productExists) s (pre ++ [.publish i .done])) post := by
  have hstep (s : SweepState) (e : SweepEvent)
      (h : ∃ left, (step productExists s e).sweepers i = .sweeping { w with toPublish := left } ∧
        promotionId ∉ left) :
      s.Sweeps i w ∧
        ((∃ left, s.sweepers i = .sweeping { w with toPublish := left } ∧ promotionId ∉ left) ∨
          e = .publish i .done ∧ s.Publishes productExists i w promotionId) := by
    obtain ⟨left, hleft, hnot⟩ := h
    exact step_unpublished hleft hid hnot
  have hstart : ¬ ∃ left, s.sweepers i = .sweeping { w with toPublish := left } ∧
      promotionId ∉ left := by
    rintro ⟨left, hleft, _⟩
    exact hs _ hleft
  obtain ⟨pre, _, post, rfl, ⟨rfl, hpublishes⟩, hsweeps⟩ :=
    begun_since
      (fun s : SweepState => ∃ left, s.sweepers i = .sweeping { w with toPublish := left } ∧
        promotionId ∉ left)
      (fun s e => e = .publish i .done ∧ s.Publishes productExists i w promotionId)
      hstep hstart ⟨w.toPublish, hi, hto⟩
  exact ⟨pre, post, rfl, hpublishes, hsweeps⟩

/-- A sweep that moved the watermark did so in some event of the run. -/
theorem advanced_since (h : w ∈ (run (step productExists) s es).advanced)
    (hs : w ∉ s.advanced) : ∃ pre e post, es = pre ++ e :: post ∧
      (run (step productExists) s pre).advancing e = some w := by
  have hstep (s : SweepState) (e : SweepEvent) (h : w ∈ (step productExists s e).advanced) :
      True ∧ (w ∈ s.advanced ∨ s.advancing e = some w) := by
    refine ⟨trivial, ?_⟩
    rcases step_watermark productExists s e with ⟨_, _, ha⟩ | ⟨v, hadv, _, ha⟩
    · rw [ha] at h
      exact .inl h
    · rw [ha] at h
      rcases List.mem_append.1 h with h | h
      · exact .inl h
      · rw [List.mem_singleton.1 h]
        exact .inr hadv
  obtain ⟨pre, e, post, he, hadv, _⟩ :=
    begun_since (fun s : SweepState => w ∈ s.advanced) (fun s e => s.advancing e = some w) hstep
      hs h
  exact ⟨pre, e, post, he, hadv⟩

/-- A sweep whose window holds the instant publishes the promotion, and only then moves the
watermark, from before the instant to the end of its window. -/
def AnnouncesBefore (productExists : Nat → Bool) (s : SweepState) (es : List SweepEvent)
    (promotionId : Nat) (b : Int) : Prop :=
  ∃ pre i mid outcome post w,
    es = pre ++ .publish i .done :: (mid ++ .advance i outcome :: post) ∧
    (run (step productExists) s pre).Publishes productExists i w promotionId ∧
    Along (step productExists) (fun s _ => s.Sweeps i w)
      (run (step productExists) s (pre ++ [.publish i .done])) mid ∧
    (run (step productExists) s (pre ++ .publish i .done :: mid)).advancing
      (.advance i outcome) = some w ∧
    micros w.since < b ∧ b ≤ micros w.windowEnd

end SweepState

/-- On a prompt run, what is due in a window that moved the watermark was announced before. -/
theorem announcesBefore_of_window (productExists : Nat → Bool) (now watermark : Int)
    (queue : JobQueue Text) {es : List SweepEvent}
    (hprompt : Along (SweepState.step productExists) (fun s e => Forward s e ∧ Prompt s e)
      (.initial now watermark queue) es) {p : PromotionRow}
    (hm : p ∈ (run (SweepState.step productExists)
      (.initial now watermark queue) es).promotions.table.rows)
    (hd : Due (run (SweepState.step productExists)
      (.initial now watermark queue) es).activeSince p b)
    (hw : w ∈ (run (SweepState.step productExists) (.initial now watermark queue) es).advanced)
    (hl : micros w.since < b) (hr : b ≤ micros w.windowEnd) :
    SweepState.AnnouncesBefore productExists (.initial now watermark queue) es p.id b := by
  obtain ⟨before, e, post, rfl, hadv⟩ := SweepState.advanced_since hw fun h => by cases h
  obtain ⟨i, outcome, rfl, hi, hto, _, _⟩ := SweepState.advancing_eq_some hadv
  obtain ⟨hbefore, hafter⟩ := (along_append _ before _).1 hprompt
  have htimely : Lagging (run (SweepState.step productExists) (.initial now watermark queue)
        before) ∧
      Timely watermark (run (SweepState.step productExists) (.initial now watermark queue)
        before) :=
    run_invariant (I := fun s => Lagging s ∧ Timely watermark s)
      (fun s e h hp => ⟨h.1.step hp.1, Timely.step h.1 h.2 hp.1 hp.2⟩)
      ⟨.initial now watermark queue, .initial now watermark queue⟩ hbefore
  have hnow := (htimely.1.sweeping i w hi).resolve_left fun he =>
    absurd hr (not_le.2 (he ▸ hl))
  rw [run_append] at hm hd
  obtain ⟨q, hq, hqi, hqd⟩ := Timely.due_of_run htimely hafter (by omega) hm hd
  have hid : p.id ∈ w.promotionIds := hqi ▸ htimely.2.seen i w hi q hq b hqd hl hr
  obtain ⟨pre, mid, rfl, hpublishes, hsweeps⟩ := SweepState.published_since hi
    (fun v hv => by cases hv) hid (hto ▸ List.not_mem_nil)
  refine ⟨pre, i, mid, outcome, post, w, ?_, hpublishes, hsweeps, hadv, hl, hr⟩
  rw [List.append_assoc, List.cons_append]

/-- In every run the watermark never decreases and the windows that moved it tile the time from
the first one, in milliseconds and in the microseconds of the promotions; each sweep selected every
promotion that was not a draft and crossed its window when it read; and on prompt runs what is due
is announced by the sweep whose window holds it, before that moves the watermark past it. -/
theorem sweep_windows_tile (productExists : Nat → Bool) (now watermark : Int)
    (queue : JobQueue Text) (es : List SweepEvent) :
    (∀ pre post, es = pre ++ post →
      (run (SweepState.step productExists) (.initial now watermark queue) pre).watermark ≤
        (run (SweepState.step productExists) (.initial now watermark queue) es).watermark) ∧
    Tiles watermark
      ((run (SweepState.step productExists) (.initial now watermark queue) es).windows.map
        fun w => (w.since, w.windowEnd))
      (run (SweepState.step productExists) (.initial now watermark queue) es).watermark ∧
    (∀ t, (micros watermark < t ∧
        t ≤ micros (run (SweepState.step productExists)
          (.initial now watermark queue) es).watermark) ↔
      ∃ w ∈ (run (SweepState.step productExists) (.initial now watermark queue) es).windows,
        micros w.since < t ∧ t ≤ micros w.windowEnd) ∧
    (∀ w ∈ (run (SweepState.step productExists) (.initial now watermark queue) es).windows,
      w.Selects) ∧
    (Along (SweepState.step productExists) (fun s e => Forward s e ∧ Prompt s e)
        (.initial now watermark queue) es →
      ∀ p ∈ (run (SweepState.step productExists)
          (.initial now watermark queue) es).promotions.table.rows, ∀ b,
        Due (run (SweepState.step productExists)
          (.initial now watermark queue) es).activeSince p b →
        micros watermark < b →
        b ≤ micros (run (SweepState.step productExists)
          (.initial now watermark queue) es).watermark →
        SweepState.AnnouncesBefore productExists (.initial now watermark queue) es p.id b) := by
  have hstart := Swept.initial now watermark queue
  have hstep (s : SweepState) (e : SweepEvent) (h : Swept watermark s) :
      Swept watermark (SweepState.step productExists s e) := h.step e
  have hswept := run_invariant_always hstep hstart es
  have hcovers (t : Int) : (micros watermark < t ∧
        t ≤ micros (run (SweepState.step productExists)
          (.initial now watermark queue) es).watermark) ↔
      ∃ w ∈ (run (SweepState.step productExists) (.initial now watermark queue) es).windows,
        micros w.since < t ∧ t ≤ micros w.windowEnd := by
    have ht := (hswept.tiles.map fun _ _ => micros_lt).covers t
    simp only [List.map_map, List.mem_map, Function.comp_apply, exists_exists_and_eq_and] at ht
    exact ht
  refine ⟨?_, hswept.tiles, hcovers, ?_, ?_⟩
  · rintro pre post rfl
    rw [run_append]
    exact watermark_mono productExists (run_invariant_always hstep hstart pre) post
  · intro w hw
    exact hswept.selected w (List.mem_filter.1 hw).1
  · intro hprompt p hm b hd hl hr
    obtain ⟨w, hw, hlw, hrw⟩ := (hcovers b).1 ⟨hl, hr⟩
    exact announcesBefore_of_window productExists now watermark queue hprompt hm hd
      (List.mem_filter.1 hw).1 hlw hrw

def flashSale : CreatePromotion :=
  ⟨"Flash sale".toList, .percentage, 2000, 100000000, 200000000, none, some "Accessories".toList⟩

/-- A sale is created and opens, and one sweep announces both. -/
def promptSweep : List SweepEvent :=
  [.clock 10000000, .insert flashSale 9000000, .clock 140000000, .bounds 0, .read 0,
    .publish 0 .done, .advance 0 .done]

theorem sweep_windows_tile_promptSweep : SweepState.AnnouncesBefore (fun _ => true)
    (.initial 0 0 .empty) promptSweep 1 100000000 := by
  have hprompt : Along (SweepState.step fun _ => true) (fun s e => Forward s e ∧ Prompt s e)
      (.initial 0 0 .empty) promptSweep := by
    refine ⟨⟨?_, trivial⟩, ⟨trivial, ?_⟩, ⟨?_, trivial⟩, ⟨trivial, trivial⟩, ⟨trivial, trivial⟩,
      ⟨trivial, trivial⟩, ⟨trivial, trivial⟩, trivial⟩
    · change (0 : Int) ≤ 10000000
      decide
    · change (10000000 : Int) < 9000000 + 30 * 1000000
      decide
    · change (10000000 : Int) ≤ 140000000
      decide
  exact (sweep_windows_tile (fun _ => true) 0 0 .empty promptSweep).2.2.2.2 hprompt
    (Promotions.empty.inserted flashSale 9000000) (by decide +kernel) 100000000
    ⟨by decide +kernel, .inr ⟨9000000, by decide +kernel, by decide⟩⟩ (by decide +kernel)
    (by decide +kernel)

end PromotionManagement
