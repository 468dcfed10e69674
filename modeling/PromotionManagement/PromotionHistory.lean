import PromotionManagement.PromotionReads

namespace PromotionManagement
open Library
set_option autoImplicit true

def PromotionStatus.rank : PromotionStatus → Nat
  | .draft => 0
  | .active => 1
  | .cancelled => 2

/-- The order in which a promotion passes its states. -/
def PromotionState.rank : PromotionState → Nat
  | .draft => 0
  | .scheduled => 1
  | .live => 2
  | .expired => 3
  | .cancelled => 4

theorem PromotionState.rank_le_cancelled (state : PromotionState) :
    state.rank ≤ PromotionState.cancelled.rank := by
  cases state <;> decide

/-- The instant that the statement of a write reads as `now()`. -/
def PromotionEvent.instant : PromotionEvent → Int
  | .insert _ _ now => now
  | .assign _ _ _ now => now
  | .cancel _ now => now

/-- A later row of the same promotion: its terms are those it was created with, its status has
gone on, its target was settled with the draft, and a cancelled row is left as it is. -/
structure PromotionRow.Continues (row row' : PromotionRow) : Prop where
  id : row'.id = row.id
  name : row'.name = row.name
  discountType : row'.discountType = row.discountType
  value : row'.value = row.value
  startsAt : row'.startsAt = row.startsAt
  endsAt : row'.endsAt = row.endsAt
  status : row.status.rank ≤ row'.status.rank
  target : row.status ≠ .draft → row'.productId = row.productId ∧ row'.category = row.category
  final : row.status = .cancelled → row' = row

namespace PromotionRow.Continues

variable {row row' row'' : PromotionRow}

theorem refl (row : PromotionRow) : row.Continues row :=
  ⟨rfl, rfl, rfl, rfl, rfl, rfl, Nat.le_refl _, fun _ => ⟨rfl, rfl⟩, fun _ => rfl⟩

theorem ne_draft (h : row.Continues row') (hs : row.status ≠ .draft) : row'.status ≠ .draft := by
  intro hs'
  have hle := h.status
  rw [hs'] at hle
  cases hr : row.status with
  | draft => exact hs hr
  | active =>
    rw [hr] at hle
    cases hle
  | cancelled =>
    rw [hr] at hle
    cases hle

theorem trans (h : row.Continues row') (h' : row'.Continues row'') : row.Continues row'' where
  id := h'.id.trans h.id
  name := h'.name.trans h.name
  discountType := h'.discountType.trans h.discountType
  value := h'.value.trans h.value
  startsAt := h'.startsAt.trans h.startsAt
  endsAt := h'.endsAt.trans h.endsAt
  status := h.status.trans h'.status
  target := by
    intro hs
    obtain ⟨hp, hc⟩ := h.target hs
    obtain ⟨hp', hc'⟩ := h'.target (h.ne_draft hs)
    exact ⟨hp'.trans hp, hc'.trans hc⟩
  final := by
    intro hs
    obtain rfl := h.final hs
    exact h'.final hs

theorem of_moves (h : Promotions.Moves event row row') : row.Continues row' := by
  cases h with
  | kept => exact .refl row
  | assigned hs =>
    refine ⟨rfl, rfl, rfl, rfl, rfl, rfl, ?_, ?_, ?_⟩
    · rw [hs]
      exact Nat.zero_le _
    · exact fun hn => absurd hs hn
    · intro hc
      rw [hs] at hc
      cases hc
  | cancelled hs =>
    refine ⟨rfl, rfl, rfl, rfl, rfl, rfl, ?_, fun _ => ⟨rfl, rfl⟩, fun hc => absurd hc hs⟩
    rw [PromotionRow.cancelled]
    cases row.status with
    | draft => exact Nat.zero_le 2
    | active => exact Nat.le_succ 1
    | cancelled => exact Nat.le_refl 2

/-- Time and writes take the state of a promotion forward only. -/
theorem state_rank (h : row.Continues row') (hle : now ≤ later) :
    (row.state now).rank ≤ (row'.state later).rank := by
  have hstatus := h.status
  rw [PromotionRow.state, PromotionRow.state, h.startsAt, h.endsAt]
  cases hs : row.status with
  | draft => exact Nat.zero_le _
  | cancelled =>
    rw [h.final hs, hs]
    exact Nat.le_refl _
  | active =>
    rw [hs] at hstatus
    cases hs' : row'.status with
    | draft =>
      rw [hs'] at hstatus
      cases hstatus
    | cancelled => exact PromotionState.rank_le_cancelled _
    | active =>
      simp only [reduceCtorEq, if_false]
      by_cases hstarts : row.startsAt > now
      · rw [if_pos hstarts]
        split
        · exact Nat.le_refl 1
        · split
          · exact Nat.le_add_right 1 2
          · exact Nat.le_succ 1
      · rw [if_neg hstarts, if_neg (not_lt.2 ((not_lt.1 hstarts).trans hle))]
        by_cases hends : row.endsAt ≤ now
        · rw [if_pos hends, if_pos (hends.trans hle)]
        · rw [if_neg hends]
          split
          · exact Nat.le_succ 2
          · exact Nat.le_refl 2

end PromotionRow.Continues

namespace Promotions

variable {p : Promotions} {row : PromotionRow}

theorem continues_run (hr : row ∈ p.table.rows) (events : List PromotionEvent) :
    ∃ row' ∈ (run step p events).table.rows, row.Continues row' := by
  induction events generalizing p row with
  | nil => exact ⟨row, hr, .refl row⟩
  | cons event events ih =>
    obtain ⟨row', hr', hm⟩ := p.step_moves event hr
    obtain ⟨row'', hr'', hc⟩ := ih hr'
    exact ⟨row'', hr'', .trans (.of_moves hm) hc⟩

/-- The window of a promotion is over, and it is not active. -/
def Lapsed (p : Promotions) (promotionId : Nat) (instant : Int) : Prop :=
  ∃ row ∈ p.table.rows, row.id = promotionId ∧ row.endsAt ≤ instant ∧ row.status ≠ .active

/-- Only a draft whose window is not over is assigned a target. -/
theorem Lapsed.step (h : p.Lapsed promotionId instant) {event : PromotionEvent}
    (hle : instant ≤ event.instant) : (p.step event).Lapsed promotionId instant := by
  obtain ⟨row, hr, hid, hends, hs⟩ := h
  cases event with
  | insert productExists input now =>
    obtain ⟨row', hr', hm⟩ := p.step_moves (.insert productExists input now) hr
    cases hm with
    | kept => exact ⟨row, hr', hid, hends, hs⟩
  | cancel promotionId now =>
    obtain ⟨row', hr', hm⟩ := p.step_moves (.cancel promotionId now) hr
    cases hm with
    | kept => exact ⟨row, hr', hid, hends, hs⟩
    | cancelled _ => exact ⟨_, hr', hid, hends, PromotionStatus.noConfusion⟩
  | assign productExists promotionId target now =>
    rw [Promotions.step]
    rcases p.assign_cases productExists promotionId target now with
      ⟨old, hf, _, hlt, _, ht, _⟩ | ⟨hp, _⟩
    · refine ⟨row, ?_, hid, hends, hs⟩
      rw [ht]
      apply Table.mem_update_of_not hr
      rintro ⟨hold, hg⟩
      rw [Bool.and_eq_true, decide_eq_true_iff, decide_eq_true_iff] at hg
      exact absurd (hg.2.trans_le hends) (not_lt.2 hle)
    · rw [hp]
      exact ⟨row, hr, hid, hends, hs⟩

theorem Lapsed.run (h : p.Lapsed promotionId instant)
    (hle : ∀ event ∈ events, instant ≤ event.instant) :
    (Library.run Promotions.step p events).Lapsed promotionId instant :=
  run_invariant (I := fun p : Promotions => p.Lapsed promotionId instant)
    (C := fun _ (event : PromotionEvent) => instant ≤ event.instant)
    (fun _ _ hl hc => hl.step hc) h (along_of_mem hle)

end Promotions

/-- What a later read shows of a promotion that an earlier one showed. -/
structure PromotionColumns.Precedes (view view' : PromotionColumns) : Prop where
  id : view'.id = view.id
  name : view'.name = view.name
  discountType : view'.discountType = view.discountType
  value : view'.value = view.value
  startsAt : view'.startsAt = view.startsAt
  endsAt : view'.endsAt = view.endsAt
  state : view.state.rank ≤ view'.state.rank
  target : view.state ≠ .draft → view'.productId = view.productId ∧ view'.category = view.category
  final : view.state = .cancelled → view' = view

/-- The clock has no part in whether a promotion is a draft, or cancelled. -/
theorem PromotionRow.state_of_active {row : PromotionRow} (hs : row.status = .active) (now : Int) :
    row.state now ≠ .draft ∧ row.state now ≠ .cancelled := by
  rw [PromotionRow.state, hs]
  simp only [reduceCtorEq, if_false]
  split
  · exact ⟨PromotionState.noConfusion, PromotionState.noConfusion⟩
  · split
    · exact ⟨PromotionState.noConfusion, PromotionState.noConfusion⟩
    · exact ⟨PromotionState.noConfusion, PromotionState.noConfusion⟩

theorem PromotionRow.state_draft (row : PromotionRow) (now : Int) :
    row.state now = .draft ↔ row.status = .draft := by
  cases hs : row.status with
  | draft => simp [PromotionRow.state, hs]
  | active => simp [(state_of_active hs now).1]
  | cancelled => simp [PromotionRow.state, hs]

theorem PromotionRow.state_cancelled (row : PromotionRow) (now : Int) :
    row.state now = .cancelled ↔ row.status = .cancelled := by
  cases hs : row.status with
  | draft => simp [PromotionRow.state, hs]
  | active => simp [(state_of_active hs now).2]
  | cancelled => simp [PromotionRow.state, hs]

theorem PromotionRow.Continues.columns {row row' : PromotionRow} (h : row.Continues row')
    (newDate : Int → Int) (hle : now ≤ later) :
    (row.columns newDate now).Precedes (row'.columns newDate later) where
  id := h.id
  name := h.name
  discountType := h.discountType
  value := h.value
  startsAt := congrArg newDate h.startsAt
  endsAt := congrArg newDate h.endsAt
  state := h.state_rank hle
  target := fun hs => h.target fun hd => hs ((row.state_draft now).2 hd)
  final := by
    intro hs
    have hc := (row.state_cancelled now).1 hs
    obtain rfl := h.final hc
    rw [PromotionRow.columns, (row'.state_cancelled later).2 hc, PromotionRow.columns,
      (row'.state_cancelled now).2 hc]

/-- What a read shows of a promotion that was created with this input. -/
structure PromotionColumns.CreatedWith (view : PromotionColumns) (input : CreatePromotion) :
    Prop where
  name : view.name = input.name
  discountType : view.discountType = input.discountType
  value : view.value = input.value
  startsAt : year100 ≤ input.startsAt → input.startsAt < year10000 →
    view.startsAt = input.startsAt / 1000
  endsAt : year100 ≤ input.endsAt → input.endsAt < year10000 → view.endsAt = input.endsAt / 1000
  target : input.productId.isSome ∨ input.category.isSome →
    view.productId = input.productId ∧ view.category = input.category

theorem PromotionRow.Continues.createdWith {p : Promotions} {row : PromotionRow}
    (h : (p.inserted input stamp).Continues row) (hdates : ReadsDates newDate) (now : Int) :
    (row.columns newDate now).CreatedWith input where
  name := h.name
  discountType := h.discountType
  value := h.value
  startsAt := fun hfrom hto => (congrArg newDate h.startsAt).trans (hdates _ hfrom hto)
  endsAt := fun hfrom hto => (congrArg newDate h.endsAt).trans (hdates _ hfrom hto)
  target := by
    intro htarget
    have hactive : (p.inserted input stamp).status = .active :=
      if_pos (Bool.or_eq_true_iff.2 htarget)
    apply h.target
    rw [hactive]
    exact PromotionStatus.noConfusion

namespace Promotions

/-- A creation that is answered with this promotion. -/
def Creates (promotionId : Nat) (p : Promotions) (event : PromotionEvent) : Prop :=
  ∃ productExists input stamp, event = .insert productExists input stamp ∧
    (p.insert productExists input stamp).2 = .ok (p.inserted input stamp) ∧
    (p.inserted input stamp).id = promotionId

/-- Each stored promotion was stored before an event, or created by it. -/
theorem stored_or_creates (h : row ∈ (step p event).table.rows) :
    (∃ old ∈ p.table.rows, old.id = row.id) ∨ Creates row.id p event := by
  rcases p.step_cases event with ht | ⟨productExists, input, stamp, rfl, hf, hv, ht⟩ |
    ⟨_, old, target, _, ho, _, _, _, ht⟩ | ⟨old, now, ho, _, _, ht⟩
  · exact .inl ⟨row, ht ▸ h, rfl⟩
  · rw [ht, Table.mem_insert _ _ hf] at h
    rcases h with h | rfl
    · exact .inl ⟨row, h, rfl⟩
    · refine .inr ⟨productExists, input, stamp, rfl, ?_, rfl⟩
      simp only [insert, hv, hf, if_true]
  · left
    rcases (ht row).1 h with ⟨h, _⟩ | rfl
    · exact ⟨row, h, rfl⟩
    · exact ⟨old, ho, rfl⟩
  · left
    rcases (ht row).1 h with ⟨h, _⟩ | rfl
    · exact ⟨row, h, rfl⟩
    · exact ⟨old, ho, rfl⟩

/-- Each stored promotion goes on from the row of the creation that was answered with it. -/
theorem created_of_reached (hr : row ∈ (reached events).table.rows) :
    ∃ pre productExists input stamp post,
      events = pre ++ .insert productExists input stamp :: post ∧
      ((reached pre).insert productExists input stamp).2 =
        .ok ((reached pre).inserted input stamp) ∧
      ((reached pre).inserted input stamp).Continues row := by
  have hstep (p : Promotions) (event : PromotionEvent)
      (h : ∃ r ∈ (step p event).table.rows, r.id = row.id) :
      True ∧ ((∃ r ∈ p.table.rows, r.id = row.id) ∨ Creates row.id p event) := by
    obtain ⟨r, hr, hid⟩ := h
    rw [← hid]
    exact ⟨trivial, stored_or_creates hr⟩
  have hempty : ¬∃ r ∈ Promotions.empty.table.rows, r.id = row.id := by
    rintro ⟨_, hr, _⟩
    cases hr
  obtain ⟨pre, _, post, rfl, ⟨productExists, input, stamp, rfl, hok, hid⟩, _⟩ :=
    begun_since (fun p : Promotions => ∃ r ∈ p.table.rows, r.id = row.id) (Creates row.id) hstep
      hempty ⟨row, hr, rfl⟩
  refine ⟨pre, productExists, input, stamp, post, rfl, hok, ?_⟩
  have hmade : (reached pre).inserted input stamp ∈
      (step (reached pre) (.insert productExists input stamp)).table.rows := by
    rcases (reached pre).insert_cases productExists input stamp with ⟨hf, _, hi⟩ | ⟨_, hn⟩
    · rw [step, hi]
      exact (Table.mem_insert _ _ hf).2 (.inr rfl)
    · exact absurd hok (hn _)
  obtain ⟨row', hr', hc⟩ := continues_run hmade post
  rw [reached_append] at hr
  obtain rfl := Table.eq_of_key _ hr' hr (hc.id.trans hid)
  exact hc

end Promotions

/-- A promotion that a read finds was created in the run, and every read after any further writes
finds it: by the terms it was created with, in a state no earlier, for the same target once it is
not a draft, and once it is cancelled as it was. A draft whose window is over is never anything but
cancelled. A window is shown as it was created in the years 100 to 9999. -/
theorem promotion_history (newDate : Int → Int) (hdates : ReadsDates newDate)
    (events later : List PromotionEvent) (now : Int) (elapsed : Nat) (promotionId : Nat) :
    let p := Promotions.reached events
    let p' := Promotions.reached (events ++ later)
    (FindPromotionQuery.execute newDate p now promotionId =
        .error ⟨404, "No such promotion"⟩ ∧
      ∀ row ∈ p.table.rows, row.id ≠ promotionId) ∨
    ∃ pre productExists input stamp post made,
      events = pre ++ .insert productExists input stamp :: post ∧
      ((Promotions.reached pre).insert productExists input stamp).2 = .ok made ∧
      made.id = promotionId ∧
      ∃ view view', FindPromotionQuery.execute newDate p now promotionId = .ok view ∧
        FindPromotionQuery.execute newDate p' (now + elapsed) promotionId = .ok view' ∧
        view.CreatedWith input ∧ view.Precedes view' ∧
        (view.state = .draft → input.endsAt ≤ now → (∀ event ∈ later, now ≤ event.instant) →
          view'.state = .draft ∨ view'.state = .cancelled) := by
  intro p p'
  rw [FindPromotionQuery.execute, PromotionRepository.find, FindPromotionQuery.execute,
    PromotionRepository.find]
  cases hf : p.table.find promotionId with
  | none => exact .inl ⟨rfl, Table.find_eq_none.1 hf⟩
  | some row =>
    right
    have hr := Table.find_some_mem hf
    have hid : row.id = promotionId := Table.find_some_key hf
    obtain ⟨pre, productExists, input, stamp, post, hevents, hok, hmade⟩ :=
      Promotions.created_of_reached hr
    refine ⟨pre, productExists, input, stamp, post, _, hevents, hok, hmade.id.symm.trans hid, ?_⟩
    obtain ⟨row', hr', hc⟩ := Promotions.continues_run hr later
    rw [← Promotions.reached_append] at hr'
    have hf' : p'.table.find promotionId = some row' := by
      rw [← hid, ← hc.id]
      exact p'.table.find_of_mem hr'
    rw [hf']
    have hle : now ≤ now + elapsed := Int.le_add_of_nonneg_right (Int.natCast_nonneg elapsed)
    refine ⟨_, _, rfl, rfl, hmade.createdWith hdates now, hc.columns newDate hle, ?_⟩
    intro hdraft hends hlater
    have hlapsed : p.Lapsed promotionId now := by
      refine ⟨row, hr, hid, hmade.endsAt.trans_le hends, ?_⟩
      rw [(row.state_draft now).1 hdraft]
      exact PromotionStatus.noConfusion
    obtain ⟨other, ho, hoid, _, hs⟩ := hlapsed.run hlater
    rw [← Promotions.reached_append] at ho
    obtain rfl : other = row' := p'.table.eq_of_key ho hr' (hoid.trans (hc.id.trans hid).symm)
    cases hstatus : other.status with
    | draft => exact .inl ((other.state_draft _).2 hstatus)
    | active => exact absurd hstatus hs
    | cancelled => exact .inr ((other.state_cancelled _).2 hstatus)

/-- A draft that is still without a target when its window is over. -/
def lapsedDraft : CreatePromotion :=
  ⟨['P'], .fixed, 500, 100000000, 200000000, none, none⟩

theorem promotion_history_lapsedDraft :
    let create : PromotionEvent := .insert (fun _ => true) lapsedDraft 0
    let cancel : PromotionEvent := .cancel 1 260000000
    ∃ view view',
      FindPromotionQuery.execute millis (.reached [create]) 250000000 1 = .ok view ∧
      FindPromotionQuery.execute millis (.reached [create, cancel]) 270000000 1 = .ok view' ∧
      view.Precedes view' ∧ view'.name = ['P'] ∧ view'.startsAt = 100000 ∧
      (view'.state = .draft ∨ view'.state = .cancelled) := by
  intro create cancel
  rcases promotion_history millis readsDates_millis [create] [cancel] 250000000 20000000 1 with
    ⟨_, hnone⟩ | ⟨pre, _, input, _, post, _, hevents, _, _, view, view', hview, hview', hcreated,
      hprecedes, hlapsed⟩
  · have hstored : Promotions.empty.inserted lapsedDraft 0 ∈
        (Promotions.reached [create]).table.rows := List.mem_singleton_self _
    exact absurd rfl (hnone _ hstored)
  · have hinput : input = lapsedDraft := by
      cases pre with
      | nil =>
        injection hevents with hcreate _
        injection hcreate with _ hinput _
        exact hinput.symm
      | cons _ pre =>
        injection hevents with _ hnil
        exact absurd hnil (List.append_ne_nil_of_right_ne_nil pre (List.cons_ne_nil _ _)).symm
    subst hinput
    have hwindow : year100 ≤ lapsedDraft.startsAt ∧ lapsedDraft.startsAt < year10000 := by decide
    have hdraft : view.state = .draft := by
      cases hview
      rfl
    refine ⟨view, view', hview, hview', hprecedes, hprecedes.name.trans hcreated.name,
      hprecedes.startsAt.trans (hcreated.startsAt hwindow.1 hwindow.2), ?_⟩
    apply hlapsed hdraft (by decide)
    intro event h
    rw [List.mem_singleton.1 h]
    decide

end PromotionManagement
