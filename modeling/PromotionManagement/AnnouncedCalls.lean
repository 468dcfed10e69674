import PromotionManagement.AnnouncedWrites

namespace PromotionManagement
open Library PromotionScheduler
set_option autoImplicit true

namespace Outstanding

variable {skew : Int} {s s' : AnnouncedState} {engine : PromotionEngine}

/-- A call is lost. -/
theorem lose (h : Outstanding skew s) (engine : PromotionEngine) (position : Nat) :
    Outstanding skew (s.step newDate engine skew (.lose position)) := by
  rw [AnnouncedState.step]
  cases hget : s.asked[position]? with
  | none => exact h
  | some lost =>
    have horderly : Orderly
        { s with asked := s.asked.eraseIdx position, lost := s.lost ++ [lost] } := by
      have herase := h.orderly.erase position
      exact ⟨herase.plain, herase.distinct, herase.scheduled, herase.cancels, herase.removals⟩
    have hlast : lost ∈ s.lost ++ [lost] := List.mem_append_right _ (List.mem_singleton_self _)
    apply h.keep horderly rfl rfl (List.Subset.refl _)
    · rintro p _ _ boundary _ ((⟨a, ha, options, hop, hid, hle⟩ | hjob) | ⟨a, ha, hmissed⟩)
      · rcases mem_eraseIdx_or hget ha with rfl | ha
        · exact .inr ⟨a, hlast, options, hop, hid⟩
        · exact .inl (.inl ⟨a, ha, options, hop, hid, hle⟩)
      · exact .inl (.inr hjob)
      · exact .inr ⟨a, List.mem_append_left _ ha, hmissed⟩
    · rintro p _ _ (⟨a, ha, hannounced⟩ | hjob | ⟨a, ha, hannounced⟩)
      · rcases mem_eraseIdx_or hget ha with rfl | ha
        · exact .inr (.inr ⟨a, hlast, hannounced⟩)
        · exact .inl ⟨a, ha, hannounced⟩
      · exact .inr (.inl hjob)
      · exact .inr (.inr ⟨a, List.mem_append_left _ ha, hannounced⟩)

/-- A worker takes a job that is due. -/
theorem take (h : Outstanding skew s) (engine : PromotionEngine) (position : Nat) :
    Outstanding skew (s.step newDate engine skew (.take position)) := by
  rw [AnnouncedState.step]
  cases hget : s.delayed[position]? with
  | none => exact h
  | some taken =>
    dsimp only
    split
    · rename_i hdue
      have horderly : Orderly ({ s with delayed := s.delayed.eraseIdx position }.announce
          taken.promotionId) := by
        refine h.orderly.move (.refl _) h.orderly.plain (List.Subset.refl _) (.refl _) ?_
        exact fun p _ _ hid => (List.mem_filter.1 hid).1
      apply h.keep horderly rfl rfl
      · exact fun id hid => (List.mem_filter.1 hid).1
      · rintro p _ _ boundary hahead ((hasked | ⟨job, hjob, hid, hjid, hle⟩) | hmissed)
        · exact .inl (.inl hasked)
        · rcases mem_eraseIdx_or hget hjob with rfl | hjob
          · rw [AnnouncedState.clock] at hdue
            omega
          · exact .inl (.inr ⟨job, hjob, hid, hjid, hle⟩)
        · exact .inr hmissed
      · rintro p _ hstale (hasked | ⟨job, hjob, hid, hpassed⟩ | hlost)
        · exact .inl hasked
        · rcases mem_eraseIdx_or hget hjob with rfl | hjob
          · have hne := of_decide_eq_true (List.mem_filter.1 hstale).2
            exact absurd (List.mem_singleton.2 hid.symm) hne
          · exact .inr (.inl ⟨job, hjob, hid, hpassed⟩)
        · exact .inr (.inr hlost)
    · exact h

theorem forget (h : Outstanding skew s) (engine : PromotionEngine) (jobId : Text) :
    Outstanding skew (s.step newDate engine skew (.forget jobId)) := by
  rw [AnnouncedState.step]
  split
  · exact h
  · have horderly : Orderly { s with held := s.forget jobId } := by
      refine h.orderly.move (.refl _) h.orderly.plain (List.Subset.refl _) ?_
        fun _ _ _ hid => hid
      exact List.filter_sublist.append_left (s.asked.filterMap Asked.jobId)
    exact h.keep horderly rfl rfl (List.Subset.refl _) (fun _ _ _ _ _ hc => hc)
      fun _ _ _ hawaits => hawaits

section
variable {position : Nat} {asked : Asked}

/-- A call that announces a promotion at once lands. -/
theorem announce (h : Outstanding skew s) (hget : s.asked[position]? = some asked)
    (hop : asked.operation = .publish promotionId none) :
    Outstanding skew
      ({ s with asked := s.asked.eraseIdx position }.announce promotionId) := by
  have horderly : Orderly ({ s with asked := s.asked.eraseIdx position }.announce promotionId) := by
    have herase := h.orderly.erase position
    refine herase.move (.refl _) herase.plain (List.Subset.refl _) (.refl _) ?_
    exact fun p _ _ hid => (List.mem_filter.1 hid).1
  apply h.keep horderly rfl rfl
  · exact fun id hid => (List.mem_filter.1 hid).1
  · rintro p _ _ boundary _ ((⟨a, ha, options, hpublish, hcarries⟩ | hjob) | hmissed)
    · rcases mem_eraseIdx_or hget ha with rfl | ha
      · cases hop.symm.trans hpublish
      · exact .inl (.inl ⟨a, ha, options, hpublish, hcarries⟩)
    · exact .inl (.inr hjob)
    · exact .inr hmissed
  · rintro p _ hstale (⟨a, ha, hannounced⟩ | hjob | hlost)
    · rcases mem_eraseIdx_or hget ha with rfl | ha
      · have hne := of_decide_eq_true (List.mem_filter.1 hstale).2
        rcases hannounced with hpublish | ⟨_, options, _, hpublish, _⟩
        · cases hop.symm.trans hpublish
          exact absurd (List.mem_singleton_self p.id) hne
        · cases hop.symm.trans hpublish
      · exact .inl ⟨a, ha, hannounced⟩
    · exact .inr (.inl hjob)
    · exact .inr (.inr hlost)

/-- A cancellation that is announced has its removals asked for. -/
theorem cancelled (h : Outstanding skew s) (hget : s.asked[position]? = some asked)
    (hop : asked.operation = .publish promotionId none) (hcancels : asked.cancels = true) :
    Outstanding skew
      { { s with asked := s.asked.eraseIdx position }.announce promotionId with
        asked := s.asked.eraseIdx position ++
          AnnouncedState.removals promotionId (s.clock skew) } := by
  have hannounced := h.announce hget hop
  obtain ⟨p, hp, rfl, hcancelled⟩ :=
    h.orderly.cancels asked (List.mem_of_getElem? hget) hcancels promotionId hop
  have horderly := hannounced.orderly.ask (AnnouncedState.removals p.id (s.clock skew))
    List.nodup_nil (fun id hid => absurd hid List.not_mem_nil)
    (by
      intro a ha hcancels
      rcases List.mem_cons.1 ha with rfl | ha
      · cases hcancels
      · obtain rfl := List.mem_singleton.1 ha
        cases hcancels)
    (by
      have hfresh : p.id ∉ ({ s with asked := s.asked.eraseIdx position }.announce p.id).stale :=
        fun hid => of_decide_eq_true (List.mem_filter.1 hid).2 (List.mem_singleton_self p.id)
      intro a ha id hremove
      refine ⟨p, hp, hcancelled, hfresh, ?_⟩
      rcases List.mem_cons.1 ha with rfl | ha
      · cases hremove
        exact ⟨.activate, rfl⟩
      · obtain rfl := List.mem_singleton.1 ha
        cases hremove
        exact ⟨.expire, rfl⟩)
  exact hannounced.grow horderly (Int.le_refl s.front.now) (List.subset_append_left _ _)
    (List.Subset.refl _) (List.Subset.refl _) (fun p hp => ⟨p, hp, rfl, fun _ => rfl⟩)
    (fun p hp _ => .inl hp) fun id hid => .inl hid

/-- A call for a delayed job lands: its id is new to the queue, which takes the job. -/
theorem schedule {options : JobsOptions} (h : Outstanding skew s)
    (hget : s.asked[position]? = some asked)
    (hop : asked.operation = .publish promotionId (some options))
    (hstarted : asked.since ≤ startedAt) : Outstanding skew
      ({ s with asked := s.asked.eraseIdx position }.schedule startedAt promotionId options) := by
  have hjob : asked.jobId = some options.jobId := by rw [Asked.jobId, hop]
  have hfree : (s.held.any fun id => id = options.jobId) = false := by
    rw [List.any_eq_false]
    intro id hid heq
    exact h.orderly.not_mem_held hget hjob (of_decide_eq_true heq ▸ hid)
  have hschedule : { s with asked := s.asked.eraseIdx position }.schedule startedAt promotionId
      options =
        { s with
          asked := s.asked.eraseIdx position
          delayed := s.delayed ++ [⟨options.jobId, promotionId, startedAt + options.delay⟩]
          held := options.jobId :: s.held } := by
    rw [AnnouncedState.schedule, hfree]
    rfl
  rw [hschedule]
  have hlast : (⟨options.jobId, promotionId, startedAt + options.delay⟩ : QueuedJob) ∈
      s.delayed ++ [⟨options.jobId, promotionId, startedAt + options.delay⟩] :=
    List.mem_append_right _ (List.mem_singleton_self _)
  have horderly := h.orderly.schedule hget hjob
    ⟨options.jobId, promotionId, startedAt + options.delay⟩
  apply h.keep horderly rfl rfl (List.Subset.refl _)
  · rintro p _ _ boundary _ ((⟨a, ha, o, hpublish, hid, hle⟩ | ⟨job, hjob, hcarries⟩) | hmissed)
    · rcases mem_eraseIdx_or hget ha with rfl | ha
      · cases hop.symm.trans hpublish
        refine .inl (.inr ⟨_, hlast, rfl, hid, ?_⟩)
        dsimp only
        omega
      · exact .inl (.inl ⟨a, ha, o, hpublish, hid, hle⟩)
    · exact .inl (.inr ⟨job, List.mem_append_left _ hjob, hcarries⟩)
    · exact .inr hmissed
  · rintro p _ _ (⟨a, ha, hannounced⟩ | ⟨job, hjob, hpassed⟩ | hlost)
    · rcases mem_eraseIdx_or hget ha with rfl | ha
      · rcases hannounced with hpublish | ⟨boundary, o, hpassed, hpublish, hid⟩
        · cases hop.symm.trans hpublish
        · cases hop.symm.trans hpublish
          exact .inr (.inl ⟨_, hlast, rfl, boundary, hid, hpassed⟩)
      · exact .inl ⟨a, ha, hannounced⟩
    · exact .inr (.inl ⟨job, List.mem_append_left _ hjob, hpassed⟩)
    · exact .inr (.inr hlost)

/-- A removal lands, of a job that nothing stale awaits. -/
theorem remove {id : Text} (h : Outstanding skew s) (hget : s.asked[position]? = some asked)
    (hop : asked.operation = .remove id) :
    Outstanding skew ({ s with asked := s.asked.eraseIdx position }.remove id) := by
  obtain ⟨q, hq, hcancelled, hfresh, boundary', rfl⟩ :=
    h.orderly.removals asked (List.mem_of_getElem? hget) id hop
  have horderly : Orderly ({ s with asked := s.asked.eraseIdx position }.remove
      (jobId q.id boundary')) := by
    have herase := h.orderly.erase position
    refine herase.move (.refl _) herase.plain (List.Subset.refl _) ?_ fun _ _ _ hid => hid
    apply List.Sublist.append_left
    rw [AnnouncedState.remove]
    dsimp only
    split
    · exact List.filter_sublist
    · exact .refl _
  have hother {p : PromotionRow} {job : QueuedJob} {boundary : PromotionBoundary}
      (hp : p ∈ s.rows) (hjob : job ∈ s.delayed) (hjid : job.jobId = jobId p.id boundary)
      (hne : p ≠ q) :
      job ∈ s.delayed.filter fun job => job.jobId ≠ jobId q.id boundary' := by
    refine List.mem_filter.2 ⟨hjob, decide_eq_true ?_⟩
    intro heq
    have hid := (jobId_injective (hjid.symm.trans heq)).1
    exact hne (s.front.promotions.table.eq_of_key hp hq hid)
  apply h.keep horderly rfl rfl (List.Subset.refl _)
  · rintro p hp hactive boundary _ ((⟨a, ha, o, hpublish, hc⟩ | ⟨job, hjob, hid, hjid, hle⟩) | hm)
    · rcases mem_eraseIdx_or hget ha with rfl | ha
      · cases hop.symm.trans hpublish
      · exact .inl (.inl ⟨a, ha, o, hpublish, hc⟩)
    · refine .inl (.inr ⟨job, hother hp hjob hjid ?_, hid, hjid, hle⟩)
      rintro rfl
      rw [hcancelled] at hactive
      cases hactive
    · exact .inr hm
  · rintro p hp hstale (⟨a, ha, hannounced⟩ | ⟨job, hjob, hid, boundary, hjid, hpassed⟩ | hlost)
    · rcases mem_eraseIdx_or hget ha with rfl | ha
      · rcases hannounced with hpublish | ⟨_, o, _, hpublish, _⟩
        · cases hop.symm.trans hpublish
        · cases hop.symm.trans hpublish
      · exact .inl ⟨a, ha, hannounced⟩
    · refine .inr (.inl ⟨job, hother hp hjob hjid ?_, hid, boundary, hjid, hpassed⟩)
      rintro rfl
      exact hfresh hstale
    · exact .inr (.inr hlost)

end

theorem land (h : Outstanding skew s) (engine : PromotionEngine) (position : Nat) (startedAt : Int)
    (confirmed : Bool) :
    Outstanding skew (s.step newDate engine skew (.land position startedAt confirmed)) := by
  rw [AnnouncedState.step]
  cases hget : s.asked[position]? with
  | none => exact h
  | some asked =>
    dsimp only
    split
    · rename_i hstarted
      rw [AnnouncedState.land]
      cases hop : asked.operation with
      | publish promotionId options =>
        cases options with
        | none =>
          dsimp only
          split
          · rename_i hconfirmed
            rw [Bool.and_eq_true] at hconfirmed
            exact h.cancelled hget hop hconfirmed.1
          · exact h.announce hget hop
        | some options => exact h.schedule hget hop hstarted.1
      | remove id => exact h.remove hget hop
    · exact h

theorem step (h : Outstanding skew s) (hdates : ReadsDates newDate) (engine : PromotionEngine)
    {e : AnnouncedEvent} (hstamped : s.Stamped e) :
    Outstanding skew (s.step newDate engine skew e) := by
  cases e with
  | front e =>
    cases hwrites : e.writesPromotions with
    | false =>
      have hstep : s.step newDate engine skew (.front e) =
          { s with front := s.front.step engine e } := by
        rw [AnnouncedState.step, hwrites, if_neg Bool.false_ne_true]
      obtain ⟨hnow, hpromotions⟩ := StorefrontState.promotions_kept engine s.front hwrites
      rw [hstep]
      exact h.same hnow (congrArg (fun p : Promotions => p.table.rows) hpromotions) rfl
    | true =>
      cases e with
      | clock now => exact h.clock engine now
      | createPromotion input stamp => exact h.create hdates engine hstamped
      | assignPromotion promotionId target stamp => exact h.assign hdates engine hstamped
      | cancelPromotion promotionId stamp => exact h.cancel engine promotionId stamp
      | _ => cases hwrites
  | land position startedAt confirmed => exact h.land engine position startedAt confirmed
  | lose position => exact h.lose engine position
  | take position => exact h.take engine position
  | forget jobId => exact h.forget engine jobId

end Outstanding

end PromotionManagement
