import PromotionManagement.AnnouncedBoundaries

namespace PromotionManagement
open Library PromotionScheduler
set_option autoImplicit true

/-- A boundary ahead of an active promotion is carried, and what is stale awaits an announcement, or
the call for it was lost. -/
structure Outstanding (skew : Int) (s : AnnouncedState) : Prop where
  orderly : Orderly s
  carried : ∀ p ∈ s.rows, p.status = .active → ∀ boundary, s.front.now < p.instant boundary →
    s.Carries skew p boundary ∨ s.Missed p boundary
  owed : ∀ id ∈ s.stale, ∃ p ∈ s.rows, p.id = id ∧ s.Awaits p

/-- A write is stamped before it commits, and its window is one that is read back as written. -/
def StorefrontState.Stamps (s : StorefrontState) : StorefrontEvent → Prop
  | .createPromotion input stamp =>
    stamp ≤ s.now ∧ PlainDate input.startsAt ∧ PlainDate input.endsAt
  | .assignPromotion _ _ stamp => stamp ≤ s.now
  | _ => True

namespace AnnouncedState

def Stamped (s : AnnouncedState) : AnnouncedEvent → Prop
  | .front e => s.front.Stamps e
  | _ => True

/-- The state after a write, which answers with the promotion if it made or left one. -/
def wrote (newDate : Int → Int) (skew : Int) (s : AnnouncedState)
    (written : Promotions × PromotionWriteOutcome) (stamp : Int) : AnnouncedState :=
  { s with
    front := { s.front with promotions := written.1 }
    asked := s.asked ++ written.2.asks newDate stamp (s.clock skew)
    stale := s.stale ++ written.2.running s.front.now }

theorem step_create (newDate : Int → Int) (engine : PromotionEngine) (skew : Int)
    (s : AnnouncedState) (input : CreatePromotion) (stamp : Int) :
    s.step newDate engine skew (.front (.createPromotion input stamp)) =
      s.wrote newDate skew (s.front.promotions.insert s.front.productExists input stamp) stamp := by
  have hwrites : (StorefrontEvent.createPromotion input stamp).writesPromotions = true := rfl
  rw [step, if_pos hwrites, StorefrontState.quiet, StorefrontState.step,
    StorefrontState.write_running]
  rfl

theorem step_assign (newDate : Int → Int) (engine : PromotionEngine) (skew : Int)
    (s : AnnouncedState) (promotionId : Nat) (target : AssignPromotion) (stamp : Int) :
    s.step newDate engine skew (.front (.assignPromotion promotionId target stamp)) =
      s.wrote newDate skew
        (s.front.promotions.assign s.front.productExists promotionId target stamp) stamp := by
  have hwrites : (StorefrontEvent.assignPromotion promotionId target stamp).writesPromotions =
    true := rfl
  rw [step, if_pos hwrites, StorefrontState.quiet, StorefrontState.step,
    StorefrontState.write_running]
  rfl

end AnnouncedState

theorem AnnouncedState.Awaits.of_same {s : AnnouncedState} {p q : PromotionRow} (h : s.Awaits p)
    (hid : q.id = p.id) (hinstant : ∀ boundary, q.instant boundary = p.instant boundary) :
    s.Awaits q := by
  simp only [AnnouncedState.Awaits, PromotionRow.AnnouncedBy, hid, hinstant]
  exact h

namespace PromotionWriteOutcome

variable {row : PromotionRow} {stamp since : Int}

theorem mem_asks (hactive : row.status = .active)
    (h : op ∈ dueJobs (row.view newDate) (stamp / 1000)) :
    ⟨op, since, false⟩ ∈ (ok row).asks newDate stamp since := by
  rw [asks, if_pos hactive]
  exact List.mem_map_of_mem h

theorem of_mem_asks (h : a ∈ (ok row).asks newDate stamp since) :
    row.status = .active ∧ a.cancels = false ∧
      ∃ options, a.operation = .publish row.id options := by
  rw [asks] at h
  split at h
  · rename_i hactive
    obtain ⟨op, hop, rfl⟩ := List.mem_map.1 h
    refine ⟨hactive, rfl, ?_⟩
    rw [dueJobs, List.mem_append, List.mem_cons] at hop
    rcases hop with hop | rfl | hop
    · split at hop
      · exact ⟨none, List.mem_singleton.1 hop⟩
      · exact absurd hop List.not_mem_nil
    · exact ⟨_, rfl⟩
    · split at hop
      · exact ⟨_, List.mem_singleton.1 hop⟩
      · exact absurd hop List.not_mem_nil
  · exact absurd h List.not_mem_nil

/-- The jobs asked for are of the two boundaries, each at most once. -/
theorem jobIds_asks (row : PromotionRow) (stamp since : Int) :
    (((ok row).asks newDate stamp since).filterMap Asked.jobId).Nodup ∧
      ∀ id ∈ ((ok row).asks newDate stamp since).filterMap Asked.jobId,
        ∃ boundary, id = jobId row.id boundary := by
  have hne : jobId row.id .expire ≠ jobId row.id .activate := by
    intro h
    cases (jobId_injective h).2
  rw [asks]
  split
  · by_cases hstarted : (row.view newDate).startsAt ≤ stamp / 1000
    · rw [dueJobs, if_pos hstarted, if_neg (not_lt.2 hstarted)]
      refine ⟨List.nodup_singleton _, fun id hid => ⟨.expire, List.mem_singleton.1 hid⟩⟩
    · rw [dueJobs, if_neg hstarted, if_pos (not_le.1 hstarted)]
      let view := row.view newDate
      have hids : ((([] ++ [QueueOperation.publish view.id
            (some (options view.id .expire view.endsAt (stamp / 1000))),
          .publish view.id (some (options view.id .activate view.startsAt (stamp / 1000)))]).map
          fun operation => (⟨operation, since, false⟩ : Asked)).filterMap Asked.jobId) =
          [jobId row.id .expire, jobId row.id .activate] := rfl
      rw [hids]
      refine ⟨List.nodup_cons.2 ⟨fun h => hne (List.mem_singleton.1 h), List.nodup_singleton _⟩,
        fun id hid => ?_⟩
      rcases List.mem_cons.1 hid with rfl | hid
      · exact ⟨.expire, rfl⟩
      · exact ⟨.activate, List.mem_singleton.1 hid⟩
  · exact ⟨List.nodup_nil, fun id hid => absurd hid List.not_mem_nil⟩

/-- A boundary after the stamp has its job asked for, with its delay. -/
theorem mem_dueJobs (hdates : ReadsDates newDate)
    (hplain : ∀ boundary, PlainDate (row.instant boundary))
    (hahead : stamp < row.instant boundary) :
    .publish row.id (some (options row.id boundary (newDate (row.instant boundary))
      (stamp / 1000))) ∈ dueJobs (row.view newDate) (stamp / 1000) := by
  rw [dueJobs, List.mem_append, List.mem_cons]
  cases boundary with
  | expire => exact .inr (.inl rfl)
  | activate =>
    have hlater : (row.view newDate).startsAt > stamp / 1000 := by
      have hback := (hplain .activate).readBack hdates
      change newDate row.startsAt > stamp / 1000
      rw [PromotionRow.instant] at hahead hback
      omega
    rw [if_pos hlater]
    exact .inr (.inr (List.mem_singleton_self _))

end PromotionWriteOutcome

theorem PromotionRow.instant_cancelled (stamp : Int) (p : PromotionRow)
    (boundary : PromotionBoundary) : (p.cancelled stamp).instant boundary = p.instant boundary := by
  cases boundary with
  | activate => rfl
  | expire => rfl

namespace Promotions

/-- A cancellation keeps each row, but for the status of the one it cancels. -/
theorem mem_cancel (promotions : Promotions) (promotionId : Nat) (stamp : Int) {p : PromotionRow}
    (hp : p ∈ promotions.table.rows) :
    ∃ q ∈ (promotions.cancel promotionId stamp).1.table.rows, q.id = p.id ∧
      (∀ boundary, q.instant boundary = p.instant boundary) ∧ (q = p ∨ q.status = .cancelled) := by
  rcases promotions.cancel_cases promotionId stamp with ⟨row, hf, hs, ht, _⟩ | ⟨hsame, _⟩
  · rw [ht]
    by_cases hid : p.id = promotionId
    · obtain rfl := Table.eq_of_find hf hp hid
      exact ⟨_, Table.set_mem_update hp hid (decide_eq_true hs), rfl, p.instant_cancelled stamp,
        .inr rfl⟩
    · exact ⟨p, Table.mem_update_of_not hp fun hk => hid hk.1, rfl, fun _ => rfl, .inl rfl⟩
  · rw [hsame]
    exact ⟨p, hp, rfl, fun _ => rfl, .inl rfl⟩

theorem of_mem_cancel {promotions : Promotions} {q : PromotionRow}
    (hq : q ∈ (promotions.cancel promotionId stamp).1.table.rows) :
    ∃ p ∈ promotions.table.rows, (∀ boundary, q.instant boundary = p.instant boundary) ∧
      (q = p ∨ q.status = .cancelled) := by
  rcases promotions.cancel_cases promotionId stamp with ⟨row, _, _, ht, _⟩ | ⟨hsame, _⟩
  · rw [ht] at hq
    rcases Table.mem_update_cases _ hq with hq | ⟨p, hp, _, _, rfl⟩
    · exact ⟨q, hq, fun _ => rfl, .inl rfl⟩
    · exact ⟨p, hp, p.instant_cancelled stamp, .inr rfl⟩
  · rw [hsame] at hq
    exact ⟨q, hq, fun _ => rfl, .inl rfl⟩

end Promotions

/-- A write makes a promotion, or leaves one that was a draft; nothing was asked of it before. -/
structure AnnouncedState.Makes (s : AnnouncedState) (promotions : Promotions) (row : PromotionRow) :
    Prop where
  mem : row ∈ promotions.table.rows
  plain : ∀ boundary, PlainDate (row.instant boundary)
  new : ∀ p ∈ promotions.table.rows, p = row ∨ p ∈ s.rows
  kept : ∀ p ∈ s.rows, p ∈ promotions.table.rows ∨ p.id = row.id ∧
    ∀ boundary, row.instant boundary = p.instant boundary
  draft : ∀ p ∈ s.rows, p.id = row.id → p.status = .draft

theorem Orderly.wrote {s : AnnouncedState} (h : Orderly s) (hmakes : s.Makes promotions row)
    (skew stamp : Int) : Orderly (s.wrote newDate skew (promotions, .ok row) stamp) := by
  obtain ⟨hdistinct, hids⟩ := PromotionWriteOutcome.jobIds_asks row stamp (s.clock skew)
  have honward : Onward s.rows promotions.table.rows := by
    intro p hp hd
    rcases hmakes.kept p hp with hold | ⟨hid, _⟩
    · exact ⟨p, hold, rfl, hd, id⟩
    · exact absurd (hmakes.draft p hp hid) hd
  have hmoved : Orderly
      { s with
        front := { s.front with promotions := promotions }
        stale := s.stale ++ (PromotionWriteOutcome.ok row).running s.front.now } := by
    refine h.move honward ?_ (List.Subset.refl _) (.refl _) ?_
    · intro p hp
      rcases hmakes.new p hp with rfl | hold
      · exact hmakes.plain
      · exact h.plain p hold
    · intro p hp hcancelled hid
      rcases List.mem_append.1 hid with hid | hid
      · exact hid
      · obtain ⟨_, hok, _, _, hid⟩ := PromotionWriteOutcome.mem_running hid
        cases hok
        rw [hmakes.draft p hp hid.symm] at hcancelled
        cases hcancelled
  refine hmoved.ask ((PromotionWriteOutcome.ok row).asks newDate stamp (s.clock skew)) hdistinct
    ?_ ?_ ?_
  · intro id hid
    obtain ⟨boundary, rfl⟩ := hids id hid
    obtain ⟨a, ha, _⟩ := List.mem_filterMap.1 hid
    obtain ⟨hactive, _⟩ := PromotionWriteOutcome.of_mem_asks ha
    refine ⟨fun hold => ?_, row, hmakes.mem, by rw [hactive]; decide, boundary, rfl⟩
    obtain ⟨p, hp, hd, boundary', heq⟩ := h.scheduled _ hold
    exact hd (hmakes.draft p hp (jobId_injective heq).1.symm)
  · intro a ha hcancels
    rw [(PromotionWriteOutcome.of_mem_asks ha).2.1] at hcancels
    cases hcancels
  · intro a ha id hop
    obtain ⟨_, _, options, hpublish⟩ := PromotionWriteOutcome.of_mem_asks ha
    rw [hop] at hpublish
    cases hpublish

/-- A promotion is cancelled, and its announcement asked for. -/
theorem Orderly.cancel {s : AnnouncedState} {front : StorefrontState} (h : Orderly s)
    (hpromotions : front.promotions = (s.front.promotions.cancel promotionId stamp).1)
    (hmem : row ∈ s.rows) (hs : row.status ≠ .cancelled)
    (hcancelled : row.cancelled stamp ∈ front.promotions.table.rows) (since : Int) :
    Orderly
      { s with
        front := front
        asked := s.asked ++ [⟨.publish row.id none, since, true⟩]
        stale := s.stale ++ [row.id] } := by
  have hmoved : Orderly { s with front := front, stale := s.stale ++ [row.id] } := by
    refine h.move ?_ ?_ (List.Subset.refl _) (.refl _) ?_
    · intro p hp hd
      obtain ⟨q, hq, hqi, _, hqc⟩ := s.front.promotions.mem_cancel promotionId stamp hp
      rw [← hpromotions] at hq
      rcases hqc with rfl | hqc
      · exact ⟨q, hq, hqi, hd, id⟩
      · exact ⟨q, hq, hqi, ne_draft_of_cancelled hqc, fun _ => hqc⟩
    · intro q hq boundary
      rw [AnnouncedState.rows, hpromotions] at hq
      obtain ⟨p, hp, hinstant, _⟩ := Promotions.of_mem_cancel hq
      rw [hinstant]
      exact h.plain p hp boundary
    · intro p hp hpc hid
      rcases List.mem_append.1 hid with hid | hid
      · exact hid
      · rw [s.front.promotions.table.eq_of_key hp hmem (List.mem_singleton.1 hid)] at hpc
        exact absurd hpc hs
  refine hmoved.ask [⟨.publish row.id none, since, true⟩] List.nodup_nil
    (fun id hid => absurd hid List.not_mem_nil) ?_ ?_
  · intro a ha _ id hop
    obtain rfl := List.mem_singleton.1 ha
    cases hop
    exact ⟨row.cancelled stamp, hcancelled, rfl, rfl⟩
  · intro a ha id hop
    obtain rfl := List.mem_singleton.1 ha
    cases hop

namespace Outstanding

variable {skew : Int} {s s' : AnnouncedState} {engine : PromotionEngine}

theorem initial (skew now : Int) : Outstanding skew (.initial now) where
  orderly := .initial now
  carried _ hp := absurd hp List.not_mem_nil
  owed _ hid := absurd hid List.not_mem_nil

/-- What is asked, delayed and lost stays so, and no row goes. -/
theorem grow (h : Outstanding skew s) (horderly : Orderly s')
    (hnow : s.front.now ≤ s'.front.now) (hasked : s.asked ⊆ s'.asked)
    (hdelayed : s.delayed ⊆ s'.delayed) (hlost : s.lost ⊆ s'.lost)
    (hrows : ∀ p ∈ s.rows, ∃ q ∈ s'.rows, q.id = p.id ∧
      ∀ boundary, q.instant boundary = p.instant boundary)
    (hactive : ∀ p ∈ s'.rows, p.status = .active → p ∈ s.rows ∨
      ∀ boundary, s'.front.now < p.instant boundary →
        s'.Carries skew p boundary ∨ s'.Missed p boundary)
    (hstale : ∀ id ∈ s'.stale, id ∈ s.stale ∨ ∃ p ∈ s'.rows, p.id = id ∧ s'.Awaits p) :
    Outstanding skew s' where
  orderly := horderly
  carried p hp hstatus boundary hahead := by
    rcases hactive p hp hstatus with hold | hnew
    · rcases h.carried p hold hstatus boundary (hnow.trans_lt hahead) with hc | ⟨a, ha, hm⟩
      · exact .inl (hc.mono hasked hdelayed)
      · exact .inr ⟨a, hlost ha, hm⟩
    · exact hnew boundary hahead
  owed id hid := by
    rcases hstale id hid with hold | hnew
    · obtain ⟨p, hp, rfl, hawaits⟩ := h.owed id hold
      obtain ⟨q, hq, hqi, hinstant⟩ := hrows p hp
      exact ⟨q, hq, hqi, (hawaits.mono hnow hasked hdelayed hlost).of_same hqi hinstant⟩
    · exact hnew

/-- The clock and the rows stay as they are, and nothing becomes stale. -/
theorem keep (h : Outstanding skew s) (horderly : Orderly s') (hnow : s'.front.now = s.front.now)
    (hrows : s'.rows = s.rows) (hstale : s'.stale ⊆ s.stale)
    (hcarries : ∀ p ∈ s.rows, p.status = .active → ∀ boundary, s.front.now < p.instant boundary →
      s.Carries skew p boundary ∨ s.Missed p boundary →
      s'.Carries skew p boundary ∨ s'.Missed p boundary)
    (hawaits : ∀ p ∈ s.rows, p.id ∈ s'.stale → s.Awaits p → s'.Awaits p) :
    Outstanding skew s' where
  orderly := horderly
  carried p hp hstatus boundary hahead := by
    rw [hrows] at hp
    rw [hnow] at hahead
    exact hcarries p hp hstatus boundary hahead (h.carried p hp hstatus boundary hahead)
  owed id hid := by
    obtain ⟨p, hp, rfl, hold⟩ := h.owed id (hstale hid)
    rw [hrows]
    exact ⟨p, hp, rfl, hawaits p hp hid hold⟩

/-- Nothing changes but the storefront, and not its promotions. -/
theorem same (h : Outstanding skew s) (hnow : s'.front.now = s.front.now) (hrows : s'.rows = s.rows)
    (hqueue : s' = { s with front := s'.front }) : Outstanding skew s' := by
  rw [hqueue] at hrows ⊢
  have horderly : Orderly { s with front := s'.front } := by
    refine h.orderly.move ?_ ?_ (List.Subset.refl _) (.refl _) fun _ _ _ hid => hid
    · rw [hrows]
      exact .refl s.rows
    · rw [hrows]
      exact h.orderly.plain
  refine h.grow horderly hnow.ge (List.Subset.refl _) (List.Subset.refl _) (List.Subset.refl _)
    ?_ ?_ fun id hid => .inl hid
  · rw [hrows]
    exact fun p hp => ⟨p, hp, rfl, fun _ => rfl⟩
  · rw [hrows]
    exact fun p hp _ => .inl hp

theorem clock (h : Outstanding skew s) (engine : PromotionEngine) (now : Int) :
    Outstanding skew (s.step newDate engine skew (.front (.clock now))) := by
  have hasked : (s.step newDate engine skew (.front (.clock now))).asked = s.asked :=
    List.append_nil _
  have hnow : s.front.now ≤ (s.step newDate engine skew (.front (.clock now))).front.now :=
    le_max_left s.front.now now
  have hcrossed {id : Nat} (hid : id ∈ s.front.repriced (.clock now)) :
      ∃ p ∈ s.rows, p.id = id ∧ p.status = .active ∧ ∃ boundary, s.front.now < p.instant boundary ∧
        p.instant boundary ≤ (s.step newDate engine skew (.front (.clock now))).front.now := by
    obtain ⟨p, hp, rfl⟩ := List.mem_map.1 hid
    obtain ⟨hp, hboundary⟩ := List.mem_filter.1 hp
    simp only [PromotionRow.hasBoundary, Bool.and_eq_true, Bool.or_eq_true, decide_eq_true_iff]
      at hboundary
    obtain ⟨hstatus, hboundary⟩ := hboundary
    refine ⟨p, hp, rfl, hstatus, ?_⟩
    rcases hboundary with hstart | hend
    · exact ⟨.activate, hstart⟩
    · exact ⟨.expire, hend⟩
  have horderly : Orderly (s.step newDate engine skew (.front (.clock now))) := by
    refine h.orderly.move (.refl _) h.orderly.plain (fun a ha => hasked ▸ ha) ?_ ?_
    · rw [AnnouncedState.ids, hasked]
      exact .refl _
    · intro p hp hcancelled hid
      rcases List.mem_append.1 hid with hid | hid
      · exact hid
      · obtain ⟨q, hq, hqi, hactive, _⟩ := hcrossed hid
        rw [s.front.promotions.table.eq_of_key hq hp hqi, hcancelled] at hactive
        cases hactive
  refine h.grow horderly hnow (fun a ha => hasked.symm ▸ ha) (List.Subset.refl _)
    (List.Subset.refl _) (fun p hp => ⟨p, hp, rfl, fun _ => rfl⟩) (fun p hp _ => .inl hp) ?_
  intro id hid
  rcases List.mem_append.1 hid with hid | hid
  · exact .inl hid
  · right
    obtain ⟨p, hp, rfl, hactive, boundary, hahead, hpassed⟩ := hcrossed hid
    have hcarried : (s.step newDate engine skew (.front (.clock now))).Carries skew p boundary ∨
        (s.step newDate engine skew (.front (.clock now))).Missed p boundary := by
      rcases h.carried p hp hactive boundary hahead with hc | hm
      · exact .inl (hc.mono (fun a ha => hasked.symm ▸ ha) (List.Subset.refl _))
      · exact .inr hm
    exact ⟨p, hp, rfl, AnnouncedState.awaits_of_carried hcarried hpassed⟩

theorem wrote (h : Outstanding skew s) (hdates : ReadsDates newDate)
    (hmakes : s.Makes promotions row) (hstamp : stamp ≤ s.front.now) :
    Outstanding skew (s.wrote newDate skew (promotions, .ok row) stamp) := by
  have hcarries {boundary : PromotionBoundary} (hactive : row.status = .active)
      (hahead : stamp < row.instant boundary) :
      (s.wrote newDate skew (promotions, .ok row) stamp).Carries skew row boundary := by
    have hop := PromotionWriteOutcome.mem_dueJobs hdates hmakes.plain hahead
    refine .inl ⟨_, List.mem_append_right _ (PromotionWriteOutcome.mem_asks hactive hop), _, rfl,
      rfl, ?_⟩
    have hback := (hmakes.plain boundary).readBack hdates
    simp only [PromotionScheduler.options, AnnouncedState.clock]
    omega
  refine h.grow (h.orderly.wrote hmakes skew stamp) (Int.le_refl s.front.now)
    (List.subset_append_left _ _) (List.Subset.refl _) (List.Subset.refl _) ?_ ?_ ?_
  · intro p hp
    rcases hmakes.kept p hp with hold | ⟨hid, hinstant⟩
    · exact ⟨p, hold, rfl, fun _ => rfl⟩
    · exact ⟨row, hmakes.mem, hid.symm, hinstant⟩
  · intro p hp hactive
    rcases hmakes.new p hp with rfl | hold
    · exact .inr fun boundary hahead => .inl (hcarries hactive (hstamp.trans_lt hahead))
    · exact .inl hold
  · intro id hid
    rcases List.mem_append.1 hid with hid | hid
    · exact .inl hid
    · right
      obtain ⟨_, hok, hactive, hstarted, rfl⟩ := PromotionWriteOutcome.mem_running hid
      cases hok
      refine ⟨row, hmakes.mem, rfl, ?_⟩
      by_cases hrunning : row.instant .activate ≤ stamp
      · have hop : .publish row.id none ∈ dueJobs (row.view newDate) (stamp / 1000) := by
          have hview : (row.view newDate).startsAt ≤ stamp / 1000 := by
            have hback := (hmakes.plain .activate).readBack hdates
            change newDate row.startsAt ≤ stamp / 1000
            rw [PromotionRow.instant] at hrunning hback
            omega
          rw [dueJobs, if_pos hview]
          exact List.mem_append_left _ (List.mem_singleton_self _)
        have hmem : ⟨.publish row.id none, s.clock skew, false⟩ ∈
            (PromotionWriteOutcome.ok row).asks newDate stamp (s.clock skew) :=
          PromotionWriteOutcome.mem_asks hactive hop
        exact .inl ⟨_, List.mem_append_right _ hmem, .inl rfl⟩
      · -- It began between the stamp of its write and its commit.
        have hcarried := hcarries hactive (not_le.1 hrunning)
        exact AnnouncedState.awaits_of_carried (.inl hcarried) hstarted

theorem refused (h : Outstanding skew s) {written : Promotions × PromotionWriteOutcome}
    (htable : written.1.table = s.front.promotions.table) (hnone : ∀ row, written.2 ≠ .ok row) :
    Outstanding skew (s.wrote newDate skew written stamp) := by
  obtain ⟨promotions, outcome⟩ := written
  have hasks : outcome.asks newDate stamp (s.clock skew) = [] := by
    cases outcome with
    | ok row => exact absurd rfl (hnone row)
    | _ => rfl
  have hrunning : outcome.running s.front.now = [] := by
    cases outcome with
    | ok row => exact absurd rfl (hnone row)
    | _ => rfl
  apply h.same
  · rfl
  · exact congrArg Table.rows htable
  · rw [AnnouncedState.wrote, hasks, hrunning, List.append_nil, List.append_nil]

theorem create (h : Outstanding skew s) (hdates : ReadsDates newDate)
    (engine : PromotionEngine) {input : CreatePromotion}
    (hstamps : s.front.Stamps (.createPromotion input stamp)) :
    Outstanding skew (s.step newDate engine skew (.front (.createPromotion input stamp))) := by
  obtain ⟨hstamp, hstart, hend⟩ := hstamps
  rw [AnnouncedState.step_create]
  rcases s.front.promotions.insert_cases s.front.productExists input stamp with
    ⟨hf, _, hi⟩ | ⟨ht, hn⟩
  · rw [hi]
    refine h.wrote hdates ⟨?_, ?_, ?_, ?_, ?_⟩ hstamp
    · exact (Table.mem_insert _ _ hf).2 (.inr rfl)
    · intro boundary
      cases boundary with
      | activate => exact hstart
      | expire => exact hend
    · intro p hp
      exact ((Table.mem_insert _ _ hf).1 hp).symm
    · intro p hp
      exact .inl ((Table.mem_insert _ _ hf).2 (.inl hp))
    · intro p hp hid
      exact absurd hid (Table.find_eq_none.1 hf p hp)
  · exact h.refused ht hn

theorem assign (h : Outstanding skew s) (hdates : ReadsDates newDate)
    (engine : PromotionEngine) {target : AssignPromotion}
    (hstamps : s.front.Stamps (.assignPromotion promotionId target stamp)) :
    Outstanding skew
      (s.step newDate engine skew (.front (.assignPromotion promotionId target stamp))) := by
  rw [AnnouncedState.step_assign]
  rcases s.front.promotions.assign_cases s.front.productExists promotionId target stamp with
    ⟨row, hf, hd, hlt, _, ht, ho⟩ | ⟨ht, hn⟩
  · have hpair : s.front.promotions.assign s.front.productExists promotionId target stamp =
        ((s.front.promotions.assign s.front.productExists promotionId target stamp).1,
          .ok (row.assigned target)) := by
      rw [← ho]
    have hguard : (row.status = .draft && stamp < row.endsAt) = true := by
      rw [Bool.and_eq_true, decide_eq_true_iff, decide_eq_true_iff]
      exact ⟨hd, hlt⟩
    have hkey := Table.find_some_key hf
    rw [hpair]
    refine h.wrote hdates ⟨?_, ?_, ?_, ?_, ?_⟩ hstamps
    · rw [ht]
      exact Table.set_mem_update (Table.find_some_mem hf) hkey hguard
    · exact h.orderly.plain row (Table.find_some_mem hf)
    · intro p hp
      rw [ht] at hp
      obtain ⟨q, hq, rfl⟩ := Table.mem_update.1 hp
      split
      · rename_i hk
        left
        rw [Table.eq_of_find hf hq hk.1]
      · exact .inr hq
    · intro p hp
      by_cases hid : p.id = promotionId
      · right
        rw [Table.eq_of_find hf hp hid]
        exact ⟨rfl, fun _ => rfl⟩
      · left
        rw [ht]
        exact Table.mem_update_of_not hp fun hk => hid hk.1
    · intro p hp hid
      rw [Table.eq_of_find hf hp (hid.trans hkey)]
      exact hd
  · apply h.refused _ hn
    rw [ht]

theorem cancel (h : Outstanding skew s) (engine : PromotionEngine) (promotionId : Nat)
    (stamp : Int) : Outstanding skew
      (s.step newDate engine skew (.front (.cancelPromotion promotionId stamp))) := by
  have hwrites : (StorefrontEvent.cancelPromotion promotionId stamp).writesPromotions = true := rfl
  rw [AnnouncedState.step, if_pos hwrites]
  rcases s.front.promotions.cancel_cases promotionId stamp with ⟨row, hf, hs, ht, ho⟩ | ⟨hsame, hn⟩
  · have hasks : s.front.asks newDate (s.clock skew) (.cancelPromotion promotionId stamp) =
        [⟨.publish row.id none, s.clock skew, true⟩] := by
      rw [StorefrontState.asks, ho]
      rfl
    have hrepriced : s.front.repriced (.cancelPromotion promotionId stamp) = [row.id] := by
      rw [StorefrontState.repriced, ho]
      rfl
    rw [hasks, hrepriced]
    have hmem := Table.find_some_mem hf
    have hkey := Table.find_some_key hf
    let front := s.front.quiet engine (.cancelPromotion promotionId stamp)
    have hcancelled : row.cancelled stamp ∈ front.promotions.table.rows := by
      change _ ∈ (s.front.promotions.cancel promotionId stamp).1.table.rows
      rw [ht]
      exact Table.set_mem_update hmem hkey (decide_eq_true hs)
    have horderly : Orderly
        { s with
          front := front
          asked := s.asked ++ [⟨.publish row.id none, s.clock skew, true⟩]
          stale := s.stale ++ [row.id] } :=
      h.orderly.cancel rfl hmem hs hcancelled (s.clock skew)
    refine h.grow horderly (Int.le_refl s.front.now) (List.subset_append_left _ _)
      (List.Subset.refl _) (List.Subset.refl _) ?_ ?_ ?_
    · intro p hp
      obtain ⟨q, hq, hqi, hinstant, _⟩ := s.front.promotions.mem_cancel promotionId stamp hp
      exact ⟨q, hq, hqi, hinstant⟩
    · intro q hq hactive
      obtain ⟨p, hp, _, rfl | hqc⟩ := Promotions.of_mem_cancel hq
      · exact .inl hp
      · rw [hqc] at hactive
        cases hactive
    · intro id hid
      rcases List.mem_append.1 hid with hid | hid
      · exact .inl hid
      · obtain rfl := List.mem_singleton.1 hid
        right
        have hasked := List.mem_append_right s.asked
          (List.mem_singleton_self (⟨.publish row.id none, s.clock skew, true⟩ : Asked))
        exact ⟨row.cancelled stamp, hcancelled, rfl, .inl ⟨_, hasked, .inl rfl⟩⟩
  · have hnone : s.front.asks newDate (s.clock skew) (.cancelPromotion promotionId stamp) = [] ∧
        s.front.repriced (.cancelPromotion promotionId stamp) = [] := by
      rw [StorefrontState.asks, StorefrontState.repriced]
      cases ho : (s.front.promotions.cancel promotionId stamp).2 with
      | none => exact ⟨rfl, rfl⟩
      | some answer =>
        obtain ⟨row, _ | _⟩ := answer
        · exact ⟨rfl, rfl⟩
        · exact absurd ho (hn row)
    rw [hnone.1, hnone.2, List.append_nil, List.append_nil]
    apply h.same
    · rfl
    · exact congrArg (fun p : Promotions => p.table.rows) hsame
    · rfl

end Outstanding

end PromotionManagement
