import PromotionManagement.SweptStorefront

namespace PromotionManagement
open Library
set_option autoImplicit true

/-- The promotion repriced products at an instant that the sweeps have yet to pass, or was assigned
when it was running already. -/
def Overdue (s : SweepState) (t : Int) (p : PromotionRow) : Prop :=
  (∃ b, Due s.activeSince p b ∧ micros t < b ∧ b ≤ s.now) ∨
    ∃ a, s.activeSince p.id = some a ∧ p.startsAt ≤ a ∧ p.createdAt ≠ a

def Behind (s : SweepState) (t : Int) (id : Nat) : Prop :=
  ∃ p ∈ s.promotions.table.rows, p.id = id ∧ Overdue s t p

/-- A write is stamped before it commits, and after the first watermark. -/
def Stamped (watermark₀ : Int) (s : SweepState) : SweepEvent → Prop
  | .insert _ stamp | .assign _ _ stamp | .cancel _ stamp =>
    micros watermark₀ < stamp ∧ stamp ≤ s.now
  | _ => True

/-- An instant of now, or within the lag of it, is past the window. -/
def Trails (watermark₀ : Int) (s : SweepState) (t : Int) : Prop :=
  ∀ b, micros watermark₀ < b → s.now < b + commitLagSeconds * 1000000 → micros t < b

theorem Timely.trails {s : SweepState} (h : Timely watermark₀ s) :
    Trails watermark₀ s s.watermark := by
  intro b hb hlt
  rcases h.watermark with hw | hw
  · rw [hw]
    exact hb
  · omega

theorem Lagging.trails {s : SweepState} (h : Lagging s) (hi : s.sweepers i = .sweeping w)
    (hne : w.since ≠ w.windowEnd) (watermark₀ : Int) : Trails watermark₀ s w.windowEnd := by
  intro b _ hlt
  have hle := (h.sweeping i w hi).resolve_left hne
  omega

/-- A promotion that is active became so. -/
def SweepState.Activated (s : SweepState) : Prop :=
  ∀ p ∈ s.promotions.table.rows, p.status = .active → ∃ a, s.activeSince p.id = some a ∧ a ≤ s.now

namespace SweepState.Activated

variable {s : SweepState} {productExists : Nat → Bool} {watermark₀ : Int}

theorem step (h : s.Activated) {e : SweepEvent} (hf : Forward s e) (hs : Stamped watermark₀ s e) :
    (SweepState.step productExists s e).Activated := by
  intro p hp hstatus
  rcases SweepState.step_frame productExists s e with hframe | ⟨now, rfl⟩ | ⟨input, stamp, rfl⟩ |
    ⟨promotionId, target, stamp, rfl⟩ | ⟨promotionId, stamp, rfl⟩
  · rw [hframe.promotions] at hp
    rw [hframe.activeSince, hframe.now]
    exact h p hp hstatus
  · obtain ⟨a, ha, hle⟩ := h p hp hstatus
    exact ⟨a, ha, hle.trans hf⟩
  · rw [SweepState.step] at hp ⊢
    rcases s.promotions.insert_cases productExists input stamp with ⟨hf, _, hi⟩ | ⟨ht, hn⟩
    · rw [SweepState.write, hi] at hp
      rw [Timely.activeSince_of_ok _ _ (congrArg Prod.snd hi)]
      rcases (Table.mem_insert _ _ hf).1 hp with hold | rfl
      · have hother : (if (s.promotions.inserted input stamp).status = .active then
            Function.update s.activeSince (s.promotions.inserted input stamp).id (some stamp)
          else s.activeSince) p.id = s.activeSince p.id := by
          split
          · exact Function.update_of_ne (Table.find_eq_none.1 hf p hold) _ _
          · rfl
        rw [hother]
        exact h p hold hstatus
      · rw [if_pos hstatus, Function.update_self]
        exact ⟨stamp, rfl, hs.2⟩
    · rw [SweepState.write, ht] at hp
      rw [Timely.activeSince_of_refused _ _ hn]
      exact h p hp hstatus
  · rw [SweepState.step] at hp ⊢
    rcases s.promotions.assign_cases productExists promotionId target stamp with
      ⟨row, hf, _, _, _, ht, ho⟩ | ⟨ht, hn⟩
    · rw [SweepState.write, ht] at hp
      have hactive : (row.assigned target).status = .active := rfl
      rw [Timely.activeSince_of_ok _ _ ho, if_pos hactive]
      by_cases hid : p.id = row.id
      · rw [hid, PromotionRow.assigned_id, Function.update_self]
        exact ⟨stamp, rfl, hs.2⟩
      · rw [PromotionRow.assigned_id, Function.update_of_ne hid]
        obtain ⟨q, hq, rfl⟩ := Table.mem_update.1 hp
        split at hstatus
        · rename_i hk
          rw [if_pos hk] at hid
          exact absurd (hk.1.trans (Table.find_some_key hf).symm) hid
        · rename_i hk
          rw [if_neg hk]
          exact h q hq hstatus
    · rw [SweepState.write, ht] at hp
      rw [Timely.activeSince_of_refused _ _ hn]
      exact h p hp hstatus
  · rw [SweepState.step] at hp ⊢
    rcases s.promotions.cancel_cases promotionId stamp with ⟨row, _, _, ht, _⟩ | ⟨ht, _⟩
    · dsimp only at hp
      rw [ht] at hp
      obtain ⟨q, hq, rfl⟩ := Table.mem_update.1 hp
      split at hstatus
      · cases hstatus
      · rename_i hk
        rw [if_neg hk]
        exact h q hq hstatus
    · dsimp only at hp
      rw [ht] at hp
      exact h p hp hstatus

end SweepState.Activated

namespace PromotionRow

theorem startsAt_mem_instants (p : PromotionRow) : p.startsAt ∈ p.instants :=
  List.mem_append_left _ (List.mem_append_left _ List.mem_cons_self)

theorem endsAt_mem_instants (p : PromotionRow) : p.endsAt ∈ p.instants :=
  List.mem_append_left _ (List.mem_append_left _ (List.mem_cons_of_mem _ List.mem_cons_self))

theorem createdAt_mem_instants (p : PromotionRow) : p.createdAt ∈ p.instants :=
  List.mem_append_right _ (List.mem_singleton_self _)

end PromotionRow

namespace Behind

variable {s s' : SweepState} {productExists : Nat → Bool} {watermark₀ t : Int} {p : PromotionRow}

/-- A promotion that is overdue is no draft. -/
theorem not_draft (h : Timely watermark₀ s) (hp : p ∈ s.promotions.table.rows)
    (hover : Overdue s t p) : p.status ≠ .draft := by
  rcases hover with ⟨b, hd, _⟩ | ⟨a, ha, _⟩
  · exact h.not_draft_of_due hp hd
  · obtain ⟨q, hq, hid, hd⟩ := h.known p.id a ha
    rw [← s.promotions.table.eq_of_key hq hp hid]
    exact hd

/-- A row that stays as it is stays overdue. -/
theorem keep (hover : Overdue s t p) (hp : p ∈ s'.promotions.table.rows)
    (hactive : s'.activeSince p.id = s.activeSince p.id) (hnow : s.now ≤ s'.now) :
    Behind s' t p.id := by
  refine ⟨p, hp, rfl, ?_⟩
  rcases hover with ⟨b, ⟨hb, hdue⟩, hlt, hle⟩ | hassigned
  · rw [← hactive] at hdue
    exact .inl ⟨b, ⟨hb, hdue⟩, hlt, hle.trans hnow⟩
  · rw [← hactive] at hassigned
    exact .inr hassigned

theorem insert (hover : Overdue s t p) (hp : p ∈ s.promotions.table.rows)
    (input : CreatePromotion) (stamp : Int) :
    Behind (SweepState.step productExists s (.insert input stamp)) t p.id := by
  rw [SweepState.step]
  rcases s.promotions.insert_cases productExists input stamp with ⟨hf, _, hi⟩ | ⟨ht, hn⟩
  · apply keep hover
    · rw [SweepState.write, hi]
      exact (Table.mem_insert _ _ hf).2 (.inl hp)
    · rw [Timely.activeSince_of_ok _ _ (congrArg Prod.snd hi)]
      split
      · exact Function.update_of_ne (Table.find_eq_none.1 hf p hp) _ _
      · rfl
    · exact Int.le_refl s.now
  · apply keep hover
    · rw [SweepState.write, ht]
      exact hp
    · rw [Timely.activeSince_of_refused _ _ hn]
    · exact Int.le_refl s.now

theorem assign (hover : Overdue s t p) (hp : p ∈ s.promotions.table.rows)
    (htimely : Timely watermark₀ s) (promotionId : Nat) (target : AssignPromotion) (stamp : Int) :
    Behind (SweepState.step productExists s (.assign promotionId target stamp)) t p.id := by
  rw [SweepState.step]
  rcases s.promotions.assign_cases productExists promotionId target stamp with
    ⟨row, hf, hd, _, _, ht, ho⟩ | ⟨ht, hn⟩
  · have hne : p.id ≠ row.id := by
      intro he
      obtain rfl := s.promotions.table.eq_of_key hp (Table.find_some_mem hf) he
      exact not_draft htimely hp hover hd
    apply keep hover
    · rw [SweepState.write, ht]
      exact Table.mem_update_of_not hp fun hk => hne (hk.1.trans (Table.find_some_key hf).symm)
    · rw [Timely.activeSince_of_ok _ _ ho]
      split
      · exact Function.update_of_ne hne _ _
      · rfl
    · exact Int.le_refl s.now
  · apply keep hover
    · rw [SweepState.write, ht]
      exact hp
    · rw [Timely.activeSince_of_refused _ _ hn]
    · exact Int.le_refl s.now

/-- A cancellation is an instant of its own. -/
theorem cancelled (row : PromotionRow)
    (hf : s.promotions.table.find promotionId = some row) (hs : row.status ≠ .cancelled)
    (htable : (s.promotions.cancel promotionId stamp).1.table =
      s.promotions.table.update promotionId (fun row => row.status ≠ .cancelled)
        (PromotionRow.cancelled stamp) (PromotionRow.cancelled_id stamp))
    (ht : micros t < stamp) (hnow : stamp ≤ s.now) :
    Behind (SweepState.step productExists s (.cancel promotionId stamp)) t row.id := by
  refine ⟨row.cancelled stamp, ?_, rfl, .inl ⟨stamp, ⟨?_, .inl rfl⟩, ht, hnow⟩⟩
  · change _ ∈ (s.promotions.cancel promotionId stamp).1.table.rows
    rw [htable]
    exact Table.set_mem_update (Table.find_some_mem hf) (Table.find_some_key hf)
      (decide_eq_true hs)
  · simp only [PromotionRow.instants, PromotionRow.cancelled, Option.toList_some, List.mem_append,
      List.mem_singleton, true_or, or_true]

theorem cancel (hover : Overdue s t p) (hp : p ∈ s.promotions.table.rows) (promotionId : Nat)
    (ht : micros t < stamp) (hnow : stamp ≤ s.now) :
    Behind (SweepState.step productExists s (.cancel promotionId stamp)) t p.id := by
  rcases s.promotions.cancel_cases promotionId stamp with
    ⟨row, hf, hs, htable, _⟩ | ⟨hsame, _⟩
  · by_cases hid : p.id = promotionId
    · obtain rfl := Table.eq_of_find hf hp hid
      exact cancelled p hf hs htable ht hnow
    · apply keep hover
      · change p ∈ (s.promotions.cancel promotionId stamp).1.table.rows
        rw [htable]
        exact Table.mem_update_of_not hp fun hk => hid hk.1
      · rfl
      · exact Int.le_refl s.now
  · apply keep hover
    · change p ∈ (s.promotions.cancel promotionId stamp).1.table.rows
      rw [hsame]
      exact hp
    · rfl
    · exact Int.le_refl s.now

/-- What is behind stays so, until the queue takes a job for it. -/
theorem step {id : Nat} (h : Behind s t id) (htimely : Timely watermark₀ s)
    (ht : Trails watermark₀ s t) {e : SweepEvent} (hf : Forward s e) (hp : Prompt s e)
    (hs : Stamped watermark₀ s e) : Behind (SweepState.step productExists s e) t id := by
  obtain ⟨p, hmem, rfl, hover⟩ := h
  rcases SweepState.step_frame productExists s e with hframe | ⟨now, rfl⟩ | ⟨input, stamp, rfl⟩ |
    ⟨promotionId, target, stamp, rfl⟩ | ⟨promotionId, stamp, rfl⟩
  · apply keep hover
    · rw [hframe.promotions]
      exact hmem
    · rw [hframe.activeSince]
    · exact hframe.now.ge
  · exact keep hover hmem rfl hf
  · exact insert hover hmem input stamp
  · exact assign hover hmem htimely promotionId target stamp
  · exact cancel hover hmem promotionId (ht stamp hs.1 hp) hs.2

theorem clock {id : Nat} (ht : Trails watermark₀ s t) (hstarted : micros watermark₀ ≤ s.now)
    (hactive : s.Activated) (hid : id ∈ s.repriced productExists (.clock now)) :
    Behind (SweepState.step productExists s (.clock now)) t id := by
  obtain ⟨p, hp, rfl⟩ := List.mem_map.1 hid
  obtain ⟨hp, hboundary⟩ := List.mem_filter.1 hp
  simp only [PromotionRow.hasBoundary, Bool.and_eq_true, Bool.or_eq_true, decide_eq_true_iff]
    at hboundary
  obtain ⟨hstatus, hboundary⟩ := hboundary
  obtain ⟨a, ha, hle⟩ := hactive p hp hstatus
  have hinstant : ∃ b, b ∈ p.instants ∧ s.now < b ∧ b ≤ now := by
    rcases hboundary with ⟨hlt, hle⟩ | ⟨hlt, hle⟩
    · exact ⟨p.startsAt, p.startsAt_mem_instants, hlt, hle⟩
    · exact ⟨p.endsAt, p.endsAt_mem_instants, hlt, hle⟩
  obtain ⟨b, hb, hlt, hnow⟩ := hinstant
  refine ⟨p, hp, rfl, .inl ⟨b, ⟨hb, .inr ⟨a, ha, hle.trans hlt.le⟩⟩, ?_, hnow⟩⟩
  apply ht b (hstarted.trans_lt hlt)
  simp only [commitLagSeconds]
  omega

theorem inserted {id : Nat} (ht : micros t < stamp) (hnow : stamp ≤ s.now)
    (hid : id ∈ s.repriced productExists (.insert input stamp)) :
    Behind (SweepState.step productExists s (.insert input stamp)) t id := by
  obtain ⟨row, ho, hstatus, _, rfl⟩ := PromotionWriteOutcome.mem_running hid
  rcases s.promotions.insert_cases productExists input stamp with ⟨hf, _, hi⟩ | ⟨_, hn⟩
  · have hok := congrArg Prod.snd hi
    cases hok.symm.trans ho
    have hrow : s.promotions.inserted input stamp ∈
        (SweepState.step productExists s (.insert input stamp)).promotions.table.rows := by
      rw [SweepState.step, SweepState.write, hi]
      exact (Table.mem_insert _ _ hf).2 (.inr rfl)
    refine ⟨_, hrow, rfl, .inl ⟨stamp, ⟨?_, .inr ⟨stamp, ?_, le_refl stamp⟩⟩, ht, hnow⟩⟩
    · exact PromotionRow.createdAt_mem_instants _
    · rw [SweepState.step, Timely.activeSince_of_ok _ _ hok, if_pos hstatus, Function.update_self]
  · exact absurd ho (hn row)

theorem assigned {id : Nat} (ht : Trails watermark₀ s t)
    (hstamp : micros watermark₀ < stamp) (hprompt : s.now < stamp + commitLagSeconds * 1000000)
    (hnow : stamp ≤ s.now)
    (hid : id ∈ s.repriced productExists (.assign promotionId target stamp)) :
    Behind (SweepState.step productExists s (.assign promotionId target stamp)) t id := by
  obtain ⟨row, ho, hstatus, hstarted, rfl⟩ := PromotionWriteOutcome.mem_running hid
  rcases s.promotions.assign_cases productExists promotionId target stamp with
    ⟨old, hf, hd, hlt, _, htable, hok⟩ | ⟨_, hn⟩
  · cases hok.symm.trans ho
    have hrow : old.assigned target ∈ (SweepState.step productExists s
        (.assign promotionId target stamp)).promotions.table.rows := by
      rw [SweepState.step, SweepState.write, htable]
      refine Table.set_mem_update (Table.find_some_mem hf) (Table.find_some_key hf) ?_
      rw [Bool.and_eq_true, decide_eq_true_iff, decide_eq_true_iff]
      exact ⟨hd, hlt⟩
    have hsince : (SweepState.step productExists s
        (.assign promotionId target stamp)).activeSince (old.assigned target).id = some stamp := by
      rw [SweepState.step, Timely.activeSince_of_ok _ _ ho, if_pos hstatus, Function.update_self]
    refine ⟨_, hrow, rfl, ?_⟩
    by_cases hrunning : (old.assigned target).startsAt ≤ stamp
    · by_cases hcreated : (old.assigned target).createdAt = stamp
      · have hinstant := (old.assigned target).createdAt_mem_instants
        rw [hcreated] at hinstant
        exact .inl ⟨stamp, ⟨hinstant, .inr ⟨stamp, hsince, le_refl stamp⟩⟩,
          ht stamp hstamp hprompt, hnow⟩
      · exact .inr ⟨stamp, hsince, hrunning, hcreated⟩
    · -- It began between the stamp of its assignment and its commit.
      rw [not_le] at hrunning
      refine .inl ⟨_, ⟨(old.assigned target).startsAt_mem_instants,
        .inr ⟨stamp, hsince, hrunning.le⟩⟩, ht _ (hstamp.trans hrunning) ?_, hstarted⟩
      omega
  · exact absurd ho (hn row)

theorem cancellation {id : Nat} (ht : micros t < stamp) (hnow : stamp ≤ s.now)
    (hid : id ∈ s.repriced productExists (.cancel promotionId stamp)) :
    Behind (SweepState.step productExists s (.cancel promotionId stamp)) t id := by
  rw [SweepState.repriced] at hid
  split at hid
  · rename_i row hchanged
    obtain rfl := List.mem_singleton.1 hid
    rcases s.promotions.cancel_cases promotionId stamp with
      ⟨old, hf, hs, htable, ho⟩ | ⟨_, hn⟩
    · cases ho.symm.trans hchanged
      exact cancelled old hf hs htable ht hnow
    · exact absurd hchanged (hn row)
  · exact absurd hid List.not_mem_nil

/-- What an event reprices is behind wherever the sweeps stand. -/
theorem repriced {id : Nat} {e : SweepEvent} (ht : Trails watermark₀ s t)
    (hstarted : micros watermark₀ ≤ s.now) (hactive : s.Activated) (hp : Prompt s e)
    (hs : Stamped watermark₀ s e) (hid : id ∈ s.repriced productExists e) :
    Behind (SweepState.step productExists s e) t id := by
  cases e with
  | clock now => exact clock ht hstarted hactive hid
  | insert input stamp => exact inserted (ht stamp hs.1 hp) hs.2 hid
  | assign promotionId target stamp => exact assigned ht hs.1 hp hs.2 hid
  | cancel promotionId stamp => exact cancellation (ht stamp hs.1 hp) hs.2 hid
  | _ => exact absurd hid List.not_mem_nil

end Behind

end PromotionManagement
