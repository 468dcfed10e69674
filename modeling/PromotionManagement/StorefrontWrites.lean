import PromotionManagement.StorefrontInvariant

namespace PromotionManagement
open Library ProductSourceRepository
set_option autoImplicit true

namespace Converging

open StorefrontState

variable {s s' : StorefrontState} {engine : PromotionEngine}

/-- The clock or the products change, and each product that changes is announced. -/
theorem changed (h : Converging engine s) (now : Int) (products : Catalogue)
    (announcements : List Announcement)
    (hlisted : ∀ row ∈ products.rows, 0 < row.id ∧ row.values.category ≠ [])
    (hsource : ∀ row ∈ products.rows,
      (row ∈ s.products.rows ∧
        StorefrontState.current { s with now := now, products := products } row = s.current row) ∨
        ∃ a ∈ announcements, a.Leads s.rows row) :
    Converging engine
      (StorefrontState.announced { s with now := now, products := products } announcements) := by
  apply h.source
  · rfl
  · exact ⟨rfl, rfl, rfl, rfl⟩
  · exact fun a ha => List.mem_append_left _ ha
  · exact Keeps.refl _
  · exact h.targeted
  · exact hlisted
  · intro row hrow
    rcases hsource row hrow with hkept | ⟨a, ha, hleads⟩
    · exact .inl hkept
    · exact .inr ⟨a, List.mem_append_right _ ha, hleads⟩

theorem announced (h : Converging engine s) (announcements : List Announcement) :
    Converging engine (s.announced announcements) :=
  h.changed s.now s.products announcements h.listed fun _ hrow => .inl ⟨hrow, rfl⟩

theorem insertProduct (h : Converging engine s) (row : ProductRow) :
    Converging engine (s.insertProduct row) := by
  rw [StorefrontState.insertProduct]
  split
  · rename_i hnew
    obtain ⟨hid, hcategory, hfind⟩ := hnew
    have hmem (r : ProductRow) : r ∈ (s.products.insert row).rows ↔ r ∈ s.products.rows ∨ r = row :=
      Table.mem_insert _ _ hfind
    apply h.changed s.now
    · intro r hr
      rcases (hmem r).1 hr with hr | rfl
      · exact h.listed r hr
      · exact ⟨hid, hcategory⟩
    · intro r hr
      rcases (hmem r).1 hr with hr | rfl
      · exact .inl ⟨hr, rfl⟩
      · exact .inr ⟨_, List.mem_singleton_self _, List.mem_singleton_self _⟩
  · exact h

theorem updateProduct (h : Converging engine s) (productId : Nat) (values : ProductValues)
    (provenance : Option Provenance) :
    Converging engine (s.updateProduct productId values provenance) := by
  rw [StorefrontState.updateProduct]
  split
  · rename_i hcategory
    apply h.changed s.now
    · intro r hr
      rcases Table.mem_update_cases (assignValues_id values provenance) hr with
        hr | ⟨old, hold, _, _, rfl⟩
      · exact h.listed r hr
      · exact ⟨(h.listed old hold).1, hcategory⟩
    · intro r hr
      rcases Table.mem_update_cases (assignValues_id values provenance) hr with
        hr | ⟨old, hold, hid, _, rfl⟩
      · exact .inl ⟨hr, rfl⟩
      · right
        exact ⟨_, List.mem_singleton_self _, List.mem_singleton.2 hid⟩
  · exact h

/-- A product's source row depends on the active promotions for it only. -/
theorem current_eq {row : ProductRow} (h : ∀ selects : PromotionRow → Bool,
      (∀ p, selects p → p.productId = some row.id ∨ p.category = some row.values.category) →
        (s'.rows.filter fun p => selects p && p.activeAt s'.now) =
          s.rows.filter fun p => selects p && p.activeAt s.now) :
    s'.current row = s.current row := by
  have hproduct := h (fun p => p.productId = some row.id) fun p hp => .inl (of_decide_eq_true hp)
  have hcategory := h (fun p => p.category = some row.values.category) fun p hp =>
    .inr (of_decide_eq_true hp)
  simp only [StorefrontState.current, active, ProductSourceRepository.current, productPromotions,
    categoryPromotions, activePromotions, List.filter_filter]
  rw [rows, rows] at hproduct hcategory
  rw [hproduct, hcategory]

theorem targets_of_selected {p : PromotionRow} (ht : p.Targeted)
    (h : p.productId = some row.id ∨ p.category = some row.values.category) : p.Targets row := by
  rcases h with hp | hc
  · exact .inl hp
  · rcases ht.1 with hn | hn
    · exact .inr ⟨hn, hc⟩
    · rw [hn] at hc
      cases hc

theorem activeAt_of_no_boundary {p : PromotionRow} {now later : Int} (hnow : now ≤ later)
    (h : p.hasBoundary now later = false) : p.activeAt later = p.activeAt now := by
  rw [PromotionRow.hasBoundary] at h
  rw [PromotionRow.activeAt, PromotionRow.activeAt]
  by_cases hs : p.status = .active
  · simp only [hs, decide_true, Bool.true_and, Bool.or_eq_false_iff, Bool.and_eq_false_iff,
      decide_eq_false_iff_not] at h ⊢
    rw [← Bool.decide_and, ← Bool.decide_and, decide_eq_decide]
    omega
  · simp only [hs, decide_false, Bool.false_and]

theorem tick (h : Converging engine s) (now : Int) : Converging engine (s.tick now) := by
  apply h.changed _ s.products
  · exact h.listed
  · intro row hrow
    by_cases hled : ∃ p ∈ s.rows, p.hasBoundary s.now (max s.now now) ∧ p.Targets row
    · obtain ⟨p, hp, hb, ht⟩ := hled
      right
      refine ⟨.changed p.id, ?_, p, hp, rfl, ht⟩
      exact List.mem_map.2 ⟨p, List.mem_filter.2 ⟨hp, hb⟩, rfl⟩
    · left
      refine ⟨hrow, current_eq ?_⟩
      intro selects hselects
      apply List.filter_congr
      intro p hp
      by_cases hs : selects p
      · have hb : p.hasBoundary s.now (max s.now now) = false := by
          rw [← Bool.not_eq_true]
          intro hb
          exact hled ⟨p, hp, hb, targets_of_selected (h.targeted p hp) (hselects p hs)⟩
        have hactive := activeAt_of_no_boundary (le_max_left _ _) hb
        rw [hs, Bool.true_and, Bool.true_and]
        exact hactive
      · rw [Bool.not_eq_true] at hs
        rw [hs, Bool.false_and, Bool.false_and]

theorem targeted_of_checks {p : PromotionRow} (h : p.checks = true) (hs : p.status ≠ .cancelled) :
    p.Targeted := by
  simp only [PromotionRow.checks, Bool.and_eq_true, Bool.or_eq_true, decide_eq_true_eq,
    bne_iff_ne, Option.isNone_iff_eq_none] at h
  obtain ⟨⟨_, hactive⟩, hdraft⟩ := h
  cases hstatus : p.status with
  | draft =>
    have hnone := hdraft.resolve_left fun hne => hne hstatus
    exact ⟨.inl hnone.1, fun _ => hnone⟩
  | active =>
    have hone := hactive.resolve_left fun hne => hne hstatus
    refine ⟨?_, fun hd => absurd (hstatus.symm.trans hd) (by decide)⟩
    cases hp : p.productId with
    | none => exact .inl rfl
    | some productId =>
      right
      rw [hp] at hone
      cases hc : p.category with
      | none => rfl
      | some category =>
        rw [hc] at hone
        exact absurd rfl hone
  | cancelled => exact absurd hstatus hs

/-- A promotion written is announced if it is running, and does not matter yet if it is not. -/
theorem write (h : Converging engine s) (written : Promotions × PromotionWriteOutcome)
    (hkeeps : Keeps s.rows written.1.table.rows)
    (htargeted : ∀ p ∈ written.1.table.rows, p.Targeted)
    (hchanged : ∀ row ∈ s.products.rows,
      (∃ p, written.2 = .ok p ∧ p ∈ written.1.table.rows ∧ p.status = .active ∧
        p.startsAt ≤ s.now ∧ p.Targets row) ∨
      ∀ selects : PromotionRow → Bool,
        (∀ p, selects p → p.productId = some row.id ∨ p.category = some row.values.category) →
          (written.1.table.rows.filter fun p => selects p && p.activeAt s.now) =
            s.rows.filter fun p => selects p && p.activeAt s.now) :
    Converging engine (s.write written) := by
  apply h.source
  · rfl
  · exact ⟨rfl, rfl, rfl, rfl⟩
  · exact fun a ha => List.mem_append_left _ ha
  · exact hkeeps
  · exact htargeted
  · exact h.listed
  · intro row hrow
    rcases hchanged row hrow with ⟨p, hok, hp, hs, hstart, ht⟩ | heq
    · right
      refine ⟨.changed p.id, List.mem_append_right _ ?_, p, hp, rfl, ht⟩
      simp only [hok, hs, hstart, and_self, if_true, List.mem_singleton]
    · exact .inl ⟨hrow, current_eq heq⟩

/-- A promotion refused leaves the table as it was. -/
theorem write_refused (h : Converging engine s) {written : Promotions × PromotionWriteOutcome}
    (htable : written.1.table = s.promotions.table) : Converging engine (s.write written) := by
  apply h.write
  · rw [htable]
    exact Keeps.refl _
  · rw [htable]
    exact h.targeted
  · intro row _
    right
    intro selects _
    rw [htable]
    rfl

theorem not_activeAt {p : PromotionRow} {now : Int} (h : ¬(p.status = .active ∧ p.startsAt ≤ now)) :
    p.activeAt now = false := by
  rw [PromotionRow.activeAt, ← Bool.not_eq_true]
  intro ha
  simp only [Bool.and_eq_true, decide_eq_true_eq] at ha
  exact h ha.1

/-- A promotion that is not announced is not selected for the product. -/
theorem not_selected {p : PromotionRow} {row : ProductRow} {now : Int} (ht : p.Targeted)
    (hn : ¬(p.status = .active ∧ p.startsAt ≤ now ∧ p.Targets row))
    {selects : PromotionRow → Bool}
    (hselects : selects p → p.productId = some row.id ∨ p.category = some row.values.category) :
    (selects p && p.activeAt now) = false := by
  by_cases hs : selects p
  · have hactive : p.activeAt now = false := by
      apply not_activeAt
      intro ⟨hstatus, hstart⟩
      exact hn ⟨hstatus, hstart, targets_of_selected ht (hselects hs)⟩
    rw [hactive, Bool.and_false]
  · rw [Bool.not_eq_true] at hs
    rw [hs, Bool.false_and]

theorem createPromotion (h : Converging engine s) (input : CreatePromotion) (stamp : Int) :
    Converging engine (s.write (s.promotions.insert s.productExists input stamp)) := by
  rcases s.promotions.insert_cases s.productExists input stamp with ⟨hf, hc, hi⟩ | ⟨ht, _⟩
  · have hmem (p : PromotionRow) := s.promotions.table.mem_insert (s := p) _ hf
    have hnew := targeted_of_checks hc (s.promotions.inserted_ne_cancelled input stamp)
    rw [hi]
    apply h.write
    · intro p hp _
      exact ⟨p, (hmem p).2 (.inl hp), rfl, rfl, rfl⟩
    · intro p hp
      rcases (hmem p).1 hp with hp | rfl
      · exact h.targeted p hp
      · exact hnew
    · intro row _
      by_cases hled : (s.promotions.inserted input stamp).status = .active ∧
          (s.promotions.inserted input stamp).startsAt ≤ s.now ∧
          (s.promotions.inserted input stamp).Targets row
      · exact .inl ⟨_, rfl, (hmem _).2 (.inr rfl), hled⟩
      · right
        intro selects hselects
        have hfalse := not_selected hnew hled (hselects _)
        rw [Table.insert, dif_pos hf, List.filter_append]
        rw [List.filter_cons, hfalse, List.filter_nil]
        exact List.append_nil _
  · exact h.write_refused ht

theorem assignPromotion (h : Converging engine s) (promotionId : Nat) (target : AssignPromotion)
    (stamp : Int) : Converging engine
      (s.write (s.promotions.assign s.productExists promotionId target stamp)) := by
  rcases s.promotions.assign_cases s.productExists promotionId target stamp with
    ⟨draft, hf, hd, hlt, hc, ht, ho⟩ | ⟨hs, _⟩
  · have hnew := targeted_of_checks hc nofun
    have hsame (p : PromotionRow) (hp : p ∈ s.rows) (hid : p.id = promotionId) : p = draft :=
      Table.eq_of_find hf hp hid
    have hdraft := h.targeted draft (Table.find_some_mem hf)
    have hguard (p : PromotionRow) (hp : p ∈ s.rows) (hid : p.id = promotionId) :
        (decide (p.status = .draft) && decide (stamp < p.endsAt)) = true := by
      rw [hsame p hp hid, hd, decide_eq_true hlt]
      rfl
    apply h.write
    · intro p hp hsome
      rw [ht]
      by_cases hid : p.id = promotionId
      · rw [hsame p hp hid, (hdraft.2 hd).1, (hdraft.2 hd).2] at hsome
        rcases hsome with hsome | hsome
        · cases hsome
        · cases hsome
      · exact ⟨p, Table.mem_update_of_not hp fun hk => hid hk.1, rfl, rfl, rfl⟩
    · intro p hp
      rw [ht] at hp
      rcases Table.mem_update_cases _ hp with hp | ⟨old, hold, hid, _, rfl⟩
      · exact h.targeted p hp
      · rw [hsame old hold hid]
        exact hnew
    · intro row _
      rw [ht]
      by_cases hled : (draft.assigned target).status = .active ∧
          (draft.assigned target).startsAt ≤ s.now ∧ (draft.assigned target).Targets row
      · left
        have hmem := Table.find_some_mem hf
        have hid := Table.find_some_key hf
        exact ⟨_, ho, Table.set_mem_update hmem hid (hguard draft hmem hid), hled⟩
      · right
        intro selects hselects
        apply Table.filter_update_of_find hf
        · apply not_selected hdraft _ (hselects draft)
          intro hn
          exact absurd (hd.symm.trans hn.1) (by decide)
        · exact not_selected hnew hled (hselects _)
  · apply h.write_refused
    rw [hs]

/-- A cancellation that changes no promotion. -/
theorem cancelPromotion_refused (h : Converging engine s)
    (hp : (s.promotions.cancel promotionId stamp).1 = s.promotions) :
    Converging engine (s.cancelPromotion promotionId stamp) := by
  have hrows : (s.cancelPromotion promotionId stamp).rows = s.rows :=
    congrArg (fun p => p.table.rows) hp
  apply h.source
  · rfl
  · exact ⟨rfl, rfl, rfl, rfl⟩
  · exact fun a ha => List.mem_append_left _ ha
  · rw [hrows]
    exact Keeps.refl _
  · rw [hrows]
    exact h.targeted
  · exact h.listed
  · intro row hrow
    left
    refine ⟨hrow, current_eq ?_⟩
    intro selects _
    rw [hrows]
    rfl

theorem cancelPromotion (h : Converging engine s) (promotionId : Nat) (stamp : Int) :
    Converging engine (s.cancelPromotion promotionId stamp) := by
  rcases s.promotions.cancel_cases promotionId stamp with ⟨old, hf, hs, ht, ho⟩ | ⟨hp, hn⟩
  · have hsame (p : PromotionRow) (hp : p ∈ s.rows) (hid : p.id = promotionId) : p = old :=
      Table.eq_of_find hf hp hid
    have hold := Table.find_some_mem hf
    have hrows : (s.cancelPromotion promotionId stamp).rows =
        (s.promotions.table.update promotionId (fun row => row.status ≠ .cancelled)
          (PromotionRow.cancelled stamp) (PromotionRow.cancelled_id stamp)).rows :=
      congrArg Table.rows ht
    have hnew : (old.cancelled stamp).Targeted :=
      ⟨(h.targeted old hold).1, fun hd => absurd hd (old.cancelled_ne_draft stamp)⟩
    have hcancelled : old.cancelled stamp ∈ (s.cancelPromotion promotionId stamp).rows := by
      rw [hrows]
      exact Table.set_mem_update hold (Table.find_some_key hf) (decide_eq_true hs)
    have hannounced : .changed promotionId ∈ (s.cancelPromotion promotionId stamp).pending := by
      apply List.mem_append_right
      rw [ho]
      rw [← Table.find_some_key hf]
      exact List.mem_singleton_self _
    apply h.source
    · rfl
    · exact ⟨rfl, rfl, rfl, rfl⟩
    · exact fun a ha => List.mem_append_left _ ha
    · intro p hp _
      by_cases hid : p.id = promotionId
      · rw [hsame p hp hid]
        exact ⟨_, hcancelled, rfl, rfl, rfl⟩
      · rw [hrows]
        exact ⟨p, Table.mem_update_of_not hp fun hk => hid hk.1, rfl, rfl, rfl⟩
    · intro p hp
      rw [hrows] at hp
      rcases Table.mem_update_cases _ hp with hp | ⟨q, hq, hid, _, rfl⟩
      · exact h.targeted p hp
      · rw [hsame q hq hid]
        exact hnew
    · exact h.listed
    · intro row hrow
      by_cases hled : (old.cancelled stamp).Targets row
      · right
        have hid : (old.cancelled stamp).id = promotionId := (Table.find_some_key hf : old.id = _)
        exact ⟨_, hannounced, _, hcancelled, hid, hled⟩
      · left
        refine ⟨hrow, current_eq ?_⟩
        intro selects hselects
        rw [hrows]
        apply Table.filter_update_of_find hf
        · apply not_selected (h.targeted old hold) _ (hselects old)
          exact fun hn => hled hn.2.2
        · apply not_selected hnew _ (hselects _)
          exact fun hn => hled hn.2.2
  · exact h.cancelPromotion_refused hp

end Converging

end PromotionManagement
