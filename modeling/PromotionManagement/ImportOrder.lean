import PromotionManagement.Library.Run
import PromotionManagement.StorableRow

namespace PromotionManagement
open Library
set_option autoImplicit true

/-- Rows of one job in offset order, out of those that are there to commit. -/
structure CommittedBatch (plan rows : List ProductUpsert) : Prop where
  planned : ∀ u ∈ rows, u ∈ plan
  inOrder : rows.Pairwise fun u v => u.provenance < v.provenance

/-- The `products` table, and every row of the batches committed so far. -/
structure ImportState where
  products : Products
  committed : List ProductUpsert

def commitBatch (s : ImportState) (batch : List ProductUpsert) : ImportState :=
  ⟨(s.products.upsertMany batch).1, s.committed ++ batch⟩

/-- `u` is the row of its SKU with the greatest provenance. -/
def Latest (rows : List ProductUpsert) (u : ProductUpsert) : Prop :=
  u ∈ rows ∧ ∀ v ∈ rows, v.sku = u.sku → v.provenance ≤ u.provenance

def valuesOf (p : Products) (sku : Text) : Option ProductValues :=
  (p.table.find sku).map ProductRow.values

/-- Every product holds the values of the latest row committed for its SKU. -/
def LatestStored (s : ImportState) : Prop :=
  ∀ u, Latest s.committed u → valuesOf s.products u.sku = some u.values

/-- The batch writes a row to a product for which a later row has already been committed. -/
def Overtakes (s : ImportState) (batch : List ProductUpsert) : Prop :=
  ∃ u row, Products.candidate batch u.sku = some u ∧ s.products.table.find u.sku = some row ∧
    u.replaces row ∧ ∃ v ∈ s.committed, v.sku = u.sku ∧ u.provenance < v.provenance

/-- The provenance of a stored row is that of a row committed for it. -/
structure Tracked (plan : List ProductUpsert) (s : ImportState) : Prop where
  planned : ∀ u ∈ s.committed, u ∈ plan
  origin : ∀ sku row p, s.products.table.find sku = some row → row.provenance = some p →
    ∃ v ∈ s.committed, v.sku = sku ∧ v.provenance = p

theorem exists_latest (h : v ∈ rows) :
    ∃ u, Latest rows u ∧ u.sku = v.sku ∧ v.provenance ≤ u.provenance := by
  obtain ⟨u, hu, hmax⟩ := (rows.filter fun u => u.sku = v.sku).toFinset.exists_max_image
    ProductUpsert.provenance ⟨v, by
      simp only [List.mem_toFinset, List.mem_filter, h, decide_true, and_self]⟩
  simp only [List.mem_toFinset, List.mem_filter, decide_eq_true_eq] at hu hmax
  refine ⟨u, ⟨hu.1, ?_⟩, hu.2, hmax v ⟨h, rfl⟩⟩
  intro w hw hs
  exact hmax w ⟨hw, hs.trans hu.2⟩

namespace CommittedBatch

theorem le_candidate (hb : CommittedBatch plan batch)
    (h : Products.candidate batch s = some u) (hv : v ∈ batch) (hs : v.sku = s) :
    v.provenance ≤ u.provenance := by
  rw [Products.candidate_eq, List.getLast?_eq_some_iff] at h
  obtain ⟨init, hi⟩ := h
  have hp := hb.inOrder.sublist (List.filter_sublist (p := fun u => decide (u.sku = s)))
  have hm : v ∈ batch.filter fun u => decide (u.sku = s) :=
    List.mem_filter.2 ⟨hv, decide_eq_true hs⟩
  rw [hi] at hp hm
  rcases List.mem_append.1 hm with hm | hm
  · exact le_of_lt ((List.pairwise_append.1 hp).2.2 v hm u (List.mem_singleton.2 rfl))
  · rw [List.mem_singleton.1 hm]

end CommittedBatch

theorem valuesOf_upsertMany_old {p : Products} (h : Products.candidate batch s = some u)
    (hr : p.table.find s = some row) :
    valuesOf (p.upsertMany batch).1 s = some (row.after u).values := by
  rw [valuesOf, Products.find_upsertMany_old p h hr]
  rfl

theorem valuesOf_upsertMany_new {p : Products} (h : Products.candidate batch s = some u)
    (hr : p.table.find s = none) : valuesOf (p.upsertMany batch).1 s = some u.values := by
  obtain ⟨id, hi⟩ := Products.find_upsertMany_new p h hr
  rw [valuesOf, hi]
  rfl

theorem after_values_of_replaces {u : ProductUpsert} (h : u.replaces row) :
    (row.after u).values = u.values := by
  rw [ProductRow.after, if_pos h]
  rfl

theorem after_of_not_replaces {u : ProductUpsert} (h : ¬ u.replaces row) : row.after u = row := by
  rw [ProductRow.after, if_neg h]

/-- What the guard refuses was stored from a later row, or holds the same values. -/
theorem not_replaces {u : ProductUpsert} (h : ¬ u.replaces row) :
    (∃ p, row.provenance = some p ∧ u.provenance ≤ p) ∨ row.values = u.values := by
  rw [ProductUpsert.replaces, Bool.and_eq_true, not_and_or, decide_eq_true_iff, not_not] at h
  refine h.imp_left fun hp => ?_
  cases hr : row.provenance with
  | none =>
    rw [hr] at hp
    exact absurd rfl hp
  | some p =>
    rw [hr] at hp
    refine ⟨p, rfl, not_lt.1 fun hlt => hp ?_⟩
    exact decide_eq_true hlt

theorem Tracked.commit (h : Tracked plan s) (hb : CommittedBatch plan batch) :
    Tracked plan (commitBatch s batch) := by
  refine ⟨?_, ?_⟩
  · intro u hu
    exact (List.mem_append.1 hu).elim (h.planned u) (hb.planned u)
  · intro sku row p hf hp
    have hold {v : ProductUpsert} (hv : v ∈ s.committed) (hs : v.sku = sku)
        (hvp : v.provenance = p) : ∃ v ∈ (commitBatch s batch).committed,
          v.sku = sku ∧ v.provenance = p := ⟨v, List.mem_append_left _ hv, hs, hvp⟩
    change (s.products.upsertMany batch).1.table.find sku = some row at hf
    cases hc : Products.candidate batch sku with
    | none =>
      rw [Products.find_upsertMany_absent _ hc] at hf
      obtain ⟨v, hv, hs, hvp⟩ := h.origin sku row p hf hp
      exact hold hv hs hvp
    | some u =>
      obtain ⟨hu, hs⟩ := Products.candidate_mem hc
      have hnew (hpu : u.provenance = p) : ∃ v ∈ (commitBatch s batch).committed,
          v.sku = sku ∧ v.provenance = p := ⟨u, List.mem_append_right _ hu, hs, hpu⟩
      cases hr : s.products.table.find sku with
      | none =>
        obtain ⟨id, hi⟩ := Products.find_upsertMany_new _ hc hr
        rw [hi] at hf
        cases hf
        exact hnew (Option.some.inj hp)
      | some old =>
        rw [Products.find_upsertMany_old _ hc hr] at hf
        cases hf
        by_cases hg : u.replaces old
        · rw [ProductRow.after, if_pos hg] at hp
          exact hnew (Option.some.inj hp)
        · rw [after_of_not_replaces hg] at hp
          obtain ⟨v, hv, hs, hvp⟩ := h.origin sku old p hr hp
          exact hold hv hs hvp

/-- A batch that overtakes leaves a product with the values of an older row. -/
theorem not_latestStored_of_overtakes (hl : LatestStored s) (hb : CommittedBatch plan batch)
    (ho : Overtakes s batch) : ¬ LatestStored (commitBatch s batch) := by
  obtain ⟨u, row, hc, hr, hg, v, hv, hs, hlt⟩ := ho
  obtain ⟨w, hw, hws, hwv⟩ := exists_latest hv
  have hsku : w.sku = u.sku := hws.trans hs
  have hlatest : Latest (commitBatch s batch).committed w := by
    refine ⟨List.mem_append_left _ hw.1, ?_⟩
    intro x hx hxs
    rcases List.mem_append.1 hx with hx | hx
    · exact hw.2 x hx hxs
    · exact (hb.le_candidate hc hx (hxs.trans hsku)).trans (hlt.le.trans hwv)
  have hbefore := hl w hw
  rw [hsku, valuesOf, hr] at hbefore
  intro hn
  have hafter := hn w hlatest
  rw [hsku] at hafter
  change valuesOf (s.products.upsertMany batch).1 u.sku = _ at hafter
  rw [valuesOf_upsertMany_old hc hr, after_values_of_replaces hg] at hafter
  have hdiff : row.values ≠ u.values := by
    rw [ProductUpsert.replaces, Bool.and_eq_true, decide_eq_true_iff] at hg
    exact hg.2
  exact hdiff ((Option.some.inj hbefore).trans (Option.some.inj hafter).symm)

/-- While rows are told apart by their provenance, a batch that does not overtake keeps the law. -/
theorem latestStored_of_not_overtakes
    (hplan : ∀ u ∈ plan, ∀ v ∈ plan, u.provenance = v.provenance → u = v)
    (ht : Tracked plan s) (hl : LatestStored s)
    (hb : CommittedBatch plan batch) (ho : ¬ Overtakes s batch) :
    LatestStored (commitBatch s batch) := by
  intro w hw
  have hwplan : w ∈ plan := (ht.commit hb).planned w hw.1
  have hcommitted (hwc : w ∈ s.committed) : valuesOf s.products w.sku = some w.values :=
    hl w ⟨hwc, fun v hv => hw.2 v (List.mem_append_left _ hv)⟩
  change valuesOf (s.products.upsertMany batch).1 w.sku = _
  cases hc : Products.candidate batch w.sku with
  | none =>
    have hwc := (List.mem_append.1 hw.1).resolve_right fun hwb => Products.candidate_none hc hwb rfl
    rw [valuesOf, Products.find_upsertMany_absent _ hc]
    exact hcommitted hwc
  | some u =>
    obtain ⟨hu, hs⟩ := Products.candidate_mem hc
    have huw : u.provenance ≤ w.provenance := hw.2 u (List.mem_append_right _ hu) hs
    have hsame (hle : w.provenance ≤ u.provenance) : u = w :=
      hplan u (hb.planned u hu) w hwplan (le_antisymm huw hle)
    have hbatch (hwb : w ∈ batch) : u = w := hsame (hb.le_candidate hc hwb rfl)
    cases hr : s.products.table.find w.sku with
    | none =>
      have hwb := (List.mem_append.1 hw.1).resolve_left fun hwc => by
        have := hcommitted hwc
        rw [valuesOf, hr] at this
        cases this
      rw [valuesOf_upsertMany_new hc hr, hbatch hwb]
    | some row =>
      have hrow (hwc : w ∈ s.committed) : row.values = w.values := by
        have := hcommitted hwc
        rw [valuesOf, hr] at this
        exact Option.some.inj this
      rw [valuesOf_upsertMany_old hc hr]
      by_cases hg : u.replaces row
      · have hle : w.provenance ≤ u.provenance := by
          rcases List.mem_append.1 hw.1 with hwc | hwb
          · refine not_lt.1 fun hlt => ho ⟨u, row, ?_, ?_, hg, w, hwc, hs.symm, hlt⟩
            · rw [hs]; exact hc
            · rw [hs]; exact hr
          · exact (congrArg ProductUpsert.provenance (hbatch hwb)).ge
        rw [after_values_of_replaces hg, hsame hle]
      · rw [after_of_not_replaces hg, Option.some.injEq]
        rcases List.mem_append.1 hw.1 with hwc | hwb
        · exact hrow hwc
        · have he := hbatch hwb
          subst he
          rcases not_replaces hg with ⟨p, hp, hle⟩ | hv
          · obtain ⟨v, hv, hvs, hvp⟩ := ht.origin _ row p hr hp
            have hvu : v.provenance ≤ u.provenance :=
              hw.2 v (List.mem_append_left _ hv) hvs
            have : v = u := hplan v (ht.planned v hv) u hwplan
              (le_antisymm hvu (hvp ▸ hle))
            exact hrow (this ▸ hv)
          · exact hv

end PromotionManagement
