import PromotionManagement.PromotionHistory

namespace PromotionManagement
open Library
set_option autoImplicit true

/-- The table at each page of a walk, with any writes before it. -/
def Promotions.between (writes : Nat → List PromotionEvent) : Nat → Promotions
  | 0 => reached (writes 0)
  | k + 1 => run step (between writes k) (writes (k + 1))

/-- What the filters select of a promotion holds of it for good: it is cancelled, or only its target
is asked for and settled, or nothing is asked for. -/
def ListPromotionsInput.Keeps (filters : ListPromotionsInput) (row : PromotionRow) : Prop :=
  filters.matching row = true ∧ (row.status = .cancelled ∨ filters.status = none ∧
    (row.status ≠ .draft ∨ filters.category = none ∧ filters.productId = none))

section
variable {filters : ListPromotionsInput} {p : Promotions} {row row' : PromotionRow}

theorem ListPromotionsInput.Keeps.matching (h : filters.Keeps row) (hc : row.Continues row') :
    filters.matching row' = true := by
  obtain ⟨hm, hcancelled | ⟨hstatus, hdraft | ⟨hcategory, hproduct⟩⟩⟩ := h
  · rw [hc.final hcancelled]
    exact hm
  · obtain ⟨hproduct, hcategory⟩ := hc.target hdraft
    rw [ListPromotionsInput.matching, hstatus] at hm ⊢
    rw [hproduct, hcategory]
    exact hm
  · rw [ListPromotionsInput.matching, hstatus, hcategory, hproduct]
    rfl

theorem PromotionRepository.mem_list (h : view ∈ list newDate p filters now) :
    ∃ row ∈ p.table.rows, filters.matching row = true ∧ view = row.columns newDate now := by
  obtain ⟨row, hr, rfl⟩ := List.mem_map.1 h
  obtain ⟨hr, hs⟩ := List.mem_filter.1 (List.mem_mergeSort.1 (List.mem_of_mem_take hr))
  exact ⟨row, hr, (Bool.and_eq_true_iff.1 hs).1, rfl⟩

theorem Promotions.continues_between (writes : Nat → List PromotionEvent)
    (hr : row ∈ (between writes 0).table.rows) (k : Nat) :
    ∃ row' ∈ (between writes k).table.rows, row.Continues row' := by
  induction k with
  | zero => exact ⟨row, hr, .refl row⟩
  | succ k ih =>
    obtain ⟨row', hr', hc⟩ := ih
    obtain ⟨row'', hr'', hc'⟩ := continues_run hr' (writes (k + 1))
    exact ⟨row'', hr'', hc.trans hc'⟩

namespace PromotionWalk

variable {tables : Nat → Promotions} {now : Nat → Int}

/-- What a walk is given was selected at the page it was on. -/
theorem items_sound (h : view ∈ (walk newDate filters tables now k).items) :
    ∃ j < k, ∃ row ∈ (tables j).table.rows, filters.matching row = true ∧
      view = row.columns newDate (now j) := by
  induction k with
  | zero => cases h
  | succ k ih =>
    have hold (h : view ∈ (walk newDate filters tables now k).items) :
        ∃ j < k + 1, ∃ row ∈ (tables j).table.rows, filters.matching row = true ∧
          view = row.columns newDate (now j) := by
      obtain ⟨j, hj, hrow⟩ := ih h
      exact ⟨j, Nat.lt_succ_of_lt hj, hrow⟩
    rw [walk, next] at h
    split at h
    · exact hold h
    · dsimp only at h
      split at h
      · exact hold h
      · rcases List.mem_append.1 h with h | h
        · exact hold h
        · obtain ⟨row, hr, hm, hview⟩ := PromotionRepository.mem_list h
          exact ⟨k, Nat.lt_succ_self k, row, hr, hm, hview⟩

/-- A walk misses and repeats nothing that stays selected. -/
theorem walk_exact (filters : ListPromotionsInput) (tables : Nat → Promotions) :
    KeysetScan.Exact (fun k id => id ∈ filters.matchingIds (tables k)) (cursor filters.after)
      (.scan (fun k => keysetPage filters.limit (filters.matchingIds (tables k)))
        (cursor filters.after)) :=
  KeysetScan.scan_exact fun k =>
    isPage_keysetPage filters.limit_pos (filters.matchingIds_nodup (tables k))

theorem items_ascending (newDate : Int → Int) (filters : ListPromotionsInput)
    (tables : Nat → Promotions) (now : Nat → Int) (k : Nat) :
    ((walk newDate filters tables now k).items.map PromotionColumns.id).Pairwise (· < ·) := by
  have hscan := walk_scans newDate filters tables now k
  have hordered := KeysetScan.scan_ordered (fun k => isPage_keysetPage filters.limit_pos
    (filters.matchingIds_nodup (tables k))) (cursor filters.after) k
  have hascending := hordered.ascending
  rw [← hscan.items, List.pairwise_map] at hascending
  exact List.pairwise_map.2 (hascending.imp WithBot.coe_lt_coe.1)

theorem items_once (h : (walk newDate filters tables now k).finished = true) {promotionId : Nat}
    (hafter : (filters.after.all fun after => promotionId > after) = true)
    (hstays : ∀ j, (walk newDate filters tables now j).finished = false →
      ∃ row ∈ (tables j).table.rows, filters.matching row = true ∧ row.id = promotionId) :
    ((walk newDate filters tables now k).items.filter fun view => view.id = promotionId).length =
      1 := by
  have hscan := walk_scans newDate filters tables now
  rw [after_eq, decide_eq_true_eq] at hafter
  have hcount := (walk_exact filters tables).once k ((hscan k).finished ▸ h)
    (WithBot.some promotionId) hafter fun j hj =>
      ListPromotionsInput.mem_matchingIds.2 (hstays j ((hscan j).finished ▸ hj))
  rw [← (hscan k).items, List.count_eq_countP, List.countP_map, List.countP_eq_length_filter]
    at hcount
  rw [← hcount]
  congr 2
  funext view
  exact decide_eq_decide.2 WithBot.coe_inj.symm

/-- A walk ends once no promotion is created any more. -/
theorem walk_finishes (newDate : Int → Int) (now : Nat → Int)
    (hcreated : ∀ j, k ≤ j → ∀ row ∈ (tables j).table.rows, ∃ row' ∈ (tables k).table.rows,
      row'.id = row.id) :
    (walk newDate filters tables now (k + (tables k).table.rows.length + 1)).finished = true := by
  let ahead : Finset (WithBot Nat) :=
    ((tables k).table.rows.map fun row => WithBot.some row.id).toFinset
  have hcard : ahead.card = (tables k).table.rows.length :=
    (List.toFinset_card_of_nodup (tables k).ids_nodup).trans (List.length_map _)
  have hreturns := (walk_exact filters tables).returns k ahead
  rw [hcard] at hreturns
  rw [(walk_scans newDate filters tables now _).finished]
  apply hreturns
  intro j hj promotionId hm _
  obtain ⟨row, hr, rfl⟩ := List.mem_map.1 hm
  obtain ⟨row', hr', hid⟩ := hcreated j hj row (List.mem_filter.1 hr).1
  rw [List.mem_toFinset, ← hid]
  exact List.mem_map_of_mem hr'

end PromotionWalk

end

/-- A walk through the admin list, with any writes before each of its pages: no promotion is listed
twice, each is listed as a page found it, and none is missed that the filters select throughout,
or that they selected at first for good. Once no more are created, the walk ends. -/
theorem promotions_listed (newDate : Int → Int) (filters : ListPromotionsInput)
    (writes : Nat → List PromotionEvent) (now : Nat → Int) :
    let p := Promotions.between writes
    let walk := PromotionWalk.walk newDate filters p now
    (∀ k, ((walk k).items.map PromotionColumns.id).Pairwise (· < ·) ∧
      ∀ view ∈ (walk k).items, ∃ j < k, ∃ row ∈ (p j).table.rows,
        filters.matching row = true ∧ view = row.columns newDate (now j)) ∧
    (∀ k promotionId, (walk k).finished = true →
      (filters.after.all fun after => promotionId > after) = true →
      ((∀ j, (walk j).finished = false → ∃ row ∈ (p j).table.rows,
          filters.matching row = true ∧ row.id = promotionId) ∨
        ∃ row ∈ (p 0).table.rows, filters.Keeps row ∧ row.id = promotionId) →
      ((walk k).items.filter fun view => view.id = promotionId).length = 1) ∧
    ∀ k, (∀ j, k ≤ j → ∀ row ∈ (p j).table.rows, ∃ row' ∈ (p k).table.rows, row'.id = row.id) →
      (walk (k + (p k).table.rows.length + 1)).finished = true := by
  intro p walk
  refine ⟨?_, ?_, ?_⟩
  · intro k
    exact ⟨PromotionWalk.items_ascending newDate filters p now k,
      fun view h => PromotionWalk.items_sound h⟩
  · rintro k promotionId hfinished hafter (hstays | ⟨row, hr, hkeeps, rfl⟩)
    · exact PromotionWalk.items_once hfinished hafter hstays
    · apply PromotionWalk.items_once hfinished hafter
      intro j _
      obtain ⟨row', hr', hc⟩ := Promotions.continues_between writes hr j
      exact ⟨row', hr', hkeeps.matching hc, hc.id⟩
  · exact fun k hcreated => PromotionWalk.walk_finishes newDate now hcreated

end PromotionManagement
