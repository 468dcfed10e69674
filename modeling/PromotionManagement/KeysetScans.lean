import PromotionManagement.Library.Keyset
import PromotionManagement.RebuildReadModelCommand

namespace PromotionManagement
open Library ProductSourceRepository
set_option autoImplicit true

/-- The query that a loop over pages reads. -/
inductive PageQuery where
  | idsAfter
  | idsInCategory (category : Text)

namespace PageQuery

/-- The rows that the query selects from. -/
def rows (products : Catalogue) : PageQuery → List ProductRow
  | idsAfter => products.rows
  | idsInCategory category => inCategory products category

def ids (query : PageQuery) (products : Catalogue) : List Nat :=
  (query.rows products).map ProductRow.id

/-- A page of so many ids. -/
def page (query : PageQuery) (limit : Nat) (products : Catalogue) (afterId : Nat) : List Nat :=
  keysetPage limit (query.ids products) afterId

/-- `RebuildReadModelCommand.recomputePages` after so many page reads, each of the products as they
are by then: it has handed on the batches recomputed. -/
def recomputePages (query : PageQuery) (limit : Nat) (products : Nat → Catalogue) :
    Nat → KeysetScan Nat :=
  .scan (fun k => query.page limit (products k)) 0

end PageQuery

/-- `recomputeCategory` after so many page reads: it has handed on the batches published. -/
def PromotionChangedHandler.recomputeCategory (limit : Nat) (products : Nat → Catalogue)
    (category : Text) : Nat → KeysetScan Nat :=
  .scan (fun k => (PageQuery.idsInCategory category).page limit (products k)) 0

namespace PageQuery

variable {limit : Nat}

theorem recomputePages_inCategory (hlimit : 1 ≤ limit) (products : Nat → Catalogue)
    (category : Text) : KeysetScan.Exact
      (fun k id => ∃ row ∈ (products k).rows, row.id = id ∧ row.values.category = category) 0
      ((idsInCategory category).recomputePages limit products) :=
  KeysetScan.scan_exact fun k => isPage_inCategory hlimit (products k) category

theorem recomputePages_rows (hlimit : 1 ≤ limit) (products : Nat → Catalogue) :
    KeysetScan.Exact (fun k id => ∃ row ∈ (products k).rows, row.id = id) 0
      (idsAfter.recomputePages limit products) :=
  KeysetScan.scan_exact fun k => isPage_rows hlimit (products k)

end PageQuery

namespace RebuildReadModelCommand

open ProductUpsertedHandler

/-- The scan of a category while its products stay as they are. -/
def categoryScan (products : Catalogue) (category : Text) : Nat → KeysetScan Nat :=
  (PageQuery.idsInCategory category).recomputePages ProductSourceRepository.page fun _ => products

theorem categoryScan_succ (products : Catalogue) (category : Text) (k : Nat) :
    categoryScan products category (k + 1) =
      (categoryScan products category k).next (idsInCategory products category) :=
  congrArg (categoryScan products category k).next
    (funext fun afterId => (idsInCategory_eq products category afterId).symm)

theorem recomputePages_from (products : Catalogue) (source : Nat → SourceRead) (category : Text)
    (s : Recomputing) (afterId : Nat) (handled : List Nat) : ∀ k handed,
    categoryScan products category k = ⟨afterId, handed, false⟩ →
    ∃ n batches last, categoryScan products category n = ⟨last, handed ++ batches, true⟩ ∧
      recomputePages products source category s afterId handled =
        (run (handle products source) s batches, handled ++ batches.flatten) := by
  induction s, afterId, handled using recomputePages.induct products source category with
  | case1 s afterId handled productIds h =>
    intro k handed hk
    have hempty : idsInCategory products category afterId = [] := h
    refine ⟨k + 1, [], afterId, ?_, ?_⟩
    · rw [categoryScan_succ, hk, KeysetScan.next, List.append_nil]
      dsimp only
      rw [hempty]
      rfl
    · rw [recomputePages, dif_pos h, List.flatten_nil, List.append_nil]
      rfl
  | case2 s afterId handled productIds h ih =>
    intro k handed hk
    have hnext : categoryScan products category (k + 1) =
        ⟨productIds.getLast h, handed ++ [productIds], false⟩ := by
      have hlast : (idsInCategory products category afterId).getLast? =
          some (productIds.getLast h) := List.getLast?_eq_some_getLast h
      rw [categoryScan_succ, hk, KeysetScan.next]
      dsimp only
      rw [hlast]
      rfl
    obtain ⟨n, batches, last, hn, he⟩ := ih (k + 1) _ hnext
    refine ⟨n, productIds :: batches, last, ?_, ?_⟩
    · rw [hn, List.append_assoc]
      rfl
    · rw [recomputePages, dif_neg h, he, run_cons, List.flatten_cons, List.append_assoc]

/-- With nothing changing, `recomputePages` handles the pages of one scan that returns. -/
theorem recomputePages_scan (products : Catalogue) (source : Nat → SourceRead) (category : Text)
    (s : Recomputing) : ∃ n, (categoryScan products category n).returned = true ∧
      recomputePages products source category s 0 [] =
        (run (handle products source) s (categoryScan products category n).handed,
          (categoryScan products category n).handed.flatten) := by
  obtain ⟨n, batches, last, hn, he⟩ :=
    recomputePages_from products source category s 0 [] 0 [] rfl
  refine ⟨n, congrArg KeysetScan.returned hn, ?_⟩
  rw [he, hn]
  rfl

/-- Each product of the category is handled once, and no other. -/
theorem recomputePages_batches (products : Catalogue) (source : Nat → SourceRead)
    (category : Text) (s : Recomputing) :
    ∃ batches, recomputePages products source category s 0 [] =
        (run (handle products source) s batches, batches.flatten) ∧
      batches.flatten.Nodup ∧
      (∀ productId ∈ batches.flatten,
        ∃ row ∈ products.rows, row.id = productId ∧ row.values.category = category) ∧
      ∀ row ∈ products.rows, row.values.category = category → 0 < row.id →
        row.id ∈ batches.flatten := by
  obtain ⟨n, hreturned, he⟩ := recomputePages_scan products source category s
  have hexact := PageQuery.recomputePages_inCategory
    (by decide : 1 ≤ ProductSourceRepository.page) (fun _ => products) category
  refine ⟨_, he, hexact.nodup n, ?_, ?_⟩
  · intro productId h
    obtain ⟨_, _, hrow⟩ := hexact.sound n productId h
    exact hrow
  · intro row hrow hc hpos
    have hcount := hexact.once n hreturned row.id hpos fun _ _ => ⟨row, hrow, rfl, hc⟩
    apply List.count_pos_iff.1
    exact hcount ▸ Nat.one_pos

end RebuildReadModelCommand

/-- Whatever is inserted, moved or deleted between page reads of any size, `recomputeCategory` and
`recomputePages` miss and repeat nothing that stays, and they return. -/
theorem keysetScans_exact (hlimit : 1 ≤ limit) (products : Nat → Catalogue) :
    (∀ category, KeysetScan.Exact
      (fun k id => ∃ row ∈ (products k).rows, row.id = id ∧ row.values.category = category) 0
      (PromotionChangedHandler.recomputeCategory limit products category)) ∧
    (∀ category, KeysetScan.Exact
      (fun k id => ∃ row ∈ (products k).rows, row.id = id ∧ row.values.category = category) 0
      ((PageQuery.idsInCategory category).recomputePages limit products)) ∧
    KeysetScan.Exact (fun k id => ∃ row ∈ (products k).rows, row.id = id) 0
      (PageQuery.idsAfter.recomputePages limit products) := by
  have hcategory := PageQuery.recomputePages_inCategory hlimit products
  exact ⟨hcategory, hcategory, PageQuery.recomputePages_rows hlimit products⟩

def lamp (id : Nat) (category : Text) : ProductRow :=
  ⟨id, ['S'], ⟨['N'], category, 1000, 5, none⟩, none⟩

/-- Product 2 stays, while product 1 leaves the category behind the cursor and product 3 enters it
ahead. -/
def shifting : Nat → Catalogue
  | 0 => (Table.empty.insert (lamp 1 ['a'])).insert (lamp 2 ['a'])
  | _ + 1 => ((Table.empty.insert (lamp 1 ['b'])).insert (lamp 2 ['a'])).insert (lamp 3 ['a'])

theorem lamp_mem_shifting (k : Nat) : lamp 2 ['a'] ∈ (shifting k).rows := by
  cases k with
  | zero => decide +kernel
  | succ k =>
    have h : lamp 2 ['a'] ∈ (shifting 1).rows := by decide +kernel
    exact h

theorem id_mem_shifting (k : Nat) (h : row ∈ (shifting k).rows) :
    row.id ∈ ({1, 2, 3} : Finset Nat) := by
  cases k with
  | zero =>
    have hall : ∀ row ∈ (shifting 0).rows, row.id ∈ ({1, 2, 3} : Finset Nat) := by decide +kernel
    exact hall row h
  | succ k =>
    have hall : ∀ row ∈ (shifting 1).rows, row.id ∈ ({1, 2, 3} : Finset Nat) := by decide +kernel
    exact hall row h

theorem keysetScans_exact_shifting :
    (PromotionChangedHandler.recomputeCategory 1 shifting ['a'] 4).returned = true ∧
    (PromotionChangedHandler.recomputeCategory 1 shifting ['a'] 4).handed.flatten.count 2 = 1 := by
  obtain ⟨hcategory, _⟩ := keysetScans_exact (Nat.le_refl 1) shifting
  have hreturned := (hcategory ['a']).returns 0 {1, 2, 3} fun j _ id h _ => by
    obtain ⟨row, hrow, hid, _⟩ := h
    exact hid ▸ id_mem_shifting j hrow
  refine ⟨hreturned, (hcategory ['a']).once 4 hreturned 2 (by decide) fun j _ => ?_⟩
  exact ⟨lamp 2 ['a'], lamp_mem_shifting j, rfl, rfl⟩

end PromotionManagement
