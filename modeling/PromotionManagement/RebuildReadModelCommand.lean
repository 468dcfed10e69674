import PromotionManagement.StorefrontInvariant
import Mathlib.Data.Char
import Mathlib.Data.List.Lex

namespace PromotionManagement
open Library ProductSourceRepository ProductReadRepository
set_option autoImplicit true

/-- What one read of PostgreSQL comes with beside the rows: its instant, the active promotions and
what the engine reports about each row. -/
structure SourceRead where
  sourceReadAt : Nat
  active : List PromotionRow
  results : Nat → List RuleResult

/-- Redis, the scripts it has run, and how many times PostgreSQL has been read. -/
structure Recomputing where
  readModel : ReadModel
  executed : List ReadModelOp
  reads : Nat

namespace Recomputing

/-- The ids a sorted set lists. -/
def members (s : Recomputing) (key : Text) : List Nat :=
  ((s.executed.map ReadModelOp.productId).dedup).filter fun id =>
    (s.readModel.zset key (Nat.toDigits 10 id)).isSome

/-- By score, and by the member's text where scores are equal. -/
def ranked (s : Recomputing) (key : Text) (i j : Nat) : Bool :=
  match s.readModel.zset key (Nat.toDigits 10 i), s.readModel.zset key (Nat.toDigits 10 j) with
  | some x, some y => x < y || (x = y && Nat.toDigits 10 i ≤ Nat.toDigits 10 j)
  | _, _ => true

def zrange (s : Recomputing) (key : Text) : List Nat := (s.members key).mergeSort (s.ranked key)

def zcard (s : Recomputing) (key : Text) : Nat := (s.members key).length

end Recomputing

/-- `ProductUpsertedHandler.handle`, whose scripts run before it returns. -/
def ProductUpsertedHandler.handle (products : Catalogue) (source : Nat → SourceRead)
    (s : Recomputing) (productIds : List Nat) : Recomputing :=
  let read := source s.reads
  let rows := ProductSourceRepository.read products read.active productIds
  let scripts := scripts productIds rows read.sourceReadAt read.results
  { readModel := run execute s.readModel scripts
    executed := s.executed ++ scripts
    reads := s.reads + 1 }

namespace RebuildReadModelCommand

open ProductUpsertedHandler

def page : Nat := 1000

/-- Slices of a page each. -/
def pages (ids : List Nat) : List (List Nat) :=
  if ids = [] then [] else ids.take page :: pages (ids.drop page)
termination_by ids.length
decreasing_by
  rename_i h
  rw [List.length_drop]
  exact Nat.sub_lt (List.length_pos_iff.2 h) (by decide)

/-- A later cursor has fewer rows after it. -/
theorem rowsAfter_lt {products : Catalogue}
    (h : last ∈ idsInCategory products category afterId) :
    (products.rows.filter fun row => last < row.id).length <
      (products.rows.filter fun row => afterId < row.id).length := by
  obtain ⟨row, hrow, rfl, _, hafter⟩ := mem_idsInCategory h
  have hsub : products.rows.filter (fun r => row.id < r.id) =
      (products.rows.filter fun r => afterId < r.id).filter fun r => row.id < r.id := by
    rw [List.filter_filter]
    apply List.filter_congr
    intro r _
    by_cases hr : row.id < r.id
    · simp only [hr, hafter.trans hr, decide_true, Bool.and_self]
    · simp only [hr, decide_false, Bool.false_and]
  rw [hsub]
  apply List.length_filter_lt_length_iff_exists.2
  exact ⟨row, List.mem_filter.2 ⟨hrow, decide_eq_true hafter⟩,
    decide_eq_true_iff.not.2 (Nat.lt_irrefl row.id)⟩

/-- Recomputes the products of a category page by page, and says which ids it handled. -/
def recomputePages (products : Catalogue) (source : Nat → SourceRead) (category : Text)
    (s : Recomputing) (afterId : Nat) (handled : List Nat) : Recomputing × List Nat :=
  let productIds := idsInCategory products category afterId
  if h : productIds = [] then (s, handled)
  else
    recomputePages products source category (handle products source s productIds)
      (productIds.getLast h) (handled ++ productIds)
termination_by (products.rows.filter fun row => afterId < row.id).length
decreasing_by exact rowsAfter_lt (List.getLast_mem h)

/-- Recomputes what PostgreSQL has in a category, then what its sorted set still lists. -/
def rebuildCategory (products : Catalogue) (source : Nat → SourceRead) (s : Recomputing)
    (category : Text) : Recomputing × Nat :=
  let (s, handled) := recomputePages products source category s 0 []
  let left := (s.zrange (categoryKey category)).filter fun id => id ∉ handled
  (run (handle products source) s (pages left), handled.length + left.length)

theorem flatten_pages (ids : List Nat) : (pages ids).flatten = ids := by
  induction ids using pages.induct with
  | case1 =>
    rw [pages, if_pos rfl]
    rfl
  | case2 ids h ih =>
    rw [pages, if_neg h, List.flatten_cons, ih]
    exact List.take_append_drop page ids

end RebuildReadModelCommand

end PromotionManagement
