import PromotionManagement.AdminWrites
import PromotionManagement.Library.Keyset
import Mathlib.Order.WithBot

namespace PromotionManagement
open Library
set_option autoImplicit true

/-- What a read shows of a promotion, a `PromotionView`: its window in milliseconds, as they are
read back, and its state at the instant of the read. -/
structure PromotionColumns where
  id : Nat
  name : Text
  discountType : DiscountType
  value : Nat
  startsAt : Int
  endsAt : Int
  productId : Option Nat
  category : Option Text
  status : PromotionStatus
  state : PromotionState
deriving DecidableEq

/-- The `columns` of a row, at an instant of the database's clock. -/
def PromotionRow.columns (newDate : Int → Int) (p : PromotionRow) (now : Int) :
    PromotionColumns where
  id := p.id
  name := p.name
  discountType := p.discountType
  value := p.value
  startsAt := newDate p.startsAt
  endsAt := newDate p.endsAt
  productId := p.productId
  category := p.category
  status := p.status
  state := p.state now

/-- The query of the admin list, within the bounds of its schema. -/
structure ListPromotionsInput where
  status : Option PromotionStatus
  category : Option Text
  productId : Option Nat
  after : Option Nat
  limit : Nat
  limit_pos : 1 ≤ limit
  limit_le : limit ≤ 100

namespace ListPromotionsInput

/-- The conditions on what a promotion is. -/
def matching (filters : ListPromotionsInput) (row : PromotionRow) : Bool :=
  (filters.status.all fun status => row.status = status) &&
    (filters.category.all fun category => row.category = some category) &&
    filters.productId.all fun productId => row.productId = some productId

def selects (filters : ListPromotionsInput) (row : PromotionRow) : Bool :=
  filters.matching row && filters.after.all fun after => row.id > after

/-- The query for the page that follows a promotion. -/
def following (filters : ListPromotionsInput) (after : Option Nat) : ListPromotionsInput :=
  { filters with after := after }

end ListPromotionsInput

namespace PromotionRepository

def find (newDate : Int → Int) (p : Promotions) (id : Nat) (now : Int) :
    Option PromotionColumns :=
  (p.table.find id).map fun row => row.columns newDate now

def list (newDate : Int → Int) (p : Promotions) (filters : ListPromotionsInput) (now : Int) :
    List PromotionColumns :=
  (((p.table.rows.filter filters.selects).mergeSort fun a b => a.id ≤ b.id).take
    filters.limit).map fun row => row.columns newDate now

end PromotionRepository

def FindPromotionQuery.execute (newDate : Int → Int) (p : Promotions) (now : Int) (id : Nat) :
    Except HttpError PromotionColumns :=
  match PromotionRepository.find newDate p id now with
  | none => .error ⟨404, "No such promotion"⟩
  | some promotion => .ok promotion

def ListPromotionsQuery.execute (newDate : Int → Int) (p : Promotions) (now : Int)
    (input : ListPromotionsInput) : List PromotionColumns :=
  PromotionRepository.list newDate p input now

/-- A caller that pages through the list: the last id it has seen, what it was given, and whether
an empty page has ended it. -/
structure PromotionWalk where
  after : Option Nat
  items : List PromotionColumns
  finished : Bool

namespace PromotionWalk

def next (newDate : Int → Int) (filters : ListPromotionsInput) (p : Promotions) (now : Int)
    (s : PromotionWalk) : PromotionWalk :=
  if s.finished then s
  else
    let page := ListPromotionsQuery.execute newDate p now (filters.following s.after)
    match page.getLast? with
    | none => { s with finished := true }
    | some last => ⟨some last.id, s.items ++ page, false⟩

/-- A walk after so many pages, each of the table as it then is. -/
def walk (newDate : Int → Int) (filters : ListPromotionsInput) (tables : Nat → Promotions)
    (now : Nat → Int) : Nat → PromotionWalk
  | 0 => ⟨filters.after, [], false⟩
  | k + 1 => (walk newDate filters tables now k).next newDate filters (tables k) (now k)

end PromotionWalk

/-- Where a page starts: after a promotion, or before them all. -/
def cursor : Option Nat → WithBot Nat
  | none => ⊥
  | some after => WithBot.some after

theorem after_eq (after : Option Nat) (promotionId : Nat) :
    (after.all fun after => promotionId > after) =
      decide (cursor after < WithBot.some promotionId) := by
  cases after with
  | none => exact (decide_eq_true (WithBot.bot_lt_coe promotionId)).symm
  | some after => exact decide_eq_decide.2 WithBot.coe_lt_coe.symm

theorem Promotions.ids_nodup (p : Promotions) :
    (p.table.rows.map fun row => WithBot.some row.id).Nodup := by
  have hmap := p.table.unique.map (f := WithBot.some) WithBot.coe_injective
  rw [List.map_map] at hmap
  exact hmap

namespace ListPromotionsInput

variable {filters : ListPromotionsInput} {p : Promotions}

/-- The ids that the conditions on what a promotion is leave. -/
def matchingIds (filters : ListPromotionsInput) (p : Promotions) : List (WithBot Nat) :=
  (p.table.rows.filter filters.matching).map fun row => WithBot.some row.id

theorem matchingIds_nodup (filters : ListPromotionsInput) (p : Promotions) :
    (filters.matchingIds p).Nodup :=
  List.Nodup.sublist (List.filter_sublist.map _) p.ids_nodup

theorem mem_matchingIds {promotionId : Nat} : WithBot.some promotionId ∈ filters.matchingIds p ↔
    ∃ row ∈ p.table.rows, filters.matching row = true ∧ row.id = promotionId := by
  simp only [matchingIds, List.mem_map, List.mem_filter, and_assoc, WithBot.coe_inj]

end ListPromotionsInput

/-- The ids of a page are the first past the cursor, in order. -/
theorem PromotionRepository.list_ids (newDate : Int → Int) (p : Promotions)
    (filters : ListPromotionsInput) (after : Option Nat) (now : Int) :
    (list newDate p (filters.following after) now).map (fun view => WithBot.some view.id) =
      keysetPage filters.limit (filters.matchingIds p) (cursor after) := by
  have hselects : p.table.rows.filter (filters.following after).selects =
      (p.table.rows.filter filters.matching).filter
        fun row => cursor after < WithBot.some row.id := by
    rw [List.filter_filter]
    apply List.filter_congr
    intro row _
    rw [ListPromotionsInput.selects, Bool.and_comm, ← after_eq]
    rfl
  have hsort (rows : List PromotionRow) :
      (rows.mergeSort fun a b => a.id ≤ b.id).map (fun row => WithBot.some row.id) =
        (rows.map fun row => WithBot.some row.id).mergeSort := by
    apply List.map_mergeSort
    intro a _ b _
    exact decide_eq_decide.2 WithBot.coe_le_coe.symm
  have hids (rows : List PromotionRow) :
      (rows.map fun row => row.columns newDate now).map (fun view => WithBot.some view.id) =
        rows.map fun row => WithBot.some row.id := List.map_map
  rw [list, hids, List.map_take, hsort, hselects, keysetPage, ListPromotionsInput.matchingIds,
    List.filter_map]
  rfl

namespace PromotionWalk

/-- A walk is a scan of the ids, page by page. -/
structure Scans (s : PromotionWalk) (t : KeysetScan (WithBot Nat)) : Prop where
  after : cursor s.after = t.after
  items : s.items.map (fun view => WithBot.some view.id) = t.handed.flatten
  finished : s.finished = t.returned

theorem Scans.next {s : PromotionWalk} {t : KeysetScan (WithBot Nat)} (h : s.Scans t)
    (newDate : Int → Int) (filters : ListPromotionsInput) (p : Promotions) (now : Int) :
    (s.next newDate filters p now).Scans
      (t.next (keysetPage filters.limit (filters.matchingIds p))) := by
  have hids := PromotionRepository.list_ids newDate p filters s.after now
  rw [PromotionWalk.next, KeysetScan.next, h.finished, ← h.after, ← hids, List.getLast?_map,
    ListPromotionsQuery.execute]
  split
  · exact h
  · dsimp only
    cases hlast : (PromotionRepository.list newDate p (filters.following s.after) now).getLast? with
    | none => exact ⟨rfl, h.items, rfl⟩
    | some last =>
      refine ⟨rfl, ?_, rfl⟩
      dsimp only [Option.map_some]
      rw [List.map_append, h.items, List.flatten_append, List.flatten_singleton]

theorem walk_scans (newDate : Int → Int) (filters : ListPromotionsInput)
    (tables : Nat → Promotions) (now : Nat → Int) (k : Nat) :
    (walk newDate filters tables now k).Scans
      (.scan (fun k => keysetPage filters.limit (filters.matchingIds (tables k)))
        (cursor filters.after) k) := by
  induction k with
  | zero => exact ⟨rfl, rfl, rfl⟩
  | succ k ih => exact ih.next newDate filters (tables k) (now k)

end PromotionWalk

end PromotionManagement
