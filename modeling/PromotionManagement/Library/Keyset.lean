import Mathlib.Data.Finset.Filter
import Mathlib.Data.Finset.Card
import Mathlib.Data.List.Sort
import Mathlib.Tactic.Cases

namespace PromotionManagement.Library
set_option autoImplicit true

variable {α : Type}

/-- What a page of a set past a cursor is for: ascending members past it, and none of them passed
over before the page's last. -/
structure IsPage [LT α] (members : α → Prop) (after : α) (ids : List α) : Prop where
  ascending : ids.Pairwise (· < ·)
  sound : ∀ id ∈ ids, members id ∧ after < id
  reaches : ∀ id, members id → after < id → id ∈ ids ∨ ∃ last, ids.getLast? = some last ∧ last < id

/-- The first ids past a cursor, in order. -/
def keysetPage [LinearOrder α] (limit : Nat) (ids : List α) (after : α) : List α :=
  ((ids.filter fun id => after < id).mergeSort).take limit

/-- A scan by key: its cursor, the pages it has handed on, and whether it has met an empty one. -/
structure KeysetScan (α : Type) where
  after : α
  handed : List (List α)
  returned : Bool
  deriving DecidableEq

namespace KeysetScan

/-- Reads the page past the cursor, hands it on and moves the cursor to its last id. -/
def next (s : KeysetScan α) (page : α → List α) : KeysetScan α :=
  if s.returned then s
  else
    match (page s.after).getLast? with
    | none => { s with returned := true }
    | some last => ⟨last, s.handed ++ [page s.after], false⟩

/-- A scan after so many reads, each of a set that may have changed since the one before. -/
def scan (pages : Nat → α → List α) (first : α) : Nat → KeysetScan α
  | 0 => ⟨first, [], false⟩
  | k + 1 => (scan pages first k).next (pages k)

/-- What a scan of a changing set promises. -/
structure Exact [LinearOrder α] (members : Nat → α → Prop) (first : α)
    (s : Nat → KeysetScan α) : Prop where
  /-- The cursor is further on after every read but the last. -/
  advances : ∀ k, (s (k + 1)).returned = false → (s k).after < (s (k + 1)).after
  /-- Nothing is handed on twice. -/
  nodup : ∀ k, (s k).handed.flatten.Nodup
  /-- What is handed on was in the set at the read that found it. -/
  sound : ∀ k, ∀ id ∈ (s k).handed.flatten, ∃ j < k, members j id
  /-- What stays in the set for the whole scan is handed on once. -/
  once : ∀ k, (s k).returned = true → ∀ id, first < id →
    (∀ j, (s j).returned = false → members j id) → (s k).handed.flatten.count id = 1
  /-- Once what is ahead of the cursor is finite, the scan returns. -/
  returns : ∀ k (ahead : Finset α),
    (∀ j, k ≤ j → ∀ id, members j id → (s k).after < id → id ∈ ahead) →
    (s (k + ahead.card + 1)).returned = true

/-- A read returns, or hands on a page and moves the cursor to its last id. -/
theorem next_cases (s : KeysetScan α) (page : α → List α) :
    s.returned = true ∧ s.next page = s ∨
    s.returned = false ∧ page s.after = [] ∧ s.next page = { s with returned := true } ∨
    s.returned = false ∧ ∃ last, (page s.after).getLast? = some last ∧
      s.next page = ⟨last, s.handed ++ [page s.after], false⟩ := by
  rw [next]
  split
  · rename_i h
    exact .inl ⟨h, rfl⟩
  · rename_i h
    right
    have hr := Bool.not_eq_true _ ▸ h
    cases hlast : (page s.after).getLast? with
    | none => exact .inl ⟨hr, List.getLast?_eq_none_iff.1 hlast, rfl⟩
    | some last => exact .inr ⟨hr, last, rfl, rfl⟩

theorem scan_returned_of_le {pages : Nat → α → List α}
    (h : (scan pages first k).returned = true) (hle : k ≤ j) :
    scan pages first j = scan pages first k := by
  induction hle with
  | refl => rfl
  | step _ ih =>
    rw [scan, next, if_pos (ih ▸ h)]
    exact ih

end KeysetScan

variable [LinearOrder α]

theorem IsPage.congr {ids : List α} (h : IsPage members after ids)
    (hmembers : ∀ id, members id ↔ members' id) : IsPage members' after ids := by
  obtain rfl : members = members' := funext fun id => propext (hmembers id)
  exact h

theorem mem_keysetPage {ids : List α} (h : id' ∈ keysetPage limit ids after) :
    id' ∈ ids ∧ after < id' := by
  have hm := List.mem_filter.1 (List.mem_mergeSort.1 (List.mem_of_mem_take h))
  exact ⟨hm.1, of_decide_eq_true hm.2⟩

theorem isPage_keysetPage (hlimit : 1 ≤ limit) {ids : List α} (hids : ids.Nodup) (after : α) :
    IsPage (· ∈ ids) after (keysetPage limit ids after) := by
  let sorted := (ids.filter fun id => after < id).mergeSort
  have hle : sorted.Pairwise (· ≤ ·) := List.pairwise_mergeSort' _ _
  have hnodup : sorted.Nodup := (List.mergeSort_perm _ _).nodup_iff.2 (hids.filter _)
  have hsorted : sorted.Pairwise (· < ·) := (hle.and hnodup).imp fun h => lt_of_le_of_ne h.1 h.2
  constructor
  · exact hsorted.sublist (List.take_sublist _ _)
  · exact fun id hid => mem_keysetPage hid
  · intro id hid hafter
    have hmem : id ∈ sorted :=
      List.mem_mergeSort.2 (List.mem_filter.2 ⟨hid, decide_eq_true hafter⟩)
    have hne : sorted.take limit ≠ [] := by
      rw [Ne, List.take_eq_nil_iff]
      rintro (h | h)
      · exact absurd hlimit (h ▸ Nat.not_succ_le_zero 0)
      · exact List.ne_nil_of_mem hmem h
    rw [← List.take_append_drop limit sorted] at hmem hsorted
    rcases List.mem_append.1 hmem with ht | hd
    · exact .inl ht
    · right
      refine ⟨_, List.getLast?_eq_some_getLast hne, ?_⟩
      exact (List.pairwise_append.1 hsorted).2.2 _ (List.getLast_mem hne) _ hd

namespace KeysetScan

variable {pages : Nat → α → List α} {first : α}

/-- What has been handed on ascends to the cursor. -/
structure Ordered (members : Nat → α → Prop) (k : Nat) (s : KeysetScan α) : Prop where
  ascending : s.handed.flatten.Pairwise (· < ·)
  le : ∀ id ∈ s.handed.flatten, id ≤ s.after
  sound : ∀ id ∈ s.handed.flatten, ∃ j < k, members j id

variable {members : Nat → α → Prop}

theorem le_getLast {ids : List α} (h : ids.Pairwise (· < ·)) (hlast : ids.getLast? = some last)
    (hid : id' ∈ ids) : id' ≤ last := by
  obtain ⟨init, rfl⟩ := List.getLast?_eq_some_iff.1 hlast
  rcases List.mem_append.1 hid with hid | hid
  · exact le_of_lt ((List.pairwise_append.1 h).2.2 _ hid _ (List.mem_singleton_self _))
  · exact le_of_eq (List.mem_singleton.1 hid)

theorem Ordered.next {s : KeysetScan α} (h : s.Ordered members k) {page : α → List α}
    (hpage : IsPage (members k) s.after (page s.after)) :
    (s.next page).Ordered members (k + 1) := by
  have hsound (id : α) (hid : id ∈ s.handed.flatten) : ∃ j < k + 1, members j id := by
    obtain ⟨j, hj, hm⟩ := h.sound id hid
    exact ⟨j, Nat.lt_succ_of_lt hj, hm⟩
  rcases next_cases s page with ⟨_, he⟩ | ⟨_, _, he⟩ | ⟨_, last, hlast, he⟩
  · rw [he]
    exact ⟨h.ascending, h.le, hsound⟩
  · rw [he]
    exact ⟨h.ascending, h.le, hsound⟩
  · have hlt := (hpage.sound last (List.mem_of_getLast? hlast)).2
    rw [he]
    constructor
    · rw [List.flatten_append, List.flatten_singleton, List.pairwise_append]
      exact ⟨h.ascending, hpage.ascending, fun a ha b hb =>
        lt_of_le_of_lt (h.le a ha) (hpage.sound b hb).2⟩
    · intro id hid
      rw [List.flatten_append, List.flatten_singleton] at hid
      rcases List.mem_append.1 hid with hid | hid
      · exact (h.le id hid).trans (le_of_lt hlt)
      · exact le_getLast hpage.ascending hlast hid
    · intro id hid
      rw [List.flatten_append, List.flatten_singleton] at hid
      rcases List.mem_append.1 hid with hid | hid
      · exact hsound id hid
      · exact ⟨k, Nat.lt_succ_self k, (hpage.sound id hid).1⟩

theorem scan_ordered (hpages : ∀ k after, IsPage (members k) after (pages k after)) (first : α)
    (k : Nat) : (scan pages first k).Ordered members k := by
  induction k with
  | zero => exact ⟨.nil, fun _ h => absurd h List.not_mem_nil, fun _ h => absurd h List.not_mem_nil⟩
  | succ k ih => exact ih.next (hpages k _)

/-- What stays in the set is handed on, or still ahead of the cursor. -/
theorem scan_covers (hpages : ∀ k after, IsPage (members k) after (pages k after))
    (hfirst : first < id') (k : Nat)
    (hstays : ∀ j < k, (scan pages first j).returned = false → members j id') :
    id' ∈ (scan pages first k).handed.flatten ∨
      (scan pages first k).returned = false ∧ (scan pages first k).after < id' := by
  induction k with
  | zero => exact .inr ⟨rfl, hfirst⟩
  | succ k ih =>
    have hbefore := ih fun j hj => hstays j (Nat.lt_succ_of_lt hj)
    rw [scan]
    rcases next_cases (scan pages first k) (pages k) with
      ⟨_, he⟩ | ⟨hr, hempty, he⟩ | ⟨hr, last, hlast, he⟩
    · rw [he]
      exact hbefore
    · rw [he]
      rcases hbefore with hin | ⟨_, hlt⟩
      · exact .inl hin
      · rcases (hpages k _).reaches id' (hstays k (Nat.lt_succ_self k) hr) hlt with hm | ⟨l, hl, _⟩
        · rw [hempty] at hm
          exact absurd hm List.not_mem_nil
        · rw [hempty] at hl
          cases hl
    · rw [he, List.flatten_append, List.flatten_singleton, List.mem_append]
      rcases hbefore with hin | ⟨_, hlt⟩
      · exact .inl (.inl hin)
      · have hstay := hstays k (Nat.lt_succ_self k) hr
        rcases (hpages k _).reaches id' hstay hlt with hm | ⟨l, hl, hll⟩
        · exact .inl (.inr hm)
        · rw [hlast] at hl
          cases hl
          exact .inr ⟨rfl, hll⟩

/-- A read that does not return moves the cursor to a later member. -/
theorem scan_advances (hpages : ∀ k after, IsPage (members k) after (pages k after))
    (h : (scan pages first (k + 1)).returned = false) :
    members k (scan pages first (k + 1)).after ∧
      (scan pages first k).after < (scan pages first (k + 1)).after := by
  rw [scan] at h ⊢
  rcases next_cases (scan pages first k) (pages k) with
    ⟨hr, he⟩ | ⟨_, _, he⟩ | ⟨_, last, hlast, he⟩
  · rw [he, hr] at h
    cases h
  · rw [he] at h
    cases h
  · rw [he]
    exact (hpages k _).sound last (List.mem_of_getLast? hlast)

/-- Every read but the last leaves less ahead of the cursor. -/
theorem scan_returns (hpages : ∀ k after, IsPage (members k) after (pages k after)) (n k : Nat)
    (ahead : Finset α)
    (hahead : ∀ j, k ≤ j → ∀ id, members j id → (scan pages first k).after < id → id ∈ ahead)
    (hcard : (ahead.filter fun id => (scan pages first k).after < id).card ≤ n) :
    (scan pages first (k + n + 1)).returned = true := by
  induction n generalizing k with
  | zero =>
    by_contra hr
    obtain ⟨hm, hlt⟩ := scan_advances hpages (Bool.not_eq_true _ ▸ hr)
    have hin := Finset.mem_filter.2 ⟨hahead k (Nat.le_refl k) _ hm hlt, hlt⟩
    rw [Finset.card_eq_zero.1 (Nat.le_zero.1 hcard)] at hin
    exact Finset.notMem_empty _ hin
  | succ n ih =>
    by_cases hnext : (scan pages first (k + 1)).returned = true
    · rw [scan_returned_of_le hnext (by omega)]
      exact hnext
    · obtain ⟨hm, hlt⟩ := scan_advances hpages (Bool.not_eq_true _ ▸ hnext)
      rw [show k + (n + 1) + 1 = k + 1 + n + 1 by omega]
      apply ih (k + 1)
      · exact fun j hj id hid hafter => hahead j (Nat.le_of_succ_le hj) id hid (hlt.trans hafter)
      · apply Nat.le_of_lt_succ
        refine lt_of_lt_of_le (Finset.card_lt_card ?_) hcard
        rw [Finset.ssubset_iff_of_subset]
        · refine ⟨_, Finset.mem_filter.2 ⟨hahead k (Nat.le_refl k) _ hm hlt, hlt⟩, ?_⟩
          rw [Finset.mem_filter]
          exact fun h => lt_irrefl _ h.2
        · exact Finset.monotone_filter_right _ fun id _ hid => hlt.trans hid

/-- A scan whose reads are pages of the set as it then is misses and repeats nothing that stays. -/
theorem scan_exact (hpages : ∀ k after, IsPage (members k) after (pages k after)) :
    Exact members first (scan pages first) := by
  have hordered := scan_ordered hpages first
  have hnodup (k : Nat) : (scan pages first k).handed.flatten.Nodup :=
    (hordered k).ascending.imp ne_of_lt
  constructor
  · exact fun k h => (scan_advances hpages h).2
  · exact hnodup
  · exact fun k => (hordered k).sound
  · intro k hr id hid hstays
    rcases scan_covers hpages hid k fun j _ hj => hstays j hj with hin | ⟨hf, _⟩
    · exact List.count_eq_one_of_mem (hnodup k) hin
    · rw [hr] at hf
      cases hf
  · exact fun k ahead hahead =>
      scan_returns hpages _ k ahead hahead (Finset.card_filter_le _ _)

end KeysetScan

end PromotionManagement.Library
