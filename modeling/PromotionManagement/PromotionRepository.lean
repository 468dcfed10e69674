import PromotionManagement.Library.Table
import PromotionManagement.Text

namespace PromotionManagement
open Library
set_option autoImplicit true

inductive DiscountType where
  | percentage
  | fixed
deriving DecidableEq, Repr

inductive PromotionStatus where
  | draft
  | active
  | cancelled
deriving DecidableEq, Repr

/-- What a promotion is doing right now, as opposed to the status an admin set. -/
inductive PromotionState where
  | draft
  | scheduled
  | live
  | expired
  | cancelled
deriving DecidableEq, Repr

/-- A `promotions` row. Instants are microseconds, as `timestamptz` keeps them. -/
structure PromotionRow where
  id : Nat
  name : Text
  discountType : DiscountType
  value : Nat
  startsAt : Int
  endsAt : Int
  productId : Option Nat
  category : Option Text
  status : PromotionStatus
  createdAt : Int
  cancelledAt : Option Int
deriving DecidableEq

structure CreatePromotion where
  name : Text
  discountType : DiscountType
  value : Nat
  startsAt : Int
  endsAt : Int
  productId : Option Nat
  category : Option Text

structure AssignPromotion where
  productId : Option Nat
  category : Option Text

/-- How a write of a promotion ends: a refusal is an answer, a check violation is raised. -/
inductive PromotionWriteOutcome where
  | ok (promotion : PromotionRow)
  | refused (reason : String)
  | raised

structure Promotions where
  table : Table PromotionRow.id
  sequence : Nat

namespace PromotionRow

def checks (p : PromotionRow) : Bool :=
  p.startsAt < p.endsAt && 0 < p.value &&
    (p.discountType ≠ .percentage || p.value ≤ 10000) &&
    (p.status ≠ .active || (p.productId.isNone != p.category.isNone)) &&
    (p.status ≠ .draft || (p.productId.isNone && p.category.isNone))

/-- The two exclusion constraints: active rows of one target whose ranges meet. -/
def excludes (p q : PromotionRow) : Bool :=
  p.id ≠ q.id && p.status = .active && q.status = .active &&
    ((p.productId.isSome && p.productId = q.productId) ||
      (p.category.isSome && p.category = q.category)) &&
    p.startsAt < q.endsAt && q.startsAt < p.endsAt

/-- `tstzrange(starts_at, ends_at) @> now()` of an active row, as `active_promotions` selects. -/
def activeAt (p : PromotionRow) (now : Int) : Bool :=
  p.status = .active && p.startsAt ≤ now && now < p.endsAt

/-- The `state` column. The order of the arms is its definition: cancelled outranks any window. -/
def state (p : PromotionRow) (now : Int) : PromotionState :=
  if p.status = .cancelled then .cancelled
  else if p.status = .draft then .draft
  else if p.startsAt > now then .scheduled
  else if p.endsAt ≤ now then .expired
  else .live

theorem activeAt_iff_live (p : PromotionRow) (now : Int) :
    p.activeAt now = true ↔ p.state now = .live := by
  rw [activeAt, state]
  cases p.status with
  | draft => simp
  | cancelled => simp
  | active =>
    by_cases hs : p.startsAt ≤ now
    · simp [hs, not_lt.2 hs]
    · simp [hs, not_le.1 hs]

def assigned (target : AssignPromotion) (p : PromotionRow) : PromotionRow :=
  { p with productId := target.productId, category := target.category, status := .active }

@[simp] theorem assigned_id (target : AssignPromotion) (p : PromotionRow) :
    (p.assigned target).id = p.id := rfl

theorem assigned_ne_draft (target : AssignPromotion) (p : PromotionRow) :
    (p.assigned target).status ≠ .draft := fun h => nomatch h

def cancelled (now : Int) (p : PromotionRow) : PromotionRow :=
  { p with status := .cancelled, cancelledAt := some now }

@[simp] theorem cancelled_id (now : Int) (p : PromotionRow) : (p.cancelled now).id = p.id := rfl

theorem cancelled_ne_draft (now : Int) (p : PromotionRow) : (p.cancelled now).status ≠ .draft :=
  fun h => nomatch h

end PromotionRow

/-- The first instant of the year 100, in UTC. -/
def year100 : Int := -59011459200000000

/-- The first instant after the year 9999. -/
def year10000 : Int := 253402300800000000

/-- What `new Date` makes of an instant in the format that PostgreSQL prints: for years of three and
four digits its milliseconds. An earlier year is taken for one of the last century or of this one,
for a month, or for no date. -/
def ReadsDates (newDate : Int → Int) : Prop :=
  ∀ instant, year100 ≤ instant → instant < year10000 → newDate instant = instant / 1000

/-- A reading of dates that is right in every year. -/
def millis (instant : Int) : Int := instant / 1000

theorem readsDates_millis : ReadsDates millis := fun _ _ _ => rfl

/-- An instant of whole milliseconds that is read back as it was written. -/
def PlainDate (instant : Int) : Prop :=
  1000 ∣ instant ∧ year100 ≤ instant ∧ instant < year10000

theorem PlainDate.readBack (h : PlainDate instant) (hdates : ReadsDates newDate) :
    newDate instant * 1000 = instant := by
  rw [hdates instant h.2.1 h.2.2, Int.ediv_mul_cancel h.1]

namespace Promotions

def empty : Promotions := ⟨.empty, 1⟩

/-- What a statement that would leave `row` in the table is answered with, if it is refused. -/
def violation (p : Promotions) (productExists : Nat → Bool) (row : PromotionRow) :
    Option PromotionWriteOutcome :=
  if !row.checks then some .raised
  else if p.table.rows.any row.excludes then some (.refused "overlap")
  else if row.productId.any fun id => !productExists id then some (.refused "no-such-product")
  else none

def inserted (p : Promotions) (input : CreatePromotion) (now : Int) : PromotionRow where
  id := p.sequence
  name := input.name
  discountType := input.discountType
  value := input.value
  startsAt := input.startsAt
  endsAt := input.endsAt
  productId := input.productId
  category := input.category
  status := if input.productId.isSome || input.category.isSome then .active else .draft
  createdAt := now
  cancelledAt := none

def insert (p : Promotions) (productExists : Nat → Bool) (input : CreatePromotion) (now : Int) :
    Promotions × PromotionWriteOutcome :=
  let row := p.inserted input now
  match p.violation productExists row with
  | some refusal => ({ p with sequence := p.sequence + 1 }, refusal)
  | none =>
    if p.table.find row.id = none then
      (⟨p.table.insert row, p.sequence + 1⟩, .ok row)
    else ({ p with sequence := p.sequence + 1 }, .raised)

def assign (p : Promotions) (productExists : Nat → Bool) (id : Nat) (target : AssignPromotion)
    (now : Int) : Promotions × PromotionWriteOutcome :=
  let matching (row : PromotionRow) : Bool := row.status = .draft && now < row.endsAt
  match p.table.updated id matching (PromotionRow.assigned target) with
  | some row =>
    match p.violation productExists row with
    | some refusal => (p, refusal)
    | none =>
      ({ p with table := p.table.update id matching (PromotionRow.assigned target)
                  (PromotionRow.assigned_id target) }, .ok row)
  | none =>
    match p.table.find id with
    | some _ => (p, .refused "not-assignable")
    | none => (p, .refused "not-found")

/-- Cancels a promotion. The flag of the answer is `changed`. -/
def cancel (p : Promotions) (id : Nat) (now : Int) :
    Promotions × Option (PromotionRow × Bool) :=
  let matching (row : PromotionRow) : Bool := row.status ≠ .cancelled
  match p.table.updated id matching (PromotionRow.cancelled now) with
  | some row =>
    ({ p with table := p.table.update id matching (PromotionRow.cancelled now)
                (PromotionRow.cancelled_id now) }, some (row, true))
  | none => (p, (p.table.find id).map fun row => (row, false))

theorem violation_ne_ok {p : Promotions} (h : p.violation productExists row = some outcome)
    (r : PromotionRow) : outcome ≠ .ok r := by
  rintro rfl
  rw [violation] at h
  split at h
  · cases h
  · split at h
    · cases h
    · split at h
      · cases h
      · cases h

theorem checks_of_violation {p : Promotions} (h : p.violation productExists row = none) :
    row.checks = true := by
  rw [violation] at h
  split at h
  · cases h
  · rename_i hc
    simpa only [Bool.not_eq_true, Bool.not_eq_false'] using hc

theorem not_excludes_of_violation {p : Promotions} (h : p.violation productExists row = none)
    (hq : q ∈ p.table.rows) : row.excludes q = false := by
  rw [violation] at h
  split at h
  · cases h
  · split at h
    · cases h
    · rename_i hx
      rw [List.any_eq_true] at hx
      exact Bool.eq_false_iff.2 fun he => hx ⟨q, hq, he⟩

theorem inserted_ne_cancelled (p : Promotions) (input : CreatePromotion) (now : Int) :
    (p.inserted input now).status ≠ .cancelled := by
  rw [inserted]
  dsimp only
  split
  · exact PromotionStatus.noConfusion
  · exact PromotionStatus.noConfusion

/-- An insert adds one new row, or none. -/
theorem insert_cases (p : Promotions) (productExists : Nat → Bool) (input : CreatePromotion)
    (now : Int) :
    (p.table.find (p.inserted input now).id = none ∧ (p.inserted input now).checks ∧
        p.insert productExists input now =
          (⟨p.table.insert (p.inserted input now), p.sequence + 1⟩,
            .ok (p.inserted input now))) ∨
      ((p.insert productExists input now).1.table = p.table ∧
        ∀ row, (p.insert productExists input now).2 ≠ .ok row) := by
  cases hv : p.violation productExists (p.inserted input now) with
  | some refusal =>
    right
    simp only [insert, hv, true_and]
    exact violation_ne_ok hv
  | none =>
    by_cases hf : p.table.find (p.inserted input now).id = none
    · left
      simp only [insert, hv, hf, checks_of_violation hv, if_true, and_self]
    · right
      simp only [insert, hv, hf, if_false, true_and]
      intro row hr
      cases hr

/-- An assignment turns one draft into an active row, or changes nothing. -/
theorem assign_cases (p : Promotions) (productExists : Nat → Bool) (id : Nat)
    (target : AssignPromotion) (now : Int) :
    (∃ row, p.table.find id = some row ∧ row.status = .draft ∧ now < row.endsAt ∧
        (row.assigned target).checks ∧
        (p.assign productExists id target now).1.table =
          p.table.update id (fun row => row.status = .draft && now < row.endsAt)
            (PromotionRow.assigned target) (PromotionRow.assigned_id target) ∧
        (p.assign productExists id target now).2 = .ok (row.assigned target)) ∨
      ((p.assign productExists id target now).1 = p ∧
        ∀ row, (p.assign productExists id target now).2 ≠ .ok row) := by
  cases hu : p.table.updated id (fun row => row.status = .draft && now < row.endsAt)
      (PromotionRow.assigned target) with
  | none =>
    right
    cases hf : p.table.find id with
    | none =>
      simp only [assign, hu, hf, true_and]
      intro row hr
      cases hr
    | some row =>
      simp only [assign, hu, hf, true_and]
      intro row hr
      cases hr
  | some row =>
    cases hv : p.violation productExists row with
    | some refusal =>
      right
      simp only [assign, hu, hv, true_and]
      exact violation_ne_ok hv
    | none =>
      left
      obtain ⟨old, hf, hg, rfl⟩ := Table.updated_eq_some.1 hu
      rw [Bool.and_eq_true, decide_eq_true_iff, decide_eq_true_iff] at hg
      refine ⟨old, hf, hg.1, hg.2, checks_of_violation hv, ?_⟩
      simp only [assign, hu, hv, and_self]

/-- A row that was written was refused by no constraint. -/
theorem violation_of_insert {p : Promotions} (h : (p.insert productExists input now).2 = .ok row) :
    p.violation productExists row = none := by
  rw [insert] at h
  split at h
  · rename_i hv
    exact absurd h (violation_ne_ok hv row)
  · rename_i hv
    split at h
    · cases h
      exact hv
    · cases h

theorem violation_of_assign {p : Promotions} {id : Nat}
    (h : (p.assign productExists id target now).2 = .ok row) :
    p.violation productExists row = none := by
  rw [assign] at h
  split at h
  · split at h
    · rename_i hv
      exact absurd h (violation_ne_ok hv row)
    · rename_i hv
      cases h
      exact hv
  · split at h
    · cases h
    · cases h

/-- A cancellation marks one row that was not cancelled, or changes nothing. -/
theorem cancel_cases (p : Promotions) (id : Nat) (now : Int) :
    (∃ row, p.table.find id = some row ∧ row.status ≠ .cancelled ∧
        (p.cancel id now).1.table =
          p.table.update id (fun row => row.status ≠ .cancelled) (PromotionRow.cancelled now)
            (PromotionRow.cancelled_id now) ∧
        (p.cancel id now).2 = some (row.cancelled now, true)) ∨
      ((p.cancel id now).1 = p ∧ ∀ row, (p.cancel id now).2 ≠ some (row, true)) := by
  cases hu : p.table.updated id (fun row => row.status ≠ .cancelled)
      (PromotionRow.cancelled now) with
  | none =>
    right
    simp only [cancel, hu, true_and]
    intro row hr
    cases hf : p.table.find id with
    | none =>
      rw [hf] at hr
      cases hr
    | some old =>
      rw [hf] at hr
      cases hr
  | some row =>
    left
    obtain ⟨old, hf, hg, rfl⟩ := Table.updated_eq_some.1 hu
    refine ⟨old, hf, of_decide_eq_true hg, ?_⟩
    simp only [cancel, hu, and_self]

end Promotions

end PromotionManagement
