import PromotionManagement.Library.Run
import PromotionManagement.ProductSourceRepository

namespace PromotionManagement
open Library
set_option autoImplicit true

/-- A write of the `promotions` table, at the instant its statement reads as `now()`. -/
inductive PromotionEvent where
  | insert (productExists : Nat → Bool) (input : CreatePromotion) (now : Int)
  | assign (productExists : Nat → Bool) (id : Nat) (target : AssignPromotion) (now : Int)
  | cancel (id : Nat) (now : Int)

namespace Promotions
open ProductSourceRepository

def step (p : Promotions) : PromotionEvent → Promotions
  | .insert productExists input now => (p.insert productExists input now).1
  | .assign productExists id target now => (p.assign productExists id target now).1
  | .cancel id now => (p.cancel id now).1

/-- The table as some writes leave it, in the order in which they commit. -/
def reached (events : List PromotionEvent) : Promotions := run step .empty events

theorem reached_append (events more : List PromotionEvent) :
    reached (events ++ more) = run step (reached events) more := run_append _ _ _ _

/-- An assignment of this promotion that succeeds. -/
def assigns (promotionId : Nat) (p : Promotions) : PromotionEvent → Bool
  | .assign productExists id target now =>
    id = promotionId && match (p.assign productExists id target now).2 with
      | .ok _ => true
      | _ => false
  | _ => false

/-- A cancellation of this promotion, while it is in the table. -/
def answers (promotionId : Nat) (p : Promotions) : PromotionEvent → Bool
  | .cancel id _ => id = promotionId && (p.table.find id).isSome
  | _ => false

/-- A cancellation of this promotion that reports `changed`. -/
def changes (promotionId : Nat) (p : Promotions) : PromotionEvent → Bool
  | .cancel id now => id = promotionId && (p.cancel id now).2.any fun answer => answer.2
  | _ => false

/-- What an event may make of a stored row. -/
inductive Moves : PromotionEvent → PromotionRow → PromotionRow → Prop where
  | kept : Moves event row row
  | assigned : row.status = .draft →
      Moves (.assign productExists row.id target now) row (row.assigned target)
  | cancelled : row.status ≠ .cancelled → Moves (.cancel row.id now) row (row.cancelled now)

theorem Moves.id (h : Moves event row row') : row'.id = row.id := by
  cases h with
  | kept => rfl
  | assigned => rfl
  | cancelled => rfl

/-- The constraints of the table: what a row states of itself, and what no two rows may state. -/
structure Constrained (p : Promotions) : Prop where
  checks : ∀ row ∈ p.table.rows, row.checks = true
  disjoint : ∀ row ∈ p.table.rows, ∀ other ∈ p.table.rows, row.excludes other = false

theorem shared_comm {a b : Option α} (h : a.isSome = true ∧ a = b) : b.isSome = true ∧ b = a :=
  ⟨h.2 ▸ h.1, h.2.symm⟩

theorem excludes_comm (p q : PromotionRow) : p.excludes q = q.excludes p := by
  apply Bool.eq_iff_iff.2
  simp only [PromotionRow.excludes, Bool.and_eq_true, Bool.or_eq_true, decide_eq_true_eq]
  constructor
  · rintro ⟨⟨⟨⟨⟨hid, hp⟩, hq⟩, ht⟩, hs⟩, he⟩
    refine ⟨⟨⟨⟨⟨Ne.symm hid, hq⟩, hp⟩, ?_⟩, he⟩, hs⟩
    exact ht.imp shared_comm shared_comm
  · rintro ⟨⟨⟨⟨⟨hid, hq⟩, hp⟩, ht⟩, hs⟩, he⟩
    refine ⟨⟨⟨⟨⟨Ne.symm hid, hp⟩, hq⟩, ?_⟩, he⟩, hs⟩
    exact ht.imp shared_comm shared_comm

theorem not_excludes_self (p : PromotionRow) : p.excludes p = false := by
  simp only [PromotionRow.excludes, ne_eq, not_true_eq_false, decide_false, Bool.false_and]

/-- A row that a statement wrote without a refusal keeps the constraints. -/
theorem Constrained.write {p q : Promotions} (h : Constrained p)
    (hv : p.violation productExists row = none)
    (hq : ∀ r ∈ q.table.rows, r ∈ p.table.rows ∨ r = row) : Constrained q where
  checks := by
    intro r hr
    rcases hq r hr with hr | rfl
    · exact h.checks r hr
    · exact checks_of_violation hv
  disjoint := by
    intro r hr s hs
    rcases hq r hr with hr | rfl
    · rcases hq s hs with hs | rfl
      · exact h.disjoint r hr s hs
      · rw [excludes_comm]
        exact not_excludes_of_violation hv hr
    · rcases hq s hs with hs | rfl
      · exact not_excludes_of_violation hv hs
      · exact not_excludes_self s

/-- A cancelled row is under no constraint but its own window and value. -/
theorem Constrained.cancel {p q : Promotions} (h : Constrained p)
    (hq : ∀ r ∈ q.table.rows, r ∈ p.table.rows ∨ ∃ s ∈ p.table.rows, r = s.cancelled now) :
    Constrained q where
  checks := by
    intro r hr
    rcases hq r hr with hr | ⟨s, hs, rfl⟩
    · exact h.checks r hr
    · have hc := h.checks s hs
      simp only [PromotionRow.checks, Bool.and_eq_true] at hc ⊢
      exact ⟨⟨hc.1.1, rfl⟩, rfl⟩
  disjoint := by
    intro r hr s hs
    rcases hq r hr with hr | ⟨r', _, rfl⟩
    · rcases hq s hs with hs | ⟨s', _, rfl⟩
      · exact h.disjoint r hr s hs
      · rw [excludes_comm]
        simp only [PromotionRow.excludes, PromotionRow.cancelled, reduceCtorEq, decide_false,
          Bool.and_false, Bool.false_and]
    · simp only [PromotionRow.excludes, PromotionRow.cancelled, reduceCtorEq, decide_false,
        Bool.and_false, Bool.false_and]

/-- An event leaves the table, adds one row that was not there, or moves one row. -/
theorem step_cases (p : Promotions) (event : PromotionEvent) :
    (p.step event).table = p.table ∨
    (∃ productExists input now, event = .insert productExists input now ∧
      p.table.find (p.inserted input now).id = none ∧
      p.violation productExists (p.inserted input now) = none ∧
      (p.step event).table = p.table.insert (p.inserted input now)) ∨
    (∃ productExists row target now, row ∈ p.table.rows ∧ row.status = .draft ∧
      event = .assign productExists row.id target now ∧
      p.violation productExists (row.assigned target) = none ∧
      (∀ r, r ∈ (p.step event).table.rows ↔
        (r ∈ p.table.rows ∧ r ≠ row) ∨ r = row.assigned target)) ∨
    ∃ row now, row ∈ p.table.rows ∧ row.status ≠ .cancelled ∧ event = .cancel row.id now ∧
      (∀ r, r ∈ (p.step event).table.rows ↔
        (r ∈ p.table.rows ∧ r ≠ row) ∨ r = row.cancelled now) := by
  cases event with
  | insert productExists input now =>
    rcases p.insert_cases productExists input now with ⟨hf, _, hi⟩ | ⟨ht, _⟩
    · right
      left
      refine ⟨productExists, input, now, rfl, hf, ?_, ?_⟩
      · apply violation_of_insert
        rw [hi]
      · rw [step, hi]
    · exact .inl ht
  | assign productExists id target now =>
    rcases p.assign_cases productExists id target now with ⟨row, hf, hs, hl, _, ht, ho⟩ | ⟨hp, _⟩
    · right
      right
      left
      have hid := Table.find_some_key hf
      subst hid
      refine ⟨productExists, row, target, now, Table.find_some_mem hf, hs, rfl,
        violation_of_assign ho, ?_⟩
      intro r
      rw [step, ht]
      apply Table.mem_update_of_find hf
      rw [decide_eq_true hs, decide_eq_true hl]
      rfl
    · exact .inl (congrArg Promotions.table hp)
  | cancel id now =>
    rcases p.cancel_cases id now with ⟨row, hf, hs, ht, _⟩ | ⟨hp, _⟩
    · right
      right
      right
      have hid := Table.find_some_key hf
      subst hid
      refine ⟨row, now, Table.find_some_mem hf, hs, rfl, ?_⟩
      intro r
      rw [step, ht]
      exact Table.mem_update_of_find hf (decide_eq_true hs)
    · exact .inl (congrArg Promotions.table hp)

theorem Constrained.step {p : Promotions} (h : Constrained p) (event : PromotionEvent) :
    Constrained (p.step event) := by
  rcases p.step_cases event with ht | ⟨productExists, input, now, _, hf, hv, ht⟩ |
    ⟨productExists, row, target, now, _, _, _, hv, ht⟩ | ⟨row, now, hr, _, _, ht⟩
  · exact ⟨ht ▸ h.checks, ht ▸ h.disjoint⟩
  · apply h.write hv
    intro r hr
    rw [ht, Table.mem_insert _ _ hf] at hr
    exact hr
  · apply h.write hv
    intro r hr
    exact ((ht r).1 hr).imp And.left id
  · apply h.cancel
    intro r hr'
    exact ((ht r).1 hr').imp And.left fun he => ⟨row, hr, he⟩

theorem Constrained.reached (events : List PromotionEvent) : Constrained (reached events) := by
  apply run_invariant_always (I := Constrained) (fun _ event h => h.step event)
  constructor
  · intro row hr
    cases hr
  · intro row hr
    cases hr

/-- A stored row is never lost: an event moves it or keeps it. -/
theorem step_moves (p : Promotions) (event : PromotionEvent) (hr : row ∈ p.table.rows) :
    ∃ row' ∈ (p.step event).table.rows, Moves event row row' := by
  rcases p.step_cases event with ht | ⟨_, _, _, _, hf, _, ht⟩ |
    ⟨_, old, target, now, _, hs, rfl, _, ht⟩ | ⟨old, now, _, hs, rfl, ht⟩
  · exact ⟨row, ht ▸ hr, .kept⟩
  · refine ⟨row, ?_, .kept⟩
    rw [ht, Table.mem_insert _ _ hf]
    exact .inl hr
  · by_cases he : row = old
    · subst he
      exact ⟨_, (ht _).2 (.inr rfl), .assigned hs⟩
    · exact ⟨row, (ht _).2 (.inl ⟨hr, he⟩), .kept⟩
  · by_cases he : row = old
    · subst he
      exact ⟨_, (ht _).2 (.inr rfl), .cancelled hs⟩
    · exact ⟨row, (ht _).2 (.inl ⟨hr, he⟩), .kept⟩

/-- What an event leaves in the table was moved from a row of it, or is new and not cancelled. -/
theorem step_from (p : Promotions) (event : PromotionEvent)
    (hr : row' ∈ (p.step event).table.rows) :
    (∃ row ∈ p.table.rows, Moves event row row') ∨
      (p.table.find row'.id = none ∧ row'.status ≠ .cancelled) := by
  rcases p.step_cases event with ht | ⟨_, input, now, _, hf, _, ht⟩ |
    ⟨_, old, target, now, ho, hs, rfl, _, ht⟩ | ⟨old, now, ho, hs, rfl, ht⟩
  · exact .inl ⟨row', ht ▸ hr, .kept⟩
  · rw [ht, Table.mem_insert _ _ hf] at hr
    rcases hr with hr | rfl
    · exact .inl ⟨row', hr, .kept⟩
    · exact .inr ⟨hf, p.inserted_ne_cancelled input now⟩
  · rcases (ht _).1 hr with ⟨hr, _⟩ | rfl
    · exact .inl ⟨row', hr, .kept⟩
    · exact .inl ⟨old, ho, .assigned hs⟩
  · rcases (ht _).1 hr with ⟨hr, _⟩ | rfl
    · exact .inl ⟨row', hr, .kept⟩
    · exact .inl ⟨old, ho, .cancelled hs⟩

def Taken (id : Nat) (p : Promotions) : Prop :=
  ∃ row ∈ p.table.rows, row.id = id ∧ row.status ≠ .draft

def Cancelled (id : Nat) (p : Promotions) : Prop :=
  ∃ row ∈ p.table.rows, row.id = id ∧ row.status = .cancelled

theorem Moves.ne_draft (h : Moves event row row') (hr : row.status ≠ .draft) :
    row'.status ≠ .draft := by
  cases h with
  | kept => exact hr
  | assigned hd => exact absurd hd hr
  | cancelled => exact fun h => nomatch h

theorem Moves.of_cancelled (h : Moves event row row') (hr : row.status = .cancelled) :
    row' = row := by
  cases h with
  | kept => rfl
  | assigned hd =>
    rw [hr] at hd
    cases hd
  | cancelled hn => exact absurd hr hn

theorem Taken.step (h : Taken promotionId p) (event : PromotionEvent) :
    Taken promotionId (p.step event) := by
  obtain ⟨row, hr, hid, hs⟩ := h
  obtain ⟨row', hr', hm⟩ := p.step_moves event hr
  exact ⟨row', hr', hm.id.trans hid, hm.ne_draft hs⟩

/-- A cancelled row stays as it is, its `cancelledAt` included. -/
theorem cancelled_kept {p : Promotions} (hr : row ∈ p.table.rows) (hs : row.status = .cancelled)
    (event : PromotionEvent) : row ∈ (p.step event).table.rows := by
  obtain ⟨row', hr', hm⟩ := p.step_moves event hr
  exact hm.of_cancelled hs ▸ hr'

theorem Cancelled.step (h : Cancelled promotionId p) (event : PromotionEvent) :
    Cancelled promotionId (p.step event) := by
  obtain ⟨row, hr, hid, hs⟩ := h
  exact ⟨row, cancelled_kept hr hs event, hid, hs⟩

theorem not_assigns_of_taken (h : Taken promotionId p) (event : PromotionEvent) :
    assigns promotionId p event = false := by
  cases event with
  | insert => rfl
  | cancel => rfl
  | assign productExists id target now =>
    obtain ⟨row, hr, rfl, hs⟩ := h
    apply Bool.eq_false_iff.2
    intro ha
    obtain ⟨hid, ha⟩ := Bool.and_eq_true_iff.1 ha
    obtain rfl := of_decide_eq_true hid
    rcases p.assign_cases productExists row.id target now with ⟨old, hf, hd, _⟩ | ⟨_, hn⟩
    · rw [p.table.find_of_mem hr] at hf
      cases hf
      exact hs hd
    · split at ha
      · rename_i hok
        exact hn _ hok
      · cases ha

theorem taken_of_assigns (h : assigns promotionId p event = true) :
    Taken promotionId (p.step event) := by
  cases event with
  | insert => cases h
  | cancel => cases h
  | assign productExists id target now =>
    obtain ⟨hid, ha⟩ := Bool.and_eq_true_iff.1 h
    obtain rfl := of_decide_eq_true hid
    rcases p.assign_cases productExists id target now with
      ⟨row, hf, hs, hl, _, ht, _⟩ | ⟨_, hn⟩
    · have hid : row.id = id := Table.find_some_key hf
      refine ⟨row.assigned target, ?_, hid, row.assigned_ne_draft target⟩
      rw [Promotions.step, ht]
      apply Table.set_mem_update (Table.find_some_mem hf) (Table.find_some_key hf)
      rw [decide_eq_true hs, decide_eq_true hl]
      rfl
    · split at ha
      · rename_i hok
        exact absurd hok (hn _)
      · cases ha

/-- A cancellation is answered with the promotion it finds, changed unless it was cancelled. -/
theorem cancel_answer (p : Promotions) (id : Nat) (now : Int) :
    (p.cancel id now).2 = (p.table.find id).map fun row =>
      if row.status ≠ .cancelled then (row.cancelled now, true) else (row, false) := by
  cases hf : p.table.find id with
  | none => simp only [cancel, Table.updated, hf, Option.bind_none, Option.map_none]
  | some row =>
    by_cases hs : row.status = .cancelled
    · simp [cancel, Table.updated, hf, hs]
    · simp [cancel, Table.updated, hf, hs]

theorem changes_iff (promotionId : Nat) (p : Promotions) (event : PromotionEvent) :
    changes promotionId p event = true ↔ ∃ now, event = .cancel promotionId now ∧
      ∃ row ∈ p.table.rows, row.id = promotionId ∧ row.status ≠ .cancelled := by
  cases event with
  | insert => simp [changes]
  | assign => simp [changes]
  | cancel id now =>
    rw [changes, Bool.and_eq_true, decide_eq_true_eq, cancel_answer]
    constructor
    · rintro ⟨rfl, ha⟩
      cases hf : p.table.find id with
      | none => simp [hf] at ha
      | some row =>
        refine ⟨now, rfl, row, Table.find_some_mem hf, Table.find_some_key hf, ?_⟩
        intro hs
        simp [hf, hs] at ha
    · rintro ⟨_, he, row, hr, rfl, hs⟩
      cases he
      refine ⟨rfl, ?_⟩
      rw [p.table.find_of_mem hr, Option.map_some, if_pos hs]
      rfl

theorem cancelled_mem {p : Promotions} (hr : row ∈ p.table.rows) (hs : row.status ≠ .cancelled)
    (now : Int) : row.cancelled now ∈ (p.step (.cancel row.id now)).table.rows := by
  rcases p.cancel_cases row.id now with ⟨_, _, _, ht, _⟩ | ⟨_, hn⟩
  · rw [step, ht]
    exact Table.set_mem_update hr rfl (decide_eq_true hs)
  · refine absurd ?_ (hn (row.cancelled now))
    rw [cancel_answer, p.table.find_of_mem hr, Option.map_some, if_pos hs]

theorem cancelled_of_answers (h : answers promotionId p event = true) :
    Cancelled promotionId (p.step event) := by
  cases event with
  | insert => cases h
  | assign => cases h
  | cancel id now =>
    obtain ⟨hid, ha⟩ := Bool.and_eq_true_iff.1 h
    obtain rfl := of_decide_eq_true hid
    obtain ⟨row, hf⟩ := Option.isSome_iff_exists.1 ha
    have hr := Table.find_some_mem hf
    obtain rfl : row.id = id := Table.find_some_key hf
    by_cases hs : row.status = .cancelled
    · exact ⟨row, cancelled_kept hr hs _, rfl, hs⟩
    · exact ⟨row.cancelled now, cancelled_mem hr hs now, rfl, rfl⟩

/-- An event that leaves a promotion cancelled for the first time is a cancellation of it. -/
theorem changes_iff_cancelled (h : ¬Cancelled promotionId p) :
    changes promotionId p event = true ↔ Cancelled promotionId (p.step event) := by
  constructor
  · intro hc
    apply cancelled_of_answers
    obtain ⟨now, rfl, row, hr, rfl, _⟩ := (changes_iff _ _ _).1 hc
    rw [answers, p.table.find_of_mem hr, decide_eq_true rfl]
    rfl
  · rintro ⟨row', hr', rfl, hs⟩
    rcases p.step_from event hr' with ⟨row, hr, hm⟩ | ⟨_, hn⟩
    · cases hm with
      | kept => exact absurd ⟨row', hr, rfl, hs⟩ h
      | assigned => cases hs
      | cancelled hn => exact (changes_iff _ _ _).2 ⟨_, rfl, row, hr, rfl, hn⟩
    · exact absurd hs hn

theorem not_changes_of_cancelled (h : Cancelled promotionId p) (event : PromotionEvent) :
    changes promotionId p event = false := by
  obtain ⟨row, hr, rfl, hs⟩ := h
  apply Bool.eq_false_iff.2
  intro hc
  obtain ⟨_, _, row', hr', hid, hn⟩ := (changes_iff _ _ _).1 hc
  rw [p.table.eq_of_key hr' hr hid] at hn
  exact hn hs

theorem Constrained.active_target (h : Constrained p) (hr : row ∈ p.table.rows)
    (hs : row.status = .active) : (row.productId.isSome ∧ row.category = none) ∨
      (row.productId = none ∧ row.category.isSome) := by
  have hc := h.checks row hr
  simp only [PromotionRow.checks, Bool.and_eq_true, hs] at hc
  obtain ⟨⟨_, ht⟩, _⟩ := hc
  cases hp : row.productId with
  | none =>
    cases hcat : row.category with
    | none => simp [hp, hcat] at ht
    | some category => exact .inr ⟨rfl, rfl⟩
  | some productId =>
    cases hcat : row.category with
    | none => exact .inl ⟨rfl, rfl⟩
    | some category => simp [hp, hcat] at ht

theorem Constrained.draft_target (h : Constrained p) (hr : row ∈ p.table.rows)
    (hs : row.status = .draft) : row.productId = none ∧ row.category = none := by
  have hc := h.checks row hr
  simp only [PromotionRow.checks, Bool.and_eq_true, hs] at hc
  simpa using hc.2

/-- Two promotions of one target that are active at one instant are one promotion. -/
theorem Constrained.active_unique (h : Constrained p) (hr : row ∈ p.table.rows)
    (hq : other ∈ p.table.rows) (ha : row.activeAt now = true) (hb : other.activeAt now = true)
    (ht : (row.productId.isSome ∧ row.productId = other.productId) ∨
      (row.category.isSome ∧ row.category = other.category)) : row.id = other.id := by
  by_contra hne
  have hx := h.disjoint row hr other hq
  simp only [PromotionRow.activeAt, Bool.and_eq_true, decide_eq_true_eq] at ha hb
  simp only [PromotionRow.excludes, Bool.and_eq_false_iff, Bool.or_eq_false_iff,
    decide_eq_false_iff_not, not_lt] at hx
  rcases hx with ((((hx | hx) | hx) | ⟨hx, hx'⟩) | hx) | hx
  · exact hx hne
  · exact hx ha.1.1
  · exact hx hb.1.1
  · rcases ht with ⟨h₁, h₂⟩ | ⟨h₁, h₂⟩
    · exact absurd h₂ (hx.resolve_left (by rw [h₁]; exact Bool.noConfusion))
    · exact absurd h₂ (hx'.resolve_left (by rw [h₁]; exact Bool.noConfusion))
  · exact absurd (ha.1.2.trans_lt hb.2) (not_lt.2 hx)
  · exact absurd (hb.1.2.trans_lt ha.2) (not_lt.2 hx)

theorem length_le_one_of_key {l : List ρ} (key : ρ → κ) (hn : (l.map key).Nodup)
    (h : ∀ a ∈ l, ∀ b ∈ l, key a = key b) : l.length ≤ 1 := by
  cases l with
  | nil => exact Nat.zero_le 1
  | cons a l =>
    cases l with
    | nil => exact Nat.le_refl 1
    | cons b l =>
      have hab := h a List.mem_cons_self b (List.mem_cons_of_mem a List.mem_cons_self)
      exact absurd (hab ▸ List.mem_cons_self) (List.nodup_cons.1 hn).1

/-- Promotions that are picked by one target have one of them active at an instant. -/
theorem Constrained.active_le_one (h : Constrained p) (now : Int) {picks : PromotionRow → Bool}
    (hp : ∀ row other, picks row = true → picks other = true →
      (row.productId.isSome ∧ row.productId = other.productId) ∨
        (row.category.isSome ∧ row.category = other.category)) :
    ((activePromotions p.table.rows now).filter picks).length ≤ 1 := by
  apply length_le_one_of_key PromotionRow.id
  · have hsub : ((activePromotions p.table.rows now).filter picks).Sublist p.table.rows :=
      List.filter_sublist.trans List.filter_sublist
    exact List.Nodup.sublist (hsub.map PromotionRow.id) p.table.unique
  · intro row hr other ho
    obtain ⟨hr, hpr⟩ := List.mem_filter.1 hr
    obtain ⟨ho, hpo⟩ := List.mem_filter.1 ho
    obtain ⟨hr, ha⟩ := List.mem_filter.1 hr
    obtain ⟨ho, hb⟩ := List.mem_filter.1 ho
    exact h.active_unique hr ho ha hb (hp row other hpr hpo)

theorem Constrained.product_le_one (h : Constrained p) (now : Int) (productId : Nat) :
    ((activePromotions p.table.rows now).filter
      fun row => row.productId = some productId).length ≤ 1 := by
  apply h.active_le_one
  intro row other hr ho
  have hr := of_decide_eq_true hr
  exact .inl ⟨hr ▸ rfl, hr.trans (of_decide_eq_true ho).symm⟩

theorem Constrained.category_le_one (h : Constrained p) (now : Int) (category : Text) :
    ((activePromotions p.table.rows now).filter
      fun row => row.category = some category).length ≤ 1 := by
  apply h.active_le_one
  intro row other hr ho
  have hr := of_decide_eq_true hr
  exact .inr ⟨hr ▸ rfl, hr.trans (of_decide_eq_true ho).symm⟩

/-- A requested product is read once, whatever is active. -/
theorem Constrained.read_once (h : Constrained p) (now : Int) {products : Catalogue}
    (hrow : row ∈ products.rows) (hid : row.id ∈ ids) :
    (read products (activePromotions p.table.rows now) ids).filter (fun r => r.id = row.id) =
      [current (activePromotions p.table.rows now) row] := by
  rw [filter_read hrow hid]
  exact joined_of_length_le_one (h.product_le_one now row.id)
    (h.category_le_one now row.values.category)

theorem tally_assigns_le_one (promotionId : Nat) (events : List PromotionEvent) :
    tally step (assigns promotionId) .empty events ≤ 1 := by
  have hkeep (p : Promotions) (event : PromotionEvent) (h : Taken promotionId p) :
      Taken promotionId (p.step event) := h.step event
  apply tally_le_one hkeep
  · exact fun _ event h => not_assigns_of_taken h event
  · exact fun _ _ h => taken_of_assigns h

theorem tally_changes_eq_one {promotionId : Nat} {events : List PromotionEvent}
    (h : 0 < tally step (answers promotionId) .empty events) :
    tally step (changes promotionId) .empty events = 1 := by
  have hkeep (p : Promotions) (event : PromotionEvent) (hc : Cancelled promotionId p) :
      Cancelled promotionId (p.step event) := hc.step event
  apply tally_eq_one hkeep
  · exact fun _ event hc => not_changes_of_cancelled hc event
  · exact fun _ _ hc => changes_iff_cancelled hc
  · rintro ⟨_, hr, _⟩
    cases hr
  · exact spent_of_tally_pos hkeep (fun _ _ ha => cancelled_of_answers ha) h

/-- What a cancellation changes stays in the table as it was answered. -/
theorem changed_kept {promotionId : Nat} {p : Promotions}
    (h : (p.cancel promotionId now).2 = some (row, true)) (events : List PromotionEvent) :
    row.id = promotionId ∧ row.status = .cancelled ∧ row.cancelledAt = some now ∧
      row ∈ (run step p (.cancel promotionId now :: events)).table.rows := by
  rw [cancel_answer] at h
  cases hf : p.table.find promotionId with
  | none =>
    rw [hf] at h
    cases h
  | some old =>
    rw [hf, Option.map_some] at h
    split at h
    · rename_i hs
      cases h
      obtain rfl : old.id = promotionId := Table.find_some_key hf
      refine ⟨rfl, rfl, rfl, ?_⟩
      have hkeep (q : Promotions) (event : PromotionEvent)
          (hq : old.cancelled now ∈ q.table.rows) :
          old.cancelled now ∈ (q.step event).table.rows := cancelled_kept hq rfl event
      exact run_invariant_always hkeep (cancelled_mem (Table.find_some_mem hf) hs now) events
    · cases h

/-- However its writes interleave, the table keeps one promotion of a target active at most, at
every instant, and a product is read with no other. -/
theorem reached_applies_one (events : List PromotionEvent) :
    (∀ row ∈ (reached events).table.rows,
      (row.status = .active → (row.productId.isSome ∧ row.category = none) ∨
        (row.productId = none ∧ row.category.isSome)) ∧
      (row.status = .draft → row.productId = none ∧ row.category = none)) ∧
    (∀ event,
      (∀ row ∈ (reached events).table.rows,
        ∃ row' ∈ (reached (events ++ [event])).table.rows, Moves event row row') ∧
      ∀ row' ∈ (reached (events ++ [event])).table.rows,
        (∃ row ∈ (reached events).table.rows, Moves event row row') ∨
          ((reached events).table.find row'.id = none ∧ row'.status ≠ .cancelled)) ∧
    (∀ promotionId, tally step (assigns promotionId) .empty events ≤ 1 ∧
      (0 < tally step (answers promotionId) .empty events →
        tally step (changes promotionId) .empty events = 1)) ∧
    (∀ promotionId now row later,
      ((reached events).cancel promotionId now).2 = some (row, true) →
        row.id = promotionId ∧ row.status = .cancelled ∧ row.cancelledAt = some now ∧
          row ∈ (reached (events ++ .cancel promotionId now :: later)).table.rows) ∧
    ∀ now,
      (∀ row ∈ (reached events).table.rows,
        row ∈ activePromotions (reached events).table.rows now ↔ row.state now = .live) ∧
      (∀ productId, ((activePromotions (reached events).table.rows now).filter
        fun row => row.productId = some productId).length ≤ 1) ∧
      (∀ category, ((activePromotions (reached events).table.rows now).filter
        fun row => row.category = some category).length ≤ 1) ∧
      ∀ (products : Catalogue) ids,
        (∀ row ∈ products.rows, row.id ∈ ids →
          (read products (activePromotions (reached events).table.rows now) ids).filter
            (fun r => r.id = row.id) =
              [current (activePromotions (reached events).table.rows now) row]) ∧
        ∀ r ∈ read products (activePromotions (reached events).table.rows now) ids,
          ∃ row ∈ products.rows, row.id ∈ ids ∧ r.id = row.id := by
  have hc := Constrained.reached events
  refine ⟨?_, ?_, ?_, ?_, ?_⟩
  · intro row hr
    exact ⟨hc.active_target hr, hc.draft_target hr⟩
  · intro event
    rw [reached_append]
    exact ⟨fun row hr => step_moves _ event hr, fun row' hr => step_from _ event hr⟩
  · intro promotionId
    exact ⟨tally_assigns_le_one promotionId events, tally_changes_eq_one⟩
  · intro promotionId now row later h
    rw [reached_append]
    exact changed_kept h later
  · intro now
    refine ⟨?_, hc.product_le_one now, hc.category_le_one now, ?_⟩
    · intro row hr
      rw [activePromotions, List.mem_filter, ← row.activeAt_iff_live]
      exact and_iff_right hr
    · intro products ids
      exact ⟨fun row hrow hid => hc.read_once now hrow hid, fun r hr => mem_read hr⟩

end Promotions

end PromotionManagement
