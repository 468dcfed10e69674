import PromotionManagement.Library.Run
import PromotionManagement.Library.Table
import PromotionManagement.BasePriceCalculator

namespace PromotionManagement
open Library
set_option autoImplicit true

/-- A `timestamptz`, in epoch microseconds, within what a JavaScript `Date` holds. -/
structure Timestamp where
  micros : Int
  bounded : micros.natAbs ≤ 8640000000000000000

/-- A timestamp as the driver reads it: a `Date` keeps whole milliseconds. -/
def Timestamp.date (t : Timestamp) : JsDate where
  time := t.micros / 1000
  bounded := by
    have := t.bounded
    omega

theorem Timestamp.date_le {t u : Timestamp} (h : t.micros ≤ u.micros) :
    t.date.time ≤ u.date.time := Int.ediv_le_ediv (by decide) h

/-- What a statement may set of a `pricing_rules` row. -/
structure PricingRuleColumns where
  type : RuleType
  name : String
  conditions : Json
  event : Json
  priority : Int
  active : Bool

/-- The filter of `activeIngestionRules`. -/
def PricingRuleColumns.ingests (c : PricingRuleColumns) : Bool := c.active && c.type = .ingestion

structure StoredRule where
  id : Nat
  columns : PricingRuleColumns
  updatedAt : Timestamp

/-- A stored rule as the loader selects it. -/
def StoredRule.row (r : StoredRule) : PricingRuleRow where
  id := r.id
  type := r.columns.type
  name := r.columns.name
  conditions := r.columns.conditions
  event := r.columns.event
  priority := r.columns.priority
  active := r.columns.active
  updatedAt := r.updatedAt.date

/-- The `pricing_rules` table, with the instant of its last statement. -/
structure PricingRules where
  table : Table StoredRule.id
  sequence : Nat
  clock : Timestamp

/-- A statement on `pricing_rules`, at the instant it reads as `now()`. -/
inductive PricingRuleStatement where
  | insert (columns : PricingRuleColumns) (now : Timestamp)
  | update (selects : StoredRule → Bool) (set : StoredRule → PricingRuleColumns) (now : Timestamp)

def PricingRuleStatement.now : PricingRuleStatement → Timestamp
  | .insert _ now => now
  | .update _ _ now => now

namespace PricingRules
open BasePriceCalculator

def empty (clock : Timestamp) : PricingRules := ⟨.empty, 1, clock⟩

/-- `pricing_rules_touch_updated_at` stamps every row that an update writes, changed or not. -/
def touched (set : StoredRule → PricingRuleColumns) (now : Timestamp) (r : StoredRule) :
    StoredRule := ⟨r.id, set r, now⟩

def written (s : PricingRules) : PricingRuleStatement → Table StoredRule.id
  | .insert columns now => s.table.insert ⟨s.sequence, columns, now⟩
  | .update selects set now => s.table.updateAll selects (touched set now) fun _ => rfl

/-- `pricing_rules_name_unique` -/
def Accepted (s : PricingRules) (statement : PricingRuleStatement) : Prop :=
  ((s.written statement).rows.map fun r => r.columns.name).Nodup

instance : Decidable (Accepted s statement) :=
  inferInstanceAs (Decidable (List.Nodup _))

def step (s : PricingRules) (statement : PricingRuleStatement) : PricingRules where
  table := if s.Accepted statement then s.written statement else s.table
  sequence :=
    match statement with
    | .insert _ _ => s.sequence + 1
    | .update _ _ _ => s.sequence
  clock := statement.now

def rows (s : PricingRules) : List PricingRuleRow := s.table.rows.map StoredRule.row

/-- The version that `fromRules` derives, while some ingestion rule is active. -/
def version (s : PricingRules) : Option Int :=
  let active := activeIngestionRules s.rows
  if active = [] then none else some (newestVersion active)

theorem version_of_fromRules {s : PricingRules} {engine : RulesEngine}
    (h : fromRules engine s.rows = .ok c) : s.version = some c.pricingRulesVersion := by
  obtain ⟨hne, rules, _, rfl⟩ := fromRules_ok h
  exact if_neg hne

/-- The active ingestion rules, as they are stored. -/
def active (s : PricingRules) : List StoredRule := s.table.rows.filter fun r => r.columns.ingests

/-- A statement changes the active ingestion rules when it changes the set of what they state. -/
def states (s : PricingRules) (id : Nat) (columns : PricingRuleColumns) : Prop :=
  ∃ r ∈ s.active, r.id = id ∧ r.columns = columns

def Changed (s s' : PricingRules) : Prop :=
  ∃ id columns, ¬(s.states id columns ↔ s'.states id columns)

/-- A step orders the versions before and after it, strictly when it changed the rules. -/
def Orders (s : PricingRules) (statement : PricingRuleStatement) : Prop :=
  ∀ v v', s.version = some v → (s.step statement).version = some v' →
    v ≤ v' ∧ (Changed s (s.step statement) → v < v')

/-- The clock that stamps the rows is strictly increasing. -/
def Ticks (s : PricingRules) (statement : PricingRuleStatement) : Prop :=
  s.clock.micros < statement.now.micros

/-- The statement gives an active ingestion rule other columns, or makes one of a rule. -/
def Rewrites (s : PricingRules) : PricingRuleStatement → Prop
  | .insert columns _ => columns.ingests
  | .update selects set _ => ∃ r ∈ s.table.rows, selects r ∧
      (r.columns.ingests ∨ (set r).ingests) ∧ set r ≠ r.columns

/-- The statement writes a row that it leaves an active ingestion rule. -/
def Leaves (s : PricingRules) : PricingRuleStatement → Prop
  | .insert columns _ => columns.ingests
  | .update selects set _ => ∃ r ∈ s.table.rows, selects r ∧ (set r).ingests

/-- The statement runs in a later millisecond than any that stamped an active ingestion rule. -/
def Later (s : PricingRules) (statement : PricingRuleStatement) : Prop :=
  0 < statement.now.date.time ∧ ∀ r ∈ s.active, r.updatedAt.date.time < statement.now.date.time

instance : Decidable (Ticks s statement) := inferInstanceAs (Decidable (_ < _))

/-- A statement that retires no rule without editing another, and shares no millisecond. -/
def Spared (s : PricingRules) (statement : PricingRuleStatement) : Prop :=
  s.Accepted statement → s.active ≠ [] → (s.step statement).active ≠ [] →
    s.Rewrites statement → s.Leaves statement ∧ s.Later statement

/-- No row is stamped after the clock, and the sequence is past every id. -/
structure Stamped (s : PricingRules) : Prop where
  clock : ∀ r ∈ s.table.rows, r.updatedAt.micros ≤ s.clock.micros
  sequence : ∀ r ∈ s.table.rows, r.id < s.sequence

theorem Stamped.find_sequence (h : Stamped s) : s.table.find s.sequence = none :=
  Table.find_eq_none.2 fun r hr => Nat.ne_of_lt (h.sequence r hr)

theorem mem_active {s : PricingRules} :
    r ∈ s.active ↔ r ∈ s.table.rows ∧ r.columns.ingests = true := List.mem_filter

theorem mem_activeIngestionRules {s : PricingRules} :
    row ∈ activeIngestionRules s.rows ↔ ∃ r ∈ s.active, r.row = row := by
  rw [activeIngestionRules, List.mem_insertionSort, List.mem_filter, rows, List.mem_map]
  constructor
  · rintro ⟨⟨r, hr, rfl⟩, hi⟩
    exact ⟨r, mem_active.2 ⟨hr, hi⟩, rfl⟩
  · rintro ⟨r, hr, rfl⟩
    obtain ⟨hr, hi⟩ := mem_active.1 hr
    exact ⟨⟨r, hr, rfl⟩, hi⟩

theorem newestVersion_le_iff {rows : List PricingRuleRow} {b : Int} :
    newestVersion rows ≤ b ↔ 0 ≤ b ∧ ∀ row ∈ rows, row.updatedAt.time ≤ b := by
  have hfold (a : Int) : rows.foldl (fun newest row => max newest row.updatedAt.time) a ≤ b ↔
      a ≤ b ∧ ∀ row ∈ rows, row.updatedAt.time ≤ b := by
    induction rows generalizing a with
    | nil => simp only [List.foldl_nil, List.not_mem_nil, false_implies, implies_true, and_true]
    | cons row rows ih =>
      rw [List.foldl_cons, ih, List.forall_mem_cons, max_le_iff, and_assoc]
  exact hfold 0

/-- The version as a number, zero where no ingestion rule is active. -/
def newest (s : PricingRules) : Int := newestVersion (activeIngestionRules s.rows)

theorem newest_le_iff {s : PricingRules} {b : Int} :
    s.newest ≤ b ↔ 0 ≤ b ∧ ∀ r ∈ s.active, r.updatedAt.date.time ≤ b := by
  rw [newest, newestVersion_le_iff]
  apply and_congr_right
  intro _
  constructor
  · intro h r hr
    exact h r.row (mem_activeIngestionRules.2 ⟨r, hr, rfl⟩)
  · intro h row hrow
    obtain ⟨r, hr, rfl⟩ := mem_activeIngestionRules.1 hrow
    exact h r hr

theorem newest_nonneg (s : PricingRules) : 0 ≤ s.newest := (newest_le_iff.1 (Int.le_refl _)).1

theorem le_newest {s : PricingRules} (hr : r ∈ s.active) : r.updatedAt.date.time ≤ s.newest :=
  (newest_le_iff.1 (Int.le_refl _)).2 r hr

theorem newest_lt_iff {s : PricingRules} {b : Int} :
    s.newest < b ↔ 0 < b ∧ ∀ r ∈ s.active, r.updatedAt.date.time < b := by
  rw [← Int.le_sub_one_iff, newest_le_iff]
  simp only [Int.le_sub_one_iff]

theorem version_eq (s : PricingRules) :
    s.version = if s.active = [] then none else some s.newest := by
  have hnil : activeIngestionRules s.rows = [] ↔ s.active = [] := by
    simp only [List.eq_nil_iff_forall_not_mem, mem_activeIngestionRules, not_exists, not_and]
    exact ⟨fun h r hr => h r.row r hr rfl, fun h _ r hr _ => h r hr⟩
  simp only [version, hnil, newest]

theorem orders_iff (s : PricingRules) (statement : PricingRuleStatement) :
    s.Orders statement ↔ (s.active ≠ [] → (s.step statement).active ≠ [] →
      s.newest ≤ (s.step statement).newest ∧
        (Changed s (s.step statement) → s.newest < (s.step statement).newest)) := by
  rw [Orders, version_eq, version_eq]
  constructor
  · intro h ha ha'
    exact h _ _ (if_neg ha) (if_neg ha')
  · intro h v v' hv hv'
    split at hv
    · cases hv
    · rename_i ha
      split at hv'
      · cases hv'
      · rename_i ha'
        cases hv
        cases hv'
        exact h ha ha'

/-- A version that only loses rules does not grow. -/
theorem newest_mono {s s' : PricingRules} (h : ∀ r ∈ s'.active, r ∈ s.active) :
    s'.newest ≤ s.newest :=
  newest_le_iff.2 ⟨s.newest_nonneg, fun _ hr => le_newest (h _ hr)⟩

theorem mem_written_insert (h : Stamped s) :
    r ∈ (s.written (.insert columns now)).rows ↔
      r ∈ s.table.rows ∨ r = ⟨s.sequence, columns, now⟩ :=
  Table.mem_insert _ _ h.find_sequence

theorem mem_written_update {s : PricingRules} {set : StoredRule → PricingRuleColumns} :
    r' ∈ (s.written (.update selects set now)).rows ↔
      ∃ r ∈ s.table.rows, (if selects r then touched set now r else r) = r' := List.mem_map

theorem table_of_accepted {s : PricingRules} (h : s.Accepted statement) :
    (s.step statement).table = s.written statement := if_pos h

theorem table_of_refused {s : PricingRules} (h : ¬s.Accepted statement) :
    (s.step statement).table = s.table := if_neg h

/-- A row after a statement was there before, or bears its instant and the id of a row of old or
the next of the sequence. -/
theorem mem_step (h : Stamped s) (hr : r ∈ (s.step statement).table.rows) :
    r ∈ s.table.rows ∨ (r.updatedAt = statement.now ∧
      (r.id < s.sequence ∨ r.id < (s.step statement).sequence)) := by
  by_cases ha : s.Accepted statement
  · rw [table_of_accepted ha] at hr
    cases statement with
    | insert columns now =>
      rcases (mem_written_insert h).1 hr with hr | rfl
      · exact .inl hr
      · exact .inr ⟨rfl, .inr (Nat.lt_succ_self _)⟩
    | update selects set now =>
      obtain ⟨q, hq, rfl⟩ := mem_written_update.1 hr
      split
      · exact .inr ⟨rfl, .inl (h.sequence q hq)⟩
      · exact .inl hq
  · rw [table_of_refused ha] at hr
    exact .inl hr

theorem sequence_le_step (s : PricingRules) (statement : PricingRuleStatement) :
    s.sequence ≤ (s.step statement).sequence := by
  cases statement with
  | insert => exact Nat.le_succ _
  | update => exact Nat.le_refl _

theorem Stamped.step (h : Stamped s) (ht : s.Ticks statement) : Stamped (s.step statement) where
  clock := by
    intro r hr
    rcases mem_step h hr with hr | ⟨he, _⟩
    · exact (h.clock r hr).trans (Int.le_of_lt ht)
    · rw [he]
      exact Int.le_refl _
  sequence := by
    intro r hr
    rcases mem_step h hr with hr | ⟨_, hid | hid⟩
    · exact (h.sequence r hr).trans_le (s.sequence_le_step statement)
    · exact hid.trans_le (s.sequence_le_step statement)
    · exact hid

/-- What the statement leaves active bears its instant. -/
theorem mem_active_of_leaves (h : Stamped s) (ha : s.Accepted statement)
    (hl : s.Leaves statement) :
    ∃ r ∈ (s.step statement).active, r.updatedAt = statement.now := by
  cases statement with
  | insert columns now =>
    refine ⟨⟨s.sequence, columns, now⟩, mem_active.2 ⟨?_, hl⟩, rfl⟩
    rw [table_of_accepted ha]
    exact (mem_written_insert h).2 (.inr rfl)
  | update selects set now =>
    obtain ⟨r, hr, hs, hi⟩ := hl
    refine ⟨touched set now r, mem_active.2 ⟨?_, hi⟩, rfl⟩
    rw [table_of_accepted ha]
    exact mem_written_update.2 ⟨r, hr, if_pos hs⟩

/-- A statement that leaves none of what it writes active only takes rules away. -/
theorem active_of_not_leaves (h : Stamped s) (hl : ¬s.Leaves statement)
    (hr : r ∈ (s.step statement).active) : r ∈ s.active := by
  obtain ⟨hr, hi⟩ := mem_active.1 hr
  by_cases ha : s.Accepted statement
  · rw [table_of_accepted ha] at hr
    cases statement with
    | insert columns now =>
      rcases (mem_written_insert h).1 hr with hr | rfl
      · exact mem_active.2 ⟨hr, hi⟩
      · exact absurd hi hl
    | update selects set now =>
      obtain ⟨q, hq, rfl⟩ := mem_written_update.1 hr
      split at hi
      · rename_i hs
        exact absurd ⟨q, hq, hs, hi⟩ hl
      · rename_i hs
        rw [if_neg hs]
        exact mem_active.2 ⟨hq, hi⟩
  · rw [table_of_refused ha] at hr
    exact mem_active.2 ⟨hr, hi⟩

/-- A rule that no statement rewrites, and that no statement writes, stays active. -/
theorem active_step (h : Stamped s) (hl : ¬s.Leaves statement) (hn : ¬s.Rewrites statement)
    (hr : r ∈ s.active) : r ∈ (s.step statement).active := by
  obtain ⟨hr, hi⟩ := mem_active.1 hr
  refine mem_active.2 ⟨?_, hi⟩
  by_cases ha : s.Accepted statement
  · rw [table_of_accepted ha]
    cases statement with
    | insert columns now => exact (mem_written_insert h).2 (.inl hr)
    | update selects set now =>
      refine mem_written_update.2 ⟨r, hr, if_neg ?_⟩
      intro hs
      by_cases he : set r = r.columns
      · exact hl ⟨r, hr, hs, he ▸ hi⟩
      · exact hn ⟨r, hr, hs, .inl hi, he⟩
  · rw [table_of_refused ha]
    exact hr

theorem states_of_mem {s : PricingRules} (hr : r ∈ s.table.rows)
    (hi : r.columns.ingests = true) : s.states r.id r.columns :=
  ⟨r, mem_active.2 ⟨hr, hi⟩, rfl, rfl⟩

theorem states_eq {s : PricingRules} (hr : r ∈ s.table.rows) (h : s.states r.id columns) :
    r.columns.ingests = true ∧ r.columns = columns := by
  obtain ⟨q, hq, hid, rfl⟩ := h
  obtain ⟨hq, hi⟩ := mem_active.1 hq
  obtain rfl := s.table.eq_of_key hq hr hid
  exact ⟨hi, rfl⟩

theorem states_step (h : Stamped s) (ha : s.Accepted statement) (hn : ¬s.Rewrites statement) :
    s.states id' columns ↔ (s.step statement).states id' columns := by
  cases statement with
  | insert columns now =>
    have hl : ¬s.Leaves (.insert columns now) := hn
    constructor
    · rintro ⟨r, hr, hid, hc⟩
      exact ⟨r, active_step h hl hn hr, hid, hc⟩
    · rintro ⟨r, hr, hid, hc⟩
      exact ⟨r, active_of_not_leaves h hl hr, hid, hc⟩
  | update selects set now =>
    have hsame (r : StoredRule) (hr : r ∈ s.table.rows) (hs : selects r = true)
        (hi : r.columns.ingests = true ∨ (set r).ingests = true) : set r = r.columns := by
      by_contra he
      exact hn ⟨r, hr, hs, hi, he⟩
    constructor
    · rintro ⟨r, hr, rfl, rfl⟩
      obtain ⟨hr, hi⟩ := mem_active.1 hr
      have hmem : (if selects r then touched set now r else r) ∈
          (s.step (.update selects set now)).table.rows := by
        rw [table_of_accepted ha]
        exact mem_written_update.2 ⟨r, hr, rfl⟩
      by_cases hs : selects r
      · rw [if_pos hs] at hmem
        have he := hsame r hr hs (.inl hi)
        have hi' : (set r).ingests = true := he ▸ hi
        exact ⟨_, mem_active.2 ⟨hmem, hi'⟩, rfl, he⟩
      · rw [if_neg hs] at hmem
        exact states_of_mem hmem hi
    · rintro ⟨r, hr, rfl, rfl⟩
      obtain ⟨hr, hi⟩ := mem_active.1 hr
      rw [table_of_accepted ha] at hr
      obtain ⟨q, hq, rfl⟩ := mem_written_update.1 hr
      split at hi
      · rename_i hs
        have he := hsame q hq hs (.inr hi)
        rw [if_pos hs]
        exact ⟨q, mem_active.2 ⟨hq, he ▸ hi⟩, rfl, he.symm⟩
      · rename_i hs
        rw [if_neg hs]
        exact states_of_mem hq hi

/-- A statement that goes through changes the rules exactly when it rewrites one. -/
theorem changed_iff (h : Stamped s) (ha : s.Accepted statement) :
    Changed s (s.step statement) ↔ s.Rewrites statement := by
  constructor
  · rintro ⟨id, columns, hc⟩
    by_contra hn
    exact hc (states_step h ha hn)
  · intro hr
    cases statement with
    | insert columns now =>
      have hmem : ⟨s.sequence, columns, now⟩ ∈ (s.step (.insert columns now)).table.rows := by
        rw [table_of_accepted ha]
        exact (mem_written_insert h).2 (.inr rfl)
      refine ⟨s.sequence, columns, fun hc => ?_⟩
      obtain ⟨q, hq, hid, _⟩ := hc.2 (states_of_mem hmem hr)
      exact Nat.ne_of_lt (h.sequence q (mem_active.1 hq).1) hid
    | update selects set now =>
      obtain ⟨r, hr, hs, hi, hne⟩ := hr
      have hmem : touched set now r ∈ (s.step (.update selects set now)).table.rows := by
        rw [table_of_accepted ha]
        exact mem_written_update.2 ⟨r, hr, if_pos hs⟩
      rcases hi with hi | hi
      · refine ⟨r.id, r.columns, fun hc => hne ?_⟩
        exact (states_eq hmem (hc.1 (states_of_mem hr hi))).2
      · refine ⟨r.id, set r, fun hc => hne ?_⟩
        exact (states_eq hr (hc.2 (states_of_mem hmem hi))).2.symm

theorem time_le_now (h : Stamped s) (ht : s.Ticks statement) (hr : r ∈ (s.step statement).active) :
    r.updatedAt.date.time ≤ statement.now.date.time := by
  rcases mem_step h (mem_active.1 hr).1 with hr | ⟨he, _⟩
  · exact Timestamp.date_le ((h.clock r hr).trans (Int.le_of_lt ht))
  · rw [he]

/-- A statement that leaves an active rule stamped moves the version to its own millisecond. -/
theorem newest_lt_step_iff (h : Stamped s) (ht : s.Ticks statement) (ha : s.Accepted statement)
    (hl : s.Leaves statement) :
    s.newest < (s.step statement).newest ↔ s.Later statement := by
  obtain ⟨r, hr, he⟩ := mem_active_of_leaves h ha hl
  have hnow : statement.now.date.time ≤ (s.step statement).newest := he ▸ le_newest hr
  rw [Later, ← newest_lt_iff]
  constructor
  · intro hlt
    by_contra hn
    apply absurd hlt
    rw [Int.not_lt, newest_le_iff]
    refine ⟨s.newest_nonneg, fun q hq => ?_⟩
    exact (time_le_now h ht hq).trans (Int.not_lt.1 hn)
  · exact fun hlt => hlt.trans_le hnow

theorem newest_le_step (h : Stamped s) (ht : s.Ticks statement) (ha : s.Accepted statement)
    (hl : s.Leaves statement) : s.newest ≤ (s.step statement).newest := by
  obtain ⟨r, hr, he⟩ := mem_active_of_leaves h ha hl
  have hnow : statement.now.date.time ≤ (s.step statement).newest := he ▸ le_newest hr
  refine newest_le_iff.2 ⟨newest_nonneg _, fun q hq => ?_⟩
  exact (Timestamp.date_le ((h.clock q (mem_active.1 hq).1).trans (Int.le_of_lt ht))).trans hnow

/-- A step orders the versions exactly when its statement is spared. -/
theorem orders_iff_spared (h : Stamped s) (ht : s.Ticks statement) :
    s.Orders statement ↔ s.Spared statement := by
  rw [orders_iff, Spared]
  by_cases ha : s.Accepted statement
  · simp only [ha, true_implies]
    apply forall_congr'
    intro _
    apply forall_congr'
    intro _
    rw [changed_iff h ha]
    by_cases hl : s.Leaves statement
    · simp only [newest_le_step h ht ha hl, newest_lt_step_iff h ht ha hl, hl, true_and]
    · have hmono : (s.step statement).newest ≤ s.newest :=
        newest_mono fun r hr => active_of_not_leaves h hl hr
      by_cases hn : s.Rewrites statement
      · simp only [hn, true_implies, hl, false_and, iff_false, not_and, Int.not_lt]
        exact fun _ => hmono
      · simp only [hn, false_implies, and_true, iff_true]
        exact newest_mono fun r hr => active_step h hl hn hr
  · have hactive : (s.step statement).active = s.active := by
      rw [PricingRules.active, table_of_refused ha, PricingRules.active]
    have hnewest : (s.step statement).newest = s.newest := by
      apply Int.le_antisymm
      · exact newest_mono fun r hr => hactive ▸ hr
      · exact newest_mono fun r hr => hactive ▸ hr
    simp only [ha, false_implies, iff_true, hactive, hnewest, Int.le_refl, true_and]
    rintro _ _ ⟨id, columns, hc⟩
    refine absurd ?_ hc
    rw [states, states, hactive]

theorem Stamped.empty (clock : Timestamp) : Stamped (empty clock) where
  clock := by
    intro r hr
    cases hr
  sequence := by
    intro r hr
    cases hr

/-- Along a run the version orders the rule sets exactly when each of its statements is spared. -/
theorem along_orders_iff (clock : Timestamp) (statements : List PricingRuleStatement)
    (ht : Along step Ticks (empty clock) statements) :
    Along step Orders (empty clock) statements ↔ Along step Spared (empty clock) statements := by
  have hboth : Along step (fun s e => s.Ticks e ∧ s.Orders e) (empty clock) statements ↔
      Along step (fun s e => s.Ticks e ∧ s.Spared e) (empty clock) statements :=
    along_congr (I := Stamped) (fun _ _ h hc => h.step hc.1)
      (fun _ _ h => and_congr_right fun ht => orders_iff_spared h ht) (.empty clock)
  rw [along_and, along_and] at hboth
  exact (and_congr_right_iff.1 hboth) ht

def commission : PricingRuleColumns where
  type := .ingestion
  name := "vendor commission"
  conditions := .obj [("all", .arr [.obj [("fact", .str "vendorPriceCents"),
    ("operator", .str "greaterThanInclusive"), ("value", .num 0)]])]
  event := .obj [("type", .str "adjustPercentBps"), ("params", .obj [("value", .num 500)])]
  priority := 10
  active := true

/-- Two rules are inserted, and a second later the newer one is retired by `active = false`. -/
def retirement : List PricingRuleStatement :=
  [.insert commission ⟨1000000, by decide⟩,
    .insert { commission with name := "bulk stock discount" } ⟨2000000, by decide⟩,
    .update (fun r => r.id = 2) (fun r => { r.columns with active := false })
      ⟨3000000, by decide⟩]

/-- Retiring the rule that holds the maximum moves the version from 2000 back to 1000. -/
theorem not_orders_retirement : ¬∀ clock statements, Along step Ticks (empty clock) statements →
    Along step Orders (empty clock) statements := by
  intro h
  have ho := h ⟨0, by decide⟩ retirement (by decide)
  have hv := (ho.2.2.1 2000 1000 (by decide) (by decide)).1
  exact absurd hv (by decide)

theorem along_orders_iff_retirement : Along step Ticks (empty ⟨0, by decide⟩) retirement ∧
    (Along step Orders (empty ⟨0, by decide⟩) retirement ↔
      Along step Spared (empty ⟨0, by decide⟩) retirement) :=
  ⟨by decide, along_orders_iff ⟨0, by decide⟩ retirement (by decide)⟩

end PricingRules

end PromotionManagement
