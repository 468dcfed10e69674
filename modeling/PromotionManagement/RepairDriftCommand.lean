import PromotionManagement.ScopedRebuild

namespace PromotionManagement
open Library ProductSourceRepository ProductReadRepository
set_option autoImplicit true

namespace RepairDriftCommand

open RebuildReadModelCommand

def categories (products : Catalogue) : List Text :=
  (products.rows.map fun row => row.values.category).dedup

/-- An order in which `group by category` may list the categories. -/
def Lists (products : Catalogue) (order : List Text) : Prop :=
  order.Nodup ∧ ∀ c, c ∈ order ↔ c ∈ categories products

def categoryCounts (products : Catalogue) (order : List Text) : List (Text × Nat) :=
  order.map fun category => (category, (inCategory products category).length)

/-- Repairs a category whose counts disagree, and notes that it did. -/
def compareCounts (products : Catalogue) (source : Nat → SourceRead)
    (s : Recomputing × List Text) (expected : Text × Nat) : Recomputing × List Text :=
  let (category, count) := expected
  if s.1.zcard (categoryKey category) = count then s
  else ((rebuildCategory products source s.1 category).1, s.2 ++ [category])

/-- One run: the categories it repairs, whose number it returns. -/
def execute (products : Catalogue) (source : Nat → SourceRead) (s : Recomputing)
    (order : List Text) : Recomputing × List Text :=
  run (compareCounts products source) (s, []) (categoryCounts products order)

/-- One run after another, and all that they repair. -/
def executions (products : Catalogue) (source : Nat → SourceRead) (s : Recomputing)
    (orders : List (List Text)) : Recomputing × List Text :=
  run (fun s order =>
    let (after, repaired) := execute products source s.1 order
    (after, s.2 ++ repaired)) (s, []) orders

/-- The read model that a sequence of scripts leaves. -/
def reached (ops : List ReadModelOp) : Recomputing :=
  ⟨run PromotionManagement.execute .empty ops, ops, 0⟩

variable {products : Catalogue} {source : Nat → SourceRead} {s : Recomputing} {bound : Nat}

theorem reads_le_rebuildCategory (category : Text) :
    s.reads ≤ (rebuildCategory products source s category).1.reads := by
  obtain ⟨first, second, he, _⟩ := rebuildCategory_run products source s category
  rw [he, ProductUpsertedHandler.run_handle_reads, ProductUpsertedHandler.run_handle_reads]
  omega

theorem reads_le_compareCounts (s : Recomputing × List Text) (expected : Text × Nat) :
    s.1.reads ≤ (compareCounts products source s expected).1.reads := by
  rw [compareCounts]
  split
  · exact Nat.le_refl _
  · exact reads_le_rebuildCategory expected.1

theorem reads_le_run (s : Recomputing × List Text) (counts : List (Text × Nat)) :
    s.1.reads ≤ (run (compareCounts products source) s counts).1.reads := by
  induction counts generalizing s with
  | nil => exact Nat.le_refl _
  | cons expected counts ih =>
    exact (reads_le_compareCounts s expected).trans (ih _)

theorem reads_le_execute (products : Catalogue) (source : Nat → SourceRead) (s : Recomputing)
    (order : List Text) : s.reads ≤ (execute products source s order).1.reads :=
  reads_le_run (s, []) (categoryCounts products order)

/-- What was repaired before does not change what is repaired next. -/
theorem run_compareCounts (repaired : List Text) (counts : List (Text × Nat)) :
    run (compareCounts products source) (s, repaired) counts =
      ((run (compareCounts products source) (s, []) counts).1,
        repaired ++ (run (compareCounts products source) (s, []) counts).2) := by
  induction counts generalizing s repaired with
  | nil => rw [run_nil, run_nil, List.append_nil]
  | cons expected counts ih =>
    rw [run_cons, run_cons, compareCounts, compareCounts]
    split
    · exact ih repaired
    · rw [ih (repaired ++ [expected.1]), ih ([] ++ [expected.1])]
      rw [List.nil_append, List.append_assoc]

/-- Runs one after another compare all their categories in turn. -/
theorem executions_eq (orders : List (List Text)) :
    executions products source s orders =
      run (compareCounts products source) (s, []) (orders.flatMap (categoryCounts products)) := by
  have hfrom (repaired : List Text) :
      run (fun s order =>
          let (after, repaired) := execute products source s.1 order
          (after, s.2 ++ repaired)) (s, repaired) orders =
        run (compareCounts products source) (s, repaired)
          (orders.flatMap (categoryCounts products)) := by
    induction orders generalizing s repaired with
    | nil => rfl
    | cons order orders ih =>
      rw [run_cons, List.flatMap_cons, run_append, run_compareCounts repaired]
      exact ih _
  exact hfrom []

/-- A comparison repairs the category whose counts disagree, and keeps what is exact. -/
theorem compareCounts_spec {s : Recomputing × List Text} (h : s.1.Coherent source bound)
    (hsource : ReadsGrow source bound)
    (hlisted : ∀ row ∈ products.rows, 0 < row.id ∧ row.values.category ≠ [])
    {expected : Text × Nat}
    (hbound : (compareCounts products source s expected).1.reads ≤ bound) :
    (compareCounts products source s expected).1.Coherent source bound ∧
      (s.1.zcard (categoryKey expected.1) ≠ expected.2 →
        (compareCounts products source s expected).1.Exact products expected.1) ∧
      ∀ c, s.1.Exact products c →
        (compareCounts products source s expected).1.Exact products c := by
  rw [compareCounts] at hbound ⊢
  split
  · rename_i he
    exact ⟨h, fun hne => absurd he hne, fun _ hc => hc⟩
  · rename_i hne
    rw [if_neg hne] at hbound
    obtain ⟨hcoherent, hexact, hkeep⟩ :=
      rebuildCategory_spec h hsource hlisted expected.1 hbound
    exact ⟨hcoherent, fun _ => hexact, hkeep⟩

theorem run_compareCounts_exact {s : Recomputing × List Text} (h : s.1.Coherent source bound)
    (hsource : ReadsGrow source bound)
    (hlisted : ∀ row ∈ products.rows, 0 < row.id ∧ row.values.category ≠ [])
    {counts : List (Text × Nat)}
    (hbound : (run (compareCounts products source) s counts).1.reads ≤ bound)
    (hc : s.1.Exact products c) :
    (run (compareCounts products source) s counts).1.Exact products c := by
  induction counts generalizing s with
  | nil => exact hc
  | cons expected counts ih =>
    obtain ⟨hcoherent, _, hkeep⟩ :=
      compareCounts_spec h hsource hlisted ((reads_le_run _ counts).trans hbound)
    exact ih hcoherent hbound (hkeep c hc)

/-- In a run that finds equal only what is exact, every category compared ends exact. -/
theorem run_compareCounts_settled {s : Recomputing × List Text} (h : s.1.Coherent source bound)
    (hsource : ReadsGrow source bound)
    (hlisted : ∀ row ∈ products.rows, 0 < row.id ∧ row.values.category ≠ [])
    {counts : List (Text × Nat)}
    (hbound : (run (compareCounts products source) s counts).1.reads ≤ bound)
    (hequal : Along (compareCounts products source) (fun s expected =>
      s.1.zcard (categoryKey expected.1) = expected.2 → s.1.Exact products expected.1) s counts)
    (hmem : expected ∈ counts) :
    (run (compareCounts products source) s counts).1.Exact products expected.1 := by
  induction counts generalizing s with
  | nil => cases hmem
  | cons first counts ih =>
    obtain ⟨hcoherent, hexact, hkeep⟩ :=
      compareCounts_spec h hsource hlisted ((reads_le_run _ counts).trans hbound)
    rcases List.mem_cons.1 hmem with rfl | hmem
    · apply run_compareCounts_exact hcoherent hsource hlisted hbound
      by_cases he : s.1.zcard (categoryKey expected.1) = expected.2
      · exact hkeep _ (hequal.1 he)
      · exact hexact he
    · exact ih hcoherent hbound hequal.2 hmem

theorem execute_settled (h : s.Coherent source bound) (hsource : ReadsGrow source bound)
    (hlisted : ∀ row ∈ products.rows, 0 < row.id ∧ row.values.category ≠ [])
    (hbound : (execute products source s order).1.reads ≤ bound)
    (hequal : Along (compareCounts products source) (fun s expected =>
        s.1.zcard (categoryKey expected.1) = expected.2 → s.1.Exact products expected.1) (s, [])
      (categoryCounts products order))
    (hmem : category ∈ order) : (execute products source s order).1.Exact products category := by
  have hcount := List.mem_map_of_mem
    (f := fun category => (category, (inCategory products category).length)) hmem
  exact run_compareCounts_settled (s := (s, [])) h hsource hlisted hbound hequal hcount

/-- A repaired category has exactly its products, and no category was repaired twice. -/
structure Settling (products : Catalogue) (source : Nat → SourceRead) (bound : Nat)
    (s : Recomputing × List Text) : Prop where
  coherent : s.1.Coherent source bound
  exact : ∀ category ∈ s.2, s.1.Exact products category
  nodup : s.2.Nodup
  listed : ∀ category ∈ s.2, category ∈ categories products

theorem Settling.compareCounts {s : Recomputing × List Text}
    (h : Settling products source bound s) (hsource : ReadsGrow source bound)
    (hlisted : ∀ row ∈ products.rows, 0 < row.id ∧ row.values.category ≠ [])
    (hcategory : category ∈ categories products)
    (hbound : (RepairDriftCommand.compareCounts products source s
      (category, (inCategory products category).length)).1.reads ≤ bound) :
    Settling products source bound (RepairDriftCommand.compareCounts products source s
      (category, (inCategory products category).length)) := by
  obtain ⟨hcoherent, hexact, hkeep⟩ := compareCounts_spec h.coherent hsource hlisted hbound
  rw [RepairDriftCommand.compareCounts] at hcoherent hexact hkeep ⊢
  split
  · exact h
  · rename_i hne
    rw [if_neg hne] at hcoherent hexact hkeep
    have hnot : category ∉ s.2 := by
      intro hmem
      exact hne (h.coherent.zcard_eq (h.exact category hmem))
    constructor
    · exact hcoherent
    · intro c hc
      rcases List.mem_append.1 hc with hc | hc
      · exact hkeep c (h.exact c hc)
      · rw [List.mem_singleton.1 hc]
        exact hexact hne
    · rw [← List.concat_eq_append]
      exact h.nodup.concat hnot
    · intro c hc
      rcases List.mem_append.1 hc with hc | hc
      · exact h.listed c hc
      · rw [List.mem_singleton.1 hc]
        exact hcategory

theorem Settling.run {s : Recomputing × List Text} (h : Settling products source bound s)
    (hsource : ReadsGrow source bound)
    (hlisted : ∀ row ∈ products.rows, 0 < row.id ∧ row.values.category ≠ []) {order : List Text}
    (horder : ∀ category ∈ order, category ∈ categories products)
    (hbound : (Library.run (RepairDriftCommand.compareCounts products source) s
      (categoryCounts products order)).1.reads ≤ bound) :
    Settling products source bound (Library.run (RepairDriftCommand.compareCounts products source) s
      (categoryCounts products order)) := by
  induction order generalizing s with
  | nil => exact h
  | cons category order ih =>
    rw [List.forall_mem_cons] at horder
    apply ih (h.compareCounts hsource hlisted horder.1 _) horder.2 hbound
    exact (reads_le_run _ _).trans hbound

/-- A run that repairs nothing found every count right, and changed nothing. -/
theorem execute_eq_nil_iff (order : List Text) :
    (execute products source s order).2 = [] ↔ ∀ category ∈ order,
      s.zcard (categoryKey category) = (inCategory products category).length := by
  rw [execute, categoryCounts]
  induction order with
  | nil => exact iff_of_true rfl fun _ h => absurd h List.not_mem_nil
  | cons category order ih =>
    rw [List.map_cons, run_cons, compareCounts, List.forall_mem_cons]
    split
    · rename_i he
      rw [ih]
      exact (and_iff_right he).symm
    · rename_i hne
      rw [run_compareCounts]
      constructor
      · intro hnil
        exact absurd (List.append_eq_nil_iff.1 hnil).1 (List.cons_ne_nil _ _)
      · intro h
        exact absurd h.1 hne

theorem execute_of_counts {order : List Text} (h : ∀ category ∈ order,
      s.zcard (categoryKey category) = (inCategory products category).length) :
    execute products source s order = (s, []) := by
  rw [execute, categoryCounts]
  induction order with
  | nil => rfl
  | cons category order ih =>
    rw [List.forall_mem_cons] at h
    rw [List.map_cons, run_cons, compareCounts, if_pos h.1]
    exact ih h.2

theorem executions_concat (orders : List (List Text)) (order : List Text) :
    executions products source s (orders ++ [order]) =
      ((execute products source (executions products source s orders).1 order).1,
        (executions products source s orders).2 ++
          (execute products source (executions products source s orders).1 order).2) := by
  rw [executions, run_append]
  rfl

/-- Runs that each repair something repair at least as many categories as there are runs. -/
theorem quiet_or_length_le (products : Catalogue) (source : Nat → SourceRead) (s : Recomputing)
    (orders : List (List Text)) :
    (∃ before order after, orders = before ++ order :: after ∧
      (execute products source (executions products source s before).1 order).2 = []) ∨
    orders.length ≤ (executions products source s orders).2.length := by
  induction orders using List.reverseRecOn with
  | nil => exact .inr (Nat.zero_le _)
  | append_singleton orders order ih =>
    rcases ih with ⟨before, order', after, rfl, hquiet⟩ | hle
    · left
      refine ⟨before, order', after ++ [order], ?_, hquiet⟩
      rw [List.append_assoc, List.cons_append]
    · by_cases hquiet :
        (execute products source (executions products source s orders).1 order).2 = []
      · exact .inl ⟨orders, order, [], rfl, hquiet⟩
      · right
        have hpos := List.length_pos_iff.2 hquiet
        rw [executions_concat, List.length_append, List.length_append, List.length_singleton]
        omega

theorem reached_coherent {ops : List ReadModelOp} (hops : ∀ op ∈ ops, op.Valid)
    (hearlier : ∀ op ∈ ops, ∀ k < bound, op.sourceReadAt < (source k).sourceReadAt) :
    (reached ops).Coherent source bound :=
  ⟨represents_run hops, hops, fun op hop k _ hk => hearlier op hop k hk⟩

theorem Settling.executions {ops : List ReadModelOp} (hops : ∀ op ∈ ops, op.Valid)
    (hlisted : ∀ row ∈ products.rows, 0 < row.id ∧ row.values.category ≠ [])
    {orders : List (List Text)} (horders : ∀ order ∈ orders, Lists products order)
    (hsource : ReadsGrow source bound)
    (hearlier : ∀ op ∈ ops, ∀ k < bound, op.sourceReadAt < (source k).sourceReadAt)
    (hbound : (RepairDriftCommand.executions products source (reached ops) orders).1.reads ≤
      bound) :
    Settling products source bound
      (RepairDriftCommand.executions products source (reached ops) orders) := by
  have hcounts : orders.flatMap (categoryCounts products) =
      categoryCounts products orders.flatten := by
    rw [categoryCounts, List.map_flatten, List.flatMap_def]
    rfl
  rw [executions_eq, hcounts] at hbound ⊢
  apply Settling.run _ hsource hlisted _ hbound
  · exact ⟨reached_coherent hops hearlier, fun _ h => absurd h List.not_mem_nil, List.nodup_nil,
      fun _ h => absurd h List.not_mem_nil⟩
  · intro category hc
    obtain ⟨order, horder, hc⟩ := List.mem_flatten.1 hc
    exact ((horders order horder).2 category).1 hc

/-- While no one else writes, successive runs repair each category once at most and leave it with
exactly its products. After a run that finds equal only what is exact every count agrees. Of more
runs than there are categories one repairs nothing, and once one repairs nothing every count agrees
and no later run repairs anything. -/
theorem repairs_settle (products : Catalogue) (source : Nat → SourceRead)
    (ops : List ReadModelOp) (orders : List (List Text))
    (hlisted : ∀ row ∈ products.rows, 0 < row.id ∧ row.values.category ≠ [])
    (hops : ∀ op ∈ ops, op.Valid) (horders : ∀ order ∈ orders, Lists products order)
    (hsource : ReadsGrow source (executions products source (reached ops) orders).1.reads)
    (hearlier : ∀ op ∈ ops, ∀ k < (executions products source (reached ops) orders).1.reads,
      op.sourceReadAt < (source k).sourceReadAt) :
    (executions products source (reached ops) orders).2.Nodup ∧
      (∀ category ∈ (executions products source (reached ops) orders).2,
        (executions products source (reached ops) orders).1.Exact products category ∧
        (executions products source (reached ops) orders).1.zcard (categoryKey category) =
          (inCategory products category).length) ∧
      (∀ before order, orders = before ++ [order] →
        Along (compareCounts products source) (fun s expected =>
            s.1.zcard (categoryKey expected.1) = expected.2 → s.1.Exact products expected.1)
          ((executions products source (reached ops) before).1, [])
          (categoryCounts products order) →
        (executions products source (reached ops) orders).1.AllAgree products) ∧
      ((categories products).length < orders.length → ∃ before order after,
        orders = before ++ order :: after ∧ (execute products source
          (executions products source (reached ops) before).1 order).2 = []) ∧
      ∀ s : Recomputing, (∀ order, Lists products order →
          (execute products source s order).2 = [] → s.AllAgree products) ∧
        (s.AllAgree products → ∀ order, Lists products order →
          execute products source s order = (s, [])) := by
  have h := Settling.executions hops hlisted horders hsource hearlier (Nat.le_refl _)
  refine ⟨h.nodup, ?_, ?_, ?_, ?_⟩
  · intro category hc
    exact ⟨h.exact category hc, h.coherent.zcard_eq (h.exact category hc)⟩
  · rintro before order rfl hequal row hrow
    rw [executions_concat] at hsource hearlier h ⊢
    have hreads := reads_le_execute products source
      (executions products source (reached ops) before).1 order
    have hbefore := Settling.executions hops hlisted
      (fun o ho => horders o (List.mem_append_left _ ho)) hsource hearlier hreads
    apply h.coherent.zcard_eq
    apply execute_settled hbefore.coherent hsource hlisted (Nat.le_refl _) hequal
    have horder := horders order (List.mem_append_right _ (List.mem_singleton_self _))
    exact (horder.2 _).2 (List.mem_dedup.2 (List.mem_map_of_mem hrow))
  · intro hlt
    rcases quiet_or_length_le products source (reached ops) orders with hquiet | hle
    · exact hquiet
    · have hsub := (h.nodup.subperm h.listed).length_le
      exact absurd hlt (Nat.not_lt.2 (hle.trans hsub))
  · intro s
    constructor
    · intro order horder hnil row hrow
      apply (execute_eq_nil_iff order).1 hnil
      exact (horder.2 _).2 (List.mem_dedup.2 (List.mem_map_of_mem hrow))
    · intro hagree order horder
      apply execute_of_counts
      intro category hc
      obtain ⟨row, hrow, rfl⟩ := List.mem_map.1 (List.mem_dedup.1 ((horder.2 category).1 hc))
      exact hagree row hrow

/-- Product 1 has moved from one category to the other and product 2 is new in the first. -/
def moved : Catalogue :=
  ⟨[⟨1, ['S'], ⟨['N'], ['b'], 1000, 5, none⟩, none⟩,
    ⟨2, ['T'], ⟨['N'], ['a'], 1000, 5, none⟩, none⟩], by decide⟩

/-- The write of product 1 before it moved; what came after it was lost. -/
def stale : List ReadModelOp := [.write (sampleEntry 1 ['a'] 900) 1]

def reads (k : Nat) : SourceRead := ⟨k + 2, [], fun _ => []⟩

theorem stale_valid : ∀ op ∈ stale, op.Valid :=
  List.forall_mem_singleton.2 ⟨List.cons_ne_nil _ _, by decide, by decide⟩

theorem moved_lists : Lists moved [['a'], ['b']] ∧ Lists moved [['b'], ['a']] := by
  have hcategories : categories moved = [['b'], ['a']] := by decide +kernel
  rw [Lists, Lists, hcategories]
  refine ⟨⟨by decide, ?_⟩, by decide, fun c => Iff.rfl⟩
  intro c
  exact (List.Perm.swap ['b'] ['a'] []).mem_iff

theorem repairs_settle_moved :
    (executions moved reads (reached stale) [[['a'], ['b']], [['b'], ['a']]]).1.zcard
      (categoryKey ['a']) = 1 := by
  obtain ⟨_, hexact, _⟩ := repairs_settle moved reads stale [[['a'], ['b']], [['b'], ['a']]]
    (by decide) stale_valid
    (by simp only [List.mem_cons, List.not_mem_nil, or_false, forall_eq_or_imp, forall_eq]
        exact moved_lists)
    (by decide +kernel) (by decide +kernel)
  have hrepaired : ['a'] ∈
      (executions moved reads (reached stale) [[['a'], ['b']], [['b'], ['a']]]).2 := by
    decide +kernel
  exact (hexact ['a'] hrepaired).2

/-- The stale member hides the missing one until the second category's repair takes it away. -/
theorem one_run_leaves_drift : ¬ ∀ (products : Catalogue) (source : Nat → SourceRead)
    (ops : List ReadModelOp) (order : List Text),
    (∀ row ∈ products.rows, 0 < row.id ∧ row.values.category ≠ []) → (∀ op ∈ ops, op.Valid) →
    Lists products order →
    ReadsGrow source (executions products source (reached ops) [order, order]).1.reads →
    (∀ op ∈ ops, ∀ k < (executions products source (reached ops) [order, order]).1.reads,
      op.sourceReadAt < (source k).sourceReadAt) →
    (execute products source (reached ops) order).1.AllAgree products ∧
      (execute products source (execute products source (reached ops) order).1 order).2 = [] := by
  intro h
  have hfalse := h moved reads stale [['a'], ['b']] (by decide)
    stale_valid moved_lists.1 (by decide +kernel)
    (by decide +kernel)
  revert hfalse
  decide +kernel

end RepairDriftCommand

end PromotionManagement
