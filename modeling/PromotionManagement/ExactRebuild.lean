import PromotionManagement.KeysetScans
import PromotionManagement.RepairDriftCommand

namespace PromotionManagement
open Library ProductSourceRepository ProductReadRepository
set_option autoImplicit true

namespace Recomputing

/-- The sorted set of the category lists the product. -/
def Lists (s : Recomputing) (category : Text) (productId : Nat) : Prop :=
  (s.readModel.zset (categoryKey category) (Nat.toDigits 10 productId)).isSome

/-- The entry, the scores and the only category of a product are those of its row at a read. -/
structure Shows (s : Recomputing) (row : ProductRow) (read : SourceRead) : Prop where
  holds : Holds s.readModel row.id (some (.write
    (ProductPricer.price (current read.active row) (read.results row.id)) read.sourceReadAt))
  listed : ∃ score, Listed s.readModel
    (ProductPricer.price (current read.active row) (read.results row.id))
    (intText (ProductPricer.price (current read.active row)
      (read.results row.id)).effectivePriceCents) score

end Recomputing

namespace ProductUpsertedHandler

variable {products : Catalogue} {source : Nat → SourceRead} {s : Recomputing}

/-- What handlers of batches send, each after its own read of PostgreSQL. -/
def sent (products : Catalogue) (source : Nat → SourceRead) :
    Nat → List (List Nat) → List ReadModelOp
  | _, [] => []
  | k, productIds :: batches =>
    scripts productIds (ProductSourceRepository.read products (source k).active productIds)
      (source k).sourceReadAt (source k).results ++ sent products source (k + 1) batches

theorem run_handle (s : Recomputing) (batches : List (List Nat)) :
    run (handle products source) s batches =
      ⟨run execute s.readModel (sent products source s.reads batches),
        s.executed ++ sent products source s.reads batches, s.reads + batches.length⟩ := by
  induction batches generalizing s with
  | nil =>
    rw [run_nil, sent, run_nil, List.append_nil]
    rfl
  | cons productIds batches ih =>
    rw [run_cons, ih, sent, run_append]
    simp only [handle, List.append_assoc, List.length_cons, Nat.add_comm 1, Nat.add_assoc]

/-- A handler sends one script for each of its products. -/
theorem scripts_perm {ids : List Nat} (hids : ids.Nodup) (active : List PromotionRow)
    (sourceReadAt : Nat) (results : Nat → List RuleResult) :
    ((scripts ids (ProductSourceRepository.read products active ids) sourceReadAt results).map
      ReadModelOp.productId).Perm ids := by
  let found := found (ProductSourceRepository.read products active ids)
  have hmap : (scripts ids (ProductSourceRepository.read products active ids) sourceReadAt
      results).map ReadModelOp.productId =
      found.rows.map SourceRow.id ++ ids.filter fun id => found.find id = none := by
    simp only [scripts, List.map_append, List.map_map, Function.comp_def, ReadModelOp.productId,
      List.map_id']
    rfl
  rw [hmap, List.perm_ext_iff_of_nodup _ hids]
  · intro id
    rw [List.mem_append, List.mem_filter, decide_eq_true_iff]
    constructor
    · rintro (h | h)
      · obtain ⟨r, hr, rfl⟩ := List.mem_map.1 h
        obtain ⟨row, _, hid, rfl⟩ := mem_found hr
        exact hid
      · exact h.1
    · intro hid
      cases hf : found.find id with
      | none => exact .inr ⟨hid, rfl⟩
      | some r =>
        left
        rw [← Table.find_some_key hf]
        exact List.mem_map_of_mem (Table.find_some_mem hf)
  · rw [List.nodup_append]
    refine ⟨found.unique, hids.filter _, ?_⟩
    rintro id hid id' hid' rfl
    obtain ⟨r, hr, rfl⟩ := List.mem_map.1 hid
    have hnone := of_decide_eq_true (List.mem_filter.1 hid').2
    rw [found.find_of_mem hr] at hnone
    cases hnone

theorem sent_perm (products : Catalogue) (source : Nat → SourceRead) {batches : List (List Nat)}
    (h : batches.flatten.Nodup) (k : Nat) :
    ((sent products source k batches).map ReadModelOp.productId).Perm batches.flatten := by
  induction batches generalizing k with
  | nil => exact .nil
  | cons productIds batches ih =>
    rw [List.flatten_cons, List.nodup_append] at h
    rw [sent, List.map_append, List.flatten_cons]
    exact (scripts_perm h.1 _ _ _).append (ih h.2.1 (k + 1))

/-- A script sent writes a product's row as one of the reads has it, or removes what has none. -/
theorem mem_sent {batches : List (List Nat)} (h : op ∈ sent products source k batches) :
    ∃ j, k ≤ j ∧ j < k + batches.length ∧
      ((∃ row ∈ products.rows, op = .write
        (ProductPricer.price (current (source j).active row) ((source j).results row.id))
        (source j).sourceReadAt) ∨
      (∀ row ∈ products.rows, row.id ≠ op.productId) ∧
        op = .remove op.productId (source j).sourceReadAt) := by
  induction batches generalizing k with
  | nil => exact absurd h List.not_mem_nil
  | cons productIds batches ih =>
    rcases List.mem_append.1 h with h | h
    · refine ⟨k, Nat.le_refl k, by rw [List.length_cons]; omega, ?_⟩
      rcases mem_scripts h with ⟨row, hrow, _, rfl⟩ | ⟨id, _, hnone, rfl⟩
      · exact .inl ⟨row, hrow, rfl⟩
      · exact .inr ⟨hnone, rfl⟩
    · obtain ⟨j, hle, hlt, hop⟩ := ih h
      exact ⟨j, by omega, by rw [List.length_cons]; omega, hop⟩

theorem sent_valid (hlisted : ∀ row ∈ products.rows, row.values.category ≠ [])
    {batches : List (List Nat)} (hsource : ∀ j, j < k + batches.length →
      0 < (source j).sourceReadAt ∧ (source j).sourceReadAt < 2 ^ 53)
    (h : op ∈ sent products source k batches) : op.Valid := by
  obtain ⟨j, _, hj, hop⟩ := mem_sent h
  rcases hop with ⟨row, hrow, rfl⟩ | ⟨_, he⟩
  · exact ⟨hlisted row hrow, hsource j hj⟩
  · rw [he]
    exact hsource j hj

theorem represents_run_handle (h : Represents s.readModel s.executed)
    (hvalid : ∀ op ∈ s.executed, op.Valid)
    (hlisted : ∀ row ∈ products.rows, row.values.category ≠ [])
    {batches : List (List Nat)} (hsource : ∀ k, k < s.reads + batches.length →
      0 < (source k).sourceReadAt ∧ (source k).sourceReadAt < 2 ^ 53) :
    Represents (run (handle products source) s batches).readModel
      (run (handle products source) s batches).executed := by
  rw [run_handle]
  exact h.run hvalid fun op hop => sent_valid hlisted hsource hop

/-- What was sent for a product is its newest script when nothing else was sent for it. -/
theorem newestOp_sent {batches : List (List Nat)} (hnodup : batches.flatten.Nodup)
    (hnewer : ∀ a ∈ ops, ∀ b ∈ sent products source k batches, a.sourceReadAt < b.sourceReadAt)
    (h : op ∈ sent products source k batches) :
    newestOp (ops ++ sent products source k batches) op.productId = some op := by
  obtain ⟨c, hc, hid, hnewest⟩ := newestOp_append_of_lt hnewer h
  have hunique := (sent_perm products source hnodup k).nodup_iff.2 hnodup
  rw [hnewest, List.inj_on_of_nodup_map hunique hc h hid]

variable {bound : Nat}

/-- Handled once, a product shows its row as one of the reads has it, or is gone with its row. -/
theorem run_handle_outcome (h : s.Coherent source (s.reads + batches.length))
    (hsource : ∀ k, k < s.reads + batches.length →
      0 < (source k).sourceReadAt ∧ (source k).sourceReadAt < 2 ^ 53)
    (hlisted : ∀ row ∈ products.rows, row.values.category ≠ []) (hnodup : batches.flatten.Nodup)
    (hid : productId ∈ batches.flatten) :
    (∃ row ∈ products.rows, row.id = productId ∧ ∃ k < s.reads + batches.length,
      (run (handle products source) s batches).Shows row (source k)) ∨
    (∀ row ∈ products.rows, row.id ≠ productId) ∧
      Unlisted (run (handle products source) s batches).readModel productId := by
  have hrep := represents_run_handle h.represents h.valid hlisted hsource
  have hnewer : ∀ a ∈ s.executed, ∀ b ∈ sent products source s.reads batches,
      a.sourceReadAt < b.sourceReadAt := by
    intro a ha b hb
    obtain ⟨j, hle, hlt, hb⟩ := mem_sent hb
    have hearlier := h.earlier a ha j hle hlt
    rcases hb with ⟨row, _, rfl⟩ | ⟨_, he⟩
    · exact hearlier
    · rw [he]
      exact hearlier
  obtain ⟨op, hop, rfl⟩ := List.mem_map.1
    ((sent_perm products source hnodup s.reads).mem_iff.2 hid)
  have hholds := hrep.holds op.productId
  rw [run_handle, newestOp_sent hnodup hnewer hop] at hholds
  rw [run_handle]
  obtain ⟨j, _, hj, hsends⟩ := mem_sent hop
  rcases hsends with ⟨row, hrow, rfl⟩ | ⟨hnone, he⟩
  · exact .inl ⟨row, hrow, rfl, j, hj, hholds, hholds.listed⟩
  · rw [he] at hholds
    exact .inr ⟨hnone, hholds.unlisted⟩

/-- A product that is not handled stays in the sorted sets it was in. -/
theorem run_handle_lists (s : Recomputing) (h : Represents s.readModel s.executed)
    (hvalid : ∀ op ∈ s.executed, op.Valid)
    (hsource : ∀ k, k < s.reads + batches.length →
      0 < (source k).sourceReadAt ∧ (source k).sourceReadAt < 2 ^ 53)
    (hlisted : ∀ row ∈ products.rows, row.values.category ≠ []) (hnodup : batches.flatten.Nodup)
    (hid : productId ∉ batches.flatten) (category : Text) :
    (run (handle products source) s batches).Lists category productId ↔
      s.Lists category productId := by
  have hholds := (represents_run_handle h hvalid hlisted hsource).holds productId
  have hsame : newestOp (s.executed ++ sent products source s.reads batches) productId =
      newestOp s.executed productId := by
    apply newest_append_of_ne
    rintro op hop rfl
    exact hid ((sent_perm products source hnodup s.reads).mem_iff.1 (List.mem_map_of_mem hop))
  rw [run_handle, hsame] at hholds
  rw [run_handle, Recomputing.Lists, Recomputing.Lists, hholds.category category,
    (h.holds productId).category category]

end ProductUpsertedHandler

namespace RebuildReadModelCommand

open ProductUpsertedHandler

variable {products : Catalogue} {source : Nat → SourceRead} {s : Recomputing}

/-- The two passes handle each product of the category and each former member once. -/
theorem rebuildCategory_batches (source : Nat → SourceRead) (s : Recomputing)
    (h : Represents s.readModel s.executed)
    (hvalid : ∀ op ∈ s.executed, op.Valid)
    (hlisted : ∀ row ∈ products.rows, 0 < row.id ∧ row.values.category ≠ []) (category : Text)
    (hsource : ∀ k, k < (rebuildCategory products source s category).1.reads →
      0 < (source k).sourceReadAt ∧ (source k).sourceReadAt < 2 ^ 53) :
    ∃ batches, (rebuildCategory products source s category).1 =
        run (handle products source) s batches ∧
      (rebuildCategory products source s category).2 = batches.flatten.length ∧
      batches.flatten.Nodup ∧ ∀ productId, productId ∈ batches.flatten ↔
        (∃ row ∈ products.rows, row.id = productId ∧ row.values.category = category) ∨
        s.Lists category productId := by
  have hcategory : ∀ row ∈ products.rows, row.values.category ≠ [] :=
    fun row hrow => (hlisted row hrow).2
  obtain ⟨first, he, hnodup, hsound, hreached⟩ := recomputePages_batches products source category s
  have hfirst (productId : Nat) : productId ∈ first.flatten ↔
      ∃ row ∈ products.rows, row.id = productId ∧ row.values.category = category := by
    constructor
    · exact hsound productId
    · rintro ⟨row, hrow, rfl, hc⟩
      exact hreached row hrow hc (hlisted row hrow).1
  let middle := run (handle products source) s first
  let left := (middle.zrange (categoryKey category)).filter fun id => id ∉ first.flatten
  have hafter : rebuildCategory products source s category =
      (run (handle products source) s (first ++ pages left),
        first.flatten.length + left.length) := by
    rw [rebuildCategory, he, run_append]
  have hreads : (run (handle products source) s (first ++ pages left)).reads =
      s.reads + (first ++ pages left).length := run_handle_reads _
  rw [hafter] at hsource ⊢
  have hsource₁ (k : Nat) (hk : k < s.reads + first.length) :
      0 < (source k).sourceReadAt ∧ (source k).sourceReadAt < 2 ^ 53 := by
    apply hsource k
    rw [hreads, List.length_append]
    omega
  have hrep : Represents middle.readModel middle.executed :=
    represents_run_handle h hvalid hcategory hsource₁
  have hflatten : (first ++ pages left).flatten = first.flatten ++ left := by
    rw [List.flatten_append, flatten_pages]
  have hleft (productId : Nat) : productId ∈ left ↔
      productId ∉ first.flatten ∧ s.Lists category productId := by
    rw [List.mem_filter, decide_eq_true_iff, Recomputing.mem_zrange, Recomputing.mem_members hrep,
      and_comm]
    exact and_congr_right fun hnot =>
      run_handle_lists s h hvalid hsource₁ hcategory hnodup hnot category
  refine ⟨first ++ pages left, rfl, ?_, ?_, ?_⟩
  · rw [hflatten, List.length_append]
  · rw [hflatten, List.nodup_append]
    refine ⟨hnodup, ?_, ?_⟩
    · apply List.Nodup.filter
      exact (List.mergeSort_perm _ _).nodup_iff.2 (middle.members_nodup _)
    · rintro id hid id' hid' rfl
      exact ((hleft id).1 hid').1 hid
  · intro productId
    rw [hflatten, List.mem_append, hleft, ← hfirst]
    constructor
    · rintro (hin | ⟨_, hlists⟩)
      · exact .inl hin
      · exact .inr hlists
    · rintro (hin | hlists)
      · exact .inl hin
      · by_cases hin : productId ∈ first.flatten
        · exact .inl hin
        · exact .inr ⟨hin, hlists⟩

/-- Whatever writes were lost before it, a rebuild of a category that no one else writes beside
leaves its sorted set with exactly its products. Each of them, and each former member that still has
a row, shows its current row. Former members without a row are gone everywhere, and one script runs
for each product. -/
theorem rebuildCategory_exact (products : Catalogue) (source : Nat → SourceRead)
    (ops : List ReadModelOp) (category : Text)
    (hlisted : ∀ row ∈ products.rows, 0 < row.id ∧ row.values.category ≠ [])
    (hops : ∀ op ∈ ops, op.Valid) (before : Recomputing)
    (hbefore : before = RepairDriftCommand.reached ops) (after : Recomputing) (recomputed : Nat)
    (hafter : rebuildCategory products source before category = (after, recomputed))
    (hsource : ∀ k < after.reads,
      0 < (source k).sourceReadAt ∧ (source k).sourceReadAt < 2 ^ 53)
    (hearlier : ∀ op ∈ ops, ∀ k < after.reads, op.sourceReadAt < (source k).sourceReadAt) :
    after.Exact products category ∧
      (∀ row ∈ products.rows, row.values.category = category ∨ before.Lists category row.id →
        ∃ k < after.reads, after.Shows row (source k)) ∧
      (∀ productId, before.Lists category productId →
        (∀ row ∈ products.rows, row.id ≠ productId) → Unlisted after.readModel productId) ∧
      ∃ scripts, after.executed = ops ++ scripts ∧ scripts.length = recomputed ∧
        (scripts.map ReadModelOp.productId).Nodup ∧
        ∀ productId, productId ∈ scripts.map ReadModelOp.productId ↔
          (∃ row ∈ products.rows, row.id = productId ∧ row.values.category = category) ∨
          before.Lists category productId := by
  subst hbefore
  have hcategory : ∀ row ∈ products.rows, row.values.category ≠ [] :=
    fun row hrow => (hlisted row hrow).2
  have hrep := represents_run hops
  obtain ⟨batches, hrun, hcount, hnodup, hmem⟩ := rebuildCategory_batches source
    (RepairDriftCommand.reached ops) hrep hops hlisted category
    (fun k hk => hsource k (by rwa [hafter] at hk))
  rw [hafter] at hrun hcount
  subst hrun hcount
  have hreads : (run (handle products source) (RepairDriftCommand.reached ops) batches).reads =
      (RepairDriftCommand.reached ops).reads + batches.length := run_handle_reads batches
  rw [hreads] at hsource hearlier ⊢
  have hcoherent := RepairDriftCommand.reached_coherent hops hearlier
  have houtcome {productId : Nat} (hid : productId ∈ batches.flatten) :=
    run_handle_outcome hcoherent hsource hcategory hnodup hid
  have hperm := sent_perm products source hnodup 0
  refine ⟨?_, ?_, ?_, sent products source 0 batches, ?_, ?_, ?_, ?_⟩
  · intro productId
    by_cases hid : productId ∈ batches.flatten
    · rcases houtcome hid with ⟨row, hrow, rfl, k, _, hshows⟩ | ⟨hnone, hgone⟩
      · exact Recomputing.placed_of_write hrow hshows.holds category
      · exact Recomputing.placed_of_unlisted hnone hgone category
    · have hsame := run_handle_lists (RepairDriftCommand.reached ops) hrep hops hsource hcategory
        hnodup hid category
      rw [hmem, not_or] at hid
      constructor
      · exact fun hlists => absurd (hsame.1 hlists) hid.2
      · exact fun hrow => absurd hrow hid.1
  · intro row hrow hin
    have hid : row.id ∈ batches.flatten := by
      rw [hmem]
      exact hin.imp_left fun hc => ⟨row, hrow, rfl, hc⟩
    rcases houtcome hid with ⟨row', hrow', hid', k, hk, hshows⟩ | ⟨hnone, _⟩
    · obtain rfl := products.eq_of_key hrow' hrow hid'
      exact ⟨k, hk, hshows⟩
    · exact absurd rfl (hnone row hrow)
  · intro productId hlists hnone
    rcases houtcome ((hmem productId).2 (.inr hlists)) with ⟨row, hrow, hid, _⟩ | ⟨_, hgone⟩
    · exact absurd hid (hnone row hrow)
    · exact hgone
  · rw [run_handle]
    rfl
  · rw [← hperm.length_eq, List.length_map]
  · exact hperm.nodup_iff.2 hnodup
  · intro productId
    rw [hperm.mem_iff, hmem]

/-- Product 1 has left the category, product 2 was never written and product 3 is gone. -/
def drifted : List ReadModelOp :=
  [.write (sampleEntry 1 ['a'] 900) 1, .write (sampleEntry 3 ['a'] 700) 1]

theorem drifted_valid : ∀ op ∈ drifted, op.Valid := by
  simp [drifted, ReadModelOp.Valid, sampleEntry]

/-- Every read comes at one instant, later than what is stored. -/
def readNow (_ : Nat) : SourceRead := ⟨2, [], fun _ => []⟩

theorem rebuildCategory_exact_drifted :
    (rebuildCategory RepairDriftCommand.moved readNow
      (RepairDriftCommand.reached drifted) ['a']).1.Exact RepairDriftCommand.moved ['a'] ∧
    Unlisted (rebuildCategory RepairDriftCommand.moved readNow
      (RepairDriftCommand.reached drifted) ['a']).1.readModel 3 := by
  have hsource : 0 < 2 ∧ 2 < 2 ^ 53 := by decide
  have hearlier : ∀ op ∈ drifted, op.sourceReadAt < 2 := by decide
  obtain ⟨hexact, _, hgone, _⟩ := rebuildCategory_exact RepairDriftCommand.moved readNow drifted
    ['a'] (by decide) drifted_valid _ rfl _ _ rfl (fun _ _ => hsource)
    fun op hop _ _ => hearlier op hop
  have hlists : (RepairDriftCommand.reached drifted).Lists ['a'] 3 := by
    rw [Recomputing.Lists]
    decide +kernel
  exact ⟨hexact, hgone 3 hlists (by decide)⟩

end RebuildReadModelCommand

end PromotionManagement
