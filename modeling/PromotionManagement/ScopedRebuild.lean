import PromotionManagement.KeysetScans

namespace PromotionManagement
open Library ProductSourceRepository ProductReadRepository
set_option autoImplicit true

/-- The first reads come at instants that grow, and that a double holds exactly. -/
def ReadsGrow (source : Nat → SourceRead) (bound : Nat) : Prop :=
  ∀ k < bound, 0 < (source k).sourceReadAt ∧ (source k).sourceReadAt < 2 ^ 53 ∧
    ∀ j < k, (source j).sourceReadAt < (source k).sourceReadAt

instance : Decidable (ReadsGrow source bound) :=
  inferInstanceAs (Decidable (∀ k < bound, 0 < (source k).sourceReadAt ∧
    (source k).sourceReadAt < 2 ^ 53 ∧ ∀ j < k, (source j).sourceReadAt < (source k).sourceReadAt))

/-- The product is in the sorted set of its category and of no other. -/
def Recomputing.Placed (products : Catalogue) (s : Recomputing) (productId : Nat) : Prop :=
  ∀ c, (s.readModel.zset (categoryKey c) (Nat.toDigits 10 productId)).isSome ↔
    ∃ row ∈ products.rows, row.id = productId ∧ row.values.category = c

/-- The sorted set of a category lists its products and nothing else. -/
def Recomputing.Exact (products : Catalogue) (s : Recomputing) (category : Text) : Prop :=
  ∀ productId,
    (s.readModel.zset (categoryKey category) (Nat.toDigits 10 productId)).isSome ↔
      ∃ row ∈ products.rows, row.id = productId ∧ row.values.category = category

/-- Every category has as many members in its sorted set as products. -/
def Recomputing.AllAgree (products : Catalogue) (s : Recomputing) : Prop :=
  ∀ row ∈ products.rows,
    s.zcard (categoryKey row.values.category) = (inCategory products row.values.category).length

instance : Decidable (Recomputing.AllAgree products s) :=
  inferInstanceAs (Decidable (∀ row ∈ products.rows, s.zcard (categoryKey row.values.category) =
    (inCategory products row.values.category).length))

/-- Redis holds the newest script of each product, and the reads to come are later than all. -/
structure Recomputing.Coherent (source : Nat → SourceRead) (bound : Nat) (s : Recomputing) :
    Prop where
  represents : Represents s.readModel s.executed
  valid : ∀ op ∈ s.executed, op.Valid
  earlier : ∀ op ∈ s.executed, ∀ k, s.reads ≤ k → k < bound →
    op.sourceReadAt < (source k).sourceReadAt

/-- A product that a write left in the store is in the sorted set of its category alone. -/
theorem Holds.isSome_write {db : ReadModel} {productId : Nat} {entry : ProductEntry}
    (h : Holds db productId (some (.write entry sourceReadAt))) (c : Text) :
    (db.zset (categoryKey c) (Nat.toDigits 10 productId)).isSome ↔ entry.category = c := by
  obtain ⟨score, hs⟩ := number?_intText entry.effectivePriceCents
  rw [h.category c]
  simp only [Option.bind_some, ReadModelOp.category, ReadModelOp.score, hs]
  split
  · rename_i hc
    simp only [hc, Option.isSome_some]
  · rename_i hc
    simp only [hc, Option.isSome_none, Bool.false_eq_true]

namespace Recomputing

variable {products : Catalogue} {s : Recomputing}

theorem placed_of_write (hrow : row ∈ products.rows) (h : Holds s.readModel row.id
    (some (.write (ProductPricer.price (current active row) results) sourceReadAt))) :
    s.Placed products row.id := by
  intro c
  rw [h.isSome_write c]
  constructor
  · exact fun hc => ⟨row, hrow, rfl, hc⟩
  · rintro ⟨row', hrow', hid', rfl⟩
    obtain rfl := products.eq_of_key hrow' hrow hid'
    rfl

theorem placed_of_unlisted (hnone : ∀ row ∈ products.rows, row.id ≠ productId)
    (h : Unlisted s.readModel productId) : s.Placed products productId := by
  intro c
  rw [h.category c]
  constructor
  · exact fun hf => absurd hf Bool.false_ne_true
  · exact fun ⟨row, hrow, he, _⟩ => absurd he (hnone row hrow)

end Recomputing

namespace ProductUpsertedHandler

variable {products : Catalogue} {source : Nat → SourceRead} {s : Recomputing}

@[simp] theorem handle_reads (productIds : List Nat) :
    (handle products source s productIds).reads = s.reads + 1 := rfl

theorem run_handle_reads (batches : List (List Nat)) :
    (run (handle products source) s batches).reads = s.reads + batches.length := by
  induction batches generalizing s with
  | nil => rfl
  | cons productIds batches ih =>
    rw [run_cons, ih, handle_reads, List.length_cons, Nat.add_assoc, Nat.add_comm 1]

variable {bound : Nat}

theorem handle_coherent (h : s.Coherent source bound) (hsource : ReadsGrow source bound)
    (hlisted : ∀ row ∈ products.rows, row.values.category ≠ []) (hbound : s.reads < bound)
    (productIds : List Nat) : (handle products source s productIds).Coherent source bound := by
  obtain ⟨hpos, hlt, _⟩ := hsource _ hbound
  have hvalid (op : ReadModelOp)
      (hop : op ∈ scripts productIds
        (ProductSourceRepository.read products (source s.reads).active productIds)
        (source s.reads).sourceReadAt (source s.reads).results) : op.Valid :=
    valid_of_mem_scripts hlisted hpos hlt hop
  constructor
  · exact h.represents.run h.valid hvalid
  · intro op hop
    rcases List.mem_append.1 hop with hop | hop
    · exact h.valid op hop
    · exact hvalid op hop
  · intro op hop k hk hkb
    rcases List.mem_append.1 hop with hop | hop
    · exact h.earlier op hop k (Nat.le_of_succ_le hk) hkb
    · rw [(of_mem_scripts hop).1]
      exact (hsource k hkb).2.2 _ hk

/-- The newest script of a product handled is the one that the handler sent for it. -/
theorem handle_newest (h : s.Coherent source bound) (hbound : s.reads < bound)
    (hid : productId ∈ productIds) :
    (∃ row ∈ products.rows, row.id = productId ∧
      newestOp (handle products source s productIds).executed productId =
        some (.write (ProductPricer.price (current (source s.reads).active row)
          ((source s.reads).results row.id)) (source s.reads).sourceReadAt)) ∨
    ((∀ row ∈ products.rows, row.id ≠ productId) ∧
      newestOp (handle products source s productIds).executed productId =
        some (.remove productId (source s.reads).sourceReadAt)) := by
  have hnewer : ∀ a ∈ s.executed, ∀ b ∈ scripts productIds
      (ProductSourceRepository.read products (source s.reads).active productIds)
      (source s.reads).sourceReadAt (source s.reads).results, a.sourceReadAt < b.sourceReadAt := by
    intro a ha b hb
    rw [(of_mem_scripts hb).1]
    exact h.earlier a ha s.reads (Nat.le_refl _) hbound
  by_cases hrow : ∃ row ∈ products.rows, row.id = productId
  · obtain ⟨row, hrow, rfl⟩ := hrow
    obtain ⟨op, hop, hopid, hnewest⟩ := newestOp_append_of_lt hnewer (write_mem_scripts hrow hid)
    rcases mem_scripts hop with ⟨row', hrow', _, rfl⟩ | ⟨id', _, hnone, rfl⟩
    · obtain rfl := products.eq_of_key hrow' hrow hopid
      exact .inl ⟨row', hrow', rfl, hnewest⟩
    · exact absurd hopid.symm (hnone row hrow)
  · have hnone : ∀ row ∈ products.rows, row.id ≠ productId :=
      fun row hr he => hrow ⟨row, hr, he⟩
    obtain ⟨op, hop, hopid, hnewest⟩ := newestOp_append_of_lt hnewer (remove_mem_scripts hid hnone)
    rcases mem_scripts hop with ⟨row, hr, _, rfl⟩ | ⟨id', _, _, rfl⟩
    · exact absurd hopid (hnone row hr)
    · obtain rfl : id' = productId := hopid
      exact .inr ⟨hnone, hnewest⟩

/-- A product handled is placed as PostgreSQL has it. -/
theorem handle_placed (h : s.Coherent source bound) (hsource : ReadsGrow source bound)
    (hlisted : ∀ row ∈ products.rows, row.values.category ≠ []) (hbound : s.reads < bound)
    (hid : productId ∈ productIds) :
    (handle products source s productIds).Placed products productId := by
  have hholds := (handle_coherent h hsource hlisted hbound productIds).represents.holds productId
  rcases handle_newest h hbound hid with ⟨row, hrow, rfl, hnewest⟩ | ⟨hnone, hnewest⟩
  · rw [hnewest] at hholds
    exact Recomputing.placed_of_write hrow hholds
  · rw [hnewest] at hholds
    exact Recomputing.placed_of_unlisted hnone hholds.unlisted

/-- A product that is not handled stays in the sorted sets it was in. -/
theorem handle_zset (h : s.Coherent source bound) (hsource : ReadsGrow source bound)
    (hlisted : ∀ row ∈ products.rows, row.values.category ≠ []) (hbound : s.reads < bound)
    (hid : productId ∉ productIds) (c : Text) :
    (handle products source s productIds).readModel.zset (categoryKey c)
      (Nat.toDigits 10 productId) =
    s.readModel.zset (categoryKey c) (Nat.toDigits 10 productId) := by
  have hholds := (handle_coherent h hsource hlisted hbound productIds).represents.holds productId
  have hsame : newestOp (handle products source s productIds).executed productId =
      newestOp s.executed productId := by
    apply newest_append_of_ne
    intro op hop he
    exact hid (he ▸ (of_mem_scripts hop).2)
  rw [hsame] at hholds
  rw [hholds.category c, (h.represents.holds productId).category c]

theorem run_coherent (h : s.Coherent source bound) (hsource : ReadsGrow source bound)
    (hlisted : ∀ row ∈ products.rows, row.values.category ≠ []) {batches : List (List Nat)}
    (hbound : s.reads + batches.length ≤ bound) :
    (run (handle products source) s batches).Coherent source bound := by
  induction batches generalizing s with
  | nil => exact h
  | cons productIds batches ih =>
    rw [List.length_cons] at hbound
    apply ih (handle_coherent h hsource hlisted _ productIds)
    · rw [handle_reads]
      omega
    · omega

/-- What every handler keeps of one product's sorted sets, and gives it, a run of them keeps. -/
theorem run_placed (h : s.Coherent source bound) (hsource : ReadsGrow source bound)
    (hlisted : ∀ row ∈ products.rows, row.values.category ≠ []) {batches : List (List Nat)}
    (hbound : s.reads + batches.length ≤ bound) (productId : Nat) :
    (run (handle products source) s batches).Placed products productId ∨
    productId ∉ batches.flatten ∧ ∀ c,
      (run (handle products source) s batches).readModel.zset (categoryKey c)
        (Nat.toDigits 10 productId) =
      s.readModel.zset (categoryKey c) (Nat.toDigits 10 productId) := by
  induction batches generalizing s with
  | nil => exact .inr ⟨List.not_mem_nil, fun _ => rfl⟩
  | cons productIds batches ih =>
    rw [List.length_cons] at hbound
    have hlt : s.reads < bound := by omega
    have hafter := handle_coherent h hsource hlisted hlt productIds
    rw [run_cons]
    rcases ih hafter (by rw [handle_reads]; omega) with hp | ⟨hnot, hsame⟩
    · exact .inl hp
    · by_cases hid : productId ∈ productIds
      · left
        intro c
        rw [hsame c]
        exact handle_placed h hsource hlisted hlt hid c
      · right
        refine ⟨?_, fun c => (hsame c).trans (handle_zset h hsource hlisted hlt hid c)⟩
        rw [List.flatten_cons, List.mem_append]
        exact fun hm => hm.elim hid hnot

/-- A sorted set that lists exactly its category's products does so after more of them are
handled. -/
theorem run_exact (h : s.Coherent source bound) (hsource : ReadsGrow source bound)
    (hlisted : ∀ row ∈ products.rows, row.values.category ≠ []) {batches : List (List Nat)}
    (hbound : s.reads + batches.length ≤ bound) (he : s.Exact products category) :
    (run (handle products source) s batches).Exact products category := by
  intro productId
  rcases run_placed h hsource hlisted hbound productId with hp | ⟨_, hsame⟩
  · exact hp category
  · rw [hsame category]
    exact he productId

end ProductUpsertedHandler

namespace Recomputing

variable {products : Catalogue} {source : Nat → SourceRead} {s : Recomputing} {bound : Nat}

/-- What a sorted set lists are products that some script has named. -/
theorem mem_members (h : Represents s.readModel s.executed) {productId : Nat} :
    productId ∈ s.members (categoryKey c) ↔
      (s.readModel.zset (categoryKey c) (Nat.toDigits 10 productId)).isSome := by
  rw [members, List.mem_filter, List.mem_dedup, List.mem_map]
  constructor
  · exact And.right
  · intro hsome
    refine ⟨?_, hsome⟩
    rw [(h.holds productId).category c] at hsome
    cases hnewest : newestOp s.executed productId with
    | none =>
      rw [hnewest] at hsome
      cases hsome
    | some op => exact ⟨op, newest_mem hnewest⟩

theorem members_nodup (s : Recomputing) (key : Text) : (s.members key).Nodup :=
  List.Nodup.filter _ (List.nodup_dedup _)

theorem mem_zrange {productId : Nat} :
    productId ∈ s.zrange key ↔ productId ∈ s.members key := List.mem_mergeSort

/-- A sorted set that lists exactly its category's products has as many members. -/
theorem Coherent.zcard_eq (h : s.Coherent source bound) (he : s.Exact products category) :
    s.zcard (categoryKey category) = (inCategory products category).length := by
  have hunique : ((inCategory products category).map ProductRow.id).Nodup :=
    products.unique.sublist (List.Sublist.map _ List.filter_sublist)
  have hperm : (s.members (categoryKey category)).Perm
      ((inCategory products category).map ProductRow.id) := by
    apply (List.perm_ext_iff_of_nodup (s.members_nodup _) hunique).2
    intro productId
    rw [mem_members h.represents, he productId, List.mem_map]
    constructor
    · rintro ⟨row, hrow, hid, hc⟩
      exact ⟨row, List.mem_filter.2 ⟨hrow, decide_eq_true hc⟩, hid⟩
    · rintro ⟨row, hrow, hid⟩
      obtain ⟨hrow, hc⟩ := List.mem_filter.1 hrow
      exact ⟨row, hrow, hid, of_decide_eq_true hc⟩
  rw [zcard, hperm.length_eq, List.length_map]

end Recomputing

namespace RebuildReadModelCommand

open ProductUpsertedHandler

variable {products : Catalogue} {source : Nat → SourceRead} {s : Recomputing} {bound : Nat}

/-- A rebuild handles the products of its category, then what its sorted set still lists. -/
theorem rebuildCategory_run (products : Catalogue) (source : Nat → SourceRead) (s : Recomputing)
    (category : Text) : ∃ first second : List (List Nat),
      (rebuildCategory products source s category).1 =
        run (handle products source) (run (handle products source) s first) second ∧
      (∀ row ∈ products.rows, row.values.category = category → 0 < row.id →
        row.id ∈ first.flatten) ∧
      ∀ productId ∈ (run (handle products source) s first).members (categoryKey category),
        productId ∈ first.flatten ∨ productId ∈ second.flatten := by
  obtain ⟨first, he, _, _, hall⟩ := recomputePages_batches products source category s
  let second := pages (((run (handle products source) s first).zrange
    (categoryKey category)).filter fun id => id ∉ first.flatten)
  refine ⟨first, second, ?_, hall, ?_⟩
  · rw [rebuildCategory, he]
  · intro productId hm
    by_cases hfirst : productId ∈ first.flatten
    · exact .inl hfirst
    · right
      rw [flatten_pages]
      exact List.mem_filter.2 ⟨Recomputing.mem_zrange.2 hm, decide_eq_true hfirst⟩

/-- A category rebuilt has exactly its products, and what was exact before is exact still. -/
theorem rebuildCategory_spec (h : s.Coherent source bound) (hsource : ReadsGrow source bound)
    (hlisted : ∀ row ∈ products.rows, 0 < row.id ∧ row.values.category ≠ []) (category : Text)
    (hbound : (rebuildCategory products source s category).1.reads ≤ bound) :
    (rebuildCategory products source s category).1.Coherent source bound ∧
      (rebuildCategory products source s category).1.Exact products category ∧
      ∀ c, s.Exact products c →
        (rebuildCategory products source s category).1.Exact products c := by
  have hcategory : ∀ row ∈ products.rows, row.values.category ≠ [] :=
    fun row hrow => (hlisted row hrow).2
  obtain ⟨first, second, he, hfirst, hsecond⟩ :=
    rebuildCategory_run products source s category
  rw [he, run_handle_reads] at hbound
  have hbound₁ : s.reads + first.length ≤ bound := by
    rw [run_handle_reads] at hbound
    exact Nat.le_of_add_right_le hbound
  have hmid := run_coherent h hsource hcategory hbound₁
  rw [he]
  refine ⟨run_coherent hmid hsource hcategory hbound, ?_, ?_⟩
  · intro productId
    rcases run_placed hmid hsource hcategory hbound productId with hp | ⟨hnot, hsame⟩
    · exact hp category
    · rw [hsame category]
      rcases run_placed h hsource hcategory hbound₁ productId with hp | ⟨hnot₁, _⟩
      · exact hp category
      · constructor
        · intro hsome
          exact absurd (hsecond productId ((Recomputing.mem_members hmid.represents).2 hsome))
            (fun hm => hm.elim hnot₁ hnot)
        · rintro ⟨row, hrow, rfl, hc⟩
          exact absurd (hfirst row hrow hc (hlisted row hrow).1) hnot₁
  · intro c hc
    apply run_exact hmid hsource hcategory hbound
    exact run_exact h hsource hcategory hbound₁ hc

end RebuildReadModelCommand

end PromotionManagement
