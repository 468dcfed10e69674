import PromotionManagement.Library.Table
import PromotionManagement.Text
import Mathlib.Data.Prod.Lex
import Mathlib.Order.Lattice.Nat

namespace PromotionManagement
open Library
set_option autoImplicit true

/-- `(ingest_job_id, ingest_source_offset)`, which SQL compares as a row. -/
abbrev Provenance := Nat ×ₗ Nat

/-- One priced row, ready to store: the vendor's facts plus where they came from. -/
structure ProductUpsert where
  sku : Text
  name : Text
  category : Text
  basePriceCents : Int
  stockQuantity : Nat
  pricingRulesVersion : Int
  ingestJobId : Nat
  ingestSourceOffset : Nat
deriving DecidableEq, Repr

/-- The columns an import writes and the upsert compares. -/
structure ProductValues where
  name : Text
  category : Text
  basePriceCents : Int
  stockQuantity : Nat
  pricingRulesVersion : Option Int
deriving DecidableEq, Repr

/-- A `products` row. The provenance columns are null together, by the table's own check. -/
structure ProductRow where
  id : Nat
  sku : Text
  values : ProductValues
  provenance : Option Provenance
deriving DecidableEq

namespace ProductUpsert

def provenance (u : ProductUpsert) : Provenance := toLex (u.ingestJobId, u.ingestSourceOffset)

def values (u : ProductUpsert) : ProductValues :=
  ⟨u.name, u.category, u.basePriceCents, u.stockQuantity, some u.pricingRulesVersion⟩

/-- The row inserted when no product has the SKU. -/
def inserted (u : ProductUpsert) (id : Nat) : ProductRow :=
  ⟨id, u.sku, u.values, some u.provenance⟩

/-- `ON CONFLICT (sku) DO UPDATE SET`, which `excluded` fills. -/
def assigned (u : ProductUpsert) (row : ProductRow) : ProductRow :=
  { row with values := u.values, provenance := some u.provenance }

@[simp] theorem assigned_sku (u : ProductUpsert) (row : ProductRow) :
    (u.assigned row).sku = row.sku := rfl

/-- The `setWhere` of the upsert: a later provenance, and a value that differs. -/
def replaces (u : ProductUpsert) (row : ProductRow) : Bool :=
  (row.provenance.all fun p => p < u.provenance) && row.values ≠ u.values

end ProductUpsert

/-- The `products` table and the sequence its identity column draws from. -/
structure Products where
  table : Table ProductRow.sku
  sequence : Nat

namespace Products

def empty : Products := ⟨.empty, 1⟩

/-- One row of the upsert. The sequence is drawn before the conflict is found. -/
def store (p : Products) (u : ProductUpsert) : Products :=
  { table :=
      if p.table.find u.sku = none then p.table.insert (u.inserted p.sequence)
      else p.table.update u.sku u.replaces u.assigned u.assigned_sku
    sequence := p.sequence + 1 }

/-- What `RETURNING sku, id` answers for that row: nothing when the guard skipped it. -/
def stored (p : Products) (u : ProductUpsert) : Option (Text × Nat) :=
  match p.table.find u.sku with
  | none => some (u.sku, p.sequence)
  | some row => if u.replaces row then some (row.sku, row.id) else none

/-- The rows of the statement in order, with what it returns. -/
def storeAll (p : Products) : List ProductUpsert → Products × List (Text × Nat)
  | [] => (p, [])
  | u :: us =>
    let rest := (p.store u).storeAll us
    (rest.1, (p.stored u).toList ++ rest.2)

/-- `[...new Map(batch.map((row) => [row.sku, row])).values()]` -/
def distinctSkus (batch : List ProductUpsert) : List ProductUpsert :=
  (Table.ofList ProductUpsert.sku batch).rows

/-- The second query: the ids of the products whose upsert the guard skipped. -/
def selectIds (p : Products) (skus : List Text) : List (Text × Nat) :=
  (p.table.rows.filter fun row => row.sku ∈ skus).map fun row => (row.sku, row.id)

/-- Stores a batch and answers with the id of every row of it, `undefined` being `none`. -/
def upsertMany (p : Products) (batch : List ProductUpsert) : Products × List (Option Nat) :=
  let rows := distinctSkus batch
  if rows.length = 0 then (p, [])
  else
    let (stored, returned) := p.storeAll rows
    let byTheirSku : Table (Prod.fst : Text × Nat → Text) := Table.ofList Prod.fst returned
    let skipped := (rows.filter fun row => byTheirSku.find row.sku = none).map (·.sku)
    let byTheirSku :=
      if skipped.length > 0 then (stored.selectIds skipped).foldl Table.put byTheirSku
      else byTheirSku
    (stored, rows.map fun row => (byTheirSku.find row.sku).map Prod.snd)

end Products

/-- The row a product becomes when one upsert of its SKU meets it. -/
def ProductRow.after (row : ProductRow) (u : ProductUpsert) : ProductRow :=
  if u.replaces row then u.assigned row else row

namespace Products

theorem find_store_of_ne (p : Products) (u : ProductUpsert) (h : s ≠ u.sku) :
    (p.store u).table.find s = p.table.find s := by
  simp only [store]
  split
  · rename_i hn
    exact (Table.find_insert _ _ hn s).trans (if_neg h)
  · exact Table.find_update_of_ne _ _ _ _ h

theorem find_store_new (p : Products) (u : ProductUpsert) (h : p.table.find u.sku = none) :
    (p.store u).table.find u.sku = some (u.inserted p.sequence) := by
  simp only [store, if_pos h]
  rw [Table.find_insert _ _ h]
  exact if_pos rfl

theorem find_store_old (p : Products) (u : ProductUpsert) (h : p.table.find u.sku = some row) :
    (p.store u).table.find u.sku = some (row.after u) := by
  have hn : p.table.find u.sku ≠ none := by
    rw [h]
    exact Option.some_ne_none row
  rw [store]
  dsimp only
  rw [if_neg hn, Table.find_update_self, h]
  rfl

theorem find_storeAll_of_forall_ne (p : Products) (us : List ProductUpsert)
    (h : ∀ u ∈ us, u.sku ≠ s) : (p.storeAll us).1.table.find s = p.table.find s := by
  induction us generalizing p with
  | nil => rfl
  | cons u us ih =>
    simp only [List.forall_mem_cons] at h
    rw [storeAll, ih _ h.2]
    exact find_store_of_ne p u (Ne.symm h.1)

/-- A statement with one row for a SKU treats that SKU as if the row came alone. -/
theorem find_storeAll_of_mem (p : Products) (us : List ProductUpsert)
    (hu : (us.map ProductUpsert.sku).Nodup) (hm : u ∈ us) :
    ∃ q : Products, q.table.find u.sku = p.table.find u.sku ∧
      (p.storeAll us).1.table.find u.sku = (q.store u).table.find u.sku := by
  induction us generalizing p with
  | nil => cases hm
  | cons v us ih =>
    rw [List.map_cons, List.nodup_cons] at hu
    rcases List.mem_cons.1 hm with rfl | hm
    · refine ⟨p, rfl, find_storeAll_of_forall_ne _ us fun w hw he => hu.1 ?_⟩
      rw [← he]
      exact List.mem_map_of_mem hw
    · obtain ⟨q, hq, hs⟩ := ih (p.store v) hu.2 hm
      refine ⟨q, hq.trans (find_store_of_ne p v fun he => hu.1 ?_), hs⟩
      rw [← he]
      exact List.mem_map_of_mem hm

theorem upsertMany_fst (p : Products) (batch : List ProductUpsert) :
    (p.upsertMany batch).1 = (p.storeAll (distinctSkus batch)).1 := by
  rw [upsertMany]
  split
  · rename_i h
    rw [List.eq_nil_of_length_eq_zero h]
    rfl
  · rfl

theorem length_upsertMany_ids (p : Products) (batch : List ProductUpsert) :
    (p.upsertMany batch).2.length = (distinctSkus batch).length := by
  rw [upsertMany]
  split
  · rename_i h
    exact h.symm
  · exact List.length_map _

/-- The row a batch offers for a SKU is the last one it holds. -/
def candidate (batch : List ProductUpsert) (s : Text) : Option ProductUpsert :=
  (Table.ofList ProductUpsert.sku batch).find s

theorem candidate_eq (batch : List ProductUpsert) (s : Text) :
    candidate batch s = (batch.filter fun u => u.sku = s).getLast? :=
  Table.find_ofList batch s

theorem candidate_mem (h : candidate batch s = some u) : u ∈ batch ∧ u.sku = s := by
  rw [candidate_eq] at h
  simpa only [List.mem_filter, decide_eq_true_eq] using List.mem_of_getLast? h

theorem candidate_none (h : candidate batch s = none) (hu : u ∈ batch) : u.sku ≠ s := by
  rw [candidate_eq, List.getLast?_eq_none_iff, List.filter_eq_nil_iff] at h
  simpa only [decide_eq_true_eq] using h u hu

/-- A product whose SKU is not in the batch is left as it was. -/
theorem find_upsertMany_absent (p : Products) (h : candidate batch s = none) :
    (p.upsertMany batch).1.table.find s = p.table.find s := by
  rw [upsertMany_fst]
  exact find_storeAll_of_forall_ne p _ fun u hu =>
    candidate_none h (Table.mem_of_mem_ofList hu)

theorem find_upsertMany_store (p : Products) (h : candidate batch s = some u) :
    ∃ q : Products, q.table.find s = p.table.find s ∧
      (p.upsertMany batch).1.table.find s = (q.store u).table.find s := by
  have hs := (candidate_mem h).2
  subst hs
  rw [upsertMany_fst]
  exact find_storeAll_of_mem p _ (Table.unique _) (Table.find_some_mem h)

/-- A product whose SKU is in the batch meets the row the batch offers for it. -/
theorem find_upsertMany_old (p : Products) (h : candidate batch s = some u)
    (hr : p.table.find s = some row) :
    (p.upsertMany batch).1.table.find s = some (row.after u) := by
  obtain ⟨q, hq, he⟩ := find_upsertMany_store p h
  have hs := (candidate_mem h).2
  subst hs
  rw [he]
  exact find_store_old q u (hq.trans hr)

theorem find_upsertMany_new (p : Products) (h : candidate batch s = some u)
    (hr : p.table.find s = none) :
    ∃ id, (p.upsertMany batch).1.table.find s = some (u.inserted id) := by
  obtain ⟨q, hq, he⟩ := find_upsertMany_store p h
  have hs := (candidate_mem h).2
  subst hs
  exact ⟨q.sequence, he.trans (find_store_new q u (hq.trans hr))⟩

end Products

end PromotionManagement
