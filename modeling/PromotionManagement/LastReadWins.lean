import PromotionManagement.Library.Newest
import PromotionManagement.Library.Run
import PromotionManagement.ReadModelScripts

namespace PromotionManagement
open Library
set_option autoImplicit true

open ProductReadRepository

/-- The operation a product holds after one more: the newer of the two. -/
def newer (o : Option ReadModelOp) (op : ReadModelOp) : Option ReadModelOp :=
  match o with
  | none => some op
  | some b => if b.sourceReadAt < op.sourceReadAt then some op else some b

theorem execute_cases {db : ReadModel} {op : ReadModelOp} (h : Holds db op.productId o)
    (ho : ∀ b, o = some b → b.Valid) (hv : op.Valid) :
    (newer o op = some op ∧
      execute db op = replaceProduct db op (o.elim [] ReadModelOp.category)) ∨
    (newer o op = o ∧ execute db op = db) := by
  have hrun := run_eq hv ho h.token
  rw [execute, hrun]
  cases o with
  | none => exact .inl ⟨rfl, rfl⟩
  | some b =>
    simp only [newer]
    split
    · exact .inl ⟨rfl, rfl⟩
    · exact .inr ⟨rfl, rfl⟩

theorem Holds.execute_self {db : ReadModel} {op : ReadModelOp} (h : Holds db op.productId o)
    (ho : ∀ b, o = some b → b.Valid) (hv : op.Valid) :
    Holds (execute db op) op.productId (newer o op) := by
  rcases execute_cases h ho hv with ⟨hn, he⟩ | ⟨hn, he⟩
  · rw [hn, he]
    exact h.replace_self ho hv
  · rw [hn, he]
    exact h

theorem Holds.execute_of_ne {db : ReadModel} {id : Nat} {op : ReadModelOp} (h : Holds db id o)
    (hne : id ≠ op.productId) (hop : Holds db op.productId o') (ho : ∀ b, o' = some b → b.Valid)
    (hv : op.Valid) : Holds (execute db op) id o := by
  rcases execute_cases hop ho hv with ⟨_, he⟩ | ⟨_, he⟩
  · rw [he]
    exact h.replace_of_ne hne _
  · rw [he]
    exact h

theorem Clean.execute {db : ReadModel} {op : ReadModelOp} (h : Clean db)
    (hop : Holds db op.productId o) (ho : ∀ b, o = some b → b.Valid) (hv : op.Valid) :
    Clean (PromotionManagement.execute db op) := by
  rcases execute_cases hop ho hv with ⟨_, he⟩ | ⟨_, he⟩
  · rw [he]
    exact h.replace op _
  · rw [he]
    exact h

def newestOp (ops : List ReadModelOp) : Nat → Option ReadModelOp :=
  newest ReadModelOp.productId ReadModelOp.sourceReadAt ops

theorem newestOp_concat_self (ops : List ReadModelOp) (op : ReadModelOp) :
    newestOp (ops ++ [op]) op.productId = newer (newestOp ops op.productId) op := by
  have h := newest_concat_self ReadModelOp.productId ReadModelOp.sourceReadAt ops op
  cases hn : newestOp ops op.productId with
  | none =>
    rw [newestOp] at hn
    rw [hn] at h
    exact h
  | some b =>
    rw [newestOp] at hn
    rw [hn] at h
    exact h

theorem newestOp_append_of_lt (hlt : ∀ a ∈ ops, ∀ b ∈ later, a.sourceReadAt < b.sourceReadAt)
    (hop : op ∈ later) :
    ∃ c ∈ later, c.productId = op.productId ∧ newestOp (ops ++ later) op.productId = some c :=
  newest_append_of_lt hlt hop rfl

/-- Each product holds its newest operation. -/
structure Represents (db : ReadModel) (ops : List ReadModelOp) : Prop where
  clean : Clean db
  holds : ∀ id, Holds db id (newestOp ops id)

theorem Represents.execute {db : ReadModel} (h : Represents db ops)
    (hops : ∀ op ∈ ops, op.Valid) (hv : op.Valid) :
    Represents (PromotionManagement.execute db op) (ops ++ [op]) := by
  have ho (b : ReadModelOp) (hb : newestOp ops op.productId = some b) : b.Valid :=
    hops b (newest_mem hb).1
  constructor
  · exact h.clean.execute (h.holds op.productId) ho hv
  · intro id
    by_cases hid : id = op.productId
    · subst hid
      rw [newestOp_concat_self]
      exact (h.holds op.productId).execute_self ho hv
    · rw [newestOp, newest_concat_of_ne (Ne.symm hid)]
      exact (h.holds id).execute_of_ne hid (h.holds op.productId) ho hv

theorem Represents.run {db : ReadModel} (h : Represents db done) (hdone : ∀ op ∈ done, op.Valid)
    (hops : ∀ op ∈ ops, op.Valid) :
    Represents (Library.run PromotionManagement.execute db ops) (done ++ ops) := by
  induction ops generalizing db done with
  | nil =>
    rw [List.append_nil]
    exact h
  | cons op ops ih =>
    rw [List.forall_mem_cons] at hops
    have hstep := h.execute hdone hops.1
    have hvalid : ∀ o ∈ done ++ [op], o.Valid := by
      intro o ho
      rcases List.mem_append.1 ho with ho | ho
      · exact hdone o ho
      · rw [List.mem_singleton.1 ho]
        exact hops.1
    have hrest := ih hstep hvalid hops.2
    rw [List.append_assoc] at hrest
    exact hrest

/-- The store after any run from the empty one represents the run's operations. -/
theorem represents_run (hops : ∀ op ∈ ops, op.Valid) :
    Represents (Library.run execute RedisStore.empty ops) ops := by
  have hempty : Represents RedisStore.empty [] := ⟨.empty, fun id => .empty id⟩
  exact hempty.run (fun op h => absurd h List.not_mem_nil) hops

theorem Represents.ext {db db' : ReadModel} (h : Represents db ops) (h' : Represents db' ops')
    (he : ∀ id, newestOp ops id = newestOp ops' id) : db = db' := by
  apply h.clean.ext h'.clean h.holds
  intro id
  rw [he id]
  exact h'.holds id

theorem fieldsOf_price (entry : ProductEntry) (sourceReadAt : Text) :
    RedisStore.setFields (fun _ => none) (ProductWriteRepository.fieldsOf entry sourceReadAt)
      "effectivePriceCents".toList = some (intText entry.effectivePriceCents) := by
  rw [ProductWriteRepository.fieldsOf]
  cases entry.promotionId <;> cases entry.promotionName <;> cases entry.pricingRulesVersion <;> rfl

/-- A product is listed: in the set of all products and in the one of its category only, scored
with the price in its hash. -/
structure Listed (db : ReadModel) (entry : ProductEntry) (price : Text) (score : Int) : Prop where
  hash : db.hget (productKey entry.id) "effectivePriceCents".toList = some price
  parsed : number? price = some score
  all : db.zset allProducts (Nat.toDigits 10 entry.id) = some score
  category : ∀ c, db.zset (categoryKey c) (Nat.toDigits 10 entry.id) =
    if c = entry.category then some score else none

/-- A product is listed nowhere, and has no hash. -/
structure Unlisted (db : ReadModel) (id : Nat) : Prop where
  entry : db.hash (productKey id) = fun _ => none
  all : db.zset allProducts (Nat.toDigits 10 id) = none
  category : ∀ c, db.zset (categoryKey c) (Nat.toDigits 10 id) = none

theorem Holds.listed {db : ReadModel} {entry : ProductEntry}
    (h : Holds db entry.id (some (.write entry sourceReadAt))) :
    ∃ score, Listed db entry (intText entry.effectivePriceCents) score := by
  obtain ⟨score, hs⟩ := number?_intText entry.effectivePriceCents
  refine ⟨score, ?_, hs, h.all.trans hs, ?_⟩
  · rw [RedisStore.hget, h.entry]
    exact fieldsOf_price entry _
  · intro c
    rw [h.category c]
    simp only [Option.bind_some, ReadModelOp.category, ReadModelOp.score, hs, eq_comm]

theorem Holds.unlisted {db : ReadModel} {id : Nat}
    (h : Holds db id (some (.remove id sourceReadAt))) : Unlisted db id := by
  refine ⟨h.entry, h.all, fun c => (h.category c).trans ?_⟩
  simp only [Option.bind_some, ReadModelOp.score, ite_self]

/-- A sequence of scripts leaves the store that the first newest operation of each product leaves
by itself. The order and the repetition of operations with distinct tokens do not matter, a product
that was written last is listed once, and one that was removed last is listed nowhere. -/
theorem last_read_wins (ops : List ReadModelOp) (hops : ∀ op ∈ ops, op.Valid) :
    Library.run execute RedisStore.empty ops =
        Library.run execute RedisStore.empty
          (winners ReadModelOp.productId ReadModelOp.sourceReadAt ops) ∧
      (∀ ops' : List ReadModelOp, (∀ op, op ∈ ops ↔ op ∈ ops') →
        (∀ a ∈ ops, ∀ b ∈ ops, a.productId = b.productId →
          a.sourceReadAt = b.sourceReadAt → a = b) →
        Library.run execute RedisStore.empty ops' = Library.run execute RedisStore.empty ops) ∧
      (∀ entry sourceReadAt, newestOp ops entry.id = some (.write entry sourceReadAt) →
        ∃ score, Listed (Library.run execute RedisStore.empty ops) entry
          (intText entry.effectivePriceCents) score) ∧
      ∀ id sourceReadAt, newestOp ops id = some (.remove id sourceReadAt) →
        Unlisted (Library.run execute RedisStore.empty ops) id := by
  have hrep := represents_run hops
  have hwinners : ∀ op ∈ winners ReadModelOp.productId ReadModelOp.sourceReadAt ops, op.Valid :=
    fun op h => hops op (newest_mem (mem_winners.1 h)).1
  refine ⟨?_, ?_, ?_, ?_⟩
  · apply hrep.ext (represents_run hwinners)
    intro id
    exact (newest_winners ops id).symm
  · intro ops' hmem hdistinct
    have hops' : ∀ op ∈ ops', op.Valid := fun op h => hops op ((hmem op).2 h)
    apply (represents_run hops').ext hrep
    intro id
    exact (newest_congr hmem hdistinct id).symm
  · intro entry sourceReadAt hn
    have h := hrep.holds entry.id
    rw [hn] at h
    exact h.listed
  · intro id sourceReadAt hn
    have h := hrep.holds id
    rw [hn] at h
    exact h.unlisted

def sampleEntry (id : Nat) (category : Text) (effectivePriceCents : Int) : ProductEntry where
  id := id
  sku := ['S']
  name := ['N']
  category := category
  basePriceCents := 1000
  effectivePriceCents := effectivePriceCents
  stockQuantity := 1
  promotionId := none
  promotionName := none
  pricingRulesVersion := none

/-- Product 1 comes back into a category with a colon after it moved and was removed, and the
writes arrive in another order; product 2 is gone. -/
def sampleOps : List ReadModelOp :=
  [.write (sampleEntry 1 ['a', ':', 'b'] 900) 40, .remove 1 30, .remove 2 20,
    .write (sampleEntry 1 ['c'] 800) 20, .write (sampleEntry 2 ['c'] 700) 10]

theorem sampleOps_valid : ∀ op ∈ sampleOps, op.Valid := by
  simp [sampleOps, ReadModelOp.Valid, sampleEntry]

theorem last_read_wins_sampleOps :
    Library.run execute RedisStore.empty sampleOps.reverse =
        Library.run execute RedisStore.empty sampleOps ∧
      (∃ score, Listed (Library.run execute RedisStore.empty sampleOps)
        (sampleEntry 1 ['a', ':', 'b'] 900) (intText 900) score) ∧
      Unlisted (Library.run execute RedisStore.empty sampleOps) 2 := by
  obtain ⟨_, horder, hlive, hgone⟩ := last_read_wins sampleOps sampleOps_valid
  refine ⟨horder _ (fun op => List.mem_reverse.symm) (by decide), ?_, ?_⟩
  · exact hlive (sampleEntry 1 ['a', ':', 'b'] 900) 40 (by decide)
  · exact hgone 2 20 (by decide)

end PromotionManagement
