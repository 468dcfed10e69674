import PromotionManagement.ProductWriteRepository

namespace PromotionManagement
open Library
set_option autoImplicit true

namespace ProductReadRepository

theorem productKey_injective (h : productKey i = productKey j) : i = j :=
  toDigits_injective (List.append_cancel_left h)

theorem categoryKey_injective (h : categoryKey c = categoryKey d) : c = d :=
  List.append_cancel_left h

theorem productKey_cons (id : Nat) : productKey id =
    ['p', 'r', 'o', 'd', 'u', 'c', 't', ':'] ++ Nat.toDigits 10 id := by
  have h : "product:".toList = ['p', 'r', 'o', 'd', 'u', 'c', 't', ':'] := by decide +kernel
  exact congrArg (· ++ Nat.toDigits 10 id) h

theorem categoryKey_cons (c : Text) : categoryKey c =
    ['c', 'a', 't', 'e', 'g', 'o', 'r', 'y', ':'] ++ c := by
  have h : "category:".toList = ['c', 'a', 't', 'e', 'g', 'o', 'r', 'y', ':'] := by decide +kernel
  exact congrArg (· ++ c) h

theorem allProducts_cons :
    allProducts = ['p', 'r', 'o', 'd', 'u', 'c', 't', 's', ':', 'a', 'l', 'l'] := by
  decide +kernel

theorem tokens_cons : ∃ rest, ProductWriteRepository.tokens = 'r' :: rest :=
  ⟨"eadmodel:source-read-at".toList, by decide +kernel⟩

theorem productKey_ne_tokens (id : Nat) : productKey id ≠ ProductWriteRepository.tokens := by
  obtain ⟨rest, hr⟩ := tokens_cons
  rw [productKey_cons, hr]
  intro h
  exact absurd (List.cons.inj h).1 (by decide)

theorem productKey_ne_allProducts (id : Nat) : productKey id ≠ allProducts := by
  rw [productKey_cons, allProducts_cons]
  simp only [List.cons_append, List.nil_append, ne_eq, List.cons.injEq, true_and, not_and]
  intro h
  exact absurd h (by decide)

theorem productKey_ne_categoryKey (id : Nat) (c : Text) : productKey id ≠ categoryKey c := by
  rw [productKey_cons, categoryKey_cons]
  intro h
  exact absurd (List.cons.inj h).1 (by decide)

theorem categoryKey_ne_allProducts (c : Text) : categoryKey c ≠ allProducts := by
  rw [categoryKey_cons, allProducts_cons]
  intro h
  exact absurd (List.cons.inj h).1 (by decide)

theorem categoryKey_nil_append (c : Text) : categoryKey [] ++ c = categoryKey c :=
  congrArg (· ++ c) (List.append_nil _)

end ProductReadRepository

open ProductReadRepository

namespace ReadModelOp

/-- The category an operation leaves in the token: none for a product that is gone. -/
def category : ReadModelOp → Text
  | .write entry _ => entry.category
  | .remove _ _ => []

def token (op : ReadModelOp) : Text := Nat.toDigits 10 op.sourceReadAt ++ ':' :: op.category

def fields : ReadModelOp → Text → Option Text
  | .write entry sourceReadAt =>
    RedisStore.setFields (fun _ => none)
      (ProductWriteRepository.fieldsOf entry (Nat.toDigits 10 sourceReadAt))
  | .remove _ _ => fun _ => none

def score : ReadModelOp → Option Int
  | .write entry _ => number? (intText entry.effectivePriceCents)
  | .remove _ _ => none

/-- A token that a double holds exactly, and a category that is not empty. -/
def Valid : ReadModelOp → Prop
  | .write entry sourceReadAt =>
    entry.category ≠ [] ∧ 0 < sourceReadAt ∧ sourceReadAt < 2 ^ 53
  | .remove _ sourceReadAt => 0 < sourceReadAt ∧ sourceReadAt < 2 ^ 53

theorem Valid.lt {op : ReadModelOp} (h : op.Valid) : op.sourceReadAt < 2 ^ 53 := by
  cases op with
  | write entry sourceReadAt => exact h.2.2
  | remove id sourceReadAt => exact h.2

end ReadModelOp

/-- The store after a script has replaced what it holds of one product. -/
def replaceProduct (db : ReadModel) (op : ReadModelOp) (wasCategory : Text) : ReadModel where
  hash k f :=
    if k = productKey op.productId then op.fields f
    else if k = ProductWriteRepository.tokens ∧ f = Nat.toDigits 10 op.productId then
      some op.token
    else db.hash k f
  zset k m :=
    if k = productKey op.productId then none
    else if m = Nat.toDigits 10 op.productId ∧
        (k = allProducts ∨ k = categoryKey op.category ∧ op.category ≠ []) then op.score
    else if m = Nat.toDigits 10 op.productId ∧ k = categoryKey wasCategory ∧ wasCategory ≠ [] then
      none
    else db.zset k m

theorem write_newer {db : ReadModel} {entry : ProductEntry} (hc : entry.category ≠ [])
    (h : readToken db ProductWriteRepository.tokens (Nat.toDigits 10 entry.id)
      (Nat.toDigits 10 sourceReadAt) = .newer wasCategory) :
    ReadModelOp.run db (.write entry sourceReadAt) =
      (replaceProduct db (.write entry sourceReadAt) wasCategory, .applied) := by
  obtain ⟨score, hs⟩ := number?_intText entry.effectivePriceCents
  have hpt := productKey_ne_tokens entry.id
  have hpa := productKey_ne_allProducts entry.id
  have hpc := productKey_ne_categoryKey entry.id entry.category
  simp only [ReadModelOp.run, ProductWriteRepository.write, writeProductEntry, h]
  have hwas : (if wasCategory ≠ [] ∧ wasCategory ≠ entry.category then
      db.zrem (categoryKey [] ++ wasCategory) (Nat.toDigits 10 entry.id) else db).hash =
      db.hash := by
    split <;> rfl
  refine Prod.ext (RedisStore.ext ?_ ?_) rfl
  · funext k f
    simp only [RedisStore.zadd_hash]
    by_cases hk : k = productKey entry.id
    · subst hk
      rw [RedisStore.hset_hash_self, RedisStore.del_hash_self]
      exact (if_pos rfl).symm
    · rw [RedisStore.hset_hash_of_ne _ _ hk, RedisStore.del_hash_of_ne _ hk]
      simp only [replaceProduct, ReadModelOp.productId, hk, if_false]
      by_cases ht : k = ProductWriteRepository.tokens
      · subst ht
        rw [RedisStore.hset_hash_self, RedisStore.setFields_pair]
        simp only [true_and, ReadModelOp.token, ReadModelOp.sourceReadAt, ReadModelOp.category]
        rw [hwas]
      · rw [RedisStore.hset_hash_of_ne _ _ ht, hwas]
        simp only [ht, false_and, if_false]
  · funext k m
    rw [RedisStore.zadd_zset _ hs, RedisStore.zadd_zset _ hs, RedisStore.hset_zset]
    by_cases hk : k = productKey entry.id
    · subst hk
      simp only [replaceProduct, ReadModelOp.productId, hpa, hpc, false_and, if_false, if_true]
      rw [RedisStore.del]
      exact congrFun (if_pos rfl) m
    · rw [RedisStore.del_zset_of_ne _ hk, RedisStore.hset_zset]
      simp only [replaceProduct, ReadModelOp.productId, ReadModelOp.category, ReadModelOp.score,
        hk, if_false, hs]
      by_cases hm : m = Nat.toDigits 10 entry.id
      · by_cases ha : k = allProducts
        · simp only [hm, ha, and_self, if_true, true_or]
        · by_cases hcat : k = categoryKey entry.category
          · simp only [hm, hcat, hc, and_self, if_true, true_and, ne_eq, not_false_eq_true,
              or_true, ite_self]
          · simp only [hm, ha, hcat, false_and, if_false, or_self, and_false, true_and]
            by_cases hw : wasCategory ≠ [] ∧ wasCategory ≠ entry.category
            · rw [if_pos hw, categoryKey_nil_append, RedisStore.zrem_zset]
              simp only [hw.1, and_true, ne_eq, not_false_eq_true]
            · rw [if_neg hw, if_neg]
              intro hk'
              apply hw
              refine ⟨hk'.2, fun he => hcat ?_⟩
              rw [hk'.1, he]
      · simp only [hm, and_false, if_false, false_and]
        split
        · rw [RedisStore.zrem_zset]
          exact if_neg fun h => hm h.2
        · rfl

theorem remove_newer {db : ReadModel} {id : Nat}
    (h : readToken db ProductWriteRepository.tokens (Nat.toDigits 10 id)
      (Nat.toDigits 10 sourceReadAt) = .newer wasCategory) :
    ReadModelOp.run db (.remove id sourceReadAt) =
      (replaceProduct db (.remove id sourceReadAt) wasCategory, .applied) := by
  have hpa := productKey_ne_allProducts id
  simp only [ReadModelOp.run, ProductWriteRepository.remove, removeProductEntry, h]
  have hwas : (if wasCategory ≠ [] then
      db.zrem (categoryKey [] ++ wasCategory) (Nat.toDigits 10 id) else db).hash = db.hash := by
    split <;> rfl
  refine Prod.ext (RedisStore.ext ?_ ?_) rfl
  · funext k f
    rw [RedisStore.zrem_hash]
    by_cases hk : k = productKey id
    · subst hk
      rw [RedisStore.del_hash_self]
      exact (if_pos rfl).symm
    · rw [RedisStore.del_hash_of_ne _ hk]
      simp only [replaceProduct, ReadModelOp.productId, hk, if_false]
      by_cases ht : k = ProductWriteRepository.tokens
      · subst ht
        rw [RedisStore.hset_hash_self, RedisStore.setFields_pair, hwas]
        simp only [true_and, ReadModelOp.token, ReadModelOp.sourceReadAt, ReadModelOp.category]
      · rw [RedisStore.hset_hash_of_ne _ _ ht, hwas]
        simp only [ht, false_and, if_false]
  · funext k m
    rw [RedisStore.zrem_zset]
    by_cases hk : k = productKey id
    · subst hk
      simp only [replaceProduct, ReadModelOp.productId, hpa, false_and, if_false, if_true]
      rw [RedisStore.del]
      exact congrFun (if_pos rfl) m
    · rw [RedisStore.del_zset_of_ne _ hk, RedisStore.hset_zset]
      simp only [replaceProduct, ReadModelOp.productId, ReadModelOp.category, ReadModelOp.score,
        hk, if_false, ne_eq, not_true_eq_false, and_false, or_false]
      by_cases hm : m = Nat.toDigits 10 id
      · by_cases ha : k = allProducts
        · simp only [hm, ha, and_self, if_true]
        · simp only [hm, ha, false_and, if_false, and_false, true_and]
          by_cases hw : wasCategory = []
          · simp only [hw, not_true_eq_false, if_false, and_false]
          · simp only [hw, not_false_eq_true, if_true, and_true, categoryKey_nil_append,
              RedisStore.zrem_zset]
      · simp only [hm, and_false, if_false, false_and]
        split
        · rw [RedisStore.zrem_zset]
          exact if_neg fun h => hm h.2
        · rfl

theorem readToken_none {db : ReadModel} {id : Text}
    (h : db.hash ProductWriteRepository.tokens id = none)
    (sourceReadAt : Text) :
    readToken db ProductWriteRepository.tokens id sourceReadAt = .newer [] := by
  rw [readToken, RedisStore.hget, h]

/-- Lua finds the token of an operation and its category on the two sides of the first colon. -/
theorem readToken_some {db : ReadModel} {id : Text} {op : ReadModelOp} (hv : op.Valid)
    (h : db.hash ProductWriteRepository.tokens id = some op.token) (hr : sourceReadAt < 2 ^ 53) :
    readToken db ProductWriteRepository.tokens id (Nat.toDigits 10 sourceReadAt) =
      if op.sourceReadAt < sourceReadAt then .newer op.category
      else .refused (Nat.toDigits 10 op.sourceReadAt) := by
  have hdigits : ∀ c ∈ Nat.toDigits 10 op.sourceReadAt, decide (c ≠ ':') = true := by
    intro c hc
    apply decide_eq_true
    intro he
    rw [he] at hc
    exact not_mem_toDigits (by decide) _ hc
  have hdrop : op.token.dropWhile (fun c => decide (c ≠ ':')) = ':' :: op.category := by
    rw [ReadModelOp.token, List.dropWhile_append_of_pos hdigits]
    rfl
  have htake : op.token.takeWhile (fun c => decide (c ≠ ':')) =
      Nat.toDigits 10 op.sourceReadAt := by
    rw [ReadModelOp.token, List.takeWhile_append_of_pos hdigits]
    exact List.append_nil _
  simp only [readToken, RedisStore.hget, h, hdrop, htake, number?_toDigits,
    toDouble_of_lt hv.lt, toDouble_of_lt hr, ge_iff_le, Nat.cast_le]
  by_cases hlt : op.sourceReadAt < sourceReadAt
  · rw [if_neg (not_le.2 hlt), if_pos hlt]
  · rw [if_pos (not_lt.1 hlt), if_neg hlt]

/-- What one script does to a store that holds `o` of its product. -/
theorem run_eq {db : ReadModel} {op : ReadModelOp} {o : Option ReadModelOp} (hv : op.Valid)
    (ho : ∀ b, o = some b → b.Valid)
    (h : db.hash ProductWriteRepository.tokens (Nat.toDigits 10 op.productId) =
      o.map ReadModelOp.token) :
    op.run db =
      match o with
      | none => (replaceProduct db op [], .applied)
      | some b =>
        if b.sourceReadAt < op.sourceReadAt then (replaceProduct db op b.category, .applied)
        else (db, .refused (Nat.toDigits 10 b.sourceReadAt)) := by
  cases o with
  | none =>
    have hread := readToken_none h (Nat.toDigits 10 op.sourceReadAt)
    cases op with
    | write entry sourceReadAt => exact write_newer hv.1 hread
    | remove id sourceReadAt => exact remove_newer hread
  | some b =>
    have hread := readToken_some (ho b rfl) h hv.lt
    by_cases hlt : b.sourceReadAt < op.sourceReadAt
    · rw [if_pos hlt] at hread
      simp only [hlt, if_true]
      cases op with
      | write entry sourceReadAt => exact write_newer hv.1 hread
      | remove id sourceReadAt => exact remove_newer hread
    · rw [if_neg hlt] at hread
      simp only [hlt, if_false]
      cases op with
      | write entry sourceReadAt =>
        change readToken db _ (Nat.toDigits 10 entry.id) (Nat.toDigits 10 sourceReadAt) = _ at hread
        simp only [ReadModelOp.run, ProductWriteRepository.write, writeProductEntry, hread]
      | remove id sourceReadAt =>
        change readToken db _ (Nat.toDigits 10 id) (Nat.toDigits 10 sourceReadAt) = _ at hread
        simp only [ReadModelOp.run, ProductWriteRepository.remove, removeProductEntry, hread]

/-- What the store holds of one product is what one operation left there, or nothing. -/
structure Holds (db : ReadModel) (id : Nat) (o : Option ReadModelOp) : Prop where
  token : db.hash ProductWriteRepository.tokens (Nat.toDigits 10 id) = o.map ReadModelOp.token
  entry : db.hash (productKey id) = o.elim (fun _ => none) ReadModelOp.fields
  all : db.zset allProducts (Nat.toDigits 10 id) = o.bind ReadModelOp.score
  category : ∀ c, db.zset (categoryKey c) (Nat.toDigits 10 id) =
    o.bind fun op => if op.category = c then op.score else none

/-- Outside of the products the store is empty. -/
structure Clean (db : ReadModel) : Prop where
  token : ∀ f, (∀ id, f ≠ Nat.toDigits 10 id) → db.hash ProductWriteRepository.tokens f = none
  hash : ∀ k, k ≠ ProductWriteRepository.tokens → (∀ id, k ≠ productKey id) →
    db.hash k = fun _ => none
  member : ∀ k m, (∀ id, m ≠ Nat.toDigits 10 id) → db.zset k m = none
  zset : ∀ k, k ≠ allProducts → (∀ c, k ≠ categoryKey c) → db.zset k = fun _ => none

theorem Holds.empty (id : Nat) : Holds RedisStore.empty id none :=
  ⟨rfl, rfl, rfl, fun _ => rfl⟩

theorem Clean.empty : Clean RedisStore.empty :=
  ⟨fun _ _ => rfl, fun _ _ _ => rfl, fun _ _ _ => rfl, fun _ _ _ => rfl⟩

/-- An operation that left no category left no score either. -/
theorem ReadModelOp.score_of_category_nil {op : ReadModelOp} (hv : op.Valid)
    (h : op.category = []) : op.score = none := by
  cases op with
  | write entry sourceReadAt => exact absurd h hv.1
  | remove id sourceReadAt => rfl

/-- The last operation of a product scores it in no category but its own. -/
theorem ReadModelOp.bind_score_eq_none {o : Option ReadModelOp} (ho : ∀ b, o = some b → b.Valid)
    (hc : ∀ b, o = some b → b.category = c → c = []) :
    (o.bind fun op => if op.category = c then op.score else none) = none := by
  cases o with
  | none => rfl
  | some b =>
    rw [Option.bind_some]
    split
    · rename_i hb
      exact b.score_of_category_nil (ho b rfl) (hb.trans (hc b rfl hb))
    · rfl

theorem Holds.replace_of_ne {db : ReadModel} {id : Nat} {op : ReadModelOp} (h : Holds db id o)
    (hne : id ≠ op.productId) (wasCategory : Text) :
    Holds (replaceProduct db op wasCategory) id o := by
  have hd : Nat.toDigits 10 id ≠ Nat.toDigits 10 op.productId :=
    fun he => hne (toDigits_injective he)
  have hk : productKey id ≠ productKey op.productId := fun he => hne (productKey_injective he)
  constructor
  · rw [← h.token]
    simp only [replaceProduct, (productKey_ne_tokens _).symm, hd, and_false, if_false]
  · rw [← h.entry]
    funext f
    simp only [replaceProduct, hk, productKey_ne_tokens, false_and, if_false]
  · rw [← h.all]
    simp only [replaceProduct, (productKey_ne_allProducts _).symm, hd, false_and, if_false]
  · intro c
    rw [← h.category c]
    simp only [replaceProduct, (productKey_ne_categoryKey _ _).symm, hd, false_and, if_false]

theorem Holds.replace_self {db : ReadModel} {op : ReadModelOp} (h : Holds db op.productId o)
    (ho : ∀ b, o = some b → b.Valid) (hv : op.Valid) :
    Holds (replaceProduct db op (o.elim [] ReadModelOp.category)) op.productId (some op) := by
  constructor
  · simp only [replaceProduct, (productKey_ne_tokens _).symm, and_self, if_false, if_true,
      Option.map_some]
  · funext f
    simp only [replaceProduct, if_true, Option.elim_some]
  · simp only [replaceProduct, (productKey_ne_allProducts _).symm, true_or, and_self, if_false,
      if_true, Option.bind_some]
  · intro c
    simp only [replaceProduct, (productKey_ne_categoryKey _ _).symm, categoryKey_ne_allProducts,
      if_false, false_or, true_and, Option.bind_some]
    by_cases hc : op.category = c
    · subst hc
      by_cases hn : op.category = []
      · rw [if_neg (fun hk => hk.2 hn), op.score_of_category_nil hv hn, ite_self]
        rw [h.category, hn]
        split
        · rfl
        · exact ReadModelOp.bind_score_eq_none ho fun _ _ _ => rfl
      · rw [if_pos ⟨rfl, hn⟩, if_pos rfl]
    · have hk : ¬ (categoryKey c = categoryKey op.category ∧ op.category ≠ []) :=
        fun hk => hc (categoryKey_injective hk.1).symm
      rw [if_neg hk, if_neg hc, h.category]
      split
      · rfl
      · rename_i hw
        apply ReadModelOp.bind_score_eq_none ho
        rintro b rfl rfl
        by_contra hn
        exact hw ⟨rfl, hn⟩

theorem Clean.replace {db : ReadModel} (h : Clean db) (op : ReadModelOp) (wasCategory : Text) :
    Clean (replaceProduct db op wasCategory) := by
  constructor
  · intro f hf
    simp only [replaceProduct, (productKey_ne_tokens _).symm, hf op.productId, and_false, if_false]
    exact h.token f hf
  · intro k hk hp
    funext f
    simp only [replaceProduct, hk, hp op.productId, false_and, if_false]
    exact congrFun (h.hash k hk hp) f
  · intro k m hm
    simp only [replaceProduct, hm op.productId, false_and, if_false]
    rw [h.member k m hm, ite_self]
  · intro k hk hc
    funext m
    simp only [replaceProduct, hk, hc op.category, hc wasCategory, false_and, or_self, and_false,
      if_false]
    rw [h.zset k hk hc]
    split <;> rfl

/-- A clean store is determined by what it holds of each product. -/
theorem Clean.ext {db db' : ReadModel} {best : Nat → Option ReadModelOp} (h : Clean db)
    (h' : Clean db') (hh : ∀ id, Holds db id (best id)) (hh' : ∀ id, Holds db' id (best id)) :
    db = db' := by
  apply RedisStore.ext
  · funext k
    by_cases ht : k = ProductWriteRepository.tokens
    · subst ht
      funext f
      by_cases hf : ∃ id, f = Nat.toDigits 10 id
      · obtain ⟨id, rfl⟩ := hf
        rw [(hh id).token, (hh' id).token]
      · have hn := fun id he => hf ⟨id, he⟩
        rw [h.token f hn, h'.token f hn]
    · by_cases hk : ∃ id, k = productKey id
      · obtain ⟨id, rfl⟩ := hk
        rw [(hh id).entry, (hh' id).entry]
      · have hn := fun id he => hk ⟨id, he⟩
        rw [h.hash k ht hn, h'.hash k ht hn]
  · funext k m
    by_cases hm : ∃ id, m = Nat.toDigits 10 id
    · obtain ⟨id, rfl⟩ := hm
      by_cases ha : k = allProducts
      · rw [ha, (hh id).all, (hh' id).all]
      · by_cases hk : ∃ c, k = categoryKey c
        · obtain ⟨c, rfl⟩ := hk
          rw [(hh id).category, (hh' id).category]
        · have hn := fun c he => hk ⟨c, he⟩
          rw [h.zset k ha hn, h'.zset k ha hn]
    · have hn := fun id he => hm ⟨id, he⟩
      rw [h.member k m hn, h'.member k m hn]

end PromotionManagement
