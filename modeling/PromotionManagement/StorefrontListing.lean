import PromotionManagement.LastReadWins
import PromotionManagement.StorefrontQueries

namespace PromotionManagement
open Library ProductReadRepository
set_option autoImplicit true

/-- The entry that an operation leaves of its product. -/
def entryOf : Option ReadModelOp → Option ProductEntry
  | some (.write entry _) => some entry
  | _ => none

theorem entryOf_eq_some : entryOf o = some entry ↔ ∃ t, o = some (.write entry t) := by
  constructor
  · intro h
    match o, h with
    | some (.write _ t), h =>
      cases h
      exact ⟨t, rfl⟩
  · rintro ⟨t, rfl⟩
    rfl

/-- The entry of a product after some scripts. -/
def shown (ops : List ReadModelOp) (id : Nat) : Option ProductEntry := entryOf (newestOp ops id)

theorem shown_eq_some :
    shown ops id' = some entry ↔ ∃ t, newestOp ops id' = some (.write entry t) :=
  entryOf_eq_some

theorem shown_id (h : shown ops id' = some entry) : entry.id = id' := by
  obtain ⟨t, ht⟩ := shown_eq_some.1 h
  exact (newest_mem ht).2

/-- A listing of everything, or of one category. -/
def ProductEntry.listedIn (category : Option Text) (entry : ProductEntry) : Bool :=
  match category with
  | none => true
  | some c => entry.category = c

/-- The place of an entry in a listing: by price, and then by the text of its id. -/
def ProductEntry.rank (entry : ProductEntry) : Int ×ₗ Text :=
  toLex (entry.effectivePriceCents, Nat.toDigits 10 entry.id)

/-- What a shopper should see of a category, cheapest first. -/
def shelf (ops : List ReadModelOp) (category : Option Text) : List ProductEntry :=
  (((ops.map ReadModelOp.productId).dedup.filterMap (shown ops)).filter
    (ProductEntry.listedIn category)).mergeSort fun a b => a.rank ≤ b.rank

theorem mem_shelf : entry ∈ shelf ops category ↔
    shown ops entry.id = some entry ∧ entry.listedIn category := by
  rw [shelf, List.mem_mergeSort, List.mem_filter, List.mem_filterMap]
  refine and_congr_left fun _ => ⟨?_, ?_⟩
  · rintro ⟨id, _, h⟩
    rw [shown_id h]
    exact h
  · intro h
    refine ⟨entry.id, ?_, h⟩
    obtain ⟨t, ht⟩ := shown_eq_some.1 h
    obtain ⟨hop, hid⟩ := newest_mem ht
    rw [List.mem_dedup]
    exact hid ▸ List.mem_map_of_mem hop

theorem rank_injective (h : shown ops a.id = some a) (h' : shown ops b.id = some b)
    (hrank : a.rank = b.rank) : a = b := by
  have hid := toDigits_injective (Prod.mk.inj (toLex.injective hrank)).2
  rw [← hid, h] at h'
  exact Option.some.inj h'

theorem nodup_shown (ops : List ReadModelOp) :
    ((ops.map ReadModelOp.productId).dedup.filterMap (shown ops)).Nodup := by
  apply List.Nodup.filterMap _ (List.nodup_dedup _)
  intro i j entry hi hj
  rw [← shown_id hi, ← shown_id hj]

theorem pairwise_shelf (ops : List ReadModelOp) (category : Option Text) :
    (shelf ops category).Pairwise fun a b => a.rank < b.rank := by
  have hmem (a : ProductEntry) (ha : a ∈ shelf ops category) : shown ops a.id = some a :=
    (mem_shelf.1 ha).1
  apply pairwise_mergeSort_lt ((nodup_shown ops).filter _)
  intro a ha b hb hrank
  exact rank_injective (hmem a (List.mem_mergeSort.2 ha)) (hmem b (List.mem_mergeSort.2 hb)) hrank

namespace Represents

/-- Only a product that a script was for is a member of an index. -/
theorem newest_of_zset {db : ReadModel} (h : Represents db ops)
    (hz : (db.zset key (Nat.toDigits 10 id')).isSome) : ∃ op, newestOp ops id' = some op := by
  cases hn : newestOp ops id' with
  | some op => exact ⟨op, rfl⟩
  | none =>
    have hholds := h.holds id'
    rw [hn] at hholds
    by_cases ha : key = allProducts
    · rw [ha, hholds.all] at hz
      cases hz
    · by_cases hc : ∃ c, key = categoryKey c
      · obtain ⟨c, rfl⟩ := hc
        rw [hholds.category c] at hz
        cases hz
      · rw [h.clean.zset key ha fun c he => hc ⟨c, he⟩] at hz
        cases hz

theorem exists_id_of_zset {db : ReadModel} (h : Represents db ops)
    (hz : (db.zset key m).isSome) : ∃ id, m = Nat.toDigits 10 id := by
  by_contra hm
  rw [h.clean.member key m fun id he => hm ⟨id, he⟩] at hz
  cases hz

/-- The members that the scripts have named. -/
def members (ops : List ReadModelOp) : List Text := ops.map fun op => Nat.toDigits 10 op.productId

theorem mem_members {db : ReadModel} (h : Represents db ops) (key m : Text)
    (hz : (db.zset key m).isSome) : m ∈ members ops := by
  obtain ⟨id, rfl⟩ := h.exists_id_of_zset hz
  obtain ⟨op, hop⟩ := h.newest_of_zset hz
  obtain ⟨hmem, rfl⟩ := newest_mem hop
  exact List.mem_map_of_mem hmem

/-- The fields that a script can have set: one of the tokens, and those of an entry. -/
def fieldsSet : ReadModelOp → List Text
  | .write entry t =>
    Nat.toDigits 10 entry.id ::
      RedisSnapshot.fieldNames (ProductWriteRepository.fieldsOf entry (Nat.toDigits 10 t))
  | .remove id _ => [Nat.toDigits 10 id]

theorem mem_fields {db : ReadModel} (h : Represents db ops) (key f : Text)
    (hf : (db.hash key f).isSome) : f ∈ ops.flatMap fieldsSet := by
  rw [List.mem_flatMap]
  by_cases ht : key = ProductWriteRepository.tokens
  · subst ht
    by_cases hd : ∃ id, f = Nat.toDigits 10 id
    · obtain ⟨id, rfl⟩ := hd
      rw [(h.holds id).token] at hf
      obtain ⟨token, htoken⟩ := Option.isSome_iff_exists.1 hf
      obtain ⟨op, hop, _⟩ := Option.map_eq_some_iff.1 htoken
      obtain ⟨hmem, rfl⟩ := newest_mem hop
      refine ⟨op, hmem, ?_⟩
      cases op with
      | write entry t => exact List.mem_cons_self
      | remove id t => exact List.mem_singleton_self _
    · rw [h.clean.token f fun id he => hd ⟨id, he⟩] at hf
      cases hf
  · by_cases hp : ∃ id, key = productKey id
    · obtain ⟨id, rfl⟩ := hp
      rw [(h.holds id).entry] at hf
      match hn : newestOp ops id, hf with
      | some (.write entry t), hf =>
        have hnames := RedisSnapshot.setFields_isSome hf
        rw [Option.isSome_none] at hnames
        refine ⟨.write entry t, (newest_mem hn).1, List.mem_cons_of_mem _ ?_⟩
        exact hnames.resolve_left Bool.false_ne_true
    · rw [h.clean.hash key ht fun id he => hp ⟨id, he⟩] at hf
      cases hf

/-- Redis as a reader finds it after some scripts. -/
def snapshot {db : ReadModel} (h : Represents db ops) : RedisReads where
  store := db
  members := members ops
  fields := ops.flatMap fieldsSet
  mem_members := h.mem_members
  mem_fields := h.mem_fields

end Represents

theorem number?_intText_of_safe {z : Int} (h : 0 ≤ z) (hz : z ≤ maxSafeInteger) :
    number? (intText z) = some z := by
  obtain ⟨n, rfl⟩ := Int.eq_ofNat_of_zero_le h
  have hn : n < 2 ^ 53 := by
    have := Int.ofNat_le.1 hz
    rw [maxSafeInteger] at this
    omega
  exact (number?_toDigits n).trans (congrArg (fun k : Nat => some (k : Int)) (toDouble_of_lt hn))

/-- Redis at an instant, with what its scripts have left. -/
structure Serves (snap : RedisReads) (ops : List ReadModelOp) : Prop where
  represents : Represents snap.store ops
  servable : ∀ entry t, .write entry t ∈ ops → entry.Servable

namespace Serves

variable {snap : RedisReads} {ops : List ReadModelOp}

theorem servable_shown (h : Serves snap ops) (hs : shown ops id' = some entry) :
    entry.Servable := by
  obtain ⟨t, ht⟩ := shown_eq_some.1 hs
  exact h.servable entry t (newest_mem ht).1

theorem score_eq (h : Serves snap ops) (hs : shown ops id' = some entry) :
    number? (intText entry.effectivePriceCents) = some entry.effectivePriceCents := by
  have hp := (h.servable_shown hs).effectivePriceCents
  exact number?_intText_of_safe hp.1 (hp.2.trans (h.servable_shown hs).basePriceCents)

/-- An index holds the products of its listing, at the prices they are shown with. -/
theorem zset (h : Serves snap ops) (category : Option Text) (id : Nat) :
    snap.store.zset (listKey category) (Nat.toDigits 10 id) =
      (shown ops id).bind fun entry =>
        if entry.listedIn category then some entry.effectivePriceCents else none := by
  have hholds := h.represents.holds id
  rw [shown]
  cases hn : newestOp ops id with
  | none =>
    rw [hn] at hholds
    cases category with
    | none => exact hholds.all
    | some c => exact hholds.category c
  | some op =>
    rw [hn] at hholds
    cases op with
    | remove id t =>
      cases category with
      | none => exact hholds.all
      | some c =>
        refine (hholds.category c).trans ?_
        rw [Option.bind_some]
        exact ite_self none
    | write entry t =>
      have hs : shown ops id = some entry := shown_eq_some.2 ⟨t, hn⟩
      cases category with
      | none => exact hholds.all.trans (h.score_eq hs)
      | some c =>
        refine (hholds.category c).trans ?_
        simp only [Option.bind_some, ReadModelOp.category, ReadModelOp.score, h.score_eq hs,
          entryOf, ProductEntry.listedIn, decide_eq_true_eq]

/-- What an index ranks is the shelf. -/
theorem ranked (h : Serves snap ops) (category : Option Text) :
    snap.ranked (listKey category) = (shelf ops category).map ProductEntry.rank := by
  refine (snap.ranked_spec (listKey category)).map_eq ?_ (pairwise_shelf ops category)
  intro r m
  constructor
  · intro hz
    have hsome : (snap.store.zset (listKey category) m).isSome := by
      rw [hz, Option.isSome_some]
    obtain ⟨id, rfl⟩ := h.represents.exists_id_of_zset hsome
    rw [h.zset, Option.bind_eq_some_iff] at hz
    obtain ⟨entry, hs, hr⟩ := hz
    rw [Option.ite_none_right_eq_some, Option.some.injEq] at hr
    have hid := shown_id hs
    subst hid
    exact ⟨entry, mem_shelf.2 ⟨hs, hr.1⟩, congrArg (fun r => toLex (r, _)) hr.2⟩
  · rintro ⟨entry, hentry, hrank⟩
    obtain ⟨hs, hlisted⟩ := mem_shelf.1 hentry
    obtain ⟨rfl, rfl⟩ := Prod.mk.inj (toLex.injective hrank)
    rw [h.zset, hs, Option.bind_some, if_pos hlisted]

theorem holdsHash (h : Serves snap ops) (category : Option Text) :
    snap.holdsHash (listKey category) = false := by
  apply RedisSnapshot.holdsHash_eq_false
  intro f
  have ht : listKey category ≠ ProductWriteRepository.tokens := by
    obtain ⟨rest, hrest⟩ := tokens_cons
    rw [hrest]
    cases category with
    | none =>
      rw [listKey, allProducts_cons]
      exact fun he => absurd (List.cons.inj he).1 (by decide)
    | some c =>
      rw [listKey, categoryKey_cons]
      exact fun he => absurd (List.cons.inj he).1 (by decide)
  have hp (id : Nat) : listKey category ≠ productKey id := by
    cases category with
    | none => exact (productKey_ne_allProducts id).symm
    | some c => exact (productKey_ne_categoryKey id c).symm
  rw [h.represents.clean.hash _ ht hp]

theorem zset_productKey (h : Serves snap ops) (id : Nat) (m : Text) :
    snap.store.zset (productKey id) m = none := by
  rw [h.represents.clean.zset _ (productKey_ne_allProducts id) (productKey_ne_categoryKey id)]

/-- What a hash read gives of a product, and what is made of it. -/
theorem hash_eq (h : Serves snap ops) (id : Nat) :
    ∃ hash, reached (productKey id) (some (snap.hgetall (productKey id))) = .ok hash ∧
      (present hash).map parseView = (shown ops id).map fun entry => .ok entry.view := by
  obtain ⟨hash, hreply, hlookup, hnil⟩ := RedisSnapshot.hgetall_spec (h.zset_productKey id)
  refine ⟨hash, by rw [hreply, reached], ?_⟩
  have hentry := (h.represents.holds id).entry
  have habsent (hnone : snap.store.hash (productKey id) = fun _ => none) : present hash = none :=
    if_pos (hnil.2 hnone)
  rw [shown]
  cases hn : newestOp ops id with
  | none =>
    rw [hn] at hentry
    rw [habsent hentry]
    rfl
  | some op =>
    rw [hn] at hentry
    cases op with
    | remove id' t =>
      rw [habsent hentry]
      rfl
    | write entry t =>
      have hstored : snap.store.hash (productKey id) =
          StoredProduct.stored entry (Nat.toDigits 10 t) := hentry
      have hne : hash ≠ [] := by
        intro he
        have hid := (StoredProduct.stored_fields entry (Nat.toDigits 10 t)).1
        rw [← hstored, hnil.1 he] at hid
        cases hid
      have hview := StoredProduct.productView_stored
        (h.servable entry t (newest_mem hn).1) (Nat.toDigits 10 t)
      rw [← hstored, ← hlookup] at hview
      rw [present, if_neg hne, Option.map_some, parseView, hview]
      rfl

end Serves

/-- A part of a listing, from the end that the order names. -/
def ListProductsInput.pageOf (input : ListProductsInput) (entries : List α) : List α :=
  ((if input.order = .desc then entries.reverse else entries).drop input.offset).take
    input.pageSize

namespace ListProductsInput

theorem pageOf_map (input : ListProductsInput) (f : α → β) (entries : List α) :
    input.pageOf (entries.map f) = (input.pageOf entries).map f := by
  rw [pageOf, pageOf, List.map_take, List.map_drop]
  split
  · rw [List.map_reverse]
  · rfl

end ListProductsInput

theorem Serves.page_eq {snap : RedisReads} (h : Serves snap ops) (input : ListProductsInput) :
    page (some snap) input.category input.order input.offset input.pageSize =
      .ok ((input.pageOf (shelf ops input.category)).map fun entry =>
        Nat.toDigits 10 entry.id) := by
  simp only [page, RedisSnapshot.zrange, Option.map_some, h.holdsHash, Bool.false_eq_true,
    if_false, h.ranked, reached, decide_eq_true_eq]
  have hmembers : ((shelf ops input.category).map ProductEntry.rank).map (fun e => (ofLex e).2) =
      (shelf ops input.category).map fun entry => Nat.toDigits 10 entry.id := by
    rw [List.map_map]
    rfl
  rw [← ListProductsInput.pageOf_map, ListProductsInput.pageOf, ← hmembers]
  split
  · rw [List.map_reverse]
  · rfl

theorem Serves.count_eq {snap : RedisReads} (h : Serves snap ops) (category : Option Text) :
    count (some snap) category = .ok (shelf ops category).length := by
  simp only [count, RedisSnapshot.zcard, Option.map_some, h.holdsHash, Bool.false_eq_true,
    if_false, h.ranked, reached, List.length_map]

/-- The entries that the reads of a pipeline find, each in what Redis then holds. -/
def shownAt (ops : Nat → List ReadModelOp) : List Nat → List (Option ProductEntry)
  | [] => []
  | id :: ids => shown (ops 0) id :: shownAt (fun n => ops (n + 1)) ids

theorem findAll_eq {redis : Nat → RedisReads} {ops : Nat → List ReadModelOp}
    (h : ∀ n, Serves (redis n) (ops n)) (ids : List Nat) :
    ∃ hashes, findAll (fun n => some (redis n)) (ids.map (Nat.toDigits 10)) = .ok hashes ∧
      hashes.map (fun hash => hash.map parseView) =
        (shownAt ops ids).map fun o => o.map fun entry => .ok entry.view := by
  induction ids generalizing redis ops with
  | nil => exact ⟨[], rfl, rfl⟩
  | cons id ids ih =>
    obtain ⟨hash, hhash, hview⟩ := (h 0).hash_eq id
    obtain ⟨hashes, hrest, hviews⟩ := ih fun n => h (n + 1)
    refine ⟨present hash :: hashes, ?_, ?_⟩
    · change (reached (productKey id) (some ((redis 0).hgetall (productKey id))) >>= fun hash =>
        findAll (fun n => some (redis (n + 1))) (ids.map (Nat.toDigits 10)) >>= fun hashes =>
          pure (present hash :: hashes)) = _
      rw [hhash, hrest]
      rfl
    · rw [List.map_cons, hview, hviews]
      rfl

/-- What is found is parsed, and what is not found is dropped. -/
theorem parse_found {f : α → Except ReadFailure γ} {g : β → γ} {found : List (Option α)}
    {shown : List (Option β)}
    (h : found.map (fun a => a.map f) = shown.map fun b => b.map fun b => .ok (g b)) :
    (found.filterMap fun a => a).mapM f = .ok ((shown.filterMap fun b => b).map g) ∧
      found.map Option.isNone = shown.map Option.isNone := by
  induction found generalizing shown with
  | nil =>
    rw [List.map_nil, eq_comm, List.map_eq_nil_iff] at h
    subst h
    exact ⟨rfl, rfl⟩
  | cons a found ih =>
    cases shown with
    | nil => cases h
    | cons b shown =>
      obtain ⟨hhead, htail⟩ := List.cons.inj h
      obtain ⟨hparse, hnone⟩ := ih htail
      cases a with
      | none =>
        cases b with
        | none => exact ⟨hparse, congrArg (true :: ·) hnone⟩
        | some b => cases hhead
      | some a =>
        cases b with
        | none => cases hhead
        | some b =>
          refine ⟨?_, congrArg (false :: ·) hnone⟩
          have hparsed : f a = .ok (g b) := Option.some.inj hhead
          change (a :: found.filterMap fun a => a).mapM f = _
          rw [List.mapM_cons, hparsed, hparse]
          rfl

theorem filter_zip_isNone {ids : List ι} {found : List (Option α)} {shown : List (Option β)}
    (h : found.map Option.isNone = shown.map Option.isNone) :
    ((ids.zip found).filter fun pair => pair.2.isNone).map Prod.fst =
      ((ids.zip shown).filter fun pair => pair.2.isNone).map Prod.fst := by
  induction ids generalizing found shown with
  | nil => rfl
  | cons id ids ih =>
    cases found with
    | nil =>
      rw [List.map_nil, eq_comm, List.map_eq_nil_iff] at h
      rw [h]
      rfl
    | cons a found =>
      cases shown with
      | nil => cases h
      | cons b shown =>
        obtain ⟨hhead, htail⟩ := List.cons.inj h
        rw [List.zip_cons_cons, List.zip_cons_cons, List.filter_cons, List.filter_cons, hhead]
        split
        · rw [List.map_cons, List.map_cons, ih htail]
        · exact ih htail

/-- What a listing answers when each of its commands finds Redis as some scripts have left it. -/
theorem ListProductsQuery.execute_eq {redis : Nat → RedisReads} {ops : Nat → List ReadModelOp}
    (h : ∀ n, Serves (redis n) (ops n)) (input : ListProductsInput) :
    let ids := (input.pageOf (shelf (ops 0) input.category)).map ProductEntry.id
    let shown := shownAt (fun n => ops (n + 2)) ids
    execute (fun n => some (redis n)) input = .ok
      { items := (shown.filterMap fun o => o).map ProductEntry.view
        page := input.page
        pageSize := input.pageSize
        total := (shelf (ops 1) input.category).length
        dropped := (((ids.map (Nat.toDigits 10)).zip shown).filter fun pair =>
          pair.2.isNone).map Prod.fst } := by
  intro ids shown
  obtain ⟨hashes, hfind, hviews⟩ := findAll_eq (fun n => h (n + 2)) ids
  obtain ⟨hparse, hnone⟩ := parse_found hviews
  have hids : ids.map (Nat.toDigits 10) =
      (input.pageOf (shelf (ops 0) input.category)).map fun entry => Nat.toDigits 10 entry.id :=
    List.map_map
  simp only [execute, (h 0).page_eq, (h 1).count_eq, ← hids, bind, Except.bind]
  rw [hfind]
  simp only [hparse, filter_zip_isNone hnone]
  rfl

theorem FindProductQuery.execute_eq {snap : RedisReads} (h : Serves snap ops) (id : Nat) :
    execute (some snap) id =
      match shown ops id with
      | some entry => .ok entry.view
      | none => .error .notFound := by
  obtain ⟨hash, hreply, hview⟩ := h.hash_eq id
  simp only [execute, find, Option.map_some, hreply, bind, Except.bind, pure, Except.pure]
  cases hp : present hash with
  | none =>
    rw [hp, Option.map_none, eq_comm, Option.map_eq_none_iff] at hview
    rw [hview]
  | some hash =>
    rw [hp, Option.map_some, eq_comm, Option.map_eq_some_iff] at hview
    obtain ⟨entry, hs, he⟩ := hview
    rw [hs]
    exact he.symm

end PromotionManagement
