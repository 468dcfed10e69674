import PromotionManagement.StorefrontPages

namespace PromotionManagement
open Library ProductSourceRepository StorefrontState
set_option autoImplicit true

/-- Once nothing is pending and no handler works, a product is shown as it is priced now. -/
theorem Converging.shown {s : StorefrontState} (h : Converging engine s) (hpending : s.pending = [])
    (hidle : ∀ i, s.handlers i = .idle) (hrow : row ∈ s.products.rows) :
    ∃ entry, ProductPricer.Prices engine (s.current row) entry ∧
      shown s.executed row.id = some entry := by
  have howed : ¬s.Owed row := by
    rintro (⟨a, ha, _⟩ | ⟨i, hi⟩)
    · rw [hpending] at ha
      exact absurd ha List.not_mem_nil
    · rw [hidle] at hi
      exact hi
  obtain ⟨entry, t, hp, hlive, hnewest⟩ := (h.settled row hrow).resolve_left howed
  have hid : entry.id = row.id := by
    obtain ⟨_, _, rfl⟩ := hp
    rfl
  have hrun : .write entry t ∈ s.executed := by
    refine hlive.resolve_right ?_
    rintro ⟨i, hi⟩
    rw [hidle] at hi
    exact absurd hi List.not_mem_nil
  obtain ⟨op, hn, hle⟩ : ∃ op, newestOp s.executed row.id = some op ∧ t ≤ op.sourceReadAt :=
    le_newest hrun hid
  obtain ⟨hop, hopid⟩ := newest_mem hn
  rcases hnewest op (.inl (.inl hop)) hopid with rfl | hlt
  · exact ⟨entry, hp, shown_eq_some.2 ⟨t, hn⟩⟩
  · exact absurd hle (Nat.not_le.2 hlt)

/-- Once nothing is pending and no handler works, only products are listed, as priced now. -/
theorem Converging.priced_of_mem_shelf {s : StorefrontState} (h : Converging engine s)
    (hissuing : Issuing s) (hpending : s.pending = []) (hidle : ∀ i, s.handlers i = .idle)
    (hentry : entry ∈ shelf s.executed category) :
    ∃ row ∈ s.products.rows, row.id = entry.id ∧
      ProductPricer.Prices engine (s.current row) entry := by
  have hshown := (mem_shelf.1 hentry).1
  obtain ⟨t, ht⟩ := shown_eq_some.1 hshown
  obtain ⟨row, hrow, hid⟩ := hissuing.kept entry t (.inl (.inl (newest_mem ht).1))
  obtain ⟨entry', hp, hs'⟩ := h.shown hpending hidle hrow
  rw [hid, hshown] at hs'
  cases hs'
  exact ⟨row, hrow, hid, hp⟩

theorem category_of_prices {s : StorefrontState} {row : ProductRow}
    (h : ProductPricer.Prices engine (s.current row) entry) :
    entry.category = row.values.category := by
  obtain ⟨_, _, rfl⟩ := h
  rfl

/-- An entry is listed in the category of its product, and among all. -/
theorem listedIn_of_prices {s : StorefrontState} {row : ProductRow}
    (h : ProductPricer.Prices engine (s.current row) entry) (category : Option Text) :
    entry.listedIn category ↔ ∀ c ∈ category, row.values.category = c := by
  rw [← category_of_prices h]
  cases category with
  | none => exact iff_of_true rfl fun c hc => absurd hc.symm (Option.some_ne_none c)
  | some c =>
    simp only [ProductEntry.listedIn, decide_eq_true_eq, Option.mem_def, Option.some.injEq,
      forall_eq']

theorem shownAt_const (ops : List ReadModelOp) (ids : List Nat) :
    shownAt (fun _ => ops) ids = ids.map (shown ops) := by
  induction ids with
  | nil => rfl
  | cons id ids ih => rw [shownAt, ih, List.map_cons]

/-- A listing whose commands all meet one state of Redis shows a page of its shelf, and drops
nothing. -/
theorem Serves.execute {snap : RedisReads} (h : Serves snap ops) (input : ListProductsInput) :
    ListProductsQuery.execute (fun _ => some snap) input = .ok
      ⟨(input.pageOf (shelf ops input.category)).map ProductEntry.view, input.page,
        input.pageSize, (shelf ops input.category).length, []⟩ := by
  have hshown : shownAt (fun _ => ops)
      ((input.pageOf (shelf ops input.category)).map ProductEntry.id) =
        (input.pageOf (shelf ops input.category)).map some := by
    rw [shownAt_const, List.map_map]
    apply List.map_congr_left
    exact fun entry h => (mem_shelf.1 (ListProductsInput.mem_of_mem_pageOf h)).1
  have hexecute := ListProductsQuery.execute_eq (fun _ => h) input
  simp only [hshown, dropped_eq_nil, filterMap_map_some] at hexecute
  exact hexecute

theorem mem_take_drop {l : List α} (hl : l.Nodup) (hi : l[i]? = some a) :
    a ∈ (l.drop o).take n ↔ o ≤ i ∧ i < o + n := by
  rw [List.mem_iff_getElem?]
  constructor
  · rintro ⟨j, hj⟩
    rw [List.getElem?_take] at hj
    split at hj
    · rename_i hjn
      rw [List.getElem?_drop] at hj
      have hlt : i < l.length := (List.getElem?_eq_some_iff.1 hi).1
      have he := (List.getElem?_inj hlt hl).1 (hi.trans hj.symm)
      omega
    · cases hj
  · rintro ⟨ho, hn⟩
    refine ⟨i - o, ?_⟩
    rw [List.getElem?_take, if_pos (by omega), List.getElem?_drop, Nat.add_sub_cancel' ho, hi]

namespace ListProductsInput

/-- The listing from the end that an order names. -/
def ordered (order : SortOrder) (entries : List α) : List α :=
  if order = .desc then entries.reverse else entries

/-- A page as deep as pages go. -/
def deepPage (category : Option Text) (order : SortOrder) (i : Nat)
    (hc : ∀ c ∈ category, 1 ≤ c.length16 ∧ c.length16 ≤ 256) (hi : i < 10100) :
    ListProductsInput where
  category := category
  order := order
  page := i / 100 + 1
  pageSize := 100
  category_length := hc
  page_pos := Nat.succ_pos _
  pageSize_pos := by decide
  pageSize_le := Nat.le_refl _
  offset_le := by omega

/-- Requests reach the first 10 100 places of a listing, and no more. -/
theorem reached_iff {category : Option Text} {order : SortOrder} {entries : List α}
    (hentries : entries.Nodup)
    (hc : ∀ c ∈ category, 1 ≤ Text.length16 c ∧ Text.length16 c ≤ 256)
    (hi : (ordered order entries)[i]? = some entry) :
    (∃ input : ListProductsInput, input.category = category ∧ input.order = order ∧
      entry ∈ input.pageOf entries) ↔ i < 10100 := by
  have hordered : (ordered order entries).Nodup := by
    rw [ordered]
    split
    · exact List.nodup_reverse.2 hentries
    · exact hentries
  constructor
  · rintro ⟨input, _, rfl, hmem⟩
    have hin := ((mem_take_drop hordered hi).1 hmem).2
    have hoffset := input.offset_le
    have hsize := input.pageSize_le
    rw [offset] at hin
    omega
  · intro hlt
    refine ⟨deepPage category order i hc hlt, rfl, rfl, ?_⟩
    apply (mem_take_drop hordered hi).2
    simp only [offset, deepPage]
    omega

/-- A query string that asks for what the schema made of it. -/
def query (input : ListProductsInput) : Query :=
  (input.category.map fun c => ("category".toList, c)).toList ++
    [("order".toList, if input.order = .asc then "asc".toList else "desc".toList),
      ("page".toList, Nat.toDigits 10 input.page),
      ("pageSize".toList, Nat.toDigits 10 input.pageSize)]

theorem digits_toDigits {n max : Nat} (hpos : 1 ≤ n) (hmax : n ≤ max) (hsafe : n ≤ maxSafeInteger) :
    digits max (Nat.toDigits 10 n) = some n := by
  have hs : isSafeInteger n = true := decide_eq_true hsafe
  rw [digits, toNumber_toDigits_of_safe hsafe, if_pos ⟨isDigits_toDigits n, hs, hpos, hmax⟩]

theorem page_le (input : ListProductsInput) : input.page ≤ 10001 := by
  have h := input.offset_le
  have hmul := Nat.le_mul_of_pos_right (input.page - 1) input.pageSize_pos
  omega

theorem listProductsInput_query (input : ListProductsInput) :
    listProductsInput input.query = some input := by
  have hpage : digits maxSafeInteger (Nat.toDigits 10 input.page) = some input.page := by
    have h : input.page ≤ maxSafeInteger := input.page_le.trans (by decide)
    exact digits_toDigits input.page_pos h h
  have hpageSize : digits 100 (Nat.toDigits 10 input.pageSize) = some input.pageSize :=
    digits_toDigits input.pageSize_pos input.pageSize_le (input.pageSize_le.trans (by decide))
  obtain ⟨category, order, page, pageSize, hc, hpos, hsize, hle, hoffset⟩ := input
  cases category with
  | none =>
    cases order <;>
      simp [listProductsInput, query, field, order?, fields, hpage, hpageSize, hpos, hsize, hle,
        hoffset]
  | some c =>
    obtain ⟨hmin, hmax⟩ := hc c rfl
    cases order <;>
      simp [listProductsInput, query, field, order?, fields, hpage, hpageSize, hmin, hmax, hpos,
        hsize, hle, hoffset]

end ListProductsInput

theorem eq_of_view {entries : List ProductEntry} (h : (entries.map ProductEntry.id).Nodup)
    (ha : a ∈ entries) (hb : b ∈ entries) (hview : a.view = b.view) : a = b :=
  List.inj_on_of_nodup_map h ha hb (congrArg ProductView.id hview)

/-- In a state where nothing is pending and no handler works, the listings are the catalogue: those
of a category hold its products and no others, each once, at the price it has now, cheapest first;
the pages of either order are parts of that one list, with its length for a total; the detail of a
product, which its id asks for, is the same view; and requests reach the first 10 100 places from
either end, no more. The writes of products and promotions and the boundaries that pass are
announced as they commit, and pend until they are taken. -/
theorem settled_listing (engine : PromotionEngine) (now : Int) (events : List StorefrontEvent)
    (hadmitted : Along (step engine) (fun s _ => s.Admitted) (.initial now) events)
    (s : StorefrontState) (hs : s = storefrontAfter engine now events) (hpending : s.pending = [])
    (hidle : ∀ i, s.handlers i = .idle) (category : Option Text) :
    ∃ entries : List ProductEntry,
      (entries.Pairwise fun a b => a.rank < b.rank) ∧
      (∀ row ∈ s.products.rows,
        (∃ entry ∈ entries, entry.id = row.id) ↔ ∀ c ∈ category, row.values.category = c) ∧
      (∀ entry ∈ entries, ∃ row ∈ s.products.rows, row.id = entry.id ∧
        ProductPricer.Prices engine (s.current row) entry) ∧
      (∀ input : ListProductsInput, input.category = category →
        ListProductsQuery.execute (fun _ => some (redisAfter engine now events)) input = .ok
          ⟨(input.pageOf entries).map ProductEntry.view, input.page, input.pageSize,
            entries.length, []⟩) ∧
      (∀ entry ∈ entries,
        (1 ≤ entry.id → findProductInput (Nat.toDigits 10 entry.id) = some entry.id) ∧
        FindProductQuery.execute (some (redisAfter engine now events)) entry.id =
          .ok entry.view) ∧
      ((∀ c ∈ category, 1 ≤ Text.length16 c ∧ Text.length16 c ≤ 256) →
        ∀ order i entry, (ListProductsInput.ordered order entries)[i]? = some entry →
          ((∃ query input page, listProductsInput query = some input ∧ input.category = category ∧
              input.order = order ∧ ListProductsQuery.execute
                (fun _ => some (redisAfter engine now events)) input = .ok page ∧
              entry.view ∈ page.items) ↔ i < 10100)) := by
  have hserves := serves_after hadmitted
  have hc : Converging engine s := hs ▸ Converging.run engine now events
  have hissuing : Issuing s := hs ▸ issuing_after engine now events
  rw [← hs] at hserves
  let entries := shelf s.executed category
  have hids : (entries.map ProductEntry.id).Nodup := nodup_shelf_ids s.executed category
  have hexecute (input : ListProductsInput) (hcat : input.category = category) :
      ListProductsQuery.execute (fun _ => some (redisAfter engine now events)) input = .ok
        ⟨(input.pageOf entries).map ProductEntry.view, input.page, input.pageSize,
          entries.length, []⟩ := by
    subst hcat
    exact hserves.execute input
  refine ⟨entries, pairwise_shelf _ _, ?_,
    fun entry => hc.priced_of_mem_shelf hissuing hpending hidle, hexecute, ?_, ?_⟩
  · intro row hrow
    obtain ⟨entry, hp, hshown⟩ := hc.shown hpending hidle hrow
    have hid := shown_id hshown
    rw [← listedIn_of_prices hp]
    constructor
    · rintro ⟨other, hother, hotherId⟩
      obtain ⟨hother, hin⟩ := mem_shelf.1 hother
      rw [hotherId, hshown] at hother
      rw [Option.some.inj hother]
      exact hin
    · intro hin
      exact ⟨entry, mem_shelf.2 ⟨hid ▸ hshown, hin⟩, hid⟩
  · intro entry hentry
    have hshown := (mem_shelf.1 hentry).1
    rw [FindProductQuery.execute_eq hserves, hshown]
    exact ⟨fun hpos => findProductInput_toDigits hpos (hserves.servable_shown hshown).id, rfl⟩
  · intro hcategory order i entry hi
    rw [← ListProductsInput.reached_iff (List.Nodup.of_map _ hids) hcategory hi]
    have hmem : entry ∈ entries := by
      have h := List.mem_of_getElem? hi
      rw [ListProductsInput.ordered] at h
      split at h
      · exact List.mem_reverse.1 h
      · exact h
    constructor
    · rintro ⟨query, input, page, _, hcat, horder, hpage, hview⟩
      rw [hexecute input hcat] at hpage
      cases hpage
      obtain ⟨other, hother, he⟩ := List.mem_map.1 hview
      rw [← eq_of_view hids (ListProductsInput.mem_of_mem_pageOf hother) hmem he]
      exact ⟨input, hcat, horder, hother⟩
    · rintro ⟨input, hcat, horder, hin⟩
      exact ⟨input.query, input, _, input.listProductsInput_query, hcat, horder,
        hexecute input hcat, List.mem_map_of_mem hin⟩

theorem shownScarf_idle (i : Nat) :
    (storefrontAfter productFirst 10 shownScarf).handlers i = .idle := by
  match i with
  | 0 => rfl
  | i + 1 => rfl

/-- What `price` makes of the two products. -/
theorem shownScarf_priced {row : ProductRow}
    (hrow : row ∈ (storefrontAfter productFirst 10 shownScarf).products.rows)
    (hp : ProductPricer.Prices productFirst
      ((storefrontAfter productFirst 10 shownScarf).current row) entry) :
    entry = scarfEntry 400 ∨ entry = socksEntry := by
  obtain ⟨results, hr, rfl⟩ := hp
  have hrows : (storefrontAfter productFirst 10 shownScarf).products.rows =
      [⟨1, ['S'], reducedScarf, none⟩, socks] := rfl
  rw [hrows, List.mem_cons, List.mem_singleton] at hrow
  rcases hrow with rfl | rfl
  · obtain rfl : results = [] := of_decide_eq_true hr
    exact .inl rfl
  · obtain rfl : results = [] := of_decide_eq_true hr
    exact .inr rfl

theorem settled_listing_shownScarf :
    ListProductsQuery.execute (fun _ => some (redisAfter productFirst 10 shownScarf))
      cheapestFirst = .ok ⟨[(scarfEntry 400).view, socksEntry.view], 1, 20, 2, []⟩ := by
  obtain ⟨entries, hranked, hrows, hpriced, hexecute, _⟩ := settled_listing productFirst 10
    shownScarf shownScarf_admitted _ rfl rfl shownScarf_idle none
  have hentry (entry : ProductEntry) (h : entry ∈ entries) :
      entry = scarfEntry 400 ∨ entry = socksEntry := by
    obtain ⟨row, hrow, _, hp⟩ := hpriced entry h
    exact shownScarf_priced hrow hp
  have hcategory (row : ProductRow) : ∀ c ∈ (none : Option Text), row.values.category = c :=
    fun c hc => absurd hc.symm (Option.some_ne_none c)
  have hscarf : scarfEntry 400 ∈ entries := by
    obtain ⟨entry, h, hid⟩ := (hrows ⟨1, ['S'], reducedScarf, none⟩ List.mem_cons_self).2
      (hcategory _)
    rcases hentry entry h with rfl | rfl
    · exact h
    · cases hid
  have hsocks : socksEntry ∈ entries := by
    obtain ⟨entry, h, hid⟩ := (hrows socks (List.mem_cons_of_mem _ (List.mem_singleton_self _))).2
      (hcategory _)
    rcases hentry entry h with rfl | rfl
    · cases hid
    · exact h
  have hsorted : [scarfEntry 400, socksEntry].Pairwise fun a b => a.rank < b.rank := by
    refine List.pairwise_pair.2 (Prod.Lex.toLex_lt_toLex.2 (.inl ?_))
    decide
  have hperm : entries.Perm [scarfEntry 400, socksEntry] := by
    rw [List.perm_ext_iff_of_nodup (nodup_of_ranked hranked) (nodup_of_ranked hsorted)]
    intro entry
    rw [List.mem_cons, List.mem_singleton]
    constructor
    · exact hentry entry
    · rintro (rfl | rfl)
      · exact hscarf
      · exact hsocks
  have hentries : entries = [scarfEntry 400, socksEntry] :=
    hperm.eq_of_pairwise (fun _ _ _ _ hab hba => absurd hba (lt_asymm hab)) hranked hsorted
  rw [hexecute cheapestFirst rfl, hentries]
  rfl

end PromotionManagement
