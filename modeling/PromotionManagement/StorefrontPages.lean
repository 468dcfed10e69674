import PromotionManagement.StorefrontReads

namespace PromotionManagement
open Library ProductSourceRepository StorefrontState
set_option autoImplicit true

/-- What the tables, and the columns that are read as JavaScript numbers, allow of every product as
the pricer reads it. -/
def StorefrontState.Admitted (s : StorefrontState) : Prop :=
  ∀ row ∈ s.products.rows, (s.current row).Allowed

def storefrontAfter (engine : PromotionEngine) (now : Int) (events : List StorefrontEvent) :
    StorefrontState :=
  Library.run (step engine) (.initial now) events

/-- Redis after some events, as a reader finds it. -/
def redisAfter (engine : PromotionEngine) (now : Int) (events : List StorefrontEvent) :
    RedisReads :=
  (Converging.run engine now events).represents.snapshot

variable {engine : PromotionEngine} {now : Int} {events : List StorefrontEvent}

theorem issuing_after (engine : PromotionEngine) (now : Int) (events : List StorefrontEvent) :
    Issuing (storefrontAfter engine now events) := Issuing.run engine now events

/-- What Redis has run was computed from a state of the run. -/
theorem priced_of_executed (h : .write entry t ∈ (storefrontAfter engine now events).executed) :
    ∃ pre e post, events = pre ++ e :: post ∧
      ∃ row ∈ (storefrontAfter engine now pre).products.rows, row.id = entry.id ∧
      ProductPricer.Prices engine ((storefrontAfter engine now pre).current row) entry := by
  obtain ⟨pre, e, post, he, hreads⟩ := issued_run (Issuing.initial now) events (.inl (.inl h))
  rcases hreads.cases.2 with ⟨row, hrow, _, _, hop, hid, hp⟩ | ⟨_, _, hop, _⟩
  · cases hop
    exact ⟨pre, e, post, he, row, hrow, hid.symm, hp⟩
  · cases hop

theorem serves_after
    (hadmitted : Along (step engine) (fun s _ => s.Admitted) (.initial now) events) :
    Serves (redisAfter engine now events) (storefrontAfter engine now events).executed := by
  refine ⟨(Converging.run engine now events).represents, ?_⟩
  intro entry t h
  obtain ⟨pre, e, post, he, row, hrow, _, _, _, rfl⟩ := priced_of_executed h
  exact ProductPricer.servable_price ((along_iff _ _).1 hadmitted pre e post he row hrow) _

theorem admitted_take
    (hadmitted : Along (step engine) (fun s _ => s.Admitted) (.initial now) events) (n : Nat) :
    Along (step engine) (fun s _ => s.Admitted) (.initial now) (events.take n) := by
  rw [← List.take_append_drop n events, along_append] at hadmitted
  exact hadmitted.1

theorem executed_take (events : List StorefrontEvent) (h : m ≤ n) :
    (storefrontAfter engine now (events.take m)).executed <+:
      (storefrontAfter engine now (events.take n)).executed := by
  obtain ⟨later, hl⟩ : events.take m <+: events.take n := List.take_prefix_take_left h
  rw [← hl, storefrontAfter, storefrontAfter, run_append]
  exact executed_run engine _ later

/-- A product that was written is shown from then on, and never as an older read had it. -/
theorem shown_of_written {s : StorefrontState} (h : Issuing s)
    (hwrite : .write entry t ∈ s.executed) :
    ∃ entry' t', newestOp s.executed entry.id = some (.write entry' t') ∧ t ≤ t' := by
  obtain ⟨op, hn, hle⟩ : ∃ op, newestOp s.executed entry.id = some op ∧ t ≤ op.sourceReadAt :=
    le_newest hwrite rfl
  obtain ⟨hop, hid⟩ := newest_mem hn
  cases op with
  | write entry' t' => exact ⟨entry', t', hn, hle⟩
  | remove id t' =>
    have hlt := h.removed id t' entry t (.inl (.inl hop)) (.inl (.inl hwrite)) hid.symm
    exact absurd hle (Nat.not_le.2 hlt)

/-- When each read of a pipeline finds its product, it finds as many entries as there are ids. -/
theorem shownAt_eq_map {ops : Nat → List ReadModelOp} {ids : List Nat}
    (h : ∀ i id, ids[i]? = some id → ∃ entry, shown (ops i) id = some entry) :
    ∃ entries : List ProductEntry, shownAt ops ids = entries.map some ∧
      entries.map ProductEntry.id = ids ∧
      ∀ i entry, entries[i]? = some entry → shown (ops i) entry.id = some entry := by
  induction ids generalizing ops with
  | nil => exact ⟨[], rfl, rfl, fun i entry he => absurd he.symm (Option.some_ne_none _)⟩
  | cons id ids ih =>
    obtain ⟨entry, hentry⟩ := h 0 id rfl
    have hlater (i id : Nat) (hid : ids[i]? = some id) :
        ∃ entry, shown ((fun n => ops (n + 1)) i) id = some entry := h (i + 1) id hid
    obtain ⟨entries, hshown, hids, hentries⟩ := ih hlater
    refine ⟨entry :: entries, ?_, ?_, ?_⟩
    · rw [shownAt, hentry, hshown, List.map_cons]
    · rw [List.map_cons, shown_id hentry, hids]
    · intro i e he
      cases i with
      | zero =>
        cases he
        rw [shown_id hentry, hentry]
      | succ i => exact hentries i e he

theorem filterMap_map_some (l : List α) : (l.map some).filterMap (fun a => a) = l := by
  rw [List.filterMap_map]
  exact List.filterMap_some

/-- A pipeline that finds all it asks for drops nothing. -/
theorem dropped_eq_nil (ids : List ι) (entries : List α) :
    ((ids.zip (entries.map some)).filter fun pair => pair.2.isNone).map Prod.fst = [] := by
  rw [List.map_eq_nil_iff, List.filter_eq_nil_iff]
  intro pair hpair
  obtain ⟨entry, _, he⟩ := List.mem_map.1 (List.of_mem_zip hpair).2
  rw [← he]
  exact Bool.false_ne_true

namespace ListProductsInput

theorem mem_of_mem_pageOf {input : ListProductsInput} (h : entry ∈ input.pageOf entries) :
    entry ∈ entries := by
  have hmem := List.mem_of_mem_drop (List.mem_of_mem_take h)
  split at hmem
  · exact List.mem_reverse.1 hmem
  · exact hmem

theorem pageOf_nodup {entries : List α} (input : ListProductsInput) (h : entries.Nodup) :
    (input.pageOf entries).Nodup := by
  apply List.Nodup.sublist ((List.take_sublist _ _).trans (List.drop_sublist _ _))
  split
  · exact List.nodup_reverse.2 h
  · exact h

theorem length_pageOf_le (input : ListProductsInput) (entries : List α) :
    (input.pageOf entries).length ≤ input.pageSize := by
  rw [pageOf, List.length_take]
  exact Nat.min_le_left _ _

end ListProductsInput

theorem nodup_of_ranked {entries : List ProductEntry}
    (h : entries.Pairwise fun a b => a.rank < b.rank) : entries.Nodup := by
  refine h.imp fun hlt he => ?_
  rw [he] at hlt
  exact lt_irrefl _ hlt

theorem nodup_shelf_ids (ops : List ReadModelOp) (category : Option Text) :
    ((shelf ops category).map ProductEntry.id).Nodup := by
  apply List.Nodup.map_on _ (nodup_of_ranked (pairwise_shelf ops category))
  intro a ha b hb hid
  have hsa := (mem_shelf.1 ha).1
  rw [hid, (mem_shelf.1 hb).1] at hsa
  exact (Option.some.inj hsa).symm

/-- A listing whose commands run at any later and later moments, with handlers, scripts and writes
between them, answers with exactly the products that its index gave it. Each is shown as it was
computed from some state of the run, no older than the index had it; nothing is dropped, and
nothing that is stored fails to parse. -/
theorem listing_interleaved (engine : PromotionEngine) (now : Int) (events : List StorefrontEvent)
    (hadmitted : Along (step engine) (fun s _ => s.Admitted) (.initial now) events)
    (upTo : Nat → Nat) (hupTo : Monotone upTo) (input : ListProductsInput) :
    ∃ (page : ProductPage) (entries : List ProductEntry),
      ListProductsQuery.execute
          (fun n => some (redisAfter engine now (events.take (upTo n)))) input = .ok page ∧
        page.dropped = [] ∧ page.items = entries.map ProductEntry.view ∧
        page.total = (shelf (storefrontAfter engine now (events.take (upTo 1))).executed
          input.category).length ∧
        entries.map ProductEntry.id = (input.pageOf
          (shelf (storefrontAfter engine now (events.take (upTo 0))).executed
            input.category)).map ProductEntry.id ∧
        (entries.map ProductEntry.id).Nodup ∧ entries.length ≤ input.pageSize ∧
        ∀ i entry, entries[i]? = some entry →
          (∃ n ≤ upTo (i + 2), ∃ row ∈ (storefrontAfter engine now (events.take n)).products.rows,
            row.id = entry.id ∧ ProductPricer.Prices engine
              ((storefrontAfter engine now (events.take n)).current row) entry) ∧
          ∃ t, newestOp (storefrontAfter engine now (events.take (upTo (i + 2)))).executed
              entry.id = some (.write entry t) ∧
            ∀ indexed t₀, newestOp (storefrontAfter engine now (events.take (upTo 0))).executed
              entry.id = some (.write indexed t₀) → t₀ ≤ t := by
  let ops (n : Nat) := (storefrontAfter engine now (events.take (upTo n))).executed
  have hserves (n : Nat) : Serves (redisAfter engine now (events.take (upTo n))) (ops n) :=
    serves_after (admitted_take hadmitted (upTo n))
  let listed := input.pageOf (shelf (ops 0) input.category)
  have hlater (i id : Nat) (hid : (listed.map ProductEntry.id)[i]? = some id) :
      ∃ entry, shown ((fun n => ops (n + 2)) i) id = some entry := by
    obtain ⟨entry, hentry, rfl⟩ := List.mem_map.1 (List.mem_of_getElem? hid)
    have hs := (mem_shelf.1 (ListProductsInput.mem_of_mem_pageOf hentry)).1
    obtain ⟨t, ht⟩ := shown_eq_some.1 hs
    have hrun := (executed_take events (hupTo (Nat.zero_le (i + 2)))).subset (newest_mem ht).1
    obtain ⟨entry', t', hn, _⟩ := shown_of_written (issuing_after engine now _) hrun
    exact ⟨entry', shown_eq_some.2 ⟨t', hn⟩⟩
  obtain ⟨entries, hshown, hids, hentries⟩ := shownAt_eq_map hlater
  have hexecute := ListProductsQuery.execute_eq hserves input
  have hnodup : (listed.map ProductEntry.id).Nodup := by
    rw [← ListProductsInput.pageOf_map]
    exact input.pageOf_nodup (nodup_shelf_ids _ _)
  have hlength : entries.length ≤ input.pageSize := by
    rw [← List.length_map (f := ProductEntry.id), hids, List.length_map]
    exact input.length_pageOf_le _
  refine ⟨_, entries, hexecute, ?_, ?_, rfl, hids, hids ▸ hnodup, hlength, ?_⟩
  · simp only [listed] at hshown
    simp only [hshown, dropped_eq_nil]
  · simp only [listed] at hshown
    simp only [hshown, filterMap_map_some]
  · intro i entry hentry
    obtain ⟨t, ht⟩ := shown_eq_some.1 (hentries i entry hentry)
    refine ⟨?_, t, ht, ?_⟩
    · obtain ⟨pre, e, post, he, row, hrow, hid, hp⟩ := priced_of_executed (newest_mem ht).1
      have hpre : pre = events.take pre.length := by
        have hprefix : pre <+: events :=
          (List.prefix_append pre (e :: post)).trans (he ▸ List.take_prefix _ _)
        exact List.prefix_iff_eq_take.1 hprefix
      have hle : pre.length ≤ upTo (i + 2) := by
        have hlen := congrArg List.length he
        rw [List.length_take, List.length_append, List.length_cons] at hlen
        omega
      rw [hpre] at hrow hp
      exact ⟨pre.length, hle, row, hrow, hid, hp⟩
    · intro indexed t₀ hindexed
      have hrun := (executed_take events (hupTo (Nat.zero_le (i + 2)))).subset
        (newest_mem hindexed).1
      exact stamp_le_newest ht hrun (newest_mem hindexed).2

/-- Whenever it is asked, the detail of a product is an entry computed from some state of the run,
or not there because none was ever written; once it is there it stays, and is never again shown as
an older read had it. -/
theorem detail_never_goes_back (engine : PromotionEngine) (now : Int)
    (events : List StorefrontEvent)
    (hadmitted : Along (step engine) (fun s _ => s.Admitted) (.initial now) events) (m n id : Nat)
    (hmn : m ≤ n) :
    (FindProductQuery.execute (some (redisAfter engine now (events.take m))) id =
        .error .notFound ∧
      ∀ entry t, .write entry t ∈ (storefrontAfter engine now (events.take m)).executed →
        entry.id ≠ id) ∨
    ∃ entry entry' t t',
      FindProductQuery.execute (some (redisAfter engine now (events.take m))) id =
        .ok entry.view ∧
      FindProductQuery.execute (some (redisAfter engine now (events.take n))) id =
        .ok entry'.view ∧
      newestOp (storefrontAfter engine now (events.take m)).executed id =
        some (.write entry t) ∧
      newestOp (storefrontAfter engine now (events.take n)).executed id =
        some (.write entry' t') ∧ t ≤ t' := by
  have hm := serves_after (admitted_take hadmitted m)
  have hn := serves_after (admitted_take hadmitted n)
  rw [FindProductQuery.execute_eq hm, FindProductQuery.execute_eq hn]
  cases hs : shown (storefrontAfter engine now (events.take m)).executed id with
  | none =>
    refine .inl ⟨rfl, ?_⟩
    rintro entry t hwrite rfl
    obtain ⟨entry', t', hnewest, _⟩ := shown_of_written (issuing_after engine now _) hwrite
    rw [shown_eq_some.2 ⟨t', hnewest⟩] at hs
    cases hs
  | some entry =>
    right
    obtain ⟨t, ht⟩ := shown_eq_some.1 hs
    have hid := shown_id hs
    have hrun := (executed_take events hmn).subset (newest_mem ht).1
    obtain ⟨entry', t', hnewest, hle⟩ := shown_of_written (issuing_after engine now _) hrun
    rw [hid] at hnewest
    refine ⟨entry, entry', t, t', rfl, ?_, ht, hnewest, hle⟩
    rw [shown_eq_some.2 ⟨t', hnewest⟩]

def socks : ProductRow := ⟨2, ['T'], ⟨['N'], ['a'], 500, 8, none⟩, none⟩

def reducedScarf : ProductValues := ⟨['N'], ['a'], 400, 5, none⟩

/-- Two products are created and each is written to Redis; then one is reduced and written again. -/
def shownScarf : List StorefrontEvent :=
  [.insertProduct scarf, .deliver 0 0, .read 0 1 fun _ => [], .run 0, .run 0,
    .insertProduct socks, .deliver 0 0, .read 0 2 fun _ => [], .run 0, .run 0,
    .updateProduct 1 reducedScarf none, .deliver 0 0, .read 0 3 fun _ => [], .run 0, .run 0]

theorem scarf_admitted {s : StorefrontState}
    (hrows : s.products.rows ⊆ [scarf, socks, ⟨1, ['S'], reducedScarf, none⟩])
    (hpromotions : s.promotions.table.rows = []) : s.Admitted := by
  intro row hrow
  have hcurrent : s.current row = sourceRow row none none := by
    rw [StorefrontState.current, active, hpromotions]
    rfl
  have hnone (p : PromotionCandidate) (hp : none = some p) : p.Allowed :=
    absurd hp.symm (Option.some_ne_none p)
  have hmem := hrows hrow
  simp only [List.mem_cons, List.not_mem_nil, or_false] at hmem
  rw [hcurrent]
  rcases hmem with rfl | rfl | rfl
  · exact ⟨by decide, by decide, by decide, hnone, hnone⟩
  · exact ⟨by decide, by decide, by decide, hnone, hnone⟩
  · exact ⟨by decide, by decide, by decide, hnone, hnone⟩

theorem shownScarf_admitted :
    Along (step productFirst) (fun s _ => s.Admitted) (.initial 10) shownScarf := by
  have hadmitted : Along (step productFirst) (fun s _ =>
      s.products.rows ⊆ [scarf, socks, ⟨1, ['S'], reducedScarf, none⟩] ∧
        s.promotions.table.rows = []) (.initial 10) shownScarf := by
    decide +kernel
  exact Along.mono hadmitted fun _ _ h => scarf_admitted h.1 h.2

def cheapestFirst : ListProductsInput where
  category := none
  order := .asc
  page := 1
  pageSize := 20
  category_length c hc := by cases hc
  page_pos := by decide
  pageSize_pos := by decide
  pageSize_le := by decide
  offset_le := by decide

/-- A ranking of what is shown is the shelf. -/
theorem shelf_eq {ops : List ReadModelOp} {category : Option Text} {entries : List ProductEntry}
    (hsorted : entries.Pairwise fun a b => a.rank < b.rank)
    (hperm : (((ops.map ReadModelOp.productId).dedup.filterMap (shown ops)).filter
      (ProductEntry.listedIn category)).Perm entries) : shelf ops category = entries :=
  ((List.mergeSort_perm _ _).trans hperm).eq_of_pairwise
    (fun _ _ _ _ hab hba => absurd hba (lt_asymm hab)) (pairwise_shelf ops category) hsorted

def socksEntry : ProductEntry := ⟨2, ['T'], ['N'], ['a'], 500, 500, 8, none, none, none⟩

def scarfEntry (cents : Int) : ProductEntry :=
  ⟨1, ['S'], ['N'], ['a'], cents, cents, 5, none, none, none⟩

/-- The scarf is reduced after the index was read, and before its entry is. -/
theorem listing_interleaved_shownScarf : ∃ page : ProductPage,
    ListProductsQuery.execute
        (fun n => some (redisAfter productFirst 10 (shownScarf.take (5 * n + 10)))) cheapestFirst =
      .ok page ∧ page.dropped = [] ∧
      page.items.map (fun view => (view.id, view.effectivePriceCents)) = [(2, 500), (1, 400)] := by
  obtain ⟨page, entries, hpage, hdropped, hitems, _, hids, _, _, hentries⟩ :=
    listing_interleaved productFirst 10 shownScarf shownScarf_admitted (fun n => 5 * n + 10)
      (fun _ _ h => Nat.add_le_add_right (Nat.mul_le_mul_left 5 h) 10) cheapestFirst
  refine ⟨page, hpage, hdropped, ?_⟩
  have hsorted : [socksEntry, scarfEntry 1000].Pairwise fun a b => a.rank < b.rank := by
    refine List.pairwise_pair.2 (Prod.Lex.toLex_lt_toLex.2 (.inl ?_))
    decide
  have hindex : shelf (storefrontAfter productFirst 10 (shownScarf.take 10)).executed none =
      [socksEntry, scarfEntry 1000] := by
    refine shelf_eq hsorted ?_
    decide +kernel
  have hafter (n : Nat) : shownScarf.take (5 * (n + 2) + 10) = shownScarf :=
    List.take_of_length_le (Nat.le_add_left 15 _)
  have hsocks : newestOp (storefrontAfter productFirst 10 shownScarf).executed 2 =
      some (.write socksEntry 2) := by
    decide +kernel
  have hscarf : newestOp (storefrontAfter productFirst 10 shownScarf).executed 1 =
      some (.write (scarfEntry 400) 3) := by
    decide +kernel
  have hlisted : entries.map ProductEntry.id = [2, 1] :=
    hids.trans (congrArg (fun shelf => (cheapestFirst.pageOf shelf).map ProductEntry.id) hindex)
  obtain ⟨a, as, rfl, ha, has⟩ := List.map_eq_cons_iff.1 hlisted
  obtain ⟨b, bs, rfl, hb, hbs⟩ := List.map_eq_cons_iff.1 has
  obtain rfl := List.map_eq_nil_iff.1 hbs
  obtain ⟨_, _, hn, _⟩ := hentries 0 a rfl
  rw [hafter 0, ha] at hn
  cases hsocks.symm.trans hn
  obtain ⟨_, _, hn, _⟩ := hentries 1 b rfl
  rw [hafter 1, hb] at hn
  cases hscarf.symm.trans hn
  rw [hitems]
  rfl

/-- The scarf is shown at the price of either write. -/
theorem detail_never_goes_back_shownScarf : ∃ entry entry' : ProductEntry,
    FindProductQuery.execute (some (redisAfter productFirst 10 (shownScarf.take 5))) 1 =
        .ok entry.view ∧
      FindProductQuery.execute (some (redisAfter productFirst 10 (shownScarf.take 15))) 1 =
        .ok entry'.view ∧
      entry.effectivePriceCents = 1000 ∧ entry'.effectivePriceCents = 400 := by
  have hfirst : newestOp (storefrontAfter productFirst 10 (shownScarf.take 5)).executed 1 =
      some (.write (scarfEntry 1000) 1) := by
    decide +kernel
  have hsecond : newestOp (storefrontAfter productFirst 10 (shownScarf.take 15)).executed 1 =
      some (.write (scarfEntry 400) 3) := by
    decide +kernel
  rcases detail_never_goes_back productFirst 10 shownScarf shownScarf_admitted 5 15 1
    (by decide) with ⟨_, hnone⟩ | ⟨entry, entry', t, t', h, h', hnewest, hnewest', _⟩
  · exact absurd rfl (hnone _ _ (newest_mem hfirst).1)
  · cases hfirst.symm.trans hnewest
    cases hsecond.symm.trans hnewest'
    exact ⟨_, _, h, h', rfl, rfl⟩

end PromotionManagement
