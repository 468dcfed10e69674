import PromotionManagement.HeldAnnouncements
import PromotionManagement.Shop

namespace PromotionManagement
open Library
set_option autoImplicit true

namespace StorefrontState

/-- The storefront, were each of the products announced on its own. -/
def owing (s : StorefrontState) (ids : List Nat) : StorefrontState :=
  s.announced (ids.map fun id => .upserted [id])

end StorefrontState

namespace Converging

open StorefrontState

variable {s s' : StorefrontState} {engine : PromotionEngine}

/-- Products are written and ids announced: every product written, and every one that was owed and
is not announced now, is owed. -/
theorem announce (h : Converging engine (s.owing held)) (products : Catalogue)
    (owed : Nat → Prop) (l : List (List Nat))
    (hlisted : ∀ row ∈ products.rows, 0 < row.id ∧ row.values.category ≠ [])
    (hheld : ∀ id ∈ held, owed id ∨ ∃ ids ∈ l, id ∈ ids)
    (hwritten : ∀ row ∈ products.rows, row ∈ s.products.rows ∨ owed row.id ∨
      ∃ ids ∈ l, row.id ∈ ids) :
    ∃ held', (∀ id ∈ held', owed id) ∧ Converging engine
      (({ s with products := products }.announced (l.map .upserted)).owing held') := by
  classical
  let held' := (held ++ products.rows.map ProductRow.id).filter fun id => owed id
  have hmem {id : Nat} (hid : id ∈ held ++ products.rows.map ProductRow.id) (ho : owed id) :
      .upserted [id] ∈ held'.map fun id => Announcement.upserted [id] :=
    List.mem_map_of_mem (List.mem_filter.2 ⟨hid, decide_eq_true ho⟩)
  refine ⟨held', fun id hid => of_decide_eq_true (List.mem_filter.1 hid).2, ?_⟩
  have hcovered : Converging engine ((s.announced (l.map .upserted)).owing held') := by
    refine h.covered ?_ ?_ rfl ?_
    · exact ⟨rfl, rfl, rfl⟩
    · exact ⟨rfl, rfl, rfl, rfl⟩
    intro row _ a ha hl
    rcases List.mem_append.1 ha with ha | ha
    · exact ⟨a, List.mem_append_left _ (List.mem_append_left _ ha), hl⟩
    · obtain ⟨id, hid, rfl⟩ := List.mem_map.1 ha
      obtain rfl := List.mem_singleton.1 hl
      rcases hheld row.id hid with ho | ⟨ids, hids, hrow⟩
      · exact ⟨_, List.mem_append_right _ (hmem (List.mem_append_left _ hid) ho), hl⟩
      · refine ⟨.upserted ids, ?_, hrow⟩
        exact List.mem_append_left _ (List.mem_append_right _ (List.mem_map_of_mem hids))
  refine hcovered.source rfl ?_ (fun _ ha => ha) (.refl _) h.targeted hlisted ?_
  · exact ⟨rfl, rfl, rfl, rfl⟩
  intro row hrow
  rcases hwritten row hrow with hold | ho | ⟨ids, hids, hid⟩
  · exact .inl ⟨hold, rfl⟩
  · right
    refine ⟨.upserted [row.id], ?_, List.mem_singleton_self row.id⟩
    apply List.mem_append_right
    exact hmem (List.mem_append_right _ (List.mem_map_of_mem hrow)) ho
  · right
    refine ⟨.upserted ids, ?_, hid⟩
    exact List.mem_append_left _ (List.mem_append_right _ (List.mem_map_of_mem hids))

end Converging

/-- A product of the catalogue has a category. -/
theorem IntakeState.Stems.listed {s : IntakeState} {created : CreateProduct → Prop}
    (h : s.Stems c rules created row)
    (hcreated : ∀ input, created input → input.category ≠ []) : row.values.category ≠ [] := by
  rcases h with ⟨input, hinput, _, hvalues, _⟩ | ⟨u, hu, _, hvalues, _⟩
  · rw [hvalues]
    exact hcreated input hinput
  · obtain ⟨b, bytes, line, calculator, _, _, _, hprice⟩ := hu
    obtain ⟨vendorRow, hrow, _, hu⟩ := price_accepted hprice
    obtain ⟨price, stock, _, hfields, _⟩ := parseVendorRow_ok hrow
    have hcategory : u.category = vendorRow.category := by rw [hu]
    rw [hvalues, ProductUpsert.values]
    dsimp only
    rw [hcategory]
    intro hempty
    rw [hempty, fieldRejection] at hfields
    split at hfields
    · cases hfields
    · split at hfields
      · cases hfields
      · rw [if_pos rfl] at hfields
        cases hfields

/-- What an admin's insert adds is the product it answers with. -/
theorem Products.insert_new {p : Products} (hr : row ∈ (p.insert input).1.table.rows)
    (hnew : row ∉ p.table.rows) : (p.insert input).2 = .ok row := by
  rw [insert] at hr ⊢
  split at hr
  · exact absurd hr hnew
  · split at hr
    · rename_i h
      rw [if_pos h]
      obtain rfl := ((Table.mem_insert _ _ h.1).1 hr).resolve_left hnew
      rfl
    · exact absurd hr hnew

namespace ShopState

variable {c : RegisterImportCommand} {w : ProcessChunkCommand} {engine : PromotionEngine}
  {s : ShopState}

/-- What was unannounced, or is given up now, is unannounced, or announced by the same event. -/
theorem unannounced_step (c : RegisterImportCommand) (w : ProcessChunkCommand)
    (engine : PromotionEngine) {e : ShopEvent} {id : Nat}
    (h : id ∈ s.unannounced ∨ id ∈ s.givenUp w.indexed e) :
    (s.step c w engine e).Unannounced id ∨ ∃ ids ∈ s.announcements e, id ∈ ids := by
  by_cases ha : id ∈ (s.announcements e).flatten
  · exact .inr (List.mem_flatten.1 ha)
  · left
    left
    exact List.mem_filter.2 ⟨List.mem_append.2 h, decide_eq_true ha⟩

/-- Nothing happens to a shop in which nothing moves and nothing is announced or given up. -/
theorem step_idle {e : ShopEvent} (hm : s.moved c w engine e = s) (hg : s.givenUp w.indexed e = [])
    (ha : s.announcements e = []) : s.step c w engine e = s := by
  have hall : (s.unannounced.filter fun id => id ∉ ([] : List (List Nat)).flatten) =
      s.unannounced :=
    List.filter_eq_self.2 fun id _ => decide_eq_true List.not_mem_nil
  rw [step, hm, hg, ha, List.append_nil, hall]

/-- The invocations that uploads and admins leave alone. -/
theorem invocations_catalogue (c : RegisterImportCommand) (w : ProcessChunkCommand)
    (s : IntakeState) (e : CatalogueEvent) (he : ∀ e', e ≠ .intake (.ingest e')) :
    (s.catalogue c w e).world.invocations = s.world.invocations := by
  cases e with
  | createProduct input => rfl
  | intake e =>
    rcases s.world_step c w e with ⟨e', rfl, _⟩ | hw | ⟨jobId, file, boundaries, hw⟩
    · exact absurd rfl (he e')
    · rw [IntakeState.catalogue, hw]
    · rw [IntakeState.catalogue, hw]

/-- What was unannounced before the catalogue is written is unannounced still, or is announced. -/
theorem unannounced_catalogue (c : RegisterImportCommand) (w : ProcessChunkCommand)
    (engine : PromotionEngine) {e : CatalogueEvent} {id : Nat} (hlisted : e.listed = true)
    (h : s.Unannounced id) : (s.step c w engine (.catalogue e)).Unannounced id ∨
      ∃ ids ∈ s.announcements (.catalogue e), id ∈ ids := by
  have hintake : (s.step c w engine (.catalogue e)).intake = s.intake.catalogue c w e := by
    rw [step, moved, if_pos hlisted]
  rcases h with h | h | ⟨i, h⟩
  · exact unannounced_step c w engine (.inl h)
  · left
    right
    left
    rw [step, moved, if_pos hlisted]
    exact List.mem_append_left _ h
  · by_cases he : ∃ e', e = .intake (.ingest e')
    · obtain ⟨e', rfl⟩ := he
      rcases IngestionWorld.toAnnounce_step (s.intake.reading w) e' h with h' | h' | h'
      · left
        right
        right
        refine ⟨i, ?_⟩
        rw [hintake]
        exact h'
      · exact unannounced_step c w engine (.inr h')
      · obtain ⟨ids, hids, hid⟩ := h'
        exact .inr ⟨ids.reduceOption, List.mem_map_of_mem hids, hid⟩
    · left
      right
      right
      refine ⟨i, ?_⟩
      rw [hintake, invocations_catalogue c w s.intake e fun e' h => he ⟨e', h⟩]
      exact h

/-- A product that the catalogue takes in is unannounced, or is announced. -/
theorem written_catalogue (c : RegisterImportCommand) (w : ProcessChunkCommand)
    (engine : PromotionEngine) {e : CatalogueEvent} (hlisted : e.listed = true)
    (hr : row ∈ (s.intake.catalogue c w e).world.db.products.table.rows)
    (hnew : row ∉ s.products.table.rows) :
    (s.step c w engine (.catalogue e)).Unannounced row.id ∨
      ∃ ids ∈ s.announcements (.catalogue e), row.id ∈ ids := by
  cases e with
  | createProduct input =>
    left
    right
    left
    rw [step, moved, if_pos hlisted]
    apply List.mem_append_right
    rw [inserted, products, Products.insert_new hr hnew]
    exact List.mem_singleton_self row.id
  | intake e =>
    rcases s.intake.world_step c w e with ⟨e', rfl, _⟩ | hw | ⟨jobId, file, boundaries, hw⟩
    · rcases IngestionWorld.products_announced hr hnew with ⟨i, hi⟩ | hg
      · left
        right
        right
        refine ⟨i, ?_⟩
        rw [step, moved, if_pos hlisted]
        exact hi
      · exact unannounced_step c w engine (.inr hg)
    · rw [IntakeState.catalogue, hw] at hr
      exact absurd hr hnew
    · rw [IntakeState.catalogue, hw] at hr
      exact absurd hr hnew

/-- What was unannounced before a created product is announced is unannounced still, or is that
product. -/
theorem unannounced_created (c : RegisterImportCommand) (w : ProcessChunkCommand)
    (engine : PromotionEngine) (position : Nat) (delivered : Bool) {id : Nat}
    (h : s.Unannounced id) :
    (s.step c w engine (.announceCreated position delivered)).Unannounced id ∨
      ∃ ids ∈ s.announcements (.announceCreated position delivered), id ∈ ids := by
  rcases h with h | h | h
  · exact unannounced_step c w engine (.inl h)
  · by_cases hposition : s.created[position]? = some id
    · cases delivered with
      | false =>
        apply unannounced_step c w engine
        right
        rw [givenUp, hposition]
        exact List.mem_singleton_self id
      | true =>
        right
        rw [announcements, hposition]
        exact ⟨[id], List.mem_singleton_self _, List.mem_singleton_self id⟩
    · left
      right
      left
      obtain ⟨i, hi⟩ := List.mem_iff_getElem?.1 h
      apply List.mem_eraseIdx_iff_getElem?.2
      refine ⟨i, ?_, hi⟩
      rintro rfl
      exact hposition hi
  · exact .inl (.inr (.inr h))

end ShopState

/-- The storefront looks up the products of the catalogue, and each that is not unannounced will be
recomputed, or has its newest script fresh. -/
structure ShopConverging (c : RegisterImportCommand) (engine : PromotionEngine) (s : ShopState) :
    Prop where
  traced : s.intake.Traced c (fun _ => True) fun input => input.category ≠ []
  numbered : s.products.Numbered
  looksUp : s.front.products = s.products.catalogue
  converging : ∃ held, (∀ id ∈ held, s.Unannounced id) ∧ Converging engine (s.front.owing held)

namespace ShopConverging

variable {c : RegisterImportCommand} {w : ProcessChunkCommand} {engine : PromotionEngine}
  {s : ShopState}

theorem initial (c : RegisterImportCommand) (engine : PromotionEngine) (now : Int) :
    ShopConverging c engine (.initial now) where
  traced := .initial c _ _ now
  numbered := .empty
  looksUp := rfl
  converging := ⟨[], fun _ h => absurd h List.not_mem_nil, .initial now⟩

theorem catalogue (h : ShopConverging c engine s) (w : ProcessChunkCommand) (e : CatalogueEvent)
    (hlisted : e.listed = true) : ShopConverging c engine (s.step c w engine (.catalogue e)) := by
  have hwithin : e.Within (fun _ => True) fun input => input.category ≠ [] := by
    unfold CatalogueEvent.Within
    split
    · trivial
    · exact of_decide_eq_true hlisted
    · trivial
  have htraced := h.traced.step w e hwithin
  have hnumbered := (IntakeState.catalogue_kept c w s.intake e).2 h.numbered
  obtain ⟨held, hheld, hconverging⟩ := h.converging
  have hrow {p : Products} {row : ProductRow} (hr : row ∈ p.catalogue.rows) : row ∈ p.table.rows :=
    Table.mem_of_mem_ofList hr
  let products := (s.intake.catalogue c w e).world.db.products.catalogue
  have hproducts (row : ProductRow) (hr : row ∈ products.rows) :
      0 < row.id ∧ row.values.category ≠ [] :=
    ⟨hnumbered.positive row (hrow hr),
      (htraced.products row (hrow hr)).listed fun _ hinput => hinput⟩
  have hwritten (row : ProductRow) (hr : row ∈ products.rows) : row ∈ s.front.products.rows ∨
      (s.step c w engine (.catalogue e)).Unannounced row.id ∨
        ∃ ids ∈ s.announcements (.catalogue e), row.id ∈ ids := by
    by_cases hold : row ∈ s.products.table.rows
    · left
      rw [h.looksUp, Products.catalogue, Table.rows_ofList h.numbered.distinct]
      exact hold
    · exact .inr (ShopState.written_catalogue c w engine hlisted (hrow hr) hold)
  obtain ⟨held', hheld', hconverging'⟩ := hconverging.announce products
    (s.step c w engine (.catalogue e)).Unannounced (s.announcements (.catalogue e)) hproducts
    (fun id hid => ShopState.unannounced_catalogue c w engine hlisted (hheld id hid)) hwritten
  have hmoved : s.moved c w engine (.catalogue e) =
      { s with
        intake := s.intake.catalogue c w e
        front := { s.front with products := products }.announced
          ((s.announcements (.catalogue e)).map .upserted)
        created := s.created ++ s.inserted e } := if_pos hlisted
  constructor
  · rw [ShopState.step, hmoved]
    exact htraced
  · rw [ShopState.step, hmoved]
    exact hnumbered
  · rw [ShopState.step, hmoved]
    rfl
  · refine ⟨held', hheld', ?_⟩
    rw [ShopState.step, hmoved]
    exact hconverging'

theorem announceCreated (h : ShopConverging c engine s) (w : ProcessChunkCommand) (position : Nat)
    (delivered : Bool) :
    ShopConverging c engine (s.step c w engine (.announceCreated position delivered)) := by
  obtain ⟨held, hheld, hconverging⟩ := h.converging
  obtain ⟨held', hheld', hconverging'⟩ := hconverging.announce s.front.products
    (s.step c w engine (.announceCreated position delivered)).Unannounced
    (s.announcements (.announceCreated position delivered)) hconverging.listed
    (fun id hid => ShopState.unannounced_created c w engine position delivered (hheld id hid))
    (fun row hr => .inl hr)
  exact ⟨h.traced, h.numbered, h.looksUp, held', hheld', hconverging'⟩

theorem front (h : ShopConverging c engine s) (w : ProcessChunkCommand) (e : StorefrontEvent)
    (he : e.writesProducts = false) : ShopConverging c engine (s.step c w engine (.front e)) := by
  have hmoved : s.moved c w engine (.front e) = { s with front := s.front.step engine e } := by
    rw [ShopState.moved, he, if_neg Bool.false_ne_true]
  have hunannounced {id : Nat} (hid : s.Unannounced id) :
      (s.step c w engine (.front e)).Unannounced id ∨
        ∃ ids ∈ s.announcements (.front e), id ∈ ids := by
    rcases hid with hid | hid
    · exact ShopState.unannounced_step c w engine (.inl hid)
    · left
      right
      rw [ShopState.step, hmoved]
      exact hid
  obtain ⟨held, hheld, hconverging⟩ := h.converging
  have hconverging' : ∃ held', (∀ id ∈ held', (s.step c w engine (.front e)).Unannounced id) ∧
      Converging engine ((s.front.step engine e).owing held') := by
    by_cases hannounce : ∃ ids, e = .announce (.upserted ids)
    · obtain ⟨ids, rfl⟩ := hannounce
      exact hconverging.announce s.front.products _ [ids] hconverging.listed
        (fun id hid => hunannounced (hheld id hid)) (fun row hr => .inl hr)
    · have hnone : s.announcements (.front e) = [] := by
        unfold ShopState.announcements
        split
        · rename_i heq
          cases heq
        · rename_i heq
          cases heq
        · rename_i ids heq
          cases heq
          exact absurd ⟨ids, rfl⟩ hannounce
        · rfl
      refine ⟨held, ?_, hconverging.step_announced e⟩
      intro id hid
      rcases hunannounced (hheld id hid) with hid | ⟨ids, hids, _⟩
      · exact hid
      · rw [hnone] at hids
        exact absurd hids List.not_mem_nil
  constructor
  · rw [ShopState.step, hmoved]
    exact h.traced
  · rw [ShopState.step, hmoved]
    exact h.numbered
  · rw [ShopState.step, hmoved]
    exact (StorefrontState.products_kept engine s.front he).trans h.looksUp
  · obtain ⟨held', hheld', hconverging'⟩ := hconverging'
    refine ⟨held', hheld', ?_⟩
    rw [ShopState.step, hmoved]
    exact hconverging'

theorem step (h : ShopConverging c engine s) (w : ProcessChunkCommand) (e : ShopEvent) :
    ShopConverging c engine (s.step c w engine e) := by
  cases e with
  | catalogue e =>
    cases hlisted : e.listed with
    | true => exact h.catalogue w e hlisted
    | false =>
      cases e with
      | intake e => cases hlisted
      | createProduct input =>
        have hmoved : s.moved c w engine (.catalogue (.createProduct input)) = s := by
          rw [ShopState.moved, hlisted, if_neg Bool.false_ne_true]
        rw [ShopState.step_idle hmoved rfl rfl]
        exact h
  | announceCreated position delivered => exact h.announceCreated w position delivered
  | front e =>
    cases he : e.writesProducts with
    | false => exact h.front w e he
    | true =>
      have hmoved : s.moved c w engine (.front e) = s := by
        rw [ShopState.moved, he, if_pos rfl]
      have hnone : s.announcements (.front e) = [] := by
        cases e with
        | announce announcement => cases he
        | _ => rfl
      rw [ShopState.step_idle hmoved rfl hnone]
      exact h

theorem run (c : RegisterImportCommand) (w : ProcessChunkCommand) (engine : PromotionEngine)
    (now : Int) (events : List ShopEvent) :
    ShopConverging c engine (Library.run (ShopState.step c w engine) (.initial now) events) :=
  run_invariant_always (fun _ e h => h.step w e) (initial c engine now) events

end ShopConverging

namespace ShopState

variable {c : RegisterImportCommand} {w : ProcessChunkCommand} {engine : PromotionEngine}

/-- Only what is given up becomes unannounced, and the next announcement of it ends that. -/
theorem given_up_since {s : ShopState} {id : Nat} (h₀ : id ∉ s.unannounced)
    (h : id ∈ (Library.run (step c w engine) s events).unannounced) :
    ∃ pre e post, events = pre ++ e :: post ∧
      id ∈ (Library.run (step c w engine) s pre).givenUp w.indexed e ∧
      Along (step c w engine) (fun s e => ∀ ids ∈ s.announcements e, id ∉ ids)
        (Library.run (step c w engine) s (pre ++ [e])) post := by
  refine begun_since (fun s : ShopState => id ∈ s.unannounced)
    (fun s e => id ∈ s.givenUp w.indexed e) ?_ h₀ h
  intro s e h
  obtain ⟨hid, hnone⟩ := List.mem_filter.1 h
  refine ⟨?_, List.mem_append.1 hid⟩
  exact fun ids hids hmem =>
    of_decide_eq_true hnone (List.mem_flatten.2 ⟨ids, hids, hmem⟩)

end ShopState

/-- A file is uploaded, a worker stores and announces its rows, and a handler publishes them. -/
def scarfShop : List ShopEvent :=
  (scarfUpload.map fun e => .catalogue (.intake e)) ++
    (scarfAttempt.map fun e => .catalogue (.intake (.ingest e))) ++
    [.front (.deliver 0 0), .front (.read 0 1 fun _ => []), .front (.run 0), .front (.run 0),
      .front (.run 0)]

def scarfShopped : ShopState :=
  Library.run (ShopState.step ⟨1000, fun _ => []⟩ scarfCommand productFirst) (.initial 0) scarfShop

set_option maxRecDepth 4000 in
theorem scarfShopped_idle (i : Nat) : scarfShopped.front.handlers i = .idle ∧
    (scarfShopped.intake.world.invocations i).toAnnounce = [] := by
  match i with
  | 0 => exact ⟨by decide +kernel, by decide +kernel⟩
  | i + 1 =>
    -- The cutting of the file is by well-founded recursion, which `rfl` alone does not unfold.
    exact ⟨by with_unfolding_all exact rfl, by with_unfolding_all exact rfl⟩

theorem scarfShop_givenUp (indexed : Text → Nat) (s : ShopState) :
    ∀ e ∈ scarfShop, s.givenUp indexed e = [] := by
  have hupload : ∀ e ∈ scarfUpload, s.givenUp indexed (.catalogue (.intake e)) = [] := by
    simp only [scarfUpload, List.forall_mem_cons]
    exact ⟨rfl, rfl, rfl, rfl, rfl, rfl, rfl, fun _ h => absurd h List.not_mem_nil⟩
  have hattempt : ∀ e ∈ scarfAttempt,
      s.givenUp indexed (.catalogue (.intake (.ingest e))) = [] := by
    simp only [scarfAttempt, List.forall_mem_cons]
    exact ⟨rfl, rfl, rfl, rfl, rfl, rfl, rfl, rfl, rfl, fun _ h => absurd h List.not_mem_nil⟩
  intro e he
  rcases List.mem_append.1 he with he | he
  · rcases List.mem_append.1 he with he | he
    · obtain ⟨e, hmem, rfl⟩ := List.mem_map.1 he
      exact hupload e hmem
    · obtain ⟨e, hmem, rfl⟩ := List.mem_map.1 he
      exact hattempt e hmem
  · simp only [List.mem_cons, List.not_mem_nil, or_false] at he
    rcases he with rfl | rfl | rfl | rfl | rfl <;> rfl

end PromotionManagement
