import Mathlib.Data.List.ReduceOption
import PromotionManagement.BatchAnnouncement
import PromotionManagement.LeaseExclusivity
import PromotionManagement.ProductTrace
import PromotionManagement.StorefrontReads

namespace PromotionManagement
open Library
set_option autoImplicit true

/-- The ids of a batch that is committed and whose announcement is still to be sent. -/
def Phase.toAnnounce : Phase → List Nat
  | .publishing _ ids _ => ids.reduceOption
  | _ => []

/-- The ids that the commit an invocation awaits will answer with. -/
def Phase.toLearn (indexed : Text → Nat) (db : IngestionDb) : Phase → List Nat
  | .storing run _ =>
    if UpsertRefused indexed db.products run.batch.rows then []
    else ((db.commit run.claimed.chunk run.batch).2.getD []).reduceOption
  | _ => []

namespace IngestionWorld

/-- The ids of committed products that an event gives up announcing: a publication that fails is
only logged, and a worker that dies, or never learns of its commit, sends none. -/
def givenUp (indexed : Text → Nat) (w : IngestionWorld) : IngestionEvent → List Nat
  | .published i false _ => (w.invocations i).toAnnounce
  | .fail i _ true => (w.invocations i).toLearn indexed w.db
  | .kill i applied =>
    (w.invocations i).toAnnounce ++ if applied then (w.invocations i).toLearn indexed w.db else []
  | _ => []

end IngestionWorld

/-- PostgreSQL as uploads, workers and admins write it, and the storefront that reads its products.
`created` are the products whose request is still to announce them, `unannounced` those whose
announcement was given up, and that none has named since. -/
structure ShopState where
  intake : IntakeState
  front : StorefrontState
  created : List Nat
  unannounced : List Nat

/-- What happens: a write behind the catalogue, the announcement of a created product, which may
fail, or an event of the storefront. -/
inductive ShopEvent where
  | catalogue (e : CatalogueEvent)
  | announceCreated (position : Nat) (delivered : Bool)
  | front (e : StorefrontEvent)

/-- The products as the storefront looks them up. -/
def Products.catalogue (p : Products) : Catalogue := Table.ofList ProductRow.id p.table.rows

/-- The body of a created product names a category that is not blank. -/
def CatalogueEvent.listed : CatalogueEvent → Bool
  | .createProduct input => input.category ≠ []
  | _ => true

namespace ShopState

def initial (now : Int) : ShopState where
  intake := .initial now
  front := .initial now
  created := []
  unannounced := []

def products (s : ShopState) : Products := s.intake.world.db.products

/-- The lists of ids that an event hands to `product.upserted`. -/
def announcements (s : ShopState) : ShopEvent → List (List Nat)
  | .catalogue (.intake (.ingest e)) => (s.intake.world.announcement e).map List.reduceOption
  | .announceCreated position true => s.created[position]?.toList.map fun id => [id]
  | .front (.announce (.upserted productIds)) => [productIds]
  | _ => []

/-- The ids that an event gives up announcing. -/
def givenUp (indexed : Text → Nat) (s : ShopState) : ShopEvent → List Nat
  | .catalogue (.intake (.ingest e)) => s.intake.world.givenUp indexed e
  | .announceCreated position false => s.created[position]?.toList
  | _ => []

/-- The product that an admin's insert has written. -/
def inserted (s : ShopState) : CatalogueEvent → List Nat
  | .createProduct input =>
    match (s.products.insert input).2 with
    | .ok row => [row.id]
    | _ => []
  | _ => []

/-- What an event does to the database, the requests, the queue and the storefront. -/
def moved (c : RegisterImportCommand) (w : ProcessChunkCommand) (engine : PromotionEngine)
    (s : ShopState) : ShopEvent → ShopState
  | .catalogue e =>
    if e.listed then
      let intake := s.intake.catalogue c w e
      { s with
        intake := intake
        front := { s.front with products := intake.world.db.products.catalogue }.announced
          ((s.announcements (.catalogue e)).map .upserted)
        created := s.created ++ s.inserted e }
    else s
  | .announceCreated position delivered =>
    { s with
      front := s.front.announced
        ((s.announcements (.announceCreated position delivered)).map .upserted)
      created := s.created.eraseIdx position }
  | .front e => if e.writesProducts then s else { s with front := s.front.step engine e }

def step (c : RegisterImportCommand) (w : ProcessChunkCommand) (engine : PromotionEngine)
    (s : ShopState) (e : ShopEvent) : ShopState :=
  { s.moved c w engine e with
    unannounced := (s.unannounced ++ s.givenUp w.indexed e).filter fun id =>
      id ∉ (s.announcements e).flatten }

/-- The product was written, and its announcement is yet to be sent or was given up. -/
def Unannounced (s : ShopState) (id : Nat) : Prop :=
  id ∈ s.unannounced ∨ id ∈ s.created ∨ ∃ i, id ∈ (s.intake.world.invocations i).toAnnounce

end ShopState

theorem forall₂_of_mem {R : α → β → Prop} (h : List.Forall₂ R xs ys) (hx : x ∈ xs) :
    ∃ y ∈ ys, R x y := by
  induction h with
  | nil => cases hx
  | cons hr _ ih =>
    rcases List.mem_cons.1 hx with rfl | hx
    · exact ⟨_, List.mem_cons_self, hr⟩
    · obtain ⟨y, hy, hxy⟩ := ih hx
      exact ⟨y, List.mem_cons_of_mem _ hy, hxy⟩

/-- A batch answers with the ids of all the products it writes. -/
theorem Products.upsertMany_ids {p : Products} (hr : row ∈ (p.upsertMany batch).1.table.rows)
    (hnew : row ∉ p.table.rows) : row.id ∈ (p.upsertMany batch).2.reduceOption := by
  obtain ⟨u, hu, hsku, _⟩ := (mem_upsertMany hr).resolve_left hnew
  have hmem : row.sku ∈ skusInOrder batch := by
    rw [hsku]
    exact List.mem_eraseDups.2 (List.mem_map_of_mem hu)
  obtain ⟨id, hid, row', hf, rfl⟩ := forall₂_of_mem (p.upserted_upsertMany batch).ids hmem
  obtain rfl := Table.eq_of_find hf hr rfl
  exact List.reduceOption_mem_iff.2 hid

/-- A transaction that stores its batch answers with the ids of the products it writes. -/
theorem IngestionDb.commit_ids {db : IngestionDb} {row : ProductRow}
    (hr : row ∈ (db.commit chunk batch).1.products.table.rows)
    (hnew : row ∉ db.products.table.rows) :
    ∃ ids, (db.commit chunk batch).2 = some ids ∧ row.id ∈ ids.reduceOption := by
  rw [commit] at hr ⊢
  dsimp only at hr ⊢
  split at hr
  · exact ⟨_, rfl, Products.upsertMany_ids hr hnew⟩
  · exact absurd hr hnew

namespace IngestionWorld

variable {c : ProcessChunkCommand} {w : IngestionWorld} {e : IngestionEvent}

/-- What an invocation has to announce, it announces, has still to announce, or gives up. -/
theorem toAnnounce_step {id : Nat} (c : ProcessChunkCommand) (e : IngestionEvent)
    (h : id ∈ (w.invocations i).toAnnounce) :
    id ∈ ((w.step c e).invocations i).toAnnounce ∨ id ∈ w.givenUp c.indexed e ∨
      ∃ ids ∈ w.announcement e, id ∈ ids.reduceOption := by
  by_cases hm : ∃ phase, w.moved c e = some (i, phase)
  · obtain ⟨phase, hm⟩ := hm
    obtain ⟨run, ids, leftover, hi⟩ : ∃ run ids leftover,
        w.invocations i = .publishing run ids leftover := by
      revert h
      cases w.invocations i with
      | publishing run ids leftover => exact fun _ => ⟨run, ids, leftover, rfl⟩
      | _ => exact fun h => absurd h List.not_mem_nil
    have hids : id ∈ ids.reduceOption := by
      rw [hi] at h
      exact h
    have hstep := step_moved hm
    cases e with
    | deliver j chunk =>
      rw [moved] at hm
      split at hm
      · rename_i hended
        cases hm
        rw [hi] at hended
        cases hended
      · cases hm
    | published j delivered outOfTime =>
      cases hm
      right
      cases delivered with
      | false => exact .inl h
      | true =>
        right
        have hlen : 0 < ids.length := by
          rw [List.length_pos_iff]
          rintro rfl
          cases hids
        refine ⟨ids, ?_, hids⟩
        rw [announcement, hi]
        dsimp only
        rw [if_pos (by simpa using hlen)]
        exact List.mem_singleton_self ids
    | kill j applied =>
      cases hm
      exact .inr (.inl (List.mem_append_left _ h))
    | step j =>
      cases hm
      rw [hi] at hstep
      left
      rw [hstep]
      exact hids
    | compiled j calculator =>
      cases hm
      rw [hi] at hstep
      left
      rw [hstep]
      exact hids
    | fail j reason applied =>
      cases hm
      rw [hi] at hstep
      left
      rw [hstep]
      exact hids
    | clock now => cases hm
    | completeJobIfDone jobId => cases hm
    | failJobIfExhausted jobId => cases hm
  · left
    rw [step_unmoved fun phase hmoved => hm ⟨phase, hmoved⟩]
    exact h

/-- A product that a worker writes is one it will announce, or gives up announcing. -/
theorem products_announced {row : ProductRow}
    (hr : row ∈ (w.step c e).db.products.table.rows) (hnew : row ∉ w.db.products.table.rows) :
    (∃ i, row.id ∈ ((w.step c e).invocations i).toAnnounce) ∨ row.id ∈ w.givenUp c.indexed e := by
  have hrow (hp : (w.step c e).db.products = w.db.products) : False := by
    rw [hp] at hr
    exact hnew hr
  cases hs : w.issued c e with
  | none =>
    rw [stored_of_none hs] at hrow
    exact absurd rfl hrow
  | some s =>
    rw [stored_of_issued hs] at hr hrow
    cases s with
    | commit chunk batch =>
      obtain ⟨ids, hids, hid⟩ := IngestionDb.commit_ids hr hnew
      obtain ⟨i, run, leftover, hi, rfl, rfl, hrefused, he⟩ := issued_commit hs
      have hlearn : row.id ∈ (w.invocations i).toLearn c.indexed w.db := by
        rw [hi, Phase.toLearn, if_neg hrefused, hids]
        exact hid
      rcases he with rfl | ⟨reason, rfl⟩ | rfl
      · left
        refine ⟨i, ?_⟩
        rw [step_moved rfl, hi, ProcessChunkCommand.resume, if_neg hrefused, hids]
        exact hid
      · exact .inr hlearn
      · exact .inr (List.mem_append_right _ hlearn)
    | _ => exact absurd rfl hrow

end IngestionWorld

end PromotionManagement
