import PromotionManagement.StorefrontConvergence
import PromotionManagement.StorefrontListing

namespace PromotionManagement
open Library ProductSourceRepository
set_option autoImplicit true

def StorefrontEvent.writesProducts : StorefrontEvent → Bool
  | .insertProduct _ => true
  | .updateProduct _ _ _ => true
  | _ => false

namespace StorefrontState

variable {s s' : StorefrontState} {engine : PromotionEngine} {op : ReadModelOp}

/-- A script that a read of this state issues. -/
def Reads (engine : PromotionEngine) (s : StorefrontState) (op : ReadModelOp) : Prop :=
  ∃ ids t results, s.lastReadAt < t ∧
    (∀ row ∈ (found (ProductSourceRepository.read s.products s.active ids)).rows,
      engine (ProductPricer.facts row) (results row.id)) ∧
    op ∈ ProductUpsertedHandler.scripts ids (ProductSourceRepository.read s.products s.active ids)
      t results

/-- What a read issues is the entry of a product there is, or the removal of one there is not. -/
theorem Reads.cases (h : s.Reads engine op) : s.lastReadAt < op.sourceReadAt ∧
    ((∃ row ∈ s.products.rows, ∃ entry t, op = .write entry t ∧ entry.id = row.id ∧
        ProductPricer.Prices engine (s.current row) entry) ∨
      ∃ id t, op = .remove id t ∧ ∀ row ∈ s.products.rows, row.id ≠ id) := by
  obtain ⟨ids, t, results, hlast, hengine, hop⟩ := h
  have hstamp := (ProductUpsertedHandler.of_mem_scripts hop).1
  refine ⟨hstamp ▸ hlast, ?_⟩
  rcases ProductUpsertedHandler.mem_scripts hop with ⟨row, hrow, hid, rfl⟩ | ⟨id, _, hnone, rfl⟩
  · have hfound := Table.find_some_mem (find_read hrow hid s.active)
    exact .inl ⟨row, hrow, _, t, rfl, rfl, _, hengine _ hfound, rfl⟩
  · exact .inr ⟨id, t, rfl, hnone⟩

theorem issued_setHandler (h : s'.Issued op) (hexecuted : s'.executed = s.executed)
    (horphaned : s'.orphaned = s.orphaned)
    (hhandlers : s'.handlers = Function.update s.handlers i phase)
    (hscripts : phase.scripts = []) : s.Issued op := by
  rcases h with (hop | hop) | hop
  · rw [hexecuted] at hop
    exact .inl (.inl hop)
  · rw [hhandlers] at hop
    rcases scripts_update hop with hop | hop
    · rw [hscripts] at hop
      exact absurd hop List.not_mem_nil
    · exact .inl (.inr hop)
  · rw [horphaned] at hop
    exact .inr hop

theorem issued_same (hexecuted : s'.executed = s.executed) (horphaned : s'.orphaned = s.orphaned)
    (hhandlers : s'.handlers = s.handlers) (h : s'.Issued op) : s.Issued op := by
  simpa only [Issued, Live, hexecuted, horphaned, hhandlers] using h

theorem issued_runNext (h : (s.runNext i).Issued op) : s.Issued op := by
  rw [runNext] at h
  split at h
  · rename_i ids o scripts hi
    rcases h with (hop | hop) | hop
    · rcases List.mem_append.1 hop with hop | hop
      · exact .inl (.inl hop)
      · rw [List.mem_singleton.1 hop]
        refine .inl (.inr ⟨i, ?_⟩)
        rw [hi]
        exact List.mem_cons_self
    · rcases scripts_update hop with hop | hop
      · refine .inl (.inr ⟨i, ?_⟩)
        rw [hi]
        exact List.mem_cons_of_mem _ hop
      · exact .inl (.inr hop)
    · exact .inr hop
  · exact issued_setHandler h rfl rfl rfl rfl
  · exact h

theorem issued_runOrphan (h : (s.runOrphan position).Issued op) : s.Issued op := by
  rw [runOrphan] at h
  split at h
  · rename_i o ho
    rcases h with (hop | hop) | hop
    · rcases List.mem_append.1 hop with hop | hop
      · exact .inl (.inl hop)
      · rw [List.mem_singleton.1 hop]
        exact .inr (List.mem_of_getElem? ho)
    · exact .inl (.inr hop)
    · exact .inr (List.mem_of_mem_eraseIdx hop)
  · exact h

theorem issued_kill (h : (s.kill i).Issued op) : s.Issued op := by
  rcases h with (hop | hop) | hop
  · exact .inl (.inl hop)
  · rcases scripts_update hop with hop | hop
    · exact absurd hop List.not_mem_nil
    · exact .inl (.inr hop)
  · rcases List.mem_append.1 hop with hop | hop
    · exact .inr hop
    · exact .inl (.inr ⟨i, hop⟩)

theorem next_scripts (promotionId : Nat) (found : Option PromotionRow) :
    (PromotionChangedHandler.next promotionId found).scripts = [] := by
  cases found with
  | none => rfl
  | some p =>
    rw [PromotionChangedHandler.next]
    split <;> rfl

/-- A script is issued by a read, and by nothing else. -/
theorem issued_step (e : StorefrontEvent) (h : (s.step engine e).Issued op) :
    s.Issued op ∨ s.Reads engine op ∧ (s.step engine e).products = s.products := by
  cases e with
  | clock now => exact .inl (issued_same rfl rfl rfl h)
  | insertProduct row =>
    rw [step, insertProduct] at h
    split at h
    · exact .inl (issued_same rfl rfl rfl h)
    · exact .inl h
  | updateProduct productId values provenance =>
    rw [step, updateProduct] at h
    split at h
    · exact .inl (issued_same rfl rfl rfl h)
    · exact .inl h
  | createPromotion input stamp => exact .inl (issued_same rfl rfl rfl h)
  | assignPromotion promotionId target stamp => exact .inl (issued_same rfl rfl rfl h)
  | cancelPromotion promotionId stamp => exact .inl (issued_same rfl rfl rfl h)
  | announce announcement => exact .inl (issued_same rfl rfl rfl h)
  | deliver i position =>
    rw [step, deliver] at h
    split at h
    · exact .inl (issued_setHandler h rfl rfl rfl (Announcement.scripts_start _))
    · exact .inl h
  | read i t results =>
    rw [step, read] at h ⊢
    split at h
    · rename_i ids hi
      dsimp only at h ⊢
      split at h
      · rename_i hguard
        rcases Converging.issued_writing h with hop | hop
        · exact .inl hop
        · rw [if_pos hguard]
          exact .inr ⟨⟨ids, t, results, hguard.1, hguard.2.2, hop⟩, rfl⟩
      · exact .inl h
    · exact .inl h
  | run i => exact .inl (issued_runNext h)
  | runOrphan position => exact .inl (issued_runOrphan h)
  | find i =>
    rw [step, find] at h
    split at h
    · exact .inl (issued_setHandler h rfl rfl rfl (next_scripts _ _))
    · exact .inl h
  | publish i =>
    rw [step, publish] at h
    split at h
    · exact .inl (issued_setHandler h rfl rfl rfl rfl)
    · exact .inl (issued_setHandler h rfl rfl rfl rfl)
    · exact .inl h
  | scan i =>
    rw [step, scan] at h
    split at h
    · split at h
      · exact .inl (issued_setHandler h rfl rfl rfl rfl)
      · exact .inl (issued_setHandler h rfl rfl rfl rfl)
    · exact .inl h
  | kill i => exact .inl (issued_kill h)

/-- The products change when one is inserted or updated, and at no other event. -/
theorem products_kept (engine : PromotionEngine) (s : StorefrontState)
    (he : e.writesProducts = false) : (s.step engine e).products = s.products := by
  cases e with
  | insertProduct row => cases he
  | updateProduct productId values provenance => cases he
  | read i t results =>
    rw [step, read]
    split
    · dsimp only
      split <;> rfl
    · rfl
  | deliver i position => rw [step, deliver]; split <;> rfl
  | run i => rw [step, runNext]; split <;> rfl
  | runOrphan position => rw [step, runOrphan]; split <;> rfl
  | find i => rw [step, find]; split <;> rfl
  | publish i => rw [step, publish]; split <;> rfl
  | scan i =>
    rw [step, scan]
    split
    · split <;> rfl
    · rfl
  | _ => rfl

/-- No product goes. -/
theorem products_step (e : StorefrontEvent) (h : ∃ row ∈ s.products.rows, row.id = id') :
    ∃ row ∈ (s.step engine e).products.rows, row.id = id' := by
  obtain ⟨row, hrow, rfl⟩ := h
  cases e with
  | insertProduct new =>
    rw [step, insertProduct]
    split
    · exact ⟨row, Table.mem_insert_of_mem hrow new, rfl⟩
    · exact ⟨row, hrow, rfl⟩
  | updateProduct productId values provenance =>
    rw [step, updateProduct]
    split
    · have hid := List.mem_map_of_mem hrow (f := ProductRow.id)
      rw [← Table.map_key_update s.products productId (fun _ => true)
        (assignValues values provenance) (assignValues_id values provenance)] at hid
      exact List.mem_map.1 hid
    · exact ⟨row, hrow, rfl⟩
  | _ =>
    rw [products_kept engine s rfl]
    exact ⟨row, hrow, rfl⟩

/-- A script that has run has run for good. -/
theorem executed_step (e : StorefrontEvent) : s.executed <+: (s.step engine e).executed := by
  cases e with
  | insertProduct new => rw [step, insertProduct]; split <;> exact List.prefix_rfl
  | updateProduct productId values provenance =>
    rw [step, updateProduct]
    split <;> exact List.prefix_rfl
  | read i t results =>
    rw [step, read]
    split
    · dsimp only
      split <;> exact List.prefix_rfl
    · exact List.prefix_rfl
  | deliver i position => rw [step, deliver]; split <;> exact List.prefix_rfl
  | run i =>
    rw [step, runNext]
    split
    · exact List.prefix_append _ _
    · exact List.prefix_rfl
    · exact List.prefix_rfl
  | runOrphan position =>
    rw [step, runOrphan]
    split
    · exact List.prefix_append _ _
    · exact List.prefix_rfl
  | find i => rw [step, find]; split <;> exact List.prefix_rfl
  | publish i => rw [step, publish]; split <;> exact List.prefix_rfl
  | scan i =>
    rw [step, scan]
    split
    · split <;> exact List.prefix_rfl
    · exact List.prefix_rfl
  | _ => exact List.prefix_rfl

theorem executed_run (engine : PromotionEngine) (s : StorefrontState)
    (events : List StorefrontEvent) :
    s.executed <+: (Library.run (step engine) s events).executed := by
  induction events generalizing s with
  | nil => exact List.prefix_rfl
  | cons e events ih => exact (executed_step e).trans (ih _)

/-- What is issued in a run was issued by a read of one of its states. -/
theorem issued_run (hinit : ¬s.Issued op) (events : List StorefrontEvent)
    (h : (Library.run (step engine) s events).Issued op) :
    ∃ pre e post, events = pre ++ e :: post ∧
      (Library.run (step engine) s pre).Reads engine op := by
  induction events generalizing s with
  | nil => exact absurd h hinit
  | cons e events ih =>
    by_cases hnow : (s.step engine e).Issued op
    · rcases issued_step e hnow with hop | ⟨hreads, _⟩
      · exact absurd hop hinit
      · exact ⟨[], e, events, rfl, hreads⟩
    · obtain ⟨pre, e', post, rfl, hreads⟩ := ih hnow h
      exact ⟨e :: pre, e', post, rfl, hreads⟩

end StorefrontState

open StorefrontState

/-- Every product that was ever written is still there, and was removed only before. -/
structure Issuing (s : StorefrontState) : Prop where
  kept : ∀ entry t, s.Issued (.write entry t) → ∃ row ∈ s.products.rows, row.id = entry.id
  removed : ∀ id t entry t', s.Issued (.remove id t) → s.Issued (.write entry t') →
    entry.id = id → t < t'

namespace Issuing

theorem initial (now : Int) : ¬(StorefrontState.initial now).Issued op := by
  rintro ((hop | ⟨_, hop⟩) | hop) <;> exact absurd hop List.not_mem_nil

theorem step {s : StorefrontState} (h : Issuing s) (hc : Converging engine s)
    (e : StorefrontEvent) : Issuing (s.step engine e) := by
  constructor
  · intro entry t hop
    rcases issued_step e hop with hop | ⟨hreads, hproducts⟩
    · exact products_step e (h.kept entry t hop)
    · rcases hreads.cases.2 with ⟨row, hrow, _, _, he, hid, _⟩ | ⟨id, t', he, _⟩
      · cases he
        rw [hproducts]
        exact ⟨row, hrow, hid.symm⟩
      · cases he
  · intro id t entry t' hremove hwrite hid
    rcases issued_step e hremove with hremove | ⟨hreads, _⟩
    · rcases issued_step e hwrite with hwrite | ⟨hreads', _⟩
      · exact h.removed id t entry t' hremove hwrite hid
      · exact (hc.issued _ hremove).2.trans_lt hreads'.cases.1
    · obtain ⟨hlast, hcases⟩ := hreads.cases
      rcases hcases with ⟨_, _, _, _, he, _⟩ | ⟨id', t'', he, hnone⟩
      · cases he
      · cases he
        rcases issued_step e hwrite with hwrite | ⟨hreads', _⟩
        · obtain ⟨row, hrow, hrowid⟩ := h.kept entry t' hwrite
          exact absurd (hrowid.trans hid) (hnone row hrow)
        · rcases hreads'.cases.2 with ⟨row, hrow, _, _, he, hrowid, _⟩ | ⟨_, _, he, _⟩
          · cases he
            exact absurd (hrowid.symm.trans hid) (hnone row hrow)
          · cases he

theorem run (engine : PromotionEngine) (now : Int) (events : List StorefrontEvent) :
    Issuing (Library.run (StorefrontState.step engine) (.initial now) events) := by
  have hinit : Issuing (.initial now) :=
    ⟨fun _ _ hop => absurd hop (initial now), fun _ _ _ _ hop => absurd hop (initial now)⟩
  have h := run_invariant_always (I := fun s => Converging engine s ∧ Issuing s)
    (fun s e h => ⟨h.1.step e, h.2.step h.1 e⟩) ⟨Converging.initial now, hinit⟩ events
  exact h.2

end Issuing

end PromotionManagement
