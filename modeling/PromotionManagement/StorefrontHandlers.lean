import PromotionManagement.StorefrontInvariant

namespace PromotionManagement
open Library ProductSourceRepository
set_option autoImplicit true

namespace Converging

open StorefrontState

variable {s s' : StorefrontState} {engine : PromotionEngine}

/-- The phase after a promotion has been found is sound, and leads to the products it is for. -/
theorem next_leads (h : Converging engine s) (promotionId : Nat) {phase : HandlerPhase}
    (hphase : phase =
      PromotionChangedHandler.next promotionId (s.promotions.table.find promotionId)) :
    phase.scripts = [] ∧ phase.Sound s.rows ∧
      ∀ row ∈ s.products.rows, (HandlerPhase.finding promotionId).Leads s.rows row →
        phase.Leads s.rows row := by
  subst hphase
  cases hf : s.promotions.table.find promotionId with
  | none =>
    refine ⟨rfl, trivial, ?_⟩
    rintro row _ ⟨p, hp, rfl, _⟩
    exact absurd rfl (Table.find_eq_none.1 hf p hp)
  | some p =>
    have hp : p ∈ s.rows := Table.find_some_mem hf
    have hid : p.id = promotionId := Table.find_some_key hf
    have hsame (q : PromotionRow) (hq : q ∈ s.rows) (hqid : q.id = promotionId) : q = p :=
      Table.eq_of_find hf hq hqid
    cases hprod : p.productId with
    | some productId =>
      simp only [PromotionChangedHandler.next, hprod]
      refine ⟨rfl, ⟨p, hp, hid, hprod⟩, ?_⟩
      rintro row _ ⟨q, hq, hqid, ht⟩
      rw [hsame q hq hqid, PromotionRow.Targets, hprod] at ht
      rcases ht with ht | ⟨ht, _⟩
      · exact (Option.some.inj ht).symm
      · cases ht
    | none =>
      cases hcat : p.category with
      | some category =>
        simp only [PromotionChangedHandler.next, hprod, hcat]
        refine ⟨rfl, ⟨p, hp, hid, hprod, hcat⟩, ?_⟩
        rintro row hrow ⟨q, hq, hqid, ht⟩
        rw [hsame q hq hqid, PromotionRow.Targets, hprod, hcat] at ht
        rcases ht with ht | ⟨_, ht⟩
        · cases ht
        · exact ⟨(Option.some.inj ht).symm, (h.listed row hrow).1⟩
      | none =>
        simp only [PromotionChangedHandler.next, hprod, hcat]
        refine ⟨rfl, trivial, ?_⟩
        rintro row _ ⟨q, hq, hqid, ht⟩
        rw [hsame q hq hqid, PromotionRow.Targets, hprod, hcat] at ht
        rcases ht with ht | ⟨_, ht⟩
        · cases ht
        · cases ht

theorem find (h : Converging engine s) (i : Nat) : Converging engine (s.find i) := by
  rw [StorefrontState.find]
  split
  · rename_i promotionId hi
    obtain ⟨hscripts, hsound, hleads⟩ := h.next_leads promotionId rfl
    apply h.move
    · exact ⟨rfl, rfl, rfl⟩
    · exact ⟨rfl, rfl, rfl, rfl⟩
    · rfl
    · rw [hscripts, hi]
      rfl
    · exact hsound
    · intro row hrow ho
      apply ho.setHandler
      · rfl
      · rfl
      · intro hl
        rw [hi] at hl
        exact .inr (hleads row hrow hl)
      · exact fun a ha hl => .inl ⟨a, ha, hl⟩
  · exact h

theorem scan (h : Converging engine s) (i : Nat) : Converging engine (s.scan i) := by
  rw [StorefrontState.scan]
  split
  · rename_i promotionId category afterId hi
    have hsound := h.sound i
    rw [hi] at hsound
    have hled (row : ProductRow) (hrow : row ∈ s.products.rows)
        (hl : (s.handlers i).Leads s.rows row) :
        row.values.category = category ∧
          (row.id ∈ idsInCategory s.products category afterId ∨
            ∃ last, (idsInCategory s.products category afterId).getLast? = some last ∧
              last < row.id) := by
      rw [hi] at hl
      obtain ⟨rfl, hafter⟩ := hl
      exact ⟨rfl, idsInCategory_cases hrow hafter⟩
    cases hids : idsInCategory s.products category afterId with
    | nil =>
      apply h.move
      · exact ⟨rfl, rfl, rfl⟩
      · exact ⟨rfl, rfl, rfl, rfl⟩
      · rfl
      · rw [hi]
        rfl
      · trivial
      · intro row hrow ho
        apply ho.setHandler
        · rfl
        · rfl
        · intro hl
          obtain ⟨_, hm | ⟨last, hlast, _⟩⟩ := hled row hrow hl
          · rw [hids] at hm
            exact absurd hm List.not_mem_nil
          · rw [hids] at hlast
            cases hlast
        · exact fun a ha hl => .inl ⟨a, ha, hl⟩
    | cons id ids =>
      apply h.move
      · exact ⟨rfl, rfl, rfl⟩
      · exact ⟨rfl, rfl, rfl, rfl⟩
      · rfl
      · rw [hi]
        rfl
      · exact hsound
      · intro row hrow ho
        apply ho.setHandler
        · rfl
        · rfl
        · intro hl
          have hl := hled row hrow hl
          rw [hids] at hl
          exact .inr hl
        · exact fun a ha hl => .inl ⟨a, ha, hl⟩
  · exact h

theorem publish (h : Converging engine s) (i : Nat) : Converging engine (s.publish i) := by
  rw [StorefrontState.publish]
  split
  · rename_i promotionId productId hi
    apply h.move
    · exact ⟨rfl, rfl, rfl⟩
    · exact ⟨rfl, rfl, rfl, rfl⟩
    · rfl
    · rw [hi]
      rfl
    · trivial
    · intro row _ ho
      apply ho.setHandler
      · rfl
      · rfl
      · intro hl
        rw [hi] at hl
        left
        exact ⟨_, List.mem_append_right _ (List.mem_singleton_self _), List.mem_singleton.2 hl⟩
      · exact fun a ha hl => .inl ⟨a, List.mem_append_left _ ha, hl⟩
  · rename_i promotionId category productIds hi
    have hsound := h.sound i
    rw [hi] at hsound
    apply h.move
    · exact ⟨rfl, rfl, rfl⟩
    · exact ⟨rfl, rfl, rfl, rfl⟩
    · rfl
    · rw [hi]
      rfl
    · exact hsound
    · intro row _ ho
      apply ho.setHandler
      · rfl
      · rfl
      · intro hl
        rw [hi] at hl
        obtain ⟨hc, hm | ⟨last, hlast, hlt⟩⟩ := hl
        · left
          exact ⟨_, List.mem_append_right _ (List.mem_singleton_self _), hm⟩
        · right
          rw [hlast]
          exact ⟨hc, hlt⟩
      · exact fun a ha hl => .inl ⟨a, List.mem_append_left _ ha, hl⟩
  · exact h

theorem deliver (h : Converging engine s) (i position : Nat) :
    Converging engine (s.deliver i position) := by
  rw [StorefrontState.deliver]
  split
  · rename_i announcement hi hposition
    have htaken (a : Announcement) (ha : a ∈ s.pending) :
        a = announcement ∨ a ∈ s.pending.eraseIdx position := by
      obtain ⟨hlt, hget⟩ := List.getElem?_eq_some_iff.1 hposition
      have hperm := List.getElem_cons_eraseIdx_perm hlt
      rw [hget] at hperm
      exact List.mem_cons.1 (hperm.mem_iff.2 ha)
    apply h.move
    · exact ⟨rfl, rfl, rfl⟩
    · exact ⟨rfl, rfl, rfl, rfl⟩
    · rfl
    · rw [announcement.scripts_start, hi]
      rfl
    · exact announcement.sound_start _
    · intro row _ ho
      apply ho.setHandler
      · rfl
      · rfl
      · intro hl
        rw [hi] at hl
        exact absurd hl id
      · intro a ha hl
        rcases htaken a ha with rfl | ha
        · exact .inr ((a.leads_start _ _).2 hl)
        · exact .inl ⟨a, ha, hl⟩
  · exact h

/-- A handler that dies leaves its announcement, and its scripts, behind. -/
theorem kill (h : Converging engine s) (i : Nat) : Converging engine (s.kill i) := by
  have hlive (op : ReadModelOp) (hop : (s.kill i).Live op) : s.Live op := by
    rcases hop with hop | hop
    · exact .inl hop
    · rcases scripts_update hop with hop | hop
      · exact absurd hop List.not_mem_nil
      · exact .inr hop
  have hissued (op : ReadModelOp) (hop : (s.kill i).Issued op) : s.Issued op := by
    rcases hop with hop | hop
    · exact .inl (hlive op hop)
    · rcases List.mem_append.1 hop with hop | hop
      · exact .inr hop
      · exact .inl (.inr ⟨i, hop⟩)
  have hagain (row : ProductRow)
      (hl : ∃ a ∈ (s.handlers i).announcement, a.Leads s.rows row) : (s.kill i).Owed row := by
    obtain ⟨a, ha, hl⟩ := hl
    exact .inl ⟨a, List.mem_append_right _ (Option.mem_toList.2 ha), hl⟩
  constructor
  · exact h.targeted
  · exact h.listed
  · apply sound_update h.sound
    trivial
  · exact fun op hop => h.issued op (hissued op hop)
  · exact h.represents
  · intro row hrow
    rcases h.settled row hrow with ho | hf
    · left
      apply ho.setHandler
      · rfl
      · rfl
      · intro hl
        obtain ⟨a, ha, hl⟩ := HandlerPhase.leads_announcement (h.sound i) hl
        exact .inl ⟨a, List.mem_append_right _ (Option.mem_toList.2 ha), hl⟩
      · exact fun a ha hl => .inl ⟨a, List.mem_append_left _ ha, hl⟩
    · by_cases hsent : ∃ op ∈ (s.handlers i).scripts, op.productId = row.id
      · obtain ⟨op, hop, hid⟩ := hsent
        exact .inl (hagain row (HandlerPhase.scripts_announcement (h.sound i) hop hid))
      · right
        apply hf.mono
        · rfl
        · intro op hid hop
          rcases hop with hop | hop
          · exact .inl hop
          · rcases scripts_of_update i .idle hop with hop | hop
            · exact absurd ⟨op, hop, hid⟩ hsent
            · exact .inr hop
        · exact fun op _ => hissued op

/-- A script runs, of a handler or of none. -/
theorem ran (h : Converging engine s) (hsource : SameSource s s')
    (hlast : s'.lastReadAt = s.lastReadAt)
    (hmodel : s'.readModel = execute s.readModel op) (hexecuted : s'.executed = s.executed ++ [op])
    (hop : s.Issued op) (hsound : ∀ i, (s'.handlers i).Sound s.rows)
    (hlive : ∀ op, s.Live op → s'.Live op) (hissued : ∀ op, s'.Issued op → s.Issued op)
    (howed : ∀ row, s.Owed row → s'.Owed row) : Converging engine s' := by
  constructor
  · rw [hsource.rows]
    exact h.targeted
  · rw [hsource.products]
    exact h.listed
  · rw [hsource.rows]
    exact hsound
  · intro o ho
    rw [hlast]
    exact h.issued o (hissued o ho)
  · rw [hmodel, hexecuted]
    exact h.represents.execute (fun o ho => (h.issued o (.inl (.inl ho))).1) (h.issued op hop).1
  · intro row hrow
    rw [hsource.products] at hrow
    rcases h.settled row hrow with ho | hf
    · exact .inl (howed row ho)
    · right
      apply hf.mono (hsource.current row)
      · exact fun o _ => hlive o
      · exact fun o _ => hissued o

theorem runNext (h : Converging engine s) (i : Nat) : Converging engine (s.runNext i) := by
  rw [StorefrontState.runNext]
  split
  · rename_i productIds op scripts hi
    have hsound := h.sound i
    rw [hi] at hsound
    apply h.ran
    · exact ⟨rfl, rfl, rfl⟩
    · rfl
    · rfl
    · rfl
    · left
      right
      refine ⟨i, ?_⟩
      rw [hi]
      exact List.mem_cons_self
    · apply sound_update h.sound
      exact fun o ho => hsound o (List.mem_cons_of_mem _ ho)
    · intro o ho
      rcases ho with ho | ho
      · exact .inl (List.mem_append_left _ ho)
      · rcases scripts_of_update i (.writing productIds scripts) ho with ho | ho
        · rw [hi] at ho
          rcases List.mem_cons.1 ho with rfl | ho
          · exact .inl (List.mem_append_right _ (List.mem_singleton_self _))
          · right
            refine ⟨i, ?_⟩
            rw [setHandler_self]
            exact ho
        · exact .inr ho
    · have hfirst (o : ReadModelOp) (ho : o ∈ op :: scripts) : s.Issued o := by
        refine .inl (.inr ⟨i, ?_⟩)
        rw [hi]
        exact ho
      intro o ho
      rcases ho with (ho | ho) | ho
      · rcases List.mem_append.1 ho with ho | ho
        · exact .inl (.inl ho)
        · rw [List.mem_singleton.1 ho]
          exact hfirst op List.mem_cons_self
      · rcases scripts_update ho with ho | ho
        · exact hfirst o (List.mem_cons_of_mem _ ho)
        · exact .inl (.inr ho)
      · exact .inr ho
    · intro row ho
      apply ho.elsewhere
      · rfl
      · rfl
      · exact fun a ha => ha
      · rw [hi]
        exact id
  · rename_i productIds hi
    apply h.move
    · exact ⟨rfl, rfl, rfl⟩
    · exact ⟨rfl, rfl, rfl, rfl⟩
    · rfl
    · rw [hi]
      rfl
    · trivial
    · intro row _ ho
      apply ho.elsewhere
      · rfl
      · rfl
      · exact fun a ha => ha
      · rw [hi]
        exact id
  · exact h

theorem runOrphan (h : Converging engine s) (position : Nat) :
    Converging engine (s.runOrphan position) := by
  rw [StorefrontState.runOrphan]
  split
  · rename_i op hop
    have hmem : op ∈ s.orphaned := List.mem_of_getElem? hop
    apply h.ran
    · exact ⟨rfl, rfl, rfl⟩
    · rfl
    · rfl
    · rfl
    · exact .inr hmem
    · exact h.sound
    · intro o ho
      rcases ho with ho | ho
      · exact .inl (List.mem_append_left _ ho)
      · exact .inr ho
    · intro o ho
      rcases ho with (ho | ho) | ho
      · rcases List.mem_append.1 ho with ho | ho
        · exact .inl (.inl ho)
        · rw [List.mem_singleton.1 ho]
          exact .inr hmem
      · exact .inl (.inr ho)
      · exact .inr (List.mem_of_mem_eraseIdx ho)
    · exact fun row ho => ho
  · exact h

/-- A handler that has read sends its scripts beside those sent before. -/
theorem issued_writing
    (h : (setHandler { s with lastReadAt := sourceReadAt } i (.writing ids scripts)).Issued op) :
    s.Issued op ∨ op ∈ scripts := by
  rcases h with (hop | hop) | hop
  · exact .inl (.inl (.inl hop))
  · rcases scripts_update hop with hop | hop
    · exact .inr hop
    · exact .inl (.inl (.inr hop))
  · exact .inl (.inr hop)

variable {results : Nat → List RuleResult}

/-- The script for a product that a handler has read is newer than every other. -/
theorem fresh_writing (h : Converging engine s) (hrow : row ∈ s.products.rows)
    (hid : row.id ∈ ids) (hlast : s.lastReadAt < sourceReadAt)
    (hengine : engine (ProductPricer.facts (s.current row)) (results row.id)) :
    (setHandler { s with lastReadAt := sourceReadAt } i (.writing ids
      (ProductUpsertedHandler.scripts ids (ProductSourceRepository.read s.products s.active ids)
        sourceReadAt results))).Fresh engine row := by
  refine ⟨_, sourceReadAt, ⟨results row.id, hengine, rfl⟩, ?_, ?_⟩
  · right
    refine ⟨i, ?_⟩
    rw [setHandler_self]
    exact ProductUpsertedHandler.write_mem_scripts hrow hid
  · intro op hop hopid
    rcases issued_writing hop with hop | hop
    · exact .inr ((h.issued op hop).2.trans_lt hlast)
    · left
      rcases ProductUpsertedHandler.mem_scripts hop with ⟨r, hr, _, rfl⟩ | ⟨id, _, hnone, rfl⟩
      · rw [s.products.eq_of_key hr hrow hopid]
        rfl
      · exact absurd (Eq.symm hopid) (hnone row hrow)

/-- A product that a handler has not read is owed what it was, or as fresh as it was. -/
theorem settled_writing (h : Converging engine s) (hi : s.handlers i = .reading ids)
    (hrow : row ∈ s.products.rows) (hid : row.id ∉ ids) {s' : StorefrontState}
    (hs' : s' = setHandler { s with lastReadAt := sourceReadAt } i (.writing ids
      (ProductUpsertedHandler.scripts ids (ProductSourceRepository.read s.products s.active ids)
        sourceReadAt results))) : s'.Owed row ∨ s'.Fresh engine row := by
  subst hs'
  rcases h.settled row hrow with ho | hf
  · left
    apply ho.elsewhere
    · rfl
    · rfl
    · exact fun a ha => ha
    · rw [hi]
      exact hid
  · right
    apply hf.mono
    · rfl
    · intro op _ hop
      rcases hop with hop | hop
      · exact .inl hop
      · rcases scripts_of_update i _ hop with hop | hop
        · rw [hi] at hop
          exact absurd hop List.not_mem_nil
        · exact .inr hop
    · intro op hopid hop
      rcases issued_writing hop with hop | hop
      · exact hop
      · exact absurd (hopid ▸ (ProductUpsertedHandler.of_mem_scripts hop).2) hid

theorem read (h : Converging engine s) (i sourceReadAt : Nat)
    (results : Nat → List RuleResult) :
    Converging engine (s.read engine i sourceReadAt results) := by
  rw [StorefrontState.read]
  split
  · rename_i ids hi
    dsimp only
    split
    · rename_i hguard
      obtain ⟨hlast, hmax, hengine⟩ := hguard
      constructor
      · exact h.targeted
      · exact h.listed
      · apply sound_update h.sound
        exact fun op hop => (ProductUpsertedHandler.of_mem_scripts hop).2
      · intro op hop
        rcases issued_writing hop with hop | hop
        · obtain ⟨hv, hle⟩ := h.issued op hop
          exact ⟨hv, hle.trans hlast.le⟩
        · have hv := ProductUpsertedHandler.valid_of_mem_scripts
            (fun row hrow => (h.listed row hrow).2) (Nat.zero_lt_of_lt hlast) hmax hop
          exact ⟨hv, (ProductUpsertedHandler.of_mem_scripts hop).1.le⟩
      · exact h.represents
      · intro row hrow
        by_cases hid : row.id ∈ ids
        · have hr := Table.find_some_mem (find_read hrow hid s.active)
          exact .inr (h.fresh_writing hrow hid hlast (hengine _ hr))
        · exact h.settled_writing hi hrow hid rfl
    · exact h
  · exact h

end Converging

end PromotionManagement
