import PromotionManagement.RebuildCoverage

namespace PromotionManagement
open Library ProductSourceRepository ProductReadRepository
set_option autoImplicit true

namespace RebuildState

variable {s s' : RebuildState} {rebuild : Rebuild} {begunAt : Nat}

theorem scripts_setRebuild (h : ∃ j, op ∈ ((s.setRebuild i rebuild).rebuilds j).phase.scripts) :
    op ∈ rebuild.phase.scripts ∨ ∃ j, op ∈ (s.rebuilds j).phase.scripts := by
  obtain ⟨j, hop⟩ := h
  by_cases hj : j = i
  · subst hj
    rw [setRebuild_self] at hop
    exact .inl hop
  · rw [setRebuild_of_ne _ _ hj] at hop
    exact .inr ⟨j, hop⟩

/-- What a read sends is sound once the read is logged. -/
theorem sound_scripts (hlisted : ∀ row ∈ s.products.rows, row.values.category ≠ [])
    (hlater : s.Later source) (h : op ∈ s.scripts productIds source) :
    (s.readAt source).Sound begunAt op := by
  have hat := (ProductUpsertedHandler.of_mem_scripts h).1
  constructor
  · exact ProductUpsertedHandler.valid_of_mem_scripts hlisted (Nat.zero_lt_of_lt hlater.1)
      hlater.2 h
  · exact Nat.le_of_eq hat
  · right
    refine ⟨⟨s.products, source⟩, List.mem_append_right _ (List.mem_singleton_self _), ?_⟩
    rcases ProductUpsertedHandler.mem_scripts h with ⟨row, hrow, _, he⟩ | ⟨id, _, hnone, he⟩
    · exact .inl ⟨row, hrow, he⟩
    · exact .inr ⟨id, hnone, he⟩

/-- A read sends a script for each product it was asked for. -/
theorem exists_mem_scripts (s : RebuildState) (source : SourceRead) (hid : id' ∈ productIds) :
    ∃ op ∈ s.scripts productIds source, op.productId = id' := by
  by_cases hrow : s.HasRow id'
  · obtain ⟨row, hrow, rfl⟩ := hrow
    exact ⟨_, ProductUpsertedHandler.write_mem_scripts hrow hid, rfl⟩
  · have hnone : ∀ row ∈ s.products.rows, row.id ≠ id' := fun row hr he => hrow ⟨row, hr, he⟩
    exact ⟨_, ProductUpsertedHandler.remove_mem_scripts hid hnone, rfl⟩

namespace Tracked

/-- A state that grows is tracked when what is new in it is. -/
theorem grow (h : s.Tracked begunAt) (hg : Grows s s') (hkept : ∀ made ∈ s.log, made ∈ s'.log)
    (hlisted : ∀ row ∈ s'.products.rows, 0 < row.id ∧ row.values.category ≠ [])
    (hissued : ∀ op, s'.Issued op → s.Issued op ∨ s'.Sound begunAt op)
    (hrepresents : Represents s'.readModel s'.executed)
    (hlogged : ∀ made ∈ s'.log, made ∈ s.log ∨ made.read.sourceReadAt ≤ s'.lastReadAt ∧
      ∀ row ∈ made.products.rows, s'.HasRow row.id)
    (hrebuilds : ∀ i, s'.rebuilds i = s.rebuilds i ∨ s'.Begun begunAt (s'.rebuilds i)) :
    Tracked begunAt s' := by
  constructor
  · exact h.start_le.trans hg.le
  · exact hlisted
  · intro op hop
    rcases hissued op hop with hold | hnew
    · exact (h.sound op hold).grow hg.le hkept
    · exact hnew
  · exact hrepresents
  · intro made hmade
    rcases hlogged made hmade with hold | hnew
    · obtain ⟨hle, hrows⟩ := h.logged made hold
      exact ⟨hle.trans hg.le, fun row hrow => hg.rows _ (hrows row hrow)⟩
    · exact hnew
  · intro i
    rcases hrebuilds i with hsame | hbegun
    · rw [hsame]
      exact (h.begun i).grow hg
    · exact hbegun

theorem withProducts (h : s.Tracked begunAt) (products : Catalogue)
    (hrows : ∀ id, s.HasRow id → ∃ row ∈ products.rows, row.id = id)
    (hlisted : ∀ row ∈ products.rows, 0 < row.id ∧ row.values.category ≠ []) :
    Tracked begunAt { s with products := products } := by
  have hg : Grows s { s with products := products } :=
    ⟨hrows, fun _ hop => hop, Nat.le_refl _, fun _ hm => .inl hm⟩
  exact h.grow hg (fun _ hm => hm) hlisted (fun _ hop => .inl hop) h.represents
    (fun _ hm => .inl hm) fun _ => .inl rfl

theorem withSent (h : s.Tracked begunAt) (sent : List ReadModelOp)
    (hsound : ∀ op ∈ sent, s.Sound begunAt op) : Tracked begunAt { s with sent := sent } := by
  have hg : Grows s { s with sent := sent } :=
    ⟨fun _ hid => hid, fun _ hop => hop, Nat.le_refl _, fun _ hm => .inl hm⟩
  apply h.grow hg (fun _ hm => hm) h.listed _ h.represents (fun _ hm => .inl hm) fun _ => .inl rfl
  intro op hop
  rcases hop with hop | hop | hop
  · exact .inl (.inl hop)
  · exact .inr ((hsound op hop).grow hg.le fun _ hm => hm)
  · exact .inl (.inr (.inr hop))

theorem withOpened (h : s.Tracked begunAt) (opened : List Nat) :
    Tracked begunAt { s with opened := opened } := by
  have hg : Grows s { s with opened := opened } :=
    ⟨fun _ hid => hid, fun _ hop => hop, Nat.le_refl _, fun _ hm => .inl hm⟩
  exact h.grow hg (fun _ hm => hm) h.listed (fun _ hop => .inl hop) h.represents
    (fun _ hm => .inl hm) fun _ => .inl rfl

theorem readAt (h : s.Tracked begunAt) (hlater : s.Later source) :
    Tracked begunAt (s.readAt source) := by
  have hg : Grows s (s.readAt source) := by
    refine ⟨fun _ hid => hid, fun _ hop => hop, Nat.le_of_lt hlater.1, ?_⟩
    intro made hm
    rcases List.mem_append.1 hm with hm | hm
    · exact .inl hm
    · rw [List.mem_singleton.1 hm]
      exact .inr fun _ hid => hid
  apply h.grow hg (fun _ hm => List.mem_append_left _ hm) h.listed (fun _ hop => .inl hop)
    h.represents _ fun _ => .inl rfl
  intro made hm
  rcases List.mem_append.1 hm with hm | hm
  · exact .inl hm
  · rw [List.mem_singleton.1 hm]
    exact .inr ⟨Nat.le_refl _, fun row hrow => ⟨row, hrow, rfl⟩⟩

theorem runScript (h : s.Tracked begunAt) (hop : s.Issued op) :
    Tracked begunAt (s.runScript op) := by
  have hg : Grows s (s.runScript op) :=
    ⟨fun _ hid => hid, fun _ ho => List.mem_append_left _ ho, Nat.le_refl _, fun _ hm => .inl hm⟩
  have hrepresents : Represents (s.runScript op).readModel (s.runScript op).executed :=
    h.represents.execute (fun o ho => (h.sound o (.inl ho)).valid) (h.sound op hop).valid
  apply h.grow hg (fun _ hm => hm) h.listed _ hrepresents (fun _ hm => .inl hm) fun _ => .inl rfl
  intro op' hop'
  rcases hop' with hop' | hop'
  · rcases List.mem_append.1 hop' with hop' | hop'
    · exact .inl (.inl hop')
    · rw [List.mem_singleton.1 hop']
      exact .inl hop
  · exact .inl (.inr hop')

theorem setRebuild (h : s.Tracked begunAt) (i : Nat)
    (hscripts : ∀ op ∈ rebuild.phase.scripts, s.Sound begunAt op)
    (hbegun : s.Begun begunAt rebuild) : Tracked begunAt (s.setRebuild i rebuild) := by
  have hg : Grows s (s.setRebuild i rebuild) :=
    ⟨fun _ hid => hid, fun _ hop => hop, Nat.le_refl _, fun _ hm => .inl hm⟩
  apply h.grow hg (fun _ hm => hm) h.listed _ h.represents fun _ hm => .inl hm
  · intro j
    by_cases hj : j = i
    · rw [hj, setRebuild_self]
      exact .inr (hbegun.grow hg)
    · exact .inl (setRebuild_of_ne _ _ hj)
  · intro op hop
    rcases hop with hop | hop | hop
    · exact .inl (.inl hop)
    · exact .inl (.inr (.inl hop))
    · rcases scripts_setRebuild hop with hop | hop
      · exact .inr ((hscripts op hop).grow hg.le fun _ hm => hm)
      · exact .inl (.inr (.inr hop))

theorem setPhase (h : s.Tracked begunAt) (hi : (s.rebuilds i).phase ≠ .waiting)
    (hscripts : ∀ op ∈ phase.scripts, s.Sound begunAt op)
    (hprogress : s.Progress { s.rebuilds i with phase := phase }) :
    Tracked begunAt (s.setPhase i phase) := by
  have hb := h.begun i
  exact h.setRebuild i hscripts
    ⟨fun _ => hb.since hi, hb.le, hb.kept, hb.later, hb.reads, hprogress⟩

/-- A call goes on to a phase that sends nothing. -/
theorem move (h : s.Tracked begunAt) (hi : (s.rebuilds i).phase ≠ .waiting)
    (hscripts : phase.scripts = []) (hprogress : s.Progress { s.rebuilds i with phase := phase }) :
    Tracked begunAt (s.setPhase i phase) := by
  apply h.setPhase hi _ hprogress
  rw [hscripts]
  exact fun _ hop => absurd hop List.not_mem_nil

/-- Watching the keys only narrows what is known to stay. -/
theorem watch (h : s.Tracked begunAt) :
    Tracked begunAt { s with rebuilds := fun i => s.watched (s.rebuilds i) } := by
  have hg : Grows s { s with rebuilds := fun i => s.watched (s.rebuilds i) } :=
    ⟨fun _ hid => hid, fun _ hop => hop, Nat.le_refl _, fun _ hm => .inl hm⟩
  apply h.grow hg (fun _ hm => hm) h.listed (fun _ hop => .inl hop) h.represents
    fun _ hm => .inl hm
  intro i
  exact .inr ((h.begun i).mono hg rfl rfl rfl rfl rfl fun _ hid => List.mem_of_mem_filter hid)

theorem insertProduct (h : s.Tracked begunAt) (row : ProductRow) :
    Tracked begunAt (s.insertProduct row) := by
  rw [RebuildState.insertProduct]
  split
  · rename_i hc
    have hmem (r : ProductRow) := s.products.mem_insert (s := r) row hc.2.2
    apply h.withProducts
    · rintro id ⟨r, hr, rfl⟩
      exact ⟨r, (hmem r).2 (.inl hr), rfl⟩
    · intro r hr
      rcases (hmem r).1 hr with hr | rfl
      · exact h.listed r hr
      · exact ⟨hc.1, hc.2.1⟩
  · exact h

theorem updateProduct (h : s.Tracked begunAt) (productId : Nat) (values : ProductValues)
    (provenance : Option Provenance) :
    Tracked begunAt (s.updateProduct productId values provenance) := by
  rw [RebuildState.updateProduct]
  split
  · rename_i hc
    apply h.withProducts
    · rintro id ⟨r, hr, rfl⟩
      refine ⟨_, Table.mem_update.2 ⟨r, hr, rfl⟩, ?_⟩
      split
      · rfl
      · rfl
    · intro r hr
      rcases Table.mem_update_cases _ hr with hr | ⟨old, hold, _, _, rfl⟩
      · exact h.listed r hr
      · exact ⟨(h.listed old hold).1, hc⟩
  · exact h

theorem handle (h : s.Tracked begunAt) (productIds : List Nat) (source : SourceRead) :
    Tracked begunAt (s.handle productIds source) := by
  rw [RebuildState.handle]
  split
  · rename_i hlater
    have hread := h.readAt hlater
    apply hread.withSent
    intro op hop
    rcases List.mem_append.1 hop with hop | hop
    · exact hread.sound op (.inr (.inl hop))
    · exact sound_scripts (fun row hrow => (h.listed row hrow).2) hlater hop
  · exact h

theorem run (h : s.Tracked begunAt) (position : Nat) : Tracked begunAt (s.run position) := by
  rw [RebuildState.run]
  split
  · rename_i op hop
    have hissued : s.Issued op := .inr (.inl (List.mem_of_getElem? hop))
    have hran := h.runScript hissued
    apply hran.withSent
    intro o ho
    exact hran.sound o (.inr (.inl (List.mem_of_mem_eraseIdx ho)))
  · exact h

theorem begin (h : s.Tracked begunAt) (i : Nat) : Tracked begunAt (s.begin i) := by
  rw [RebuildState.begin]
  split
  · apply h.setRebuild i (fun _ hop => absurd hop List.not_mem_nil)
    constructor
    · exact fun _ => h.start_le
    · exact Nat.le_refl _
    · exact fun row hrow => ⟨(h.listed row hrow).1, row, hrow, rfl⟩
    · intro made hmade hlt
      exact absurd (h.logged made hmade).1 (Nat.not_le.2 hlt)
    · exact fun _ ht => absurd ht List.not_mem_nil
    · refine ⟨?_, rfl⟩
      intro row hrow hle
      exact absurd (h.listed row hrow).1 (Nat.not_lt.2 hle)
  · exact h

theorem page (h : s.Tracked begunAt) (i : Nat) : Tracked begunAt (s.page i) := by
  rw [RebuildState.page]
  split
  · rename_i afterId hi
    have hwaiting : (s.rebuilds i).phase ≠ .waiting := by simp [hi]
    have hp := (h.begun i).progress
    rw [Progress, hi] at hp
    obtain ⟨hcovers, hseen⟩ := hp
    have hnext (row : ProductRow) (hrow : row ∈ (s.rebuilds i).began.rows) :
        s.Recomputed (s.rebuilds i) row.id ∨ row.id ∈ idsAfter s.products afterId ∨
          ∃ last, (idsAfter s.products afterId).getLast? = some last ∧ last < row.id := by
      rcases Nat.lt_or_ge afterId row.id with hlt | hle
      · obtain ⟨r, hr, hid⟩ := ((h.begun i).kept row hrow).2
        rw [← hid] at hlt ⊢
        exact .inr (idsAfter_cases hr hlt)
      · rcases hcovers row hrow hle with hr | hf
        · exact .inl hr
        · exact hf.elim
    dsimp only
    split
    · rename_i hnil
      apply h.move hwaiting rfl
      constructor
      · intro row hrow
        rcases hnext row hrow with hr | hm | ⟨last, hlast, _⟩
        · exact hr
        · rw [hnil] at hm
          exact absurd hm List.not_mem_nil
        · rw [hnil] at hlast
          cases hlast
      · intro id hid
        exact absurd (hseen ▸ hid) List.not_mem_nil
    · rename_i hne
      apply h.move hwaiting rfl
      refine ⟨?_, hseen⟩
      intro row hrow hle
      rcases hnext row hrow with hr | hm | ⟨last, hlast, hlt⟩
      · exact .inl hr
      · exact .inr hm
      · rw [List.getLast?_eq_some_getLast hne] at hlast
        cases hlast
        exact absurd hlt (Nat.not_lt.2 hle)
  · exact h

theorem read (h : s.Tracked begunAt) (i : Nat) (source : SourceRead) :
    Tracked begunAt (s.read i source) := by
  rw [RebuildState.read]
  split
  · rename_i pass productIds hi
    split
    · rename_i hlater
      have hread := h.readAt hlater
      have hb := hread.begun i
      have hwaiting : (s.rebuilds i).phase ≠ .waiting := by simp [hi]
      have hg := Grows.refl (s.readAt source)
      have hmore : ∀ t ∈ (s.rebuilds i).reads, t ∈ (s.rebuilds i).reads ++ [source.sourceReadAt] :=
        fun _ ht => List.mem_append_left _ ht
      have hsends (rebuild : Rebuild) (hr : source.sourceReadAt ∈ rebuild.reads) (id : Nat)
          (hid : id ∈ productIds) : Sending rebuild (s.scripts productIds source) id := by
        obtain ⟨op, hop, hopid⟩ := exists_mem_scripts s source hid
        exact ⟨op, hop, hopid, (ProductUpsertedHandler.of_mem_scripts hop).1 ▸ hr⟩
      have hnew : source.sourceReadAt ∈ (s.rebuilds i).reads ++ [source.sourceReadAt] :=
        List.mem_append_right _ (List.mem_singleton_self _)
      apply hread.setRebuild i
      · exact fun op hop => sound_scripts (fun row hrow => (h.listed row hrow).2) hlater hop
      · refine ⟨fun _ => hb.since hwaiting, hb.le, hb.kept, hb.later, ?_, ?_⟩
        · intro t ht
          rcases List.mem_append.1 ht with ht | ht
          · exact hb.reads t ht
          · rw [List.mem_singleton.1 ht]
            exact (h.begun i).le.trans_lt hlater.1
        · have hp := hb.progress
          change (s.readAt source).Progress (s.rebuilds i) at hp
          rw [Progress, hi] at hp
          cases pass with
          | pages afterId =>
            exact ⟨hp.1.mono hg rfl hmore fun id hid => .inr (hsends _ hnew id hid), hp.2⟩
          | orphans last =>
            exact ⟨hp.1.mono hg rfl hmore,
              hp.2.1.mono hg rfl hmore fun id hid => .inr (.inr (hsends _ hnew id hid)), hp.2.2⟩
    · exact h
  · exact h

theorem write (h : s.Tracked begunAt) (i : Nat) : Tracked begunAt (s.write i) := by
  rw [RebuildState.write]
  split
  · rename_i pass op scripts hi
    have hissued (o : ReadModelOp) (ho : o ∈ op :: scripts) : s.Issued o := by
      refine .inr (.inr ⟨i, ?_⟩)
      rw [hi]
      exact ho
    have hran := h.runScript (hissued op List.mem_cons_self)
    have hwaiting : (s.rebuilds i).phase ≠ .waiting := by simp [hi]
    have hg := Grows.refl (s.runScript op)
    have hnext (id : Nat) (hs : Sending (s.rebuilds i) (op :: scripts) id) :
        (s.runScript op).Recomputed (s.rebuilds i) id ∨ Sending (s.rebuilds i) scripts id := by
      obtain ⟨o, ho, hid, ht⟩ := hs
      rcases List.mem_cons.1 ho with rfl | ho
      · exact .inl ⟨o, List.mem_append_right _ (List.mem_singleton_self _), hid, ht⟩
      · exact .inr ⟨o, ho, hid, ht⟩
    apply hran.setPhase hwaiting
    · exact fun o ho =>
        (h.sound o (hissued o (List.mem_cons_of_mem _ ho))).grow (Nat.le_refl _) fun _ hm => hm
    · have hp := (hran.begun i).progress
      change (s.runScript op).Progress (s.rebuilds i) at hp
      rw [Progress, hi] at hp
      cases pass with
      | pages afterId => exact ⟨hp.1.mono hg rfl (fun _ ht => ht) hnext, hp.2⟩
      | orphans last =>
        exact ⟨hp.1, hp.2.1.mono hg rfl (fun _ ht => ht) fun id hs => .inr (hnext id hs), hp.2.2⟩
  · rename_i pass hi
    have hwaiting : (s.rebuilds i).phase ≠ .waiting := by simp [hi]
    have hg := Grows.refl s
    have hdone (id : Nat) (hs : Sending (s.rebuilds i) [] id) : False := by
      obtain ⟨o, ho, _⟩ := hs
      exact absurd ho List.not_mem_nil
    have hp := (h.begun i).progress
    rw [Progress, hi] at hp
    cases pass with
    | pages afterId =>
      apply h.move hwaiting rfl
      exact ⟨hp.1.mono hg rfl (fun _ ht => ht) fun id hs => (hdone id hs).elim, hp.2⟩
    | orphans last =>
      have hclears : s.Clears (s.rebuilds i) fun _ => False :=
        hp.2.1.mono hg rfl (fun _ ht => ht) fun id hs => (hdone id hs).elim
      cases last with
      | false =>
        apply h.move hwaiting rfl
        exact ⟨hp.1, hclears⟩
      | true =>
        apply h.move hwaiting rfl
        exact ⟨hp.1, hclears, hp.2.2⟩
  · exact h

theorem scan (h : s.Tracked begunAt) (i : Nat) (ids : List Nat) (last : Bool) :
    Tracked begunAt (s.scan i ids last) := by
  rw [RebuildState.scan]
  split
  · rename_i hi
    split
    · rename_i hc
      have hb := h.begun i
      have hwaiting : (s.rebuilds i).phase ≠ .waiting := by simp [hi]
      have hp := hb.progress
      rw [Progress, hi] at hp
      apply h.setRebuild i (fun _ hop => absurd hop List.not_mem_nil)
      refine ⟨fun _ => hb.since hwaiting, hb.le, hb.kept, hb.later, hb.reads, hp.1, ?_, hc.2⟩
      intro id hid
      rcases List.mem_append.1 hid with hid | hid
      · rcases hp.2 id hid with hr | hr | hf
        · exact .inl hr
        · exact .inr (.inl hr)
        · exact hf.elim
      · exact .inr (.inr hid)
    · exact h
  · exact h

theorem look (h : s.Tracked begunAt) (i : Nat) : Tracked begunAt (s.look i) := by
  rw [RebuildState.look]
  split
  · rename_i ids last hi
    have hwaiting : (s.rebuilds i).phase ≠ .waiting := by simp [hi]
    have hp := (h.begun i).progress
    rw [Progress, hi] at hp
    obtain ⟨hall, hclears, hreturned⟩ := hp
    have horphan (id : Nat) (hid : id ∈ (s.rebuilds i).seen) :
        s.HasRow id ∨ s.Recomputed (s.rebuilds i) id ∨
          id ∈ ids.filter fun id => id ∉ presentIds s.products ids := by
      rcases hclears id hid with hr | hr | hm
      · exact .inl hr
      · exact .inr (.inl hr)
      · by_cases hpresent : id ∈ presentIds s.products ids
        · exact .inl (mem_presentIds.1 hpresent).2
        · exact .inr (.inr (List.mem_filter.2 ⟨hm, decide_eq_true hpresent⟩))
    dsimp only
    split
    · rename_i hnil
      have hcleared : s.Clears (s.rebuilds i) fun _ => False := by
        intro id hid
        rcases horphan id hid with hr | hr | hm
        · exact .inl hr
        · exact .inr (.inl hr)
        · rw [hnil] at hm
          exact absurd hm List.not_mem_nil
      cases last with
      | false =>
        apply h.move hwaiting rfl
        exact ⟨hall, hcleared⟩
      | true =>
        apply h.move hwaiting rfl
        exact ⟨hall, hcleared, hreturned⟩
    · apply h.move hwaiting rfl
      exact ⟨hall, horphan, hreturned⟩
  · exact h

theorem publish (h : s.Tracked begunAt) (i : Nat) : Tracked begunAt (s.publish i) := by
  rw [RebuildState.publish]
  split
  · rename_i hi
    have hwaiting : (s.rebuilds i).phase ≠ .waiting := by simp [hi]
    exact (h.withOpened (s.opened ++ [i])).move hwaiting rfl trivial
  · exact h

theorem throw (h : s.Tracked begunAt) (i : Nat) : Tracked begunAt (s.throw i) := by
  rw [RebuildState.throw]
  split
  · exact h
  · exact h
  · exact h
  · rename_i hwaiting _ _
    have hsent : ∀ op ∈ s.sent ++ (s.rebuilds i).phase.scripts, s.Sound begunAt op := by
      intro op hop
      rcases List.mem_append.1 hop with hop | hop
      · exact h.sound op (.inr (.inl hop))
      · exact h.sound op (.inr (.inr ⟨i, hop⟩))
    exact (h.withSent _ hsent).move hwaiting rfl trivial

theorem act (h : s.Tracked begunAt) (e : RebuildEvent) : Tracked begunAt (s.act e) := by
  cases e with
  | insertProduct row => exact h.insertProduct row
  | updateProduct productId values provenance => exact h.updateProduct productId values provenance
  | handle productIds source => exact h.handle productIds source
  | run position => exact h.run position
  | begin i => exact h.begin i
  | page i => exact h.page i
  | read i source => exact h.read i source
  | write i => exact h.write i
  | scan i ids last => exact h.scan i ids last
  | look i => exact h.look i
  | publish i => exact h.publish i
  | throw i => exact h.throw i

theorem step (h : s.Tracked begunAt) (e : RebuildEvent) : Tracked begunAt (s.step e) :=
  (h.act e).watch

theorem runAll (h : s.Tracked begunAt) (events : List RebuildEvent) :
    Tracked begunAt (Library.run RebuildState.step s events) :=
  run_invariant_always (fun _ e ht => ht.step e) h events

end Tracked

end RebuildState

end PromotionManagement
