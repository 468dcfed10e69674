import PromotionManagement.RebuildSteps

namespace PromotionManagement
open Library ProductSourceRepository ProductReadRepository
set_option autoImplicit true

/-- What a step leaves of a call that has begun. -/
structure Rebuild.Goes (before after : Rebuild) : Prop where
  began : after.began = before.began
  beganAt : after.beganAt = before.beganAt
  steady : after.steady = before.steady
  seen : ∀ id ∈ before.seen, id ∈ after.seen
  begun : after.phase ≠ .waiting
  ended : before.phase = .published ∨ before.phase = .failed → after.phase = before.phase

theorem RebuildPass.next_ne_waiting (pass : RebuildPass) : pass.next ≠ .waiting := by
  cases pass with
  | pages afterId => simp [RebuildPass.next]
  | orphans last => cases last <;> simp [RebuildPass.next]

namespace RebuildState

variable {s s' : RebuildState} {begunAt : Nat}

/-- The key is there, or the call's `SCAN` has returned it. -/
def Stays (i id : Nat) (s : RebuildState) : Prop :=
  s.present id ∨ id ∈ (s.rebuilds i).seen

instance (i id : Nat) (s : RebuildState) : Decidable (Stays i id s) :=
  inferInstanceAs (Decidable (_ ∨ _))

theorem Goes.refl {rebuild : Rebuild} (h : rebuild.phase ≠ .waiting) : rebuild.Goes rebuild :=
  ⟨rfl, rfl, rfl, fun _ hid => hid, h, fun _ => rfl⟩

/-- A call begins with what is there, and goes on in a way that `Goes` describes. -/
def Moves (s : RebuildState) (j : Nat) (rebuild : Rebuild) : Prop :=
  (s.rebuilds j).phase = .waiting ∧
      rebuild = ⟨s.products, s.lastReadAt, [], [], s.keys, .paging 0⟩ ∨
    (s.rebuilds j).Goes rebuild

/-- What a step does to the calls: nothing, one of them moves, or one sets the key. -/
inductive Changes (s s' : RebuildState) : Prop where
  | same (hrebuilds : s'.rebuilds = s.rebuilds) (hopened : s'.opened = s.opened)
  | moved (j : Nat) (rebuild : Rebuild) (hmoves : s.Moves j rebuild)
      (hrebuilds : s'.rebuilds = Function.update s.rebuilds j rebuild)
      (hopened : s'.opened = s.opened)
  | published (j : Nat) (hphase : (s.rebuilds j).phase = .publishing)
      (hrebuilds : s'.rebuilds =
        Function.update s.rebuilds j { s.rebuilds j with phase := .published })
      (hopened : s'.opened = s.opened ++ [j])

theorem moves_setPhase (hphase : phase ≠ .waiting)
    (hended : (s.rebuilds j).phase ≠ .published ∧ (s.rebuilds j).phase ≠ .failed) :
    s.Moves j { s.rebuilds j with phase := phase } :=
  .inr ⟨rfl, rfl, rfl, fun _ hid => hid, hphase,
    fun he => he.elim (absurd · hended.1) (absurd · hended.2)⟩

theorem act_changes (s : RebuildState) (e : RebuildEvent) : s.Changes (s.act e) := by
  cases e with
  | insertProduct row =>
    rw [act, insertProduct]
    split <;> exact .same rfl rfl
  | updateProduct productId values provenance =>
    rw [act, updateProduct]
    split <;> exact .same rfl rfl
  | handle productIds source =>
    rw [act, handle]
    split <;> exact .same rfl rfl
  | run position =>
    rw [act, run]
    split <;> exact .same rfl rfl
  | begin j =>
    rw [act, begin]
    split
    · rename_i hj
      exact .moved j _ (.inl ⟨hj, rfl⟩) rfl rfl
    · exact .same rfl rfl
  | page j =>
    rw [act, page]
    split
    · rename_i hj
      dsimp only
      split
      · exact .moved j _ (moves_setPhase (by simp) (by simp [hj])) rfl rfl
      · exact .moved j _ (moves_setPhase (by simp) (by simp [hj])) rfl rfl
    · exact .same rfl rfl
  | read j source =>
    rw [act, read]
    split
    · rename_i hj
      split
      · refine .moved j _ (.inr ?_) rfl rfl
        exact ⟨rfl, rfl, rfl, fun _ hid => hid, by simp, by simp [hj]⟩
      · exact .same rfl rfl
    · exact .same rfl rfl
  | write j =>
    rw [act, write]
    split
    · rename_i hj
      exact .moved j _ (moves_setPhase (by simp) (by simp [hj])) rfl rfl
    · rename_i pass hj
      exact .moved j _ (moves_setPhase pass.next_ne_waiting (by simp [hj])) rfl rfl
    · exact .same rfl rfl
  | scan j ids last =>
    rw [act, scan]
    split
    · rename_i hj
      split
      · refine .moved j _ (.inr ?_) rfl rfl
        exact ⟨rfl, rfl, rfl, fun _ hid => List.mem_append_left _ hid, by simp, by simp [hj]⟩
      · exact .same rfl rfl
    · exact .same rfl rfl
  | look j =>
    rw [act, look]
    split
    · rename_i hj
      dsimp only
      split
      · exact .moved j _ (moves_setPhase (RebuildPass.next_ne_waiting _) (by simp [hj])) rfl rfl
      · exact .moved j _ (moves_setPhase (by simp) (by simp [hj])) rfl rfl
    · exact .same rfl rfl
  | publish j =>
    rw [act, publish]
    split
    · rename_i hj
      exact .published j hj rfl rfl
    · exact .same rfl rfl
  | throw j =>
    rw [act, throw]
    split
    · exact .same rfl rfl
    · exact .same rfl rfl
    · exact .same rfl rfl
    · rename_i _ hpublished hfailed
      exact .moved j _ (moves_setPhase (by simp) ⟨hpublished, hfailed⟩) rfl rfl

theorem act_goes (h : (s.rebuilds i).phase ≠ .waiting) (e : RebuildEvent) :
    (s.rebuilds i).Goes ((s.act e).rebuilds i) := by
  cases act_changes s e with
  | same hrebuilds _ =>
    rw [hrebuilds]
    exact Goes.refl h
  | moved j rebuild hmoves hrebuilds _ =>
    rw [hrebuilds]
    by_cases hj : i = j
    · subst hj
      rw [Function.update_self]
      exact hmoves.resolve_left fun hw => h hw.1
    · rw [Function.update_of_ne hj]
      exact Goes.refl h
  | published j hphase hrebuilds _ =>
    rw [hrebuilds]
    by_cases hj : i = j
    · subst hj
      rw [Function.update_self]
      exact ⟨rfl, rfl, rfl, fun _ hid => hid, by simp, by simp [hphase]⟩
    · rw [Function.update_of_ne hj]
      exact Goes.refl h

theorem start_tracked {products : Catalogue} {lastReadAt : Nat}
    {executed sent : List ReadModelOp}
    (hlisted : ∀ row ∈ products.rows, 0 < row.id ∧ row.values.category ≠ [])
    (hsent : ∀ op ∈ executed ++ sent, op.Valid ∧ op.sourceReadAt ≤ lastReadAt) :
    Tracked lastReadAt (start products lastReadAt executed sent) := by
  constructor
  · exact Nat.le_refl _
  · exact hlisted
  · intro op hop
    have hmem : op ∈ executed ++ sent := by
      rcases hop with hop | hop | ⟨_, hop⟩
      · exact List.mem_append_left _ hop
      · exact List.mem_append_right _ hop
      · exact absurd hop List.not_mem_nil
    exact ⟨(hsent op hmem).1, (hsent op hmem).2, .inl (hsent op hmem).2⟩
  · exact represents_run fun op hop => (hsent op (List.mem_append_left _ hop)).1
  · exact fun made hmade => absurd hmade List.not_mem_nil
  · intro i
    constructor
    · exact fun h => absurd rfl h
    · exact Nat.zero_le _
    · exact fun row hrow => absurd hrow List.not_mem_nil
    · exact fun made hmade => absurd hmade List.not_mem_nil
    · exact fun t ht => absurd ht List.not_mem_nil
    · trivial

/-- A key that is there was written by a script that has run. -/
theorem Tracked.mem_keys (h : s.Tracked begunAt) (hp : s.present id') : id' ∈ s.keys := by
  apply List.mem_filter.2 ⟨_, hp⟩
  rw [List.mem_dedup, List.mem_map]
  rw [present, RedisStore.hget, (h.represents.holds id').entry] at hp
  cases hnewest : newestOp s.executed id' with
  | none =>
    rw [hnewest] at hp
    cases hp
  | some op => exact ⟨op, newest_mem hnewest⟩

theorem act_begin (h : (s.rebuilds i).phase = .waiting) :
    (s.act (.begin i)).rebuilds i =
      ⟨s.products, s.lastReadAt, [], [], s.keys, .paging 0⟩ := by
  simp only [act, begin, h, setRebuild_self]

/-- A call keeps what it began with. -/
theorem run_began (h : (s.rebuilds i).phase ≠ .waiting) (events : List RebuildEvent) :
    ((Library.run step s events).rebuilds i).phase ≠ .waiting ∧
      ((Library.run step s events).rebuilds i).began = (s.rebuilds i).began ∧
      ((Library.run step s events).rebuilds i).beganAt = (s.rebuilds i).beganAt := by
  have hkeep (t : RebuildState) (e : RebuildEvent)
      (ht : (t.rebuilds i).phase ≠ .waiting ∧ (t.rebuilds i).began = (s.rebuilds i).began ∧
        (t.rebuilds i).beganAt = (s.rebuilds i).beganAt) :
      ((t.step e).rebuilds i).phase ≠ .waiting ∧
        ((t.step e).rebuilds i).began = (s.rebuilds i).began ∧
        ((t.step e).rebuilds i).beganAt = (s.rebuilds i).beganAt := by
    have hg := act_goes ht.1 e
    exact ⟨hg.begun, hg.began.trans ht.2.1, hg.beganAt.trans ht.2.2⟩
  exact run_invariant_always hkeep ⟨h, rfl, rfl⟩ events

/-- A key that stays until it is returned is known to. -/
theorem run_steady (h : (s.rebuilds i).phase ≠ .waiting) (hid : id' ∈ (s.rebuilds i).steady)
    (hstays : Along step (fun s e => (s.step e).Stays i id') s events) :
    id' ∈ ((Library.run step s events).rebuilds i).steady := by
  have hkeep (t : RebuildState) (e : RebuildEvent)
      (ht : (t.rebuilds i).phase ≠ .waiting ∧ id' ∈ (t.rebuilds i).steady)
      (hs : (t.step e).Stays i id') :
      ((t.step e).rebuilds i).phase ≠ .waiting ∧ id' ∈ ((t.step e).rebuilds i).steady := by
    have hg := act_goes ht.1 e
    refine ⟨hg.begun, List.mem_filter.2 ⟨hg.steady ▸ ht.2, ?_⟩⟩
    rw [Bool.or_eq_true, decide_eq_true_eq]
    exact hs.symm
  exact (run_invariant hkeep ⟨h, hid⟩ hstays).2

/-- The newest script of a product recomputed by a call is one that a read since has sent. -/
theorem Tracked.newest (h : s.Tracked begunAt) (hi : (s.rebuilds i).phase ≠ .waiting)
    (hr : s.Recomputed (s.rebuilds i) id') : ∃ op, newestOp s.executed id' = some op ∧
      (∃ t ∈ (s.rebuilds i).reads, (s.rebuilds i).beganAt < t ∧ t ≤ op.sourceReadAt) ∧
      ∃ made ∈ s.log, made.Sends op := by
  obtain ⟨op, hop, hid, ht⟩ := hr
  have hb := h.begun i
  obtain ⟨newest, hnewest, hle⟩ : ∃ b, newestOp s.executed id' = some b ∧
    op.sourceReadAt ≤ b.sourceReadAt := le_newest hop hid
  refine ⟨newest, hnewest, ⟨_, ht, hb.reads _ ht, hle⟩, ?_⟩
  rcases (h.sound newest (.inl (newest_mem hnewest).1)).sent with hold | hmade
  · have hlt := (hb.since hi).trans_lt ((hb.reads _ ht).trans_le hle)
    exact absurd hold (Nat.not_le.2 hlt)
  · exact hmade

/-- A product of the beginning that has been recomputed holds what a read since has found. -/
theorem Tracked.written (h : s.Tracked begunAt) (hi : (s.rebuilds i).phase ≠ .waiting)
    (hrow : row ∈ (s.rebuilds i).began.rows) (hr : s.Recomputed (s.rebuilds i) row.id) :
    ∃ made ∈ s.log, ∃ r ∈ made.products.rows, r.id = row.id ∧
      (∃ t ∈ (s.rebuilds i).reads,
        (s.rebuilds i).beganAt < t ∧ t ≤ made.read.sourceReadAt) ∧
      Holds s.readModel row.id (some (.write (ProductPricer.price
        (current made.read.active r) (made.read.results r.id)) made.read.sourceReadAt)) := by
  obtain ⟨op, hnewest, ⟨t, ht, hlt, hle⟩, made, hmade, hsends⟩ := h.newest hi hr
  have hholds := h.represents.holds row.id
  rw [hnewest] at hholds
  rw [hsends.sourceReadAt] at hle
  rcases hsends with ⟨r, hr, rfl⟩ | ⟨id, hnone, rfl⟩
  · exact ⟨made, hmade, r, hr, (newest_mem hnewest).2, ⟨t, ht, hlt, hle⟩, hholds⟩
  · have hid : id = row.id := (newest_mem hnewest).2
    obtain ⟨r, hr, hrid⟩ := (h.begun i).later made hmade (hlt.trans_le hle) row hrow
    exact absurd (hrid.trans hid.symm) (hnone r hr)

/-- A product without a row that has been recomputed is gone, with a tombstone. -/
theorem Tracked.removed (h : s.Tracked begunAt) (hi : (s.rebuilds i).phase ≠ .waiting)
    (hnone : ∀ row ∈ s.products.rows, row.id ≠ id') (hr : s.Recomputed (s.rebuilds i) id') :
    ∃ sourceReadAt, Holds s.readModel id' (some (.remove id' sourceReadAt)) ∧
      ∃ t ∈ (s.rebuilds i).reads, t ≤ sourceReadAt := by
  obtain ⟨op, hnewest, ⟨t, ht, _, hle⟩, made, hmade, hsends⟩ := h.newest hi hr
  have hholds := h.represents.holds id'
  rw [hnewest] at hholds
  have hid := (newest_mem hnewest).2
  rcases hsends with ⟨r, hr, rfl⟩ | ⟨id, _, rfl⟩
  · obtain ⟨row, hrow, he⟩ := (h.logged made hmade).2 r hr
    exact absurd (he.trans hid) (hnone row hrow)
  · obtain rfl : id = id' := hid
    exact ⟨_, hholds, t, ht, hle⟩

/-- A call that has set the key has published, and one that has failed never sets it. -/
theorem opened_published (products : Catalogue) (lastReadAt : Nat)
    (executed sent : List ReadModelOp) (events : List RebuildEvent) :
    ∀ i ∈ (Library.run step (start products lastReadAt executed sent) events).opened,
      ((Library.run step (start products lastReadAt executed sent) events).rebuilds i).phase =
        .published := by
  have hkeep (s : RebuildState) (e : RebuildEvent)
      (hs : ∀ i ∈ s.opened, (s.rebuilds i).phase = .published) :
      ∀ i ∈ (s.step e).opened, ((s.step e).rebuilds i).phase = .published := by
    have hold (i : Nat) (hi : i ∈ s.opened) : ((s.act e).rebuilds i).phase = .published := by
      have hne : (s.rebuilds i).phase ≠ .waiting := by simp [hs i hi]
      exact ((act_goes hne e).ended (.inl (hs i hi))).trans (hs i hi)
    intro i hi
    change i ∈ (s.act e).opened at hi
    change ((s.act e).rebuilds i).phase = .published
    cases act_changes s e with
    | same _ hopened => exact hold i (hopened ▸ hi)
    | moved j rebuild _ _ hopened => exact hold i (hopened ▸ hi)
    | published j _ hrebuilds hopened =>
      rw [hopened] at hi
      rcases List.mem_append.1 hi with hi | hi
      · exact hold i hi
      · rw [List.mem_singleton.1 hi, hrebuilds, Function.update_self]
  exact run_invariant_always hkeep (fun i hi => absurd hi List.not_mem_nil) events

theorem run_failed (h : (s.rebuilds i).phase = .failed) (events : List RebuildEvent) :
    ((Library.run step s events).rebuilds i).phase = .failed := by
  have hkeep (t : RebuildState) (e : RebuildEvent) (ht : (t.rebuilds i).phase = .failed) :
      ((t.step e).rebuilds i).phase = .failed := by
    have hne : (t.rebuilds i).phase ≠ .waiting := by simp [ht]
    exact ((act_goes hne e).ended (.inr ht)).trans ht
  exact run_invariant_always hkeep h events

theorem publishing_of_opened (hnot : i ∉ s.opened) (hset : i ∈ (s.step e).opened) :
    (s.rebuilds i).phase = .publishing := by
  change i ∈ (s.act e).opened at hset
  cases act_changes s e with
  | same _ hopened => exact absurd (hopened ▸ hset) hnot
  | moved j rebuild _ _ hopened => exact absurd (hopened ▸ hset) hnot
  | published j hphase _ hopened =>
    rw [hopened] at hset
    rcases List.mem_append.1 hset with hi | hi
    · exact absurd hi hnot
    · rw [List.mem_singleton.1 hi]
      exact hphase

theorem ne_waiting (h : (s.rebuilds i).phase = .publishing) : (s.rebuilds i).phase ≠ .waiting := by
  simp [h]

theorem act_throw (hwaiting : (s.rebuilds i).phase ≠ .waiting)
    (hpublished : (s.rebuilds i).phase ≠ .published) :
    ((s.step (.throw i)).rebuilds i).phase = .failed := by
  change ((s.act (.throw i)).rebuilds i).phase = .failed
  rw [act, throw]
  split
  · rename_i h
    exact absurd h hwaiting
  · rename_i h
    exact absurd h hpublished
  · rename_i h
    exact h
  · rw [setPhase, setRebuild_self]

/-- A call begins with the catalogue and the newest read of that moment, and knows the keys that
stay until they are returned. -/
theorem run_begin (h : s.Tracked begunAt) (hwaiting : (s.rebuilds i).phase = .waiting)
    (during : List RebuildEvent) :
    ((Library.run step s (.begin i :: during)).rebuilds i).began = s.products ∧
      ((Library.run step s (.begin i :: during)).rebuilds i).beganAt = s.lastReadAt ∧
      ∀ id, s.present id →
        Along step (fun s e => (s.step e).Stays i id) s (.begin i :: during) →
        id ∈ ((Library.run step s (.begin i :: during)).rebuilds i).steady := by
  have hbegin := act_begin hwaiting
  have hne : ((s.step (.begin i)).rebuilds i).phase ≠ .waiting := by
    change ((s.act (.begin i)).rebuilds i).phase ≠ .waiting
    simp [hbegin]
  obtain ⟨_, hbegan, hbeganAt⟩ := run_began hne during
  refine ⟨hbegan.trans (congrArg Rebuild.began hbegin),
    hbeganAt.trans (congrArg Rebuild.beganAt hbegin), ?_⟩
  intro id hpresent ⟨hfirst, hstays⟩
  apply run_steady hne _ hstays
  have hsteady : ((s.act (.begin i)).rebuilds i).steady = s.keys := congrArg Rebuild.steady hbegin
  apply List.mem_filter.2 ⟨hsteady ▸ h.mem_keys hpresent, _⟩
  rw [Bool.or_eq_true, decide_eq_true_eq]
  exact hfirst.symm

/-- In every interleaving of rebuilds, handlers, inserts and updates, the step by which a call sets
`readmodel:ready` finds every product that was there when the call began with an entry no older
than one of its reads, computed from what was read since, and every key that was there throughout
with no row behind it gone, with a tombstone. A call that throws never sets the key. -/
theorem no_half_built_storefront (products : Catalogue) (lastReadAt : Nat)
    (executed sent : List ReadModelOp)
    (hlisted : ∀ row ∈ products.rows, 0 < row.id ∧ row.values.category ≠ [])
    (hsent : ∀ op ∈ executed ++ sent, op.Valid ∧ op.sourceReadAt ≤ lastReadAt) :
    (∀ before during i e s₀ s,
      s₀ = Library.run step (start products lastReadAt executed sent) before →
      (s₀.rebuilds i).phase = .waiting → s = Library.run step s₀ (.begin i :: during) →
      i ∉ s.opened → i ∈ (s.step e).opened →
      (∀ row ∈ s₀.products.rows, ∃ made ∈ s.log, ∃ r ∈ made.products.rows, r.id = row.id ∧
        (∃ t ∈ (s.rebuilds i).reads, s₀.lastReadAt < t ∧ t ≤ made.read.sourceReadAt) ∧
        Holds s.readModel row.id (some (.write (ProductPricer.price
          (current made.read.active r) (made.read.results r.id)) made.read.sourceReadAt))) ∧
      ∀ id, s₀.present id →
        Along step (fun s e => (s.step e).Stays i id) s₀ (.begin i :: during) →
        (∀ row ∈ s.products.rows, row.id ≠ id) →
        ∃ sourceReadAt, Holds s.readModel id (some (.remove id sourceReadAt)) ∧
          ∃ t ∈ (s.rebuilds i).reads, t ≤ sourceReadAt) ∧
    ∀ before i after s₀, s₀ = Library.run step (start products lastReadAt executed sent) before →
      (s₀.rebuilds i).phase ≠ .waiting → (s₀.rebuilds i).phase ≠ .published →
      i ∉ (Library.run step s₀ (.throw i :: after)).opened := by
  have hstart := start_tracked hlisted hsent
  refine ⟨?_, ?_⟩
  · rintro before during i e s₀ s rfl hwaiting rfl hnot hset
    have h₀ := hstart.runAll before
    have h := h₀.runAll (.begin i :: during)
    have hphase := publishing_of_opened hnot hset
    have hne := ne_waiting hphase
    obtain ⟨hbegan, hbeganAt, hsteady⟩ := run_begin h₀ hwaiting during
    have hp := (h.begun i).progress
    rw [Progress, hphase] at hp
    obtain ⟨hcovers, hclears, hreturned⟩ := hp
    constructor
    · intro row hrow
      rw [← hbegan] at hrow
      rw [← hbeganAt]
      exact h.written hne hrow (hcovers row hrow)
    · intro id hpresent hstays hnone
      have hseen := hreturned rfl id (hsteady id hpresent hstays)
      rcases hclears id hseen with ⟨row, hrow, hid⟩ | hr | hf
      · exact absurd hid (hnone row hrow)
      · exact h.removed hne hnone hr
      · exact hf.elim
  · rintro before i after s₀ rfl hwaiting hpublished hset
    have hfailed := run_failed (act_throw hwaiting hpublished) after
    have hopened := opened_published products lastReadAt executed sent
      (before ++ .throw i :: after) i
    rw [run_append] at hopened
    cases (hopened hset).symm.trans hfailed

def hat (id : Nat) : ProductRow := ⟨id, ['S'], ⟨['N'], ['a'], 1000, 5, none⟩, none⟩

def hats : Catalogue := Table.insert .empty (hat 1)

def plainRead (sourceReadAt : Nat) : SourceRead := ⟨sourceReadAt, [], fun _ => []⟩

/-- A handler overtakes the write of product 1, product 3 is created after the last page, and
product 2 has a key and no row. -/
def overtaken : List RebuildEvent :=
  [.page 0, .read 0 (plainRead 10), .handle [1] (plainRead 11), .run 0, .write 0, .write 0, .page 0,
    .insertProduct (hat 3), .scan 0 [1, 2] true, .look 0, .read 0 (plainRead 12), .write 0,
    .write 0]

theorem no_half_built_storefront_overtaken :
    (∃ active r results sourceReadAt, Holds (Library.run step
      (start hats 5 [.write (sampleEntry 2 ['a'] 900) 3] []) (.begin 0 :: overtaken)).readModel 1
      (some (.write (ProductPricer.price (current active r) results) sourceReadAt))) ∧
    ∃ sourceReadAt, Holds (Library.run step
      (start hats 5 [.write (sampleEntry 2 ['a'] 900) 3] []) (.begin 0 :: overtaken)).readModel 2
      (some (.remove 2 sourceReadAt)) := by
  have hvalid : (ReadModelOp.write (sampleEntry 2 ['a'] 900) 3).Valid :=
    ⟨List.cons_ne_nil _ _, by decide, by decide⟩
  obtain ⟨hready, _⟩ := no_half_built_storefront hats 5 [.write (sampleEntry 2 ['a'] 900) 3] []
    (by decide) (List.forall_mem_singleton.2 ⟨hvalid, by decide⟩)
  obtain ⟨hrows, hkeys⟩ := hready [] overtaken 0 (.publish 0) _ _ rfl rfl rfl
    (by decide +kernel) (by decide +kernel)
  obtain ⟨made, _, r, _, _, _, hholds⟩ := hrows (hat 1) (List.mem_singleton_self _)
  obtain ⟨sourceReadAt, hgone, _⟩ := hkeys 2 (by decide +kernel) (by decide +kernel)
    (by decide +kernel)
  exact ⟨⟨_, r, _, _, hholds⟩, sourceReadAt, hgone⟩

end RebuildState

end PromotionManagement
