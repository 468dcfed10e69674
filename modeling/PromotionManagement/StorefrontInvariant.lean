import PromotionManagement.LastReadWins
import PromotionManagement.Storefront

namespace PromotionManagement
open Library ProductSourceRepository
set_option autoImplicit true

/-- The promotion is for the product, or for the category it is in. -/
def PromotionRow.Targets (p : PromotionRow) (row : ProductRow) : Prop :=
  p.productId = some row.id ∨ p.productId = none ∧ p.category = some row.values.category

/-- A promotion has one target at most, and none while it is a draft. -/
def PromotionRow.Targeted (p : PromotionRow) : Prop :=
  (p.productId = none ∨ p.category = none) ∧
    (p.status = .draft → p.productId = none ∧ p.category = none)

/-- Handling the announcement will recompute the product. -/
def Announcement.Leads (promotions : List PromotionRow) (row : ProductRow) :
    Announcement → Prop
  | .upserted productIds => row.id ∈ productIds
  | .changed promotionId => ∃ p ∈ promotions, p.id = promotionId ∧ p.Targets row

namespace HandlerPhase

/-- The handler will read the product, or announce it. -/
def Leads (promotions : List PromotionRow) (row : ProductRow) : HandlerPhase → Prop
  | .idle => False
  | .reading productIds => row.id ∈ productIds
  | .writing _ _ => False
  | .finding promotionId => ∃ p ∈ promotions, p.id = promotionId ∧ p.Targets row
  | .publishing _ productId => row.id = productId
  | .scanning _ category afterId => row.values.category = category ∧ afterId < row.id
  | .paging _ category productIds =>
    row.values.category = category ∧
      (row.id ∈ productIds ∨ ∃ last, productIds.getLast? = some last ∧ last < row.id)

/-- What a handler holds comes from its announcement. -/
def Sound (promotions : List PromotionRow) : HandlerPhase → Prop
  | .writing productIds scripts => ∀ op ∈ scripts, op.productId ∈ productIds
  | .publishing promotionId productId =>
    ∃ p ∈ promotions, p.id = promotionId ∧ p.productId = some productId
  | .scanning promotionId category _ =>
    ∃ p ∈ promotions, p.id = promotionId ∧ p.productId = none ∧ p.category = some category
  | .paging promotionId category _ =>
    ∃ p ∈ promotions, p.id = promotionId ∧ p.productId = none ∧ p.category = some category
  | _ => True

end HandlerPhase

namespace StorefrontState

def rows (s : StorefrontState) : List PromotionRow := s.promotions.table.rows

/-- The product will be recomputed. -/
def Owed (s : StorefrontState) (row : ProductRow) : Prop :=
  (∃ a ∈ s.pending, a.Leads s.rows row) ∨ ∃ i, (s.handlers i).Leads s.rows row

/-- Redis has run the script, or its handler has yet to see it run. -/
def Live (s : StorefrontState) (op : ReadModelOp) : Prop :=
  op ∈ s.executed ∨ ∃ i, op ∈ (s.handlers i).scripts

def Issued (s : StorefrontState) (op : ReadModelOp) : Prop := s.Live op ∨ op ∈ s.orphaned

/-- The newest script for the product writes what it should now hold. -/
def Fresh (engine : PromotionEngine) (s : StorefrontState) (row : ProductRow) : Prop :=
  ∃ entry sourceReadAt, ProductPricer.Prices engine (s.current row) entry ∧
    s.Live (.write entry sourceReadAt) ∧
    ∀ op, s.Issued op → op.productId = row.id →
      op = .write entry sourceReadAt ∨ op.sourceReadAt < sourceReadAt

end StorefrontState

/-- Every product is owed a recompute, or its newest script is fresh. -/
structure Converging (engine : PromotionEngine) (s : StorefrontState) : Prop where
  targeted : ∀ p ∈ s.rows, p.Targeted
  listed : ∀ row ∈ s.products.rows, 0 < row.id ∧ row.values.category ≠ []
  sound : ∀ i, (s.handlers i).Sound s.rows
  issued : ∀ op, s.Issued op → op.Valid ∧ op.sourceReadAt ≤ s.lastReadAt
  represents : Represents s.readModel s.executed
  settled : ∀ row ∈ s.products.rows, s.Owed row ∨ s.Fresh engine row

theorem Announcement.leads_start (a : Announcement) (promotions : List PromotionRow)
    (row : ProductRow) : a.start.Leads promotions row ↔ a.Leads promotions row := by
  cases a with
  | upserted productIds => exact Iff.rfl
  | changed promotionId => exact Iff.rfl

theorem Announcement.sound_start (a : Announcement) (promotions : List PromotionRow) :
    a.start.Sound promotions := by
  cases a with
  | upserted productIds => trivial
  | changed promotionId => trivial

theorem Announcement.scripts_start (a : Announcement) : a.start.scripts = [] := by
  cases a with
  | upserted productIds => rfl
  | changed promotionId => rfl

/-- The announcement of a handler leads to all that the handler leads to. -/
theorem HandlerPhase.leads_announcement {phase : HandlerPhase} (hs : phase.Sound promotions)
    (h : phase.Leads promotions row) :
    ∃ a ∈ phase.announcement, a.Leads promotions row := by
  cases phase with
  | idle => exact absurd h id
  | reading productIds => exact ⟨_, rfl, h⟩
  | writing productIds scripts => exact absurd h id
  | finding promotionId => exact ⟨_, rfl, h⟩
  | publishing promotionId productId =>
    obtain ⟨p, hp, hid, hprod⟩ := hs
    have ht : p.productId = some row.id := hprod.trans (congrArg some (Eq.symm h))
    exact ⟨_, rfl, p, hp, hid, .inl ht⟩
  | scanning promotionId category afterId =>
    obtain ⟨p, hp, hid, hprod, hcat⟩ := hs
    obtain ⟨hc, _⟩ := h
    exact ⟨_, rfl, p, hp, hid, .inr ⟨hprod, hcat.trans (congrArg some hc.symm)⟩⟩
  | paging promotionId category productIds =>
    obtain ⟨p, hp, hid, hprod, hcat⟩ := hs
    obtain ⟨hc, _⟩ := h
    exact ⟨_, rfl, p, hp, hid, .inr ⟨hprod, hcat.trans (congrArg some hc.symm)⟩⟩

/-- A script a handler has sent is for a product of its announcement. -/
theorem HandlerPhase.scripts_announcement {phase : HandlerPhase} (hs : phase.Sound promotions)
    (hop : op ∈ phase.scripts) (hid : op.productId = row.id) :
    ∃ a ∈ phase.announcement, a.Leads promotions row := by
  cases phase with
  | writing productIds scripts =>
    have hmem := hs op hop
    rw [hid] at hmem
    exact ⟨_, rfl, hmem⟩
  | _ => exact absurd hop List.not_mem_nil

namespace ProductUpsertedHandler

variable {products : Catalogue} {active : List PromotionRow} {results : Nat → List RuleResult}

/-- A handler sends a write for each product it found, and a removal for each it did not. -/
theorem mem_scripts (h : op ∈ scripts ids (ProductSourceRepository.read products active ids)
      sourceReadAt results) :
    (∃ row ∈ products.rows, row.id ∈ ids ∧ op =
      .write (ProductPricer.price (current active row) (results row.id)) sourceReadAt) ∨
    ∃ id ∈ ids, (∀ row ∈ products.rows, row.id ≠ id) ∧ op = .remove id sourceReadAt := by
  rcases List.mem_append.1 h with h | h
  · left
    obtain ⟨entry, hentry, rfl⟩ := List.mem_map.1 h
    obtain ⟨r, hr, rfl⟩ := List.mem_map.1 hentry
    obtain ⟨row, hrow, hid, rfl⟩ := mem_found hr
    exact ⟨row, hrow, hid, rfl⟩
  · right
    obtain ⟨id, hid, rfl⟩ := List.mem_map.1 h
    obtain ⟨hid, hnone⟩ := List.mem_filter.1 hid
    refine ⟨id, hid, ?_, rfl⟩
    rintro row hrow rfl
    rw [find_read hrow hid] at hnone
    cases hnone

theorem write_mem_scripts (hrow : row ∈ products.rows) (hid : row.id ∈ ids) :
    .write (ProductPricer.price (current active row) (results row.id)) sourceReadAt ∈
      scripts ids (ProductSourceRepository.read products active ids) sourceReadAt results := by
  have hr := Table.find_some_mem (find_read hrow hid active)
  exact List.mem_append_left _ (List.mem_map_of_mem (List.mem_map_of_mem hr))

/-- What a handler sends carries the instant of its read, for the ids it was given. -/
theorem of_mem_scripts
    (h : op ∈ scripts ids (ProductSourceRepository.read products active ids) sourceReadAt results) :
    op.sourceReadAt = sourceReadAt ∧ op.productId ∈ ids := by
  rcases mem_scripts h with ⟨row, _, hid, rfl⟩ | ⟨id, hid, _, rfl⟩
  · exact ⟨rfl, hid⟩
  · exact ⟨rfl, hid⟩

theorem remove_mem_scripts (hid : productId ∈ ids)
    (hnone : ∀ row ∈ products.rows, row.id ≠ productId) :
    .remove productId sourceReadAt ∈
      scripts ids (ProductSourceRepository.read products active ids) sourceReadAt results := by
  have hfind :
      (found (ProductSourceRepository.read products active ids)).find productId = none := by
    apply Table.find_eq_none.2
    intro r hr
    obtain ⟨row, hrow, _, rfl⟩ := mem_found hr
    exact hnone row hrow
  apply List.mem_append_right
  apply List.mem_map_of_mem
  exact List.mem_filter.2 ⟨hid, decide_eq_true hfind⟩

theorem valid_of_mem_scripts
    (hlisted : ∀ row ∈ products.rows, row.values.category ≠ []) (hpos : 0 < sourceReadAt)
    (hlt : sourceReadAt < 2 ^ 53)
    (h : op ∈ scripts ids (ProductSourceRepository.read products active ids) sourceReadAt results) :
    op.Valid := by
  rcases mem_scripts h with ⟨row, hrow, _, rfl⟩ | ⟨id, _, _, rfl⟩
  · exact ⟨hlisted row hrow, hpos, hlt⟩
  · exact ⟨hpos, hlt⟩

end ProductUpsertedHandler

/-- Promotions stay, and keep the targets they have. -/
def Keeps (before after : List PromotionRow) : Prop :=
  ∀ p ∈ before, p.productId.isSome ∨ p.category.isSome →
    ∃ q ∈ after, q.id = p.id ∧ q.productId = p.productId ∧ q.category = p.category

namespace Keeps

theorem refl (l : List PromotionRow) : Keeps l l := fun p hp _ => ⟨p, hp, rfl, rfl, rfl⟩

theorem targets (h : Keeps before after)
    (ht : ∃ p ∈ before, p.id = promotionId ∧ p.Targets row) :
    ∃ p ∈ after, p.id = promotionId ∧ p.Targets row := by
  obtain ⟨p, hp, rfl, ht⟩ := ht
  have hsome : p.productId.isSome ∨ p.category.isSome := by
    rcases ht with hprod | ⟨_, hcat⟩
    · left
      rw [hprod]
      rfl
    · right
      rw [hcat]
      rfl
  obtain ⟨q, hq, hid, hprod, hcat⟩ := h p hp hsome
  rw [PromotionRow.Targets, ← hprod, ← hcat] at ht
  exact ⟨q, hq, hid, ht⟩

theorem announcement (h : Keeps before after) {a : Announcement} (ha : a.Leads before row) :
    a.Leads after row := by
  cases a with
  | upserted productIds => exact ha
  | changed promotionId => exact h.targets ha

theorem leads (h : Keeps before after) {phase : HandlerPhase} (hp : phase.Leads before row) :
    phase.Leads after row := by
  cases phase with
  | finding promotionId => exact h.targets hp
  | _ => exact hp

theorem sound (h : Keeps before after) {phase : HandlerPhase} (hp : phase.Sound before) :
    phase.Sound after := by
  cases phase with
  | publishing promotionId productId =>
    obtain ⟨p, hm, rfl, hprod⟩ := hp
    obtain ⟨q, hq, hid, hqp, _⟩ := h p hm (.inl (hprod ▸ rfl))
    exact ⟨q, hq, hid, hqp.trans hprod⟩
  | scanning promotionId category afterId =>
    obtain ⟨p, hm, rfl, hprod, hcat⟩ := hp
    obtain ⟨q, hq, hid, hqp, hqc⟩ := h p hm (.inr (hcat ▸ rfl))
    exact ⟨q, hq, hid, hqp.trans hprod, hqc.trans hcat⟩
  | paging promotionId category productIds =>
    obtain ⟨p, hm, rfl, hprod, hcat⟩ := hp
    obtain ⟨q, hq, hid, hqp, hqc⟩ := h p hm (.inr (hcat ▸ rfl))
    exact ⟨q, hq, hid, hqp.trans hprod, hqc.trans hcat⟩
  | _ => exact hp

end Keeps

namespace StorefrontState

variable {s s' : StorefrontState} {engine : PromotionEngine}

/-- One handler moves to a sound phase. -/
theorem sound_update {handlers : Nat → HandlerPhase} {l : List PromotionRow}
    (h : ∀ j, (handlers j).Sound l) (hp : phase.Sound l) (i j : Nat) :
    (Function.update handlers i phase j).Sound l := by
  by_cases hj : j = i
  · subst hj
    rw [Function.update_self]
    exact hp
  · rw [Function.update_of_ne hj]
    exact h j

theorem scripts_update {handlers : Nat → HandlerPhase}
    (h : ∃ j, op ∈ (Function.update handlers i phase j).scripts) :
    op ∈ phase.scripts ∨ ∃ j, op ∈ (handlers j).scripts := by
  obtain ⟨j, h⟩ := h
  by_cases hj : j = i
  · subst hj
    rw [Function.update_self] at h
    exact .inl h
  · rw [Function.update_of_ne hj] at h
    exact .inr ⟨j, h⟩

theorem scripts_of_update {handlers : Nat → HandlerPhase} (i : Nat) (phase : HandlerPhase)
    (h : ∃ j, op ∈ (handlers j).scripts) :
    op ∈ (handlers i).scripts ∨ ∃ j, op ∈ (Function.update handlers i phase j).scripts := by
  obtain ⟨j, h⟩ := h
  by_cases hj : j = i
  · rw [hj] at h
    exact .inl h
  · right
    refine ⟨j, ?_⟩
    rw [Function.update_of_ne hj]
    exact h

/-- The owed products when announcements are added and every handler leads where it did. -/
theorem Owed.mono (h : s.Owed row) (hkeeps : Keeps s.rows s'.rows)
    (hpending : ∀ a ∈ s.pending, a ∈ s'.pending) (hhandlers : s'.handlers = s.handlers) :
    s'.Owed row := by
  rcases h with ⟨a, ha, hl⟩ | ⟨i, hl⟩
  · exact .inl ⟨a, hpending a ha, hkeeps.announcement hl⟩
  · right
    rw [hhandlers]
    exact ⟨i, hkeeps.leads hl⟩

/-- When one handler moves, what it led to must be led to still. -/
theorem Owed.setHandler (h : s.Owed row)
    (hhandlers : s'.handlers = Function.update s.handlers i phase) (hrows : s'.rows = s.rows)
    (hkeep : (s.handlers i).Leads s.rows row →
      (∃ a ∈ s'.pending, a.Leads s'.rows row) ∨ phase.Leads s'.rows row)
    (hpending : ∀ a ∈ s.pending, a.Leads s.rows row →
      (∃ a ∈ s'.pending, a.Leads s'.rows row) ∨ phase.Leads s'.rows row) : s'.Owed row := by
  have hphase (hl : phase.Leads s'.rows row) : s'.Owed row := by
    right
    refine ⟨i, ?_⟩
    rw [hhandlers, Function.update_self]
    exact hl
  rcases h with ⟨a, ha, hl⟩ | ⟨j, hl⟩
  · rcases hpending a ha hl with hp | hp
    · exact .inl hp
    · exact hphase hp
  · by_cases hj : j = i
    · subst hj
      rcases hkeep hl with hp | hp
      · exact .inl hp
      · exact hphase hp
    · right
      refine ⟨j, ?_⟩
      rw [hhandlers, Function.update_of_ne hj, hrows]
      exact hl

/-- A handler that does not lead to the product moves, and no announcement is taken. -/
theorem Owed.elsewhere (h : s.Owed row)
    (hhandlers : s'.handlers = Function.update s.handlers i phase) (hrows : s'.rows = s.rows)
    (hpending : ∀ a ∈ s.pending, a ∈ s'.pending) (hi : ¬(s.handlers i).Leads s.rows row) :
    s'.Owed row := by
  apply h.setHandler hhandlers hrows
  · exact fun hl => absurd hl hi
  · intro a ha hl
    rw [← hrows] at hl
    exact .inl ⟨a, hpending a ha, hl⟩

/-- Freshness survives what leaves the product's row and its scripts alone. -/
theorem Fresh.mono (h : s.Fresh engine row) (hcurrent : s'.current row = s.current row)
    (hlive : ∀ op, op.productId = row.id → s.Live op → s'.Live op)
    (hissued : ∀ op, op.productId = row.id → s'.Issued op → s.Issued op) :
    s'.Fresh engine row := by
  obtain ⟨entry, sourceReadAt, hp, hl, hnewest⟩ := h
  have hid : entry.id = row.id := by
    obtain ⟨results, _, rfl⟩ := hp
    rfl
  rw [← hcurrent] at hp
  refine ⟨entry, sourceReadAt, hp, hlive _ hid hl, ?_⟩
  intro op hop hopid
  exact hnewest op (hissued op hopid hop) hopid

theorem live_setHandler (hexecuted : s'.executed = s.executed)
    (hhandlers : s'.handlers = Function.update s.handlers i phase)
    (hscripts : phase.scripts = (s.handlers i).scripts) (op : ReadModelOp) :
    s'.Live op ↔ s.Live op := by
  have hall (j : Nat) : (s'.handlers j).scripts = (s.handlers j).scripts := by
    rw [hhandlers]
    by_cases hj : j = i
    · subst hj
      rw [Function.update_self, hscripts]
    · rw [Function.update_of_ne hj]
  simp only [Live, hexecuted, hall]

end StorefrontState

/-- Nothing was read from the source for Redis, and no script was run or left behind. -/
structure SameRedis (s s' : StorefrontState) : Prop where
  lastReadAt : s'.lastReadAt = s.lastReadAt
  readModel : s'.readModel = s.readModel
  executed : s'.executed = s.executed
  orphaned : s'.orphaned = s.orphaned

structure SameSource (s s' : StorefrontState) : Prop where
  now : s'.now = s.now
  products : s'.products = s.products
  promotions : s'.promotions = s.promotions

namespace SameSource

variable {s s' : StorefrontState}

theorem rows (h : SameSource s s') : s'.rows = s.rows := by
  rw [StorefrontState.rows, StorefrontState.rows, h.promotions]

theorem current (h : SameSource s s') (row : ProductRow) : s'.current row = s.current row := by
  simp only [StorefrontState.current, StorefrontState.active, h.promotions, h.now]

end SameSource

namespace Converging

open StorefrontState

variable {s s' : StorefrontState} {engine : PromotionEngine}

theorem initial (now : Int) : Converging engine (.initial now) where
  targeted p hp := absurd hp List.not_mem_nil
  listed row hrow := absurd hrow List.not_mem_nil
  sound _ := trivial
  issued op hop := by
    rcases hop with (hop | ⟨_, hop⟩) | hop
    · exact absurd hop List.not_mem_nil
    · exact absurd hop List.not_mem_nil
    · exact absurd hop List.not_mem_nil
  represents := ⟨.empty, fun id => .empty id⟩
  settled row hrow := absurd hrow List.not_mem_nil

/-- A handler moves without sending or running scripts. -/
theorem move (h : Converging engine s) (hsource : SameSource s s') (hredis : SameRedis s s')
    (hhandlers : s'.handlers = Function.update s.handlers i phase)
    (hscripts : phase.scripts = (s.handlers i).scripts) (hsound : phase.Sound s.rows)
    (howed : ∀ row ∈ s.products.rows, s.Owed row → s'.Owed row) : Converging engine s' := by
  have hlive := live_setHandler hredis.executed hhandlers hscripts
  have hissued (op : ReadModelOp) : s'.Issued op ↔ s.Issued op := by
    rw [Issued, Issued, hlive, hredis.orphaned]
  constructor
  · rw [hsource.rows]
    exact h.targeted
  · rw [hsource.products]
    exact h.listed
  · intro j
    rw [hsource.rows, hhandlers]
    exact sound_update h.sound hsound i j
  · intro op hop
    rw [hredis.lastReadAt]
    exact h.issued op ((hissued op).1 hop)
  · rw [hredis.readModel, hredis.executed]
    exact h.represents
  · intro row hrow
    rw [hsource.products] at hrow
    rcases h.settled row hrow with ho | hf
    · exact .inl (howed row hrow ho)
    · right
      apply hf.mono (hsource.current row)
      · exact fun op _ => (hlive op).2
      · exact fun op _ => (hissued op).1

/-- The source changes, and each product it changes is announced. -/
theorem source (h : Converging engine s) (hhandlers : s'.handlers = s.handlers)
    (hredis : SameRedis s s') (hpending : ∀ a ∈ s.pending, a ∈ s'.pending)
    (hkeeps : Keeps s.rows s'.rows) (htargeted : ∀ p ∈ s'.rows, p.Targeted)
    (hlisted : ∀ row ∈ s'.products.rows, 0 < row.id ∧ row.values.category ≠ [])
    (hsource : ∀ row ∈ s'.products.rows,
      (row ∈ s.products.rows ∧ s'.current row = s.current row) ∨
        ∃ a ∈ s'.pending, a.Leads s'.rows row) : Converging engine s' := by
  have hlive (op : ReadModelOp) : s'.Live op ↔ s.Live op := by
    rw [Live, Live, hredis.executed, hhandlers]
  have hissued (op : ReadModelOp) : s'.Issued op ↔ s.Issued op := by
    rw [Issued, Issued, hlive, hredis.orphaned]
  constructor
  · exact htargeted
  · exact hlisted
  · intro i
    rw [hhandlers]
    exact hkeeps.sound (h.sound i)
  · intro op hop
    rw [hredis.lastReadAt]
    exact h.issued op ((hissued op).1 hop)
  · rw [hredis.readModel, hredis.executed]
    exact h.represents
  · intro row hrow
    rcases hsource row hrow with ⟨hmem, hcurrent⟩ | hled
    · rcases h.settled row hmem with ho | hf
      · exact .inl (ho.mono hkeeps hpending hhandlers)
      · right
        apply hf.mono hcurrent
        · exact fun op _ => (hlive op).2
        · exact fun op _ => (hissued op).1
    · exact .inl (.inl hled)

end Converging

end PromotionManagement
