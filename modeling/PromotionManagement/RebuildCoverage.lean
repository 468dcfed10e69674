import PromotionManagement.RebuildAll
import PromotionManagement.ScopedRebuild

namespace PromotionManagement
open Library ProductSourceRepository ProductReadRepository
set_option autoImplicit true

/-- A handler sends the script after this read. -/
def SourceReading.Sends (made : SourceReading) (op : ReadModelOp) : Prop :=
  (∃ row ∈ made.products.rows, op = .write
    (ProductPricer.price (current made.read.active row) (made.read.results row.id))
    made.read.sourceReadAt) ∨
  ∃ id, (∀ row ∈ made.products.rows, row.id ≠ id) ∧ op = .remove id made.read.sourceReadAt

theorem SourceReading.Sends.sourceReadAt {made : SourceReading} (h : made.Sends op) :
    op.sourceReadAt = made.read.sourceReadAt := by
  rcases h with ⟨row, _, rfl⟩ | ⟨id, _, rfl⟩
  · rfl
  · rfl

namespace RebuildState

def HasRow (s : RebuildState) (id : Nat) : Prop := ∃ row ∈ s.products.rows, row.id = id

/-- Redis has run the script, or may run it yet. -/
def Issued (s : RebuildState) (op : ReadModelOp) : Prop :=
  op ∈ s.executed ∨ op ∈ s.sent ∨ ∃ i, op ∈ (s.rebuilds i).phase.scripts

/-- A script is as old as the start, or a read of the run sent it. -/
structure Sound (start : Nat) (s : RebuildState) (op : ReadModelOp) : Prop where
  valid : op.Valid
  le : op.sourceReadAt ≤ s.lastReadAt
  sent : op.sourceReadAt ≤ start ∨ ∃ made ∈ s.log, made.Sends op

/-- A script of one of the call's reads has run for the product. -/
def Recomputed (s : RebuildState) (rebuild : Rebuild) (id : Nat) : Prop :=
  ∃ op ∈ s.executed, op.productId = id ∧ op.sourceReadAt ∈ rebuild.reads

def Sending (rebuild : Rebuild) (scripts : List ReadModelOp) (id : Nat) : Prop :=
  ∃ op ∈ scripts, op.productId = id ∧ op.sourceReadAt ∈ rebuild.reads

/-- The products of the beginning up to an id have been recomputed, but for those owed. -/
def Covers (s : RebuildState) (rebuild : Rebuild) (last : Nat) (Owed : Nat → Prop) : Prop :=
  ∀ row ∈ rebuild.began.rows, row.id ≤ last → s.Recomputed rebuild row.id ∨ Owed row.id

def CoversAll (s : RebuildState) (rebuild : Rebuild) : Prop :=
  ∀ row ∈ rebuild.began.rows, s.Recomputed rebuild row.id

/-- What `SCAN` has returned has a row or has been recomputed, but for what is owed. -/
def Clears (s : RebuildState) (rebuild : Rebuild) (Owed : Nat → Prop) : Prop :=
  ∀ id ∈ rebuild.seen, s.HasRow id ∨ s.Recomputed rebuild id ∨ Owed id

def Returned (rebuild : Rebuild) (last : Bool) : Prop :=
  last → ∀ id ∈ rebuild.steady, id ∈ rebuild.seen

/-- What a call has done by each phase. -/
def Progress (s : RebuildState) (rebuild : Rebuild) : Prop :=
  match rebuild.phase with
  | .paging afterId => s.Covers rebuild afterId (fun _ => False) ∧ rebuild.seen = []
  | .recomputing (.pages afterId) ids => s.Covers rebuild afterId (· ∈ ids) ∧ rebuild.seen = []
  | .writing (.pages afterId) scripts =>
    s.Covers rebuild afterId (Sending rebuild scripts) ∧ rebuild.seen = []
  | .scanning => s.CoversAll rebuild ∧ s.Clears rebuild fun _ => False
  | .looking ids last =>
    s.CoversAll rebuild ∧ s.Clears rebuild (· ∈ ids) ∧ Returned rebuild last
  | .recomputing (.orphans last) ids =>
    s.CoversAll rebuild ∧ s.Clears rebuild (· ∈ ids) ∧ Returned rebuild last
  | .writing (.orphans last) scripts =>
    s.CoversAll rebuild ∧ s.Clears rebuild (Sending rebuild scripts) ∧ Returned rebuild last
  | .publishing =>
    s.CoversAll rebuild ∧ s.Clears rebuild (fun _ => False) ∧ Returned rebuild true
  | .waiting => True
  | .published => True
  | .failed => True

/-- A call began after the start, its reads came later, and the products it began with are there
for every read since. -/
structure Begun (start : Nat) (s : RebuildState) (rebuild : Rebuild) : Prop where
  since : rebuild.phase ≠ .waiting → start ≤ rebuild.beganAt
  le : rebuild.beganAt ≤ s.lastReadAt
  kept : ∀ row ∈ rebuild.began.rows, 0 < row.id ∧ s.HasRow row.id
  later : ∀ made ∈ s.log, rebuild.beganAt < made.read.sourceReadAt →
    ∀ row ∈ rebuild.began.rows, ∃ r ∈ made.products.rows, r.id = row.id
  reads : ∀ t ∈ rebuild.reads, rebuild.beganAt < t
  progress : s.Progress rebuild

/-- Redis holds the newest script of each product, and every script is sound. -/
structure Tracked (start : Nat) (s : RebuildState) : Prop where
  start_le : start ≤ s.lastReadAt
  listed : ∀ row ∈ s.products.rows, 0 < row.id ∧ row.values.category ≠ []
  sound : ∀ op, s.Issued op → s.Sound start op
  represents : Represents s.readModel s.executed
  logged : ∀ made ∈ s.log, made.read.sourceReadAt ≤ s.lastReadAt ∧
    ∀ row ∈ made.products.rows, s.HasRow row.id
  begun : ∀ i, s.Begun start (s.rebuilds i)

/-- Rows stay, scripts stay run, and a new read finds every row there was. -/
structure Grows (s s' : RebuildState) : Prop where
  rows : ∀ id, s.HasRow id → s'.HasRow id
  executed : ∀ op ∈ s.executed, op ∈ s'.executed
  le : s.lastReadAt ≤ s'.lastReadAt
  log : ∀ made ∈ s'.log, made ∈ s.log ∨
    ∀ id, s.HasRow id → ∃ row ∈ made.products.rows, row.id = id

variable {s s' : RebuildState} {rebuild rebuild' : Rebuild} {start : Nat}

theorem Grows.refl (s : RebuildState) : Grows s s :=
  ⟨fun _ hid => hid, fun _ hop => hop, Nat.le_refl _, fun _ hm => .inl hm⟩

theorem Recomputed.mono (h : s.Recomputed rebuild id')
    (hexecuted : ∀ op ∈ s.executed, op ∈ s'.executed)
    (hreads : ∀ t ∈ rebuild.reads, t ∈ rebuild'.reads) : s'.Recomputed rebuild' id' := by
  obtain ⟨op, hop, hid, ht⟩ := h
  exact ⟨op, hexecuted op hop, hid, hreads _ ht⟩

theorem Covers.mono {Owed Owed' : Nat → Prop} (h : s.Covers rebuild last Owed)
    (hg : Grows s s') (hbegan : rebuild'.began = rebuild.began)
    (hreads : ∀ t ∈ rebuild.reads, t ∈ rebuild'.reads)
    (howed : ∀ id, Owed id → s'.Recomputed rebuild' id ∨ Owed' id) :
    s'.Covers rebuild' last Owed' := by
  intro row hrow hle
  rw [hbegan] at hrow
  rcases h row hrow hle with hr | ho
  · exact .inl (hr.mono hg.executed hreads)
  · exact howed _ ho

theorem CoversAll.mono (h : s.CoversAll rebuild) (hg : Grows s s')
    (hbegan : rebuild'.began = rebuild.began)
    (hreads : ∀ t ∈ rebuild.reads, t ∈ rebuild'.reads) : s'.CoversAll rebuild' := by
  intro row hrow
  rw [hbegan] at hrow
  exact (h row hrow).mono hg.executed hreads

theorem Clears.mono {Owed Owed' : Nat → Prop} (h : s.Clears rebuild Owed) (hg : Grows s s')
    (hseen : rebuild'.seen = rebuild.seen)
    (hreads : ∀ t ∈ rebuild.reads, t ∈ rebuild'.reads)
    (howed : ∀ id, Owed id → s'.HasRow id ∨ s'.Recomputed rebuild' id ∨ Owed' id) :
    s'.Clears rebuild' Owed' := by
  intro id hid
  rw [hseen] at hid
  rcases h id hid with hr | hr | ho
  · exact .inl (hg.rows id hr)
  · exact .inr (.inl (hr.mono hg.executed hreads))
  · exact howed id ho

/-- Progress is kept while the state grows and fewer keys are known to stay. -/
theorem Progress.mono (h : s.Progress rebuild) (hg : Grows s s')
    (hbegan : rebuild'.began = rebuild.began) (hreads : rebuild'.reads = rebuild.reads)
    (hseen : rebuild'.seen = rebuild.seen) (hphase : rebuild'.phase = rebuild.phase)
    (hsteady : ∀ id ∈ rebuild'.steady, id ∈ rebuild.steady) : s'.Progress rebuild' := by
  have hmore : ∀ t ∈ rebuild.reads, t ∈ rebuild'.reads := fun t ht => hreads ▸ ht
  have hsending (scripts : List ReadModelOp) :
      Sending rebuild' scripts = Sending rebuild scripts := by
    funext id
    rw [Sending, Sending, hreads]
  have hcovers {last : Nat} {Owed : Nat → Prop} (hc : s.Covers rebuild last Owed) :
      s'.Covers rebuild' last Owed := hc.mono hg hbegan hmore fun _ => .inr
  have hclears {Owed : Nat → Prop} (hc : s.Clears rebuild Owed) : s'.Clears rebuild' Owed :=
    hc.mono hg hseen hmore fun _ ho => .inr (.inr ho)
  have hreturned {last : Bool} (hr : Returned rebuild last) : Returned rebuild' last :=
    fun hlast id hid => hseen ▸ hr hlast id (hsteady id hid)
  rw [Progress] at h ⊢
  rw [hphase]
  cases hp : rebuild.phase with
  | waiting => trivial
  | paging afterId =>
    rw [hp] at h
    exact ⟨hcovers h.1, hseen.trans h.2⟩
  | recomputing pass ids =>
    rw [hp] at h
    cases pass with
    | pages afterId => exact ⟨hcovers h.1, hseen.trans h.2⟩
    | orphans last => exact ⟨h.1.mono hg hbegan hmore, hclears h.2.1, hreturned h.2.2⟩
  | writing pass scripts =>
    rw [hp] at h
    cases pass with
    | pages afterId =>
      dsimp only
      rw [hsending]
      exact ⟨hcovers h.1, hseen.trans h.2⟩
    | orphans last =>
      dsimp only
      rw [hsending]
      exact ⟨h.1.mono hg hbegan hmore, hclears h.2.1, hreturned h.2.2⟩
  | scanning =>
    rw [hp] at h
    exact ⟨h.1.mono hg hbegan hmore, hclears h.2⟩
  | looking ids last =>
    rw [hp] at h
    exact ⟨h.1.mono hg hbegan hmore, hclears h.2.1, hreturned h.2.2⟩
  | publishing =>
    rw [hp] at h
    exact ⟨h.1.mono hg hbegan hmore, hclears h.2.1, hreturned h.2.2⟩
  | published => trivial
  | failed => trivial

theorem Begun.mono (h : s.Begun start rebuild) (hg : Grows s s')
    (hbegan : rebuild'.began = rebuild.began) (hbeganAt : rebuild'.beganAt = rebuild.beganAt)
    (hreads : rebuild'.reads = rebuild.reads) (hseen : rebuild'.seen = rebuild.seen)
    (hphase : rebuild'.phase = rebuild.phase)
    (hsteady : ∀ id ∈ rebuild'.steady, id ∈ rebuild.steady) : s'.Begun start rebuild' := by
  constructor
  · rw [hphase, hbeganAt]
    exact h.since
  · rw [hbeganAt]
    exact h.le.trans hg.le
  · intro row hrow
    rw [hbegan] at hrow
    exact ⟨(h.kept row hrow).1, hg.rows _ (h.kept row hrow).2⟩
  · intro made hmade hlt row hrow
    rw [hbegan] at hrow
    rw [hbeganAt] at hlt
    rcases hg.log made hmade with hm | hall
    · exact h.later made hm hlt row hrow
    · exact hall _ (h.kept row hrow).2
  · rw [hreads, hbeganAt]
    exact h.reads
  · exact h.progress.mono hg hbegan hreads hseen hphase hsteady

theorem Begun.grow (h : s.Begun start rebuild) (hg : Grows s s') : s'.Begun start rebuild :=
  h.mono hg rfl rfl rfl rfl rfl fun _ hid => hid

theorem Sound.grow (h : s.Sound start op) (hle : s.lastReadAt ≤ s'.lastReadAt)
    (hlog : ∀ made ∈ s.log, made ∈ s'.log) : s'.Sound start op := by
  refine ⟨h.valid, h.le.trans hle, ?_⟩
  rcases h.sent with hold | ⟨made, hmade, hsends⟩
  · exact .inl hold
  · exact .inr ⟨made, hlog made hmade, hsends⟩

end RebuildState

end PromotionManagement
