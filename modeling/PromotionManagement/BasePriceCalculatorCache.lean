import PromotionManagement.BasePriceCalculator
import PromotionManagement.Library.Run

namespace PromotionManagement
open Library
set_option autoImplicit true

/-- What has become of a load: its query is under way or carried out, or its promise has settled. A
rejection is handled once the `catch` of the cache has run. -/
inductive LoadState where
  | pending
  | read (rows : List PricingRuleRow)
  | fulfilled (calculator : BasePriceCalculator)
  | rejected
  | handled

/-- A call of `source`, and when the entry that was made for it expires. -/
structure RulesLoad where
  expiresAt : Int
  state : LoadState

/-- The entry of the cache. Its promise is that of a load, by the order of the loads. -/
structure CachedRules where
  expiresAt : Int
  rules : Nat

/-- A worker's cache and its clock, which runs forward, beside the table of rules. `served` has the
calls of `current`: when they looked at the clock, and whose promise they returned. -/
structure BasePriceCalculatorCache where
  now : Int
  table : List PricingRuleRow
  cached : Option CachedRules
  loads : List RulesLoad
  served : List (Int × Nat)
  cleared : Nat

/-- What can happen next. A call that loads looks at the clock twice. -/
inductive CacheEvent where
  | tick (elapsed : Nat)
  | edit (table : List PricingRuleRow)
  | current (elapsed : Nat)
  | query (load : Nat)
  | settle (load : Nat)
  | reject (load : Nat)
  | handle (load : Nat)

namespace LoadState

/-- The query answers with the rows that the table has. -/
def query (rows : List PricingRuleRow) : LoadState → LoadState
  | .pending => .read rows
  | state => state

/-- The rows are compiled, or an error is thrown. -/
def settle (engine : RulesEngine) : LoadState → LoadState
  | .read rows =>
    match BasePriceCalculator.fromRules engine rows with
    | .ok calculator => .fulfilled calculator
    | .error _ => .rejected
  | state => state

/-- The query fails, though it may have been carried out. -/
def reject : LoadState → LoadState
  | .pending => .rejected
  | .read _ => .rejected
  | state => state

def isRejected : LoadState → Bool
  | .rejected => true
  | _ => false

/-- The rows a load has read, or those it has compiled, are known. -/
def Of (engine : RulesEngine) (known : List PricingRuleRow → Prop) : LoadState → Prop
  | .read rows => known rows
  | .fulfilled calculator =>
    ∃ rows, known rows ∧ BasePriceCalculator.fromRules engine rows = .ok calculator
  | _ => True

theorem Of.mono {state : LoadState} {known known' : List PricingRuleRow → Prop}
    (h : state.Of engine known) (hknown : ∀ rows, known rows → known' rows) :
    state.Of engine known' := by
  cases state with
  | read rows => exact hknown rows h
  | fulfilled calculator =>
    obtain ⟨rows, hk, hc⟩ := h
    exact ⟨rows, hknown rows hk, hc⟩
  | _ => trivial

end LoadState

namespace BasePriceCalculatorCache

/-- The query of the workers: the active ingestion rules, by priority and id. -/
def source (s : BasePriceCalculatorCache) : List PricingRuleRow :=
  BasePriceCalculator.activeIngestionRules s.table

def start (now : Int) (table : List PricingRuleRow) : BasePriceCalculatorCache :=
  ⟨now, table, none, [], [], 0⟩

def setLoad (s : BasePriceCalculatorCache) (k : Nat) (f : LoadState → LoadState) :
    BasePriceCalculatorCache :=
  { s with loads := s.loads.modify k fun load => { load with state := f load.state } }

/-- The branch of `current` that calls `source`, with the promise it caches. -/
def load (s : BasePriceCalculatorCache) (ttlMs elapsed : Nat) : BasePriceCalculatorCache × Nat :=
  let expiresAt := s.now + elapsed + ttlMs
  ({ s with
      now := s.now + elapsed
      cached := some ⟨expiresAt, s.loads.length⟩
      loads := s.loads ++ [⟨expiresAt, .pending⟩] }, s.loads.length)

def current (s : BasePriceCalculatorCache) (ttlMs elapsed : Nat) :
    BasePriceCalculatorCache × Nat :=
  match s.cached with
  | none => s.load ttlMs elapsed
  | some entry => if s.now ≥ entry.expiresAt then s.load ttlMs elapsed else (s, entry.rules)

def step (engine : RulesEngine) (ttlMs : Nat) (s : BasePriceCalculatorCache) :
    CacheEvent → BasePriceCalculatorCache
  | .tick elapsed => { s with now := s.now + elapsed }
  | .edit table => { s with table := table }
  | .current elapsed =>
    let (s', rules) := s.current ttlMs elapsed
    { s' with served := s.served ++ [(s.now, rules)] }
  | .query k => s.setLoad k (.query s.source)
  | .settle k => s.setLoad k (.settle engine)
  | .reject k => s.setLoad k .reject
  | .handle k =>
    if (s.loads[k]?).any fun load => load.state.isRejected then
      { s.setLoad k fun _ => .handled with cached := none, cleared := s.cleared + 1 }
    else s

/-- What an event can make of a load. -/
inductive Moves (engine : RulesEngine) (s : BasePriceCalculatorCache) :
    LoadState → LoadState → Prop where
  | kept : Moves engine s state state
  | queried : Moves engine s .pending (.read s.source)
  | fulfilled : BasePriceCalculator.fromRules engine rows = .ok calculator →
      Moves engine s (.read rows) (.fulfilled calculator)
  | rejected : Moves engine s state .rejected

section
variable {engine : RulesEngine} {ttlMs : Nat} {s : BasePriceCalculatorCache} {e : CacheEvent}

theorem moves_query (s : BasePriceCalculatorCache) (state : LoadState) :
    Moves engine s state (state.query s.source) := by
  cases state with
  | pending => exact .queried
  | _ => exact .kept

theorem moves_settle (s : BasePriceCalculatorCache) (state : LoadState) :
    Moves engine s state (state.settle engine) := by
  cases state with
  | read rows =>
    rw [LoadState.settle]
    split
    · rename_i hc
      exact .fulfilled hc
    · exact .rejected
  | _ => exact .kept

theorem moves_reject (s : BasePriceCalculatorCache) (state : LoadState) :
    Moves engine s state state.reject := by
  cases state with
  | pending => exact .rejected
  | read rows => exact .rejected
  | _ => exact .kept

theorem getElem_setLoad (s : BasePriceCalculatorCache) (k j : Nat) (f : LoadState → LoadState) :
    (s.setLoad k f).loads[j]? =
      (s.loads[j]?).map fun l => if k = j then { l with state := f l.state } else l :=
  List.getElem?_modify ..

theorem mem_setLoad {f : LoadState → LoadState} (h : (s.setLoad k f).loads[j]? = some l') :
    ∃ l, s.loads[j]? = some l ∧ l'.expiresAt = l.expiresAt ∧
      l'.state = if k = j then f l.state else l.state := by
  rw [getElem_setLoad, Option.map_eq_some_iff] at h
  obtain ⟨l, hl, rfl⟩ := h
  refine ⟨l, hl, ?_, ?_⟩
  · split <;> rfl
  · split <;> rfl

/-- A call is given a load that is cached and has not expired, or asks for one. -/
theorem current_cases (s : BasePriceCalculatorCache) (ttlMs elapsed : Nat) :
    (∃ entry, s.cached = some entry ∧ s.now < entry.expiresAt ∧
        s.current ttlMs elapsed = (s, entry.rules)) ∨
      (∀ entry, s.cached = some entry → entry.expiresAt ≤ s.now) ∧
        s.current ttlMs elapsed = s.load ttlMs elapsed := by
  rw [current]
  split
  · rename_i hc
    refine .inr ⟨?_, rfl⟩
    intro entry he
    rw [hc] at he
    cases he
  · rename_i entry hc
    split
    · rename_i hge
      refine .inr ⟨?_, rfl⟩
      intro entry' he
      rw [hc] at he
      cases he
      exact hge
    · rename_i hlt
      exact .inl ⟨entry, hc, not_le.1 hlt, rfl⟩

/-- An event leaves a load's expiry, and asks for a load, moves one or handles its rejection. -/
theorem load_step (h : (s.step engine ttlMs e).loads[k]? = some l') :
    (∃ l, s.loads[k]? = some l ∧ l'.expiresAt = l.expiresAt ∧
        (Moves engine s l.state l'.state ∨
          l'.state = .handled ∧ (s.step engine ttlMs e).cached = none)) ∨
      k = s.loads.length ∧ l'.state = .pending ∧
        l'.expiresAt - ttlMs ≤ (s.step engine ttlMs e).now := by
  have hset {f : LoadState → LoadState} {j : Nat} (hf : ∀ state, Moves engine s state (f state))
      (h : (s.setLoad j f).loads[k]? = some l') : ∃ l, s.loads[k]? = some l ∧
        l'.expiresAt = l.expiresAt ∧ Moves engine s l.state l'.state := by
    obtain ⟨l, hl, hexpires, hstate⟩ := mem_setLoad h
    refine ⟨l, hl, hexpires, ?_⟩
    rw [hstate]
    split
    · exact hf l.state
    · exact .kept
  cases e with
  | tick elapsed => exact .inl ⟨l', h, rfl, .inl .kept⟩
  | edit table => exact .inl ⟨l', h, rfl, .inl .kept⟩
  | current elapsed =>
    rw [step] at h ⊢
    dsimp only at h ⊢
    rcases s.current_cases ttlMs elapsed with ⟨entry, _, _, hc⟩ | ⟨_, hc⟩
    · rw [hc] at h
      exact .inl ⟨l', h, rfl, .inl .kept⟩
    · rw [hc, load] at h
      rw [hc, load]
      dsimp only at h ⊢
      rcases Nat.lt_or_ge k s.loads.length with hlt | hge
      · rw [List.getElem?_append_left hlt] at h
        exact .inl ⟨l', h, rfl, .inl .kept⟩
      · rw [List.getElem?_append_right hge, List.getElem?_singleton] at h
        split at h
        · cases h
          refine .inr ⟨by omega, rfl, ?_⟩
          dsimp only
          omega
        · cases h
  | query j =>
    obtain ⟨l, hl, hexpires, hm⟩ := hset (moves_query s) h
    exact .inl ⟨l, hl, hexpires, .inl hm⟩
  | settle j =>
    obtain ⟨l, hl, hexpires, hm⟩ := hset (moves_settle s) h
    exact .inl ⟨l, hl, hexpires, .inl hm⟩
  | reject j =>
    obtain ⟨l, hl, hexpires, hm⟩ := hset (moves_reject s) h
    exact .inl ⟨l, hl, hexpires, .inl hm⟩
  | handle j =>
    rw [step] at h ⊢
    split at h
    · rename_i hr
      rw [if_pos hr]
      change (s.setLoad j fun _ => .handled).loads[k]? = some l' at h
      obtain ⟨l, hl, hexpires, hstate⟩ := mem_setLoad h
      refine .inl ⟨l, hl, hexpires, ?_⟩
      rw [hstate]
      split
      · exact .inr ⟨rfl, rfl⟩
      · exact .inl .kept
    · exact .inl ⟨l', h, rfl, .inl .kept⟩

theorem now_le_step (engine : RulesEngine) (ttlMs : Nat) (s : BasePriceCalculatorCache)
    (e : CacheEvent) : s.now ≤ (s.step engine ttlMs e).now := by
  cases e with
  | tick elapsed => exact Int.le_add_of_nonneg_right (Int.natCast_nonneg elapsed)
  | current elapsed =>
    rw [step]
    dsimp only
    rcases s.current_cases ttlMs elapsed with ⟨_, _, _, hc⟩ | ⟨_, hc⟩
    · rw [hc]
    · rw [hc, load]
      exact Int.le_add_of_nonneg_right (Int.natCast_nonneg elapsed)
  | handle k =>
    rw [step]
    split <;> exact Int.le_refl _
  | _ => exact Int.le_refl _

/-- A load that is there stays, under its expiry. -/
theorem load_kept {k : Nat} {l : RulesLoad} (e : CacheEvent) (h : s.loads[k]? = some l) :
    ∃ l', (s.step engine ttlMs e).loads[k]? = some l' ∧ l'.expiresAt = l.expiresAt := by
  have hset (j : Nat) (f : LoadState → LoadState) :
      ∃ l', (s.setLoad j f).loads[k]? = some l' ∧ l'.expiresAt = l.expiresAt := by
    rw [getElem_setLoad, h, Option.map_some]
    refine ⟨_, rfl, ?_⟩
    split <;> rfl
  cases e with
  | tick elapsed => exact ⟨l, h, rfl⟩
  | edit table => exact ⟨l, h, rfl⟩
  | current elapsed =>
    rw [step]
    dsimp only
    rcases s.current_cases ttlMs elapsed with ⟨_, _, _, hc⟩ | ⟨_, hc⟩
    · rw [hc]
      exact ⟨l, h, rfl⟩
    · rw [hc, load]
      refine ⟨l, ?_, rfl⟩
      dsimp only
      rw [List.getElem?_append_left (List.getElem?_eq_some_iff.1 h).1]
      exact h
  | query j => exact hset j _
  | settle j => exact hset j _
  | reject j => exact hset j _
  | handle j =>
    rw [step]
    split
    · exact hset j fun _ => .handled
    · exact ⟨l, h, rfl⟩

end

end BasePriceCalculatorCache

end PromotionManagement
