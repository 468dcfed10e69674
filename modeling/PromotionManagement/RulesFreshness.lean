import PromotionManagement.BasePriceCalculatorCache
import Mathlib.Data.List.Induction
import Mathlib.Tactic.Linarith

namespace PromotionManagement
open Library
set_option autoImplicit true

namespace BasePriceCalculatorCache

/-- After a run, the rows are those that the table had at an instant not before this one. -/
def HeldSince (engine : RulesEngine) (ttlMs : Nat) (s₀ : BasePriceCalculatorCache)
    (events : List CacheEvent) (instant : Int) (rows : List PricingRuleRow) : Prop :=
  ∃ before after, events = before ++ after ∧
    instant ≤ (run (step engine ttlMs) s₀ before).now ∧
    (run (step engine ttlMs) s₀ before).source = rows

/-- Every load was asked for before now and has read the table since, every call was given a load
that had not expired, and no load whose rejection was handled is cached. -/
structure Fresh (engine : RulesEngine) (ttlMs : Nat) (s₀ : BasePriceCalculatorCache)
    (events : List CacheEvent) (s : BasePriceCalculatorCache) : Prop where
  asked : ∀ (k : Nat) (l : RulesLoad), s.loads[k]? = some l → l.expiresAt - ttlMs ≤ s.now
  read : ∀ (k : Nat) (l : RulesLoad), s.loads[k]? = some l →
    l.state.Of engine (HeldSince engine ttlMs s₀ events (l.expiresAt - ttlMs))
  served : ∀ t k, (t, k) ∈ s.served → ∃ l, s.loads[k]? = some l ∧ t ≤ l.expiresAt
  cached : ∀ entry, s.cached = some entry → ∃ l, s.loads[entry.rules]? = some l ∧
    l.expiresAt = entry.expiresAt ∧ l.state ≠ .handled

section
variable {engine : RulesEngine} {ttlMs : Nat} {s₀ s : BasePriceCalculatorCache}
  {events : List CacheEvent}

theorem HeldSince.append (h : HeldSince engine ttlMs s₀ events instant rows)
    (more : List CacheEvent) : HeldSince engine ttlMs s₀ (events ++ more) instant rows := by
  obtain ⟨before, after, rfl, hrest⟩ := h
  exact ⟨before, after ++ more, List.append_assoc .., hrest⟩

/-- What a load makes of the rows it knows, or of those of the table now, it knows. -/
theorem of_moves {known : List PricingRuleRow → Prop} {state state' : LoadState}
    (h : state.Of engine known) (hm : Moves engine s state state') (hsource : known s.source) :
    state'.Of engine known := by
  cases hm with
  | kept => exact h
  | queried => exact hsource
  | fulfilled hc => exact ⟨_, h, hc⟩
  | rejected => trivial

theorem not_handled_of_moves {state state' : LoadState} (hm : Moves engine s state state')
    (h : state ≠ .handled) : state' ≠ .handled := by
  cases hm with
  | kept => exact h
  | queried => exact LoadState.noConfusion
  | fulfilled _ => exact LoadState.noConfusion
  | rejected => exact LoadState.noConfusion

theorem served_step {t : Int} {k : Nat} {e : CacheEvent}
    (h : (t, k) ∈ (s.step engine ttlMs e).served) : (t, k) ∈ s.served ∨
      ∃ elapsed, e = .current elapsed ∧ t = s.now ∧ k = (s.current ttlMs elapsed).2 := by
  cases e with
  | current elapsed =>
    rw [BasePriceCalculatorCache.step] at h
    rcases List.mem_append.1 h with h | h
    · exact .inl h
    · cases List.mem_singleton.1 h
      exact .inr ⟨elapsed, rfl, rfl, rfl⟩
  | handle j =>
    rw [BasePriceCalculatorCache.step] at h
    split at h
    · exact .inl h
    · exact .inl h
  | _ => exact .inl h

/-- An entry is cached by the call that asks for its load. -/
theorem cached_step {entry : CachedRules} {e : CacheEvent}
    (h : (s.step engine ttlMs e).cached = some entry) : s.cached = some entry ∨
      (s.step engine ttlMs e).loads[entry.rules]? = some ⟨entry.expiresAt, .pending⟩ := by
  cases e with
  | current elapsed =>
    rw [BasePriceCalculatorCache.step] at h ⊢
    dsimp only at h ⊢
    rcases s.current_cases ttlMs elapsed with ⟨_, _, _, hc⟩ | ⟨_, hc⟩
    · rw [hc] at h
      exact .inl h
    · rw [hc, load] at h
      rw [hc, load]
      cases h
      exact .inr List.getElem?_concat_length
  | handle j =>
    rw [BasePriceCalculatorCache.step] at h
    split at h
    · cases h
    · exact .inl h
  | _ => exact .inl h

/-- A call is given a load that is there, and that does not expire before it. -/
theorem Fresh.current (h : Fresh engine ttlMs s₀ events s) (elapsed : Nat) :
    ∃ l, (s.step engine ttlMs (.current elapsed)).loads[(s.current ttlMs elapsed).2]? = some l ∧
      s.now ≤ l.expiresAt := by
  rw [BasePriceCalculatorCache.step]
  dsimp only
  rcases s.current_cases ttlMs elapsed with ⟨entry, hentry, hlt, hc⟩ | ⟨_, hc⟩
  · obtain ⟨l, hl, hexpires, _⟩ := h.cached entry hentry
    rw [hc]
    exact ⟨l, hl, hexpires ▸ hlt.le⟩
  · rw [hc, load]
    refine ⟨_, List.getElem?_concat_length, ?_⟩
    dsimp only
    omega

/-- A query reads the table as it is, which is not before the load was asked for. -/
theorem Fresh.step (h : Fresh engine ttlMs s₀ events (run (step engine ttlMs) s₀ events))
    (e : CacheEvent) : Fresh engine ttlMs s₀ (events ++ [e])
      ((run (BasePriceCalculatorCache.step engine ttlMs) s₀ events).step engine ttlMs e) := by
  generalize hs : run (BasePriceCalculatorCache.step engine ttlMs) s₀ events = s at h
  have hnow := s.now_le_step engine ttlMs e
  constructor
  · intro k l' hl'
    rcases load_step hl' with ⟨l, hl, hexpires, _⟩ | ⟨_, _, hle⟩
    · rw [hexpires]
      exact (h.asked k l hl).trans hnow
    · exact hle
  · intro k l' hl'
    rcases load_step hl' with ⟨l, hl, hexpires, hm | ⟨hhandled, _⟩⟩ | ⟨_, hpending, _⟩
    · have hheld : HeldSince engine ttlMs s₀ events (l.expiresAt - ttlMs) s.source := by
        refine ⟨events, [], (List.append_nil events).symm, ?_, ?_⟩
        · rw [hs]
          exact h.asked k l hl
        · rw [hs]
      rw [hexpires]
      exact (of_moves (h.read k l hl) hm hheld).mono fun rows hrows => hrows.append [e]
    · rw [hhandled]
      trivial
    · rw [hpending]
      trivial
  · intro t k hmem
    have hold (hmem : (t, k) ∈ s.served) :
        ∃ l', (s.step engine ttlMs e).loads[k]? = some l' ∧ t ≤ l'.expiresAt := by
      obtain ⟨l, hl, hle⟩ := h.served t k hmem
      obtain ⟨l', hl', hexpires⟩ := load_kept e hl
      exact ⟨l', hl', hexpires ▸ hle⟩
    rcases served_step hmem with hmem | ⟨elapsed, rfl, rfl, rfl⟩
    · exact hold hmem
    · exact h.current elapsed
  · intro entry hentry
    rcases cached_step hentry with hold | hnew
    · obtain ⟨l, hl, hexpires, hstate⟩ := h.cached entry hold
      obtain ⟨l', hl', hexpires'⟩ := load_kept e hl
      refine ⟨l', hl', hexpires'.trans hexpires, ?_⟩
      rcases load_step hl' with ⟨l₀, hl₀, _, hm | ⟨_, hnone⟩⟩ | ⟨_, hpending, _⟩
      · rw [hl] at hl₀
        cases hl₀
        exact not_handled_of_moves hm hstate
      · rw [hentry] at hnone
        cases hnone
      · rw [hpending]
        exact LoadState.noConfusion
    · exact ⟨_, hnew, rfl, LoadState.noConfusion⟩

theorem Fresh.run (engine : RulesEngine) (ttlMs : Nat) (now : Int) (table : List PricingRuleRow)
    (events : List CacheEvent) : Fresh engine ttlMs (.start now table) events
      (Library.run (BasePriceCalculatorCache.step engine ttlMs) (.start now table) events) := by
  induction events using List.reverseRecOn with
  | nil =>
    constructor
    · intro k l hl
      cases hl
    · intro k l hl
      cases hl
    · intro t k hmem
      cases hmem
    · intro entry hentry
      cases hentry
  | append_singleton events e ih =>
    rw [run_append]
    exact ih.step e

/-- A call is not given a load whose rejection was handled before it. -/
theorem Fresh.current_not_handled (h : Fresh engine ttlMs s₀ events s) (elapsed : Nat)
    {l : RulesLoad} (hl : s.loads[(s.current ttlMs elapsed).2]? = some l) :
    l.state ≠ .handled := by
  rcases s.current_cases ttlMs elapsed with ⟨entry, hentry, _, hc⟩ | ⟨_, hc⟩
  · obtain ⟨l', hl', _, hstate⟩ := h.cached entry hentry
    rw [hc, hl'] at hl
    cases hl
    exact hstate
  · rw [hc, load, List.getElem?_eq_none (Nat.le_refl _)] at hl
    cases hl

/-- When the next load is due: now, or once the entry that is cached expires. -/
def due (s : BasePriceCalculatorCache) : Int :=
  match s.cached with
  | none => s.now
  | some entry => entry.expiresAt

/-- Each load has had its time to live since the start, or a failed one cleared the entry. -/
structure Paid (ttlMs : Nat) (since : Int) (s : BasePriceCalculatorCache) : Prop where
  paid : ttlMs * s.loads.length + since ≤ ttlMs * s.cleared + s.due
  soon : s.due ≤ s.now + ttlMs

theorem Paid.clock (h : Paid ttlMs since s) {s' : BasePriceCalculatorCache}
    (hcached : s'.cached = s.cached) (hloads : s'.loads.length = s.loads.length)
    (hcleared : s'.cleared = s.cleared) (hnow : s.now ≤ s'.now) : Paid ttlMs since s' := by
  obtain ⟨hpaid, hdue⟩ := h
  have hle : s.due ≤ s'.due ∧ s'.due ≤ s'.now + ttlMs := by
    rw [BasePriceCalculatorCache.due] at hdue
    rw [BasePriceCalculatorCache.due, BasePriceCalculatorCache.due, hcached]
    cases hc : s.cached with
    | none => exact ⟨hnow, by dsimp only; omega⟩
    | some entry =>
      rw [hc] at hdue
      exact ⟨Int.le_refl _, by dsimp only at hdue ⊢; omega⟩
  refine ⟨?_, hle.2⟩
  rw [hloads, hcleared]
  exact hpaid.trans (Int.add_le_add_left hle.1 _)

/-- A call loads when it is due, so the load before it has had its time. -/
theorem Paid.load (h : Paid ttlMs since s) (hdue : s.due ≤ s.now) (elapsed : Nat) :
    Paid ttlMs since (s.load ttlMs elapsed).1 := by
  obtain ⟨hpaid, _⟩ := h
  refine ⟨?_, Int.le_refl _⟩
  rw [BasePriceCalculatorCache.load, BasePriceCalculatorCache.due]
  dsimp only
  rw [List.length_append, List.length_singleton, Nat.cast_add, mul_add, Nat.cast_one, mul_one]
  have : (0 : Int) ≤ elapsed := Int.natCast_nonneg elapsed
  linarith

theorem Paid.step (h : Paid ttlMs since s) (e : CacheEvent) :
    Paid ttlMs since (s.step engine ttlMs e) := by
  have hset (k : Nat) (f : LoadState → LoadState) : (s.setLoad k f).loads.length = s.loads.length :=
    List.length_modify ..
  cases e with
  | tick elapsed => exact h.clock rfl rfl rfl (now_le_step engine ttlMs s (.tick elapsed))
  | edit table => exact h.clock rfl rfl rfl (Int.le_refl _)
  | current elapsed =>
    rw [BasePriceCalculatorCache.step]
    dsimp only
    rcases s.current_cases ttlMs elapsed with ⟨_, _, _, hc⟩ | ⟨hexpired, hc⟩
    · rw [hc]
      exact h.clock rfl rfl rfl (Int.le_refl _)
    · rw [hc]
      have hdue : s.due ≤ s.now := by
        rw [due]
        split
        · exact Int.le_refl _
        · rename_i entry hentry
          exact hexpired entry hentry
      exact (h.load hdue elapsed).clock rfl rfl rfl (Int.le_refl _)
  | query k => exact h.clock rfl (hset k _) rfl (Int.le_refl _)
  | settle k => exact h.clock rfl (hset k _) rfl (Int.le_refl _)
  | reject k => exact h.clock rfl (hset k _) rfl (Int.le_refl _)
  | handle k =>
    rw [BasePriceCalculatorCache.step]
    split
    · obtain ⟨hpaid, hdue⟩ := h
      refine ⟨?_, Int.le_add_of_nonneg_right (Int.natCast_nonneg ttlMs)⟩
      rw [due]
      dsimp only
      rw [hset, Nat.cast_add, mul_add, Nat.cast_one, mul_one]
      change _ ≤ _ + s.now
      linarith
    · exact h

theorem Paid.run (h : Paid ttlMs since s) (events : List CacheEvent) :
    Paid ttlMs since (Library.run (BasePriceCalculatorCache.step engine ttlMs) s events) := by
  induction events generalizing s with
  | nil => exact h
  | cons e events ih => exact ih (h.step e)

theorem start_paid (ttlMs : Nat) (now : Int) (table : List PricingRuleRow) :
    Paid ttlMs now (.start now table) := by
  refine ⟨?_, Int.le_add_of_nonneg_right (Int.natCast_nonneg ttlMs)⟩
  change ttlMs * ((0 : Nat) : Int) + now ≤ ttlMs * ((0 : Nat) : Int) + now
  exact Int.le_refl _

end

/-- In every run, a calculator that a call is given has the rules of an instant no earlier than the
time to live before the call; no call is given a load whose failure has been handled; and the table
is queried once for each time to live that has passed, for each failure, and once more. -/
theorem rules_cache (engine : RulesEngine) (ttlMs : Nat) (now : Int) (table : List PricingRuleRow)
    (events : List CacheEvent) :
    (∀ t k, (t, k) ∈ (run (step engine ttlMs) (.start now table) events).served →
      ∃ l, (run (step engine ttlMs) (.start now table) events).loads[k]? = some l ∧
        ∀ calculator, l.state = .fulfilled calculator → ∃ before after,
          events = before ++ after ∧
          t - ttlMs ≤ (run (step engine ttlMs) (.start now table) before).now ∧
          BasePriceCalculator.fromRules engine
            (run (step engine ttlMs) (.start now table) before).source = .ok calculator) ∧
    (∀ before elapsed after, events = before ++ .current elapsed :: after →
      ∀ l, (run (step engine ttlMs) (.start now table) before).loads[
        ((run (step engine ttlMs) (.start now table) before).current ttlMs elapsed).2]? = some l →
        l.state ≠ .handled) ∧
    ttlMs * (run (step engine ttlMs) (.start now table) events).loads.length ≤
      ttlMs * ((run (step engine ttlMs) (.start now table) events).cleared + 1) +
        ((run (step engine ttlMs) (.start now table) events).now - now) := by
  have hfresh := Fresh.run engine ttlMs now table
  refine ⟨?_, ?_, ?_⟩
  · intro t k hmem
    obtain ⟨l, hl, hle⟩ := (hfresh events).served t k hmem
    refine ⟨l, hl, ?_⟩
    intro calculator hstate
    have hread := (hfresh events).read k l hl
    rw [hstate] at hread
    obtain ⟨rows, ⟨before, after, rfl, hsince, hrows⟩, hcompiled⟩ := hread
    refine ⟨before, after, rfl, ?_, ?_⟩
    · exact (Int.sub_le_sub_right hle _).trans hsince
    · rw [hrows, hcompiled]
  · intro before elapsed after _ l hl
    exact (hfresh before).current_not_handled elapsed hl
  · obtain ⟨hpaid, hdue⟩ := (start_paid ttlMs now table).run events
    rw [mul_add, mul_one]
    linarith

end BasePriceCalculatorCache

end PromotionManagement
