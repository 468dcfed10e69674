import PromotionManagement.AnnouncedCalls

namespace PromotionManagement
open Library PromotionScheduler
set_option autoImplicit true

/-- Each product that no pending announcement and no handler will recompute is fresh, or is the
target of a stale promotion. -/
structure AnnouncedConverging (engine : PromotionEngine) (skew : Int) (s : AnnouncedState) :
    Prop where
  announcing : Outstanding skew s
  converging : s.front.ConvergesBut engine s.stale

namespace AnnouncedConverging

variable {engine : PromotionEngine} {skew : Int} {s : AnnouncedState}

theorem initial (engine : PromotionEngine) (skew now : Int) :
    AnnouncedConverging engine skew (.initial now) :=
  ⟨.initial skew now, .initial engine now⟩

theorem land (h : s.front.ConvergesBut engine s.stale) (skew startedAt : Int) (confirmed : Bool)
    (asked : Asked) : (s.land skew startedAt confirmed asked).front.ConvergesBut engine
      (s.land skew startedAt confirmed asked).stale := by
  rw [AnnouncedState.land]
  split
  · split
    · exact h.release [_]
    · exact h.release [_]
  · rw [AnnouncedState.schedule]
    split
    · exact h
    · exact h
  · exact h

theorem step (h : AnnouncedConverging engine skew s) {e : AnnouncedEvent}
    (hdates : ReadsDates newDate) (hstamped : s.Stamped e) :
    AnnouncedConverging engine skew (s.step newDate engine skew e) := by
  refine ⟨h.announcing.step hdates engine hstamped, ?_⟩
  cases e with
  | front e =>
    rw [AnnouncedState.step]
    split
    · rename_i hwrites
      exact h.converging.quiet hwrites
    · exact h.converging.step e
  | land position startedAt confirmed =>
    rw [AnnouncedState.step]
    split
    · split
      · exact land (s := { s with asked := s.asked.eraseIdx position }) h.converging skew startedAt
          confirmed _
      · exact h.converging
    · exact h.converging
  | lose position =>
    rw [AnnouncedState.step]
    split
    · exact h.converging
    · exact h.converging
  | take position =>
    rw [AnnouncedState.step]
    split
    · split
      · exact h.converging.release [_]
      · exact h.converging
    · exact h.converging
  | forget jobId =>
    rw [AnnouncedState.step]
    split
    · exact h.converging
    · exact h.converging

end AnnouncedConverging

namespace AnnouncedState

variable {engine : PromotionEngine} {skew : Int} {s : AnnouncedState}

/-- The promotion repriced products at an event of the run, and was not announced since. -/
def UnannouncedSince (newDate : Int → Int) (engine : PromotionEngine) (skew : Int)
    (s : AnnouncedState) (events : List AnnouncedEvent) (id : Nat) : Prop :=
  ∃ pre e post, events = pre ++ e :: post ∧
    id ∈ (run (step newDate engine skew) s pre).repriced e ∧
    Along (step newDate engine skew) (fun s e => id ∉ s.announcing skew e)
      (run (step newDate engine skew) s (pre ++ [e])) post

theorem mem_land_stale {id : Nat} {asked : Asked}
    (h : id ∈ (s.land skew startedAt confirmed asked).stale) :
    id ∈ s.stale ∧ asked.operation ≠ .publish id none := by
  rw [land] at h
  cases hop : asked.operation with
  | publish promotionId options =>
    rw [hop] at h
    cases options with
    | none =>
      have hkept : id ∈ s.stale.filter fun id => id ∉ [promotionId] := by
        dsimp only at h
        split at h
        · exact h
        · exact h
      obtain ⟨hid, hne⟩ := List.mem_filter.1 hkept
      refine ⟨hid, fun heq => of_decide_eq_true hne ?_⟩
      cases heq
      exact List.mem_singleton_self id
    | some options =>
      have hkept : id ∈ s.stale := by
        dsimp only at h
        rw [schedule] at h
        split at h
        · exact h
        · exact h
      refine ⟨hkept, fun heq => ?_⟩
      cases heq
  | remove jobId =>
    rw [hop] at h
    refine ⟨h, fun heq => ?_⟩
    cases heq

theorem land_lost (s : AnnouncedState) (skew startedAt : Int) (confirmed : Bool) (asked : Asked) :
    (s.land skew startedAt confirmed asked).lost = s.lost := by
  rw [land]
  split
  · split
    · rfl
    · rfl
  · rw [schedule]
    split
    · rfl
    · rfl
  · rfl

theorem mem_announcing_land {id : Nat}
    (h : id ∈ s.announcing skew (.land position startedAt confirmed)) :
    ∃ asked, s.asked[position]? = some asked ∧ asked.operation = .publish id none ∧
      asked.since ≤ startedAt ∧ startedAt ≤ s.clock skew := by
  rw [announcing] at h
  split at h
  · rename_i promotionId since cancels hget
    split at h
    · rename_i hstarted
      obtain rfl := List.mem_singleton.1 h
      exact ⟨_, hget, rfl, hstarted⟩
    · exact absurd h List.not_mem_nil
  · exact absurd h List.not_mem_nil

/-- What is stale was stale already or has just been repriced, and is not announced. -/
theorem stale_step {e : AnnouncedEvent} {id : Nat}
    (h : id ∈ (s.step newDate engine skew e).stale) :
    id ∉ s.announcing skew e ∧ (id ∈ s.stale ∨ id ∈ s.repriced e) := by
  cases e with
  | front e =>
    refine ⟨List.not_mem_nil, ?_⟩
    rw [step] at h
    split at h
    · exact List.mem_append.1 h
    · exact .inl h
  | land position startedAt confirmed =>
    rw [step] at h
    cases hget : s.asked[position]? with
    | none =>
      rw [hget] at h
      refine ⟨fun hmem => ?_, .inl h⟩
      obtain ⟨_, hsome, _⟩ := mem_announcing_land hmem
      cases hget.symm.trans hsome
    | some asked =>
      rw [hget] at h
      dsimp only at h
      split at h
      · obtain ⟨hid, hne⟩ := mem_land_stale h
        refine ⟨fun hmem => ?_, .inl hid⟩
        obtain ⟨_, hsome, hop, _⟩ := mem_announcing_land hmem
        cases hget.symm.trans hsome
        exact hne hop
      · rename_i hstarted
        refine ⟨fun hmem => ?_, .inl h⟩
        obtain ⟨_, hsome, _, hwithin⟩ := mem_announcing_land hmem
        cases hget.symm.trans hsome
        exact hstarted hwithin
  | lose position =>
    refine ⟨List.not_mem_nil, .inl ?_⟩
    rw [step] at h
    split at h
    · exact h
    · exact h
  | take position =>
    rw [step] at h
    rw [announcing]
    cases hget : s.delayed[position]? with
    | none =>
      rw [hget] at h
      exact ⟨List.not_mem_nil, .inl h⟩
    | some job =>
      rw [hget] at h
      dsimp only at h ⊢
      split at h
      · rename_i hdue
        rw [if_pos hdue]
        obtain ⟨hid, hne⟩ := List.mem_filter.1 h
        exact ⟨of_decide_eq_true hne, .inl hid⟩
      · rename_i hdue
        rw [if_neg hdue]
        exact ⟨List.not_mem_nil, .inl h⟩
  | forget jobId =>
    refine ⟨List.not_mem_nil, .inl ?_⟩
    rw [step] at h
    split at h
    · exact h
    · exact h

theorem stale_since {id : Nat} (h₀ : id ∉ s.stale)
    (h : id ∈ (run (step newDate engine skew) s events).stale) :
    UnannouncedSince newDate engine skew s events id :=
  begun_since (fun s : AnnouncedState => id ∈ s.stale) (fun s e => id ∈ s.repriced e)
    (fun _ _ => stale_step) h₀ h

theorem lost_step {e : AnnouncedEvent} (h : a ∈ (s.step newDate engine skew e).lost) :
    a ∈ s.lost ∨ s.losing e = some a := by
  cases e with
  | front e =>
    left
    rw [step] at h
    split at h
    · exact h
    · exact h
  | land position startedAt confirmed =>
    left
    rw [step] at h
    split at h
    · split at h
      · rw [land_lost] at h
        exact h
      · exact h
    · exact h
  | lose position =>
    rw [step] at h
    rw [losing]
    cases hget : s.asked[position]? with
    | none =>
      rw [hget] at h
      exact .inl h
    | some asked =>
      rw [hget] at h
      refine (List.mem_append.1 h).imp_right fun ha => ?_
      rw [List.mem_singleton.1 ha]
  | take position =>
    left
    rw [step] at h
    split at h
    · split at h
      · exact h
      · exact h
    · exact h
  | forget jobId =>
    left
    rw [step] at h
    split at h
    · exact h
    · exact h

/-- A call that is lost was lost by an event of the run. -/
theorem lost_since (h₀ : a ∉ s.lost) (h : a ∈ (run (step newDate engine skew) s events).lost) :
    ∃ pre e post, events = pre ++ e :: post ∧
      (run (step newDate engine skew) s pre).losing e = some a := by
  have hstep (s : AnnouncedState) (e : AnnouncedEvent)
      (h : a ∈ (s.step newDate engine skew e).lost) :
      True ∧ (a ∈ s.lost ∨ s.losing e = some a) := ⟨trivial, lost_step h⟩
  obtain ⟨pre, e, post, hevents, hlosing, _⟩ := begun_since (fun s : AnnouncedState => a ∈ s.lost)
    (fun s e => s.losing e = some a) hstep h₀ h
  exact ⟨pre, e, post, hevents, hlosing⟩

end AnnouncedState

def scarfLaunch : CreatePromotion :=
  ⟨['P'], .percentage, 2500, 100000000, 200000000, some 1, none⟩

/-- A product is published, its sale is created ahead of time, and the job of its start is taken. -/
def announcedScarf : List AnnouncedEvent :=
  [.front (.insertProduct scarf), .front (.deliver 0 0), .front (.read 0 1 fun _ => []),
    .front (.run 0), .front (.run 0), .front (.clock 10000000),
    .front (.createPromotion scarfLaunch 9000000), .land 0 10000 true, .land 0 10000 true,
    .front (.clock 140000000), .take 1, .front (.deliver 0 0), .front (.find 0),
    .front (.publish 0), .front (.deliver 0 0), .front (.read 0 2 fun _ => [⟨1, .product⟩]),
    .front (.run 0), .front (.run 0)]

def announcedScarfEnd : AnnouncedState :=
  run (AnnouncedState.step millis productFirst 0) (.initial 0) announcedScarf

theorem announcedScarf_idle (i : Nat) : announcedScarfEnd.front.handlers i = .idle := by
  match i with
  | 0 => rfl
  | i + 1 => rfl

theorem announcedScarf_stamped : Along (AnnouncedState.step millis productFirst 0)
    AnnouncedState.Stamped (.initial 0) announcedScarf := by
  have hwindow : PlainDate 100000000 ∧ PlainDate 200000000 := by
    simp only [PlainDate, year100, year10000]
    omega
  have hstamp : (9000000 : Int) ≤ 10000000 := by decide
  exact ⟨trivial, trivial, trivial, trivial, trivial, trivial, ⟨hstamp, hwindow⟩, trivial, trivial,
    trivial, trivial, trivial, trivial, trivial, trivial, trivial, trivial, trivial, trivial⟩

theorem announcedScarf_kept : Along (AnnouncedState.step millis productFirst 0)
    (fun s e => s.losing e = none) (.initial 0) announcedScarf := by
  decide +kernel

end PromotionManagement
