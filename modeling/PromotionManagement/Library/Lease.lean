import PromotionManagement.Library.Run
import Mathlib.Order.Lattice

namespace PromotionManagement.Library
set_option autoImplicit true

/-- A lock that is leased: free, held until an instant, or retired for good. -/
inductive Lease (τ : Type) where
  | free
  | held (expiresAt : τ)
  | retired
  deriving DecidableEq

/-- A claim that succeeded. -/
structure Grant (ι τ : Type) where
  holder : ι
  grantedAt : τ
  expiresAt : τ
  deriving DecidableEq

/-- The lock, its grants with the latest first, and the holders that have released it. -/
structure LeaseLock (ι τ : Type) where
  lease : Lease τ
  grants : List (Grant ι τ)
  released : List ι

/-- What is asked of a lock. The instant a lease expires at is the proof of holding it. -/
inductive LeaseEvent (ι τ : Type) where
  | claim (holder : ι) (now expiresAt : τ)
  | release (holder : ι) (expiresAt : τ)
  | retire

variable {ι τ : Type} [LinearOrder τ]

def Lease.Claimable (now : τ) : Lease τ → Prop
  | free => True
  | held expiresAt => expiresAt < now
  | retired => False

instance (now : τ) (lease : Lease τ) : Decidable (lease.Claimable now) :=
  match lease with
  | .free => .isTrue trivial
  | .held expiresAt => inferInstanceAs (Decidable (expiresAt < now))
  | .retired => .isFalse id

namespace LeaseLock

def step (s : LeaseLock ι τ) : LeaseEvent ι τ → LeaseLock ι τ
  | .claim holder now expiresAt =>
    if s.lease.Claimable now then
      { s with lease := .held expiresAt, grants := ⟨holder, now, expiresAt⟩ :: s.grants }
    else s
  | .release holder expiresAt =>
    if s.lease = .held expiresAt then { s with lease := .free, released := holder :: s.released }
    else s
  | .retire => { s with lease := .retired }

/-- A user claims once, no earlier than the claims before it, for a lease that has yet to expire,
and gives back its own lease once. -/
def Obeys (s : LeaseLock ι τ) : LeaseEvent ι τ → Prop
  | .claim holder now expiresAt =>
    (∀ g ∈ s.grants, g.holder ≠ holder ∧ g.grantedAt ≤ now) ∧ now < expiresAt
  | .release holder expiresAt =>
    (∃ g ∈ s.grants, g.holder = holder ∧ g.expiresAt = expiresAt) ∧ holder ∉ s.released
  | .retire => True

/-- The latest grant holds the lock until it releases it, and each grant before it was released or
had expired when the latest was made. -/
structure Sound (s : LeaseLock ι τ) : Prop where
  expires : ∀ g ∈ s.grants, g.grantedAt < g.expiresAt
  known : ∀ holder ∈ s.released, ∃ g ∈ s.grants, g.holder = holder
  passed : ∀ g rest, s.grants = g :: rest → ∀ old ∈ rest,
    old.expiresAt < g.grantedAt ∨ old.holder ∈ s.released
  held : ∀ expiresAt, s.lease = .held expiresAt →
    ∃ g rest, s.grants = g :: rest ∧ g.expiresAt = expiresAt ∧ g.holder ∉ s.released
  free : s.lease = .free → ∀ g rest, s.grants = g :: rest → g.holder ∈ s.released

theorem sound_start (lease : Lease τ) (h : ∀ expiresAt, lease ≠ .held expiresAt) :
    Sound (⟨lease, [], []⟩ : LeaseLock ι τ) := by
  constructor
  · exact fun g hg => absurd hg List.not_mem_nil
  · exact fun i hi => absurd hi List.not_mem_nil
  · exact fun g rest he => absurd he.symm (List.cons_ne_nil g rest)
  · exact fun expiresAt he => absurd he (h expiresAt)
  · exact fun _ g rest he => absurd he.symm (List.cons_ne_nil g rest)

/-- When a claim succeeds, every earlier lease has expired or has been released. -/
theorem Sound.exclusive {s : LeaseLock ι τ} (h : s.Sound) {now : τ}
    (hclaimable : s.lease.Claimable now) (hnow : ∀ g ∈ s.grants, g.grantedAt ≤ now) :
    ∀ g ∈ s.grants, g.expiresAt < now ∨ g.holder ∈ s.released := by
  intro g hg
  cases hgrants : s.grants with
  | nil =>
    rw [hgrants] at hg
    cases hg
  | cons latest rest =>
    rw [hgrants] at hg
    rcases List.mem_cons.1 hg with rfl | hold
    · cases hlease : s.lease with
      | free => exact .inr (h.free hlease g rest hgrants)
      | held expiresAt =>
        obtain ⟨g', rest', he, rfl, _⟩ := h.held expiresAt hlease
        rw [hgrants] at he
        cases he
        rw [hlease] at hclaimable
        exact .inl hclaimable
      | retired =>
        rw [hlease] at hclaimable
        exact hclaimable.elim
    · rcases h.passed latest rest hgrants g hold with hlt | hr
      · have hle := hnow latest (hgrants ▸ List.mem_cons_self)
        exact .inl (lt_of_lt_of_le hlt hle)
      · exact .inr hr

/-- A release that gives the lock back is the latest holder's. -/
theorem Sound.releases {s : LeaseLock ι τ} (h : s.Sound) {holder : ι} {expiresAt : τ}
    (hobeys : s.Obeys (.release holder expiresAt)) (hlease : s.lease = .held expiresAt) :
    ∃ g rest, s.grants = g :: rest ∧ g.holder = holder ∧ g.expiresAt = expiresAt := by
  obtain ⟨⟨own, hown, rfl, hexpires⟩, hnot⟩ := hobeys
  obtain ⟨g, rest, hgrants, he, _⟩ := h.held expiresAt hlease
  refine ⟨g, rest, hgrants, ?_, he⟩
  rw [hgrants] at hown
  rcases List.mem_cons.1 hown with rfl | hold
  · rfl
  · rcases h.passed g rest hgrants own hold with hlt | hr
    · have hlater := h.expires g (hgrants ▸ List.mem_cons_self)
      rw [he] at hlater
      rw [hexpires] at hlt
      exact absurd (lt_trans hlt hlater) (lt_irrefl _)
    · exact absurd hr hnot

theorem Sound.step {s : LeaseLock ι τ} (h : s.Sound) {e : LeaseEvent ι τ} (hobeys : s.Obeys e) :
    (s.step e).Sound := by
  cases e with
  | claim holder now expiresAt =>
    rw [LeaseLock.step]
    split
    · rename_i hclaimable
      obtain ⟨hfresh, hlt⟩ := hobeys
      constructor
      · intro g hg
        rcases List.mem_cons.1 hg with rfl | hg
        · exact hlt
        · exact h.expires g hg
      · intro i hi
        obtain ⟨g, hg, hgi⟩ := h.known i hi
        exact ⟨g, List.mem_cons_of_mem _ hg, hgi⟩
      · intro g rest he old hold
        cases he
        exact h.exclusive hclaimable (fun g hg => (hfresh g hg).2) old hold
      · intro u hu
        cases hu
        refine ⟨_, _, rfl, rfl, fun hr => ?_⟩
        obtain ⟨g, hg, hgi⟩ := h.known holder hr
        exact (hfresh g hg).1 hgi
      · intro hf
        cases hf
    · exact h
  | release holder expiresAt =>
    rw [LeaseLock.step]
    split
    · rename_i hlease
      obtain ⟨latest, rest, hgrants, hholder, _⟩ := h.releases hobeys hlease
      constructor
      · exact h.expires
      · intro i hi
        rcases List.mem_cons.1 hi with rfl | hi
        · exact ⟨latest, hgrants ▸ List.mem_cons_self, hholder⟩
        · exact h.known i hi
      · exact fun g rest' he old hold =>
          (h.passed g rest' he old hold).imp_right (List.mem_cons_of_mem _)
      · intro u hu
        cases hu
      · intro _ g rest' he
        cases hgrants.symm.trans he
        exact hholder ▸ List.mem_cons_self
    · exact h
  | retire =>
    constructor
    · exact h.expires
    · exact h.known
    · exact h.passed
    · intro u hu
      cases hu
    · intro hf
      cases hf

end LeaseLock

end PromotionManagement.Library
