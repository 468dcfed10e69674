import Mathlib.Data.List.MinMax
import Mathlib.Data.List.Dedup

namespace PromotionManagement.Library
set_option autoImplicit true

variable {α κ τ : Type} [DecidableEq κ] [LinearOrder τ] {key : α → κ} {stamp : α → τ}

/-- The operation of a key with the greatest stamp, the first of them when several have it. -/
def newest (key : α → κ) (stamp : α → τ) (l : List α) (k : κ) : Option α :=
  (l.filter fun a => key a = k).argmax stamp

/-- The operations that are the newest of their key, one for each key. -/
def winners (key : α → κ) (stamp : α → τ) (l : List α) : List α :=
  (l.map key).dedup.filterMap (newest key stamp l)

@[simp] theorem newest_nil (k : κ) : newest key stamp [] k = none := rfl

theorem newest_mem (h : newest key stamp l k = some a) : a ∈ l ∧ key a = k := by
  have hm := List.mem_filter.1 (List.argmax_mem (Option.mem_def.2 h))
  exact ⟨hm.1, of_decide_eq_true hm.2⟩

theorem stamp_le_newest (h : newest key stamp l k = some a) (hb : b ∈ l) (hk : key b = k) :
    stamp b ≤ stamp a := by
  apply List.le_of_mem_argmax _ (Option.mem_def.2 h)
  exact List.mem_filter.2 ⟨hb, decide_eq_true hk⟩

theorem le_newest (ha : a ∈ l) (hk : key a = k) :
    ∃ b, newest key stamp l k = some b ∧ stamp a ≤ stamp b := by
  cases h : newest key stamp l k with
  | none =>
    have hnil := List.argmax_eq_none.1 h
    exact absurd (List.mem_filter.2 ⟨ha, decide_eq_true hk⟩) (hnil ▸ List.not_mem_nil)
  | some b => exact ⟨b, rfl, stamp_le_newest h ha hk⟩

theorem newest_eq_none : newest key stamp l k = none ↔ ∀ a ∈ l, key a ≠ k := by
  simp only [newest, List.argmax_eq_none, List.filter_eq_nil_iff, decide_eq_true_eq, ne_eq]

/-- An operation on another key changes nothing for this one. -/
theorem newest_concat_of_ne (h : key a ≠ k) :
    newest key stamp (l ++ [a]) k = newest key stamp l k := by
  have hf : ([a].filter fun b => key b = k) = [] := by
    simp only [List.filter_cons, h, decide_false, Bool.false_eq_true, if_false, List.filter_nil]
  rw [newest, List.filter_append, hf, List.append_nil, newest]

theorem newest_append_of_ne (h : ∀ a ∈ m, key a ≠ k) :
    newest key stamp (l ++ m) k = newest key stamp l k := by
  have hf : (m.filter fun b => key b = k) = [] := by
    apply List.filter_eq_nil_iff.2
    intro a ha
    exact decide_eq_true_iff.not.2 (h a ha)
  rw [newest, List.filter_append, hf, List.append_nil, newest]

/-- Among operations later than all before them, one on this key is its newest. -/
theorem newest_append_of_lt (hlt : ∀ a ∈ l, ∀ b ∈ m, stamp a < stamp b) (hb : b ∈ m)
    (hk : key b = k) : ∃ c ∈ m, key c = k ∧ newest key stamp (l ++ m) k = some c := by
  obtain ⟨c, hc, hle⟩ : ∃ c, newest key stamp (l ++ m) k = some c ∧ stamp b ≤ stamp c :=
    le_newest (List.mem_append_right l hb) hk
  obtain ⟨hmem, hck⟩ := newest_mem hc
  rcases List.mem_append.1 hmem with hl | hm
  · exact absurd (hlt c hl b hb) (not_lt.2 hle)
  · exact ⟨c, hm, hck, hc⟩

theorem newest_concat_self (key : α → κ) (stamp : α → τ) (l : List α) (a : α) :
    newest key stamp (l ++ [a]) (key a) =
      match newest key stamp l (key a) with
      | none => some a
      | some b => if stamp b < stamp a then some a else some b := by
  have hf : ([a].filter fun b => key b = key a) = [a] := by
    simp only [List.filter_cons, decide_true, if_true, List.filter_nil]
  rw [newest, List.filter_append, hf, List.argmax_concat, newest]
  cases (l.filter fun b => key b = key a).argmax stamp with
  | none => rfl
  | some b => rfl

/-- Neither the order nor the repetition of operations matters while stamps tell them apart. -/
theorem newest_congr (hm : ∀ a, a ∈ l ↔ a ∈ m)
    (hd : ∀ a ∈ l, ∀ b ∈ l, key a = key b → stamp a = stamp b → a = b) (k : κ) :
    newest key stamp l k = newest key stamp m k := by
  cases hl : newest key stamp l k with
  | none =>
    have hn := newest_eq_none.1 hl
    exact (newest_eq_none.2 fun a ha => hn a ((hm a).2 ha)).symm
  | some a =>
    obtain ⟨hal, hak⟩ := newest_mem hl
    cases hr : newest key stamp m k with
    | none => exact absurd hak (newest_eq_none.1 hr a ((hm a).1 hal))
    | some b =>
      obtain ⟨hbm, hbk⟩ := newest_mem hr
      have hbl := (hm b).2 hbm
      have hle := stamp_le_newest hl hbl hbk
      have hge := stamp_le_newest hr ((hm a).1 hal) hak
      rw [hd a hal b hbl (hak.trans hbk.symm) (le_antisymm hge hle)]

theorem mem_winners : a ∈ winners key stamp l ↔ newest key stamp l (key a) = some a := by
  simp only [winners, List.mem_filterMap, List.mem_dedup, List.mem_map]
  constructor
  · intro ⟨k, _, hk⟩
    rw [(newest_mem hk).2]
    exact hk
  · intro h
    exact ⟨key a, ⟨a, (newest_mem h).1, rfl⟩, h⟩

/-- The winners by themselves have the same newest operations. -/
theorem newest_winners (l : List α) (k : κ) :
    newest key stamp (winners key stamp l) k = newest key stamp l k := by
  cases hl : newest key stamp l k with
  | none =>
    apply newest_eq_none.2
    intro a ha
    exact newest_eq_none.1 hl a (newest_mem (mem_winners.1 ha)).1
  | some a =>
    obtain ⟨_, hak⟩ := newest_mem hl
    have hw : a ∈ winners key stamp l := mem_winners.2 (hak ▸ hl)
    cases hr : newest key stamp (winners key stamp l) k with
    | none => exact absurd hak (newest_eq_none.1 hr a hw)
    | some b =>
      obtain ⟨hb, hbk⟩ := newest_mem hr
      have hlb := mem_winners.1 hb
      rw [hbk, hl] at hlb
      exact hlb.symm

end PromotionManagement.Library
