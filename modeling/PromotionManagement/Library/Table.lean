import Mathlib.Data.List.Induction
import Mathlib.Data.List.Nodup
import Mathlib.Algebra.BigOperators.Group.List.Basic
import Mathlib.Algebra.Ring.Nat

namespace PromotionManagement.Library
set_option autoImplicit true

/-- A table is a list of rows whose primary keys are distinct. -/
structure Table (key : ρ → κ) where
  rows : List ρ
  unique : (rows.map key).Nodup

namespace Table

variable {ρ κ : Type} {key : ρ → κ}

@[ext] theorem ext {t u : Table key} (h : t.rows = u.rows) : t = u := by
  cases t; cases u; cases h; rfl

def empty : Table key := ⟨[], List.nodup_nil⟩

theorem eq_of_key (t : Table key) (hr : r ∈ t.rows) (hs : s ∈ t.rows)
    (h : key r = key s) : r = s :=
  List.inj_on_of_nodup_map t.unique hr hs h

variable [DecidableEq κ]

def find (t : Table key) (k : κ) : Option ρ := t.rows.find? fun r => key r = k

theorem find_some_key {t : Table key} (h : t.find k = some r) : key r = k := by
  simpa only [decide_eq_true_eq] using List.find?_some h

theorem find_some_mem {t : Table key} (h : t.find k = some r) : r ∈ t.rows :=
  List.mem_of_find?_eq_some h

theorem eq_of_find {t : Table key} (h : t.find k = some r) (hs : s ∈ t.rows) (hk : key s = k) :
    s = r :=
  t.eq_of_key hs (find_some_mem h) (hk.trans (find_some_key h).symm)

theorem find_of_mem (t : Table key) (h : r ∈ t.rows) : t.find (key r) = some r := by
  cases hf : t.find (key r) with
  | none =>
    have := List.find?_eq_none.1 hf r h
    simp only [decide_true, not_true_eq_false] at this
  | some s => rw [eq_of_find hf h rfl]

theorem find_eq_none {t : Table key} : t.find k = none ↔ ∀ r ∈ t.rows, key r ≠ k := by
  simp only [find, List.find?_eq_none, decide_eq_true_eq, ne_eq]

/-- `UPDATE ... SET set WHERE key = k AND guard`, for an assignment that keeps the key. -/
def update (t : Table key) (k : κ) (guard : ρ → Bool) (set : ρ → ρ)
    (hset : ∀ r, key (set r) = key r) : Table key where
  rows := t.rows.map fun r => if key r = k ∧ guard r then set r else r
  unique := by
    have : (t.rows.map fun r => if key r = k ∧ guard r then set r else r).map key =
        t.rows.map key := by
      rw [List.map_map]
      apply List.map_congr_left
      intro r _
      simp only [Function.comp_apply]
      split
      · exact hset r
      · rfl
    rw [this]
    exact t.unique

/-- `UPDATE ... SET set WHERE guard`, for an assignment that keeps the key. -/
def updateAll (t : Table key) (guard : ρ → Bool) (set : ρ → ρ)
    (hset : ∀ r, key (set r) = key r) : Table key where
  rows := t.rows.map fun r => if guard r then set r else r
  unique := by
    have : (t.rows.map fun r => if guard r then set r else r).map key = t.rows.map key := by
      rw [List.map_map]
      apply List.map_congr_left
      intro r _
      simp only [Function.comp_apply]
      split
      · exact hset r
      · rfl
    rw [this]
    exact t.unique

/-- The row an `UPDATE ... RETURNING` answers with, if its guard matched one. -/
def updated (t : Table key) (k : κ) (guard : ρ → Bool) (set : ρ → ρ) : Option ρ :=
  (t.find k).bind fun r => if guard r then some (set r) else none

theorem find_map_keeping (l : List ρ) (f : ρ → ρ) (hf : ∀ r, key (f r) = key r) (k : κ) :
    (l.map f).find? (fun r => key r = k) = (l.find? fun r => key r = k).map f := by
  induction l with
  | nil => rfl
  | cons r l ih =>
    simp only [List.map_cons, List.find?_cons, hf, ih]
    split <;> rfl

theorem find_update (t : Table key) (k k' : κ) (guard : ρ → Bool) (set : ρ → ρ)
    (hset : ∀ r, key (set r) = key r) :
    (t.update k guard set hset).find k' =
      if k' = k then (t.find k').map fun r => if guard r then set r else r else t.find k' := by
  have hf : ∀ r, key (if key r = k ∧ guard r then set r else r) = key r := by
    intro r
    split
    · exact hset r
    · rfl
  rw [find, update, find_map_keeping _ _ hf]
  change (t.find k').map _ = _
  cases hk : t.find k' with
  | none => simp only [Option.map_none, ite_self]
  | some r =>
    have hr := find_some_key hk
    by_cases he : k' = k
    · simp only [Option.map_some, hr, he, true_and, if_true]
    · simp only [Option.map_some, hr, he, false_and, if_false]

theorem mem_update {t : Table key} {guard : ρ → Bool} {set : ρ → ρ}
    {hset : ∀ r, key (set r) = key r} : r ∈ (t.update k guard set hset).rows ↔
      ∃ s ∈ t.rows, (if key s = k ∧ guard s then set s else s) = r := List.mem_map

theorem mem_update_cases {t : Table key} {guard : ρ → Bool} {set : ρ → ρ}
    (hset : ∀ r, key (set r) = key r) (h : r ∈ (t.update k guard set hset).rows) :
    r ∈ t.rows ∨ ∃ s ∈ t.rows, key s = k ∧ guard s ∧ r = set s := by
  obtain ⟨s, hs, rfl⟩ := mem_update.1 h
  split
  · rename_i hk
    exact .inr ⟨s, hs, hk.1, hk.2, rfl⟩
  · exact .inl hs

theorem set_mem_update {t : Table key} {guard : ρ → Bool} {set : ρ → ρ}
    {hset : ∀ r, key (set r) = key r} (hr : r ∈ t.rows) (hk : key r = k) (hg : guard r) :
    set r ∈ (t.update k guard set hset).rows :=
  mem_update.2 ⟨r, hr, if_pos ⟨hk, hg⟩⟩

theorem mem_update_of_not {t : Table key} {guard : ρ → Bool} {set : ρ → ρ}
    {hset : ∀ r, key (set r) = key r} (hr : r ∈ t.rows) (hk : ¬(key r = k ∧ guard r)) :
    r ∈ (t.update k guard set hset).rows :=
  mem_update.2 ⟨r, hr, if_neg hk⟩

/-- An update of the row it finds replaces this row alone. -/
theorem mem_update_of_find {t : Table key} {guard : ρ → Bool} {set : ρ → ρ}
    {hset : ∀ r, key (set r) = key r} (hf : t.find k = some old) (hg : guard old) :
    r ∈ (t.update k guard set hset).rows ↔ (r ∈ t.rows ∧ r ≠ old) ∨ r = set old := by
  have hk := find_some_key hf
  constructor
  · intro h
    obtain ⟨s, hs, rfl⟩ := mem_update.1 h
    split
    · rename_i hc
      rw [eq_of_find hf hs hc.1]
      exact .inr rfl
    · rename_i hc
      refine .inl ⟨hs, ?_⟩
      rintro rfl
      exact hc ⟨hk, hg⟩
  · rintro (⟨hr, hne⟩ | rfl)
    · apply mem_update_of_not hr
      rintro ⟨he, _⟩
      exact hne (eq_of_find hf hr he)
    · exact set_mem_update (find_some_mem hf) hk hg

theorem filter_map_keeping {l : List ρ} {f : ρ → ρ} {p : ρ → Bool}
    (h : ∀ r ∈ l, f r = r ∨ p r = false ∧ p (f r) = false) : (l.map f).filter p = l.filter p := by
  induction l with
  | nil => rfl
  | cons r l ih =>
    rw [List.forall_mem_cons] at h
    rw [List.map_cons, List.filter_cons, List.filter_cons, ih h.2]
    rcases h.1 with hr | ⟨hp, hp'⟩
    · rw [hr]
    · rw [hp, hp']
      rfl

/-- A selection does not see an update of a row that it leaves out before and after. -/
theorem filter_update_of_find {t : Table key} {guard : ρ → Bool} {set : ρ → ρ}
    {hset : ∀ r, key (set r) = key r} {p : ρ → Bool} (hf : t.find k = some old)
    (hold : p old = false) (hnew : p (set old) = false) :
    (t.update k guard set hset).rows.filter p = t.rows.filter p := by
  apply filter_map_keeping
  intro r hr
  split
  · rename_i hk
    obtain rfl := eq_of_find hf hr hk.1
    exact .inr ⟨hold, hnew⟩
  · exact .inl rfl

/-- An update changes the row it names into the row it returns, and no other. -/
theorem find_update_of_ne (t : Table key) (guard : ρ → Bool) (set : ρ → ρ)
    (hset : ∀ r, key (set r) = key r) (h : k' ≠ k) :
    (t.update k guard set hset).find k' = t.find k' := by
  rw [find_update, if_neg h]

theorem find_update_self (t : Table key) (guard : ρ → Bool) (set : ρ → ρ)
    (hset : ∀ r, key (set r) = key r) :
    (t.update k guard set hset).find k =
      (t.find k).map fun r => if guard r then set r else r := by
  rw [find_update, if_pos rfl]

theorem update_of_updated_none {t : Table key} {guard : ρ → Bool} {set : ρ → ρ}
    {hset : ∀ r, key (set r) = key r} (h : t.updated k guard set = none) :
    t.update k guard set hset = t := by
  apply Table.ext
  change t.rows.map _ = _
  conv_rhs => rw [← List.map_id t.rows]
  apply List.map_congr_left
  intro r hr
  rw [if_neg]
  · rfl
  · rintro ⟨rfl, hg⟩
    simp only [updated, t.find_of_mem hr, Option.bind_some, hg, if_true, reduceCtorEq] at h

theorem updated_eq_some {t : Table key} {guard : ρ → Bool} {set : ρ → ρ} :
    t.updated k guard set = some r ↔ ∃ r₀, t.find k = some r₀ ∧ guard r₀ ∧ r = set r₀ := by
  simp only [updated, Option.bind_eq_some_iff]
  constructor
  · rintro ⟨r₀, h₀, h⟩
    split at h
    · rename_i hg
      exact ⟨r₀, h₀, hg, (Option.some.inj h).symm⟩
    · cases h
  · rintro ⟨r₀, h₀, hg, rfl⟩
    exact ⟨r₀, h₀, if_pos hg⟩

theorem updated_isSome_iff {t : Table key} {guard : ρ → Bool} {set : ρ → ρ}
    (h : t.find k = some r) : (t.updated k guard set).isSome = true ↔ guard r = true := by
  rw [updated, h, Option.bind_some]
  split
  · rename_i hg
    exact iff_of_true rfl hg
  · rename_i hg
    exact iff_of_false Bool.false_ne_true hg

/-- `INSERT ... ON CONFLICT DO NOTHING`. -/
def insert (t : Table key) (r : ρ) : Table key :=
  if h : t.find (key r) = none then
    { rows := t.rows ++ [r]
      unique := by
        simp only [List.map_append, List.map_cons, List.map_nil, List.nodup_append, t.unique,
          List.nodup_cons, List.not_mem_nil, not_false_eq_true, List.nodup_nil, and_self,
          true_and, List.mem_map, List.mem_singleton]
        rintro _ ⟨s, hs, rfl⟩ _ rfl
        exact find_eq_none.1 h s hs }
  else t

theorem find_insert (t : Table key) (r : ρ) (h : t.find (key r) = none) (k : κ) :
    (t.insert r).find k = if k = key r then some r else t.find k := by
  rw [insert, dif_pos h]
  simp only [find, List.find?_append, List.find?_cons, List.find?_nil]
  by_cases hk : k = key r
  · subst hk
    change (t.find (key r)).or _ = _
    rw [h]
    simp only [decide_true, Option.none_or, if_true]
  · simp only [Ne.symm hk, decide_false, hk, if_false, Option.or_none]

theorem mem_insert (t : Table key) (r : ρ) (h : t.find (key r) = none) :
    s ∈ (t.insert r).rows ↔ s ∈ t.rows ∨ s = r := by
  rw [insert, dif_pos h, List.mem_append, List.mem_singleton]

theorem mem_insert_of_mem {t : Table key} (h : s ∈ t.rows) (r : ρ) : s ∈ (t.insert r).rows := by
  rw [insert]
  split
  · exact List.mem_append_left _ h
  · exact h

/-- A `Map` set: a key that is there keeps its place and takes the new row. -/
def put (t : Table key) (r : ρ) : Table key :=
  if t.find (key r) = none then t.insert r
  else t.update (key r) (fun _ => true) (fun s => if key s = key r then r else s) fun s => by
    split
    · rename_i h
      exact h.symm
    · rfl

theorem find_put (t : Table key) (r : ρ) (k : κ) :
    (t.put r).find k = if k = key r then some r else t.find k := by
  by_cases h : t.find (key r) = none
  · rw [put, if_pos h, find_insert t r h]
  · rw [put, if_neg h, find_update]
    by_cases hk : k = key r
    · subst hk
      obtain ⟨s, hs⟩ := Option.ne_none_iff_exists'.1 h
      simp only [hs, find_some_key hs, Option.map_some, if_true]
    · rw [if_neg hk, if_neg hk]

/-- A `Map` built from a list of entries. -/
def ofList (key : ρ → κ) (l : List ρ) : Table key := l.foldl put empty

theorem find_foldl_put (l : List ρ) (t : Table key) (k : κ) :
    (l.foldl put t).find k = (l.filter fun r => key r = k).getLast?.or (t.find k) := by
  induction l generalizing t with
  | nil => rfl
  | cons r l ih =>
    rw [List.foldl_cons, ih, find_put, List.filter_cons]
    by_cases h : k = key r
    · subst h
      simp only [decide_true, if_true, List.getLast?_cons]
      cases (l.filter fun s => key s = key r).getLast? <;> rfl
    · simp only [h, Ne.symm h, decide_false, if_false, Bool.false_eq_true]

/-- The entry a `Map` holds for a key is the last one it was given. -/
theorem find_ofList (l : List ρ) (k : κ) :
    (ofList key l).find k = (l.filter fun r => key r = k).getLast? := by
  rw [ofList, find_foldl_put]
  exact Option.or_none

theorem mem_of_mem_ofList {l : List ρ} (h : r ∈ (ofList key l).rows) : r ∈ l := by
  have hf := (ofList key l).find_of_mem h
  rw [find_ofList] at hf
  exact (List.mem_filter.1 (List.mem_of_getLast? hf)).1

/-- Entries of different keys are held as they were given. -/
theorem rows_ofList {l : List ρ} (h : (l.map key).Nodup) : (ofList key l).rows = l := by
  induction l using List.reverseRecOn with
  | nil => rfl
  | append_singleton l r ih =>
    rw [List.map_append, List.map_singleton, List.nodup_append] at h
    obtain ⟨hl, _, hne⟩ := h
    have hput : ofList key (l ++ [r]) = (ofList key l).put r := List.foldl_concat ..
    have hnone : (ofList key l).find (key r) = none := by
      rw [find_eq_none, ih hl]
      exact fun s hs => hne _ (List.mem_map_of_mem hs) _ (List.mem_singleton_self _)
    rw [hput, put, if_pos hnone, insert, dif_pos hnone]
    dsimp only
    rw [ih hl]

theorem map_key_insert (t : Table key) (r : ρ) (h : t.find (key r) = none) :
    (t.insert r).rows.map key = t.rows.map key ++ [key r] := by
  rw [insert, dif_pos h, List.map_append, List.map_cons, List.map_nil]

theorem map_key_update (t : Table key) (k : κ) (guard : ρ → Bool) (set : ρ → ρ)
    (hset : ∀ r, key (set r) = key r) :
    (t.update k guard set hset).rows.map key = t.rows.map key := by
  rw [update, List.map_map]
  apply List.map_congr_left
  intro r _
  simp only [Function.comp_apply]
  split
  · exact hset r
  · rfl

/-- An update shows only in what the assignment changes. -/
theorem map_update (t : Table key) (k : κ) (guard : ρ → Bool) (set : ρ → ρ)
    (hset : ∀ r, key (set r) = key r) {f : ρ → β} (hf : ∀ r, f (set r) = f r) :
    (t.update k guard set hset).rows.map f = t.rows.map f := by
  rw [update, List.map_map]
  apply List.map_congr_left
  intro r _
  simp only [Function.comp_apply]
  split
  · exact hf r
  · rfl

theorem map_key_put (t : Table key) (r : ρ) : (t.put r).rows.map key =
    t.rows.map key ++ if key r ∈ t.rows.map key then [] else [key r] := by
  have hmem : key r ∈ t.rows.map key ↔ t.find (key r) ≠ none := by
    rw [ne_eq, find_eq_none, List.mem_map]
    simp only [ne_eq, not_forall, not_not, exists_prop]
  by_cases h : t.find (key r) = none
  · rw [put, if_pos h, map_key_insert t r h, if_neg fun hm => hmem.1 hm h]
  · rw [put, if_neg h, map_key_update, if_pos (hmem.2 h), List.append_nil]

/-- A `Map` built from a list holds its keys in the order of their first entries. -/
theorem map_key_ofList [BEq κ] [LawfulBEq κ] (l : List ρ) :
    (ofList key l).rows.map key = (l.map key).eraseDups := by
  induction l using List.reverseRecOn with
  | nil => rfl
  | append_singleton l r ih =>
    have hput : ofList key (l ++ [r]) = (ofList key l).put r := List.foldl_concat ..
    rw [hput, map_key_put, ih, List.map_append, List.eraseDups_append]
    simp only [List.mem_eraseDups, List.map_cons, List.map_nil, List.removeAll, List.elem_eq_mem,
      List.filter_cons, List.filter_nil]
    by_cases h : key r ∈ l.map key
    · simp only [h, if_true, decide_true, Bool.not_true, Bool.false_eq_true, if_false]
      rfl
    · simp only [h, if_false, decide_false, Bool.not_false, if_true]
      rfl

/-- A `Map` given only entries that hold of their keys holds one for every key that has any. -/
theorem find_foldl_put_of_forall {l : List ρ} {t : Table key} {holds : ρ → Prop}
    (hl : ∀ r ∈ l, holds r) (ht : ∀ r ∈ t.rows, holds r)
    (hk : (∃ r ∈ l, key r = k) ∨ t.find k ≠ none) :
    ∃ r, (l.foldl put t).find k = some r ∧ key r = k ∧ holds r := by
  have hf := find_foldl_put l t k
  cases hlast : (l.filter fun r => key r = k).getLast? with
  | some r =>
    rw [hlast, Option.some_or] at hf
    exact ⟨r, hf, find_some_key hf, hl r (List.mem_filter.1 (List.mem_of_getLast? hlast)).1⟩
  | none =>
    rw [hlast, Option.none_or] at hf
    have hnone : ¬ ∃ r ∈ l, key r = k := by
      rintro ⟨r, hr, hrk⟩
      rw [List.getLast?_eq_none_iff, List.filter_eq_nil_iff] at hlast
      exact hlast r hr (decide_eq_true hrk)
    obtain ⟨r, hr⟩ := Option.ne_none_iff_exists'.1 (hk.resolve_left hnone)
    rw [hr] at hf
    exact ⟨r, hf, find_some_key hf, ht r (find_some_mem hr)⟩

/-- The sum of a column over the rows that a predicate selects. -/
def sum (t : Table key) (p : ρ → Bool) (column : ρ → Nat) : Nat :=
  ((t.rows.filter p).map column).sum

/-- An update of other columns leaves the sum as it was. -/
theorem sum_update_same (t : Table key) (k : κ) (guard : ρ → Bool) (set : ρ → ρ)
    (hset : ∀ r, key (set r) = key r) (p : ρ → Bool) (column : ρ → Nat)
    (h : ∀ r, p (set r) = p r ∧ column (set r) = column r) :
    (t.update k guard set hset).sum p column = t.sum p column := by
  have hf (r : ρ) : p (if key r = k ∧ guard r then set r else r) = p r ∧
      column (if key r = k ∧ guard r then set r else r) = column r := by
    split
    · exact h r
    · exact ⟨rfl, rfl⟩
  rw [sum, sum, update]
  dsimp only
  induction t.rows with
  | nil => rfl
  | cons r l ih =>
    rw [List.map_cons, List.filter_cons, List.filter_cons, (hf r).1]
    split
    · rw [List.map_cons, List.sum_cons, List.map_cons, List.sum_cons, (hf r).2, ih]
    · exact ih

/-- What an update adds to the column of the row it names, it adds to the sum. -/
theorem sum_update_add {t : Table key} {guard : ρ → Bool} {set : ρ → ρ}
    (hset : ∀ r, key (set r) = key r) {p : ρ → Bool} {column : ρ → Nat} (hr : r ∈ t.rows)
    (hg : guard r) (hp : p (set r) = p r) (hc : column (set r) = column r + d) :
    (t.update (key r) guard set hset).sum p column = t.sum p column + if p r then d else 0 := by
  obtain ⟨before, after, hrows⟩ := List.append_of_mem hr
  have hu := t.unique
  rw [hrows, List.map_append, List.map_cons, List.nodup_append, List.nodup_cons] at hu
  obtain ⟨_, ⟨hafter, _⟩, hbefore⟩ := hu
  have hothers (l : List ρ) (hl : ∀ s ∈ l, key s ≠ key r) :
      (l.map fun s => if key s = key r ∧ guard s then set s else s) = l := by
    conv_rhs => rw [← List.map_id l]
    apply List.map_congr_left
    intro s hs
    exact if_neg fun h => hl s hs h.1
  have hbefore' : ∀ s ∈ before, key s ≠ key r := by
    intro s hs
    exact hbefore _ (List.mem_map_of_mem hs) _ List.mem_cons_self
  have hafter' : ∀ s ∈ after, key s ≠ key r := by
    intro s hs he
    exact hafter (he ▸ List.mem_map_of_mem hs)
  have hupdated : (t.update (key r) guard set hset).rows = before ++ set r :: after := by
    rw [update]
    dsimp only
    rw [hrows, List.map_append, List.map_cons, hothers before hbefore', hothers after hafter',
      if_pos ⟨rfl, hg⟩]
  rw [sum, sum, hupdated, hrows, List.filter_append, List.filter_append, List.filter_cons,
    List.filter_cons, hp]
  split
  · simp only [List.map_append, List.map_cons, List.sum_append, List.sum_cons, hc]
    omega
  · exact (Nat.add_zero _).symm

end Table

end PromotionManagement.Library
