import Mathlib.Data.Finset.Sort
import Mathlib.Data.List.Lex
import Mathlib.Data.Prod.Lex
import PromotionManagement.Library.Redis

namespace PromotionManagement.Library
set_option autoImplicit true

/-- Sorted by a key that tells its items apart, a list ascends strictly. -/
theorem pairwise_mergeSort_lt {α κ : Type} [LinearOrder κ] {f : α → κ} {l : List α} (hl : l.Nodup)
    (hf : ∀ a ∈ l, ∀ b ∈ l, f a = f b → a = b) :
    (l.mergeSort fun a b => f a ≤ f b).Pairwise fun a b => f a < f b := by
  have hperm := List.mergeSort_perm l fun a b => f a ≤ f b
  have hsorted := @List.pairwise_mergeSort α (fun a b => decide (f a ≤ f b))
    (fun a b c hab hbc => decide_eq_true ((of_decide_eq_true hab).trans (of_decide_eq_true hbc)))
    (fun a b => by simpa only [Bool.or_eq_true, decide_eq_true_eq] using le_total (f a) (f b)) l
  refine (hsorted.and (hperm.nodup_iff.2 hl)).imp_of_mem ?_
  intro a b ha hb hab
  refine (of_decide_eq_true hab.1).lt_of_ne fun he => hab.2 ?_
  exact hf a (hperm.mem_iff.1 ha) b (hperm.mem_iff.1 hb) he

/-- The members of a sorted set with their scores, by score and then by member. -/
structure Ranked [LinearOrder R] [LinearOrder S] (score : S → Option R) (l : List (R ×ₗ S)) :
    Prop where
  mem : ∀ r m, toLex (r, m) ∈ l ↔ score m = some r
  sorted : l.SortedLT

namespace Ranked

variable {R S : Type} [LinearOrder R] [LinearOrder S] {score : S → Option R}

theorem members_nodup (h : Ranked score l) : (l.map fun e => (ofLex e).2).Nodup := by
  apply List.Nodup.map_on _ h.sorted.nodup
  intro a ha b hb hab
  have hsa := (h.mem (ofLex a).1 (ofLex a).2).1 ha
  have hsb := (h.mem (ofLex b).1 (ofLex b).2).1 hb
  rw [← hab, hsa] at hsb
  exact ofLex.injective (Prod.ext (Option.some.inj hsb) hab)

/-- There is one ranking of a sorted set. -/
theorem unique (h : Ranked score l) (h' : Ranked score l') : l = l' := by
  apply h.sorted.eq_of_mem_iff h'.sorted
  intro e
  exact (h.mem (ofLex e).1 (ofLex e).2).trans (h'.mem (ofLex e).1 (ofLex e).2).symm

/-- Entries that carry the scores of a sorted set, in its order, are its ranking. -/
theorem map_eq {f : α → R ×ₗ S} {entries : List α} (h : Ranked score l)
    (hmem : ∀ r m, score m = some r ↔ ∃ a ∈ entries, f a = toLex (r, m))
    (hsorted : entries.Pairwise fun a b => f a < f b) : l = entries.map f := by
  apply h.unique
  constructor
  · intro r m
    rw [List.mem_map, hmem]
  · rw [List.sortedLT_iff_pairwise, List.pairwise_map]
    exact hsorted

end Ranked

/-- A store at one instant, with all that its sorted sets and hashes can hold. -/
structure RedisSnapshot (S R : Type) where
  store : RedisStore S R
  members : List S
  fields : List S
  mem_members : ∀ key m, (store.zset key m).isSome → m ∈ members
  mem_fields : ∀ key f, (store.hash key f).isSome → f ∈ fields

/-- `WRONGTYPE`: the key holds another kind of value. -/
inductive RedisError where
  | wrongType
deriving DecidableEq

namespace RedisSnapshot

variable {R S : Type}

def holdsHash (snap : RedisSnapshot S R) (key : S) : Bool :=
  snap.fields.any fun f => (snap.store.hash key f).isSome

def holdsZset (snap : RedisSnapshot S R) (key : S) : Bool :=
  snap.members.any fun m => (snap.store.zset key m).isSome

theorem holdsHash_eq_false {snap : RedisSnapshot S R}
    (h : ∀ f, snap.store.hash key f = none) : snap.holdsHash key = false := by
  rw [holdsHash, List.any_eq_false]
  intro f _
  rw [h f, Option.isSome_none]
  exact Bool.false_ne_true

theorem holdsZset_eq_false {snap : RedisSnapshot S R}
    (h : ∀ m, snap.store.zset key m = none) : snap.holdsZset key = false := by
  rw [holdsZset, List.any_eq_false]
  intro m _
  rw [h m, Option.isSome_none]
  exact Bool.false_ne_true

section Hashes

variable [DecidableEq S]

/-- `HGETALL` -/
def hgetall (snap : RedisSnapshot S R) (key : S) : Except RedisError (List (S × S)) :=
  if snap.holdsZset key then .error .wrongType
  else .ok (snap.fields.dedup.filterMap fun f => (snap.store.hash key f).map fun v => (f, v))

/-- A field of such a reply. -/
def field (reply : List (S × S)) (f : S) : Option S := reply.lookup f

/-- The names in a flat list of names and values. -/
def fieldNames : List S → List S
  | field :: _ :: rest => field :: fieldNames rest
  | _ => []

/-- A field that is set was there before, or is named in the list. -/
theorem setFields_isSome {hash : S → Option S} {l : List S}
    (h : (RedisStore.setFields hash l f).isSome) : (hash f).isSome ∨ f ∈ fieldNames l := by
  induction hash, l using RedisStore.setFields.induct with
  | case1 hash field value rest ih =>
    rw [RedisStore.setFields] at h
    rw [fieldNames, List.mem_cons]
    by_cases hf : f = field
    · exact .inr (.inl hf)
    · rcases ih h with hs | hm
      · simp only [hf, if_false] at hs
        exact .inl hs
      · exact .inr (.inr hm)
  | case2 hash l hl =>
    rw [RedisStore.setFields] at h
    · exact .inl h
    · exact hl

theorem lookup_filterMap (hash : S → Option S) (l : List S) (f : S) :
    (l.filterMap fun f => (hash f).map fun v => (f, v)).lookup f =
      if f ∈ l then hash f else none := by
  induction l with
  | nil => rfl
  | cons g l ih =>
    cases hg : hash g with
    | none =>
      rw [List.filterMap_cons_none (by rw [hg, Option.map_none]), ih]
      by_cases hf : f = g
      · rw [hf, hg, ite_self, ite_self]
      · simp only [List.mem_cons, hf, false_or]
    | some v =>
      rw [List.filterMap_cons_some (by rw [hg, Option.map_some]), List.lookup_cons]
      by_cases hf : f = g
      · subst hf
        rw [beq_self_eq_true, if_pos List.mem_cons_self, hg]
      · rw [beq_false_of_ne hf, ih]
        simp only [List.mem_cons, hf, false_or]

/-- A key that holds no sorted set answers with the fields of its hash. -/
theorem hgetall_spec {snap : RedisSnapshot S R} (h : ∀ m, snap.store.zset key m = none) :
    ∃ reply, snap.hgetall key = .ok reply ∧ field reply = snap.store.hash key ∧
      (reply = [] ↔ snap.store.hash key = fun _ => none) := by
  refine ⟨_, if_neg (by rw [holdsZset_eq_false h]; exact Bool.false_ne_true), ?_, ?_⟩
  · funext f
    rw [field, lookup_filterMap]
    split
    · rfl
    · rename_i hf
      rw [List.mem_dedup] at hf
      cases hs : snap.store.hash key f with
      | none => rfl
      | some v => exact absurd (snap.mem_fields key f (by rw [hs, Option.isSome_some])) hf
  · rw [List.filterMap_eq_nil_iff]
    constructor
    · intro hnone
      funext f
      cases hs : snap.store.hash key f with
      | none => rfl
      | some v =>
        have hf := snap.mem_fields key f (by rw [hs, Option.isSome_some])
        have hn := hnone f (List.mem_dedup.2 hf)
        rw [hs] at hn
        cases hn
    · intro hnone f _
      rw [hnone, Option.map_none]

end Hashes

variable [LinearOrder R] [LinearOrder S]

def ranked (snap : RedisSnapshot S R) (key : S) : List (R ×ₗ S) :=
  (snap.members.filterMap fun m =>
    (snap.store.zset key m).map fun r => toLex (r, m)).toFinset.sort

/-- `ZRANGE key -inf +inf BYSCORE LIMIT offset count`, from the other end with `REV`. -/
def zrange (snap : RedisSnapshot S R) (key : S) (rev : Bool) (offset count : Nat) :
    Except RedisError (List S) :=
  if snap.holdsHash key then .error .wrongType
  else
    let ranked := if rev then (snap.ranked key).reverse else snap.ranked key
    .ok (((ranked.map fun e => (ofLex e).2).drop offset).take count)

/-- `ZCARD` -/
def zcard (snap : RedisSnapshot S R) (key : S) : Except RedisError Nat :=
  if snap.holdsHash key then .error .wrongType else .ok (snap.ranked key).length

theorem ranked_spec (snap : RedisSnapshot S R) (key : S) :
    Ranked (snap.store.zset key) (snap.ranked key) := by
  constructor
  · intro r m
    rw [ranked, Finset.mem_sort, List.mem_toFinset, List.mem_filterMap]
    constructor
    · rintro ⟨m', _, hm'⟩
      obtain ⟨r', hr', he⟩ := Option.map_eq_some_iff.1 hm'
      obtain ⟨rfl, rfl⟩ := Prod.mk.inj (toLex.injective he)
      exact hr'
    · intro h
      refine ⟨m, snap.mem_members key m ?_, ?_⟩
      · rw [h, Option.isSome_some]
      · rw [h, Option.map_some]
  · exact Finset.sortedLT_sort _

end RedisSnapshot

end PromotionManagement.Library
