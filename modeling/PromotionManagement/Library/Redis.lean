import Mathlib.Tactic.TypeStar

namespace PromotionManagement.Library
set_option autoImplicit true

/-- The hashes and sorted sets of a key-value store, where an empty one is an absent one. -/
@[ext] structure RedisStore (S R : Type) where
  hash : S → S → Option S
  zset : S → S → Option R

namespace RedisStore

variable {S R : Type} [DecidableEq S]

def empty : RedisStore S R := ⟨fun _ _ => none, fun _ _ => none⟩

/-- Sets the fields of a hash from a flat list of names and values. -/
def setFields (hash : S → Option S) : List S → S → Option S
  | field :: value :: rest =>
    setFields (fun f => if f = field then some value else hash f) rest
  | _ => hash

/-- `HGET` -/
def hget (db : RedisStore S R) (key field : S) : Option S := db.hash key field

/-- `HSET` -/
def hset (db : RedisStore S R) (key : S) (fields : List S) : RedisStore S R :=
  { db with hash := fun k => if k = key then setFields (db.hash key) fields else db.hash k }

/-- `DEL` -/
def del (db : RedisStore S R) (key : S) : RedisStore S R where
  hash k := if k = key then fun _ => none else db.hash k
  zset k := if k = key then fun _ => none else db.zset k

/-- `ZADD`, which refuses a score that is no number. -/
def zadd (score? : S → Option R) (db : RedisStore S R) (key score member : S) : RedisStore S R :=
  match score? score with
  | none => db
  | some r =>
    { db with
      zset := fun k m => if k = key ∧ m = member then some r else db.zset k m }

/-- `ZREM` -/
def zrem (db : RedisStore S R) (key member : S) : RedisStore S R :=
  { db with zset := fun k m => if k = key ∧ m = member then none else db.zset k m }

@[simp] theorem hset_zset (db : RedisStore S R) (key : S) (fields : List S) :
    (db.hset key fields).zset = db.zset := rfl

@[simp] theorem zrem_hash (db : RedisStore S R) (key member : S) :
    (db.zrem key member).hash = db.hash := rfl

@[simp] theorem zadd_hash (score? : S → Option R) (db : RedisStore S R) (key score member : S) :
    (db.zadd score? key score member).hash = db.hash := by
  rw [zadd]
  split <;> rfl

theorem hset_hash_self (db : RedisStore S R) (key : S) (fields : List S) :
    (db.hset key fields).hash key = setFields (db.hash key) fields := if_pos rfl

theorem hset_hash_of_ne (db : RedisStore S R) (fields : List S) (h : k ≠ key) :
    (db.hset key fields).hash k = db.hash k := if_neg h

theorem del_hash_self (db : RedisStore S R) (key : S) : (db.del key).hash key = fun _ => none :=
  if_pos rfl

theorem del_hash_of_ne (db : RedisStore S R) (h : k ≠ key) : (db.del key).hash k = db.hash k :=
  if_neg h

theorem del_zset_of_ne (db : RedisStore S R) (h : k ≠ key) : (db.del key).zset k = db.zset k :=
  if_neg h

theorem zadd_zset {score? : S → Option R} (db : RedisStore S R) (hs : score? score = some r)
    (key member k m : S) : (db.zadd score? key score member).zset k m =
      if k = key ∧ m = member then some r else db.zset k m := by
  simp only [zadd, hs]

theorem zrem_zset (db : RedisStore S R) (key member k m : S) :
    (db.zrem key member).zset k m = if k = key ∧ m = member then none else db.zset k m := rfl

/-- A field that the list does not name keeps its value. -/
theorem setFields_pair (hash : S → Option S) (field value f : S) :
    setFields hash [field, value] f = if f = field then some value else hash f := rfl

end RedisStore

end PromotionManagement.Library
