import Mathlib.Data.List.Basic
import Mathlib.Data.Char

namespace PromotionManagement.Library
set_option autoImplicit true

namespace Utf8

def encode (t : List Char) : List UInt8 := t.flatMap String.utf8EncodeChar

def replacement : Char := Char.ofNat 0xfffd

/-- Where a decoder stands inside a character: the bytes it still needs, the scalar value so far
and the bounds of the next byte. -/
structure Decoder where
  needed : Nat
  scalar : Nat
  lower : Nat
  upper : Nat
deriving DecidableEq

namespace Decoder

def initial : Decoder := ⟨0, 0, 0x80, 0xbf⟩

/-- A byte that starts a character. -/
def lead (b : Nat) : List Char × Decoder :=
  if b ≤ 0x7f then ([Char.ofNat b], initial)
  else if 0xc2 ≤ b ∧ b ≤ 0xdf then ([], ⟨1, b - 0xc0, 0x80, 0xbf⟩)
  else if 0xe0 ≤ b ∧ b ≤ 0xef then
    ([], ⟨2, b - 0xe0, if b = 0xe0 then 0xa0 else 0x80, if b = 0xed then 0x9f else 0xbf⟩)
  else if 0xf0 ≤ b ∧ b ≤ 0xf4 then
    ([], ⟨3, b - 0xf0, if b = 0xf0 then 0x90 else 0x80, if b = 0xf4 then 0x8f else 0xbf⟩)
  else ([replacement], initial)

/-- One byte of a decoder that replaces each longest sequence that begins no character. -/
def push (d : Decoder) (byte : UInt8) : List Char × Decoder :=
  let b := byte.toNat
  if d.needed = 0 then lead b
  else if d.lower ≤ b ∧ b ≤ d.upper then
    let scalar := d.scalar * 64 + (b - 0x80)
    if d.needed = 1 then ([Char.ofNat scalar], initial)
    else ([], ⟨d.needed - 1, scalar, 0x80, 0xbf⟩)
  else
    let (t, d) := lead b
    (replacement :: t, d)

def decodeFrom (d : Decoder) : List UInt8 → List Char
  | [] => if d.needed = 0 then [] else [replacement]
  | byte :: bytes => (d.push byte).1 ++ decodeFrom (d.push byte).2 bytes

end Decoder

def decode (bytes : List UInt8) : List Char := Decoder.initial.decodeFrom bytes

def isContinuation (byte : UInt8) : Bool := 0x80 ≤ byte.toNat && byte.toNat < 0xc0

/-- The length of a character by the mask of its first byte, 0 for a byte that is no such first
byte. -/
def leadLength (byte : UInt8) : Nat :=
  let b := byte.toNat
  if 0xc0 ≤ b ∧ b < 0xe0 then 2
  else if 0xe0 ≤ b ∧ b < 0xf0 then 3
  else if 0xf0 ≤ b ∧ b < 0xf8 then 4
  else 0

theorem leadLength_le (byte : UInt8) : leadLength byte ≤ 4 := by
  rw [leadLength]
  split
  · decide
  · split
    · decide
    · split
      · decide
      · decide

@[simp] theorem encode_nil : encode [] = [] := rfl

@[simp] theorem encode_cons (c : Char) (t : List Char) :
    encode (c :: t) = String.utf8EncodeChar c ++ encode t := rfl

theorem encode_eq_nil : encode t = [] ↔ t = [] := by
  cases t with
  | nil => exact iff_of_true rfl rfl
  | cons c t =>
    rw [encode_cons, List.append_eq_nil_iff]
    constructor
    · intro h
      exact absurd h.1 String.utf8EncodeChar_ne_nil
    · intro h
      cases h

theorem encode_append (t u : List Char) : encode (t ++ u) = encode t ++ encode u :=
  List.flatMap_append

/-- The scalar value of a character is no surrogate. -/
theorem scalar_bounds (c : Char) :
    c.val.toNat < 0xd800 ∨ 0xdfff < c.val.toNat ∧ c.val.toNat < 0x110000 := c.valid

theorem ofNat_val (c : Char) : Char.ofNat c.val.toNat = c := Char.ofNat_toNat c

theorem toNat_ofNat (h : k < 256) : (UInt8.ofNat k).toNat = k :=
  UInt8.toNat_ofNat_of_lt' h

namespace Decoder

theorem push_lead (byte : UInt8) : initial.push byte = lead byte.toNat := rfl

/-- A byte in the bounds brings its six bits. -/
theorem push_last (scalar lower upper k : Nat) (hk : k < 64) (hl : lower ≤ k + 0x80)
    (hu : k + 0x80 ≤ upper) :
    push ⟨1, scalar, lower, upper⟩ (UInt8.ofNat (k + 0x80)) =
      ([Char.ofNat (scalar * 64 + k)], initial) := by
  have hn : (UInt8.ofNat (k + 0x80)).toNat = k + 0x80 := toNat_ofNat (by omega)
  rw [push]
  dsimp only
  rw [hn, if_neg Nat.one_ne_zero, if_pos ⟨hl, hu⟩, if_pos rfl, Nat.add_sub_cancel]

theorem push_more (n scalar lower upper k : Nat) (hk : k < 64) (hl : lower ≤ k + 0x80)
    (hu : k + 0x80 ≤ upper) :
    push ⟨n + 2, scalar, lower, upper⟩ (UInt8.ofNat (k + 0x80)) =
      ([], ⟨n + 1, scalar * 64 + k, 0x80, 0xbf⟩) := by
  have hn : (UInt8.ofNat (k + 0x80)).toNat = k + 0x80 := toNat_ofNat (by omega)
  have h₀ : n + 2 ≠ 0 := by omega
  have h₁ : n + 2 ≠ 1 := by omega
  rw [push]
  dsimp only
  rw [hn, if_neg h₀, if_pos ⟨hl, hu⟩, if_neg h₁, Nat.add_sub_cancel]
  rfl

theorem decodeFrom_two (h : 0x80 ≤ v ∧ v ≤ 0x7ff) (bytes : List UInt8) :
    initial.decodeFrom (UInt8.ofNat (v / 64 % 0x20 + 0xc0) ::
      UInt8.ofNat (v % 0x40 + 0x80) :: bytes) = Char.ofNat v :: initial.decodeFrom bytes := by
  have hn : (UInt8.ofNat (v / 64 % 0x20 + 0xc0)).toNat = v / 64 % 0x20 + 0xc0 :=
    toNat_ofNat (by omega)
  have hv : (v / 64 % 0x20) * 64 + v % 0x40 = v := by omega
  have hlead : lead (v / 64 % 0x20 + 0xc0) = ([], ⟨1, v / 64 % 0x20, 0x80, 0xbf⟩) := by
    rw [lead, if_neg (by omega), if_pos (by omega), Nat.add_sub_cancel]
  have h₁ := push_last (v / 64 % 0x20) 0x80 0xbf (v % 0x40) (by omega) (by omega) (by omega)
  simp only [decodeFrom, push_lead, hn, hlead, h₁, hv, List.nil_append, List.cons_append]

theorem decodeFrom_three (h : 0x800 ≤ v ∧ v ≤ 0xffff) (hs : v < 0xd800 ∨ 0xdfff < v)
    (bytes : List UInt8) :
    initial.decodeFrom (UInt8.ofNat (v / 4096 % 0x10 + 0xe0) ::
      UInt8.ofNat (v / 64 % 0x40 + 0x80) :: UInt8.ofNat (v % 0x40 + 0x80) :: bytes) =
        Char.ofNat v :: initial.decodeFrom bytes := by
  have hn : (UInt8.ofNat (v / 4096 % 0x10 + 0xe0)).toNat = v / 4096 % 0x10 + 0xe0 :=
    toNat_ofNat (by omega)
  have hv : ((v / 4096 % 0x10) * 64 + v / 64 % 0x40) * 64 + v % 0x40 = v := by omega
  obtain ⟨lower, upper, hlead, hl, hu⟩ : ∃ lower upper,
      lead (v / 4096 % 0x10 + 0xe0) = ([], ⟨0 + 2, v / 4096 % 0x10, lower, upper⟩) ∧
        lower ≤ v / 64 % 0x40 + 0x80 ∧ v / 64 % 0x40 + 0x80 ≤ upper := by
    refine ⟨if v / 4096 % 0x10 + 0xe0 = 0xe0 then 0xa0 else 0x80,
      if v / 4096 % 0x10 + 0xe0 = 0xed then 0x9f else 0xbf, ?_, ?_, ?_⟩
    · rw [lead, if_neg (by omega), if_neg (by omega), if_pos (by omega), Nat.add_sub_cancel]
    · split <;> omega
    · split <;> omega
  have h₁ := push_more 0 (v / 4096 % 0x10) lower upper _ (by omega) hl hu
  have h₂ := push_last (v / 4096 % 0x10 * 64 + v / 64 % 0x40) 0x80 0xbf (v % 0x40) (by omega)
    (by omega) (by omega)
  simp only [decodeFrom, push_lead, hn, hlead, h₁, h₂, hv, List.nil_append, List.cons_append]

theorem decodeFrom_four (h : 0x10000 ≤ v ∧ v < 0x110000) (bytes : List UInt8) :
    initial.decodeFrom (UInt8.ofNat (v / 262144 % 0x08 + 0xf0) ::
      UInt8.ofNat (v / 4096 % 0x40 + 0x80) :: UInt8.ofNat (v / 64 % 0x40 + 0x80) ::
        UInt8.ofNat (v % 0x40 + 0x80) :: bytes) = Char.ofNat v :: initial.decodeFrom bytes := by
  have hn : (UInt8.ofNat (v / 262144 % 0x08 + 0xf0)).toNat = v / 262144 % 0x08 + 0xf0 :=
    toNat_ofNat (by omega)
  have hv : (((v / 262144 % 0x08) * 64 + v / 4096 % 0x40) * 64 + v / 64 % 0x40) * 64 +
      v % 0x40 = v := by omega
  obtain ⟨lower, upper, hlead, hl, hu⟩ : ∃ lower upper,
      lead (v / 262144 % 0x08 + 0xf0) = ([], ⟨1 + 2, v / 262144 % 0x08, lower, upper⟩) ∧
        lower ≤ v / 4096 % 0x40 + 0x80 ∧ v / 4096 % 0x40 + 0x80 ≤ upper := by
    refine ⟨if v / 262144 % 0x08 + 0xf0 = 0xf0 then 0x90 else 0x80,
      if v / 262144 % 0x08 + 0xf0 = 0xf4 then 0x8f else 0xbf, ?_, ?_, ?_⟩
    · rw [lead, if_neg (by omega), if_neg (by omega), if_neg (by omega), if_pos (by omega),
        Nat.add_sub_cancel]
    · split <;> omega
    · split <;> omega
  have h₁ := push_more 1 (v / 262144 % 0x08) lower upper _ (by omega) hl hu
  have h₂ := push_more 0 (v / 262144 % 0x08 * 64 + v / 4096 % 0x40) 0x80 0xbf (v / 64 % 0x40)
    (by omega) (by omega) (by omega)
  have h₃ := push_last ((v / 262144 % 0x08 * 64 + v / 4096 % 0x40) * 64 + v / 64 % 0x40) 0x80 0xbf
    (v % 0x40) (by omega) (by omega) (by omega)
  simp only [decodeFrom, push_lead, hn, hlead, h₁, h₂, h₃, hv, List.nil_append, List.cons_append]

/-- A decoder at the start of a character reads it whole. -/
theorem decodeFrom_char (c : Char) (bytes : List UInt8) :
    initial.decodeFrom (String.utf8EncodeChar c ++ bytes) = c :: initial.decodeFrom bytes := by
  have hb := scalar_bounds c
  conv_rhs => rw [← ofNat_val c]
  rw [String.utf8EncodeChar]
  generalize c.val.toNat = v at hb
  split
  · have hn : (UInt8.ofNat v).toNat = v := toNat_ofNat (by omega)
    have hlead : lead v = ([Char.ofNat v], initial) := if_pos (by assumption)
    simp only [List.cons_append, List.nil_append, decodeFrom, push_lead, hn, hlead]
  · split
    · exact decodeFrom_two (by omega) bytes
    · split
      · exact decodeFrom_three (by omega) (by omega) bytes
      · exact decodeFrom_four (by omega) bytes

end Decoder

theorem decode_encode (t : List Char) : decode (encode t) = t := by
  induction t with
  | nil => rfl
  | cons c t ih =>
    rw [encode_cons, decode, Decoder.decodeFrom_char]
    exact congrArg (c :: ·) ih

/-- The bytes of a character: one below 0x80, or a first byte whose mask gives their number and
continuation bytes. -/
theorem encodeChar_cases (c : Char) :
    (∃ b : UInt8, String.utf8EncodeChar c = [b] ∧ b.toNat = c.val.toNat ∧ b.toNat < 0x80) ∨
    ∃ b rest, String.utf8EncodeChar c = b :: rest ∧ rest ≠ [] ∧ 0x80 ≤ c.val.toNat ∧
      leadLength b = rest.length + 1 ∧ isContinuation b = false ∧
      ∀ k ∈ rest, isContinuation k = true := by
  have hb := scalar_bounds c
  have hcont (k : Nat) (hk : k < 64) : isContinuation (UInt8.ofNat (k + 0x80)) = true := by
    rw [isContinuation, toNat_ofNat (by omega), Bool.and_eq_true, decide_eq_true_iff,
      decide_eq_true_iff]
    omega
  have hlead (k n : Nat) (hk : k < 256) (hc : 0xc0 ≤ k) (hn : (if 0xc0 ≤ k ∧ k < 0xe0 then 2
      else if 0xe0 ≤ k ∧ k < 0xf0 then 3 else if 0xf0 ≤ k ∧ k < 0xf8 then 4 else 0) = n) :
      leadLength (UInt8.ofNat k) = n ∧ isContinuation (UInt8.ofNat k) = false := by
    rw [leadLength, isContinuation, toNat_ofNat hk]
    refine ⟨hn, ?_⟩
    rw [Bool.and_eq_false_iff, decide_eq_false_iff_not, decide_eq_false_iff_not]
    omega
  rw [String.utf8EncodeChar]
  generalize c.val.toNat = v at hb
  split
  · left
    have hn : (UInt8.ofNat v).toNat = v := toNat_ofNat (by omega)
    exact ⟨_, rfl, hn, by omega⟩
  · right
    split
    · obtain ⟨hl, hc⟩ := hlead (v / 64 % 0x20 + 0xc0) 2 (by omega) (by omega)
        (by rw [if_pos (by omega)])
      refine ⟨_, _, rfl, List.cons_ne_nil _ _, by omega, hl, hc, ?_⟩
      rw [List.forall_mem_singleton]
      exact hcont _ (by omega)
    · split
      · obtain ⟨hl, hc⟩ := hlead (v / 4096 % 0x10 + 0xe0) 3 (by omega) (by omega)
          (by rw [if_neg (by omega), if_pos (by omega)])
        refine ⟨_, _, rfl, List.cons_ne_nil _ _, by omega, hl, hc, ?_⟩
        rw [List.forall_mem_cons, List.forall_mem_singleton]
        exact ⟨hcont _ (by omega), hcont _ (by omega)⟩
      · obtain ⟨hl, hc⟩ := hlead (v / 262144 % 0x08 + 0xf0) 4 (by omega) (by omega)
          (by rw [if_neg (by omega), if_neg (by omega), if_pos (by omega)])
        refine ⟨_, _, rfl, List.cons_ne_nil _ _, by omega, hl, hc, ?_⟩
        rw [List.forall_mem_cons, List.forall_mem_cons, List.forall_mem_singleton]
        exact ⟨hcont _ (by omega), hcont _ (by omega), hcont _ (by omega)⟩

end Utf8

end PromotionManagement.Library
