import Mathlib.Data.Nat.Log
import Mathlib.Tactic.Positivity
import Mathlib.Tactic.Ring

namespace PromotionManagement
set_option autoImplicit true

/-- Text decoded from UTF-8 holds no lone surrogate, so its scalar values determine it. -/
abbrev Text := List Char

/-- JavaScript's `length`: an astral character is two UTF-16 code units. -/
def Text.length16 (t : Text) : Nat := (t.map fun c => if c.val < 0x10000 then 1 else 2).sum

theorem Text.length16_append (t u : Text) :
    Text.length16 (t ++ u) = Text.length16 t + Text.length16 u := by
  simp only [Text.length16, List.map_append, List.sum_append]

/-- The ECMAScript `WhiteSpace` and `LineTerminator` characters, which `trim` removes. -/
def isTrimmed (c : Char) : Bool :=
  let n := c.toNat
  (0x09 ≤ n && n ≤ 0x0d) || n == 0x20 || n == 0xa0 || n == 0x1680 ||
    (0x2000 ≤ n && n ≤ 0x200a) || n == 0x2028 || n == 0x2029 || n == 0x202f || n == 0x205f ||
    n == 0x3000 || n == 0xfeff

def Text.trim (t : Text) : Text :=
  ((t.dropWhile isTrimmed).reverse.dropWhile isTrimmed).reverse

theorem not_isTrimmed_of_isDigit {c : Char} (h : c.isDigit = true) : isTrimmed c = false := by
  simp only [Char.isDigit, Bool.and_eq_true, decide_eq_true_eq] at h
  have hlow : 48 ≤ c.toNat := h.1
  have hhigh : c.toNat ≤ 57 := h.2
  simp only [isTrimmed, Bool.or_eq_false_iff, Bool.and_eq_false_iff, decide_eq_false_iff_not,
    beq_eq_false_iff_ne]
  omega

/-- `Number.MAX_SAFE_INTEGER`. -/
def maxSafeInteger : Nat := 2 ^ 53 - 1

/-- The double nearest to a natural number, ties to even. Overflow to `Infinity` is left out:
no caller keeps a value above `maxSafeInteger`. -/
def toDouble (n : Nat) : Nat :=
  let e := n.log2 - 52
  let q := n / 2 ^ e
  let r := n % 2 ^ e
  if 2 ^ e < 2 * r ∨ (2 ^ e = 2 * r ∧ q % 2 = 1) then (q + 1) * 2 ^ e else q * 2 ^ e

/-- `Number` of a string of decimal digits. -/
def toNumber (digits : Text) : Nat := toDouble (Nat.ofDigitChars 10 digits 0)

def isSafeInteger (n : Nat) : Bool := n ≤ maxSafeInteger

theorem toDouble_of_lt (h : n < 2 ^ 53) : toDouble n = n := by
  have he : n.log2 - 52 = 0 := by
    by_cases hn : n = 0
    · subst hn; rfl
    · have := (Nat.log2_lt hn).2 h
      omega
  simp only [toDouble, he, pow_zero, Nat.div_one, Nat.mod_one, mul_zero, Nat.mul_one]
  rw [if_neg]
  omega

theorem le_toDouble (h : 2 ^ 53 ≤ n) : 2 ^ 53 ≤ toDouble n := by
  have hn : n ≠ 0 := by
    rintro rfl
    norm_num at h
  obtain ⟨e, he⟩ : ∃ e, n.log2 = e + 53 := by
    have : 53 ≤ n.log2 := (Nat.le_log2 hn).2 h
    exact ⟨n.log2 - 53, by omega⟩
  have hlow : 2 ^ (e + 53) ≤ n := (Nat.le_log2 hn).1 he.ge
  have hq : 2 ^ 52 ≤ n / 2 ^ (e + 1) := by
    rw [Nat.le_div_iff_mul_le (by positivity)]
    calc 2 ^ 52 * 2 ^ (e + 1) = 2 ^ (e + 53) := by ring
      _ ≤ n := hlow
  have hpow : 2 ≤ 2 ^ (e + 1) := by
    rw [pow_succ]
    have : 0 < 2 ^ e := by positivity
    omega
  have hprod : 2 ^ 53 ≤ n / 2 ^ (e + 1) * 2 ^ (e + 1) :=
    calc 2 ^ 53 = 2 ^ 52 * 2 := by norm_num
      _ ≤ n / 2 ^ (e + 1) * 2 ^ (e + 1) := Nat.mul_le_mul hq hpow
  have hd : n.log2 - 52 = e + 1 := by omega
  simp only [toDouble, hd]
  split
  · exact hprod.trans (Nat.mul_le_mul_right _ (Nat.le_succ _))
  · exact hprod

/-- Rounding does not bring an unsafe integer back into the safe range. -/
theorem isSafeInteger_toDouble (n : Nat) : isSafeInteger (toDouble n) = true ↔ n < 2 ^ 53 := by
  rw [isSafeInteger, maxSafeInteger, decide_eq_true_iff]
  constructor
  · intro h
    by_contra hn
    have := le_toDouble (Nat.le_of_not_lt hn)
    omega
  · intro h
    rw [toDouble_of_lt h]
    omega

theorem toNumber_of_safe {digits : Text} (h : isSafeInteger (toNumber digits) = true) :
    toNumber digits = Nat.ofDigitChars 10 digits 0 :=
  toDouble_of_lt ((isSafeInteger_toDouble _).1 h)

/-- `String` of an integer below the point where it turns to an exponent. -/
def intText : Int → Text
  | .ofNat n => Nat.toDigits 10 n
  | .negSucc n => '-' :: Nat.toDigits 10 (n + 1)

def isDigits (t : Text) : Bool := !t.isEmpty && t.all Char.isDigit

/-- A number written in decimal digits, read as a double: Lua's `tonumber`, and a score. -/
def number? : Text → Option Int
  | '-' :: digits => if isDigits digits then some (-(toNumber digits : Int)) else none
  | digits => if isDigits digits then some (toNumber digits : Int) else none

theorem isDigits_toDigits (n : Nat) : isDigits (Nat.toDigits 10 n) := by
  rw [isDigits, Bool.and_eq_true]
  constructor
  · rw [Bool.not_eq_true', List.isEmpty_eq_false_iff]
    exact Nat.toDigits_ne_nil
  · rw [List.all_eq_true]
    intro c hc
    exact Nat.isDigit_of_mem_toDigits (by decide) (by decide) hc

theorem toNumber_toDigits (n : Nat) : toNumber (Nat.toDigits 10 n) = toDouble n := by
  rw [toNumber, Nat.ofDigitChars_ten_toDigits]

theorem toNumber_toDigits_of_safe (h : n ≤ maxSafeInteger) : toNumber (Nat.toDigits 10 n) = n := by
  rw [toNumber_toDigits]
  apply toDouble_of_lt
  rw [maxSafeInteger] at h
  omega

theorem toDigits_injective (h : Nat.toDigits 10 m = Nat.toDigits 10 n) : m = n := by
  rw [← @Nat.ofDigitChars_ten_toDigits m, h, Nat.ofDigitChars_ten_toDigits]

theorem not_mem_toDigits {c : Char} (h : c.isDigit = false) (n : Nat) :
    c ∉ Nat.toDigits 10 n := by
  intro hc
  rw [Nat.isDigit_of_mem_toDigits (by decide) (by decide) hc] at h
  cases h

theorem number?_toDigits (n : Nat) : number? (Nat.toDigits 10 n) = some (toDouble n : Int) := by
  rw [number?]
  · rw [if_pos (isDigits_toDigits n), toNumber_toDigits]
  · intro digits h
    have hm : '-' ∈ Nat.toDigits 10 n := h ▸ List.mem_cons_self
    exact not_mem_toDigits (by decide) n hm

theorem number?_intText (n : Int) : ∃ score, number? (intText n) = some score := by
  cases n with
  | ofNat n => exact ⟨_, number?_toDigits n⟩
  | negSucc n => exact ⟨_, if_pos (isDigits_toDigits (n + 1))⟩

end PromotionManagement
