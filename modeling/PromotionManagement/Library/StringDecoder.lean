import PromotionManagement.Library.Utf8
import Mathlib.Data.List.Induction
import Mathlib.Data.List.TakeWhile

namespace PromotionManagement.Library
open Utf8
set_option autoImplicit true

/-- Node's `StringDecoder` for UTF-8: the bytes it holds back, and how many more their character
should have. -/
structure StringDecoder where
  buffered : List UInt8
  missing : Nat
deriving DecidableEq

namespace StringDecoder

def new : StringDecoder := ⟨[], 0⟩

/-- The number of bytes at the end of a write to hold back, and the number still missing, from the
reversed bytes. -/
def incomplete (count : Nat) : List UInt8 → Nat × Nat
  | [] => (0, 0)
  | byte :: before =>
    let count := count + 1
    if isContinuation byte then
      if count ≥ 4 ∨ before = [] then (0, 0) else incomplete count before
    else if count ≥ leadLength byte then (0, 0)
    else (count, leadLength byte - count)

/-- What a write adds to the character held back: its text once it ends, the decoder and the bytes
left. -/
def complete (d : StringDecoder) (data : List UInt8) :
    List Char × StringDecoder × List UInt8 :=
  if d.missing = 0 then ([], d, data)
  else
    let found := (data.take d.missing).takeWhile isContinuation
    let buffered := d.buffered ++ found
    let missing := if found.length < min data.length d.missing then 0 else d.missing - found.length
    if missing = 0 then (decode buffered, new, data.drop found.length)
    else ([], ⟨buffered, missing⟩, data.drop found.length)

def write (d : StringDecoder) (data : List UInt8) : List Char × StringDecoder :=
  let (prepend, d, data) := d.complete data
  if data = [] then (prepend, d)
  else
    let (held, missing) := incomplete 0 data.reverse
    let cut := data.length - held
    (prepend ++ decode (data.take cut), ⟨data.drop cut, missing⟩)

/-- What `end` still gives. -/
def flush (d : StringDecoder) : List Char := decode d.buffered

/-- Bytes that begin a character, and the number that is missing of it. -/
def Begins (bytes : List UInt8) (missing : Nat) : Prop :=
  (bytes = [] ∧ missing = 0) ∨ ∃ c more, String.utf8EncodeChar c = bytes ++ more ∧ bytes ≠ [] ∧
    more ≠ [] ∧ missing = more.length

theorem begins_nil : Begins [] 0 := .inl ⟨rfl, rfl⟩

theorem begins_nil_missing {missing : Nat} (h : Begins [] missing) : missing = 0 := by
  rcases h with ⟨_, hm⟩ | ⟨_, _, _, hn, _⟩
  · exact hm
  · exact absurd rfl hn

/-- Bytes that begin a character without ending it: its first byte, then continuation bytes. -/
theorem begins_cases {missing : Nat} (h : Begins bytes missing) (hb : bytes ≠ []) :
    ∃ b rest, bytes = b :: rest ∧ missing ≠ 0 ∧ leadLength b = rest.length + 1 + missing ∧
      isContinuation b = false ∧ (∀ k ∈ rest, isContinuation k = true) ∧ rest.length + 2 ≤ 4 := by
  rcases h with ⟨hn, _⟩ | ⟨c, more, hc, _, hmore, rfl⟩
  · exact absurd hn hb
  · obtain ⟨b, rest, rfl⟩ := List.exists_cons_of_ne_nil hb
    have hpos : more.length ≠ 0 := fun h0 => hmore (List.eq_nil_of_length_eq_zero h0)
    rcases encodeChar_cases c with ⟨a, ha, _⟩ | ⟨a, all, ha, _, _, hlead, hcont, hall⟩
    · rw [ha] at hc
      have hl := congrArg List.length hc
      simp only [List.length_cons, List.length_append, List.length_nil] at hl
      omega
    · rw [ha, List.cons_append, List.cons.injEq] at hc
      obtain ⟨rfl, rfl⟩ := hc
      have hle := leadLength_le a
      rw [List.length_append] at hlead
      refine ⟨a, rest, rfl, hpos, by omega, hcont, ?_, by omega⟩
      exact fun k hk => hall k (List.mem_append_left _ hk)

/-- The scan for the start of the last character. -/
theorem incomplete_lead (b : UInt8) (before : List UInt8) (hb : isContinuation b = false)
    (rest : List UInt8) (hrest : ∀ k ∈ rest, isContinuation k = true) (count : Nat)
    (hcount : count + rest.length < 4) :
    incomplete count (rest ++ b :: before) =
      if count + rest.length + 1 ≥ leadLength b then (0, 0)
      else (count + rest.length + 1, leadLength b - (count + rest.length + 1)) := by
  induction rest generalizing count with
  | nil =>
    rw [List.nil_append, incomplete, hb]
    rfl
  | cons k rest ih =>
    rw [List.forall_mem_cons] at hrest
    rw [List.length_cons] at hcount
    have hstop : ¬(count + 1 ≥ 4 ∨ rest ++ b :: before = []) := by
      intro h
      rcases h with h | h
      · omega
      · exact List.cons_ne_nil _ _ (List.append_eq_nil_iff.1 h).2
    rw [List.cons_append, incomplete, hrest.1, if_pos rfl, if_neg hstop,
      ih hrest.2 (count + 1) (by omega), List.length_cons]
    have he : count + 1 + rest.length = count + (rest.length + 1) := by omega
    rw [he]

/-- A whole text with the beginning of a character after it: that beginning is held back. -/
theorem incomplete_encode {missing : Nat} (t : List Char) (h : Begins bytes missing) :
    incomplete 0 (encode t ++ bytes).reverse = (bytes.length, missing) := by
  by_cases hb : bytes = []
  · subst hb
    rw [begins_nil_missing h]
    rw [List.append_nil]
    cases t using List.reverseRecOn with
    | nil => rfl
    | append_singleton t c =>
      rw [encode_append, encode_cons, encode_nil, List.append_nil]
      rcases encodeChar_cases c with ⟨b, hc, _, hlt⟩ | ⟨b, rest, hc, _, _, hlead, hcont, hall⟩
      · have hcont : isContinuation b = false := by
          rw [isContinuation, Bool.and_eq_false_iff, decide_eq_false_iff_not]
          exact .inl (by omega)
        rw [hc, List.reverse_append, List.reverse_singleton, List.singleton_append, incomplete,
          hcont]
        have hlead : leadLength b = 0 := by
          rw [leadLength, if_neg (by omega), if_neg (by omega), if_neg (by omega)]
        rw [hlead]
        rfl
      · have hle := leadLength_le b
        rw [hc, List.reverse_append, List.reverse_cons, List.append_assoc, List.singleton_append]
        rw [incomplete_lead b _ hcont rest.reverse
          (fun k hk => hall k (List.mem_reverse.1 hk)) 0 (by rw [List.length_reverse]; omega)]
        rw [List.length_reverse, if_pos (by omega)]
        rfl
  · obtain ⟨b, rest, rfl, hpos, hlead, hcont, hall, hlen⟩ := begins_cases h hb
    rw [List.reverse_append, List.reverse_cons, List.append_assoc, List.singleton_append]
    rw [incomplete_lead b _ hcont rest.reverse
      (fun k hk => hall k (List.mem_reverse.1 hk)) 0 (by rw [List.length_reverse]; omega)]
    rw [List.length_reverse, if_neg (by omega), List.length_cons]
    have hm : leadLength b - (0 + rest.length + 1) = missing := by omega
    rw [hm, Nat.zero_add]

/-- A write that starts with a whole character. -/
theorem write_whole {missing : Nat} (t : List Char) (h : Begins q missing) :
    new.write (encode t ++ q) = (t, ⟨q, missing⟩) := by
  have hcut : (encode t ++ q).length - q.length = (encode t).length := by
    rw [List.length_append]
    omega
  have hnew : new.complete (encode t ++ q) = ([], new, encode t ++ q) := if_pos rfl
  rw [write, hnew]
  dsimp only
  split
  · rename_i hnil
    obtain ⟨ht, rfl⟩ := List.append_eq_nil_iff.1 hnil
    rw [encode_eq_nil.1 ht, begins_nil_missing h]
    rfl
  · rw [incomplete_encode t h]
    dsimp only
    rw [hcut, List.take_left, List.drop_left, decode_encode, List.nil_append]

/-- A new decoder writes the bytes of a text as the text. -/
theorem write_text (t : List Char) : new.write (encode t) = (t, new) := by
  have hw := write_whole t begins_nil
  rw [List.append_nil] at hw
  exact hw

/-- Once the character held back has ended, the rest is a write of its own. -/
theorem write_of_complete {d : StringDecoder} (h : d.complete data = (prepend, new, rest)) :
    d.write data = (prepend ++ (new.write rest).1, (new.write rest).2) := by
  have hnew : new.complete rest = ([], new, rest) := if_pos rfl
  rw [write, write, h, hnew]
  dsimp only
  split
  · rw [List.append_nil]
  · rfl

/-- Whatever the cuts, writes of the bytes of a text give the characters that have ended. -/
theorem write_encode {d : StringDecoder} {missing : Nat} (hd : Begins d.buffered d.missing)
    (h : d.buffered ++ data = encode t ++ q) (hq : Begins q missing) :
    d.write data = (t, ⟨q, missing⟩) := by
  by_cases hb : d.buffered = []
  · have hd0 : d = new := by
      obtain ⟨buffered, m⟩ := d
      dsimp only at hb hd
      subst hb
      rw [begins_nil_missing hd]
      rfl
    subst hd0
    rw [new, List.nil_append] at h
    rw [h]
    exact write_whole t hq
  · obtain ⟨b, rest, hbuf, hpos, hlead, hcont, hall, _⟩ := begins_cases hd hb
    cases t with
    | nil =>
      rw [hbuf, encode_nil, List.nil_append] at h
      have hqne : q ≠ [] := by
        rw [← h]
        exact List.cons_ne_nil _ _
      obtain ⟨b', rest', hq', hpos', hlead', _, hall', _⟩ := begins_cases hq hqne
      rw [hq', List.cons_append, List.cons.injEq] at h
      obtain ⟨rfl, rfl⟩ := h
      rw [List.length_append] at hlead'
      have hfound : (data.take d.missing).takeWhile isContinuation = data := by
        rw [List.take_of_length_le (by omega), List.takeWhile_eq_self_iff]
        exact fun k hk => hall' k (List.mem_append_right _ hk)
      have hmin : ¬ data.length < min data.length d.missing := by omega
      have hmissing : d.missing - data.length = missing := by omega
      rw [write, complete, if_neg hpos]
      simp only [hfound, hmin, hmissing, hpos', if_false, List.drop_length, if_true, hbuf, hq',
        List.cons_append]
    | cons c t =>
      rw [hbuf, encode_cons, List.append_assoc] at h
      rcases encodeChar_cases c with ⟨a, ha, _, hlt⟩ | ⟨a, all, ha, _, _, hlead', _, hall'⟩
      · rw [ha, List.cons_append, List.singleton_append, List.cons.injEq] at h
        rw [h.1, leadLength, if_neg (by omega), if_neg (by omega), if_neg (by omega)] at hlead
        omega
      · rw [ha, List.cons_append, List.cons_append, List.cons.injEq] at h
        obtain ⟨rfl, h⟩ := h
        have hsplit : ∃ more, all = rest ++ more ∧ data = more ++ (encode t ++ q) := by
          rcases List.append_eq_append_iff.1 h with ⟨more, hm, hd'⟩ | ⟨more, hm, hd'⟩
          · exact ⟨more, hm, hd'⟩
          · have hlen := congrArg List.length hm
            rw [List.length_append] at hlen
            have hnil : more = [] := List.eq_nil_of_length_eq_zero (by omega)
            subst hnil
            omega
        obtain ⟨more, rfl, rfl⟩ := hsplit
        rw [List.length_append] at hlead'
        have hmore : more.length = d.missing := by omega
        have hfound : ((more ++ (encode t ++ q)).take d.missing).takeWhile isContinuation =
            more := by
          rw [← hmore, List.take_left, List.takeWhile_eq_self_iff]
          exact fun k hk => hall' k (List.mem_append_right _ hk)
        have hchar : decode (d.buffered ++ more) = [c] := by
          have he := decode_encode [c]
          rw [encode_cons, encode_nil, List.append_nil, ha] at he
          rw [hbuf]
          exact he
        have hcomplete : d.complete (more ++ (encode t ++ q)) = ([c], new, encode t ++ q) := by
          rw [complete, if_neg hpos]
          have hmin : ¬ d.missing < min (more ++ (encode t ++ q)).length d.missing := by omega
          have hdrop : (more ++ (encode t ++ q)).drop d.missing = encode t ++ q := by
            rw [← hmore, List.drop_left]
          simp only [hfound, hmore, hmin, if_false, Nat.sub_self, if_true, hchar, hdrop]
        rw [write_of_complete hcomplete, write_whole t hq]
        rfl

end StringDecoder

end PromotionManagement.Library
