import PromotionManagement.Library.StringDecoder

namespace PromotionManagement.Library
open Utf8
set_option autoImplicit true

namespace Utf8

namespace Decoder

/-- Where a decoder stands after some bytes. -/
def after (d : Decoder) (bytes : List UInt8) : Decoder := bytes.foldl (fun d b => (d.push b).2) d

/-- A decoder between bytes: it waits for nothing, or for a continuation byte. -/
structure WellFormed (d : Decoder) : Prop where
  lower : 0x80 ≤ d.lower
  upper : d.upper ≤ 0xbf
  rest : d.needed = 0 → d = initial

@[simp] theorem after_nil (d : Decoder) : d.after [] = d := rfl

@[simp] theorem after_cons (d : Decoder) (b : UInt8) (bytes : List UInt8) :
    d.after (b :: bytes) = (d.push b).2.after bytes := rfl

theorem after_append (d : Decoder) (x y : List UInt8) : d.after (x ++ y) = (d.after x).after y :=
  List.foldl_append

theorem wellFormed_initial : initial.WellFormed := ⟨by decide, by decide, fun _ => rfl⟩

theorem wellFormed_lead (b : Nat) : (lead b).2.WellFormed := by
  rw [lead]
  split
  · exact wellFormed_initial
  · split
    · exact ⟨Nat.le_refl _, Nat.le_refl _, fun h => absurd h Nat.one_ne_zero⟩
    · split
      · refine ⟨?_, ?_, fun h => absurd h (Nat.succ_ne_zero 1)⟩
        · dsimp only
          split <;> decide
        · dsimp only
          split <;> decide
      · split
        · refine ⟨?_, ?_, fun h => absurd h (Nat.succ_ne_zero 2)⟩
          · dsimp only
            split <;> decide
          · dsimp only
            split <;> decide
        · exact wellFormed_initial

/-- What one byte does: it begins anew, ends the character, or goes on with it. -/
theorem push_cases (d : Decoder) (byte : UInt8) :
    (d.needed = 0 ∧ d.push byte = lead byte.toNat) ∨
    (d.needed = 1 ∧ d.lower ≤ byte.toNat ∧ byte.toNat ≤ d.upper ∧
      d.push byte = ([Char.ofNat (d.scalar * 64 + (byte.toNat - 0x80))], initial)) ∨
    (1 < d.needed ∧ d.lower ≤ byte.toNat ∧ byte.toNat ≤ d.upper ∧
      d.push byte = ([], ⟨d.needed - 1, d.scalar * 64 + (byte.toNat - 0x80), 0x80, 0xbf⟩)) ∨
    (d.needed ≠ 0 ∧ ¬(d.lower ≤ byte.toNat ∧ byte.toNat ≤ d.upper) ∧
      d.push byte = (replacement :: (lead byte.toNat).1, (lead byte.toNat).2)) := by
  by_cases h₀ : d.needed = 0
  · exact .inl ⟨h₀, if_pos h₀⟩
  · right
    by_cases hb : d.lower ≤ byte.toNat ∧ byte.toNat ≤ d.upper
    · by_cases h₁ : d.needed = 1
      · refine .inl ⟨h₁, hb.1, hb.2, ?_⟩
        rw [push, if_neg h₀, if_pos hb, if_pos h₁]
      · refine .inr (.inl ⟨by omega, hb.1, hb.2, ?_⟩)
        rw [push, if_neg h₀, if_pos hb, if_neg h₁]
    · refine .inr (.inr ⟨h₀, hb, ?_⟩)
      rw [push, if_neg h₀, if_neg hb]

theorem WellFormed.push (_ : WellFormed d) (byte : UInt8) : (d.push byte).2.WellFormed := by
  rcases d.push_cases byte with ⟨_, he⟩ | ⟨_, _, _, he⟩ | ⟨hn, _, _, he⟩ | ⟨_, _, he⟩
  · rw [he]
    exact wellFormed_lead _
  · rw [he]
    exact wellFormed_initial
  · rw [he]
    refine ⟨Nat.le_refl _, Nat.le_refl _, ?_⟩
    intro h₀
    dsimp only at h₀
    omega
  · rw [he]
    exact wellFormed_lead _

theorem WellFormed.after (h : WellFormed d) (bytes : List UInt8) : (d.after bytes).WellFormed := by
  induction bytes generalizing d with
  | nil => exact h
  | cons b bytes ih => exact ih (h.push b)

/-- A continuation byte begins no character. -/
theorem lead_continuation {byte : UInt8} (h : isContinuation byte = true) :
    lead byte.toNat = ([replacement], initial) := by
  rw [isContinuation, Bool.and_eq_true, decide_eq_true_iff, decide_eq_true_iff] at h
  rw [lead, if_neg (by omega), if_neg (by omega), if_neg (by omega), if_neg (by omega)]

/-- A byte that is no continuation byte ends what came before it. -/
theorem WellFormed.push_of_not_continuation (h : WellFormed d) {byte : UInt8}
    (hb : isContinuation byte = false) :
    d.push byte = (d.decodeFrom [] ++ (lead byte.toNat).1, (lead byte.toNat).2) := by
  rw [isContinuation, Bool.and_eq_false_iff, decide_eq_false_iff_not, decide_eq_false_iff_not] at hb
  have hl := h.lower
  have hu := h.upper
  rcases d.push_cases byte with ⟨hn, he⟩ | ⟨_, _, _, _⟩ | ⟨_, _, _, _⟩ | ⟨hn, _, he⟩
  · rw [he, decodeFrom, if_pos hn, List.nil_append]
  · omega
  · omega
  · rw [he, decodeFrom, if_neg hn, List.singleton_append]

/-- A decoder reads what comes before a byte that is no continuation byte on its own. -/
theorem WellFormed.decodeFrom_append_cons (h : WellFormed d) (x : List UInt8)
    (hb : isContinuation b = false) (y : List UInt8) :
    d.decodeFrom (x ++ b :: y) = d.decodeFrom x ++ decode (b :: y) := by
  induction x generalizing d with
  | nil =>
    have hl : decode (b :: y) = (lead b.toNat).1 ++ (lead b.toNat).2.decodeFrom y := rfl
    have hd : d.decodeFrom (b :: y) = (d.push b).1 ++ (d.push b).2.decodeFrom y := rfl
    rw [List.nil_append, hd, h.push_of_not_continuation hb, hl, List.append_assoc]
  | cons a x ih => rw [List.cons_append, decodeFrom, decodeFrom, ih (h.push a), List.append_assoc]

theorem decodeFrom_append (d : Decoder) (x y : List UInt8) (h : d.after x = initial) :
    d.decodeFrom (x ++ y) = d.decodeFrom x ++ decode y := by
  induction x generalizing d with
  | nil =>
    rw [after_nil] at h
    rw [h]
    rfl
  | cons a x ih => rw [List.cons_append, decodeFrom, decodeFrom, ih _ h, List.append_assoc]

/-- Once as many continuation bytes have come as are needed, a decoder is between characters. -/
theorem WellFormed.after_continuation (h : WellFormed d) {bytes : List UInt8}
    (hb : ∀ k ∈ bytes, isContinuation k = true) (hn : d.needed ≤ bytes.length) :
    d.after bytes = initial := by
  induction bytes generalizing d with
  | nil => exact h.rest (Nat.le_zero.1 hn)
  | cons k bytes ih =>
    rw [List.forall_mem_cons] at hb
    rw [List.length_cons] at hn
    have hi := ih wellFormed_initial hb.2 (Nat.zero_le _)
    rw [after_cons]
    rcases d.push_cases k with ⟨_, he⟩ | ⟨_, _, _, he⟩ | ⟨h₁, _, _, he⟩ | ⟨_, _, he⟩
    · rw [he, lead_continuation hb.1]
      exact hi
    · rw [he]
      exact hi
    · apply ih (h.push k) hb.2
      rw [he]
      dsimp only
      omega
    · rw [he, lead_continuation hb.1]
      exact hi

/-- A first byte needs no more bytes than its mask says. -/
theorem lead_needed (byte : UInt8) : (lead byte.toNat).2.needed ≤ leadLength byte - 1 := by
  rw [lead]
  split
  · exact Nat.zero_le _
  · split
    · have hl : leadLength byte = 2 := by
        rw [leadLength, if_pos (by omega)]
      rw [hl]
    · split
      · have hl : leadLength byte = 3 := by
          rw [leadLength, if_neg (by omega), if_pos (by omega)]
        rw [hl]
      · split
        · have hl : leadLength byte = 4 := by
            rw [leadLength, if_neg (by omega), if_neg (by omega), if_pos (by omega)]
          rw [hl]
        · exact Nat.zero_le _

/-- A first byte and the continuation bytes its mask asks for leave a decoder between
characters. -/
theorem WellFormed.after_character (h : WellFormed d) (hb : isContinuation b = false)
    {rest : List UInt8} (hr : ∀ k ∈ rest, isContinuation k = true)
    (hl : leadLength b ≤ rest.length + 1) : d.after (b :: rest) = initial := by
  rw [after_cons, h.push_of_not_continuation hb]
  apply (wellFormed_lead _).after_continuation hr
  have hn := lead_needed b
  omega

end Decoder

end Utf8

namespace StringDecoder

/-- The last byte of a write that is no continuation byte, and what comes after it. -/
theorem last_lead (bytes : List UInt8) : (∀ k ∈ bytes, isContinuation k = true) ∨
    ∃ before b rest, bytes = before ++ b :: rest ∧ isContinuation b = false ∧
      ∀ k ∈ rest, isContinuation k = true := by
  induction bytes with
  | nil => exact .inl fun k hk => absurd hk List.not_mem_nil
  | cons a bytes ih =>
    rcases ih with h | ⟨before, b, rest, rfl, hb, hr⟩
    · cases ha : isContinuation a with
      | true => exact .inl (List.forall_mem_cons.2 ⟨ha, h⟩)
      | false => exact .inr ⟨[], a, bytes, rfl, ha, h⟩
    · exact .inr ⟨a :: before, b, rest, rfl, hb, hr⟩

/-- A scan over continuation bytes alone holds nothing back. -/
theorem incomplete_continuation (count : Nat) {bytes : List UInt8}
    (h : ∀ k ∈ bytes, isContinuation k = true) : incomplete count bytes = (0, 0) := by
  induction bytes generalizing count with
  | nil => rfl
  | cons k bytes ih =>
    rw [List.forall_mem_cons] at h
    rw [incomplete, h.1, if_pos rfl]
    split
    · rfl
    · exact ih _ h.2

/-- A scan that meets four continuation bytes gives up. -/
theorem incomplete_long (count : Nat) {rest : List UInt8}
    (h : ∀ k ∈ rest, isContinuation k = true) (hl : 4 ≤ count + rest.length) (hc : count < 4)
    (before : List UInt8) : incomplete count (rest ++ before) = (0, 0) := by
  induction rest generalizing count with
  | nil =>
    rw [List.length_nil] at hl
    omega
  | cons k rest ih =>
    rw [List.forall_mem_cons] at h
    rw [List.length_cons] at hl
    rw [List.cons_append, incomplete, h.1, if_pos rfl]
    split
    · rfl
    · rename_i hn
      rw [not_or] at hn
      exact ih _ h.2 (by omega) (by omega)

/-- The last character of a write is held back while it lacks bytes. -/
theorem incomplete_last (before : List UInt8) (hb : isContinuation b = false) {rest : List UInt8}
    (hr : ∀ k ∈ rest, isContinuation k = true) :
    incomplete 0 (before ++ b :: rest).reverse =
      if rest.length + 1 ≥ leadLength b then (0, 0)
      else (rest.length + 1, leadLength b - (rest.length + 1)) := by
  have hrev : ∀ k ∈ rest.reverse, isContinuation k = true :=
    fun k hk => hr k (List.mem_reverse.1 hk)
  have hle := leadLength_le b
  rw [List.reverse_append, List.reverse_cons, List.append_assoc, List.singleton_append]
  by_cases hlen : rest.length < 4
  · rw [incomplete_lead b _ hb _ hrev 0 (by rw [List.length_reverse]; omega), List.length_reverse,
      Nat.zero_add]
  · rw [incomplete_long 0 hrev (by rw [List.length_reverse]; omega) (by decide), if_pos (by omega)]

/-- Nothing of these bytes is held back. -/
def Settled (bytes : List UInt8) : Prop :=
  ∀ before b rest, bytes = before ++ b :: rest → isContinuation b = false →
    (∀ k ∈ rest, isContinuation k = true) → leadLength b ≤ rest.length + 1

/-- A first byte with fewer continuation bytes than its mask asks for, or nothing. -/
def Held (bytes : List UInt8) (missing : Nat) : Prop :=
  (bytes = [] ∧ missing = 0) ∨ ∃ b rest, bytes = b :: rest ∧ isContinuation b = false ∧
    (∀ k ∈ rest, isContinuation k = true) ∧ missing ≠ 0 ∧
    leadLength b = rest.length + 1 + missing

theorem held_nil {missing : Nat} (h : Held [] missing) : missing = 0 := by
  rcases h with ⟨_, hm⟩ | ⟨_, _, hn, _⟩
  · exact hm
  · cases hn

theorem last_lead_unique {before before' rest rest' : List UInt8}
    (h : before ++ b :: rest = before' ++ b' :: rest') (hb : isContinuation b = false)
    (hr : ∀ k ∈ rest, isContinuation k = true) (hb' : isContinuation b' = false)
    (hr' : ∀ k ∈ rest', isContinuation k = true) : b = b' ∧ rest = rest' := by
  rcases List.append_eq_append_iff.1 h with ⟨more, hm, ha⟩ | ⟨more, hm, ha⟩
  · cases more with
    | nil => exact List.cons.inj ha
    | cons k more =>
      obtain ⟨rfl, rfl⟩ := List.cons.inj ha
      have hc := hr b' (List.mem_append_right _ List.mem_cons_self)
      rw [hc] at hb'
      cases hb'
  · cases more with
    | nil =>
      obtain ⟨rfl, rfl⟩ := List.cons.inj ha
      exact ⟨rfl, rfl⟩
    | cons k more =>
      obtain ⟨rfl, rfl⟩ := List.cons.inj ha
      have hc := hr' b (List.mem_append_right _ List.mem_cons_self)
      rw [hc] at hb
      cases hb

theorem settled_of_last (before : List UInt8) (hb : isContinuation b = false) {rest : List UInt8}
    (hr : ∀ k ∈ rest, isContinuation k = true) (hl : leadLength b ≤ rest.length + 1) :
    Settled (before ++ b :: rest) := by
  intro before' b' rest' he hb' hr'
  obtain ⟨rfl, rfl⟩ := last_lead_unique he hb hr hb' hr'
  exact hl

theorem settled_of_continuation {bytes : List UInt8} (h : ∀ k ∈ bytes, isContinuation k = true) :
    Settled bytes := by
  rintro before b rest rfl hb _
  have hc := h b (List.mem_append_right _ List.mem_cons_self)
  rw [hc] at hb
  cases hb

theorem Settled.append (hx : Settled x) (hy : Settled y) : Settled (x ++ y) := by
  intro before b rest h hb hr
  rcases List.append_eq_append_iff.1 h with ⟨more, hm, ha⟩ | ⟨more, hm, ha⟩
  · exact hy more b rest ha hb hr
  · cases more with
    | nil => exact hy [] b rest ha.symm hb hr
    | cons k more =>
      obtain ⟨rfl, hrest⟩ : b = k ∧ rest = more ++ y := List.cons.inj ha
      subst hrest
      have hl := hx before b more hm hb fun k hk => hr k (List.mem_append_left _ hk)
      rw [List.length_append]
      omega

/-- After bytes of which nothing is held back, a decoder is between characters. -/
theorem Settled.after (h : Settled bytes) : Decoder.initial.after bytes = Decoder.initial := by
  rcases last_lead bytes with hc | ⟨before, b, rest, rfl, hb, hr⟩
  · exact Decoder.wellFormed_initial.after_continuation hc (Nat.zero_le _)
  · rw [Decoder.after_append]
    exact (Decoder.wellFormed_initial.after before).after_character hb hr
      (h before b rest rfl hb hr)

/-- The bytes of a write that are decoded, and those held back. -/
theorem write_split {missing : Nat} (h : Held held missing) (hs : held = [] → Settled done) :
    new.write (done ++ held) = (decode done, ⟨held, missing⟩) := by
  have hnew : new.complete (done ++ held) = ([], new, done ++ held) := if_pos rfl
  have hscan : incomplete 0 (done ++ held).reverse = (held.length, missing) := by
    rcases h with ⟨rfl, rfl⟩ | ⟨b, rest, rfl, hb, hr, hm, hl⟩
    · rw [List.append_nil]
      rcases last_lead done with hc | ⟨before, b, rest, rfl, hb, hr⟩
      · exact incomplete_continuation 0 fun k hk => hc k (List.mem_reverse.1 hk)
      · rw [incomplete_last before hb hr]
        exact if_pos (hs rfl before b rest rfl hb hr)
    · rw [incomplete_last done hb hr, if_neg (by omega), List.length_cons]
      have he : leadLength b - (rest.length + 1) = missing := by omega
      rw [he]
  have hcut : (done ++ held).length - held.length = done.length := by
    rw [List.length_append]
    omega
  rw [write, hnew]
  dsimp only
  split
  · rename_i hnil
    obtain ⟨rfl, rfl⟩ := List.append_eq_nil_iff.1 hnil
    rw [held_nil h]
    rfl
  · rw [hscan]
    dsimp only
    rw [hcut, List.take_left, List.drop_left, List.nil_append]

theorem write_cases (bytes : List UInt8) : ∃ done held missing, bytes = done ++ held ∧
    Held held missing ∧ (held = [] → Settled done) ∧
    new.write bytes = (decode done, ⟨held, missing⟩) := by
  have hsplit : ∃ done held missing, bytes = done ++ held ∧ Held held missing ∧
      (held = [] → Settled done) := by
    rcases last_lead bytes with hc | ⟨before, b, rest, rfl, hb, hr⟩
    · exact ⟨bytes, [], 0, (List.append_nil _).symm, .inl ⟨rfl, rfl⟩,
        fun _ => settled_of_continuation hc⟩
    · by_cases hl : leadLength b ≤ rest.length + 1
      · exact ⟨before ++ b :: rest, [], 0, (List.append_nil _).symm, .inl ⟨rfl, rfl⟩,
          fun _ => settled_of_last before hb hr hl⟩
      · refine ⟨before, b :: rest, leadLength b - (rest.length + 1), rfl, ?_, ?_⟩
        · exact .inr ⟨b, rest, rfl, hb, hr, by omega, by omega⟩
        · intro hn
          cases hn
  obtain ⟨done, held, missing, rfl, hh, hs⟩ := hsplit
  exact ⟨done, held, missing, rfl, hh, hs, write_split hh hs⟩

/-- Bytes with nothing held back of them, or before a byte that begins anew, are a write of their
own. -/
theorem write_join (h : Settled x ∨ ∃ k y, c = k :: y ∧ isContinuation k = false) :
    new.write (x ++ c) = (decode x ++ (new.write c).1, (new.write c).2) := by
  obtain ⟨done, held, missing, rfl, hh, hs, hw⟩ := write_cases c
  have hdecode : decode (x ++ done) = decode x ++ decode done := by
    rcases h with hx | ⟨k, y, hc, hk⟩
    · exact Decoder.decodeFrom_append _ _ _ hx.after
    · cases done with
      | nil => rw [List.append_nil]; exact (List.append_nil _).symm
      | cons a done =>
        obtain ⟨rfl, -⟩ := List.cons.inj hc
        exact Decoder.wellFormed_initial.decodeFrom_append_cons x hk done
  have hsettled : held = [] → Settled (x ++ done) := by
    rintro rfl
    rcases h with hx | ⟨k, y, hc, hk⟩
    · exact hx.append (hs rfl)
    · rw [List.append_nil] at hc
      subst hc
      intro before b rest he hb hr
      rcases List.append_eq_append_iff.1 he with ⟨more, _, ha⟩ | ⟨more, hm, ha⟩
      · exact hs rfl more b rest ha hb hr
      · cases more with
        | nil => exact hs rfl [] b rest ha.symm hb hr
        | cons a more =>
          obtain ⟨rfl, rfl⟩ := List.cons.inj ha
          have hc := hr k (List.mem_append_right _ List.mem_cons_self)
          rw [hc] at hk
          cases hk
  rw [hw, ← List.append_assoc, write_split hh hsettled, hdecode]

/-- The continuation bytes a write adds to the character held back. -/
theorem complete_cases (d : StringDecoder) (hm : d.missing ≠ 0) (data : List UInt8) :
    ∃ found more, data = found ++ more ∧ (∀ k ∈ found, isContinuation k = true) ∧
      ((more = [] ∧ found.length < d.missing ∧
          d.complete data = ([], ⟨d.buffered ++ found, d.missing - found.length⟩, [])) ∨
        ((found.length = d.missing ∨ ∃ k y, more = k :: y ∧ isContinuation k = false) ∧
          d.complete data = (decode (d.buffered ++ found), new, more))) := by
  obtain ⟨tail, htail⟩ := List.takeWhile_prefix (l := data.take d.missing) isContinuation
  obtain ⟨found, hfound⟩ : ∃ found, (data.take d.missing).takeWhile isContinuation = found :=
    ⟨_, rfl⟩
  rw [hfound] at htail
  have hall : ∀ k ∈ found, isContinuation k = true := by
    rw [← hfound]
    exact fun k hk => List.mem_takeWhile_imp hk
  have hdata : data = found ++ (tail ++ data.drop d.missing) := by
    rw [← List.append_assoc, htail, List.take_append_drop]
  have hlen := congrArg List.length htail
  rw [List.length_append, List.length_take] at hlen
  have hdrop : data.drop found.length = tail ++ data.drop d.missing := by
    conv_lhs => rw [hdata]
    exact List.drop_left
  refine ⟨found, tail ++ data.drop d.missing, hdata, hall, ?_⟩
  rw [complete, if_neg hm, hfound]
  dsimp only
  rw [hdrop]
  cases tail with
  | nil =>
    rw [List.length_nil, Nat.add_zero] at hlen
    have hmin : ¬found.length < min data.length d.missing := by omega
    rw [if_neg hmin, List.nil_append]
    split
    · rename_i h₀
      exact .inr ⟨.inl (by omega), rfl⟩
    · rename_i h₀
      have hnil : data.drop d.missing = [] := List.drop_eq_nil_of_le (by omega)
      rw [hnil]
      exact .inl ⟨rfl, by omega, rfl⟩
  | cons k tail =>
    rw [List.length_cons] at hlen
    have hk : isContinuation k = false := by
      rw [← htail] at hfound
      have hs := (List.takeWhile_append_dropWhile (p := isContinuation) (l := found ++ k :: tail))
      rw [hfound] at hs
      have hd := List.append_cancel_left hs
      have hh := List.head?_dropWhile_not isContinuation (found ++ k :: tail)
      rw [hd] at hh
      simpa using hh
    have hmin : found.length < min data.length d.missing := by omega
    rw [if_pos hmin, if_pos rfl]
    exact .inr ⟨.inr ⟨k, _, rfl, hk⟩, rfl⟩

/-- Whatever the bytes, two writes give what one write of all of them gives. -/
theorem write_append (x y : List UInt8) :
    new.write (x ++ y) =
      ((new.write x).1 ++ ((new.write x).2.write y).1, ((new.write x).2.write y).2) := by
  obtain ⟨done, held, missing, rfl, hh, hs, hw⟩ := write_cases x
  rw [hw]
  dsimp only
  rcases hh with ⟨rfl, rfl⟩ | ⟨b, rest, rfl, hb, hr, hm, hl⟩
  · rw [List.append_nil]
    exact write_join (.inl (hs rfl))
  · obtain ⟨found, more, rfl, hf, hc⟩ := complete_cases ⟨b :: rest, missing⟩ hm y
    have hall : ∀ k ∈ rest ++ found, isContinuation k = true := by
      intro k hk
      rcases List.mem_append.1 hk with hk | hk
      · exact hr k hk
      · exact hf k hk
    rcases hc with ⟨rfl, hlt, hc⟩ | ⟨hcut, hc⟩
    · dsimp only at hlt hc
      have hheld : Held (b :: (rest ++ found)) (missing - found.length) := by
        refine .inr ⟨b, rest ++ found, rfl, hb, hall, by omega, ?_⟩
        rw [List.length_append]
        omega
      have hwrite : write ⟨b :: rest, missing⟩ found =
          ([], ⟨b :: (rest ++ found), missing - found.length⟩) := by
        rw [List.append_nil] at hc
        rw [write, hc]
        exact if_pos rfl
      rw [List.append_nil, hwrite, List.append_nil, List.append_assoc, List.cons_append]
      apply write_split hheld
      intro hn
      cases hn
    · dsimp only at hcut hc
      have hx : Settled (done ++ b :: (rest ++ found)) ∨
          ∃ k y, more = k :: y ∧ isContinuation k = false := by
        rcases hcut with hcut | hcut
        · left
          apply settled_of_last done hb hall
          rw [List.length_append]
          omega
        · exact .inr hcut
      have hdecode : decode (done ++ b :: (rest ++ found)) =
          decode done ++ decode (b :: (rest ++ found)) :=
        Decoder.wellFormed_initial.decodeFrom_append_cons done hb _
      have hjoin := write_join hx
      rw [hdecode, List.append_assoc, List.cons_append, List.append_assoc,
          List.append_assoc] at hjoin
      rw [write_of_complete hc, List.append_assoc, List.cons_append]
      exact hjoin

/-- A decoder some bytes have been written to. -/
def Reached (d : StringDecoder) : Prop := ∃ bytes, (new.write bytes).2 = d

theorem reached_new : Reached new := ⟨[], rfl⟩

theorem Reached.write_append (h : Reached d) (x y : List UInt8) :
    d.write (x ++ y) = ((d.write x).1 ++ ((d.write x).2.write y).1, ((d.write x).2.write y).2) := by
  obtain ⟨bytes, rfl⟩ := h
  have h₁ := StringDecoder.write_append bytes (x ++ y)
  have h₂ := StringDecoder.write_append (bytes ++ x) y
  rw [List.append_assoc, h₁, StringDecoder.write_append bytes x, Prod.mk.injEq] at h₂
  rw [List.append_assoc, List.append_cancel_left_eq] at h₂
  exact Prod.ext h₂.1 h₂.2

theorem Reached.write (h : Reached d) (x : List UInt8) : Reached (d.write x).2 := by
  obtain ⟨bytes, rfl⟩ := h
  apply Exists.intro (bytes ++ x)
  rw [StringDecoder.write_append]

theorem Reached.write_nil (h : Reached d) : d.write [] = ([], d) := by
  obtain ⟨bytes, rfl⟩ := h
  have hw := StringDecoder.write_append bytes []
  rw [List.append_nil] at hw
  have h₁ := congrArg Prod.fst hw
  have h₂ := congrArg Prod.snd hw
  dsimp only at h₁ h₂
  exact Prod.ext (List.append_right_eq_self.1 h₁.symm) h₂.symm

theorem Reached.held (h : Reached d) : Held d.buffered d.missing := by
  obtain ⟨bytes, rfl⟩ := h
  obtain ⟨done, held, missing, _, hh, _, hw⟩ := write_cases bytes
  rw [hw]
  exact hh

end StringDecoder

end PromotionManagement.Library
