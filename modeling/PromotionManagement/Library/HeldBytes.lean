import PromotionManagement.Library.SplitWrites

namespace PromotionManagement.Library
open Utf8
set_option autoImplicit true

namespace Utf8

namespace Decoder

/-- A byte is decoded to no more than one character, and what is unfinished to one more. -/
theorem length_decodeFrom_le (d : Decoder) (bytes : List UInt8) :
    (d.decodeFrom bytes).length ≤ bytes.length + if d.needed = 0 then 0 else 1 := by
  induction bytes generalizing d with
  | nil =>
    rw [decodeFrom]
    split
    · exact Nat.le_refl _
    · exact Nat.le_refl _
  | cons b bytes ih =>
    have hlead : (lead b.toNat).1.length + (if (lead b.toNat).2.needed = 0 then 0 else 1) ≤ 1 := by
      rw [lead]
      split
      · exact Nat.le_refl _
      · split
        · exact Nat.le_refl _
        · split
          · exact Nat.le_refl _
          · split
            · exact Nat.le_refl _
            · exact Nat.le_refl _
    have hi := ih (d.push b).2
    rw [decodeFrom, List.length_append, List.length_cons]
    rcases d.push_cases b with ⟨_, he⟩ | ⟨h₁, _, _, he⟩ | ⟨h₁, _, _, he⟩ | ⟨h₁, _, he⟩
    · rw [he] at hi ⊢
      omega
    · rw [he] at hi ⊢
      have h₀ : initial.needed = 0 := rfl
      rw [if_pos h₀] at hi
      rw [List.length_singleton]
      omega
    · rw [he] at hi ⊢
      dsimp only at hi ⊢
      rw [if_neg (by omega)] at hi ⊢
      rw [List.length_nil]
      omega
    · rw [he, if_neg h₁, List.length_cons]
      rw [he] at hi
      dsimp only at hi ⊢
      omega

theorem decodeFrom_ne_nil (d : Decoder) {bytes : List UInt8} (h : bytes ≠ []) :
    d.decodeFrom bytes ≠ [] := by
  induction bytes generalizing d with
  | nil => exact absurd rfl h
  | cons b bytes ih =>
    intro hn
    rw [decodeFrom, List.append_eq_nil_iff] at hn
    obtain ⟨htext, hrest⟩ := hn
    have hbytes : bytes = [] := by
      by_contra hb
      exact ih _ hb hrest
    have hneeded : (d.push b).2.needed = 0 := by
      by_contra h₀
      rw [hbytes, decodeFrom, if_neg h₀] at hrest
      cases hrest
    have hlead : (lead b.toNat).2.needed = 0 → (lead b.toNat).1 ≠ [] := by
      rw [lead]
      split
      · exact fun _ => List.cons_ne_nil _ _
      · split
        · exact fun h => absurd h Nat.one_ne_zero
        · split
          · exact fun h => absurd h (Nat.succ_ne_zero 1)
          · split
            · exact fun h => absurd h (Nat.succ_ne_zero 2)
            · exact fun _ => List.cons_ne_nil _ _
    rcases d.push_cases b with ⟨_, he⟩ | ⟨_, _, _, he⟩ | ⟨h₁, _, _, he⟩ | ⟨_, _, he⟩
    · rw [he] at htext hneeded
      exact hlead hneeded htext
    · rw [he] at htext
      cases htext
    · rw [he] at hneeded
      dsimp only at hneeded
      omega
    · rw [he] at htext
      cases htext

/-- Continuation bytes on their own are replaced one by one. -/
theorem decode_continuation {bytes : List UInt8} (h : ∀ k ∈ bytes, isContinuation k = true) :
    decode bytes = List.replicate bytes.length replacement := by
  induction bytes with
  | nil => rfl
  | cons k bytes ih =>
    rw [List.forall_mem_cons] at h
    have hd : decode (k :: bytes) = (lead k.toNat).1 ++ (lead k.toNat).2.decodeFrom bytes := rfl
    have ih' : initial.decodeFrom bytes = List.replicate bytes.length replacement := ih h.2
    rw [hd, lead_continuation h.1]
    dsimp only
    rw [ih']
    rfl

/-- A byte that a decoder inside a character takes without ending the character. -/
def GoesOn (d : Decoder) (byte : UInt8) : Prop :=
  1 < d.needed ∧ d.lower ≤ byte.toNat ∧ byte.toNat ≤ d.upper

instance (d : Decoder) (byte : UInt8) : Decidable (d.GoesOn byte) := by
  rw [GoesOn]
  exact inferInstance

/-- A byte that ends a character a decoder is inside, and the character is the replacement. -/
def EndsReplacement (d : Decoder) (byte : UInt8) : Prop :=
  d.needed = 1 ∧ (d.lower ≤ byte.toNat ∧ byte.toNat ≤ d.upper) ∧
    Char.ofNat (d.scalar * 64 + (byte.toNat - 0x80)) = replacement

/-- When continuation bytes decode inside a character as they do on their own. -/
theorem decodeFrom_eq_replicate {d : Decoder} (h : d.needed ≠ 0) {k : UInt8} {bytes : List UInt8}
    (hk : isContinuation k = true) (hb : ∀ k ∈ bytes, isContinuation k = true) :
    d.decodeFrom (k :: bytes) = List.replicate (bytes.length + 1) replacement ↔
      d.EndsReplacement k ∨ d.GoesOn k ∧ bytes = [] := by
  have hdecode : initial.decodeFrom bytes = List.replicate bytes.length replacement :=
    decode_continuation hb
  rw [decodeFrom]
  rcases d.push_cases k with ⟨h₀, _⟩ | ⟨h₁, hl, hu, he⟩ | ⟨h₁, hl, hu, he⟩ | ⟨_, ho, he⟩
  · exact absurd h₀ h
  · rw [he, hdecode, List.singleton_append, List.replicate_succ]
    constructor
    · intro heq
      exact .inl ⟨h₁, ⟨hl, hu⟩, (List.cons.inj heq).1⟩
    · rintro (hr | hg)
      · rw [hr.2.2]
      · have hn := hg.1.1
        omega
  · rw [he, List.nil_append]
    have hgoes : d.GoesOn k := ⟨h₁, hl, hu⟩
    have hends : ¬d.EndsReplacement k := fun hr => absurd hr.1 (by omega)
    cases bytes with
    | nil =>
      have hd : (Decoder.mk (d.needed - 1) (d.scalar * 64 + (k.toNat - 0x80)) 0x80 0xbf).decodeFrom
          [] = [replacement] := by
        rw [decodeFrom]
        exact if_neg (by dsimp only; omega)
      rw [hd]
      exact iff_of_true rfl (.inr ⟨hgoes, rfl⟩)
    | cons k' bytes =>
      rw [List.forall_mem_cons] at hb
      have hcont := hb.1
      rw [isContinuation, Bool.and_eq_true, decide_eq_true_iff, decide_eq_true_iff] at hcont
      apply iff_of_false
      · intro heq
        have hlen := congrArg List.length heq
        rw [decodeFrom, List.length_append, List.length_replicate, List.length_cons] at hlen
        rcases push_cases ⟨d.needed - 1, d.scalar * 64 + (k.toNat - 0x80), 0x80, 0xbf⟩ k' with
          ⟨h₀, _⟩ | ⟨_, _, _, he'⟩ | ⟨_, _, _, he'⟩ | ⟨_, ho, _⟩
        · dsimp only at h₀
          omega
        · have hle := length_decodeFrom_le initial bytes
          have h₀ : initial.needed = 0 := rfl
          rw [if_pos h₀] at hle
          rw [he', List.length_singleton] at hlen
          dsimp only at hlen
          omega
        · have hle := length_decodeFrom_le ⟨d.needed - 1 - 1,
            (d.scalar * 64 + (k.toNat - 0x80)) * 64 + (k'.toNat - 0x80), 0x80, 0xbf⟩ bytes
          rw [he', List.length_nil] at hlen
          dsimp only at hlen hle
          split at hle
          · omega
          · omega
        · dsimp only at ho
          omega
      · rintro (hr | hg)
        · exact hends hr
        · cases hg.2
  · rw [he, lead_continuation hk]
    apply iff_of_false
    · intro heq
      have hlen := congrArg List.length heq
      have h₁ : (initial.decodeFrom bytes).length = bytes.length := by
        rw [hdecode, List.length_replicate]
      rw [List.length_append, List.length_replicate, h₁] at hlen
      simp only [List.length_cons, List.length_nil] at hlen
      omega
    · rintro (hr | hg)
      · exact ho hr.2.1
      · exact ho hg.1.2

/-- A continuation byte that leaves a decoder inside a character is one of its bytes. -/
theorem push_inside (d : Decoder) {byte : UInt8} (hb : isContinuation byte = true)
    (h : (d.push byte).2.needed ≠ 0) : d.GoesOn byte ∧
      d.push byte = ([], ⟨d.needed - 1, d.scalar * 64 + (byte.toNat - 0x80), 0x80, 0xbf⟩) := by
  rcases d.push_cases byte with ⟨_, he⟩ | ⟨_, _, _, he⟩ | ⟨h₁, hl, hu, he⟩ | ⟨_, _, he⟩
  · rw [he, lead_continuation hb] at h
    exact absurd rfl h
  · rw [he] at h
    exact absurd rfl h
  · exact ⟨⟨h₁, hl, hu⟩, he⟩
  · rw [he, lead_continuation hb] at h
    exact absurd rfl h

/-- A decoder that is still inside a character has taken every continuation byte of it. -/
theorem decodeFrom_inside (d : Decoder) {rest : List UInt8}
    (hr : ∀ k ∈ rest, isContinuation k = true) (hn : (d.after rest).needed ≠ 0) :
    (d.after rest).needed + rest.length = d.needed ∧
      ∀ y, d.decodeFrom (rest ++ y) = (d.after rest).decodeFrom y := by
  induction rest generalizing d with
  | nil => exact ⟨rfl, fun _ => rfl⟩
  | cons k rest ih =>
    rw [List.forall_mem_cons] at hr
    obtain ⟨hlen, hrest⟩ := ih (d.push k).2 hr.2 hn
    have hpush : (d.push k).2.needed ≠ 0 := by
      rw [after_cons] at hn
      omega
    obtain ⟨hgoes, he⟩ := d.push_inside hr.1 hpush
    constructor
    · rw [after_cons, List.length_cons, ← Nat.add_assoc, hlen, he]
      have h₁ := hgoes.1
      dsimp only
      omega
    · intro y
      rw [after_cons, ← hrest y, List.cons_append, decodeFrom, he, List.nil_append]

/-- Where a first byte leaves a decoder. -/
theorem lead_cases (b : Nat) : (lead b).2 = initial ∨
    (b ≤ 0xdf ∧ (lead b).2 = ⟨1, b - 0xc0, 0x80, 0xbf⟩) ∨
    (0xe0 ≤ b ∧ b ≤ 0xef ∧ ∃ lower upper, (lead b).2 = ⟨2, b - 0xe0, lower, upper⟩) ∨
    (0xf0 ≤ b ∧ ∃ lower upper, (b = 0xf0 → 0x90 ≤ lower) ∧
      (lead b).2 = ⟨3, b - 0xf0, lower, upper⟩) := by
  rw [lead]
  split
  · exact .inl rfl
  · split
    · exact .inr (.inl ⟨by omega, rfl⟩)
    · split
      · exact .inr (.inr (.inl ⟨by omega, by omega, _, _, rfl⟩))
      · split
        · refine .inr (.inr (.inr ⟨by omega, _, _, ?_, rfl⟩))
          intro hb
          rw [if_pos hb]
        · exact .inl rfl

theorem lead_inside (byte : UInt8) (h : (lead byte.toNat).2.needed ≠ 0) :
    (lead byte.toNat).1 = [] ∧ (lead byte.toNat).2.needed + 1 = leadLength byte := by
  rw [lead] at h ⊢
  split
  · rename_i hb
    rw [if_pos hb] at h
    exact absurd rfl h
  · split
    · refine ⟨rfl, ?_⟩
      rw [leadLength, if_pos (by omega)]
    · split
      · refine ⟨rfl, ?_⟩
        have hl : leadLength byte = 3 := by
          rw [leadLength, if_neg (by omega), if_pos (by omega)]
        rw [hl]
      · split
        · refine ⟨rfl, ?_⟩
          have hl : leadLength byte = 4 := by
            rw [leadLength, if_neg (by omega), if_neg (by omega), if_pos (by omega)]
          rw [hl]
        · rename_i h₁ h₂ h₃ h₄
          rw [if_neg h₁, if_neg h₂, if_neg h₃, if_neg h₄] at h
          exact absurd rfl h

theorem GoesOn.continuation {d : Decoder} (hd : d.WellFormed) (h : d.GoesOn k) :
    isContinuation k = true := by
  have hl := hd.lower
  have hu := hd.upper
  obtain ⟨_, hlow, hup⟩ := h
  rw [isContinuation, Bool.and_eq_true, decide_eq_true_iff, decide_eq_true_iff]
  omega

theorem ofNat_eq_replacement (h : Char.ofNat v = replacement) : v = 0xfffd := by
  by_cases hv : v.isValidChar
  · rw [Char.ofNat, dif_pos hv] at h
    exact congrArg Char.toNat h
  · rw [Char.ofNat, dif_neg hv] at h
    exact absurd h (by decide)

/-- The only bytes that a last one makes the replacement character of. -/
theorem endsReplacement_lead (hcont : ∀ k ∈ rest, isContinuation k = true)
    (h : ((lead (UInt8.toNat b)).2.after rest).EndsReplacement k) :
    b = 0xef ∧ rest = [0xbf] ∧ k = 0xbd := by
  obtain ⟨hneeded, ⟨hlow, hup⟩, hchar⟩ := h
  have hv := ofNat_eq_replacement hchar
  have hinside : ((lead b.toNat).2.after rest).needed ≠ 0 := by omega
  have hlen := ((lead b.toNat).2.decodeFrom_inside hcont hinside).1
  rw [hneeded] at hlen
  have hwell := (wellFormed_lead b.toNat).after rest
  have hlow' := hwell.lower
  have hup' := hwell.upper
  rcases lead_cases b.toNat with he | ⟨hb₁, he⟩ | ⟨hb₀, hb₁, lower, upper, he⟩ |
    ⟨hb₀, lower, upper, hlower, he⟩
  · have h₀ : initial.needed = 0 := rfl
    rw [he] at hlen
    omega
  · rw [he] at hlen hv
    have hnil : rest = [] := List.eq_nil_of_length_eq_zero (by dsimp only at hlen; omega)
    subst hnil
    dsimp only [after_nil] at hv
    omega
  · have hone : rest.length = 1 := by
      rw [he] at hlen
      dsimp only at hlen
      omega
    obtain ⟨r, rfl⟩ := List.length_eq_one_iff.1 hone
    obtain ⟨hgoes, hpush⟩ := (lead b.toNat).2.push_inside (hcont r List.mem_cons_self) hinside
    have hr := hcont r List.mem_cons_self
    rw [isContinuation, Bool.and_eq_true, decide_eq_true_iff, decide_eq_true_iff] at hr
    rw [after_cons, after_nil, hpush, he] at hv
    dsimp only at hv
    have hbv : b.toNat = (0xef : UInt8).toNat := (by omega : b.toNat = 0xef)
    have hrv : r.toNat = (0xbf : UInt8).toNat := (by omega : r.toNat = 0xbf)
    have hkv : k.toNat = (0xbd : UInt8).toNat := (by omega : k.toNat = 0xbd)
    rw [UInt8.toNat_inj.1 hbv, UInt8.toNat_inj.1 hrv, UInt8.toNat_inj.1 hkv]
    exact ⟨rfl, rfl, rfl⟩
  · have htwo : rest.length = 2 := by
      rw [he] at hlen
      dsimp only at hlen
      omega
    obtain ⟨r, r', rfl⟩ := List.length_eq_two.1 htwo
    rw [List.forall_mem_cons, List.forall_mem_singleton] at hcont
    obtain ⟨hgoes', hpush'⟩ := ((lead b.toNat).2.push r).2.push_inside hcont.2 hinside
    have hpushed : ((lead b.toNat).2.push r).2.needed ≠ 0 := by
      have h₁ := hgoes'.1
      omega
    obtain ⟨hgoes, hpush⟩ := (lead b.toNat).2.push_inside hcont.1 hpushed
    rw [after_cons, after_cons, after_nil, hpush', hpush, he] at hv
    rw [he] at hgoes
    have hlow₁ := hgoes.2.1
    obtain ⟨hcont₁, hcont₂⟩ := hcont
    rw [isContinuation, Bool.and_eq_true, decide_eq_true_iff, decide_eq_true_iff] at hcont₁ hcont₂
    dsimp only at hv hlow₁
    omega

end Decoder

end Utf8

namespace StringDecoder

/-- Bytes held back either begin a character or are replaced whatever comes. -/
theorem Held.after {missing : Nat} (h : Held held missing) (hne : held ≠ []) :
    Decoder.initial.after held = Decoder.initial ∨
      (Decoder.initial.after held).needed = missing ∧ (Decoder.initial.after held).needed ≠ 0 ∧
      ∀ y, decode (held ++ y) = (Decoder.initial.after held).decodeFrom y := by
  rcases h with ⟨rfl, _⟩ | ⟨b, rest, rfl, hb, hr, hm, hl⟩
  · exact absurd rfl hne
  · by_cases hn : (Decoder.initial.after (b :: rest)).needed = 0
    · exact .inl ((Decoder.wellFormed_initial.after _).rest hn)
    · right
      rw [Decoder.after_cons, Decoder.push_lead] at hn ⊢
      obtain ⟨hlen, hrest⟩ := (Decoder.lead b.toNat).2.decodeFrom_inside hr hn
      have hlead : (Decoder.lead b.toNat).2.needed ≠ 0 := by omega
      obtain ⟨htext, hneeded⟩ := Decoder.lead_inside b hlead
      refine ⟨by omega, hn, ?_⟩
      intro y
      rw [← hrest y]
      have hd : decode (b :: rest ++ y) = (Decoder.lead b.toNat).1 ++
          (Decoder.lead b.toNat).2.decodeFrom (rest ++ y) := rfl
      rw [hd, htext, List.nil_append]

/-- When continuation bytes decode after bytes held back as they do on their own. -/
theorem Held.decode_continuation {missing : Nat} (h : Held held missing) (hne : held ≠ [])
    {k : UInt8} {bytes : List UInt8} (hk : isContinuation k = true)
    (hb : ∀ k ∈ bytes, isContinuation k = true) :
    decode (held ++ k :: bytes) = decode (k :: bytes) ↔
      (Decoder.initial.after held).EndsReplacement k ∨
        (Decoder.initial.after held).GoesOn k ∧ bytes = [] := by
  rw [Decoder.decode_continuation (List.forall_mem_cons.2 ⟨hk, hb⟩), List.length_cons]
  rcases h.after hne with hi | ⟨_, hn, hd⟩
  · rw [hi]
    apply iff_of_false
    · intro heq
      have happ : decode (held ++ k :: bytes) = decode held ++ decode (k :: bytes) :=
        Decoder.decodeFrom_append _ _ _ hi
      rw [happ, Decoder.decode_continuation (List.forall_mem_cons.2 ⟨hk, hb⟩)] at heq
      have hlen := congrArg List.length heq
      rw [List.length_append, List.length_replicate, List.length_replicate,
        List.length_cons] at hlen
      have hnil : decode held = [] := List.eq_nil_of_length_eq_zero (by omega)
      exact Decoder.decodeFrom_ne_nil _ hne hnil
    · rintro (hr | hg)
      · exact absurd hr.1 (by decide)
      · exact absurd hg.1.1 (by decide)
  · rw [hd]
    exact Decoder.decodeFrom_eq_replicate hn hk hb

/-- The only bytes held back that one byte makes the replacement character of. -/
theorem Held.endsReplacement {missing : Nat} (h : Held held missing) (hne : held ≠ [])
    (k : UInt8) : (Decoder.initial.after held).EndsReplacement k ↔
      held ++ [k] = encode [replacement] := by
  have hencode : encode [replacement] = [0xef, 0xbf] ++ [0xbd] := by decide
  rw [hencode]
  constructor
  · intro hr
    rcases h with ⟨rfl, _⟩ | ⟨b, rest, rfl, _, hcont, _⟩
    · exact absurd rfl hne
    · obtain ⟨rfl, rfl, rfl⟩ := Decoder.endsReplacement_lead hcont hr
      rfl
  · intro he
    obtain ⟨rfl, hk⟩ := List.append_inj' he rfl
    cases hk
    exact ⟨rfl, ⟨by decide, by decide⟩, by decide⟩

/-- Bytes of a later write that decode after bytes held back as they do on their own: they end the
replacement character, or only the first of them goes on with the character begun. -/
def Harmless (held bytes : List UInt8) (terminated : Bool) : Prop :=
  held = [] ∨ bytes = [] ∨ ∃ k rest, bytes = k :: rest ∧
    (held ++ [k] = encode [replacement] ∨
      (Decoder.initial.after held).GoesOn k ∧
        (rest = [] ∧ terminated = false ∨ ∃ b y, rest = b :: y ∧ isContinuation b = false))

theorem span_continuation (bytes : List UInt8) : ∃ run more, bytes = run ++ more ∧
    (∀ k ∈ run, isContinuation k = true) ∧
    (more = [] ∨ ∃ b y, more = b :: y ∧ isContinuation b = false) := by
  induction bytes with
  | nil => exact ⟨[], [], rfl, fun k hk => absurd hk List.not_mem_nil, .inl rfl⟩
  | cons b bytes ih =>
    cases hb : isContinuation b with
    | false =>
      exact ⟨[], b :: bytes, rfl, fun k hk => absurd hk List.not_mem_nil, .inr ⟨b, bytes, rfl, hb⟩⟩
    | true =>
      obtain ⟨run, more, rfl, hr, hm⟩ := ih
      exact ⟨b :: run, more, rfl, List.forall_mem_cons.2 ⟨hb, hr⟩, hm⟩

theorem eq_of_replacement (h : held ++ [k] = encode [replacement]) :
    held = [0xef, 0xbf] ∧ k = 0xbd := by
  have hencode : encode [replacement] = [0xef, 0xbf] ++ [0xbd] := by decide
  rw [hencode] at h
  obtain ⟨hheld, hk⟩ := List.append_inj' h rfl
  exact ⟨hheld, (List.cons.inj hk).1⟩

/-- What is left of a harmless write: its first byte, and how it goes on after its continuation
bytes. -/
theorem harmless_iff {k : UInt8} {run more : List UInt8} (hne : held ≠ [])
    (hrun : ∀ k ∈ run, isContinuation k = true)
    (hmore : more = [] ∨ ∃ b y, more = b :: y ∧ isContinuation b = false) (terminated : Bool) :
    Harmless held (k :: (run ++ more)) terminated ↔
      held ++ [k] = encode [replacement] ∨
        ((Decoder.initial.after held).GoesOn k ∧ run = []) ∧ (more = [] → terminated = false) := by
  constructor
  · rintro (h | h | ⟨k', rest, h, he⟩)
    · exact absurd h hne
    · cases h
    · obtain ⟨rfl, rfl⟩ := List.cons.inj h
      rcases he with he | ⟨hg, hr⟩
      · exact .inl he
      · right
        rcases hr with ⟨hn, ht⟩ | ⟨b, y, hn, hb⟩
        · obtain ⟨rfl, rfl⟩ := List.append_eq_nil_iff.1 hn
          exact ⟨⟨hg, rfl⟩, fun _ => ht⟩
        · cases run with
          | nil =>
            refine ⟨⟨hg, rfl⟩, ?_⟩
            rintro rfl
            cases hn
          | cons a run =>
            obtain ⟨rfl, -⟩ := List.cons.inj hn
            rw [hrun a List.mem_cons_self] at hb
            cases hb
  · rintro (h | ⟨⟨hg, rfl⟩, ht⟩)
    · exact .inr (.inr ⟨k, _, rfl, .inl h⟩)
    · refine .inr (.inr ⟨k, _, rfl, .inr ⟨hg, ?_⟩⟩)
      rcases hmore with rfl | ⟨b, y, rfl, hb⟩
      · exact .inl ⟨rfl, ht rfl⟩
      · exact .inr ⟨b, y, rfl, hb⟩

theorem not_harmless_of_lead {held : List UInt8} (hne : held ≠ []) (hb : isContinuation b = false)
    (y : List UInt8) (terminated : Bool) : ¬Harmless held (b :: y) terminated := by
  rintro (h | h | ⟨k, rest, h, he⟩)
  · exact hne h
  · cases h
  · obtain ⟨rfl, rfl⟩ := List.cons.inj h
    rcases he with he | ⟨hg, _⟩
    · obtain ⟨_, rfl⟩ := eq_of_replacement he
      cases hb
    · rw [hg.continuation (Decoder.wellFormed_initial.after held)] at hb
      cases hb

theorem Held.decode_lead (held : List UInt8) (hb : isContinuation b = false) (y : List UInt8) :
    decode (held ++ b :: y) = decode held ++ decode (b :: y) :=
  Decoder.wellFormed_initial.decodeFrom_append_cons held hb y

/-- Bytes held back change what comes after them unless they are harmless. -/
theorem Held.decode_eq_iff {missing : Nat} (h : Held held missing) (hx : x ≠ []) :
    decode (held ++ x) = decode x ↔ Harmless held x false := by
  by_cases hne : held = []
  · subst hne
    exact iff_of_true rfl (.inl rfl)
  · obtain ⟨run, more, rfl, hrun, hmore⟩ := span_continuation x
    cases run with
    | nil =>
      rcases hmore with rfl | ⟨b, y, rfl, hb⟩
      · exact absurd rfl hx
      · apply iff_of_false
        · intro heq
          rw [List.nil_append, Held.decode_lead held hb] at heq
          exact Decoder.decodeFrom_ne_nil _ hne (List.append_left_eq_self.1 heq)
        · exact not_harmless_of_lead hne hb y false
    | cons k run =>
      rw [List.forall_mem_cons] at hrun
      rw [List.cons_append, harmless_iff hne hrun.2 hmore, ← h.endsReplacement hne]
      have hcut : decode (held ++ k :: (run ++ more)) = decode (k :: (run ++ more)) ↔
          decode (held ++ k :: run) = decode (k :: run) := by
        rcases hmore with rfl | ⟨b, y, rfl, hb⟩
        · rw [List.append_nil]
        · have h₁ := Held.decode_lead (held ++ k :: run) hb y
          have h₂ := Held.decode_lead (k :: run) hb y
          rw [List.append_assoc, List.cons_append] at h₁
          rw [List.cons_append] at h₂
          rw [h₁, h₂]
          exact List.append_left_inj _
      rw [hcut, h.decode_continuation hne hrun.1 hrun.2]
      constructor
      · rintro (hr | hg)
        · exact .inl hr
        · exact .inr ⟨hg, fun _ => rfl⟩
      · rintro (hr | hg)
        · exact .inl hr
        · exact .inr hg.1

theorem Held.write_new {missing : Nat} (h : Held held missing) :
    new.write held = ([], ⟨held, missing⟩) := by
  by_cases hne : held = []
  · subst hne
    rw [held_nil h]
    rfl
  · have hw : new.write ([] ++ held) = (decode [], ⟨held, missing⟩) :=
      write_split h fun hn => absurd hn hne
    exact hw

theorem write_settled (h : Settled bytes) : new.write bytes = (decode bytes, new) := by
  have hw := write_split (.inl ⟨rfl, rfl⟩ : Held [] 0) fun _ => h
  rw [List.append_nil] at hw
  exact hw

/-- Bytes that only go on with the character held back are its text once it has ended. -/
theorem Held.write_continuation {missing : Nat} (h : Held held missing) (hne : held ≠ [])
    {k : UInt8} {run : List UInt8} (hk : isContinuation k = true)
    (hrun : ∀ k ∈ run, isContinuation k = true) :
    (new.write (held ++ k :: run)).1 = decode (k :: run) ↔
      (Decoder.initial.after held).EndsReplacement k := by
  have hend := h.decode_continuation hne hk hrun
  have hafter := h.after hne
  obtain ⟨b, rest, rfl, hb, hr, hm, hl⟩ : ∃ b rest, held = b :: rest ∧ isContinuation b = false ∧
      (∀ k ∈ rest, isContinuation k = true) ∧ missing ≠ 0 ∧
      leadLength b = rest.length + 1 + missing := by
    rcases h with ⟨hn, _⟩ | h
    · exact absurd hn hne
    · exact h
  have hall : ∀ a ∈ rest ++ k :: run, isContinuation a = true := by
    intro a ha
    rcases List.mem_append.1 ha with ha | ha
    · exact hr a ha
    · rcases List.mem_cons.1 ha with rfl | ha
      · exact hk
      · exact hrun a ha
  have hlen : (rest ++ k :: run).length = rest.length + (run.length + 1) := by
    rw [List.length_append, List.length_cons]
  have hneeded : (Decoder.initial.after (b :: rest)).needed ≤ missing := by
    rcases hafter with hi | ⟨hn, _⟩
    · rw [hi]
      exact Nat.zero_le _
    · exact hn.le
  by_cases hlt : run.length + 1 < missing
  · have hheld : Held (b :: (rest ++ k :: run)) (missing - (run.length + 1)) :=
      .inr ⟨b, _, rfl, hb, hall, by omega, by omega⟩
    have hw : new.write ([] ++ b :: (rest ++ k :: run)) =
        (decode [], ⟨b :: (rest ++ k :: run), missing - (run.length + 1)⟩) :=
      write_split hheld fun hn => absurd hn (List.cons_ne_nil _ _)
    rw [List.nil_append] at hw
    rw [List.cons_append, hw]
    apply iff_of_false
    · intro heq
      exact Decoder.decodeFrom_ne_nil _ (List.cons_ne_nil k run) heq.symm
    · intro hends
      rcases hafter with hi | ⟨hn, _⟩
      · rw [hi] at hends
        exact absurd hends.1 (by decide)
      · have h₁ := hends.1
        omega
  · have hset : Settled ([] ++ b :: (rest ++ k :: run)) :=
      settled_of_last [] hb hall (by omega)
    rw [List.nil_append] at hset
    rw [List.cons_append] at hend ⊢
    rw [write_settled hset, hend]
    constructor
    · rintro (hends | ⟨hgoes, rfl⟩)
      · exact hends
      · have h₁ := hgoes.1
        rw [List.length_nil] at hlt
        omega
    · exact .inl

/-- Bytes held back change the text of a later write unless they are harmless. -/
theorem Held.write_eq_iff {missing : Nat} (h : Held held missing) (x : List UInt8) :
    (write ⟨held, missing⟩ x).1 = (new.write x).1 ↔ Harmless held x true := by
  by_cases hne : held = []
  · subst hne
    rw [held_nil h]
    exact iff_of_true rfl (.inl rfl)
  · have hheld := h.write_new
    have hwrite : (write ⟨held, missing⟩ x).1 = (new.write (held ++ x)).1 := by
      rw [write_append, hheld]
      rfl
    rw [hwrite]
    obtain ⟨run, more, rfl, hrun, hmore⟩ := span_continuation x
    cases run with
    | nil =>
      rcases hmore with rfl | ⟨b, y, rfl, hb⟩
      · rw [List.append_nil, List.append_nil, hheld]
        exact iff_of_true rfl (.inr (.inl rfl))
      · apply iff_of_false
        · intro heq
          rw [List.nil_append, write_join (.inr ⟨b, y, rfl, hb⟩)] at heq
          exact Decoder.decodeFrom_ne_nil _ hne (List.append_left_eq_self.1 heq)
        · exact not_harmless_of_lead hne hb y true
    | cons k run =>
      rw [List.forall_mem_cons] at hrun
      have hall : ∀ a ∈ k :: run, isContinuation a = true := List.forall_mem_cons.2 hrun
      rw [List.cons_append, harmless_iff hne hrun.2 hmore, ← h.endsReplacement hne]
      rcases hmore with rfl | ⟨b, y, rfl, hb⟩
      · rw [List.append_nil, write_settled (settled_of_continuation hall)]
        have hfalse : ((Decoder.initial.after held).EndsReplacement k ∨
            ((Decoder.initial.after held).GoesOn k ∧ run = []) ∧
              (([] : List UInt8) = [] → true = false)) ↔
            (Decoder.initial.after held).EndsReplacement k := by
          constructor
          · rintro (hr | ⟨_, ht⟩)
            · exact hr
            · cases ht rfl
          · exact .inl
        rw [hfalse]
        exact h.write_continuation hne hrun.1 hrun.2
      · have hend := h.decode_continuation hne hrun.1 hrun.2
        have h₁ := @write_join (held ++ k :: run) (b :: y) (.inr ⟨b, y, rfl, hb⟩)
        have h₂ := @write_join (k :: run) (b :: y) (.inr ⟨b, y, rfl, hb⟩)
        rw [List.append_assoc, List.cons_append] at h₁
        rw [List.cons_append] at h₂
        rw [h₁, h₂, List.append_left_inj, hend]
        constructor
        · rintro (hr | hg)
          · exact .inl hr
          · refine .inr ⟨hg, ?_⟩
            intro hn
            cases hn
        · rintro (hr | hg)
          · exact .inl hr
          · exact .inr hg.1

/-- A write and what its end still gives are the text of all its bytes. -/
theorem Held.write_flush {missing : Nat} (h : Held held missing) (x : List UInt8) :
    (write ⟨held, missing⟩ x).1 ++ (write ⟨held, missing⟩ x).2.flush = decode (held ++ x) := by
  have hw := write_append held x
  rw [h.write_new] at hw
  obtain ⟨done, more, m, hbytes, hh, hs, hwrite⟩ := write_cases (held ++ x)
  rw [hwrite, Prod.mk.injEq] at hw
  obtain ⟨h₁, h₂⟩ := hw
  rw [List.nil_append] at h₁
  rw [← h₁, ← h₂, hbytes, flush]
  rcases hh with ⟨rfl, _⟩ | ⟨b, rest, rfl, hb, _⟩
  · rw [List.append_nil]
    exact List.append_nil _
  · exact (Held.decode_lead done hb rest).symm

/-- A write long enough to end the character held back leaves what it would leave on its own. -/
theorem Held.write_state {missing : Nat} (h : Held held missing) (hx : x ≠ [])
    (hlen : missing ≤ x.length ∨ ∃ b ∈ x, isContinuation b = false) :
    (write ⟨held, missing⟩ x).2 = (new.write x).2 := by
  have hwrite : (write ⟨held, missing⟩ x).2 = (new.write (held ++ x)).2 := by
    rw [write_append, h.write_new]
  rw [hwrite]
  by_cases hne : held = []
  · rw [hne, List.nil_append]
  · obtain ⟨run, more, rfl, hrun, hmore⟩ := span_continuation x
    rcases hmore with rfl | ⟨b, y, rfl, hb⟩
    · rw [List.append_nil] at hx hlen ⊢
      have hmissing : missing ≤ run.length := by
        rcases hlen with hlen | ⟨b, hm, hb⟩
        · exact hlen
        · rw [hrun b hm] at hb
          cases hb
      rcases h with ⟨hn, _⟩ | ⟨b, rest, rfl, hb, hr, _, hl⟩
      · exact absurd hn hne
      · have hall : ∀ a ∈ rest ++ run, isContinuation a = true := by
          intro a ha
          rcases List.mem_append.1 ha with ha | ha
          · exact hr a ha
          · exact hrun a ha
        have hset : Settled ([] ++ b :: (rest ++ run)) := by
          apply settled_of_last [] hb hall
          rw [List.length_append]
          omega
        rw [List.nil_append] at hset
        rw [List.cons_append, write_settled hset, write_settled (settled_of_continuation hrun)]
    · have h₁ := @write_join (held ++ run) (b :: y) (.inr ⟨b, y, rfl, hb⟩)
      have h₂ := @write_join run (b :: y) (.inr ⟨b, y, rfl, hb⟩)
      rw [List.append_assoc] at h₁
      rw [h₁, h₂]

theorem Held.missing_of_replacement {missing : Nat} (h : Held held missing)
    (he : held ++ [k] = encode [replacement]) : missing = 1 := by
  obtain ⟨rfl, _⟩ := eq_of_replacement he
  rcases h with ⟨hn, _⟩ | ⟨b, rest, hbytes, _, _, _, hl⟩
  · cases hn
  · obtain ⟨rfl, rfl⟩ := List.cons.inj hbytes
    have hlead : leadLength 0xef = 3 := by decide
    rw [hlead, List.length_singleton] at hl
    omega

theorem Held.missing_le {missing : Nat} (h : Held held missing) : missing ≤ 3 := by
  rcases h with ⟨_, rfl⟩ | ⟨b, rest, _, _, _, _, hl⟩
  · exact Nat.zero_le _
  · have hle := leadLength_le b
    omega

end StringDecoder

end PromotionManagement.Library
