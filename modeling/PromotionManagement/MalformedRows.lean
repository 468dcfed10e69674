import PromotionManagement.RangeRows
import PromotionManagement.Library.HeldBytes

namespace PromotionManagement
open Library StringDecoder
set_option autoImplicit true

/-- The text of a row read on its own. -/
def ByteRow.ownText (r : ByteRow) : Text := rowText .new r

def ByteRow.short (r : ByteRow) : Prop := r.ownText.length16 ≤ maxRowChars

instance (r : ByteRow) : Decidable r.short := by
  rw [ByteRow.short]
  exact inferInstance

/-- No row within the bound is changed by the incomplete sequence at the end of the last row
before it that is not empty; `d` is a decoder that has read that row alone. -/
def Unspoiled (d : StringDecoder) : List ByteRow → Prop
  | [] => True
  | r :: rows =>
    (r.short → Harmless d.buffered r.bytes r.terminated) ∧
      Unspoiled (if r.bytes = [] then d else (StringDecoder.new.write r.bytes).2) rows

/-- Each row within the bound is read as its own text, and reading again after any row gives what
is left. -/
structure CostsOnlyItself (file : List UInt8) (from_ to_ windowBytes : Nat) : Prop where
  own : ∀ (i : Nat) r, (byteRows file from_ to_)[i]? = some r → r.short →
    (readRangeLines file from_ to_ windowBytes)[i]? = some ⟨r.ownText, r.endOffset⟩
  resumed : ∀ before l after, readRangeLines file from_ to_ windowBytes = before ++ l :: after →
    ∀ again, 1 ≤ again →
      after.map RangeLine.endOffset =
          (readRangeLines file l.endOffset to_ again).map RangeLine.endOffset ∧
        ∀ (i : Nat) r, (byteRows file l.endOffset to_)[i]? = some r → r.short →
          after[i]? = (readRangeLines file l.endOffset to_ again)[i]?

/-- Only the last row may lack its line feed, and then it is not empty. -/
def WellEnded : List ByteRow → Prop
  | [] => True
  | r :: rows => (r.terminated = false → r.bytes ≠ [] ∧ rows = []) ∧ WellEnded rows

theorem byteRowsFrom_wellEnded (s : Nat) (row bytes : List UInt8) :
    WellEnded (byteRowsFrom s row bytes) := by
  induction bytes generalizing s row with
  | nil =>
    rw [byteRowsFrom]
    split
    · exact trivial
    · rename_i hrow
      exact ⟨fun _ => ⟨hrow, rfl⟩, trivial⟩
  | cons b bytes ih =>
    rw [byteRowsFrom]
    split
    · exact ⟨fun h => Bool.noConfusion h, ih _ _⟩
    · exact ih _ _

theorem length16_le (t : Text) : t.length16 ≤ 2 * t.length := by
  induction t with
  | nil => exact Nat.le_refl _
  | cons c t ih =>
    have hc : (if c.val < 0x10000 then 1 else 2) ≤ 2 := by
      split
      · decide
      · decide
    rw [Text.length16, List.map_cons, List.sum_cons, List.length_cons]
    rw [Text.length16] at ih
    omega

/-- A row beyond the bound is no part of one character. -/
theorem ByteRow.long (h : ¬ByteRow.short r) (ht : r.terminated = true) :
    3 ≤ r.bytes.length ∨ ∃ b ∈ r.bytes, Utf8.isContinuation b = false := by
  by_cases hall : ∀ k ∈ r.bytes, Utf8.isContinuation k = true
  · left
    have htext : r.ownText = List.replicate r.bytes.length Utf8.replacement := by
      rw [ownText, rowText, keptText, ht, write_settled (settled_of_continuation hall),
        Utf8.Decoder.decode_continuation hall]
      exact List.append_nil _
    have hle := length16_le r.ownText
    rw [htext, List.length_replicate] at hle
    rw [short, htext, maxRowChars] at h
    omega
  · right
    by_contra hn
    apply hall
    intro k hk
    cases hc : Utf8.isContinuation k with
    | true => rfl
    | false => exact absurd ⟨k, hk, hc⟩ hn

/-- A row's text is its own exactly when what is held back before it is harmless. -/
theorem rowText_eq_ownText (hd : d.Reached) (hr : r.terminated = false → r.bytes ≠ []) :
    rowText d r = r.ownText ↔ Harmless d.buffered r.bytes r.terminated := by
  obtain ⟨bytes, s, terminated⟩ := r
  obtain ⟨held, missing⟩ := d
  have hheld := hd.held
  cases terminated with
  | true =>
    have htext (d : StringDecoder) : rowText d ⟨bytes, s, true⟩ = (d.write bytes).1 :=
      List.append_nil _
    rw [ByteRow.ownText, htext, htext]
    exact hheld.write_eq_iff bytes
  | false =>
    have hnew : Held StringDecoder.new.buffered StringDecoder.new.missing := reached_new.held
    have h₁ : rowText ⟨held, missing⟩ ⟨bytes, s, false⟩ = Utf8.decode (held ++ bytes) :=
      hheld.write_flush bytes
    have h₂ : ByteRow.ownText ⟨bytes, s, false⟩ = Utf8.decode bytes := hnew.write_flush bytes
    rw [h₁, h₂]
    exact hheld.decode_eq_iff (hr rfl)

/-- What a row leaves held back is what it would leave on its own. -/
theorem write_state_of_harmless {r : ByteRow} (hd : d.Reached) (ht : r.terminated = true)
    (h : r.short → Harmless d.buffered r.bytes r.terminated) :
    (d.write r.bytes).2 =
      if r.bytes = [] then d else (StringDecoder.new.write r.bytes).2 := by
  split
  · rename_i hnil
    rw [hnil, hd.write_nil]
  · rename_i hne
    have hm := hd.held.missing_le
    apply hd.held.write_state hne
    by_cases hs : r.short
    · rcases h hs with hn | hn | ⟨k, rest, hbytes, he⟩
      · left
        have hheld := hd.held
        rw [hn] at hheld
        rw [held_nil hheld]
        exact Nat.zero_le _
      · exact absurd hn hne
      · rcases he with he | ⟨_, ⟨_, hterm⟩ | ⟨b, y, hrest, hb⟩⟩
        · left
          have hone := hd.held.missing_of_replacement he
          rw [hone, hbytes, List.length_cons]
          omega
        · rw [ht] at hterm
          cases hterm
        · right
          refine ⟨b, ?_, hb⟩
          rw [hbytes, hrest]
          exact List.mem_cons_of_mem _ List.mem_cons_self
    · rcases ByteRow.long hs ht with hl | hl
      · exact .inl (hm.trans hl)
      · exact .inr hl

/-- Rows that nothing spoils are read as their own text. -/
theorem Unspoiled.own (h : Unspoiled d rows) (hd : d.Reached) (hw : WellEnded rows)
    (hy : List.Forall₂ (Yields cutAt) (carried d rows) lines) :
    List.Forall₂ (fun r l => l.endOffset = r.endOffset ∧
      (r.short → l = ⟨r.ownText, r.endOffset⟩)) rows lines := by
  induction rows generalizing d lines with
  | nil =>
    cases hy
    exact .nil
  | cons r rows ih =>
    rw [carried] at hy
    cases hy with
    | cons hl hlines =>
      apply List.Forall₂.cons
      · refine ⟨hl.1, ?_⟩
        intro hs
        have htext := (rowText_eq_ownText hd fun ht => (hw.1 ht).1).2 (h.1 hs)
        have hline := hl.whole hd (by rw [htext]; exact hs)
        rw [hline, htext]
      · cases ht : r.terminated with
        | true =>
          have hstate := write_state_of_harmless hd ht h.1
          exact ih (hstate ▸ h.2) (hd.write _) hw.2 hlines
        | false =>
          rw [(hw.1 ht).2] at hlines ⊢
          cases hlines
          exact .nil

/-- Nothing is spoiled when every row within the bound has its own text. -/
theorem unspoiled_of_own (hd : d.Reached) (hw : WellEnded rows)
    (h : ∀ p ∈ carried d rows, p.2.short → rowText p.1 p.2 = p.2.ownText) : Unspoiled d rows := by
  induction rows generalizing d with
  | nil => exact trivial
  | cons r rows ih =>
    rw [carried, List.forall_mem_cons] at h
    have hhead : r.short → Harmless d.buffered r.bytes r.terminated :=
      fun hs => (rowText_eq_ownText hd fun ht => (hw.1 ht).1).1 (h.1 hs)
    refine ⟨hhead, ?_⟩
    cases ht : r.terminated with
    | true =>
      rw [← write_state_of_harmless hd ht hhead]
      exact ih (hd.write _) hw.2 h.2
    | false =>
      rw [(hw.1 ht).2]
      exact trivial

theorem Unspoiled.new (h : Unspoiled d rows) : Unspoiled .new rows := by
  induction rows generalizing d with
  | nil => exact trivial
  | cons r rows ih =>
    refine ⟨fun _ => .inl rfl, ?_⟩
    have htail := h.2
    split at htail
    · rename_i hnil
      rw [if_pos hnil]
      exact ih htail
    · rename_i hne
      rw [if_neg hne]
      exact htail

theorem Unspoiled.drop (h : Unspoiled d (before ++ rows)) : Unspoiled .new rows := by
  induction before generalizing d with
  | nil => exact h.new
  | cons r before ih => exact ih h.2

/-- What is read of a row within the bound, and where every row ends. -/
def ReadsOwn (r : ByteRow) (l : RangeLine) : Prop :=
  l.endOffset = r.endOffset ∧ (r.short → l = ⟨r.ownText, r.endOffset⟩)


theorem readsOwn_endOffset (h : List.Forall₂ ReadsOwn rows lines) :
    lines.map RangeLine.endOffset = rows.map ByteRow.endOffset := by
  induction h with
  | nil => rfl
  | cons hl _ ih => exact List.cons_eq_cons.2 ⟨hl.1, ih⟩

theorem forall₂_split {R : α → β → Prop} (h : List.Forall₂ R xs (before ++ y :: after)) :
    ∃ left x right, xs = left ++ x :: right ∧ R x y ∧ List.Forall₂ R right after := by
  induction before generalizing xs with
  | nil =>
    cases h with
    | cons hy hafter => exact ⟨[], _, _, rfl, hy, hafter⟩
  | cons z before ih =>
    cases h with
    | cons _ hrest =>
      obtain ⟨left, x, right, rfl, hx, hr⟩ := ih hrest
      exact ⟨_ :: left, x, right, rfl, hx, hr⟩

theorem carried_get {i : Nat} (h : (carried d rows)[i]? = some p) : rows[i]? = some p.2 := by
  induction rows generalizing d i with
  | nil => cases h
  | cons r rows ih =>
    cases i with
    | zero =>
      cases h
      rfl
    | succ i => exact ih h

theorem readsOwn_get {i : Nat} (h : List.Forall₂ ReadsOwn rows lines) (hr : rows[i]? = some r)
    (hs : r.short) : lines[i]? = some ⟨r.ownText, r.endOffset⟩ := by
  obtain ⟨l, hl, hreads⟩ := forall₂_get h hr
  rw [hl, hreads.2 hs]

/-- Rows of a range that nothing spoils are read as their own text. -/
theorem Unspoiled.readsOwn (h : Unspoiled .new (byteRows file from_ to_))
    (hto : to_ ≤ file.length) (hw : 1 ≤ windowBytes) :
    List.Forall₂ ReadsOwn (byteRows file from_ to_)
      (readRangeLines file from_ to_ windowBytes) := by
  by_cases hlt : from_ < to_
  · exact h.own reached_new (byteRowsFrom_wellEnded _ _ _) (readRangeLines_yields hlt hto hw)
  · have hempty := Nat.le_of_not_lt hlt
    rw [byteRows_empty hempty hto, readRangeLines_empty hempty]
    exact .nil

/-- In one window, every row is read whole. -/
theorem readRangeLines_whole (h : from_ < to_) (hto : to_ ≤ file.length) :
    List.Forall₂ (fun p l => l = ⟨rowText p.1 p.2, p.2.endOffset⟩)
      (carried .new (byteRows file from_ to_)) (readRangeLines file from_ to_ (to_ - from_)) := by
  have hy : List.Forall₂ (Yields (windowEnd from_ to_ (to_ - from_))) _ _ :=
    readRangeLines_yields h hto (Nat.sub_pos_of_lt h)
  have hmem : ∀ p ∈ carried .new (byteRows file from_ to_), p.1.Reached ∧
      from_ ≤ p.2.startOffset ∧ p.2.startOffset + p.2.bytes.length ≤ to_ := by
    intro p hp
    obtain ⟨hd, hr⟩ := carried_mem reached_new hp
    obtain ⟨h₁, h₂⟩ := byteRowsFrom_bounds hr
    rw [length_byteRange hto, List.length_nil] at h₂
    exact ⟨hd, h₁, by omega⟩
  have hboth := (List.forall₂_and_left _ _).2 ⟨hmem, hy⟩
  apply List.Forall₂.imp _ hboth
  rintro ⟨d, r⟩ ⟨line, endOffset⟩ ⟨⟨hd, h₁, h₂⟩, he, q, hq, hl⟩
  dsimp only at hd h₁ h₂ he hq hl
  have hwhole : q = r.bytes := by
    rcases hq.cut with hq' | ⟨hm, hc⟩
    · exact hq'
    · have hle := hq.isPrefix.length_le
      by_contra hne
      have hlt : q.length < r.bytes.length :=
        Nat.lt_of_le_of_ne hle fun hlen => hne (hq.isPrefix.eq_of_length hlen)
      have hzero : q.length = 0 := by
        rcases hc with hc | hc
        · rw [Nat.mod_eq_of_lt (by omega)] at hc
          omega
        · omega
      rw [List.eq_nil_of_length_eq_zero hzero, hd.write_nil] at hm
      have h₀ : ¬maxRowChars ≤ Text.length16 [] := by decide
      exact h₀ hm
  rw [he, hl, hwhole, rowText]

/-- A malformed row costs only itself exactly when no incomplete sequence is carried into a row
it changes. -/
theorem costsOnlyItself_iff (h : from_ < to_) (hto : to_ ≤ file.length) :
    (∀ windowBytes, 1 ≤ windowBytes → CostsOnlyItself file from_ to_ windowBytes) ↔
      Unspoiled .new (byteRows file from_ to_) := by
  constructor
  · intro hcosts
    have hcost := hcosts (to_ - from_) (Nat.sub_pos_of_lt h)
    apply unspoiled_of_own reached_new (byteRowsFrom_wellEnded _ _ _)
    intro p hp hs
    obtain ⟨i, hi⟩ := List.mem_iff_getElem?.1 hp
    have hline := forall₂_get (readRangeLines_whole h hto) hi
    obtain ⟨l, hl, rfl⟩ := hline
    have hown := hcost.own i p.2 (carried_get hi) hs
    rw [hl, Option.some.injEq, RangeLine.mk.injEq] at hown
    exact hown.1
  · intro hu windowBytes hw
    have hreads := hu.readsOwn hto hw
    refine ⟨fun i r hr hs => readsOwn_get hreads hr hs, ?_⟩
    intro before l after hlines again hagain
    rw [hlines] at hreads
    obtain ⟨left, r, right, hrows, hl, hafter⟩ := forall₂_split hreads
    obtain ⟨_, hle, hrest⟩ := byteRows_split hto h.le hrows
    rw [← hl.1] at hle hrest
    have hright : Unspoiled .new (byteRows file l.endOffset to_) := by
      rw [hrest]
      rw [hrows, List.append_cons] at hu
      exact hu.drop
    have hreads' := hright.readsOwn hto hagain
    rw [hrest] at hreads'
    constructor
    · rw [readsOwn_endOffset hafter, readsOwn_endOffset hreads']
    · intro i r' hr' hs
      rw [hrest] at hr'
      rw [readsOwn_get hafter hr' hs, readsOwn_get hreads' hr' hs]

/-- A byte that begins no character costs only its row, but the first byte of a character does
not. -/
theorem costsOnlyItself_iff_malformed :
    (∀ windowBytes, 1 ≤ windowBytes →
      CostsOnlyItself [0xff, newline, 0x41, newline] 0 4 windowBytes) ∧
    ¬∀ windowBytes, 1 ≤ windowBytes →
      CostsOnlyItself [0xc3, newline, 0x41, newline] 0 4 windowBytes := by
  have hrows : byteRows [0xff, newline, 0x41, newline] 0 4 =
      [⟨[0xff], 0, true⟩, ⟨[0x41], 2, true⟩] := rfl
  have hspoiling : byteRows [0xc3, newline, 0x41, newline] 0 4 =
      [⟨[0xc3], 0, true⟩, ⟨[0x41], 2, true⟩] := rfl
  constructor
  · apply (costsOnlyItself_iff (by decide) (by decide)).2
    rw [hrows]
    exact ⟨fun _ => .inl rfl, fun _ => .inl (by decide), trivial⟩
  · intro hcosts
    have hunspoiled := (costsOnlyItself_iff (by decide) (by decide)).1 hcosts
    rw [hspoiling] at hunspoiled
    exact not_harmless_of_lead (by decide) (by decide) [] true (hunspoiled.2.1 (by decide))

/-- A lone first byte of a two-byte character before a line feed is read into the next row. -/
theorem not_costsOnlyItself_lead :
    ¬∀ windowBytes, 1 ≤ windowBytes →
      CostsOnlyItself [0xc3, newline, 0x41, newline] 0 4 windowBytes := by
  intro h
  have hown := (h 65536 (by decide)).own 1 ⟨[0x41], 2, true⟩ rfl (by decide +kernel)
  revert hown
  decide +kernel

end PromotionManagement
