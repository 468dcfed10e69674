import Mathlib.Logic.Basic

namespace PromotionManagement.Library
set_option autoImplicit true

/-- The quote and the separator of a format of quoted columns. -/
structure Dialect (α : Type) where
  quote : α
  separator : α
  distinct : quote ≠ separator

/-- A field of a record: as it is, or between quotes. -/
inductive RecordField (α : Type) where
  | bare (text : List α)
  | quoted (text : List α)
deriving DecidableEq

theorem modifyHead_map_fst (c : α) (mark : β) (pieces : List (List (α × β))) :
    (pieces.map (List.map Prod.fst)).modifyHead (c :: ·) =
      (pieces.modifyHead ((c, mark) :: ·)).map (List.map Prod.fst) := by
  cases pieces with
  | nil => rfl
  | cons piece pieces => rfl

theorem splitOnP_map_fst [DecidableEq α] (c : α) (l : List (α × β)) :
    (l.map Prod.fst).splitOn c = (l.splitOnP fun p => p.1 = c).map (List.map Prod.fst) := by
  induction l with
  | nil => rfl
  | cons p l ih =>
    rw [List.map_cons, List.splitOn, List.splitOnP_cons_eq_if_modifyHead,
      List.splitOnP_cons_eq_if_modifyHead, ← List.splitOn, ih]
    by_cases hc : p.1 = c
    · simp only [hc, beq_self_eq_true, decide_true, if_true, List.map_cons, List.map_nil]
    · simp only [hc, beq_iff_eq, decide_false, Bool.false_eq_true, if_false]
      exact modifyHead_map_fst p.1 p.2 _

namespace Dialect

variable {α : Type} [DecidableEq α] (d : Dialect α)

/-- What stands between quotes for a text: every quote of it twice. -/
def escape : List α → List α
  | [] => []
  | c :: t => if c = d.quote then d.quote :: d.quote :: escape t else c :: escape t

/-- The columns of a line, quotes and all: a separator ends one unless an odd number of quotes
stands before it. -/
def columns (inside : Bool) : List α → List (List α)
  | [] => [[]]
  | c :: t =>
    if c = d.separator ∧ inside = false then [] :: columns false t
    else (columns (if c = d.quote then !inside else inside) t).modifyHead (c :: ·)

/-- A column without its quotes: two of them inside a quoted part are one, any other opens or ends
such a part. -/
def unquoted : Bool → List α → List α
  | _, [] => []
  | false, c :: t => if c = d.quote then unquoted true t else c :: unquoted false t
  | true, [c] => if c = d.quote then [] else [c]
  | true, c :: c' :: t =>
    if c = d.quote then
      if c' = d.quote then d.quote :: unquoted true t else unquoted false (c' :: t)
    else c :: unquoted true (c' :: t)

/-- The columns of the rest of a line, read from inside or outside of a quoted part. -/
def readColumns (inside : Bool) (line : List α) : List (List α) :=
  match d.columns inside line with
  | [] => []
  | column :: columns => d.unquoted inside column :: columns.map (d.unquoted false)

/-- Whether the end of a text is inside a quoted part. -/
def parity (inside : Bool) (text : List α) : Bool :=
  text.foldl (fun inside c => if c = d.quote then !inside else inside) inside

/-- A text that is one column by itself and leaves no quoted part open. -/
def IsColumn (t : List α) : Prop := d.columns false t = [t] ∧ d.parity false t = false

def fieldText : RecordField α → List α
  | .bare text => text
  | .quoted text => d.quote :: (d.escape text ++ [d.quote])

def recordText (fields : List (RecordField α)) : List α :=
  [d.separator].intercalate (fields.map d.fieldText)

/-- The text of a field, with what stands between its quotes marked. -/
def markedField : RecordField α → List (α × Bool)
  | .bare text => text.map (·, false)
  | .quoted text => (d.quote, false) :: ((d.escape text).map (·, true) ++ [(d.quote, true)])

def markedRecord (fields : List (RecordField α)) : List (α × Bool) :=
  [(d.separator, false)].intercalate (fields.map d.markedField)

/-- Characters marked with whether they stand inside a quoted part. -/
def Marked (inside : Bool) : List (α × Bool) → Prop
  | [] => True
  | (c, mark) :: l =>
    (c ≠ d.quote → mark = inside) ∧ Marked (if c = d.quote then !inside else inside) l

variable {d}

theorem columns_ne_nil (inside : Bool) (line : List α) : d.columns inside line ≠ [] := by
  induction line generalizing inside with
  | nil => exact List.cons_ne_nil _ _
  | cons c line ih =>
    rw [columns]
    split
    · exact List.cons_ne_nil _ _
    · rw [ne_eq, List.modifyHead_eq_nil_iff]
      exact ih _

theorem exists_columns (inside : Bool) (line : List α) :
    ∃ column columns, d.columns inside line = column :: columns :=
  List.exists_cons_of_ne_nil (columns_ne_nil inside line)

theorem unquoted_cons_of_ne (inside : Bool) (h : c ≠ d.quote) (t : List α) :
    d.unquoted inside (c :: t) = c :: d.unquoted inside t := by
  cases inside with
  | false => rw [unquoted, if_neg h]
  | true =>
    cases t with
    | nil => simp only [unquoted, if_neg h]
    | cons c' t => rw [unquoted, if_neg h]

theorem unquoted_open (t : List α) : d.unquoted false (d.quote :: t) = d.unquoted true t := by
  rw [unquoted, if_pos rfl]

theorem unquoted_double (t : List α) :
    d.unquoted true (d.quote :: d.quote :: t) = d.quote :: d.unquoted true t := by
  rw [unquoted, if_pos rfl, if_pos rfl]

theorem unquoted_close (h : t.head? ≠ some d.quote) :
    d.unquoted true (d.quote :: t) = d.unquoted false t := by
  cases t with
  | nil => simp only [unquoted, if_true]
  | cons c t =>
    have hc : c ≠ d.quote := fun hc => h (congrArg some hc)
    simp only [unquoted, if_true, if_neg hc]

/-- Text without quotes stays as it is. -/
theorem unquoted_append_of_not_mem (inside : Bool) (h : d.quote ∉ t) (u : List α) :
    d.unquoted inside (t ++ u) = t ++ d.unquoted inside u := by
  induction t with
  | nil => rfl
  | cons c t ih =>
    rw [List.mem_cons, not_or] at h
    rw [List.cons_append, unquoted_cons_of_ne inside (Ne.symm h.1), ih h.2]
    rfl

theorem unquoted_of_not_mem (inside : Bool) (h : d.quote ∉ t) : d.unquoted inside t = t := by
  have happend := unquoted_append_of_not_mem inside h []
  rw [List.append_nil] at happend
  rw [happend, unquoted, List.append_nil]

/-- An escaped text between quotes is read back, whatever comes after but another quote. -/
theorem unquoted_escape (t : List α) (h : u.head? ≠ some d.quote) :
    d.unquoted true (d.escape t ++ d.quote :: u) = t ++ d.unquoted false u := by
  induction t with
  | nil => exact unquoted_close h
  | cons c t ih =>
    rw [escape]
    split
    · rename_i hc
      rw [List.cons_append, List.cons_append, unquoted_double, ih, hc]
      rfl
    · rename_i hc
      rw [List.cons_append, unquoted_cons_of_ne true hc, ih]
      rfl

theorem unquoted_concat (inside : Bool) (h : c ≠ d.quote) (t : List α) :
    d.unquoted inside (t ++ [c]) = d.unquoted inside t ++ [c] := by
  induction inside, t using unquoted.induct d with
  | case1 inside =>
    rw [List.nil_append, unquoted_cons_of_ne inside h]
    cases inside <;> rfl
  | case2 t ih =>
    rw [List.cons_append, unquoted_open, unquoted_open, ih]
  | case3 c' t hc ih =>
    rw [List.cons_append, unquoted_cons_of_ne false hc, unquoted_cons_of_ne false hc, ih]
    rfl
  | case4 =>
    rw [List.cons_append, List.nil_append, unquoted_close, unquoted_close]
    · rw [unquoted_cons_of_ne false h]
      rfl
    · exact fun hn => nomatch hn
    · exact fun hn => h (Option.some.inj hn)
  | case5 c' hc =>
    rw [List.cons_append, unquoted_cons_of_ne true hc, unquoted_cons_of_ne true hc,
      List.nil_append, unquoted_cons_of_ne true h]
    rfl
  | case6 t ih =>
    rw [List.cons_append, List.cons_append, unquoted_double, unquoted_double, ih]
    rfl
  | case7 c' t hc ih =>
    rw [List.cons_append, unquoted_close, unquoted_close, ih]
    · exact fun hn => hc (Option.some.inj hn)
    · exact fun hn => hc (Option.some.inj hn)
  | case8 c' c'' t hc ih =>
    rw [List.cons_append, unquoted_cons_of_ne true hc, unquoted_cons_of_ne true hc, ih]
    rfl

@[simp] theorem parity_nil (inside : Bool) : d.parity inside [] = inside := rfl

@[simp] theorem parity_cons (inside : Bool) (c : α) (t : List α) : d.parity inside (c :: t) =
    d.parity (if c = d.quote then !inside else inside) t := rfl

theorem parity_append (inside : Bool) (t u : List α) :
    d.parity inside (t ++ u) = d.parity (d.parity inside t) u := List.foldl_append

theorem parity_of_not_mem (inside : Bool) (h : d.quote ∉ t) : d.parity inside t = inside := by
  induction t with
  | nil => rfl
  | cons c t ih =>
    rw [List.mem_cons, not_or] at h
    rw [parity_cons, if_neg (Ne.symm h.1), ih h.2]

theorem parity_escape (inside : Bool) (t : List α) : d.parity inside (d.escape t) = inside := by
  induction t with
  | nil => rfl
  | cons c t ih =>
    rw [escape]
    split
    · rw [parity_cons, parity_cons, if_pos rfl, if_pos rfl, Bool.not_not, ih]
    · rename_i hc
      rw [parity_cons, if_neg hc, ih]

/-- A text in which no separator ends a column goes on with the columns after it. -/
theorem columns_append (h : d.columns inside t = [t]) (u : List α) :
    d.columns inside (t ++ u) = (d.columns (d.parity inside t) u).modifyHead (t ++ ·) := by
  induction t generalizing inside with
  | nil =>
    obtain ⟨column, columns, hc⟩ := exists_columns (d := d) inside u
    rw [List.nil_append, parity_nil, hc]
    rfl
  | cons c t ih =>
    rw [columns] at h
    rw [List.cons_append, columns]
    split at h
    · cases h
    · rename_i hs
      obtain ⟨column, columns, hc⟩ :=
        exists_columns (d := d) (if c = d.quote then !inside else inside) t
      rw [hc, List.modifyHead_cons, List.cons.injEq, List.cons.injEq] at h
      obtain ⟨⟨_, rfl⟩, rfl⟩ := h
      rw [if_neg hs, ih hc, List.modifyHead_modifyHead, parity_cons]
      rfl

/-- Text without a separator is part of one column. -/
theorem columns_of_not_mem (inside : Bool) (h : d.separator ∉ t) :
    d.columns inside t = [t] := by
  induction t generalizing inside with
  | nil => rfl
  | cons c t ih =>
    rw [List.mem_cons, not_or] at h
    rw [columns, if_neg (fun hs => h.1 hs.1.symm), ih _ h.2]
    rfl

theorem columns_escape (t : List α) : d.columns true (d.escape t) = [d.escape t] := by
  induction t with
  | nil => rfl
  | cons c t ih =>
    rw [escape]
    split
    · rw [columns, if_neg (fun hs => Bool.noConfusion hs.2), if_pos rfl, columns,
        if_neg (fun hs => d.distinct hs.1), if_pos rfl]
      simp only [Bool.not_true, Bool.not_false, ih, List.modifyHead_cons]
    · rename_i hc
      rw [columns, if_neg (fun hs => Bool.noConfusion hs.2), if_neg hc, ih]
      rfl

theorem IsColumn.append (h : d.IsColumn t) (h' : d.IsColumn u) : d.IsColumn (t ++ u) := by
  constructor
  · rw [columns_append h.1, h.2, h'.1]
    rfl
  · rw [parity_append, h.2, h'.2]

theorem isColumn_bare (hq : d.quote ∉ t) (hs : d.separator ∉ t) : d.IsColumn t :=
  ⟨columns_of_not_mem false hs, parity_of_not_mem false hq⟩

theorem isColumn_quoted (t : List α) : d.IsColumn (d.quote :: (d.escape t ++ [d.quote])) := by
  constructor
  · rw [columns, if_neg (fun hs => d.distinct hs.1), if_pos rfl, Bool.not_false,
      columns_append (columns_escape t), parity_escape, columns,
      if_neg (fun hs => d.distinct hs.1), if_pos rfl]
    rfl
  · rw [parity_cons, if_pos rfl, Bool.not_false, parity_append, parity_escape, parity_cons,
      if_pos rfl]
    rfl

/-- The columns of columns joined by separators. -/
theorem columns_join (hne : pieces ≠ []) (h : ∀ piece ∈ pieces, d.IsColumn piece) :
    d.columns false ([d.separator].intercalate pieces) = pieces := by
  induction pieces with
  | nil => exact absurd rfl hne
  | cons piece pieces ih =>
    rw [List.forall_mem_cons] at h
    cases pieces with
    | nil =>
      rw [List.intercalate_singleton]
      exact h.1.1
    | cons piece' pieces =>
      rw [List.intercalate_cons_of_ne_nil (List.cons_ne_nil _ _), List.append_assoc,
        columns_append h.1.1, h.1.2, List.cons_append, columns, if_pos ⟨rfl, rfl⟩,
        List.nil_append, ih (List.cons_ne_nil _ _) h.2, List.modifyHead_cons, List.append_nil]

theorem readColumns_false (line : List α) :
    d.readColumns false line = (d.columns false line).map (d.unquoted false) := by
  obtain ⟨column, columns, h⟩ := exists_columns (d := d) false line
  rw [readColumns, h]
  rfl

theorem readColumns_separator (t : List α) :
    d.readColumns false (d.separator :: t) = [] :: d.readColumns false t := by
  rw [readColumns_false, columns, if_pos ⟨rfl, rfl⟩, readColumns_false, List.map_cons, unquoted]

theorem readColumns_cons_of_ne (inside : Bool) (hq : c ≠ d.quote)
    (hs : ¬(c = d.separator ∧ inside = false)) (t : List α) :
    d.readColumns inside (c :: t) = (d.readColumns inside t).modifyHead (c :: ·) := by
  obtain ⟨column, columns, h⟩ := exists_columns (d := d) inside t
  rw [readColumns, Dialect.columns, if_neg hs, if_neg hq, readColumns, h]
  exact congrArg (· :: columns.map (d.unquoted false)) (unquoted_cons_of_ne inside hq column)

theorem readColumns_open (t : List α) :
    d.readColumns false (d.quote :: t) = d.readColumns true t := by
  obtain ⟨column, columns, h⟩ := exists_columns (d := d) true t
  rw [readColumns, Dialect.columns, if_neg (fun hs => d.distinct hs.1), if_pos rfl, readColumns,
    Bool.not_false, h]
  exact congrArg (· :: columns.map (d.unquoted false)) (unquoted_open column)

theorem readColumns_double (t : List α) : d.readColumns true (d.quote :: d.quote :: t) =
    (d.readColumns true t).modifyHead (d.quote :: ·) := by
  obtain ⟨column, columns, h⟩ := exists_columns (d := d) true t
  rw [readColumns, Dialect.columns, if_neg (fun hs => d.distinct hs.1), if_pos rfl,
    Dialect.columns, if_neg (fun hs => d.distinct hs.1), if_pos rfl, readColumns, Bool.not_true,
    Bool.not_false, h]
  exact congrArg (· :: columns.map (d.unquoted false)) (unquoted_double column)

theorem readColumns_close (hhead : t.head? ≠ some d.quote) :
    d.readColumns true (d.quote :: t) = d.readColumns false t := by
  obtain ⟨column, columns, h⟩ := exists_columns (d := d) false t
  have hcolumn : column.head? ≠ some d.quote := by
    intro hc
    cases t with
    | nil =>
      cases h
      cases hc
    | cons c t =>
      rw [Dialect.columns] at h
      split at h
      · cases h
        cases hc
      · obtain ⟨column', columns', h'⟩ :=
          exists_columns (d := d) (if c = d.quote then !false else false) t
        rw [h'] at h
        cases h
        exact hhead hc
  rw [readColumns, Dialect.columns, if_neg (fun hs => d.distinct hs.1), if_pos rfl, readColumns,
    Bool.not_true, h]
  exact congrArg (· :: columns.map (d.unquoted false)) (unquoted_close hcolumn)

/-- A character at the end of a line, but a separator, is at the end of its last column. -/
theorem columns_concat (inside : Bool) (hs : c ≠ d.separator) (t : List α) :
    ∃ init last, d.columns inside t = init ++ [last] ∧
      d.columns inside (t ++ [c]) = init ++ [last ++ [c]] := by
  induction t generalizing inside with
  | nil =>
    refine ⟨[], [], rfl, ?_⟩
    rw [List.nil_append, columns, if_neg (fun h => hs h.1), columns]
    rfl
  | cons c' t ih =>
    rw [List.cons_append, columns, columns]
    split
    · obtain ⟨init, last, h, h'⟩ := ih false
      exact ⟨[] :: init, last, congrArg ([] :: ·) h, congrArg ([] :: ·) h'⟩
    · obtain ⟨init, last, h, h'⟩ := ih (if c' = d.quote then !inside else inside)
      rw [h, h']
      cases init with
      | nil => exact ⟨[], c' :: last, rfl, rfl⟩
      | cons column init => exact ⟨(c' :: column) :: init, last, rfl, rfl⟩

theorem marked_append {l m : List (α × Bool)} : d.Marked inside (l ++ m) ↔
    d.Marked inside l ∧ d.Marked (d.parity inside (l.map Prod.fst)) m := by
  induction l generalizing inside with
  | nil => exact ⟨fun h => ⟨trivial, h⟩, And.right⟩
  | cons p l ih =>
    rw [List.cons_append, Marked, Marked, ih, List.map_cons, parity_cons, and_assoc]

theorem marked_of_not_mem {t : List α} (h : d.quote ∉ t) :
    d.Marked inside (t.map (·, inside)) := by
  induction t with
  | nil => trivial
  | cons c t ih =>
    rw [List.mem_cons, not_or] at h
    rw [List.map_cons, Marked, if_neg (Ne.symm h.1)]
    exact ⟨fun _ => rfl, ih h.2⟩

theorem marked_escape (t : List α) : d.Marked inside ((d.escape t).map (·, inside)) := by
  induction t with
  | nil => trivial
  | cons c t ih =>
    rw [escape]
    split
    · rw [List.map_cons, List.map_cons, Marked, Marked, if_pos rfl, if_pos rfl, Bool.not_not]
      exact ⟨fun h => absurd rfl h, fun h => absurd rfl h, ih⟩
    · rename_i hc
      rw [List.map_cons, Marked, if_neg hc]
      exact ⟨fun _ => rfl, ih⟩

/-- Where the reader's parity is off by `shift`, it cuts at the separators with that mark. -/
theorem columns_of_marked (shift : Bool) (h : d.Marked inside l) :
    d.columns (inside ^^ shift) (l.map Prod.fst) =
      (l.splitOnP fun p => p.1 = d.separator && p.2 = shift).map (List.map Prod.fst) := by
  induction l generalizing inside with
  | nil => rfl
  | cons p l ih =>
    obtain ⟨c, mark⟩ := p
    rw [Marked] at h
    rw [List.map_cons, columns, List.splitOnP_cons_eq_if_modifyHead]
    by_cases hs : c = d.separator
    · have hq : c ≠ d.quote := fun hc => d.distinct (hc.symm.trans hs)
      obtain ⟨rfl, hrest⟩ := And.imp_left (fun hm => hm hq) h
      rw [if_neg hq] at hrest
      have ih' := ih hrest
      by_cases hm : mark = shift
      · subst hm
        rw [Bool.xor_self] at ih'
        rw [if_pos ⟨hs, Bool.xor_self _⟩, ih',
          if_pos (by simp only [hs, decide_true, Bool.and_self])]
        rfl
      · have hx : (mark ^^ shift) ≠ false := fun hx => hm (bne_eq_false_iff_eq.1 hx)
        rw [if_neg (fun hf => hx hf.2), if_neg hq, ih',
          if_neg (by simp only [hm, decide_false, Bool.and_false]; exact Bool.false_ne_true)]
        exact modifyHead_map_fst c _ _
    · have hnext : (if c = d.quote then !(inside ^^ shift) else (inside ^^ shift)) =
          ((if c = d.quote then !inside else inside) ^^ shift) := by
        split
        · exact (Bool.not_xor _ _).symm
        · rfl
      rw [if_neg (fun hf => hs hf.1), hnext, ih h.2,
        if_neg (by simp only [hs, decide_false, Bool.false_and]; exact Bool.false_ne_true)]
      exact modifyHead_map_fst c _ _

/-- Lines cut where only quoted parts can be: all of them but the first begin inside one. -/
theorem marked_lines (hne : newline ≠ d.quote) (h : d.Marked inside l)
    (hinside : ∀ p ∈ l, p.1 = newline → p.2 = true) :
    ∃ first rest, (l.splitOnP fun p => p.1 = newline) = first :: rest ∧ d.Marked inside first ∧
      ∀ line ∈ rest, d.Marked true line := by
  induction l generalizing inside with
  | nil => exact ⟨[], [], rfl, trivial, fun line hl => absurd hl List.not_mem_nil⟩
  | cons p l ih =>
    rw [List.forall_mem_cons] at hinside
    obtain ⟨first, rest, hsplit, hfirst, hrest⟩ := ih h.2 hinside.2
    rw [List.splitOnP_cons_eq_if_modifyHead, hsplit]
    by_cases hp : p.1 = newline
    · have hquote : p.1 ≠ d.quote := fun hq => hne (hp.symm.trans hq)
      have hm : p.2 = inside := h.1 hquote
      rw [if_neg hquote, ← hm, hinside.1 hp] at hfirst
      refine ⟨[], first :: rest, if_pos (decide_eq_true hp), trivial, ?_⟩
      rw [List.forall_mem_cons]
      exact ⟨hfirst, hrest⟩
    · exact ⟨p :: first, rest, if_neg (decide_eq_true_iff.not.2 hp), ⟨h.1, hfirst⟩, hrest⟩

theorem recordText_cons (field field' : RecordField α) (fields : List (RecordField α)) :
    d.recordText (field :: field' :: fields) =
      d.fieldText field ++ d.separator :: d.recordText (field' :: fields) := by
  rw [recordText, List.map_cons, List.map_cons, List.intercalate_cons_cons, List.append_assoc]
  rfl

theorem markedRecord_cons (field field' : RecordField α) (fields : List (RecordField α)) :
    d.markedRecord (field :: field' :: fields) =
      d.markedField field ++ (d.separator, false) :: d.markedRecord (field' :: fields) := by
  rw [markedRecord, List.map_cons, List.map_cons, List.intercalate_cons_cons, List.append_assoc]
  rfl

theorem recordText_singleton (field : RecordField α) :
    d.recordText [field] = d.fieldText field := List.intercalate_singleton

theorem markedRecord_singleton (field : RecordField α) :
    d.markedRecord [field] = d.markedField field := List.intercalate_singleton

theorem markedField_fst (field : RecordField α) :
    (d.markedField field).map Prod.fst = d.fieldText field := by
  cases field with
  | bare text =>
    rw [markedField, List.map_map]
    exact List.map_id _
  | quoted text =>
    rw [markedField, List.map_cons, List.map_append, List.map_map, fieldText]
    exact congrArg (fun t => d.quote :: (t ++ [d.quote])) (List.map_id _)

theorem markedRecord_fst (fields : List (RecordField α)) :
    (d.markedRecord fields).map Prod.fst = d.recordText fields := by
  induction fields with
  | nil => rfl
  | cons field fields ih =>
    cases fields with
    | nil =>
      rw [markedRecord_singleton, recordText_singleton, markedField_fst]
    | cons field' fields =>
      rw [markedRecord_cons, recordText_cons, List.map_append, List.map_cons, markedField_fst, ih]

/-- A field as a format has it: no quote in a bare one. -/
theorem marked_field {field : RecordField α} (h : ∀ t, field = .bare t → d.quote ∉ t) :
    d.Marked false (d.markedField field) ∧ d.parity false (d.fieldText field) = false := by
  cases field with
  | bare text =>
    exact ⟨marked_of_not_mem (h text rfl), parity_of_not_mem false (h text rfl)⟩
  | quoted text =>
    constructor
    · rw [markedField, Marked, if_pos rfl, Bool.not_false, marked_append]
      exact ⟨fun hn => absurd rfl hn, marked_escape text, fun hn => absurd rfl hn, trivial⟩
    · exact (isColumn_quoted text).2

theorem marked_record {fields : List (RecordField α)}
    (h : ∀ field ∈ fields, ∀ t, field = .bare t → d.quote ∉ t) :
    d.Marked false (d.markedRecord fields) ∧ d.parity false (d.recordText fields) = false := by
  induction fields with
  | nil => exact ⟨trivial, rfl⟩
  | cons field fields ih =>
    rw [List.forall_mem_cons] at h
    obtain ⟨hmarked, hparity⟩ := marked_field h.1
    cases fields with
    | nil =>
      rw [markedRecord_singleton, recordText_singleton]
      exact ⟨hmarked, hparity⟩
    | cons field' fields =>
      obtain ⟨hrest, hend⟩ := ih h.2
      rw [markedRecord_cons, recordText_cons, marked_append, markedField_fst, hparity,
        parity_append, hparity, parity_cons, Marked, if_neg (Ne.symm d.distinct)]
      exact ⟨⟨hmarked, fun _ => rfl, hrest⟩, hend⟩

/-- A character that is in no bare field stands inside quotes wherever it stands. -/
theorem inside_of_mem {fields : List (RecordField α)} (hq : c ≠ d.quote) (hs : c ≠ d.separator)
    (h : ∀ field ∈ fields, ∀ t, field = .bare t → c ∉ t) :
    ∀ p ∈ d.markedRecord fields, p.1 = c → p.2 = true := by
  have hfield : ∀ field ∈ fields, ∀ p ∈ d.markedField field, p.1 = c → p.2 = true := by
    intro field hf p hp hc
    cases field with
    | bare text =>
      obtain ⟨c', hc', rfl⟩ := List.mem_map.1 hp
      exact absurd (hc ▸ hc') (h _ hf text rfl)
    | quoted text =>
      rw [markedField, List.mem_cons, List.mem_append, List.mem_map, List.mem_singleton] at hp
      rcases hp with rfl | ⟨_, _, rfl⟩ | rfl
      · exact absurd hc.symm hq
      · rfl
      · rfl
  induction fields with
  | nil => exact fun p hp => absurd hp List.not_mem_nil
  | cons field fields ih =>
    rw [List.forall_mem_cons] at h hfield
    cases fields with
    | nil =>
      rw [markedRecord_singleton]
      exact hfield.1
    | cons field' fields =>
      rw [markedRecord_cons]
      intro p hp hc
      rw [List.mem_append, List.mem_cons] at hp
      rcases hp with hp | rfl | hp
      · exact hfield.1 p hp hc
      · exact absurd hc.symm hs
      · exact ih h.2 hfield.2 p hp hc

end Dialect

end PromotionManagement.Library
