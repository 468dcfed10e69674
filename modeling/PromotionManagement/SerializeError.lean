import PromotionManagement.Text
import PromotionManagement.BasePriceCalculator

namespace PromotionManagement
set_option autoImplicit true

/-- A JavaScript string, by its UTF-16 code units: a value may hold a lone surrogate. -/
abbrev JsString := List UInt16

/-- The code units of a text below U+10000. -/
def units (s : String) : JsString := s.toList.map fun c => c.toNat.toUInt16

def newline16 : UInt16 := 10

/-- A piece of a stack: the message of an error, over as many lines as it has, or a call frame. -/
inductive StackPiece
  | message (text : JsString)
  | frame (line : JsString)

def StackPiece.text : StackPiece → JsString
  | .message text => text
  | .frame line => line

def StackPiece.blank : StackPiece → StackPiece
  | .message _ => .message []
  | .frame line => .frame line

/-- What a driver's error says, its `code` and `constraint` where they are strings. -/
structure QueryCause where
  code : Option JsString
  constraint : Option JsString
  message : JsString
  detail : JsString

/-- A `DrizzleQueryError`, with the type that pino reports of it. Its stack begins with its
message, and each `caused by:` section with that of a cause. -/
structure DrizzleQueryError where
  type : JsString
  message : JsString
  query : JsString
  params : List JsString
  stack : Option (List StackPiece)
  cause : Option QueryCause

inductive LogValue
  | text (s : JsString)
  | json (value : Json)

/-- A log line's fields, in order. -/
abbrev LogLine := List (String × LogValue)

/-- What was thrown. An error that is no `DrizzleQueryError` comes with what pino makes of it, none
where it resists inspection, and with the `code` of each error of its cause chain. -/
inductive Thrown
  | value (typeOf text : JsString)
  | error (serialized : Option LogLine) (codes : List (Option JsString))
  | query (error : DrizzleQueryError)

/-- `/^\s+at /`, where `\s` matches what `trim` removes. -/
def isSpace16 (unit : UInt16) : Bool := isTrimmed (Char.ofNat unit.toNat)

def isFrame (line : JsString) : Bool :=
  !(line.takeWhile isSpace16).isEmpty && (units "at ").isPrefixOf (line.dropWhile isSpace16)

/-- The text of a stack: its pieces, on lines of their own. -/
def stackText (pieces : List StackPiece) : JsString :=
  [newline16].intercalate (pieces.map StackPiece.text)

def framesOf (stack : Option JsString) : Option JsString :=
  let frames := [newline16].intercalate
    (((stack.getD []).splitOn newline16).filter isFrame)
  if frames = [] then none else some frames

def firstCode (codes : List (Option JsString)) : Option JsString := (codes.take 5).findSome? id

def DrizzleQueryError.scrubbed (error : DrizzleQueryError) : LogLine :=
  [("type", .text error.type), ("message", .text (units "database error"))] ++
    ((framesOf (error.stack.map stackText)).map fun s => ("stack", LogValue.text s)).toList ++
    ((error.cause.bind QueryCause.code).map fun s => ("code", LogValue.text s)).toList ++
    ((error.cause.bind QueryCause.constraint).map fun s => ("constraint", LogValue.text s)).toList

def serializeError : Thrown → LogLine
  | .value typeOf text => [("type", .text typeOf), ("message", .text text)]
  | .error none _ =>
    [("type", .text (units "UnserializableError")),
      ("message", .text (units "error could not be serialized"))]
  | .error (some line) codes =>
    if line.any fun field => field.1 == "code" then line
    else line ++ ((firstCode codes).map fun s => ("code", LogValue.text s)).toList
  | .query error => error.scrubbed

theorem StackPiece.blank_blank (piece : StackPiece) : piece.blank.blank = piece.blank := by
  cases piece with
  | message => rfl
  | frame => rfl

namespace DrizzleQueryError

/-- Errors that differ only in what they quote: the statement, the values and the messages. -/
structure Alike (error other : DrizzleQueryError) : Prop where
  type : error.type = other.type
  frames : error.stack.map (List.map StackPiece.blank) =
    other.stack.map (List.map StackPiece.blank)
  code : error.cause.bind QueryCause.code = other.cause.bind QueryCause.code
  constraint : error.cause.bind QueryCause.constraint = other.cause.bind QueryCause.constraint

/-- No line of a message in the stack has the look of a call frame. -/
def Quiet (error : DrizzleQueryError) : Prop :=
  ∀ pieces ∈ error.stack, ∀ text, .message text ∈ pieces →
    ∀ line ∈ text.splitOn newline16, isFrame line = false

/-- An error that says nothing. -/
def blanked (error : DrizzleQueryError) : DrizzleQueryError where
  type := error.type
  message := []
  query := []
  params := []
  stack := error.stack.map (List.map StackPiece.blank)
  cause := error.cause.map fun cause => ⟨cause.code, cause.constraint, [], []⟩

theorem alike_blanked (error : DrizzleQueryError) : Alike error error.blanked where
  type := rfl
  frames := by
    rw [blanked, Option.map_map, List.map_comp_map]
    congr 2
    funext piece
    exact piece.blank_blank.symm
  code := by
    rw [blanked]
    cases error.cause with
    | none => rfl
    | some cause => rfl
  constraint := by
    rw [blanked]
    cases error.cause with
    | none => rfl
    | some cause => rfl

theorem quiet_blanked (error : DrizzleQueryError) : Quiet error.blanked := by
  intro pieces hpieces text ht line hl
  obtain ⟨old, _, rfl⟩ := Option.map_eq_some_iff.1 hpieces
  obtain ⟨piece, _, he⟩ := List.mem_map.1 ht
  cases piece with
  | message =>
    cases he
    obtain rfl := List.mem_singleton.1 hl
    decide
  | frame => cases he

/-- The lines of pieces that are joined by line feeds are the lines of the pieces. -/
theorem splitOn_intercalate_flatMap (pieces : List JsString) (h : pieces ≠ []) :
    ([newline16].intercalate pieces).splitOn newline16 =
      pieces.flatMap fun piece => piece.splitOn newline16 := by
  induction pieces with
  | nil => exact absurd rfl h
  | cons piece pieces ih =>
    cases pieces with
    | nil => rw [List.intercalate_singleton, List.flatMap_singleton]
    | cons next pieces =>
      rw [List.intercalate_cons_cons, List.append_assoc, List.singleton_append,
        List.splitOn_append_cons_self, ih (List.cons_ne_nil next pieces), ← List.flatMap_cons]

/-- The lines of a piece that pass for call frames. -/
def passing (piece : StackPiece) : List JsString :=
  (piece.text.splitOn newline16).filter isFrame

theorem filter_stackText (pieces : List StackPiece) :
    ((stackText pieces).splitOn newline16).filter isFrame = pieces.flatMap passing := by
  by_cases h : pieces = []
  · subst h
    rfl
  · rw [stackText, splitOn_intercalate_flatMap _ (by simpa using h), List.filter_flatMap,
      List.flatMap_map]
    rfl

theorem passing_blank (piece : StackPiece) (h : ∀ text, piece = .message text →
    ∀ line ∈ text.splitOn newline16, isFrame line = false) :
    passing piece.blank = passing piece := by
  cases piece with
  | message text =>
    have hnil : passing (.message text) = [] := by
      apply List.filter_eq_nil_iff.2
      intro line hl
      rw [h text rfl line hl]
      exact Bool.false_ne_true
    rw [hnil]
    rfl
  | frame => rfl

/-- A quiet stack keeps the lines that a blank one keeps. -/
theorem flatMap_passing_blank {pieces : List StackPiece} (h : ∀ text, .message text ∈ pieces →
    ∀ line ∈ text.splitOn newline16, isFrame line = false) :
    (pieces.map StackPiece.blank).flatMap passing = pieces.flatMap passing := by
  rw [List.flatMap_map]
  apply List.flatMap_congr
  intro piece hp
  apply passing_blank
  rintro text rfl
  exact h text hp

theorem length_passing_blank (piece : StackPiece) :
    (passing piece.blank).length ≤ (passing piece).length := by
  cases piece with
  | message => exact Nat.zero_le _
  | frame => exact Nat.le_refl _

/-- Blanking takes a line away for every line of a message that passes for a call frame. -/
theorem passing_message_of_length {pieces : List StackPiece}
    (h : (pieces.flatMap passing).length = ((pieces.map StackPiece.blank).flatMap passing).length)
    (hp : .message text ∈ pieces) : passing (.message text) = [] := by
  induction pieces with
  | nil => cases hp
  | cons piece pieces ih =>
    have hle : ((pieces.map StackPiece.blank).flatMap passing).length ≤
        (pieces.flatMap passing).length := by
      clear h ih hp
      induction pieces with
      | nil => exact Nat.le_refl _
      | cons piece pieces ih =>
        simp only [List.map_cons, List.flatMap_cons, List.length_append]
        exact Nat.add_le_add (length_passing_blank piece) ih
    have hpiece := length_passing_blank piece
    simp only [List.map_cons, List.flatMap_cons, List.length_append] at h
    rcases List.mem_cons.1 hp with rfl | hp
    · apply List.eq_nil_of_length_eq_zero
      have hzero : (passing (StackPiece.message text).blank).length = 0 := rfl
      omega
    · exact ih (by omega) hp

theorem not_mem_of_mem_splitOn {a : UInt16} {t line : JsString} (h : line ∈ t.splitOn a) :
    a ∉ line := by
  induction t generalizing line with
  | nil =>
    obtain rfl := List.mem_singleton.1 h
    exact List.not_mem_nil
  | cons c t ih =>
    rw [List.splitOn_cons_eq_if_modifyHead] at h
    split at h
    · rcases List.mem_cons.1 h with rfl | h
      · exact List.not_mem_nil
      · exact ih h
    · rename_i hc
      cases hs : t.splitOn a with
      | nil => exact absurd hs (List.splitOn_ne_nil a t)
      | cons head rest =>
        rw [hs, List.modifyHead_cons] at h
        rcases List.mem_cons.1 h with rfl | h
        · rw [List.mem_cons, not_or]
          refine ⟨fun he => hc (beq_iff_eq.2 he.symm), ih ?_⟩
          rw [hs]
          exact List.mem_cons_self
        · apply ih
          rw [hs]
          exact List.mem_cons_of_mem head h

theorem ne_nil_of_isFrame (h : isFrame line = true) : line ≠ [] := by
  rintro rfl
  cases h

/-- What is logged of a stack tells which of its lines were kept. -/
theorem kept_of_framesOf {t u : JsString}
    (h : framesOf (some t) = framesOf (some u)) :
    (t.splitOn newline16).filter isFrame = (u.splitOn newline16).filter isFrame := by
  have hframe (v : JsString) : ∀ line ∈ (v.splitOn newline16).filter isFrame,
      newline16 ∉ line ∧ line ≠ [] := by
    intro line hl
    obtain ⟨hl, hf⟩ := List.mem_filter.1 hl
    exact ⟨not_mem_of_mem_splitOn hl, ne_nil_of_isFrame hf⟩
  have hjoin (lines : List JsString) (hl : ∀ line ∈ lines, line ≠ []) :
      [newline16].intercalate lines = [] ↔ lines = [] := by
    cases lines with
    | nil => exact iff_of_true rfl rfl
    | cons line lines =>
      refine iff_of_false ?_ (List.cons_ne_nil _ _)
      intro he
      obtain ⟨c, rest, rfl⟩ := List.exists_cons_of_ne_nil (hl line List.mem_cons_self)
      cases lines with
      | nil => cases he
      | cons => cases he
  simp only [framesOf, Option.getD_some] at h
  generalize hk : (t.splitOn newline16).filter isFrame = lines at h ⊢
  generalize hk' : (u.splitOn newline16).filter isFrame = lines' at h ⊢
  have hl := hk ▸ hframe t
  have hl' := hk' ▸ hframe u
  have hempty := hjoin lines fun line h => (hl line h).2
  have hempty' := hjoin lines' fun line h => (hl' line h).2
  split at h
  · rename_i he
    split at h
    · rename_i he'
      rw [hempty.1 he, hempty'.1 he']
    · cases h
  · rename_i he
    split at h
    · cases h
    · rename_i he'
      have he := hempty.not.1 he
      have he' := hempty'.not.1 he'
      have hsplit := congrArg (List.splitOn newline16) (Option.some.inj h)
      rwa [List.splitOn_intercalate _ (fun line h => (hl line h).1) he,
        List.splitOn_intercalate _ (fun line h => (hl' line h).1) he'] at hsplit

theorem framesOf_of_scrubbed {error other : DrizzleQueryError} (ha : Alike error other)
    (h : error.scrubbed = other.scrubbed) :
    framesOf (error.stack.map stackText) = framesOf (other.stack.map stackText) := by
  rw [scrubbed, scrubbed, ha.type, ha.code, ha.constraint] at h
  have h := List.append_cancel_left (List.append_cancel_right (List.append_cancel_right h))
  cases hf : framesOf (error.stack.map stackText) with
  | none =>
    cases hg : framesOf (other.stack.map stackText) with
    | none => rfl
    | some t =>
      rw [hf, hg] at h
      cases h
  | some t =>
    cases hg : framesOf (other.stack.map stackText) with
    | none =>
      rw [hf, hg] at h
      cases h
    | some u =>
      rw [hf, hg] at h
      cases h
      rfl

/-- Quiet errors that are alike are logged alike. -/
theorem scrubbed_congr (ha : Alike error other) (hq : Quiet error) (hq' : Quiet other) :
    error.scrubbed = other.scrubbed := by
  have hframes : framesOf (error.stack.map stackText) = framesOf (other.stack.map stackText) := by
    have hmap := ha.frames
    cases hs : error.stack with
    | none =>
      rw [hs] at hmap
      rw [Option.map_eq_none_iff.1 hmap.symm]
    | some pieces =>
      rw [hs, Option.map_some] at hmap
      obtain ⟨pieces', hs', hb⟩ := Option.map_eq_some_iff.1 hmap.symm
      rw [hs', Option.map_some, Option.map_some, framesOf, framesOf, Option.getD_some,
        Option.getD_some, filter_stackText, filter_stackText,
        ← flatMap_passing_blank (hq pieces hs), ← flatMap_passing_blank (hq' pieces' hs'), hb]
  rw [scrubbed, scrubbed, ha.type, ha.code, ha.constraint, hframes]

theorem quiet_of_blanked {error : DrizzleQueryError}
    (h : error.scrubbed = error.blanked.scrubbed) : Quiet error := by
  have hframes := framesOf_of_scrubbed error.alike_blanked h
  intro pieces hs text ht line hl
  have hs' : error.blanked.stack = some (pieces.map StackPiece.blank) := by
    rw [blanked, hs]
    rfl
  rw [hs, hs', Option.map_some, Option.map_some] at hframes
  have hkept := kept_of_framesOf hframes
  rw [filter_stackText, filter_stackText] at hkept
  have hnil := passing_message_of_length (congrArg List.length hkept) ht
  exact Bool.eq_false_iff.2 (List.filter_eq_nil_iff.1 hnil line hl)

/-- An error is logged as every quiet error alike exactly when it is quiet itself. -/
theorem serializeError_iff_quiet (error : DrizzleQueryError) :
    (∀ other, Alike error other → Quiet other →
      serializeError (.query error) = serializeError (.query other)) ↔ Quiet error := by
  constructor
  · intro h
    exact quiet_of_blanked (h error.blanked error.alike_blanked error.quiet_blanked)
  · intro hq other ha hq'
    exact scrubbed_congr ha hq hq'

/-- A failed statement with one bound value, and its call frame. -/
def failedQuery (value : String) : DrizzleQueryError where
  type := units "DrizzleQueryError"
  message := units "Failed query: select $1\nparams: " ++ units value
  query := units "select $1"
  params := [units value]
  stack := some [.message (units "Error: Failed query: select $1\nparams: " ++ units value),
    .frame (units "    at q (/app/src/q.ts:1:1)")]
  cause := none

/-- A bound value whose second line looks like a call frame is logged. -/
theorem not_serializeError_alike : ¬∀ error other, Alike error other →
    serializeError (.query error) = serializeError (.query other) := by
  intro h
  have ha : Alike (failedQuery "x\n    at SECRET") (failedQuery "x") := ⟨rfl, rfl, rfl, rfl⟩
  have hframes := framesOf_of_scrubbed ha (h _ _ ha)
  revert hframes
  decide +kernel

end DrizzleQueryError

end PromotionManagement
