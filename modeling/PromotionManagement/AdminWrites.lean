import PromotionManagement.ActivePromotions
import PromotionManagement.AdminParameters

namespace PromotionManagement
open Library SqlParameter
set_option autoImplicit true

/-- How the insert of a product ends: a duplicate SKU is an answer, another error is raised. -/
inductive InsertProductOutcome where
  | ok (product : ProductRow)
  | refused (reason : String)
  | raised

/-- The checks of `products` that the types of a row leave open. -/
def ProductRow.checks (row : ProductRow) : Bool := 0 ≤ row.values.basePriceCents

namespace Products

def inserted (p : Products) (input : CreateProduct) : ProductRow where
  id := p.sequence
  sku := input.sku
  values := ⟨input.name, input.category, input.basePriceCents, input.stockQuantity, none⟩
  provenance := none

def insert (p : Products) (input : CreateProduct) : Products × InsertProductOutcome :=
  let row := p.inserted input
  if !row.checks then ({ p with sequence := p.sequence + 1 }, .raised)
  else if p.table.find row.sku = none ∧ ∀ other ∈ p.table.rows, other.id ≠ row.id then
    (⟨p.table.insert row, p.sequence + 1⟩, .ok row)
  else ({ p with sequence := p.sequence + 1 }, .refused "sku-exists")

def productExists (p : Products) (id : Nat) : Bool := p.table.rows.any fun row => row.id = id

end Products

namespace Promotions

/-- The identity column has drawn the id of every row. -/
def Drawn (p : Promotions) : Prop := ∀ row ∈ p.table.rows, row.id < p.sequence

theorem Drawn.of_ids {p q : Promotions} (h : Drawn p) (hs : p.sequence ≤ q.sequence)
    (hq : q.table.rows.map PromotionRow.id = p.table.rows.map PromotionRow.id) : Drawn q := by
  intro row hr
  have hid : row.id ∈ q.table.rows.map PromotionRow.id := List.mem_map_of_mem hr
  rw [hq] at hid
  obtain ⟨old, ho, he⟩ := List.mem_map.1 hid
  exact he ▸ (h old ho).trans_le hs

theorem find_sequence {p : Promotions} (h : Drawn p) : p.table.find p.sequence = none :=
  Table.find_eq_none.2 fun row hr => Nat.ne_of_lt (h row hr)

theorem insert_sequence (p : Promotions) (productExists : Nat → Bool) (input : CreatePromotion)
    (now : Int) : (p.insert productExists input now).1.sequence = p.sequence + 1 := by
  simp only [insert]
  split
  · rfl
  · split <;> rfl

theorem assign_sequence (p : Promotions) (productExists : Nat → Bool) (id : Nat)
    (target : AssignPromotion) (now : Int) :
    (p.assign productExists id target now).1.sequence = p.sequence := by
  simp only [assign]
  split
  · split <;> rfl
  · split <;> rfl

theorem cancel_sequence (p : Promotions) (id : Nat) (now : Int) :
    (p.cancel id now).1.sequence = p.sequence := by
  simp only [cancel]
  split <;> rfl

theorem Drawn.step {p : Promotions} (h : Drawn p) (event : PromotionEvent) :
    Drawn (p.step event) := by
  cases event with
  | insert productExists input now =>
    have hs := p.insert_sequence productExists input now
    rcases p.insert_cases productExists input now with ⟨hf, _, hi⟩ | ⟨ht, _⟩
    · intro row hr
      rw [Promotions.step, hs]
      rw [Promotions.step, hi, Table.mem_insert _ _ hf] at hr
      rcases hr with hr | rfl
      · exact (h row hr).trans (Nat.lt_succ_self _)
      · exact Nat.lt_succ_self p.sequence
    · apply h.of_ids
      · exact hs ▸ Nat.le_succ p.sequence
      · rw [Promotions.step, ht]
  | assign productExists id target now =>
    rcases p.assign_cases productExists id target now with ⟨_, _, _, _, _, ht, _⟩ | ⟨hp, _⟩
    · apply h.of_ids
      · rw [Promotions.step, assign_sequence]
      · rw [Promotions.step, ht, Table.map_key_update]
    · rw [Promotions.step, hp]
      exact h
  | cancel id now =>
    rcases p.cancel_cases id now with ⟨_, _, _, ht, _⟩ | ⟨hp, _⟩
    · apply h.of_ids
      · rw [Promotions.step, cancel_sequence]
      · rw [Promotions.step, ht, Table.map_key_update]
    · rw [Promotions.step, hp]
      exact h

end Promotions

/-- A state of the `promotions` table: its constraints hold, and no id is drawn twice. -/
structure PromotionsTable where
  promotions : Promotions
  constrained : promotions.Constrained
  drawn : promotions.Drawn

namespace PromotionsTable

def empty : PromotionsTable where
  promotions := .empty
  constrained := Promotions.Constrained.reached []
  drawn := fun _ h => absurd h List.not_mem_nil

def step (t : PromotionsTable) (event : PromotionEvent) : PromotionsTable where
  promotions := t.promotions.step event
  constrained := t.constrained.step event
  drawn := t.drawn.step event

/-- Every state that some writes leave the table in is one. -/
theorem run_promotions (t : PromotionsTable) (events : List PromotionEvent) :
    (run step t events).promotions = run Promotions.step t.promotions events := by
  induction events generalizing t with
  | nil => rfl
  | cons event events ih => exact ih (t.step event)

end PromotionsTable

/-- The tables that the admin API writes. -/
structure AdminTables where
  promotions : PromotionsTable
  products : Products

def AdminTables.empty : AdminTables := ⟨.empty, .empty⟩

namespace PromotionRepository

def insert (t : AdminTables) (input : CreatePromotionInput) (now : Int) :
    AdminTables × PromotionWriteOutcome :=
  match input.parameters with
  | some values =>
    ({ t with promotions := t.promotions.step (.insert t.products.productExists values now) },
      (t.promotions.promotions.insert t.products.productExists values now).2)
  | none => (t, .raised)

def assign (t : AdminTables) (id : Nat) (target : AssignPromotionInput) (now : Int) :
    AdminTables × PromotionWriteOutcome :=
  match bigint id, target.parameters with
  | some id, some values =>
    ({ t with promotions := t.promotions.step (.assign t.products.productExists id values now) },
      (t.promotions.promotions.assign t.products.productExists id values now).2)
  | _, _ => (t, .raised)

end PromotionRepository

namespace ProductRepository

def insert (t : AdminTables) (input : CreateProductInput) : AdminTables × InsertProductOutcome :=
  match input.parameters with
  | some values =>
    let written := t.products.insert values
    ({ t with products := written.1 }, written.2)
  | none => (t, .raised)

end ProductRepository

/-- An error of `http-errors`. -/
structure HttpError where
  status : Nat
  message : String
deriving DecidableEq, Repr

/-- What `errorHandler` answers an error with. `none` is one that `http-errors` did not make, and
only a client's error exposes its message. -/
def errorHandler : Option HttpError → HttpError
  | some error => if error.status < 500 then error else ⟨error.status, "Internal server error"⟩
  | none => ⟨500, "Internal server error"⟩

/-- The overlap 409 names no promotion. -/
def promotionWriteError (reason : String) : HttpError :=
  if reason = "no-such-product" then ⟨404, "No such product"⟩
  else if reason = "not-found" then ⟨404, "No such promotion"⟩
  else if reason = "not-assignable" then
    ⟨409, "Only a draft whose window has not passed can be assigned a target"⟩
  else ⟨409, "An active promotion already covers that target for this window"⟩

/-- How a route ends: a status sent with the result, or an error for `errorHandler`. -/
inductive Response where
  | sent (status : Nat)
  | failed (error : Option HttpError)
deriving DecidableEq, Repr

namespace Response

def status : Response → Nat
  | .sent status => status
  | .failed error => (errorHandler error).status

/-- An outcome of `PromotionRepository`, on a route that sends this status for a success. -/
def ofPromotion (written : Nat) : PromotionWriteOutcome → Response
  | .ok _ => .sent written
  | .refused reason => .failed (some (promotionWriteError reason))
  | .raised => .failed none

def ofProduct : InsertProductOutcome → Response
  | .ok _ => .sent 201
  | .refused _ => .failed (some ⟨409, "A product with this SKU already exists"⟩)
  | .raised => .failed none

end Response

/-- The statement that an accepted request comes to. -/
inductive AdminStatement where
  | insertPromotion (input : CreatePromotionInput)
  | updatePromotion (id : Nat) (target : AssignPromotionInput)
  | insertProduct (input : CreateProductInput)

/-- A request of the admin API that writes a promotion's or a product's values. -/
inductive AdminRequest where
  | createPromotion (body : JsonBody)
  | assignPromotion (id : Text) (body : JsonBody)
  | createProduct (body : JsonBody)

/-- What the schema of a part of the request made of it. -/
def validate (part : String) : Option α → Except HttpError α
  | some value => .ok value
  | none => .error ⟨400, "Invalid request " ++ part⟩

/-- The request as its validators leave it, at an instant of the process's clock. -/
def AdminRequest.statement (clock : Int) : AdminRequest → Except HttpError AdminStatement
  | .createPromotion body => do
    let input ← validate "body" (createPromotionInput clock body).toOption
    .ok (.insertPromotion input)
  | .assignPromotion id body => do
    let id ← validate "params" (promotionIdInput id)
    let target ← validate "body" (assignPromotionInput body).toOption
    .ok (.updatePromotion id target)
  | .createProduct body => do
    let input ← validate "body" (createProductInput body).toOption
    .ok (.insertProduct input)

namespace AdminStatement

/-- The routes past their validators, at an instant of the database's clock. The announcement of a
write cannot fail its route. -/
def perform (t : AdminTables) (now : Int) : AdminStatement → AdminTables × Response
  | .insertPromotion input =>
    let written := PromotionRepository.insert t input now
    (written.1, .ofPromotion 201 written.2)
  | .updatePromotion id target =>
    let written := PromotionRepository.assign t id target now
    (written.1, .ofPromotion 200 written.2)
  | .insertProduct input =>
    let written := ProductRepository.insert t input
    (written.1, .ofProduct written.2)

/-- The statement meets the types and the checks of its table: a row that it inserts, and what it
makes of a row that its `WHERE` finds. -/
def Satisfies (t : AdminTables) (now : Int) : AdminStatement → Prop
  | .insertPromotion input =>
    ∃ values, input.parameters = some values ∧
      (t.promotions.promotions.inserted values now).checks = true
  | .updatePromotion id target =>
    bigint id = some id ∧ ∃ values, target.parameters = some values ∧
      ∀ row ∈ t.promotions.promotions.table.rows,
        row.id = id → row.status = .draft → now < row.endsAt → (row.assigned values).checks = true
  | .insertProduct input =>
    ∃ values, input.parameters = some values ∧ (t.products.inserted values).checks = true

/-- What a repository makes of the violations of a foreign key, an exclusion and a unique
constraint, and of an update that finds no row. -/
def refusals : AdminStatement → List HttpError
  | .insertPromotion _ => ["no-such-product", "overlap"].map promotionWriteError
  | .updatePromotion _ _ =>
    ["no-such-product", "overlap", "not-found", "not-assignable"].map promotionWriteError
  | .insertProduct _ => [⟨409, "A product with this SKU already exists"⟩]

/-- The request is served, refused by a constraint that its repository knows, and no fault. -/
structure Served (t : AdminTables) (now : Int) (s : AdminStatement) : Prop where
  satisfies : s.Satisfies t now
  answered : (∃ status ∈ [200, 201], (s.perform t now).2 = .sent status) ∨
    ∃ error ∈ s.refusals, (s.perform t now).2 = .failed (some error)
  no_fault : (s.perform t now).2.status ≠ 500

/-- The texts hold no U+0000, and a promotion does not start in the year 0. -/
def Writable : AdminStatement → Prop
  | .insertPromotion input =>
    (∀ s ∈ input.texts, (0 : UInt16) ∉ s) ∧ input.startsAt.date.year ≠ 0
  | .updatePromotion _ target => ∀ s ∈ target.texts, (0 : UInt16) ∉ s
  | .insertProduct input => ∀ s ∈ input.texts, (0 : UInt16) ∉ s

end AdminStatement

/-- The status an insert gives a promotion of at most one target is one it may have. -/
theorem Promotions.inserted_checks (p : Promotions) {input : CreatePromotion} (now : Int)
    (hwindow : input.startsAt < input.endsAt) (hvalue : 0 < input.value)
    (hpercentage : input.discountType ≠ .percentage ∨ input.value ≤ 10000)
    (htarget : input.productId = none ∨ input.category = none) :
    (p.inserted input now).checks = true := by
  obtain ⟨name, discountType, value, startsAt, endsAt, productId, category⟩ := input
  simp only [PromotionRow.checks, inserted, Bool.and_eq_true, Bool.or_eq_true, decide_eq_true_eq]
  refine ⟨⟨⟨⟨hwindow, hvalue⟩, hpercentage⟩, ?_⟩, ?_⟩
  all_goals
    cases productId with
    | none => cases category <;> simp
    | some id =>
      obtain rfl : category = none := htarget.resolve_left (Option.some_ne_none id)
      simp

theorem CreatePromotionInput.Accepted.inserted_checks {input : CreatePromotionInput}
    (h : input.Accepted) (p : Promotions) (now : Int) :
    (p.inserted input.values now).checks = true := by
  apply p.inserted_checks now
  · have hwindow := h.window
    simp only [values, micros]
    omega
  · exact h.value.1
  · exact h.percentage
  · exact h.one_target.imp_right fun hc => Option.map_eq_none_iff.2 hc

/-- A draft under the constraints keeps to them with any target that was accepted. -/
theorem AssignPromotionInput.Accepted.assigned_checks {target : AssignPromotionInput}
    (h : target.Accepted) {row : PromotionRow} (hr : row.checks = true) :
    (row.assigned target.values).checks = true := by
  have htarget : (target.productId.isNone != (target.category.map JsString.toText).isNone) =
      true := by
    rw [Option.isNone_map]
    exact h.one_target
  simp only [PromotionRow.checks, PromotionRow.assigned, values, Bool.and_eq_true, htarget,
    Bool.or_true, reduceCtorEq, ne_eq, not_false_eq_true, decide_true, Bool.true_or,
    and_true] at hr ⊢
  exact hr.1.1

namespace Promotions

/-- Of a row under the checks, only the target can be refused. -/
theorem violation_of_checks (p : Promotions) (productExists : Nat → Bool)
    (h : row.checks = true) : p.violation productExists row = none ∨
      ∃ reason ∈ ["no-such-product", "overlap"],
        p.violation productExists row = some (.refused reason) := by
  rw [violation, h, Bool.not_true, if_neg Bool.false_ne_true]
  split
  · exact .inr ⟨"overlap", .tail _ (.head _), rfl⟩
  · split
    · exact .inr ⟨"no-such-product", .head _, rfl⟩
    · exact .inl rfl

theorem insert_answer {p : Promotions} (hp : Drawn p)
    (h : (p.inserted input now).checks = true) :
    (∃ row, (p.insert productExists input now).2 = .ok row) ∨
      ∃ reason ∈ ["no-such-product", "overlap"],
        (p.insert productExists input now).2 = .refused reason := by
  have hf : p.table.find (p.inserted input now).id = none := find_sequence hp
  rcases p.violation_of_checks productExists h with hv | ⟨reason, hm, hv⟩
  · exact .inl ⟨p.inserted input now, by simp only [insert, hv, hf, if_true]⟩
  · exact .inr ⟨reason, hm, by simp only [insert, hv]⟩

theorem assign_answer {p : Promotions} {id : Nat} (h : ∀ row ∈ p.table.rows,
      row.id = id → row.status = .draft → now < row.endsAt →
      (row.assigned target).checks = true) :
    (∃ row, (p.assign productExists id target now).2 = .ok row) ∨
      ∃ reason ∈ ["no-such-product", "overlap", "not-found", "not-assignable"],
        (p.assign productExists id target now).2 = .refused reason := by
  cases hu : p.table.updated id (fun row => row.status = .draft && now < row.endsAt)
      (PromotionRow.assigned target) with
  | none =>
    right
    cases hf : p.table.find id with
    | none => exact ⟨"not-found", .tail _ (.tail _ (.head _)), by simp only [assign, hu, hf]⟩
    | some row =>
      exact ⟨"not-assignable", .tail _ (.tail _ (.tail _ (.head _))), by
        simp only [assign, hu, hf]⟩
  | some row =>
    obtain ⟨old, hf, hg, rfl⟩ := Table.updated_eq_some.1 hu
    rw [Bool.and_eq_true, decide_eq_true_iff, decide_eq_true_iff] at hg
    have hc := h old (Table.find_some_mem hf) (Table.find_some_key hf) hg.1 hg.2
    rcases p.violation_of_checks productExists hc with hv | ⟨reason, hm, hv⟩
    · exact .inl ⟨old.assigned target, by simp only [assign, hu, hv]⟩
    · exact .inr ⟨reason, List.mem_append_left ["not-found", "not-assignable"] hm, by
        simp only [assign, hu, hv]⟩

end Promotions

theorem Products.insert_answer (p : Products) (h : (p.inserted input).checks = true) :
    (∃ row, (p.insert input).2 = .ok row) ∨ (p.insert input).2 = .refused "sku-exists" := by
  simp only [insert, h, Bool.not_true, if_neg Bool.false_ne_true]
  split
  · exact .inl ⟨_, rfl⟩
  · exact .inr rfl

/-- An insert that is refused, or raised, adds no row. -/
theorem Products.insert_refused (p : Products) (h : ∀ row, (p.insert input).2 ≠ .ok row) :
    (p.insert input).1.table = p.table := by
  rw [insert] at h ⊢
  split
  · rfl
  · rename_i hc
    split
    · rename_i hf
      rw [if_neg hc, if_pos hf] at h
      exact absurd rfl (h _)
    · rfl

namespace Response

theorem ofPromotion_answer {reasons : List String} (hw : written ∈ [200, 201])
    (h : (∃ row, outcome = .ok row) ∨ ∃ reason ∈ reasons, outcome = .refused reason) :
    (∃ status ∈ [200, 201], ofPromotion written outcome = .sent status) ∨
      ∃ error ∈ reasons.map promotionWriteError,
        ofPromotion written outcome = .failed (some error) := by
  rcases h with ⟨row, rfl⟩ | ⟨reason, hm, rfl⟩
  · exact .inl ⟨written, hw, rfl⟩
  · exact .inr ⟨promotionWriteError reason, List.mem_map_of_mem hm, rfl⟩

end Response

theorem promotionWriteError_status (reason : String) :
    (promotionWriteError reason).status < 500 := by
  rw [promotionWriteError]
  split
  · decide
  · split
    · decide
    · split <;> decide

theorem errorHandler_status (error : HttpError) :
    (errorHandler (some error)).status = error.status := by
  rw [errorHandler]
  split <;> rfl

/-- The limits that the schemas keep a statement's values within. -/
def AdminStatement.Accepted : AdminStatement → Prop
  | .insertPromotion input => input.Accepted
  | .updatePromotion id target => id ≤ maxBigint ∧ target.Accepted
  | .insertProduct input => input.Accepted

theorem validate_ok (h : validate part parsed = .ok value) : parsed = some value := by
  cases parsed with
  | none => cases h
  | some value' =>
    cases h
    rfl

theorem toOption_eq_some {parsed : Except ε α} (h : parsed.toOption = some value) :
    parsed = .ok value := by
  cases parsed with
  | error e => cases h
  | ok value' =>
    cases h
    rfl

open BasePriceCalculator in
theorem AdminRequest.statement_accepted {request : AdminRequest}
    (h : request.statement clock = .ok s) : s.Accepted := by
  cases request with
  | createPromotion body =>
    obtain ⟨input, hi, h⟩ := ok_of_bind h
    cases h
    exact createPromotionInput_accepted (toOption_eq_some (validate_ok hi))
  | assignPromotion text body =>
    obtain ⟨id, hid, h⟩ := ok_of_bind h
    obtain ⟨target, ht, h⟩ := ok_of_bind h
    cases h
    exact ⟨promotionIdInput_le (validate_ok hid),
      assignPromotionInput_accepted (toOption_eq_some (validate_ok ht))⟩
  | createProduct body =>
    obtain ⟨input, hi, h⟩ := ok_of_bind h
    cases h
    exact createProductInput_accepted (toOption_eq_some (validate_ok hi))

namespace AdminStatement

/-- Of what was accepted, its texts and the year it starts in decide what the table takes. -/
theorem Accepted.satisfies_iff {s : AdminStatement} (h : s.Accepted) (t : AdminTables)
    (now : Int) : s.Satisfies t now ↔ s.Writable := by
  cases s with
  | insertPromotion input =>
    simp only [Satisfies, Writable, CreatePromotionInput.Accepted.parameters_eq_some h]
    constructor
    · rintro ⟨_, ⟨hw, rfl⟩, _⟩
      exact hw
    · intro hw
      exact ⟨input.values, ⟨hw, rfl⟩, CreatePromotionInput.Accepted.inserted_checks h _ now⟩
  | updatePromotion id target =>
    simp only [Satisfies, Writable, bigint_of_le h.1, h.2.parameters_eq_some, true_and]
    constructor
    · rintro ⟨_, ⟨hw, rfl⟩, _⟩
      exact hw
    · intro hw
      refine ⟨target.values, ⟨hw, rfl⟩, ?_⟩
      intro row hr _ _ _
      exact h.2.assigned_checks (t.promotions.constrained.checks row hr)
  | insertProduct input =>
    simp only [Satisfies, Writable, CreateProductInput.Accepted.parameters_eq_some h]
    constructor
    · rintro ⟨_, ⟨hw, rfl⟩, _⟩
      exact hw
    · intro hw
      exact ⟨input.values, ⟨hw, rfl⟩, decide_eq_true (Int.natCast_nonneg _)⟩

/-- A statement within the types and checks of its table is answered by its repository. -/
theorem Satisfies.answered {s : AdminStatement} (h : s.Satisfies t now) :
    (∃ status ∈ [200, 201], (s.perform t now).2 = .sent status) ∨
      ∃ error ∈ s.refusals, (s.perform t now).2 = .failed (some error) := by
  cases s with
  | insertPromotion input =>
    obtain ⟨values, hp, hc⟩ := h
    simp only [perform, PromotionRepository.insert, hp]
    exact Response.ofPromotion_answer (.tail _ (.head _))
      (Promotions.insert_answer t.promotions.drawn hc)
  | updatePromotion id target =>
    obtain ⟨hid, values, hp, hc⟩ := h
    simp only [perform, PromotionRepository.assign, hid, hp]
    exact Response.ofPromotion_answer (.head _) (Promotions.assign_answer hc)
  | insertProduct input =>
    obtain ⟨values, hp, hc⟩ := h
    simp only [perform, ProductRepository.insert, hp]
    rcases t.products.insert_answer hc with ⟨row, ho⟩ | ho
    · exact .inl ⟨201, .tail _ (.head _), by rw [ho, Response.ofProduct]⟩
    · exact .inr ⟨_, .head _, by rw [ho, Response.ofProduct]⟩

theorem refusals_status (s : AdminStatement) (h : error ∈ s.refusals) : error.status < 500 := by
  cases s with
  | insertPromotion input =>
    obtain ⟨reason, _, rfl⟩ := List.mem_map.1 h
    exact promotionWriteError_status reason
  | updatePromotion id target =>
    obtain ⟨reason, _, rfl⟩ := List.mem_map.1 h
    exact promotionWriteError_status reason
  | insertProduct input =>
    obtain rfl := List.mem_singleton.1 h
    decide

theorem Satisfies.served {s : AdminStatement} (h : s.Satisfies t now) : s.Served t now where
  satisfies := h
  answered := h.answered
  no_fault := by
    rcases h.answered with ⟨status, hs, ha⟩ | ⟨error, he, ha⟩
    · rw [ha, Response.status]
      rcases List.mem_cons.1 hs with rfl | hs
      · decide
      · obtain rfl := List.mem_singleton.1 hs
        decide
    · rw [ha, Response.status, errorHandler_status]
      exact Nat.ne_of_lt (s.refusals_status he)

end AdminStatement

namespace AdminStatement

/-- The database refuses what is not writable as it reads the parameters, and nothing maps it. -/
theorem Accepted.perform_of_not_writable {s : AdminStatement} (h : s.Accepted)
    (hw : ¬ s.Writable) (t : AdminTables) (now : Int) : s.perform t now = (t, .failed none) := by
  cases s with
  | insertPromotion input =>
    have hp : input.parameters = none := Option.eq_none_iff_forall_ne_some.2 fun values hp =>
      hw ((CreatePromotionInput.Accepted.parameters_eq_some h).1 hp).1
    rw [perform, PromotionRepository.insert, hp]
    rfl
  | updatePromotion id target =>
    have hp : target.parameters = none := Option.eq_none_iff_forall_ne_some.2 fun values hp =>
      hw (h.2.parameters_eq_some.1 hp).1
    rw [perform, PromotionRepository.assign, bigint_of_le h.1, hp]
    rfl
  | insertProduct input =>
    have hp : input.parameters = none := Option.eq_none_iff_forall_ne_some.2 fun values hp =>
      hw ((CreateProductInput.Accepted.parameters_eq_some h).1 hp).1
    rw [perform, ProductRepository.insert, hp]
    rfl

end AdminStatement

/-- The answer to a request. What its validators refuse is answered by `errorHandler`. -/
def AdminRequest.handle (t : AdminTables) (clock now : Int) (request : AdminRequest) :
    AdminTables × Response :=
  match request.statement clock with
  | .ok statement => statement.perform t now
  | .error error => (t, .failed (some error))

theorem validate_error (h : validate part parsed = .error error) : error.status = 400 := by
  cases parsed with
  | none =>
    cases h
    rfl
  | some value => cases h

theorem error_of_bind {x : Except ε α} {f : α → Except ε β} (h : x >>= f = .error e) :
    x = .error e ∨ ∃ a, x = .ok a ∧ f a = .error e := by
  cases x with
  | error e' =>
    cases h
    exact .inl rfl
  | ok a => exact .inr ⟨a, rfl, h⟩

theorem AdminRequest.statement_error {request : AdminRequest}
    (h : request.statement clock = .error error) : error.status = 400 := by
  cases request with
  | createPromotion body =>
    rcases error_of_bind h with h | ⟨_, _, h⟩
    · exact validate_error h
    · cases h
  | assignPromotion text body =>
    rcases error_of_bind h with h | ⟨_, _, h⟩
    · exact validate_error h
    · rcases error_of_bind h with h | ⟨_, _, h⟩
      · exact validate_error h
      · cases h
  | createProduct body =>
    rcases error_of_bind h with h | ⟨_, _, h⟩
    · exact validate_error h
    · cases h

/-- A request that fails writes no row, though it may have drawn an id. -/
theorem AdminStatement.perform_failed {s : AdminStatement}
    (h : (s.perform t now).2 = .failed error) :
    (s.perform t now).1.promotions.promotions.table = t.promotions.promotions.table ∧
      (s.perform t now).1.products.table = t.products.table := by
  cases s with
  | insertPromotion input =>
    cases hp : input.parameters with
    | none => simp only [perform, PromotionRepository.insert, hp, and_self]
    | some values =>
      simp only [perform, PromotionRepository.insert, hp, and_true] at h ⊢
      rcases t.promotions.promotions.insert_cases t.products.productExists values now with
        ⟨_, _, hi⟩ | ⟨ht, _⟩
      · rw [hi] at h
        cases h
      · exact ht
  | updatePromotion id target =>
    cases hid : bigint id with
    | none => simp only [perform, PromotionRepository.assign, hid, and_self]
    | some id =>
      cases hp : target.parameters with
      | none => simp only [perform, PromotionRepository.assign, hid, hp, and_self]
      | some values =>
        simp only [perform, PromotionRepository.assign, hid, hp, and_true] at h ⊢
        rcases t.promotions.promotions.assign_cases t.products.productExists id values now with
          ⟨_, _, _, _, _, _, hok⟩ | ⟨hs, _⟩
        · rw [hok] at h
          cases h
        · exact congrArg Promotions.table hs
  | insertProduct input =>
    cases hp : input.parameters with
    | none => simp only [perform, ProductRepository.insert, hp, and_self]
    | some values =>
      simp only [perform, ProductRepository.insert, hp, true_and] at h ⊢
      apply t.products.insert_refused
      intro row hok
      rw [hok] at h
      cases h

/-- Of all requests, a 500 answers those that were accepted and are not writable. -/
theorem AdminRequest.handle_fault_iff (request : AdminRequest) (t : AdminTables)
    (clock now : Int) : (request.handle t clock now).2.status = 500 ↔
      ∃ s, request.statement clock = .ok s ∧ ¬ s.Writable := by
  rw [handle]
  cases hs : request.statement clock with
  | error error =>
    have he := statement_error hs
    simp only [Response.status, errorHandler_status, he, reduceCtorEq, false_and, exists_false]
    decide
  | ok s =>
    simp only [Except.ok.injEq, exists_eq_left']
    have ha := statement_accepted hs
    by_cases hw : s.Writable
    · exact iff_of_false ((ha.satisfies_iff t now).2 hw).served.no_fault (fun hn => hn hw)
    · rw [ha.perform_of_not_writable hw]
      exact iff_of_true rfl hw

instance : DecidablePred AdminStatement.Writable
  | .insertPromotion input =>
    inferInstanceAs
      (Decidable ((∀ s ∈ input.texts, (0 : UInt16) ∉ s) ∧ input.startsAt.date.year ≠ 0))
  | .updatePromotion _ target =>
    inferInstanceAs (Decidable (∀ s ∈ target.texts, (0 : UInt16) ∉ s))
  | .insertProduct input =>
    inferInstanceAs (Decidable (∀ s ∈ input.texts, (0 : UInt16) ∉ s))

/-- A body of `POST /api/promotions`, of a draft that lasts a month. -/
def fixedDiscount (name : JsString) : JsonBody :=
  .obj
    [(units "name", .str name), (units "discountType", .str (units "fixed")),
      (units "value", .num (some 1)),
      (units "startsAt", .str (units "2030-01-01T00:00:00Z")),
      (units "endsAt", .str (units "2030-02-01T00:00:00Z"))]

/-- An accepted request is served, in every state of the tables, exactly when its texts hold no
U+0000 and its promotion does not start in the year 0. -/
theorem admin_writes_served_iff {request : AdminRequest} (h : request.statement clock = .ok s)
    (t : AdminTables) (now : Int) : s.Served t now ↔ s.Writable := by
  rw [← (AdminRequest.statement_accepted h).satisfies_iff t now]
  exact ⟨fun hs => hs.satisfies, fun hs => hs.served⟩

theorem spring_is_served :
    ∃ s, (AdminRequest.createPromotion (fixedDiscount (units "Spring"))).statement 0 = .ok s ∧
      s.Served .empty 0 := by
  have hw : ((AdminRequest.createPromotion (fixedDiscount (units "Spring"))).statement
      0).toOption.map (fun s => decide s.Writable) = some true := by decide +kernel
  obtain ⟨s, hs, hw⟩ := Option.map_eq_some_iff.1 hw
  have hs := toOption_eq_some hs
  exact ⟨s, hs, (admin_writes_served_iff hs .empty 0).2 (of_decide_eq_true hw)⟩

/-- A name with U+0000 in it is accepted, and the request ends as a 500. -/
theorem nul_in_name_is_a_fault :
    ∃ s, (AdminRequest.createPromotion (fixedDiscount (units "a\x00b"))).statement 0 = .ok s ∧
      ¬ s.Served .empty 0 ∧ (s.perform .empty 0).2.status = 500 := by
  have hf : ((AdminRequest.createPromotion (fixedDiscount (units "a\x00b"))).statement
      0).toOption.map (fun s => (s.perform .empty 0).2.status) = some 500 := by decide +kernel
  obtain ⟨s, hs, hf⟩ := Option.map_eq_some_iff.1 hf
  exact ⟨s, toOption_eq_some hs, fun h => h.no_fault hf, hf⟩

end PromotionManagement
