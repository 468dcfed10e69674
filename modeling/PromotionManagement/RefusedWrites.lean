import PromotionManagement.PipelinedWrites
import PromotionManagement.StorefrontConvergence

namespace PromotionManagement
open Library ProductWriteRepository
set_option autoImplicit true

/-- Where `handle` leaves the store and what it has logged, unless an error was thrown. -/
structure HandledBatch where
  readModel : ReadModel
  logged : List (List (Nat × Text))
  completed : Bool

namespace ProductUpsertedHandler

/-- The writes that were refused, with the tokens that beat them. -/
def refused (ids : List Nat) (outcomes : List (Option Text)) : List (Nat × Text) :=
  (ids.zip outcomes).filterMap fun (productId, storedToken) =>
    storedToken.map fun token => (productId, token)

def report (ids : List Nat) (outcomes : List (Option Text)) : List (List (Nat × Text)) :=
  if 0 < (refused ids outcomes).length then [refused ids outcomes] else []

/-- `handle` past its read of PostgreSQL. -/
def handleRows (others : Nat → List ReadModelOp) (db : ReadModel) (productIds : List Nat)
    (rows : List SourceRow) (sourceReadAt : Nat) (results : Nat → List RuleResult) : HandledBatch :=
  let found := ProductSourceRepository.found rows
  let deleted := productIds.filter fun id => found.find id = none
  let entries := found.rows.map fun row => ProductPricer.price row (results row.id)
  match writeAll others 0 db entries sourceReadAt with
  | (db, none) => ⟨db, [], false⟩
  | (db, some outcomes) =>
    let logged := report (entries.map ProductEntry.id) outcomes
    match removeAll others entries.length db deleted sourceReadAt with
    | (db, none) => ⟨db, logged, false⟩
    | (db, some outcomes) => ⟨db, logged ++ report deleted outcomes, true⟩

theorem flatten_report (ids : List Nat) (outcomes : List (Option Text)) :
    (report ids outcomes).flatten = refused ids outcomes := by
  rw [report]
  split
  · exact List.flatten_singleton
  · rename_i h
    rw [Nat.not_lt, Nat.le_zero, List.length_eq_zero_iff] at h
    rw [h]
    rfl

theorem refused_append {ids : List Nat} {outcomes : List (Option Text)}
    (h : ids.length = outcomes.length) (ids' : List Nat) (outcomes' : List (Option Text)) :
    refused (ids ++ ids') (outcomes ++ outcomes') =
      refused ids outcomes ++ refused ids' outcomes' := by
  rw [refused, List.zip_append h, List.filterMap_append]
  rfl

section
variable {others : Nat → List ReadModelOp} {db : ReadModel} {done : List ReadModelOp}
  {rows : List SourceRow} {productIds : List Nat} {results : Nat → List RuleResult}

/-- Of valid scripts, all run and what was refused is logged. -/
theorem handleRows_eq (h : Represents db done) (hdone : ∀ op ∈ done, op.Valid)
    (hothers : ∀ n, ∀ op ∈ others n, op.Valid)
    (hscripts : ∀ op ∈ scripts productIds rows sourceReadAt results, op.Valid) :
    (handleRows others db productIds rows sourceReadAt results).completed = true ∧
    (handleRows others db productIds rows sourceReadAt results).readModel =
      (exec others 0 db (scripts productIds rows sourceReadAt results)).1 ∧
    (handleRows others db productIds rows sourceReadAt results).logged.flatten =
      refused ((scripts productIds rows sourceReadAt results).map ReadModelOp.productId)
        ((exec others 0 db (scripts productIds rows sourceReadAt results)).2.map
          ScriptReply.storedToken) := by
  let found := ProductSourceRepository.found rows
  let entries := found.rows.map fun row => ProductPricer.price row (results row.id)
  let deleted := productIds.filter fun id => found.find id = none
  let writes : List ReadModelOp := entries.map fun entry => .write entry sourceReadAt
  let removes : List ReadModelOp := deleted.map fun id => .remove id sourceReadAt
  have hsplit : scripts productIds rows sourceReadAt results = writes ++ removes := rfl
  have hlength : writes.length = entries.length := List.length_map _
  have hwriteIds : writes.map ReadModelOp.productId = entries.map ProductEntry.id := List.map_map
  have hremoveIds : removes.map ReadModelOp.productId = deleted :=
    List.map_map.trans (List.map_id deleted)
  rw [hsplit] at hscripts ⊢
  have hwrites (op : ReadModelOp) (hop : op ∈ writes) : op.Valid :=
    hscripts op (List.mem_append_left _ hop)
  have hremoves (op : ReadModelOp) (hop : op ∈ removes) : op.Valid :=
    hscripts op (List.mem_append_right _ hop)
  have hwritten : writeAll others 0 db entries sourceReadAt = ((exec others 0 db writes).1,
      some ((exec others 0 db writes).2.map ScriptReply.storedToken)) :=
    appliedAll_eq h hdone hothers hwrites 0
  have hvalid (op : ReadModelOp) (hop : op ∈ done ++ interleaved others 0 writes) : op.Valid :=
    (List.mem_append.1 hop).elim (hdone op) (interleaved_valid hothers hwrites 0 op)
  have hremoved : removeAll others entries.length (exec others 0 db writes).1 deleted sourceReadAt =
      ((exec others entries.length (exec others 0 db writes).1 removes).1,
        some ((exec others entries.length (exec others 0 db writes).1 removes).2.map
          ScriptReply.storedToken)) :=
    appliedAll_eq (exec_represents h hdone hothers hwrites 0).1 hvalid hothers hremoves _
  have hhandle : handleRows others db productIds rows sourceReadAt results =
      ⟨(exec others entries.length (exec others 0 db writes).1 removes).1,
        report (entries.map ProductEntry.id)
          ((exec others 0 db writes).2.map ScriptReply.storedToken) ++
        report deleted ((exec others entries.length (exec others 0 db writes).1 removes).2.map
          ScriptReply.storedToken), true⟩ := by
    rw [handleRows]
    dsimp only
    rw [hwritten]
    dsimp only
    rw [hremoved]
  rw [hhandle, exec_append, hlength, Nat.zero_add]
  refine ⟨rfl, rfl, ?_⟩
  dsimp only
  rw [List.flatten_append, flatten_report, flatten_report, List.map_append, List.map_append,
    hwriteIds, hremoveIds, refused_append]
  rw [List.length_map, List.length_map ScriptReply.storedToken, exec_length, hlength]

end

end ProductUpsertedHandler

open ProductUpsertedHandler in
/-- However the scripts of other clients fall between its own, a batch of valid scripts completes,
the store has what all of them leave, and what is logged is what was refused: a script is refused
when an operation as new as its read was there before it, and the token logged is that of the
newest, equal for a tie. Every other script applied, and was the newest of its product. -/
theorem refusals_logged {db : ReadModel} {done : List ReadModelOp} (h : Represents db done)
    (hdone : ∀ op ∈ done, op.Valid) {others : Nat → List ReadModelOp}
    (hothers : ∀ n, ∀ op ∈ others n, op.Valid) {products : Catalogue}
    (hlisted : ∀ row ∈ products.rows, row.values.category ≠ []) (hpos : 0 < sourceReadAt)
    (hlt : sourceReadAt < 2 ^ 53) (active : List PromotionRow) (productIds : List Nat)
    (results : Nat → List RuleResult) :
    let rows := ProductSourceRepository.read products active productIds
    let sent := scripts productIds rows sourceReadAt results
    let batch := handleRows others db productIds rows sourceReadAt results
    batch.completed = true ∧ Represents batch.readModel (done ++ interleaved others 0 sent) ∧
    ∃ tokens : List (Option Text), tokens.length = sent.length ∧
      batch.logged.flatten = refused (sent.map ReadModelOp.productId) tokens ∧
      ∀ i op, sent[i]? = some op →
        (tokens[i]? = some none ∧
          newestOp (heldBefore others done 0 (sent.take i) ++ [op]) op.productId = some op) ∨
        ∃ b, newestOp (heldBefore others done 0 (sent.take i)) op.productId = some b ∧
          op.sourceReadAt ≤ b.sourceReadAt ∧
          tokens[i]? = some (some (Nat.toDigits 10 b.sourceReadAt)) := by
  intro rows sent batch
  have hsent (op : ReadModelOp) (hop : op ∈ sent) : op.Valid :=
    valid_of_mem_scripts hlisted hpos hlt hop
  obtain ⟨hcompleted, hreadModel, hlogged⟩ := handleRows_eq h hdone hothers hsent
  obtain ⟨hrepresents, hreplies⟩ := exec_represents h hdone hothers hsent 0
  refine ⟨hcompleted, ?_, _, ?_, hlogged, ?_⟩
  · rw [hreadModel]
    exact hrepresents
  · rw [List.length_map, exec_length]
  · intro i op hi
    rw [List.getElem?_map, hreplies i op hi, Option.map_some, newestOp_concat_self]
    cases newestOp (heldBefore others done 0 (sent.take i)) op.productId with
    | none => exact .inl ⟨rfl, rfl⟩
    | some b =>
      rw [replyTo, newer]
      by_cases hb : b.sourceReadAt < op.sourceReadAt
      · rw [if_pos hb, if_pos hb]
        exact .inl ⟨rfl, rfl⟩
      · rw [if_neg hb]
        exact .inr ⟨b, rfl, not_lt.1 hb, rfl⟩

/-- Another handler's removal, of a later read, comes between the two scripts of a batch. -/
def removedMeanwhile (n : Nat) : List ReadModelOp := if n = 1 then [.remove 9 6] else []

theorem removedMeanwhile_valid (n : Nat) : ∀ op ∈ removedMeanwhile n, op.Valid := by
  intro op hop
  rw [removedMeanwhile] at hop
  split at hop
  · rw [List.mem_singleton.1 hop]
    exact ⟨by decide, by decide⟩
  · exact absurd hop List.not_mem_nil

def scarfCatalogue : Catalogue := ⟨[scarf], List.nodup_singleton _⟩

open ProductUpsertedHandler in
theorem refusals_logged_removedMeanwhile :
    ∃ tokens, (handleRows removedMeanwhile .empty [1, 9]
        (ProductSourceRepository.read scarfCatalogue [] [1, 9]) 5 fun _ => []).logged.flatten =
      refused [1, 9] tokens ∧ tokens[1]? = some (some ['6']) := by
  have hlisted : ∀ row ∈ scarfCatalogue.rows, row.values.category ≠ [] := by
    intro row hrow
    rw [List.mem_singleton.1 hrow, scarf]
    exact List.cons_ne_nil _ _
  have hempty : Represents .empty [] := represents_run fun _ h => absurd h List.not_mem_nil
  obtain ⟨_, _, tokens, _, hlogged, htokens⟩ := refusals_logged hempty
    (fun _ h => absurd h List.not_mem_nil) removedMeanwhile_valid hlisted (show 0 < 5 by decide)
    (show 5 < 2 ^ 53 by decide) [] [1, 9] fun _ => []
  refine ⟨tokens, hlogged, ?_⟩
  rcases htokens 1 (.remove 9 5) rfl with ⟨_, hnewest⟩ | ⟨b, hb, _, htoken⟩
  · exact absurd hnewest (by decide +kernel)
  · obtain rfl : b = .remove 9 6 := Option.some.inj (hb.symm.trans (by decide +kernel))
    exact htoken

end PromotionManagement
