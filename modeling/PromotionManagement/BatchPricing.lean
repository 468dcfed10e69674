import PromotionManagement.Library.SharedEngine
import PromotionManagement.ProductSourceRepository
import PromotionManagement.SeededPromotionRules

namespace PromotionManagement
open Library ProductSourceRepository
set_option autoImplicit true

/-- Evaluating a set of rules reports those whose conditions hold, in any order. -/
def EvaluatesSets (holds : Json → CandidateFacts → Bool)
    (evaluate : List CandidateRule → CandidateFacts → List RuleResult) : Prop :=
  ∀ set facts, (evaluate set facts).Perm
    ((set.filter fun rule => holds rule.conditions facts).map CandidateRule.result)

namespace PromotionResolver

theorem winner_cons_cons (best result : RuleResult) (results : List RuleResult) :
    winner (best :: result :: results) =
      if result.priority > best.priority then winner (result :: results)
      else winner (best :: results) := by
  rw [winner, List.foldl_cons, List.foldl_cons]
  dsimp only
  split <;> rfl

theorem winner_of_le {results : List RuleResult} {best : RuleResult}
    (h : ∀ result ∈ results, result.priority ≤ best.priority) :
    winner (best :: results) = some best := by
  induction results with
  | nil => rfl
  | cons result results ih =>
    rw [List.forall_mem_cons] at h
    rw [winner_cons_cons, if_neg (Int.not_lt.2 h.1)]
    exact ih h.2

theorem winner_mem (best : RuleResult) (results : List RuleResult) :
    ∃ w ∈ best :: results, winner (best :: results) = some w := by
  induction results generalizing best with
  | nil => exact ⟨best, List.mem_cons_self, rfl⟩
  | cons result results ih =>
    rw [winner_cons_cons]
    split
    · obtain ⟨w, hw, he⟩ := ih result
      exact ⟨w, List.mem_cons_of_mem _ hw, he⟩
    · obtain ⟨w, hw, he⟩ := ih best
      refine ⟨w, ?_, he⟩
      rcases List.mem_cons.1 hw with rfl | hw
      · exact List.mem_cons_self
      · exact List.mem_cons_of_mem _ (List.mem_cons_of_mem _ hw)

/-- What comes after with lower priorities wins nothing. -/
theorem winner_append (h : first ≠ [])
    (hlower : ∀ a ∈ first, ∀ b ∈ rest, b.priority < a.priority) :
    winner (first ++ rest) = winner first := by
  cases first with
  | nil => exact absurd rfl h
  | cons best results =>
    obtain ⟨w, hw, he⟩ := winner_mem best results
    calc winner (best :: results ++ rest)
      _ = winner (w :: rest) := by
        rw [winner, List.foldl_append]
        exact congrArg (rest.foldl _) he
      _ = some w := winner_of_le fun b hb => Int.le_of_lt (hlower w hw b hb)
      _ = winner (best :: results) := he.symm

end PromotionResolver

namespace ProductUpsertedHandler

/-- The rows that one read finds, one for each product. -/
def batch (products : Catalogue) (active : List PromotionRow) (productIds : List Nat) :
    List SourceRow :=
  (found (read products active productIds)).rows

variable (evaluate : List CandidateRule → CandidateFacts → List RuleResult)
  (rules : List CandidateRule)

/-- The runs that `Promise.all` starts on the resolver's engine, after the steps of a schedule. -/
def evaluations (rows : List SourceRow) (schedule : List (Fin rows.length)) :
    SharedEngine (Fin rows.length) CandidateFacts (List CandidateRule) RuleResult :=
  run (SharedEngine.step evaluate)
    (.start (prioritySets CandidateRule.priority rules) fun i => ProductPricer.facts rows[i])
    schedule

def entries (rows : List SourceRow) (schedule : List (Fin rows.length)) : List ProductEntry :=
  List.ofFn fun i =>
    ProductPricer.price rows[i] ((evaluations evaluate rules rows schedule).runs i).results

/-- Every run has ended. -/
def Complete (rows : List SourceRow) (schedule : List (Fin rows.length)) : Prop :=
  ∀ i, (prioritySets CandidateRule.priority rules).length < schedule.count i

/-- Every row has the entry that it has when it is alone in its batch. -/
def Independent (products : Catalogue) (active : List PromotionRow) (productIds : List Nat)
    (schedule : List (Fin (batch products active productIds).length)) : Prop :=
  ∀ i : Fin (batch products active productIds).length,
    let alone := batch products active [(batch products active productIds)[i].id]
    ∀ schedule' : List (Fin alone.length), Complete rules alone schedule' →
      entries evaluate rules alone schedule' =
        [(ProductPricer.price (batch products active productIds)[i]
          ((evaluations evaluate rules (batch products active productIds)
            schedule).runs i).results)]

/-- How many sets a row's run evaluates before any run of the batch ends. -/
def evaluatedInTime (rows : List SourceRow) (schedule : List (Fin rows.length))
    (i : Fin rows.length) : Nat :=
  (SharedEngine.beforeFirstEnd (fun _ => (prioritySets CandidateRule.priority rules).length)
    schedule).count i

/-- The highest set that has a rule whose conditions hold. -/
def decisive (holds : Json → CandidateFacts → Bool) (row : SourceRow) : Option Nat :=
  (prioritySets CandidateRule.priority rules).findIdx? fun set =>
    set.any fun rule => holds rule.conditions (ProductPricer.facts row)

/-- A set selects a candidate that can be priced. -/
def Applies (row : SourceRow) (n : Nat) : Prop :=
  ∃ set, (prioritySets CandidateRule.priority rules)[n]? = some set ∧
    ProductPricer.applied row
      (PromotionResolver.select (evaluate set (ProductPricer.facts row))) ≠ none

/-- The set that decides a row's candidate is evaluated before any run of the batch ends. -/
def InTime (holds : Json → CandidateFacts → Bool) (rows : List SourceRow)
    (schedule : List (Fin rows.length)) : Prop :=
  ∀ i n, decisive rules holds rows[i] = some n → Applies evaluate rules rows[i] n →
    n < evaluatedInTime rules rows schedule i

variable {evaluate rules}

theorem evaluations_results (rows : List SourceRow) (schedule : List (Fin rows.length))
    (i : Fin rows.length) : ((evaluations evaluate rules rows schedule).runs i).results =
      EngineRun.all evaluate ((prioritySets CandidateRule.priority rules).take
        (evaluatedInTime rules rows schedule i)) (ProductPricer.facts rows[i]) := by
  rw [evaluations, SharedEngine.run_results evaluate _ rfl]
  rfl

/-- A batch of one product that is found has its row alone. -/
theorem batch_alone {products : Catalogue} (h : row ∈ batch products active productIds) :
    batch products active [row.id] = [row] := by
  obtain ⟨r, hr, _, rfl⟩ := mem_found h
  have hnodup : (batch products active [r.id]).Nodup :=
    List.Nodup.of_map SourceRow.id (found (read products active [r.id])).unique
  apply List.perm_singleton.1
  apply (List.perm_ext_iff_of_nodup hnodup (List.nodup_singleton _)).2
  intro row
  rw [List.mem_singleton]
  constructor
  · intro hrow
    obtain ⟨r', hr', hid, rfl⟩ := mem_found hrow
    rw [products.eq_of_key hr' hr (List.mem_singleton.1 hid)]
  · rintro rfl
    exact Table.find_some_mem (find_read hr List.mem_cons_self active)

theorem index_alone (i : Fin [row].length) : i = 0 := Fin.eq_zero i

/-- Alone in its batch, a row meets every set of rules. -/
theorem entries_alone (rows : List SourceRow) (h : rows = [row])
    (schedule : List (Fin rows.length)) (hcomplete : Complete rules rows schedule) :
    entries evaluate rules rows schedule = [ProductPricer.price row (EngineRun.all evaluate
      (prioritySets CandidateRule.priority rules) (ProductPricer.facts row))] := by
  subst h
  have hcount : evaluatedInTime rules [row] schedule 0 =
      (prioritySets CandidateRule.priority rules).length :=
    SharedEngine.count_beforeFirstEnd_alone index_alone
      (Nat.le_of_lt (hcomplete 0))
  rw [entries, List.ofFn_succ, List.ofFn_zero, evaluations_results, hcount, List.take_length]
  rfl

theorem complete_alone (rules : List CandidateRule) (rows : List SourceRow) (h : rows = [row]) :
    ∃ schedule, Complete rules rows schedule := by
  subst h
  refine ⟨List.replicate ((prioritySets CandidateRule.priority rules).length + 1) 0, fun i => ?_⟩
  rw [index_alone i, List.count_replicate_self]
  exact Nat.lt_succ_self _

/-- A set reports higher priorities than those after it. -/
theorem priority_lt (heval : EvaluatesSets holds evaluate)
    (hn : n < (prioritySets CandidateRule.priority rules).length)
    (ha : a ∈ evaluate (prioritySets CandidateRule.priority rules)[n] facts)
    (hs : s ∈ (prioritySets CandidateRule.priority rules).drop (n + 1))
    (hb : b ∈ evaluate s facts) : b.priority < a.priority := by
  have hof {p : Int} {result : RuleResult}
      (hr : result ∈ evaluate (rules.filter fun rule => rule.priority = p) facts) :
      result.priority = p := by
    obtain ⟨rule, hrule, rfl⟩ := List.mem_map.1 ((heval _ facts).mem_iff.1 hr)
    exact of_decide_eq_true (List.mem_filter.1 (List.mem_of_mem_filter hrule)).2
  obtain ⟨k, hk, rfl⟩ := List.mem_drop_iff_getElem.1 hs
  simp only [prioritySets, List.getElem_map] at ha hb
  rw [hof ha, hof hb]
  exact List.pairwise_iff_getElem.1 (priorities_descend CandidateRule.priority rules) _ _ _ _
    (by omega)

theorem evaluate_eq_nil {s : List CandidateRule} (heval : EvaluatesSets holds evaluate)
    (h : s.any (fun rule => holds rule.conditions facts) = false) : evaluate s facts = [] := by
  apply List.perm_nil.1
  refine (heval s facts).trans (.of_eq ?_)
  rw [List.map_eq_nil_iff, List.filter_eq_nil_iff]
  exact List.any_eq_false.1 h

theorem evaluate_ne_nil {s : List CandidateRule} (heval : EvaluatesSets holds evaluate)
    (h : s.any (fun rule => holds rule.conditions facts) = true) : evaluate s facts ≠ [] := by
  obtain ⟨rule, hrule, hholds⟩ := List.any_eq_true.1 h
  have hmem : rule.result ∈ evaluate s facts :=
    (heval s facts).mem_iff.2 (List.mem_map_of_mem (List.mem_filter.2 ⟨hrule, hholds⟩))
  exact List.ne_nil_of_mem hmem

/-- What the evaluated sets leave to select: the choice of the set that decides, or nothing. -/
theorem select_take {decisiveSet : List CandidateRule} (heval : EvaluatesSets holds evaluate)
    (hn : decisive rules holds row = some n)
    (hset : (prioritySets CandidateRule.priority rules)[n]? = some decisiveSet) (m : Nat) :
    PromotionResolver.select (EngineRun.all evaluate
      ((prioritySets CandidateRule.priority rules).take m) (ProductPricer.facts row)) =
      if n < m then PromotionResolver.select (evaluate decisiveSet (ProductPricer.facts row))
      else none := by
  obtain ⟨hlt, hfires, hbefore⟩ := List.findIdx?_eq_some_iff_getElem.1 hn
  have hnothing : ∀ s ∈ (prioritySets CandidateRule.priority rules).take n,
      evaluate s (ProductPricer.facts row) = [] := by
    intro s hs
    obtain ⟨k, hk, rfl⟩ := List.mem_take_iff_getElem.1 hs
    apply evaluate_eq_nil heval
    exact Bool.eq_false_of_not_eq_true (hbefore k (Nat.lt_min.1 hk).1)
  obtain ⟨_, rfl⟩ := List.getElem?_eq_some_iff.1 hset
  by_cases hm : n < m
  · have hsplit : (prioritySets CandidateRule.priority rules).take m =
        (prioritySets CandidateRule.priority rules).take n ++
          (prioritySets CandidateRule.priority rules)[n] ::
            ((prioritySets CandidateRule.priority rules).drop (n + 1)).take (m - n - 1) := by
      obtain ⟨k, rfl⟩ := Nat.exists_eq_add_of_lt hm
      rw [Nat.add_assoc, List.take_add, List.drop_eq_getElem_cons hlt, List.take_succ_cons,
        Nat.add_sub_cancel_left, Nat.add_sub_cancel]
    rw [if_pos hm, hsplit, EngineRun.all_append, EngineRun.all_eq_nil hnothing, List.nil_append]
    refine congrArg (Option.map RuleResult.level)
      (PromotionResolver.winner_append (evaluate_ne_nil heval hfires) ?_)
    intro a ha b hb
    obtain ⟨s, hs, hb⟩ := List.mem_flatMap.1 hb
    exact priority_lt heval hlt ha (List.mem_of_mem_take hs) hb
  · rw [if_neg hm, EngineRun.all_eq_nil]
    · rfl
    · intro s hs
      exact hnothing s (List.take_subset_take_left _ (Nat.le_of_not_lt hm) hs)

theorem price_eq_iff (row : SourceRow) (results : List RuleResult)
    (h : PromotionResolver.select results' = none) :
    ProductPricer.price row results = ProductPricer.price row results' ↔
      ProductPricer.applied row (PromotionResolver.select results) = none := by
  have hnone : ProductPricer.applied row (PromotionResolver.select results') = none := by
    rw [h]
    rfl
  constructor
  · intro he
    cases ha : ProductPricer.applied row (PromotionResolver.select results) with
    | none => rfl
    | some a =>
      have hid := congrArg ProductEntry.promotionId he
      simp only [ProductPricer.price, ha, hnone, Option.map_some, Option.map_none] at hid
      cases hid
  · intro ha
    rw [ProductPricer.price, ProductPricer.price, ha, hnone]

/-- Evaluating the first sets alone prices a row as all of them do exactly when the set that
decides it is among them. -/
theorem price_take_iff (heval : EvaluatesSets holds evaluate) (row : SourceRow) (m : Nat) :
    ProductPricer.price row (EngineRun.all evaluate (prioritySets CandidateRule.priority rules)
        (ProductPricer.facts row)) =
      ProductPricer.price row (EngineRun.all evaluate
        ((prioritySets CandidateRule.priority rules).take m) (ProductPricer.facts row)) ↔
      ∀ n, decisive rules holds row = some n → Applies evaluate rules row n → n < m := by
  cases hdecisive : decisive rules holds row with
  | none =>
    have hnothing : ∀ s ∈ prioritySets CandidateRule.priority rules,
        evaluate s (ProductPricer.facts row) = [] := fun s hs =>
      evaluate_eq_nil heval (List.findIdx?_eq_none_iff.1 hdecisive s hs)
    rw [EngineRun.all_eq_nil hnothing,
      EngineRun.all_eq_nil fun s hs => hnothing s (List.mem_of_mem_take hs)]
    exact ⟨fun _ _ h => absurd h (Option.some_ne_none _).symm, fun _ => rfl⟩
  | some n =>
    have hlt := (List.findIdx?_eq_some_iff_getElem.1 hdecisive).1
    have hset := List.getElem?_eq_getElem hlt
    have hall := select_take heval hdecisive hset (prioritySets CandidateRule.priority rules).length
    have htake := select_take heval hdecisive hset m
    rw [List.take_length, if_pos hlt] at hall
    have happlies : Applies evaluate rules row n ↔
        ProductPricer.applied row (PromotionResolver.select (evaluate
          (prioritySets CandidateRule.priority rules)[n] (ProductPricer.facts row))) ≠ none := by
      constructor
      · rintro ⟨s, hs, h⟩
        rw [hset] at hs
        cases hs
        exact h
      · exact fun h => ⟨_, hset, h⟩
    by_cases hm : n < m
    · rw [if_pos hm] at htake
      refine ⟨fun _ n' hn' _ => ?_, fun _ => ?_⟩
      · cases hn'
        exact hm
      · rw [ProductPricer.price, ProductPricer.price, hall, htake]
    · rw [if_neg hm] at htake
      rw [price_eq_iff row _ htake, hall]
      constructor
      · intro h n' hn' ha
        cases hn'
        exact absurd h (happlies.1 ha)
      · intro h
        by_contra hne
        exact hm (h n rfl (happlies.2 hne))

/-- No entry of a batch depends on the other rows exactly when the schedule lets every row
evaluate, before a run of the batch ends, the set of rules that decides it. -/
theorem independent_iff (heval : EvaluatesSets holds evaluate) (products : Catalogue)
    (active : List PromotionRow) (productIds : List Nat)
    (schedule : List (Fin (batch products active productIds).length)) :
    Independent evaluate rules products active productIds schedule ↔
      InTime evaluate rules holds (batch products active productIds) schedule := by
  refine forall_congr' fun i => ?_
  have hrow : batch products active [(batch products active productIds)[i].id] =
      [(batch products active productIds)[i]] := batch_alone (List.getElem_mem i.2)
  rw [← price_take_iff heval, ← evaluations_results]
  constructor
  · intro h
    obtain ⟨schedule', hcomplete⟩ := complete_alone rules _ hrow
    exact List.singleton_inj.1
      ((entries_alone _ hrow schedule' hcomplete).symm.trans (h schedule' hcomplete))
  · intro h alone schedule' hcomplete
    exact (entries_alone _ hrow schedule' hcomplete).trans (congrArg (fun entry => [entry]) h)

/-- A set reports the rules whose conditions hold, in their order. -/
def reportHolding (set : List CandidateRule) (facts : CandidateFacts) : List RuleResult :=
  (set.filter fun rule => PromotionResolver.evaluate facts rule.conditions).map
    CandidateRule.result

theorem evaluatesSets_reportHolding :
    EvaluatesSets (fun conditions facts => PromotionResolver.evaluate facts conditions)
      reportHolding :=
  fun _ _ => .refl _

open PromotionRuleSeed in
/-- The seeded policy, as the resolver's engine holds it. -/
def seededCandidateRules : List CandidateRule :=
  [⟨"promotion rule 4 (\"product-only\")", 30, productOnly.conditions, .product⟩,
    ⟨"promotion rule 5 (\"category-only\")", 25, categoryOnly.conditions, .category⟩,
    ⟨"promotion rule 6 (\"lower-price-product\")", 20, lowerPriceProduct.conditions, .product⟩,
    ⟨"promotion rule 7 (\"lower-price-category\")", 15, lowerPriceCategory.conditions, .category⟩]

def coat : ProductRow :=
  ⟨1, "SKU-1".toList, ⟨"Coat".toList, "outerwear".toList, 9900, 4, none⟩, none⟩

def glove : ProductRow :=
  ⟨2, "SKU-2".toList, ⟨"Glove".toList, "accessories".toList, 2000, 12, none⟩, none⟩

def coatAndGlove : Catalogue := Table.insert (Table.insert .empty coat) glove

/-- The glove has a promotion of its own, and its category a better one. -/
def gloveSales : List PromotionRow :=
  [⟨1, "Own".toList, .percentage, 500, 0, 100, some 2, none, .active, 0, none⟩,
    ⟨2, "Half price".toList, .percentage, 5000, 0, 100, none, some "accessories".toList, .active, 0,
      none⟩]

abbrev CoatAndGloveRun : Type := Fin (batch coatAndGlove gloveSales [1, 2]).length

def coatRun : CoatAndGloveRun := ⟨0, by decide +kernel⟩

def gloveRun : CoatAndGloveRun := ⟨1, by decide +kernel⟩

/-- Both runs evaluate every set, and then end. -/
def inStep : List CoatAndGloveRun :=
  [coatRun, gloveRun, coatRun, gloveRun, coatRun, gloveRun, coatRun, gloveRun, coatRun, gloveRun]

/-- A condition with a priority of its own. -/
def withPriority (priority : Rat) : Json → Json
  | .obj fields => .obj (fields ++ [("priority", .num priority)])
  | condition => condition

open PromotionRuleSeed in
/-- A rule above the seeded ones whose conditions have a priority each: they are evaluated one
after the other, up to the first that does not hold. -/
def clearance : CandidateRule where
  name := "promotion rule 8 (\"category-clearance\")"
  priority := 40
  conditions := all (((List.range 40).map fun k =>
      withPriority (41 - k) (condition "categoryPriceCents" "notEqual" .null)) ++
    [withPriority 1 (condition "productPriceCents" "equal" .null)])
  level := .category

/-- The first condition ends the clearance for the coat, so its run is over before the glove's has
come to the last condition. -/
def cutShort : List CoatAndGloveRun :=
  [coatRun, gloveRun] ++ List.replicate 5 coatRun ++ List.replicate 5 gloveRun

/-- The glove is published at its base price in the middle of its sales. -/
theorem not_independent_cutShort :
    Complete (clearance :: seededCandidateRules) (batch coatAndGlove gloveSales [1, 2]) cutShort ∧
      ¬Independent reportHolding (clearance :: seededCandidateRules) coatAndGlove gloveSales [1, 2]
        cutShort := by
  refine ⟨by unfold Complete; decide +kernel, fun h => ?_⟩
  have hrow : batch coatAndGlove gloveSales
      [(batch coatAndGlove gloveSales [1, 2])[gloveRun].id] =
        [(batch coatAndGlove gloveSales [1, 2])[gloveRun]] :=
    batch_alone (List.getElem_mem gloveRun.2)
  obtain ⟨schedule', hcomplete⟩ := complete_alone (clearance :: seededCandidateRules) _ hrow
  have heq := (entries_alone _ hrow schedule' hcomplete).symm.trans (h gloveRun schedule' hcomplete)
  exact absurd heq (by decide +kernel)

theorem independent_inStep : Independent reportHolding seededCandidateRules coatAndGlove gloveSales
    [1, 2] inStep := by
  apply (independent_iff evaluatesSets_reportHolding coatAndGlove gloveSales [1, 2] inStep).2
  intro i n hn _
  have hall : ∀ i, evaluatedInTime seededCandidateRules (batch coatAndGlove gloveSales [1, 2])
      inStep i = (prioritySets CandidateRule.priority seededCandidateRules).length := by
    decide +kernel
  rw [hall i]
  exact (List.findIdx?_eq_some_iff_getElem.1 hn).1

end ProductUpsertedHandler

end PromotionManagement
