import PromotionManagement.EventQueue
import Mathlib.Data.List.Perm.Subperm

namespace PromotionManagement
namespace EventQueue
set_option autoImplicit true

variable {JobId : Type} [DecidableEq JobId] {consumers : Consumers JobId}
  {initial fresh : List JobId} {w : RetryWalk JobId} {id : JobId}

namespace RetryWalk

def unseen (initial : List JobId) (w : RetryWalk JobId) : List JobId :=
  initial.filter fun id => id ∉ w.seen

/-- The jobs of the failed set that this walk has retried before. -/
def failedAgain (w : RetryWalk JobId) : List JobId := w.queue.failed.filter fun id => id ∈ w.seen

/-- With jobs left to retry, those that failed again do not fill the page. -/
def Uncrowded (initial : List JobId) (pageSize : Nat) (w : RetryWalk JobId) : Prop :=
  (∃ id ∈ initial, id ∉ w.seen) → w.failedAgain.length < pageSize

/-- The walk retried every job of the initial set once, and counts them. -/
def RetriedAll (initial : List JobId) (w : RetryWalk JobId) : Prop :=
  w.seen.length = initial.length ∧ ∀ id ∈ initial, w.retried.count id = 1

end RetryWalk

/-- The failed set is what failed again, ahead of what the walk has not seen. -/
structure Walking (initial : List JobId) (w : RetryWalk JobId) : Prop where
  failed : w.queue.failed = w.failedAgain ++ w.unseen initial
  waiting : ∀ id ∈ w.queue.waiting, id ∈ initial → id ∈ w.seen
  seen : w.seen.Nodup
  known : ∀ id ∈ w.seen, id ∈ initial
  retried : w.retried.Perm w.seen

theorem Walking.start {queue : JobQueue JobId} (hw : ∀ id ∈ queue.failed, id ∉ queue.waiting) :
    Walking queue.failed (.start queue) := by
  have hu : (RetryWalk.start queue).unseen queue.failed = queue.failed :=
    List.filter_eq_self.2 fun _ _ => rfl
  have ha : (RetryWalk.start queue).failedAgain = [] :=
    List.filter_eq_nil_iff.2 fun _ _ h => List.not_mem_nil (of_decide_eq_true h)
  refine ⟨?_, ?_, List.nodup_nil, fun id h => absurd h List.not_mem_nil, .refl _⟩
  · rw [hu, ha]
    rfl
  · intro id h hi
    exact absurd h (hw id hi)

theorem Walking.fail (h : Walking initial w) (hi : id ∈ initial) :
    Walking initial { w with queue := w.queue.fail id } := by
  by_cases hq : id ∈ w.queue.waiting
  · have hs := h.waiting id hq hi
    have hf : w.queue.fail id =
        { w.queue with waiting := w.queue.waiting.erase id, failed := id :: w.queue.failed } :=
      if_pos hq
    rw [hf]
    have ha : ({ w with queue := { w.queue with waiting := w.queue.waiting.erase id
                                                failed := id :: w.queue.failed } } :
        RetryWalk JobId).failedAgain = id :: w.failedAgain := List.filter_cons_of_pos (by simpa)
    refine ⟨?_, ?_, h.seen, h.known, h.retried⟩
    · rw [ha, List.cons_append]
      exact congrArg (List.cons id) h.failed
    · intro j hj hji
      exact h.waiting j (List.mem_of_mem_erase hj) hji
  · have hf : w.queue.fail id = w.queue := if_neg hq
    rw [hf]
    exact h

/-- Whatever the consumers do to the jobs of the initial set, the walk goes on. -/
theorem Walking.awaited (h : Walking initial w)
    (hc : ∀ n, ∀ id ∈ consumers n, id ∈ initial) : Walking initial (w.awaited consumers) := by
  have hfold (ids : List JobId) (hids : ∀ id ∈ ids, id ∈ initial) (w : RetryWalk JobId)
      (h : Walking initial w) :
      Walking initial { w with queue := ids.foldl JobQueue.fail w.queue } := by
    induction ids generalizing w with
    | nil => exact h
    | cons id ids ih =>
      rw [List.forall_mem_cons] at hids
      exact ih hids.2 _ (h.fail hids.1)
  have hw := hfold _ (hc w.operations) w h
  exact ⟨hw.failed, hw.waiting, hw.seen, hw.known, hw.retried⟩

theorem mem_unseen : id ∈ w.unseen initial ↔ id ∈ initial ∧ id ∉ w.seen := by
  rw [RetryWalk.unseen, List.mem_filter, decide_eq_true_iff]

theorem retryJob_seen (hn : id ∉ w.seen) :
    (w.retryJob consumers id).seen = id :: w.seen := List.insert_of_not_mem hn

theorem retryJob_unseen (hi : initial.Nodup) (hn : id ∉ w.seen) :
    (w.retryJob consumers id).unseen initial = (w.unseen initial).erase id := by
  rw [RetryWalk.unseen, RetryWalk.unseen, (hi.filter _).erase_eq_filter, List.filter_filter,
    retryJob_seen hn]
  apply List.filter_congr
  intro j _
  rw [Bool.eq_iff_iff]
  simp only [List.mem_cons, not_or, decide_eq_true_eq, Bool.and_eq_true, bne_iff_ne]

/-- A job of the initial set is retried where it stands, behind those that failed again. -/
theorem Walking.retryJob (hi : initial.Nodup) (h : Walking initial w)
    (hc : ∀ n, ∀ id ∈ consumers n, id ∈ initial) (hid : id ∈ w.unseen initial) :
    Walking initial (w.retryJob consumers id) := by
  obtain ⟨hid, hn⟩ := mem_unseen.1 hid
  have hw := h.awaited hc
  have hu := mem_unseen.2 ⟨hid, hn⟩
  have ha : id ∉ (w.awaited consumers).failedAgain := by
    intro ha
    exact hn (of_decide_eq_true (List.mem_filter.1 ha).2)
  have hf : id ∈ (w.awaited consumers).queue.failed := by
    rw [hw.failed]
    exact List.mem_append_right _ hu
  have hq : (w.retryJob consumers id).queue =
      { (w.awaited consumers).queue with
        waiting := (w.awaited consumers).queue.waiting ++ [id]
        failed := (w.awaited consumers).queue.failed.erase id } := if_pos hf
  have hfailed : (w.retryJob consumers id).queue.failed =
      (w.awaited consumers).failedAgain ++ (w.retryJob consumers id).unseen initial := by
    rw [hq, retryJob_unseen hi hn]
    change (w.awaited consumers).queue.failed.erase id = _
    rw [hw.failed, List.erase_append_right _ ha]
    rfl
  have hagain : (w.retryJob consumers id).failedAgain = (w.awaited consumers).failedAgain := by
    rw [RetryWalk.failedAgain, hfailed, List.filter_append]
    have h₁ : ((w.awaited consumers).failedAgain.filter fun j =>
        j ∈ (w.retryJob consumers id).seen) = (w.awaited consumers).failedAgain := by
      apply List.filter_eq_self.2
      intro j hj
      have hj : j ∈ w.seen := of_decide_eq_true (List.mem_filter.1 hj).2
      rw [retryJob_seen hn, decide_eq_true_iff]
      exact List.mem_cons_of_mem _ hj
    have h₂ : (((w.retryJob consumers id).unseen initial).filter fun j =>
        j ∈ (w.retryJob consumers id).seen) = [] := by
      apply List.filter_eq_nil_iff.2
      intro j hj hs
      exact (mem_unseen.1 hj).2 (of_decide_eq_true hs)
    rw [h₁, h₂, List.append_nil]
  refine ⟨hagain ▸ hfailed, ?_, ?_, ?_, ?_⟩
  · intro j hj hji
    rw [retryJob_seen hn]
    rw [hq] at hj
    rcases List.mem_append.1 hj with hj | hj
    · exact List.mem_cons_of_mem _ (hw.waiting j hj hji)
    · rw [List.mem_singleton.1 hj]
      exact List.mem_cons_self
  · rw [retryJob_seen hn]
    exact List.nodup_cons.2 ⟨hn, h.seen⟩
  · rw [retryJob_seen hn, List.forall_mem_cons]
    exact ⟨hid, h.known⟩
  · rw [retryJob_seen hn]
    exact List.perm_append_comm.trans (h.retried.cons id)

/-- A page of fresh jobs is retried as a whole. -/
theorem Walking.retryAll (hi : initial.Nodup) (hc : ∀ n, ∀ id ∈ consumers n, id ∈ initial)
    (h : Walking initial w) (hf : fresh.Nodup) (hu : ∀ id ∈ fresh, id ∈ w.unseen initial) :
    Walking initial (fresh.foldl (RetryWalk.retryJob consumers) w) ∧
      ∀ id, id ∈ (fresh.foldl (RetryWalk.retryJob consumers) w).seen ↔
        id ∈ w.seen ∨ id ∈ fresh := by
  induction fresh generalizing w with
  | nil => exact ⟨h, fun id => (or_iff_left List.not_mem_nil).symm⟩
  | cons id fresh ih =>
    rw [List.nodup_cons] at hf
    rw [List.forall_mem_cons] at hu
    have hn := (mem_unseen.1 hu.1).2
    have hu' : ∀ j ∈ fresh, j ∈ (w.retryJob consumers id).unseen initial := by
      intro j hj
      rw [retryJob_unseen hi hn]
      have hne : j ≠ id := fun he => hf.1 (he ▸ hj)
      exact (List.mem_erase_of_ne hne).2 (hu.2 j hj)
    obtain ⟨hw, hs⟩ := ih (h.retryJob hi hc hu.1) hf.2 hu'
    refine ⟨hw, fun j => (hs j).trans ?_⟩
    rw [retryJob_seen hn, List.mem_cons, List.mem_cons, or_assoc, or_left_comm]

theorem unseen_lt {v : RetryWalk JobId} (hs : ∀ id, id ∈ v.seen ↔ id ∈ w.seen ∨ id ∈ fresh)
    (hu : id ∈ w.unseen initial) (hf : id ∈ fresh) :
    (v.unseen initial).length < (w.unseen initial).length := by
  have he : v.unseen initial = (w.unseen initial).filter fun id => id ∉ fresh := by
    rw [RetryWalk.unseen, RetryWalk.unseen, List.filter_filter]
    apply List.filter_congr
    intro j _
    rw [Bool.eq_iff_iff]
    simp only [hs, not_or, decide_eq_true_eq, Bool.and_eq_true]
    exact and_comm
  rw [he, List.length_filter_lt_length_iff_exists]
  exact ⟨id, hu, fun hn => of_decide_eq_true hn hf⟩

/-- The fresh jobs of a page are the first unseen ones that it has room for. -/
theorem Walking.fresh_eq (h : Walking initial w) (hp : 1 ≤ pageSize) :
    w.fresh pageSize = (w.unseen initial).take (pageSize - w.failedAgain.length) := by
  have hsize : pageSize - 1 + 1 - 0 = pageSize := by omega
  rw [RetryWalk.fresh, JobQueue.getFailed, List.drop_zero, hsize, h.failed, List.take_append,
    List.filter_append]
  have h₁ : ((w.failedAgain.take pageSize).filter fun id => id ∉ w.seen) = [] := by
    apply List.filter_eq_nil_iff.2
    intro id hid hn
    have hs := (List.mem_filter.1 (List.mem_of_mem_take hid)).2
    exact of_decide_eq_true hn (of_decide_eq_true hs)
  have h₂ : (((w.unseen initial).take (pageSize - w.failedAgain.length)).filter
      fun id => id ∉ w.seen) = (w.unseen initial).take (pageSize - w.failedAgain.length) := by
    apply List.filter_eq_self.2
    intro id hid
    exact decide_eq_true (mem_unseen.1 (List.mem_of_mem_take hid)).2
  rw [h₁, h₂, List.nil_append]

theorem uncrowded_iff_fresh (h : Walking initial w) (hp : 1 ≤ pageSize) :
    w.Uncrowded initial pageSize ↔ (w.fresh pageSize = [] → w.unseen initial = []) := by
  have hu : (∃ id ∈ initial, id ∉ w.seen) ↔ w.unseen initial ≠ [] := by
    simp only [ne_eq, List.eq_nil_iff_forall_not_mem, mem_unseen, not_and, not_not, not_forall]
    exact ⟨fun ⟨id, hi, hn⟩ => ⟨id, hi, hn⟩, fun ⟨id, hi, hn⟩ => ⟨id, hi, hn⟩⟩
  rw [RetryWalk.Uncrowded, hu, h.fresh_eq hp, List.take_eq_nil_iff]
  by_cases hn : w.unseen initial = []
  · simp only [hn, ne_eq, not_true_eq_false, false_implies, or_true, implies_true]
  · simp only [hn, ne_eq, not_false_eq_true, true_implies, or_false, imp_false]
    omega

/-- Every pass but the last retries a job, so the fuel of the initial set is enough. -/
theorem retryFailed_walking (hi : initial.Nodup) (hp : 1 ≤ pageSize)
    (hc : ∀ n, ∀ id ∈ consumers n, id ∈ initial) (h : Walking initial w)
    (hfuel : (w.unseen initial).length < fuel) :
    ∃ final, retryFailed consumers pageSize fuel w = some final ∧ Walking initial final ∧
      (final.unseen initial = [] ↔
        ∀ v ∈ pagesRead consumers pageSize fuel w, v.Uncrowded initial pageSize) := by
  induction fuel generalizing w with
  | zero => exact absurd hfuel (Nat.not_lt_zero _)
  | succ fuel ih =>
    have hw := h.awaited hc
    have hread := uncrowded_iff_fresh hw hp
    rw [retryFailed, pagesRead]
    by_cases hf : (w.awaited consumers).fresh pageSize = []
    · have hz : ((w.awaited consumers).fresh pageSize).length = 0 := by
        rw [hf]
        rfl
      rw [if_pos hz, if_pos hz]
      refine ⟨_, rfl, hw, ?_⟩
      simp only [List.mem_singleton, forall_eq, hread, hf, true_implies]
    · have hl : ((w.awaited consumers).fresh pageSize).length ≠ 0 :=
        fun hz => hf (List.eq_nil_of_length_eq_zero hz)
      have hsub : ∀ id ∈ (w.awaited consumers).fresh pageSize,
          id ∈ (w.awaited consumers).unseen initial := by
        intro id hid
        rw [hw.fresh_eq hp] at hid
        exact List.mem_of_mem_take hid
      have hnodup : ((w.awaited consumers).fresh pageSize).Nodup := by
        rw [hw.fresh_eq hp]
        exact (hi.filter _).sublist (List.take_sublist _ _)
      obtain ⟨hw', hs⟩ := hw.retryAll hi hc hnodup hsub
      obtain ⟨first, hfirst⟩ := List.exists_mem_of_ne_nil _ hf
      have hless := unseen_lt hs (hsub first hfirst) hfirst
      change _ < (w.unseen initial).length at hless
      rw [if_neg hl, if_neg hl]
      obtain ⟨final, hfinal, hwalk, hiff⟩ := ih hw' (by omega)
      refine ⟨final, hfinal, hwalk, hiff.trans ?_⟩
      rw [List.forall_mem_cons, hread]
      simp only [hf, false_implies, true_and]

theorem retriedAll_iff (hi : initial.Nodup) (h : Walking initial w) :
    w.RetriedAll initial ↔ w.unseen initial = [] := by
  have hempty : w.unseen initial = [] ↔ ∀ id ∈ initial, id ∈ w.seen := by
    simp only [List.eq_nil_iff_forall_not_mem, mem_unseen, not_and, not_not]
  rw [hempty]
  refine ⟨?_, fun hall => ⟨?_, ?_⟩⟩
  · intro hr id hid
    apply h.retried.subset
    apply List.count_pos_iff.1
    rw [hr.2 id hid]
    exact Nat.one_pos
  · have hperm : w.seen.Perm initial :=
      (List.perm_ext_iff_of_nodup h.seen hi).2 fun id => ⟨h.known id, hall id⟩
    exact hperm.length_eq
  · intro id hid
    rw [h.retried.count_eq]
    exact List.count_eq_one_of_mem h.seen (hall id hid)

/-- A bulk retry returns. It retries the whole set once and answers with its size exactly when,
at each page read with jobs left, those that failed again do not fill the page. -/
theorem retryFailed_iff (queue : JobQueue JobId) (consumers : Consumers JobId)
    (hi : queue.failed.Nodup) (hw : ∀ id ∈ queue.failed, id ∉ queue.waiting)
    (hc : ∀ n, ∀ id ∈ consumers n, id ∈ queue.failed) (hp : 1 ≤ pageSize)
    (hfuel : queue.failed.length < fuel) :
    ∃ final, retryFailed consumers pageSize fuel (.start queue) = some final ∧
      final.retried.Nodup ∧ (∀ id ∈ final.retried, id ∈ queue.failed) ∧
      (final.RetriedAll queue.failed ↔
        ∀ w ∈ pagesRead consumers pageSize fuel (.start queue),
          w.Uncrowded queue.failed pageSize) := by
  have hstart := Walking.start hw
  have hunseen : ((RetryWalk.start queue).unseen queue.failed).length < fuel :=
    Nat.lt_of_le_of_lt (List.length_filter_le _ _) hfuel
  obtain ⟨final, hfinal, hwalk, hiff⟩ := retryFailed_walking hi hp hc hstart hunseen
  refine ⟨final, hfinal, ?_, ?_, (retriedAll_iff hi hwalk).trans hiff⟩
  · exact hwalk.retried.nodup_iff.2 hwalk.seen
  · intro id hid
    exact hwalk.known id (hwalk.retried.subset hid)

/-- Two failed jobs, of which the newer fails again as soon as it is retried. -/
def poisonedQueue : JobQueue Nat := ⟨[], [], [2, 1]⟩

def poisonedConsumers : Consumers Nat := fun operation => if operation = 2 then [2] else []

/-- With a page of one the second read finds only the job that failed again, and stops. -/
theorem older_job_left_behind :
    retryFailed poisonedConsumers 1 3 (.start poisonedQueue) =
        some ⟨⟨[], [], [2, 1]⟩, 3, [2], [2]⟩ ∧
      ¬ RetryWalk.RetriedAll [2, 1] ⟨⟨[], [], [2, 1]⟩, 3, [2], [2]⟩ := by
  refine ⟨by decide, fun h => ?_⟩
  cases h.1

theorem retryFailed_iff_quiet :
    ∃ final, retryFailed (fun _ => []) 1 3 (.start poisonedQueue) = some final ∧
      final.retried.Nodup ∧ (∀ id ∈ final.retried, id ∈ [2, 1]) ∧
      (final.RetriedAll [2, 1] ↔
        ∀ w ∈ pagesRead (fun _ => []) 1 3 (.start poisonedQueue), w.Uncrowded [2, 1] 1) :=
  retryFailed_iff poisonedQueue (fun _ => []) (by decide) (by decide)
    (fun _ _ h => absurd h List.not_mem_nil) (by decide) (by decide)

end EventQueue

end PromotionManagement
