import PromotionManagement.PromotionAnnouncer

namespace PromotionManagement
open Library PromotionScheduler PromotionAnnouncer
set_option autoImplicit true

/-- The jobs an active promotion is due at an instant of the database. -/
def dueJobs (promotion : AdminPromotionView) (now : Int) : List QueueOperation :=
  (if promotion.startsAt ≤ now then [.publish promotion.id none] else []) ++
    .publish promotion.id (some (options promotion.id .expire promotion.endsAt now)) ::
    if promotion.startsAt > now then
      [.publish promotion.id (some (options promotion.id .activate promotion.startsAt now))]
    else []

/-- The instant a boundary of a promotion falls on. -/
def AdminPromotionView.instant (promotion : AdminPromotionView) : PromotionBoundary → Int
  | .activate => promotion.startsAt
  | .expire => promotion.endsAt

theorem options_of_due (h : .publish promotionId (some o) ∈ dueJobs promotion now) :
    ∃ boundary, o = options promotion.id boundary (promotion.instant boundary) now := by
  rw [dueJobs, List.mem_append, List.mem_cons] at h
  rcases h with h | h | h
  · split at h
    · cases List.mem_singleton.1 h
    · cases h
  · cases h
    exact ⟨.expire, rfl⟩
  · split at h
    · cases List.mem_singleton.1 h
      exact ⟨.activate, rfl⟩
    · cases h

/-- A delayed job is due no earlier than its boundary when it is added after `now`. -/
theorem le_due (h : now ≤ startedAt) (promotionId : Nat) (boundary : PromotionBoundary)
    (at' : Int) : at' ≤ startedAt + (options promotionId boundary at' now).delay := by
  simp only [options]
  omega

namespace PromotionAnnouncer

theorem settle_attempts (calls : List Nat) : (settle (Task.all calls)).Attempts [] := by
  intro ok
  cases ok with
  | true => rfl
  | false => rfl

theorem settle_scoped (h : ∀ i ∈ calls, i < n) : (settle (Task.all calls)).Scoped n := by
  refine ⟨h, fun ok => ?_⟩
  cases ok with
  | true => trivial
  | false => trivial

theorem discard_attempts (calls : List Nat) :
    (discard (settle (Task.all calls))).Attempts [] := by
  rw [← List.append_nil []]
  exact (settle_attempts calls).bind fun _ => rfl

theorem discard_scoped (h : ∀ i ∈ calls, i < n) :
    (discard (settle (Task.all calls))).Scoped n :=
  (settle_scoped h).bind (settle_attempts calls) fun _ => trivial

theorem announce_attempts (hactive : promotion.status = .active) (now : Int) :
    (announce promotion now).Attempts (dueJobs promotion now) := by
  rw [announce, if_neg (not_not.2 hactive), dueJobs]
  by_cases h : promotion.startsAt ≤ now
  · rw [if_pos h, if_pos h, if_neg (not_lt.2 h)]
    apply Task.attempts_call
    intro published
    apply (discard_attempts [published]).bind
    intro _
    apply Task.attempts_call
    intro expire
    exact discard_attempts [expire]
  · rw [if_neg h, if_neg h, if_pos (not_le.1 h)]
    apply Task.attempts_call
    intro expire
    apply Task.attempts_call
    intro activate
    exact (discard_attempts [expire]).bind fun _ => discard_attempts [activate]

/-- A promotion that is not active is not announced. -/
theorem announce_inactive (h : promotion.status ≠ .active) (now : Int) :
    announce promotion now = .done () := if_pos h

/-- A created promotion without a target is a draft, and is not announced; every other written
promotion is. -/
theorem announcing_attempts (newDate : Int → Int) (promotion : PromotionRow) (now : Int) :
    (announcing newDate (.ok promotion) now).Attempts
      (if promotion.status = .active then dueJobs (promotion.view newDate) (now / 1000)
      else []) := by
  split
  · rename_i hactive
    rw [← List.append_nil (dueJobs (promotion.view newDate) (now / 1000))]
    exact (announce_attempts hactive (now / 1000)).bind fun _ => rfl
  · rename_i hinactive
    rw [announcing, announce_inactive hinactive]
    rfl

theorem announce_scoped (promotion : AdminPromotionView) (now : Int) :
    (announce promotion now).Scoped 0 := by
  rw [announce]
  split
  · trivial
  · split
    · apply Task.scoped_call
      apply (discard_scoped (by simp)).bind (discard_attempts [0])
      intro _
      apply Task.scoped_call
      exact discard_scoped (by simp)
    · apply Task.scoped_call
      apply Task.scoped_call
      apply (discard_scoped (by simp)).bind (discard_attempts [0])
      intro _
      exact discard_scoped (by simp)

end PromotionAnnouncer

namespace QueueState

theorem clock_publish (s : QueueState) (startedAt : Int) (promotionId : Nat)
    (o : Option JobsOptions) : (s.publish startedAt promotionId o).clock = s.clock := by
  cases o with
  | none => rfl
  | some o =>
    rw [publish]
    split
    · rfl
    · rfl

theorem clock_apply (s : QueueState) (startedAt : Int) (op : QueueOperation) :
    (s.apply startedAt op).clock = s.clock := by
  cases op with
  | publish promotionId o => exact s.clock_publish startedAt promotionId o
  | remove jobId => rfl

theorem clock_act (s : QueueState) (e : QueueEvent) : s.clock ≤ (s.act e).clock := by
  cases e with
  | tick elapsed => exact Int.le_add_of_nonneg_right (Int.natCast_nonneg elapsed)
  | publish promotionId o => exact Int.le_of_eq (s.clock_publish s.clock promotionId o).symm
  | _ => exact Int.le_refl _

/-- A publication keeps the jobs that wait and the history. -/
theorem publish_keeps (s : QueueState) (startedAt : Int) (promotionId : Nat)
    (o : Option JobsOptions) :
    s.queue.jobs.waiting ⊆ (s.publish startedAt promotionId o).queue.jobs.waiting ∧
      s.enqueued ⊆ (s.publish startedAt promotionId o).enqueued := by
  cases o with
  | none => exact ⟨s.queue.waiting_enqueue _, List.subset_append_left _ _⟩
  | some o =>
    rw [publish]
    split
    · exact ⟨List.Subset.refl _, List.Subset.refl _⟩
    · exact ⟨s.queue.waiting_enqueue _, List.subset_append_left _ _⟩

theorem enqueued_apply (s : QueueState) (startedAt : Int) (op : QueueOperation) :
    s.enqueued ⊆ (s.apply startedAt op).enqueued := by
  cases op with
  | publish promotionId o => exact (s.publish_keeps startedAt promotionId o).2
  | remove jobId => exact List.Subset.refl _

theorem enqueued_act (s : QueueState) (e : QueueEvent) : s.enqueued ⊆ (s.act e).enqueued := by
  cases e with
  | publish promotionId o => exact (s.publish_keeps s.clock promotionId o).2
  | _ => exact List.Subset.refl _

/-- Only a removal, of the operations, takes a job away from those that wait. -/
theorem waiting_apply {s : QueueState} (h : held ∈ s.queue.jobs.waiting)
    (hop : ¬∃ removed, op = .remove removed) (startedAt : Int) :
    held ∈ (s.apply startedAt op).queue.jobs.waiting := by
  cases op with
  | publish promotionId o => exact (s.publish_keeps startedAt promotionId o).1 h
  | remove removed => exact absurd ⟨removed, rfl⟩ hop

theorem waiting_act {s : QueueState} (h : held ∈ s.queue.jobs.waiting)
    (he : ¬e.takes held) : held ∈ (s.act e).queue.jobs.waiting := by
  cases e with
  | tick elapsed => exact h
  | take taken => exact WorkedQueue.waiting_take h (Ne.symm he)
  | finish finished ok =>
    change held ∈ (s.queue.finish finished ok).jobs.waiting
    rw [WorkedQueue.waiting_finish]
    exact h
  | publish promotionId o => exact (s.publish_keeps s.clock promotionId o).1 h
  | remove removed => exact WorkedQueue.waiting_remove h (Ne.symm he)

end QueueState

/-- What is so of `announce` at any moment of any run: it has attempted the first of the due jobs,
and has attempted all when it is over; it throws nothing and can always end; and no delayed job it
has asked for is due before its boundary. -/
structure AnnouncesDue (promotion : AdminPromotionView) (now : Int)
    (s : Execution QueueState QueueOperation Int Unit) : Prop where
  attempts : s.attempted <+: dueJobs promotion now
  attempts_all : s.task = .done () → s.attempted = dueJobs promotion now
  throws_nothing : s.task ≠ .thrown
  ends : ∃ es, (run (Execution.step QueueState.backend) s es).task = .done ()
  punctual : ∀ call ∈ s.calls, ∀ promotionId o, call.op = .publish promotionId (some o) →
    ∃ boundary, o.jobId = jobId promotion.id boundary ∧
      promotion.instant boundary ≤ call.startedAt + o.delay

theorem announces_due (hactive : promotion.status = .active) (now : Int) (elapsed : Nat)
    (queue : WorkedQueue Text) (counter : Nat) (es : List (TaskEvent QueueEvent)) :
    AnnouncesDue promotion now (run (Execution.step QueueState.backend)
      (.start (announce promotion now) (.opened queue counter (now + elapsed))) es) := by
  have hattempts := announce_attempts hactive now
  have hattempting := Execution.attempting_run QueueState.backend hattempts
    (.opened queue counter (now + elapsed)) es
  have hsound := Execution.sound_run QueueState.backend (announce_scoped promotion now)
    (.opened queue counter (now + elapsed)) es
  have hstarted := Execution.startedAt_run (P := fun t => now ≤ t) QueueState.backend
    (announce promotion now) (.opened queue counter (now + elapsed))
    (fun s t op h => h.trans_eq (s.clock_apply t op).symm) (fun s e h => h.trans (s.clock_act e))
    (Int.le_add_of_nonneg_right (Int.natCast_nonneg elapsed)) es
  have hprefix := hattempting
  obtain ⟨rest, _, hops⟩ := hprefix
  refine ⟨⟨rest, hops⟩, fun hdone => hattempting.attempted_of_done hdone, hattempting.not_thrown,
    ?_, ?_⟩
  · obtain ⟨fs, hover⟩ := Execution.can_end QueueState.backend _ hsound.inScope
    have hend := Execution.attempting_run QueueState.backend hattempts
      (.opened queue counter (now + elapsed)) (es ++ fs)
    rw [run_append] at hend
    exact ⟨fs, (hend.done_of_over hover).choose_spec⟩
  · intro call hcall promotionId o hop
    have hmem : call.op ∈ dueJobs promotion now := by
      rw [← hops]
      exact List.mem_append_left _ (List.mem_map_of_mem hcall)
    rw [hop] at hmem
    obtain ⟨boundary, rfl⟩ := options_of_due hmem
    exact ⟨boundary, rfl, le_due (hstarted call hcall) _ _ _⟩

namespace PromotionAnnouncer

/-- The removals, among the operations on the queue. -/
def IsRemoval (op : QueueOperation) : Prop := ∃ removed, op = .remove removed

theorem cancellation_scoped (promotionId : Nat) :
    (announceCancellation promotionId).Scoped 0 := by
  refine ⟨by simp, fun ok => ?_⟩
  cases ok with
  | false => trivial
  | true =>
    refine ⟨by simp, fun ok => ?_⟩
    cases ok with
    | false => trivial
    | true => trivial

/-- The fallback jobs are removed only behind the publication. -/
theorem cancellation_behind (promotionId : Nat) :
    (announceCancellation promotionId).StartsBehind IsRemoval 0 0 := by
  refine ⟨?_, trivial, .inl (List.mem_singleton.2 rfl)⟩
  rintro ⟨removed, h⟩
  cases h

end PromotionAnnouncer

/-- An announcement that has landed is a job of the queue, due at once. -/
def Enqueued (s : QueueState) (startedAt : Int) (op : QueueOperation) : Prop :=
  ∀ promotionId, op = .publish promotionId none →
    ∃ job ∈ s.enqueued, job.promotionId = promotionId ∧ job.dueAt = startedAt

theorem Enqueued.mono {s s' : QueueState} (h : Enqueued s startedAt op)
    (hs : s.enqueued ⊆ s'.enqueued) : Enqueued s' startedAt op := by
  intro promotionId hop
  obtain ⟨job, hjob, hid, hdue⟩ := h promotionId hop
  exact ⟨job, hs hjob, hid, hdue⟩

theorem Enqueued.apply (s : QueueState) (startedAt : Int) (op : QueueOperation) :
    Enqueued (s.apply startedAt op) startedAt op := by
  rintro promotionId rfl
  exact ⟨_, List.mem_append_right _ (List.mem_singleton.2 rfl), rfl, rfl⟩

/-- A cancellation is announced, or takes no fallback job away: in every run, the publication has
landed, or each job that waited still waits, unless it was taken by someone else. -/
theorem cancellation_kept {p : Promotions} {id : Nat}
    (hcancel : (p.cancel id now).2 = some (row, true)) (queue : WorkedQueue Text)
    (counter : Nat) (clock : Int) (es : List (TaskEvent QueueEvent)) :
    let s := run (Execution.step QueueState.backend)
      (.start (CancelPromotionCommand.execute p id now).2 (.opened queue counter clock)) es
    (∃ job ∈ s.store.enqueued, job.promotionId = id) ∨
      ∀ held ∈ queue.jobs.waiting,
        (∃ e, .act e ∈ es ∧ e.takes held) ∨ held ∈ s.store.queue.jobs.waiting := by
  have htask : (CancelPromotionCommand.execute p id now).2 =
      (do PromotionAnnouncer.announceCancellation id; pure row) := by
    rw [CancelPromotionCommand.execute]
    generalize p.cancel id now = out at hcancel
    obtain ⟨p', outcome⟩ := out
    cases hcancel
    rfl
  rw [htask]
  intro s
  have hlanded := Execution.landed_run QueueState.backend
    (do announceCancellation id; pure row) (.opened queue counter clock) Enqueued.apply
    (fun store t op t' op' h => h.mono (store.enqueued_apply t' op'))
    (fun store t op e h => h.mono (store.enqueued_act e)) es
  rcases Execution.landed_behind QueueState.backend ((cancellation_scoped id).bind_pure _)
    ((cancellation_behind id).bind_pure fun _ => row) (.opened queue counter clock) es with
    ⟨call, hcall, hland⟩ | hnone
  · left
    have hop := Execution.first_call QueueState.backend (.publish id none) _ _ es hcall
    obtain ⟨job, hjob, hid, _⟩ := hlanded call (List.mem_of_getElem? hcall) hland id hop
    exact ⟨job, hjob, hid⟩
  · right
    intro held hheld
    by_cases htaken : ∃ e, .act e ∈ es ∧ QueueEvent.takes held e
    · exact .inl htaken
    · right
      have hholds := Execution.holds_run (Q := fun store => held ∈ store.queue.jobs.waiting)
        QueueState.backend (do announceCancellation id; pure row) (.opened queue counter clock)
        IsRemoval (fun e => ¬QueueEvent.takes held e)
        (fun store t op hop h => QueueState.waiting_apply h hop t)
        (fun store e he h => QueueState.waiting_act h he) hheld
        (fun e he htakes => htaken ⟨e, he, htakes⟩)
      exact hholds.resolve_left fun ⟨op, hop, hremoval⟩ => hnone op hop hremoval

/-- An active promotion has exactly its due jobs attempted, whatever becomes of each, and another
promotion none. A cancellation is announced, or leaves the jobs of the boundaries where they are. -/
theorem announcements_fail_independently (promotion : AdminPromotionView) (now : Int)
    (elapsed : Nat) (queue : WorkedQueue Text) (counter : Nat) (es : List (TaskEvent QueueEvent)) :
    (promotion.status = .active →
      AnnouncesDue promotion now (run (Execution.step QueueState.backend)
        (.start (announce promotion now) (.opened queue counter (now + elapsed))) es)) ∧
    (promotion.status ≠ .active → announce promotion now = .done ()) ∧
    ∀ (p : Promotions) (id : Nat) (committedAt clock : Int) (row : PromotionRow),
      (p.cancel id committedAt).2 = some (row, true) →
      let s := run (Execution.step QueueState.backend)
        (.start (CancelPromotionCommand.execute p id committedAt).2
          (.opened queue counter clock)) es
      (∃ job ∈ s.store.enqueued, job.promotionId = id) ∨
        ∀ boundary, jobId id boundary ∈ queue.jobs.waiting →
          (∃ e, .act e ∈ es ∧ e.takes (jobId id boundary)) ∨
            jobId id boundary ∈ s.store.queue.jobs.waiting := by
  refine ⟨?_, fun h => announce_inactive h now, ?_⟩
  · intro h
    exact announces_due h now elapsed queue counter es
  · intro p id committedAt clock row hcancel
    rcases cancellation_kept hcancel queue counter clock es with h | h
    · exact .inl h
    · exact .inr fun boundary hheld => h _ hheld

def draftSale : AdminPromotionView := ⟨1, .draft, 1000, 2000⟩

/-- A draft has no `expire` job: `announce` returns at once. -/
theorem draft_not_announced :
    ¬ AnnouncesDue draftSale 0 (run (Execution.step QueueState.backend)
      (.start (announce draftSale 0) (.opened ⟨.empty, []⟩ 0 0)) []) := by
  intro h
  cases h.attempts_all rfl

end PromotionManagement
