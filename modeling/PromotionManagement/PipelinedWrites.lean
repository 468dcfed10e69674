import PromotionManagement.LastReadWins
import PromotionManagement.StorefrontInvariant

namespace PromotionManagement
open Library
set_option autoImplicit true

/-- What a reply is pushed as: `undefined` when the script applied, and the token that beat it when
it did not. -/
def ScriptReply.storedToken : ScriptReply → Option Text
  | .refused token => some token
  | _ => none

namespace ProductWriteRepository

/-- The `CHUNK` of calls that one pipeline sends. -/
def chunk : Nat := 1000

/-- The replies to the calls of a pipeline. A script of it runs once those of other clients that
come before it have; a script that fails does not keep the rest from running. -/
def exec (others : Nat → List ReadModelOp) :
    Nat → ReadModel → List ReadModelOp → ReadModel × List ScriptReply
  | _, db, [] => (db, [])
  | n, db, call :: calls =>
    let (db, reply) := call.run (run execute db (others n))
    let (db, replies) := exec others (n + 1) db calls
    (db, reply :: replies)

/-- The loop over the replies, which throws the first error it meets. -/
def push (applied : List (Option Text)) : List ScriptReply → Option (List (Option Text))
  | [] => some applied
  | .raised :: _ => none
  | reply :: replies => push (applied ++ [reply.storedToken]) replies

/-- One pipeline for every thousand calls. `none` is the error that was thrown. -/
def appliedAll (others : Nat → List ReadModelOp) (n : Nat) (db : ReadModel)
    (applied : List (Option Text)) (calls : List ReadModelOp) :
    ReadModel × Option (List (Option Text)) :=
  match calls with
  | [] => (db, some applied)
  | call :: calls =>
    let (db, replies) := exec others n db ((call :: calls).take chunk)
    match push applied replies with
    | none => (db, none)
    | some applied => appliedAll others (n + replies.length) db applied ((call :: calls).drop chunk)
termination_by calls.length
decreasing_by
  rw [List.length_drop, List.length_cons, chunk]
  omega

def writeAll (others : Nat → List ReadModelOp) (n : Nat) (db : ReadModel)
    (entries : List ProductEntry) (sourceReadAt : Nat) : ReadModel × Option (List (Option Text)) :=
  appliedAll others n db [] (entries.map fun entry => .write entry sourceReadAt)

def removeAll (others : Nat → List ReadModelOp) (n : Nat) (db : ReadModel) (ids : List Nat)
    (sourceReadAt : Nat) : ReadModel × Option (List (Option Text)) :=
  appliedAll others n db [] (ids.map fun id => .remove id sourceReadAt)

/-- The scripts that Redis runs, those of other clients among them. -/
def interleaved (others : Nat → List ReadModelOp) : Nat → List ReadModelOp → List ReadModelOp
  | _, [] => []
  | n, call :: calls => others n ++ call :: interleaved others (n + 1) calls

section
variable {others : Nat → List ReadModelOp} {n : Nat} {db : ReadModel} {calls : List ReadModelOp}

theorem exec_length (others : Nat → List ReadModelOp) (n : Nat) (db : ReadModel)
    (calls : List ReadModelOp) : (exec others n db calls).2.length = calls.length := by
  induction calls generalizing n db with
  | nil => rfl
  | cons call calls ih => exact congrArg (· + 1) (ih _ _)

theorem exec_fst (others : Nat → List ReadModelOp) (n : Nat) (db : ReadModel)
    (calls : List ReadModelOp) :
    (exec others n db calls).1 = run execute db (interleaved others n calls) := by
  induction calls generalizing n db with
  | nil => rfl
  | cons call calls ih =>
    rw [interleaved, run_append, run_cons]
    exact ih _ _

theorem interleaved_valid (hothers : ∀ n, ∀ op ∈ others n, op.Valid)
    (hcalls : ∀ op ∈ calls, op.Valid) (n : Nat) : ∀ op ∈ interleaved others n calls, op.Valid := by
  induction calls generalizing n with
  | nil => exact fun op hop => absurd hop List.not_mem_nil
  | cons call calls ih =>
    rw [List.forall_mem_cons] at hcalls
    intro op hop
    rcases List.mem_append.1 hop with hop | hop
    · exact hothers n op hop
    · rcases List.mem_cons.1 hop with rfl | hop
      · exact hcalls.1
      · exact ih hcalls.2 (n + 1) op hop

/-- Two pipelines run as one does. -/
theorem exec_append (others : Nat → List ReadModelOp) (n : Nat) (db : ReadModel)
    (calls more : List ReadModelOp) :
    exec others n db (calls ++ more) =
      ((exec others (n + calls.length) (exec others n db calls).1 more).1,
        (exec others n db calls).2 ++
          (exec others (n + calls.length) (exec others n db calls).1 more).2) := by
  induction calls generalizing n db with
  | nil => rfl
  | cons call calls ih =>
    rw [List.cons_append, exec, exec]
    dsimp only
    rw [ih, List.length_cons, Nat.add_assoc, Nat.add_comm 1]
    rfl

theorem push_raised {replies : List ScriptReply} (h : .raised ∈ replies)
    (applied : List (Option Text)) : push applied replies = none := by
  induction replies generalizing applied with
  | nil => cases h
  | cons reply replies ih =>
    cases reply with
    | raised => rfl
    | applied => exact ih ((List.mem_cons.1 h).resolve_left ScriptReply.noConfusion) _
    | refused token => exact ih ((List.mem_cons.1 h).resolve_left ScriptReply.noConfusion) _

theorem push_eq {replies : List ScriptReply} (h : .raised ∉ replies)
    (applied : List (Option Text)) :
    push applied replies = some (applied ++ replies.map ScriptReply.storedToken) := by
  induction replies generalizing applied with
  | nil => rw [push, List.map_nil, List.append_nil]
  | cons reply replies ih =>
    rw [List.mem_cons, not_or] at h
    have hpush := ih h.2 (applied ++ [reply.storedToken])
    rw [List.append_assoc, List.singleton_append] at hpush
    cases reply with
    | raised => exact absurd rfl h.1
    | applied => exact hpush
    | refused token => exact hpush

theorem length_take_of_drop (h : calls.drop chunk ≠ []) : (calls.take chunk).length = chunk := by
  rw [List.length_take, Nat.min_eq_left]
  rw [ne_eq, List.drop_eq_nil_iff, not_le] at h
  exact h.le

/-- Whatever the store holds: every call is answered as if one pipeline had sent them all, or an
error is thrown, once the pipeline with the first script that fails has run, and none after it. -/
theorem appliedAll_cases (others : Nat → List ReadModelOp) (n : Nat) (db : ReadModel)
    (applied : List (Option Text)) (calls : List ReadModelOp) :
    (.raised ∉ (exec others n db calls).2 ∧ appliedAll others n db applied calls =
      ((exec others n db calls).1,
        some (applied ++ (exec others n db calls).2.map ScriptReply.storedToken))) ∨
    ∃ whole last rest, calls = whole ++ last ++ rest ∧ chunk ∣ whole.length ∧
      last.length ≤ chunk ∧ (rest ≠ [] → last.length = chunk) ∧
      .raised ∉ (exec others n db whole).2 ∧
      .raised ∈ (exec others (n + whole.length) (exec others n db whole).1 last).2 ∧
      appliedAll others n db applied calls = ((exec others n db (whole ++ last)).1, none) := by
  induction n, db, applied, calls using appliedAll.induct others with
  | case1 n db applied =>
    left
    refine ⟨List.not_mem_nil, ?_⟩
    rw [appliedAll, exec, List.map_nil, List.append_nil]
  | case2 n db applied call calls db' replies hexec hpush =>
    right
    refine ⟨[], (call :: calls).take chunk, (call :: calls).drop chunk, ?_, Nat.dvd_zero _,
      List.length_take_le _ _, length_take_of_drop, List.not_mem_nil, ?_, ?_⟩
    · rw [List.nil_append, List.take_append_drop]
    · change _ ∈ (exec others n db ((call :: calls).take chunk)).2
      rw [hexec]
      by_contra hnone
      rw [push_eq hnone] at hpush
      cases hpush
    · rw [appliedAll, List.nil_append, hexec]
      dsimp only
      rw [hpush]
  | case3 n db applied call calls db' replies hexec applied' hpush ih =>
    have hlength : replies.length = ((call :: calls).take chunk).length := by
      rw [← exec_length others n db, hexec]
    have hloop : appliedAll others n db applied (call :: calls) =
        appliedAll others (n + replies.length) db' applied' ((call :: calls).drop chunk) := by
      rw [appliedAll, hexec]
      dsimp only
      rw [hpush]
    have hexec_append (more : List ReadModelOp) :
        exec others n db ((call :: calls).take chunk ++ more) =
          ((exec others (n + replies.length) db' more).1,
            replies ++ (exec others (n + replies.length) db' more).2) := by
      rw [exec_append, hexec, hlength]
    have hnew : .raised ∉ replies := by
      intro h
      rw [push_raised h] at hpush
      cases hpush
    rw [push_eq hnew] at hpush
    cases hpush
    rcases ih with ⟨hanswers, he⟩ |
      ⟨whole, last, rest, hsplit, hdvd, hle, hfull, hnone, hraised, he⟩
    · have hall := hexec_append ((call :: calls).drop chunk)
      rw [List.take_append_drop] at hall
      left
      rw [hloop, he, hall, List.mem_append, not_or, List.map_append, List.append_assoc]
      exact ⟨⟨hnew, hanswers⟩, rfl⟩
    · have hrest : (call :: calls).drop chunk ≠ [] := by
        intro hnil
        rw [hnil] at hsplit
        have hlast := List.append_eq_nil_iff.1 (List.append_eq_nil_iff.1 hsplit.symm).1
        rw [hlast.2] at hraised
        exact absurd hraised List.not_mem_nil
      right
      refine ⟨(call :: calls).take chunk ++ whole, last, rest, ?_, ?_, hle, hfull, ?_, ?_, ?_⟩
      · rw [List.append_assoc, List.append_assoc, ← List.append_assoc whole, ← hsplit,
          List.take_append_drop]
      · rw [List.length_append, length_take_of_drop hrest]
        exact Nat.dvd_add (Nat.dvd_refl chunk) hdvd
      · rw [hexec_append, List.mem_append]
        rintro (h | h)
        · exact hnew h
        · exact hnone h
      · rw [hexec_append, List.length_append, ← hlength, ← Nat.add_assoc]
        exact hraised
      · rw [hloop, he, List.append_assoc, hexec_append]

/-- How a script on a product ends, where it holds the newest operation so far. -/
def replyTo (held : Option ReadModelOp) (op : ReadModelOp) : ScriptReply :=
  match held with
  | none => .applied
  | some b =>
    if b.sourceReadAt < op.sourceReadAt then .applied
    else .refused (Nat.toDigits 10 b.sourceReadAt)

theorem replyTo_ne_raised (held : Option ReadModelOp) (op : ReadModelOp) :
    replyTo held op ≠ .raised := by
  cases held with
  | none => exact ScriptReply.noConfusion
  | some b =>
    rw [replyTo]
    split <;> exact ScriptReply.noConfusion

theorem run_reply {op : ReadModelOp} {held : Option ReadModelOp} (hv : op.Valid)
    (hheld : ∀ b, held = some b → b.Valid) (h : Holds db op.productId held) :
    (op.run db).2 = replyTo held op := by
  rw [run_eq hv hheld h.token]
  cases held with
  | none => rfl
  | some b =>
    rw [replyTo]
    dsimp only
    split <;> rfl

/-- The operations that are there when the next call after some others runs. -/
def heldBefore (others : Nat → List ReadModelOp) (done : List ReadModelOp) (n : Nat)
    (calls : List ReadModelOp) : List ReadModelOp :=
  done ++ interleaved others n calls ++ others (n + calls.length)

/-- Of valid scripts, each is answered with what the newest before it makes of it. -/
theorem exec_represents (h : Represents db done) (hdone : ∀ op ∈ done, op.Valid)
    (hothers : ∀ n, ∀ op ∈ others n, op.Valid) (hcalls : ∀ op ∈ calls, op.Valid) (n : Nat) :
    Represents (exec others n db calls).1 (done ++ interleaved others n calls) ∧
      ∀ i op, calls[i]? = some op → (exec others n db calls).2[i]? =
        some (replyTo (newestOp (heldBefore others done n (calls.take i)) op.productId) op) := by
  induction calls generalizing n db done with
  | nil =>
    refine ⟨?_, fun i op hi => absurd hi (Option.some_ne_none op).symm⟩
    rw [interleaved, List.append_nil]
    exact h
  | cons call calls ih =>
    rw [List.forall_mem_cons] at hcalls
    have hbefore := h.run hdone (hothers n)
    have hvalid (op : ReadModelOp) (hop : op ∈ done ++ others n) : op.Valid :=
      (List.mem_append.1 hop).elim (hdone op) (hothers n op)
    have hreply : (call.run (run execute db (others n))).2 =
        replyTo (newestOp (done ++ others n) call.productId) call :=
      run_reply hcalls.1 (fun b hb => hvalid b (newest_mem hb).1)
        (hbefore.holds call.productId)
    have hvalid' (op : ReadModelOp) (hop : op ∈ done ++ others n ++ [call]) : op.Valid :=
      (List.mem_append.1 hop).elim (hvalid op) fun hop => List.mem_singleton.1 hop ▸ hcalls.1
    have happend (ops : List ReadModelOp) :
        done ++ (others n ++ call :: ops) = done ++ others n ++ [call] ++ ops := by
      simp only [List.append_assoc, List.singleton_append]
    obtain ⟨hrest, hreplies⟩ := ih (hbefore.execute hvalid hcalls.1) hvalid' hcalls.2 (n + 1)
    refine ⟨?_, ?_⟩
    · rw [interleaved, happend]
      exact hrest
    · intro i op hi
      cases i with
      | zero =>
        cases hi
        rw [List.take_zero, heldBefore, interleaved, List.append_nil]
        exact congrArg some hreply
      | succ i =>
        have hn : n + ((calls.take i).length + 1) = n + 1 + (calls.take i).length := by omega
        rw [List.take_succ_cons, heldBefore, interleaved, happend, List.length_cons, hn]
        exact hreplies i op hi

theorem not_raised (h : Represents db done) (hdone : ∀ op ∈ done, op.Valid)
    (hothers : ∀ n, ∀ op ∈ others n, op.Valid) (hcalls : ∀ op ∈ calls, op.Valid) (n : Nat) :
    .raised ∉ (exec others n db calls).2 := by
  intro hraised
  obtain ⟨i, hi, hget⟩ := List.mem_iff_getElem.1 hraised
  have hlt : i < calls.length := exec_length others n db calls ▸ hi
  have hreply := (exec_represents h hdone hothers hcalls n).2 i _ (List.getElem?_eq_getElem hlt)
  rw [List.getElem?_eq_getElem hi, hget] at hreply
  exact replyTo_ne_raised _ _ (Option.some.inj hreply).symm

/-- Valid calls are all answered, as if one pipeline had sent them. -/
theorem appliedAll_eq (h : Represents db done) (hdone : ∀ op ∈ done, op.Valid)
    (hothers : ∀ n, ∀ op ∈ others n, op.Valid) (hcalls : ∀ op ∈ calls, op.Valid) (n : Nat) :
    appliedAll others n db [] calls = ((exec others n db calls).1,
      some ((exec others n db calls).2.map ScriptReply.storedToken)) := by
  have hnone := not_raised h hdone hothers hcalls n
  rcases appliedAll_cases others n db [] calls with ⟨_, he⟩ |
    ⟨whole, last, rest, rfl, _, _, _, _, hraised, _⟩
  · exact he
  · refine absurd ?_ hnone
    rw [exec_append, exec_append]
    exact List.mem_append_left _ (List.mem_append_right _ hraised)

end

end ProductWriteRepository

end PromotionManagement
