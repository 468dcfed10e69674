import PromotionManagement.Library.Run
import Mathlib.Data.List.Induction

namespace PromotionManagement.Library
set_option autoImplicit true

/-- An `async` function. It starts operations without waiting for them, and awaits calls it has
started, which tells it whether all of them were fulfilled or one was rejected. -/
inductive Task (ω α : Type) where
  | done (result : α)
  | thrown
  | start (op : ω) (next : Nat → Task ω α)
  | await (calls : List Nat) (next : Bool → Task ω α)

namespace Task

def bind : Task ω α → (α → Task ω β) → Task ω β
  | done result, f => f result
  | thrown, _ => thrown
  | start op next, f => start op fun call => (next call).bind f
  | await calls next, f => await calls fun ok => (next ok).bind f

instance : Monad (Task ω) where
  pure := done
  bind := bind

/-- `try { ... } catch { ... }` -/
def catching : Task ω α → Task ω α → Task ω α
  | done result, _ => done result
  | thrown, handler => handler
  | start op next, handler => start op fun call => (next call).catching handler
  | await calls next, handler => await calls fun ok => (next ok).catching handler

/-- A call of an operation, which answers with its promise. -/
def call (op : ω) : Task ω Nat := start op done

/-- `await Promise.all(calls)` -/
def all (calls : List Nat) : Task ω Unit := await calls fun ok => if ok then done () else thrown

/-- Whatever its calls come to, a task starts these operations, in this order, and ends. -/
def Attempts : Task ω α → List ω → Prop
  | done _, ops => ops = []
  | thrown, _ => False
  | start op next, ops => ∃ rest, ops = op :: rest ∧ ∀ call, (next call).Attempts rest
  | await _ next, ops => ∀ ok, (next ok).Attempts ops

/-- A task awaits only calls that it has started, of which there are `n`. -/
def Scoped : Task ω α → Nat → Prop
  | done _, _ => True
  | thrown, _ => True
  | start _ next, n => (next n).Scoped (n + 1)
  | await calls next, n => (∀ i ∈ calls, i < n) ∧ ∀ ok, (next ok).Scoped n

/-- A task that has started `n` calls starts operations of a kind only once it has seen one of its
calls fulfilled. -/
def StartsBehind (kind : ω → Prop) (i : Nat) : Task ω α → Nat → Prop
  | done _, _ => True
  | thrown, _ => True
  | start op next, n => ¬kind op ∧ (next n).StartsBehind kind i (n + 1)
  | await calls next, n => (next false).StartsBehind kind i n ∧
      (i ∈ calls ∨ (next true).StartsBehind kind i n)

/-- A task is over, by ending or by throwing. -/
def Over : Task ω α → Prop
  | done _ => True
  | thrown => True
  | _ => False

theorem Attempts.bind {t : Task ω α} {f : α → Task ω β} (ht : t.Attempts ops)
    (hf : ∀ result, (f result).Attempts ops') : (t >>= f).Attempts (ops ++ ops') := by
  change (t.bind f).Attempts (ops ++ ops')
  induction t generalizing ops with
  | done result =>
    rw [show ops = [] from ht]
    exact hf result
  | thrown => exact absurd ht id
  | start op next ih =>
    obtain ⟨rest, rfl, hnext⟩ := ht
    exact ⟨rest ++ ops', rfl, fun call => ih call (hnext call)⟩
  | await calls next ih => exact fun ok => ih ok (ht ok)

theorem attempts_call {f : Nat → Task ω α} (hf : ∀ i, (f i).Attempts ops) :
    (call op >>= f).Attempts (op :: ops) := ⟨ops, rfl, hf⟩

theorem Scoped.bind {t : Task ω α} {f : α → Task ω β} (ht : t.Scoped n) (ha : t.Attempts ops)
    (hf : ∀ result, (f result).Scoped (n + ops.length)) : (t >>= f).Scoped n := by
  change (t.bind f).Scoped n
  induction t generalizing n ops with
  | done result =>
    rw [show ops = [] from ha] at hf
    exact hf result
  | thrown => exact trivial
  | start op next ih =>
    obtain ⟨rest, rfl, hnext⟩ := ha
    refine ih n ht (hnext n) ?_
    intro result
    rw [Nat.add_assoc, Nat.add_comm 1]
    exact hf result
  | await calls next ih => exact ⟨ht.1, fun ok => ih ok (ht.2 ok) (ha ok) hf⟩

/-- What goes on after a task without a call of its own stays in scope. -/
theorem Scoped.bind_pure {t : Task ω α} (ht : t.Scoped n) (f : α → β) :
    (t >>= fun result => pure (f result)).Scoped n := by
  change (t.bind fun result => done (f result)).Scoped n
  induction t generalizing n with
  | done result => exact trivial
  | thrown => exact trivial
  | start op next ih => exact ih n ht
  | await calls next ih => exact ⟨ht.1, fun ok => ih ok (ht.2 ok)⟩

theorem StartsBehind.bind_pure {t : Task ω α} (ht : t.StartsBehind kind i n) (f : α → β) :
    (t >>= fun result => pure (f result)).StartsBehind kind i n := by
  change (t.bind fun result => done (f result)).StartsBehind kind i n
  induction t generalizing n with
  | done result => exact trivial
  | thrown => exact trivial
  | start op next ih => exact ⟨ht.1, ih n ht.2⟩
  | await calls next ih => exact ⟨ih false ht.1, ht.2.imp_right (ih true)⟩

theorem scoped_call {f : Nat → Task ω α} (hf : (f n).Scoped (n + 1)) :
    (call op >>= f).Scoped n := hf

end Task

/-- A call: it may land, and its promise may settle, in that order or not at all; only a rejected
one may land later, or never. -/
structure Call (ω τ : Type) where
  op : ω
  startedAt : τ
  landed : Bool
  settled : Option Bool

/-- What operations work on: the clock, an operation that lands, and whatever else goes on. -/
structure Backend (σ ω τ ε : Type) where
  clock : σ → τ
  apply : σ → τ → ω → σ
  act : σ → ε → σ

structure Execution (σ ω τ α : Type) where
  task : Task ω α
  calls : List (Call ω τ)
  store : σ

inductive TaskEvent (ε : Type) where
  | run
  | land (i : Nat)
  | settle (i : Nat) (ok : Bool)
  | act (e : ε)

namespace Execution

def start (task : Task ω α) (store : σ) : Execution σ ω τ α := ⟨task, [], store⟩

/-- The operations called so far. -/
def attempted (s : Execution σ ω τ α) : List ω := s.calls.map Call.op

/-- `Promise.all` is rejected by its first rejection, and fulfilled when all its calls are. -/
def awaited (s : Execution σ ω τ α) (calls : List Nat) : Option Bool :=
  let settled (i : Nat) : Option Bool := (s.calls[i]?).bind Call.settled
  if calls.any fun i => settled i = some false then some false
  else if calls.all fun i => settled i = some true then some true
  else none

/-- The task runs on to its next call, or past what it awaits. -/
def advance (B : Backend σ ω τ ε) (s : Execution σ ω τ α) : Execution σ ω τ α :=
  match s.task with
  | .start op next =>
    { s with
      task := next s.calls.length
      calls := s.calls ++ [⟨op, B.clock s.store, false, none⟩] }
  | .await calls next =>
    match s.awaited calls with
    | some ok => { s with task := next ok }
    | none => s
  | _ => s

def land (B : Backend σ ω τ ε) (s : Execution σ ω τ α) (i : Nat) : Execution σ ω τ α :=
  match s.calls[i]? with
  | some call =>
    if call.landed then s
    else
      { s with
        calls := s.calls.set i { call with landed := true }
        store := B.apply s.store call.startedAt call.op }
  | none => s

/-- A promise settles once, and is fulfilled only by an answer, which follows the landing. -/
def settle (s : Execution σ ω τ α) (i : Nat) (ok : Bool) : Execution σ ω τ α :=
  match s.calls[i]? with
  | some call =>
    if call.settled.isSome || (ok && !call.landed) then s
    else { s with calls := s.calls.set i { call with settled := some ok } }
  | none => s

def step (B : Backend σ ω τ ε) (s : Execution σ ω τ α) : TaskEvent ε → Execution σ ω τ α
  | .run => s.advance B
  | .land i => s.land B i
  | .settle i ok => s.settle i ok
  | .act e => { s with store := B.act s.store e }

/-- What a step can make of an execution. -/
inductive Moves (B : Backend σ ω τ ε) (s : Execution σ ω τ α) :
    TaskEvent ε → Execution σ ω τ α → Prop where
  | kept : Moves B s e s
  | started (op : ω) (next : Nat → Task ω α) (htask : s.task = .start op next) :
      Moves B s .run
        { s with
          task := next s.calls.length
          calls := s.calls ++ [⟨op, B.clock s.store, false, none⟩] }
  | resumed (ids : List Nat) (next : Bool → Task ω α) (ok : Bool)
      (htask : s.task = .await ids next) (hawaited : s.awaited ids = some ok) :
      Moves B s .run { s with task := next ok }
  | landed (i : Nat) (call : Call ω τ) (hcall : s.calls[i]? = some call)
      (hlanded : call.landed = false) :
      Moves B s (.land i)
        { s with
          calls := s.calls.set i { call with landed := true }
          store := B.apply s.store call.startedAt call.op }
  | settled (i : Nat) (ok : Bool) (call : Call ω τ) (hcall : s.calls[i]? = some call)
      (hsettled : call.settled = none) (hok : ok = true → call.landed = true) :
      Moves B s (.settle i ok) { s with calls := s.calls.set i { call with settled := some ok } }
  | acted (e : ε) : Moves B s (.act e) { s with store := B.act s.store e }

theorem step_moves (B : Backend σ ω τ ε) (s : Execution σ ω τ α) (e : TaskEvent ε) :
    Moves B s e (s.step B e) := by
  cases e with
  | run =>
    rw [step, advance]
    split
    · rename_i op next htask
      exact .started op next htask
    · rename_i ids next htask
      split
      · rename_i ok hawaited
        exact .resumed ids next ok htask hawaited
      · exact .kept
    · exact .kept
  | land i =>
    rw [step, land]
    split
    · rename_i call hcall
      split
      · exact .kept
      · rename_i hlanded
        exact .landed i call hcall (Bool.eq_false_iff.2 hlanded)
    · exact .kept
  | settle i ok =>
    rw [step, settle]
    split
    · rename_i call hcall
      split
      · exact .kept
      · rename_i hnot
        rw [Bool.or_eq_true, Bool.and_eq_true, not_or, not_and, Option.not_isSome_iff_eq_none,
          Bool.not_eq_true', Bool.not_eq_false] at hnot
        exact .settled i ok call hcall hnot.1 hnot.2
    · exact .kept
  | act e => exact .acted e

variable {B : Backend σ ω τ ε} {s s' : Execution σ ω τ α} {e : TaskEvent ε}

theorem attempted_set {call : Call ω τ} (call' : Call ω τ) (h : s.calls[i]? = some call)
    (hop : call'.op = call.op) : (s.calls.set i call').map Call.op = s.calls.map Call.op := by
  apply List.ext_getElem?
  intro j
  rw [List.getElem?_map, List.getElem?_map, List.getElem?_set]
  split
  · rename_i hj
    subst hj
    rw [h]
    split
    · exact congrArg some hop
    · rename_i hlt
      exact absurd (List.getElem?_eq_some_iff.1 h).1 hlt
  · rfl

/-- The calls of an execution stay, and are joined at most by one the task was about to start. -/
theorem Moves.attempted (h : Moves B s e s') : s'.attempted = s.attempted ∨
    ∃ op next, s.task = .start op next ∧ s'.task = next s.calls.length ∧
      s'.attempted = s.attempted ++ [op] := by
  cases h with
  | kept => exact .inl rfl
  | started op next htask =>
    right
    refine ⟨op, next, htask, rfl, ?_⟩
    exact List.map_append
  | resumed ids next ok htask hawaited => exact .inl rfl
  | landed i call hcall hlanded => exact .inl (attempted_set _ hcall rfl)
  | settled i ok call hcall hsettled hok => exact .inl (attempted_set _ hcall rfl)
  | acted e => exact .inl rfl

/-- What is left of a task attempts what is left of its operations. -/
def Attempting (ops : List ω) (s : Execution σ ω τ α) : Prop :=
  ∃ rest, s.task.Attempts rest ∧ s.attempted ++ rest = ops

theorem Attempting.moves (h : Moves B s e s') (hs : s.Attempting ops) : s'.Attempting ops := by
  obtain ⟨rest, hrest, hops⟩ := hs
  cases h with
  | kept => exact ⟨rest, hrest, hops⟩
  | started op next htask =>
    rw [htask] at hrest
    obtain ⟨rest', rfl, hnext⟩ := hrest
    refine ⟨rest', hnext _, ?_⟩
    rw [← hops, Execution.attempted, List.map_append, List.append_assoc]
    rfl
  | resumed ids next ok htask hawaited =>
    rw [htask] at hrest
    exact ⟨rest, hrest ok, hops⟩
  | landed i call hcall hlanded =>
    refine ⟨rest, hrest, ?_⟩
    rw [← hops]
    exact congrArg (· ++ rest) (attempted_set _ hcall rfl)
  | settled i ok call hcall hsettled hok =>
    refine ⟨rest, hrest, ?_⟩
    rw [← hops]
    exact congrArg (· ++ rest) (attempted_set _ hcall rfl)
  | acted e => exact ⟨rest, hrest, hops⟩

/-- Whatever fails, and whatever goes on meanwhile, a task goes on to attempt its operations. -/
theorem attempting_run (B : Backend σ ω τ ε) {task : Task ω α} (h : task.Attempts ops)
    (store : σ) (es : List (TaskEvent ε)) :
    (run (step B) (start task store) es).Attempting ops :=
  run_invariant_always (fun s e hs => hs.moves (step_moves B s e)) ⟨ops, h, rfl⟩ es

theorem Attempting.attempted_of_done (h : s.Attempting ops) (hdone : s.task = .done result) :
    s.attempted = ops := by
  obtain ⟨rest, hrest, hops⟩ := h
  rw [hdone] at hrest
  rw [← hops, hrest, List.append_nil]

theorem Attempting.not_thrown (h : s.Attempting ops) : s.task ≠ .thrown := by
  intro hthrown
  obtain ⟨rest, hrest, _⟩ := h
  rw [hthrown] at hrest
  exact hrest

theorem Attempting.done_of_over (h : s.Attempting ops) (hover : s.task.Over) :
    ∃ result, s.task = .done result := by
  cases htask : s.task with
  | done result => exact ⟨result, rfl⟩
  | thrown => exact absurd htask h.not_thrown
  | start op next =>
    rw [htask] at hover
    exact absurd hover id
  | await calls next =>
    rw [htask] at hover
    exact absurd hover id

/-- What an execution goes by: its task awaits calls it has started, and only what has landed is
fulfilled. -/
structure Sound (s : Execution σ ω τ α) : Prop where
  inScope : s.task.Scoped s.calls.length
  fulfilled : ∀ call ∈ s.calls, call.settled = some true → call.landed = true

theorem Sound.set (hs : s.Sound) (i : Nat) (call : Call ω τ)
    (hcall : call.settled = some true → call.landed = true) :
    Sound { s with calls := s.calls.set i call } where
  inScope := by
    rw [List.length_set]
    exact hs.inScope
  fulfilled := by
    intro c hc hf
    rcases List.mem_or_eq_of_mem_set hc with hc | rfl
    · exact hs.fulfilled c hc hf
    · exact hcall hf

theorem Sound.moves (h : Moves B s e s') (hs : s.Sound) : s'.Sound := by
  cases h with
  | kept => exact hs
  | started op next htask =>
    have hscoped := hs.inScope
    rw [htask] at hscoped
    refine ⟨?_, ?_⟩
    · rw [List.length_append]
      exact hscoped
    · intro call hcall hf
      rcases List.mem_append.1 hcall with hcall | hcall
      · exact hs.fulfilled call hcall hf
      · rw [List.mem_singleton.1 hcall] at hf
        cases hf
  | resumed ids next ok htask hawaited =>
    have hscoped := hs.inScope
    rw [htask] at hscoped
    exact ⟨hscoped.2 ok, hs.fulfilled⟩
  | landed i call hcall hlanded =>
    have hset := hs.set i { call with landed := true } fun _ => rfl
    exact ⟨hset.inScope, hset.fulfilled⟩
  | settled i ok call hcall hsettled hok =>
    exact hs.set i { call with settled := some ok } fun hf => hok (Option.some.inj hf)
  | acted e => exact ⟨hs.inScope, hs.fulfilled⟩

theorem sound_run (B : Backend σ ω τ ε) {task : Task ω α} (h : task.Scoped 0) (store : σ)
    (es : List (TaskEvent ε)) : (run (step B) (start task store) es).Sound := by
  apply run_invariant_always (fun s e hs => hs.moves (step_moves B s e))
  exact ⟨h, fun call hcall => absurd hcall List.not_mem_nil⟩

/-- The calls up to a number have settled. -/
def SettledTo (s : Execution σ ω τ α) (n : Nat) : Prop :=
  ∀ i < n, ∀ call, s.calls[i]? = some call → call.settled.isSome

/-- Time is up for every call: what has not settled is rejected. -/
theorem rejectAll (B : Backend σ ω τ ε) (s : Execution σ ω τ α) (n : Nat) :
    ∃ es, (run (step B) s es).task = s.task ∧
      (run (step B) s es).calls.length = s.calls.length ∧ (run (step B) s es).SettledTo n := by
  induction n with
  | zero => exact ⟨[], rfl, rfl, fun i hi => absurd hi (Nat.not_lt_zero i)⟩
  | succ n ih =>
    obtain ⟨es, htask, hlen, hsettled⟩ := ih
    refine ⟨es ++ [.settle n false], ?_⟩
    rw [run_append]
    generalize run (step B) s es = t at htask hlen hsettled
    change (t.settle n false).task = _ ∧ (t.settle n false).calls.length = _ ∧
      (t.settle n false).SettledTo _
    rw [settle]
    cases hcall : t.calls[n]? with
    | none =>
      refine ⟨htask, hlen, ?_⟩
      intro i hi call hget
      rcases Nat.lt_succ_iff_lt_or_eq.1 hi with hi | rfl
      · exact hsettled i hi call hget
      · rw [hcall] at hget
        cases hget
    | some call =>
      dsimp only
      rw [Bool.false_and, Bool.or_false]
      split
      · rename_i hs
        refine ⟨htask, hlen, ?_⟩
        intro i hi c hget
        rcases Nat.lt_succ_iff_lt_or_eq.1 hi with hi | rfl
        · exact hsettled i hi c hget
        · rw [hcall] at hget
          cases hget
          exact hs
      · refine ⟨htask, ?_, ?_⟩
        · rw [List.length_set]
          exact hlen
        · intro i hi c hget
          rw [List.getElem?_set] at hget
          split at hget
          · split at hget
            · cases hget
              rfl
            · cases hget
          · rename_i hne
            rcases Nat.lt_succ_iff_lt_or_eq.1 hi with hi | rfl
            · exact hsettled i hi c hget
            · exact absurd rfl hne

theorem awaited_of_settled (h : s.SettledTo s.calls.length) (hids : ∀ i ∈ ids, i < s.calls.length) :
    ∃ ok, s.awaited ids = some ok := by
  rw [awaited]
  dsimp only
  split
  · exact ⟨false, rfl⟩
  · rename_i hany
    refine ⟨true, if_pos ?_⟩
    rw [List.all_eq_true]
    intro i hi
    rw [decide_eq_true_eq]
    have hget := List.getElem?_eq_getElem (hids i hi)
    have hs := h i (hids i hi) _ hget
    obtain ⟨ok, hok⟩ := Option.isSome_iff_exists.1 hs
    rw [hget, Option.bind_some, hok]
    cases ok with
    | true => rfl
    | false =>
      exfalso
      apply hany
      rw [List.any_eq_true]
      refine ⟨i, hi, ?_⟩
      rw [decide_eq_true_eq, hget, Option.bind_some, hok]

/-- A task can always come to its end: no call keeps it waiting once its time is up. -/
theorem can_end (B : Backend σ ω τ ε) (s : Execution σ ω τ α)
    (hs : s.task.Scoped s.calls.length) : ∃ es, (run (step B) s es).task.Over := by
  obtain ⟨task, calls, store⟩ := s
  dsimp only at hs
  induction task generalizing calls store with
  | done result => exact ⟨[], trivial⟩
  | thrown => exact ⟨[], trivial⟩
  | start op next ih =>
    have hscoped : (next calls.length).Scoped
        (calls ++ [(⟨op, B.clock store, false, none⟩ : Call ω τ)]).length := by
      rw [List.length_append]
      exact hs
    obtain ⟨es, hes⟩ := ih _ _ _ hscoped
    exact ⟨.run :: es, hes⟩
  | await ids next ih =>
    obtain ⟨es, htask, hlen, hsettled⟩ := rejectAll B ⟨.await ids next, calls, store⟩ calls.length
    generalize ht : run (step B) ⟨.await ids next, calls, store⟩ es = t at htask hlen hsettled
    dsimp only at htask hlen
    rw [← hlen] at hsettled
    obtain ⟨ok, hok⟩ := awaited_of_settled hsettled fun i hi => hlen ▸ hs.1 i hi
    have hscoped : (next ok).Scoped t.calls.length := by
      rw [hlen]
      exact hs.2 ok
    obtain ⟨fs, hfs⟩ := ih ok t.calls t.store hscoped
    refine ⟨es ++ .run :: fs, ?_⟩
    rw [run_append, ht, run_cons]
    change (run (step B) (t.advance B) fs).task.Over
    rw [advance, htask]
    dsimp only
    rw [hok]
    exact hfs

/-- A call that a task has made stays what it is: what settled and what landed do not come
undone. -/
theorem Moves.keeps_call {call : Call ω τ} {i : Nat} (h : Moves B s e s')
    (hc : s.calls[i]? = some call) :
    ∃ call', s'.calls[i]? = some call' ∧ call'.op = call.op ∧ call'.startedAt = call.startedAt ∧
      (call.landed = true → call'.landed = true) ∧
      (call.settled = some true → call'.settled = some true) := by
  have hlt := (List.getElem?_eq_some_iff.1 hc).1
  have hset (j : Nat) (c c' : Call ω τ) (hcj : s.calls[j]? = some c) (hop : c'.op = c.op)
      (hat : c'.startedAt = c.startedAt) (hland : c.landed = true → c'.landed = true)
      (hsettle : c.settled = some true → c'.settled = some true) :
      ∃ call', (s.calls.set j c')[i]? = some call' ∧ call'.op = call.op ∧
        call'.startedAt = call.startedAt ∧ (call.landed = true → call'.landed = true) ∧
        (call.settled = some true → call'.settled = some true) := by
    rw [List.getElem?_set]
    by_cases hj : j = i
    · subst hj
      rw [hc] at hcj
      cases hcj
      exact ⟨c', by rw [if_pos rfl, if_pos hlt], hop, hat, hland, hsettle⟩
    · exact ⟨call, by rw [if_neg hj, hc], rfl, rfl, id, id⟩
  cases h with
  | kept => exact ⟨call, hc, rfl, rfl, id, id⟩
  | started op next htask =>
    exact ⟨call, (List.getElem?_append_left hlt).trans hc, rfl, rfl, id, id⟩
  | resumed ids next ok htask hawaited => exact ⟨call, hc, rfl, rfl, id, id⟩
  | landed j c hcj hlanded => exact hset j c _ hcj rfl rfl (fun _ => rfl) id
  | settled j ok' c hcj hsettled hok =>
    refine hset j c _ hcj rfl rfl id ?_
    intro h
    rw [hsettled] at h
    cases h
  | acted e => exact ⟨call, hc, rfl, rfl, id, id⟩

/-- What an execution knows: the call was fulfilled, or nothing of the kind was started. -/
def Behind (kind : ω → Prop) (i : Nat) (s : Execution σ ω τ α) : Prop :=
  (∃ call, s.calls[i]? = some call ∧ call.settled = some true) ∨
    s.task.StartsBehind kind i s.calls.length ∧ ∀ op ∈ s.attempted, ¬kind op

theorem settled_of_awaited (h : s.awaited ids = some true) (hi : i ∈ ids) :
    ∃ call, s.calls[i]? = some call ∧ call.settled = some true := by
  rw [awaited] at h
  dsimp only at h
  split at h
  · cases h
  · split at h
    · rename_i hall
      have hsettled := of_decide_eq_true (List.all_eq_true.1 hall i hi)
      exact Option.bind_eq_some_iff.1 hsettled
    · cases h

theorem Behind.moves (h : Moves B s e s') (hs : s.Behind kind i) : s'.Behind kind i := by
  rcases hs with ⟨call, hcall, hsettled⟩ | ⟨htask, hnone⟩
  · obtain ⟨call', hcall', _, _, _, hsettled'⟩ := h.keeps_call hcall
    exact .inl ⟨call', hcall', hsettled' hsettled⟩
  · have hsame (hattempted : s'.attempted = s.attempted) (hlen : s'.calls.length = s.calls.length)
        (htask' : s'.task = s.task) : s'.Behind kind i := by
      rw [Behind, htask', hlen, hattempted]
      exact .inr ⟨htask, hnone⟩
    cases h with
    | kept => exact .inr ⟨htask, hnone⟩
    | started op next hstart =>
      rw [hstart] at htask
      right
      refine ⟨?_, ?_⟩
      · rw [List.length_append]
        exact htask.2
      · intro o ho
        rw [Execution.attempted, List.map_append] at ho
        rcases List.mem_append.1 ho with ho | ho
        · exact hnone o ho
        · rw [List.mem_singleton.1 ho]
          exact htask.1
    | resumed ids next ok hawait hawaited =>
      rw [hawait] at htask
      cases ok with
      | false => exact .inr ⟨htask.1, hnone⟩
      | true =>
        rcases htask.2 with hi | hnext
        · exact .inl (settled_of_awaited hawaited hi)
        · exact .inr ⟨hnext, hnone⟩
    | landed j c hc hlanded =>
      exact hsame (attempted_set _ hc rfl) (List.length_set ..) rfl
    | settled j ok c hc hsettled hok =>
      exact hsame (attempted_set _ hc rfl) (List.length_set ..) rfl
    | acted e => exact .inr ⟨htask, hnone⟩

/-- In every run, operations of a kind that a task starts behind a call are started only once this
call has landed. -/
theorem landed_behind (B : Backend σ ω τ ε) {task : Task ω α} (hscoped : task.Scoped 0)
    (h : task.StartsBehind kind i 0) (store : σ) (es : List (TaskEvent ε)) :
    (∃ call, (run (step B) (start task store) es).calls[i]? = some call ∧ call.landed = true) ∨
      ∀ op ∈ (run (step B) (start task store) es).attempted, ¬kind op := by
  have hsound := sound_run B hscoped store es
  have hbehind : (run (step B) (start task store) es).Behind kind i := by
    apply run_invariant_always (fun s e hs => hs.moves (step_moves B s e))
    exact .inr ⟨h, fun op hop => absurd hop List.not_mem_nil⟩
  rcases hbehind with ⟨call, hcall, hsettled⟩ | ⟨_, hnone⟩
  · exact .inl ⟨call, hcall, hsound.fulfilled call (List.mem_of_getElem? hcall) hsettled⟩
  · exact .inr hnone

/-- An execution of a task that begins with an operation has this call or is about to make it. -/
def BeginsWith (op : ω) (next : Nat → Task ω α) (s : Execution σ ω τ α) : Prop :=
  s.task = .start op next ∧ s.calls = [] ∨ ∃ call, s.calls[0]? = some call ∧ call.op = op

theorem BeginsWith.moves (h : Moves B s e s') (hs : s.BeginsWith op next) :
    s'.BeginsWith op next := by
  rcases hs with ⟨htask, hcalls⟩ | ⟨call, hcall, hop⟩
  · cases h with
    | kept => exact .inl ⟨htask, hcalls⟩
    | started op' next' htask' =>
      rw [htask] at htask'
      cases htask'
      right
      rw [hcalls]
      exact ⟨_, rfl, rfl⟩
    | resumed ids next' ok htask' hawaited =>
      rw [htask] at htask'
      cases htask'
    | landed i c hc hlanded =>
      rw [hcalls] at hc
      cases hc
    | settled i ok c hc hsettled hok =>
      rw [hcalls] at hc
      cases hc
    | acted e => exact .inl ⟨htask, hcalls⟩
  · obtain ⟨call', hcall', hop', _⟩ := h.keeps_call hcall
    exact .inr ⟨call', hcall', hop'.trans hop⟩

/-- The first operation of a task is its first call. -/
theorem first_call (B : Backend σ ω τ ε) (op : ω) (next : Nat → Task ω α) (store : σ)
    (es : List (TaskEvent ε)) {call : Call ω τ}
    (hc : (run (step B) (start (.start op next) store) es).calls[0]? = some call) :
    call.op = op := by
  have hbegins : (run (step B) (start (.start op next) store) es).BeginsWith op next :=
    run_invariant_always (fun s e hs => hs.moves (step_moves B s e)) (.inl ⟨rfl, rfl⟩) es
  rcases hbegins with ⟨_, hcalls⟩ | ⟨call', hcall', hop⟩
  · rw [hcalls] at hc
    cases hc
  · rw [hcall'] at hc
    cases hc
    exact hop

/-- The store meets a condition, or an operation of a kind was started. -/
def Holds (kind : ω → Prop) (Q : σ → Prop) (s : Execution σ ω τ α) : Prop :=
  (∃ op ∈ s.attempted, kind op) ∨ Q s.store

theorem mem_attempted {call : Call ω τ} {i : Nat} (h : s.calls[i]? = some call) :
    call.op ∈ s.attempted :=
  List.mem_map_of_mem (List.mem_of_getElem? h)

/-- What no other operation and nothing else undoes, only an operation of the kind can undo. -/
theorem holds_run (B : Backend σ ω τ ε) (task : Task ω α) (store : σ) (kind : ω → Prop)
    (allowed : ε → Prop) {Q : σ → Prop}
    (happly : ∀ store t op, ¬kind op → Q store → Q (B.apply store t op))
    (hact : ∀ store e, allowed e → Q store → Q (B.act store e)) (h₀ : Q store)
    {es : List (TaskEvent ε)} (hes : ∀ e, .act e ∈ es → allowed e) :
    (run (step B) (start task store) es).Holds kind Q := by
  apply run_invariant (C := fun _ e => ∀ e', e = .act e' → allowed e')
  · intro s e hs he
    rcases hs with ⟨op, hop, hkind⟩ | hQ
    · left
      rcases (step_moves B s e).attempted with hsame | ⟨op', next, _, _, hadded⟩
      · exact ⟨op, hsame ▸ hop, hkind⟩
      · exact ⟨op, hadded ▸ List.mem_append_left _ hop, hkind⟩
    · have hmoves := step_moves B s e
      generalize s.step B e = s' at hmoves ⊢
      cases hmoves with
      | landed i call hcall hlanded =>
        by_cases hkind : kind call.op
        · left
          have hsame : (s.calls.set i { call with landed := true }).map Call.op = s.attempted :=
            attempted_set _ hcall rfl
          have hmem := mem_attempted hcall
          rw [← hsame] at hmem
          exact ⟨call.op, hmem, hkind⟩
        · exact .inr (happly _ _ _ hkind hQ)
      | acted e' => exact .inr (hact _ _ (he e' rfl) hQ)
      | _ => exact .inr hQ
  · exact .inr h₀
  · apply along_of_mem
    rintro e he e' rfl
    exact hes e' he

/-- What an operation brings about by landing, and nothing undoes, holds of all that have landed. -/
theorem landed_run {R : σ → τ → ω → Prop} (B : Backend σ ω τ ε) (task : Task ω α) (store : σ)
    (hnew : ∀ store t op, R (B.apply store t op) t op)
    (happly : ∀ store t op t' op', R store t op → R (B.apply store t' op') t op)
    (hact : ∀ store t op e, R store t op → R (B.act store e) t op) (es : List (TaskEvent ε)) :
    ∀ call ∈ (run (step B) (start task store) es).calls, call.landed = true →
      R (run (step B) (start task store) es).store call.startedAt call.op := by
  apply run_invariant_always (I := fun s : Execution σ ω τ α =>
    ∀ call ∈ s.calls, call.landed = true → R s.store call.startedAt call.op)
  · intro s e hs
    have hmoves := step_moves B s e
    generalize s.step B e = s' at hmoves ⊢
    cases hmoves with
    | started op next htask =>
      intro call hcall hland
      rcases List.mem_append.1 hcall with hcall | hcall
      · exact hs call hcall hland
      · rw [List.mem_singleton.1 hcall] at hland
        cases hland
    | landed i c hc hlanded =>
      intro call hcall hland
      rcases List.mem_or_eq_of_mem_set hcall with hcall | rfl
      · exact happly _ _ _ _ _ (hs call hcall hland)
      · exact hnew _ _ _
    | settled i ok c hc hsettled hok =>
      intro call hcall hland
      rcases List.mem_or_eq_of_mem_set hcall with hcall | rfl
      · exact hs call hcall hland
      · exact hs c (List.mem_of_getElem? hc) hland
    | acted e' =>
      intro call hcall hland
      exact hact _ _ _ _ (hs call hcall hland)
    | _ => exact hs
  · intro call hcall
    cases hcall

/-- A bound that the clock does not fall behind is a bound of when each call was started. -/
theorem startedAt_run {P : τ → Prop} (B : Backend σ ω τ ε) (task : Task ω α) (store : σ)
    (happly : ∀ store t op, P (B.clock store) → P (B.clock (B.apply store t op)))
    (hact : ∀ store e, P (B.clock store) → P (B.clock (B.act store e)))
    (h₀ : P (B.clock store)) (es : List (TaskEvent ε)) :
    ∀ call ∈ (run (step B) (start task store) es).calls, P call.startedAt := by
  have hrun : P (B.clock (run (step B) (start task store) es).store) ∧
      ∀ call ∈ (run (step B) (start task store) es).calls, P call.startedAt := by
    apply run_invariant_always (I := fun s : Execution σ ω τ α =>
      P (B.clock s.store) ∧ ∀ call ∈ s.calls, P call.startedAt)
    · rintro s e ⟨hclock, hs⟩
      have hmoves := step_moves B s e
      generalize s.step B e = s' at hmoves ⊢
      cases hmoves with
      | started op next htask =>
        refine ⟨hclock, ?_⟩
        intro call hcall
        rcases List.mem_append.1 hcall with hcall | hcall
        · exact hs call hcall
        · rw [List.mem_singleton.1 hcall]
          exact hclock
      | landed i c hc hlanded =>
        refine ⟨happly _ _ _ hclock, ?_⟩
        intro call hcall
        rcases List.mem_or_eq_of_mem_set hcall with hcall | rfl
        · exact hs call hcall
        · exact hs c (List.mem_of_getElem? hc)
      | settled i ok c hc hsettled hok =>
        refine ⟨hclock, ?_⟩
        intro call hcall
        rcases List.mem_or_eq_of_mem_set hcall with hcall | rfl
        · exact hs call hcall
        · exact hs c (List.mem_of_getElem? hc)
      | acted e' => exact ⟨hact _ _ hclock, hs⟩
      | _ => exact ⟨hclock, hs⟩
    · exact ⟨h₀, fun call hcall => absurd hcall List.not_mem_nil⟩
  exact hrun.2

end Execution

end PromotionManagement.Library
