import Azums.Lib.System
import Mathlib.Logic.Function.Basic

/-!
# `Lib.Prog` — programs that talk to a shared server, and pools of clients that run them

A `Prog C R α` is a program that issues commands of type `C`, reads a reply of type `R c` to each, and ends with
a value. It is a monad, so a program is written in `do` notation.

A `Server` says what a command does to the shared store, atomically, and what becomes of the store when a client
ends or dies. In a `Pool` any number of clients each run one call at a time; a `Move` lets one of them start a
call, execute its next command, hand back its result, or crash. The lemmas `Pool.next_start` to `Pool.next_crash` say
what each move needs and does.
-/

namespace Azums

/-- A program: a value, or a command and what to do with its reply. -/
inductive Prog (C : Type) (R : C → Type) (α : Type) where
  | done (a : α)
  | call (c : C) (k : R c → Prog C R α)

namespace Prog

variable {C : Type} {R : C → Type} {α β : Type}

def bind : Prog C R α → (α → Prog C R β) → Prog C R β
  | done a, f => f a
  | call c k, f => call c (fun r => (k r).bind f)

instance : Monad (Prog C R) where
  pure := done
  bind := bind

@[simp] theorem pure_eq (a : α) : (pure a : Prog C R α) = done a := rfl

@[simp] theorem done_bind (a : α) (f : α → Prog C R β) : (done a >>= f) = f a := rfl

@[simp] theorem call_bind (c : C) (k : R c → Prog C R α) (f : α → Prog C R β) :
    (call c k >>= f) = call c (fun r => k r >>= f) := rfl

/-- The program run to its end with nobody else at the server. -/
def alone {σ : Type} (exec : (c : C) → σ → R c × σ) : Prog C R α → σ → α × σ
  | done a, s => (a, s)
  | call c k, s => alone exec (k (exec c s).1) (exec c s).2

/-- The program never sends a command of this kind, whatever it is answered. -/
def Avoids (P : C → Prop) : Prog C R α → Prop
  | done _ => True
  | call c k => ¬P c ∧ ∀ r, Avoids P (k r)

/-- There is nothing that a program has to avoid. -/
theorem avoids_false : ∀ p : Prog C R α, p.Avoids (fun _ => False)
  | done _ => trivial
  | call _ k => ⟨fun h => h, fun r => avoids_false (k r)⟩

end Prog

/-- What answers the commands of the clients `ι`. `exec` is `none` where a command has to wait; `close` is what
    the end of a call does to the store, and `abandon` what the death of a client does. -/
structure Server (ι C : Type) (R : C → Type) (α σ : Type) where
  exec : ι → (c : C) → σ → Option (R c × σ)
  close : ι → α → σ → σ
  abandon : ι → σ → σ

/-- A store and the clients that use it, each with the call it is in and what is left of that call. -/
structure Pool (ι κ C : Type) (R : C → Type) (α σ : Type) where
  store : σ
  client : ι → Option (κ × Prog C R α)

/-- What may happen next. -/
inductive Move (ι κ : Type) where
  | start (i : ι) (call : κ)
  | exec (i : ι)
  | finish (i : ι)
  | crash (i : ι)

namespace Pool

variable {ι κ C α σ : Type} {R : C → Type} [DecidableEq ι]

/-- The pool in which client `i` is at `running`, over another store. -/
def put (s : Pool ι κ C R α σ) (i : ι) (running : Option (κ × Prog C R α)) (store : σ) : Pool ι κ C R α σ :=
  { store := store, client := Function.update s.client i running }

@[simp] theorem put_self {s : Pool ι κ C R α σ} {i : ι} {running : Option (κ × Prog C R α)} {store : σ} :
    (s.put i running store).client i = running := Function.update_self ..

theorem put_of_ne {s : Pool ι κ C R α σ} {i j : ι} {running : Option (κ × Prog C R α)} {store : σ} (h : j ≠ i) :
    (s.put i running store).client j = s.client j := Function.update_of_ne h ..

/-- A client after a change of client `i`: it is `i`, or it runs what it ran before. -/
theorem client_put {s : Pool ι κ C R α σ} {i j : ι} {running : Option (κ × Prog C R α)} {store : σ}
    {current : κ × Prog C R α} (h : (s.put i running store).client j = some current) :
    j = i ∧ running = some current ∨ j ≠ i ∧ s.client j = some current := by
  by_cases hji : j = i
  · subst hji
    rw [put_self] at h
    exact Or.inl ⟨rfl, h⟩
  · rw [put_of_ne hji] at h
    exact Or.inr ⟨hji, h⟩

/-- One step of a pool. -/
def next (m : Server ι C R α σ) (prog : κ → Prog C R α) (s : Pool ι κ C R α σ) :
    Move ι κ → Option (Pool ι κ C R α σ)
  | .start i call =>
      match s.client i with
      | none => some (s.put i (some (call, prog call)) s.store)
      | some _ => none
  | .exec i =>
      match s.client i with
      | some (call, .call c k) =>
          (m.exec i c s.store).map (fun answer => s.put i (some (call, k answer.1)) answer.2)
      | some (_, .done _) | none => none
  | .finish i =>
      match s.client i with
      | some (_, .done a) => some (s.put i none (m.close i a s.store))
      | some (_, .call _ _) | none => none
  | .crash i =>
      match s.client i with
      | some _ => some (s.put i none (m.abandon i s.store))
      | none => none

/-- A run of a pool, move by move. -/
def run (m : Server ι C R α σ) (prog : κ → Prog C R α) (s : Pool ι κ C R α σ) (moves : List (Move ι κ)) :
    Option (Pool ι κ C R α σ) :=
  moves.foldlM (fun s e => s.next m prog e) s

/-- The pools that start with no client running. -/
def system (m : Server ι C R α σ) (prog : κ → Prog C R α) (init : σ → Prop) :
    System (Pool ι κ C R α σ) (Move ι κ) where
  init s := init s.store ∧ ∀ i, s.client i = none
  step s e s' := s.next m prog e = some s'

variable {m : Server ι C R α σ} {prog : κ → Prog C R α} {s s' : Pool ι κ C R α σ}

theorem next_start {i : ι} {call : κ} (h : s.next m prog (.start i call) = some s') :
    s.client i = none ∧ s' = s.put i (some (call, prog call)) s.store := by
  cases hi : s.client i with
  | none =>
      simp only [next, hi, Option.some.injEq] at h
      exact ⟨rfl, h.symm⟩
  | some running =>
      simp only [next, hi] at h
      cases h

theorem next_exec {i : ι} (h : s.next m prog (.exec i) = some s') :
    ∃ call c k r σ', s.client i = some (call, .call c k) ∧ m.exec i c s.store = some (r, σ') ∧
      s' = s.put i (some (call, k r)) σ' := by
  rcases hi : s.client i with _ | ⟨call, a | ⟨c, k⟩⟩
  · simp only [next, hi] at h
    cases h
  · simp only [next, hi] at h
    cases h
  · simp only [next, hi] at h
    obtain ⟨⟨r, σ'⟩, hexec, hs'⟩ := Option.map_eq_some_iff.mp h
    exact ⟨call, c, k, r, σ', rfl, hexec, hs'.symm⟩

theorem next_finish {i : ι} (h : s.next m prog (.finish i) = some s') :
    ∃ call a, s.client i = some (call, .done a) ∧
      s' = s.put i none (m.close i a s.store) := by
  rcases hi : s.client i with _ | ⟨call, a | ⟨c, k⟩⟩
  · simp only [next, hi] at h
    cases h
  · simp only [next, hi, Option.some.injEq] at h
    exact ⟨call, a, rfl, h.symm⟩
  · simp only [next, hi] at h
    cases h

theorem next_crash {i : ι} (h : s.next m prog (.crash i) = some s') :
    (∃ running, s.client i = some running) ∧
      s' = s.put i none (m.abandon i s.store) := by
  cases hi : s.client i with
  | none =>
      simp only [next, hi] at h
      cases h
  | some running =>
      simp only [next, hi, Option.some.injEq] at h
      exact ⟨⟨running, rfl⟩, h.symm⟩

/-- A run that can be computed is a run of the system. -/
theorem reachable_run {init : σ → Prop} (moves : List (Move ι κ)) (hs : (system m prog init).Reachable s)
    (h : s.run m prog moves = some s') : (system m prog init).Reachable s' :=
  hs.run (System.Run.computed (fun hnext => hnext) moves h)

theorem run_system {init : σ → Prop} (moves : List (Move ι κ)) (h : s.run m prog moves = some s') :
    (system m prog init).Run s moves s' := System.Run.computed (fun hnext => hnext) moves h

/-- **What no program sends.** Where every call's program avoids some commands, no client of a reachable pool can send one
    of them. -/
theorem avoids {P : C → Prop} {init : σ → Prop} (hprog : ∀ call, (prog call).Avoids P)
    (hs : (system m prog init).Reachable s) :
    ∀ {i : ι} {call : κ} {p : Prog C R α}, s.client i = some (call, p) → p.Avoids P := by
  refine hs.invariant (I := fun s => ∀ {i call p}, s.client i = some (call, p) → p.Avoids P) ?_ ?_
  · rintro s ⟨_, hidle⟩ i call p hi
    rw [hidle i] at hi
    cases hi
  · intro s e s' _ ih hstep j call p hj
    cases e with
    | start i call' =>
        obtain ⟨_, rfl⟩ := next_start hstep
        rcases client_put hj with ⟨_, hrunning⟩ | ⟨_, hold⟩
        · cases hrunning
          exact hprog call
        · exact ih hold
    | exec i =>
        obtain ⟨call', c, k, r, σ', hi, _, rfl⟩ := next_exec hstep
        rcases client_put hj with ⟨_, hrunning⟩ | ⟨_, hold⟩
        · cases hrunning
          exact (ih hi).2 r
        · exact ih hold
    | finish i =>
        obtain ⟨_, _, _, rfl⟩ := next_finish hstep
        rcases client_put hj with ⟨_, hrunning⟩ | ⟨_, hold⟩
        · cases hrunning
        · exact ih hold
    | crash i =>
        obtain ⟨_, rfl⟩ := next_crash hstep
        rcases client_put hj with ⟨_, hrunning⟩ | ⟨_, hold⟩
        · cases hrunning
        · exact ih hold

end Pool
end Azums
