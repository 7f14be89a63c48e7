import Azums.Lib.Prog

/-!
# `Lib.Discipline` — histories of pools, and what clients may rely on

What a law says about a run is often not in the store: what was delivered, which calls have started, what a client has
read. A `Recorder` keeps such a history beside a pool (`Observed`): it is rewritten by every move, and nothing reads it
back.

A `Discipline` is how clients get along in such a pool. Each client relies on the others to change the world in certain
ways only (`rely`), and makes a promise about every command at the moment it sends it (`promise`). `Keeps` says that a
program keeps its promises whatever the others do meanwhile: it is checked along the program's text, one command after
the other. `Discipline.Obeyed.holds` is the rule: where every move that keeps its promise maintains the invariant and is
one that the others rely on, the invariant holds in all reachable states, and every client keeps its promises there.
-/

namespace Azums

/-! ## Histories -/

/-- How a history follows a pool: what each kind of move adds to it. -/
structure Recorder (ι κ C : Type) (R : C → Type) (α σ η : Type) where
  start : ι → κ → η → η := fun _ _ h => h
  exec : ι → κ → (c : C) → σ → R c → η → η := fun _ _ _ _ _ h => h
  finish : ι → κ → α → η → η := fun _ _ _ h => h
  crash : ι → η → η := fun _ h => h

/-- A store, and what has happened to it. -/
structure World (σ η : Type) where
  store : σ
  history : η

/-- A pool, and what has happened in it. -/
structure Observed (ι κ C : Type) (R : C → Type) (α σ η : Type) where
  pool : Pool ι κ C R α σ
  history : η

variable {ι κ C α σ η : Type} {R : C → Type}

/-- The part of an observed pool that all clients share. -/
def Observed.world (o : Observed ι κ C R α σ η) : World σ η := { store := o.pool.store, history := o.history }

namespace Recorder

/-- The history after a move. -/
def record (rec : Recorder ι κ C R α σ η) (m : Server ι C R α σ) (o : Observed ι κ C R α σ η) : Move ι κ → η
  | .start i call => rec.start i call o.history
  | .exec i =>
      match o.pool.client i with
      | some (call, .call c _) =>
          ((m.exec i c o.pool.store).map (fun answer => rec.exec i call c o.pool.store answer.1 o.history)).getD
            o.history
      | some (_, .done _) | none => o.history
  | .finish i =>
      match o.pool.client i with
      | some (call, .done a) => rec.finish i call a o.history
      | some (_, .call _ _) | none => o.history
  | .crash i => rec.crash i o.history

variable [DecidableEq ι]

/-- One step of an observed pool. -/
def next (rec : Recorder ι κ C R α σ η) (m : Server ι C R α σ) (prog : κ → Prog C R α)
    (o : Observed ι κ C R α σ η) (e : Move ι κ) : Option (Observed ι κ C R α σ η) :=
  (o.pool.next m prog e).map (fun s' => { pool := s', history := rec.record m o e })

/-- A run of an observed pool, move by move. -/
def run (rec : Recorder ι κ C R α σ η) (m : Server ι C R α σ) (prog : κ → Prog C R α)
    (o : Observed ι κ C R α σ η) (moves : List (Move ι κ)) : Option (Observed ι κ C R α σ η) :=
  moves.foldlM (fun o e => rec.next m prog o e) o

/-- The observed pools that start with no client running, each with the history that belongs to its store. -/
def system (rec : Recorder ι κ C R α σ η) (m : Server ι C R α σ) (prog : κ → Prog C R α) (init : σ → Prop)
    (first : σ → η) : System (Observed ι κ C R α σ η) (Move ι κ) where
  init o := init o.pool.store ∧ (∀ i, o.pool.client i = none) ∧ o.history = first o.pool.store
  step o e o' := rec.next m prog o e = some o'

variable {rec : Recorder ι κ C R α σ η} {m : Server ι C R α σ} {prog : κ → Prog C R α}
  {o o' : Observed ι κ C R α σ η} {i : ι}

theorem next_start {call : κ} (h : rec.next m prog o (.start i call) = some o') :
    o.pool.client i = none ∧
      o' = { pool := o.pool.put i (some (call, prog call)) o.pool.store, history := rec.start i call o.history } := by
  obtain ⟨s', hs', rfl⟩ := Option.map_eq_some_iff.mp h
  obtain ⟨hi, rfl⟩ := Pool.next_start hs'
  exact ⟨hi, rfl⟩

theorem next_exec (h : rec.next m prog o (.exec i) = some o') :
    ∃ call c k r σ', o.pool.client i = some (call, .call c k) ∧ m.exec i c o.pool.store = some (r, σ') ∧
      o' = { pool := o.pool.put i (some (call, k r)) σ', history := rec.exec i call c o.pool.store r o.history } := by
  obtain ⟨s', hs', rfl⟩ := Option.map_eq_some_iff.mp h
  obtain ⟨call, c, k, r, σ', hi, hexec, rfl⟩ := Pool.next_exec hs'
  refine ⟨call, c, k, r, σ', hi, hexec, ?_⟩
  simp only [record, hi, hexec, Option.map_some, Option.getD_some]

theorem next_finish (h : rec.next m prog o (.finish i) = some o') :
    ∃ call a, o.pool.client i = some (call, .done a) ∧
      o' = { pool := o.pool.put i none (m.close i a o.pool.store), history := rec.finish i call a o.history } := by
  obtain ⟨s', hs', rfl⟩ := Option.map_eq_some_iff.mp h
  obtain ⟨call, a, hi, rfl⟩ := Pool.next_finish hs'
  refine ⟨call, a, hi, ?_⟩
  simp only [record, hi]

theorem next_crash (h : rec.next m prog o (.crash i) = some o') :
    ∃ call p, o.pool.client i = some (call, p) ∧
      o' = { pool := o.pool.put i none (m.abandon i o.pool.store), history := rec.crash i o.history } := by
  obtain ⟨s', hs', rfl⟩ := Option.map_eq_some_iff.mp h
  obtain ⟨⟨⟨call, p⟩, hi⟩, rfl⟩ := Pool.next_crash hs'
  exact ⟨call, p, hi, rfl⟩

/-- A run that can be computed, of moves that a system takes, is a run of the system. -/
theorem reachable_along {M : System (Observed ι κ C R α σ η) (Move ι κ)}
    (taken : Observed ι κ C R α σ η → Move ι κ → Bool)
    (hM : ∀ {o e o'}, taken o e = true → rec.next m prog o e = some o' → M.step o e o') (moves : List (Move ι κ))
    (hmoves : System.takes (rec.next m prog) taken o moves = true) (ho : M.Reachable o)
    (h : rec.run m prog o moves = some o') : M.Reachable o' := ho.run (System.Run.along hM moves hmoves h)

/-- A run that can be computed is a run of the system. -/
theorem reachable_run {init : σ → Prop} {first : σ → η} (moves : List (Move ι κ))
    (ho : (rec.system m prog init first).Reachable o) (h : rec.run m prog o moves = some o') :
    (rec.system m prog init first).Reachable o' := ho.run (System.Run.computed (fun hnext => hnext) moves h)

end Recorder

/-! ## Disciplines -/

/-- How the clients of an observed pool get along. -/
structure Discipline (ι κ C α σ η : Type) where
  /-- What holds of the world at any time. -/
  inv : World σ η → Prop
  /-- What holds of the world while the client has no call. -/
  idle : ι → World σ η → Prop
  /-- What may become of the world while the client waits. -/
  rely : ι → World σ η → World σ η → Prop
  /-- What holds when the client sends a command. -/
  promise : ι → κ → C → World σ η → Prop
  /-- What holds when the client returns a result. -/
  result : ι → κ → α → World σ η → Prop

namespace Discipline

variable {D : Discipline ι κ C α σ η} {rec : Recorder ι κ C R α σ η} {m : Server ι C R α σ}
  {prog : κ → Prog C R α} {i : ι} {call : κ}

/-- The program keeps its promises, however the world changes between its commands. -/
def Keeps (D : Discipline ι κ C α σ η) (rec : Recorder ι κ C R α σ η) (m : Server ι C R α σ) (i : ι) (call : κ) :
    Prog C R α → World σ η → Prop
  | .done a, w => ∀ w', D.rely i w w' → D.inv w' → D.result i call a w'
  | .call c k, w => ∀ w', D.rely i w w' → D.inv w' → D.promise i call c w' ∧
      ∀ r σ', m.exec i c w'.store = some (r, σ') →
        D.inv { store := σ', history := rec.exec i call c w'.store r w'.history } →
          Keeps D rec m i call (k r) { store := σ', history := rec.exec i call c w'.store r w'.history }

/-- A program may be looked at later. -/
theorem Keeps.later {p : Prog C R α} {w w' : World σ η}
    (htrans : ∀ w₁ w₂ w₃, D.rely i w₁ w₂ → D.rely i w₂ w₃ → D.rely i w₁ w₃)
    (h : Keeps D rec m i call p w) (hrely : D.rely i w w') : Keeps D rec m i call p w' := by
  cases p with
  | done a => exact fun w'' hrely' => h w'' (htrans w w' w'' hrely hrely')
  | call c k => exact fun w'' hrely' => h w'' (htrans w w' w'' hrely hrely')

/-- A program keeps its promises if it avoids the commands that could break `I`, and `I` is all that it promises. -/
theorem keeps_of_avoids {P : C → Prop} {I : World σ η → Prop} (hrely : ∀ w w', D.rely i w w' → I w → I w')
    (hpromise : ∀ c w, ¬P c → I w → D.promise i call c w) (hresult : ∀ a w, I w → D.result i call a w)
    (hexec : ∀ c w r σ', ¬P c → I w → m.exec i c w.store = some (r, σ') →
      I { store := σ', history := rec.exec i call c w.store r w.history }) :
    ∀ (p : Prog C R α) (w : World σ η), p.Avoids P → I w → Keeps D rec m i call p w
  | .done a, w, _, hI => fun w' hw' _ => hresult a w' (hrely w w' hw' hI)
  | .call c k, w, havoids, hI => by
      intro w' hw' _
      have hI' := hrely w w' hw' hI
      refine ⟨hpromise c w' havoids.1 hI', fun r σ' hans _ => ?_⟩
      exact keeps_of_avoids hrely hpromise hresult hexec (k r) _ (havoids.2 r) (hexec c w' r σ' havoids.1 hI' hans)

/-- What holds of a client: it is idle, or its program keeps its promises. -/
def Stands (D : Discipline ι κ C α σ η) (rec : Recorder ι κ C R α σ η) (m : Server ι C R α σ) (i : ι)
    (w : World σ η) : Option (κ × Prog C R α) → Prop
  | none => D.idle i w
  | some (call, p) => Keeps D rec m i call p w

/-- What holds of an observed pool: the invariant, and every client stands. -/
structure Holds (D : Discipline ι κ C α σ η) (rec : Recorder ι κ C R α σ η) (m : Server ι C R α σ)
    (o : Observed ι κ C R α σ η) : Prop where
  inv : D.inv o.world
  stands : ∀ i, D.Stands rec m i o.world (o.pool.client i)

/-- What a move of client `i` owes to the rest of the pool: the invariant, and a world that the others rely on. -/
structure Owes (D : Discipline ι κ C α σ η) (i : ι) (w w' : World σ η) : Prop where
  inv : D.inv w'
  rely : ∀ j, j ≠ i → D.rely j w w'

/-- Every move of the system keeps to the discipline, where its client keeps its promises. -/
structure Obeyed [DecidableEq ι] (D : Discipline ι κ C α σ η) (rec : Recorder ι κ C R α σ η) (m : Server ι C R α σ)
    (prog : κ → Prog C R α) (M : System (Observed ι κ C R α σ η) (Move ι κ)) : Prop where
  next : ∀ {o e o'}, M.step o e o' → rec.next m prog o e = some o'
  refl : ∀ i w, D.rely i w w
  trans : ∀ i w₁ w₂ w₃, D.rely i w₁ w₂ → D.rely i w₂ w₃ → D.rely i w₁ w₃
  idle : ∀ {i w w'}, D.idle i w → D.rely i w w' → D.idle i w'
  init : ∀ {o}, M.init o → (∀ i, o.pool.client i = none) ∧ D.inv o.world ∧ ∀ i, D.idle i o.world
  start : ∀ {o i call o'}, D.Holds rec m o → M.step o (.start i call) o' → D.idle i o.world →
    D.Owes i o.world { store := o.pool.store, history := rec.start i call o.history } ∧
      D.Keeps rec m i call (prog call) { store := o.pool.store, history := rec.start i call o.history }
  exec : ∀ {o i call c k r σ' o'}, D.Holds rec m o → M.step o (.exec i) o' →
    o.pool.client i = some (call, .call c k) → m.exec i c o.pool.store = some (r, σ') → D.promise i call c o.world →
      D.Owes i o.world { store := σ', history := rec.exec i call c o.pool.store r o.history }
  finish : ∀ {o i call a o'}, D.Holds rec m o → M.step o (.finish i) o' → o.pool.client i = some (call, .done a) →
    D.result i call a o.world →
      D.Owes i o.world { store := m.close i a o.pool.store, history := rec.finish i call a o.history } ∧
        D.idle i { store := m.close i a o.pool.store, history := rec.finish i call a o.history }
  crash : ∀ {o i call p o'}, D.Holds rec m o → M.step o (.crash i) o' → o.pool.client i = some (call, p) →
    D.Keeps rec m i call p o.world →
      D.Owes i o.world { store := m.abandon i o.pool.store, history := rec.crash i o.history } ∧
        D.idle i { store := m.abandon i o.pool.store, history := rec.crash i o.history }

namespace Obeyed

variable [DecidableEq ι] {M : System (Observed ι κ C R α σ η) (Move ι κ)} {o o' : Observed ι κ C R α σ η}

/-- The clients stand after a move of client `i`, if `i` does. -/
theorem stands_put (hD : D.Obeyed rec m prog M) (h : D.Holds rec m o) {σ' : σ} {η' : η}
    {running : Option (κ × Prog C R α)} (howes : D.Owes i o.world { store := σ', history := η' })
    (hi : D.Stands rec m i { store := σ', history := η' } running) :
    D.Holds rec m { pool := o.pool.put i running σ', history := η' } := by
  refine ⟨howes.inv, fun j => ?_⟩
  by_cases hji : j = i
  · subst hji
    show D.Stands rec m j _ ((o.pool.put j running σ').client j)
    rw [Pool.put_self]
    exact hi
  · show D.Stands rec m j _ ((o.pool.put i running σ').client j)
    rw [Pool.put_of_ne hji]
    have hj := h.stands j
    have hrely := howes.rely j hji
    rcases hc : o.pool.client j with _ | ⟨call, p⟩
    · rw [hc] at hj
      exact hD.idle hj hrely
    · rw [hc] at hj
      exact Keeps.later (hD.trans j) hj hrely

/-- A client that sends a command keeps its promise about it. -/
theorem promise_of (hD : D.Obeyed rec m prog M) (h : D.Holds rec m o) {c : C} {k : R c → Prog C R α}
    (hi : o.pool.client i = some (call, .call c k)) : D.promise i call c o.world := by
  have hstand := h.stands i
  rw [hi] at hstand
  exact (hstand o.world (hD.refl i _) h.inv).1

/-- A client that returns a result keeps its promise about it. -/
theorem result_of (hD : D.Obeyed rec m prog M) (h : D.Holds rec m o) {a : α}
    (hi : o.pool.client i = some (call, .done a)) : D.result i call a o.world := by
  have hstand := h.stands i
  rw [hi] at hstand
  exact hstand o.world (hD.refl i _) h.inv

theorem step (hD : D.Obeyed rec m prog M) (h : D.Holds rec m o) {e : Move ι κ} (hstep : M.step o e o') :
    D.Holds rec m o' := by
  cases e with
  | start i call =>
      obtain ⟨hi, rfl⟩ := Recorder.next_start (hD.next hstep)
      have hidle := h.stands i
      rw [hi] at hidle
      obtain ⟨howes, hkeeps⟩ := hD.start h hstep hidle
      exact hD.stands_put h howes hkeeps
  | exec i =>
      obtain ⟨call, c, k, r, σ', hi, hexec, rfl⟩ := Recorder.next_exec (hD.next hstep)
      have howes := hD.exec h hstep hi hexec (hD.promise_of h hi)
      have hstand := h.stands i
      rw [hi] at hstand
      exact hD.stands_put h howes ((hstand o.world (hD.refl i _) h.inv).2 r σ' hexec howes.inv)
  | finish i =>
      obtain ⟨call, a, hi, rfl⟩ := Recorder.next_finish (hD.next hstep)
      obtain ⟨howes, hidle⟩ := hD.finish h hstep hi (hD.result_of h hi)
      exact hD.stands_put h howes hidle
  | crash i =>
      obtain ⟨call, p, hi, rfl⟩ := Recorder.next_crash (hD.next hstep)
      have hstand := h.stands i
      rw [hi] at hstand
      obtain ⟨howes, hidle⟩ := hD.crash h hstep hi hstand
      exact hD.stands_put h howes hidle

/-- **The rule of a discipline.** Where it is obeyed, its invariant holds in every reachable state, and every client
    keeps its promises there. -/
theorem holds (hD : D.Obeyed rec m prog M) (ho : M.Reachable o) : D.Holds rec m o := by
  refine ho.invariant (I := D.Holds rec m) ?_ ?_
  · intro o hinit
    obtain ⟨hnone, hinv, hidle⟩ := hD.init hinit
    refine ⟨hinv, fun i => ?_⟩
    rw [hnone i]
    exact hidle i
  · intro o e o' _ h hstep
    exact hD.step h hstep

end Obeyed
end Discipline
end Azums
