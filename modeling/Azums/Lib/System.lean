import Mathlib.Data.List.Forall2

/-!
# `Lib.System` — labelled transition systems, their runs and invariants

A `System σ ι` says which states a run may start in and which steps it may take; a label says which step was
taken. Everything proved about all runs goes through two rules:

* `System.Reachable.invariant` — what holds initially and is kept by every step holds in every reachable state;
* `System.Run.keeps` — what every step of a run keeps, the whole run keeps.

`System.restrict` cuts a system down to the steps that meet a condition, so that "in every run whose steps all
meet the condition" is a statement about the runs of the restricted system.

A machine that answers every request is a function `serve`; two such machines are compared request by request
(`trace_lockstep`).
-/

namespace Azums

/-- A transition system over states `σ` with labels `ι`. -/
structure System (σ ι : Type) where
  init : σ → Prop
  step : σ → ι → σ → Prop

namespace System

variable {σ ι : Type} {m : System σ ι}

/-- The states a system can reach. -/
inductive Reachable (m : System σ ι) : σ → Prop where
  | start {s : σ} : m.init s → Reachable m s
  | next {s s' : σ} {i : ι} : Reachable m s → m.step s i s' → Reachable m s'

/-- A run: the labels of its steps, and the states it leads from and to. -/
inductive Run (m : System σ ι) : σ → List ι → σ → Prop where
  | nil (s : σ) : Run m s [] s
  | cons {s s' s'' : σ} {i : ι} {is : List ι} : m.step s i s' → Run m s' is s'' → Run m s (i :: is) s''

/-- **The invariant rule.** A step may use that the state it starts from is reachable. -/
theorem Reachable.invariant {I : σ → Prop} (hinit : ∀ s, m.init s → I s)
    (hstep : ∀ s i s', m.Reachable s → I s → m.step s i s' → I s') {s : σ} (h : m.Reachable s) : I s := by
  induction h with
  | start hs => exact hinit _ hs
  | next hs hst ih => exact hstep _ _ _ hs ih hst

/-- What a system reaches, one with more steps reaches. -/
theorem Reachable.mono {m' : System σ ι} (hinit : ∀ s, m.init s → m'.init s)
    (hstep : ∀ s i s', m.step s i s' → m'.step s i s') {s : σ} (h : m.Reachable s) : m'.Reachable s := by
  induction h with
  | start hs => exact .start (hinit _ hs)
  | next _ hst ih => exact ih.next (hstep _ _ _ hst)

/-- A run from a reachable state ends in one. -/
theorem Reachable.run {s s' : σ} {is : List ι} (hs : m.Reachable s) (h : m.Run s is s') :
    m.Reachable s' := by
  induction h with
  | nil => exact hs
  | cons hst _ ih => exact ih (hs.next hst)

theorem Run.append {s s' s'' : σ} {is is' : List ι} (h : m.Run s is s') (h' : m.Run s' is' s'') :
    m.Run s (is ++ is') s'' := by
  induction h with
  | nil => exact h'
  | cons hst _ ih => exact .cons hst (ih h')

/-- **The run rule.** What every step from a reachable state keeps, a run from a reachable state keeps. -/
theorem Run.keeps {I : σ → Prop} (hstep : ∀ s i s', m.Reachable s → I s → m.step s i s' → I s')
    {s s' : σ} {is : List ι} (h : m.Run s is s') (hs : m.Reachable s) (hI : I s) : I s' := by
  induction h with
  | nil => exact hI
  | cons hst _ ih => exact ih (hs.next hst) (hstep _ _ _ hs hI hst)

/-- The system that takes only the steps meeting a condition. -/
def restrict (m : System σ ι) (ok : σ → ι → σ → Prop) : System σ ι :=
  { init := m.init, step := fun s i s' => m.step s i s' ∧ ok s i s' }

/-! ### Runs that can be computed -/

section Computed

variable {next : σ → ι → Option σ} {taken : σ → ι → Bool} {s s' : σ}

/-- Each move is taken where it comes. -/
def takes (next : σ → ι → Option σ) (taken : σ → ι → Bool) : σ → List ι → Bool
  | _, [] => true
  | s, i :: rest => taken s i && (next s i).all (fun s' => takes next taken s' rest)

/-- A run that can be computed, of moves that the system takes, is a run of the system. -/
theorem Run.along (hm : ∀ {s i s'}, taken s i = true → next s i = some s' → m.step s i s') (moves : List ι)
    (hmoves : takes next taken s moves = true) (h : moves.foldlM next s = some s') : m.Run s moves s' := by
  induction moves generalizing s with
  | nil =>
      cases h
      exact .nil _
  | cons i rest ih =>
      obtain ⟨s₁, hnext, hrest⟩ := Option.bind_eq_some_iff.mp h
      obtain ⟨hmove, hmoves⟩ := Bool.and_eq_true_iff.mp hmoves
      rw [hnext] at hmoves
      exact .cons (hm hmove hnext) (ih hmoves hrest)

/-- So it is where the system takes all that can be computed. -/
theorem Run.computed (hm : ∀ {s i s'}, next s i = some s' → m.step s i s') (moves : List ι)
    (h : moves.foldlM next s = some s') : m.Run s moves s' := by
  induction moves generalizing s with
  | nil =>
      cases h
      exact .nil _
  | cons i rest ih =>
      obtain ⟨s₁, hnext, hrest⟩ := Option.bind_eq_some_iff.mp h
      exact .cons (hm hnext) (ih hrest)

end Computed

end System

/-! ## Machines in lockstep -/

section Lockstep

variable {σ τ ι α β : Type}

/-- The answers to a list of requests, each with the state it leaves. -/
def trace (serve : ι → σ → α × σ) : List ι → σ → List (α × σ)
  | [], _ => []
  | i :: is, s => serve i s :: trace serve is (serve i s).2

/-- Every request of the list meets a condition in the state it is made in. -/
def Meets (serve : ι → σ → α × σ) (ok : ι → σ → Prop) : List ι → σ → Prop
  | [], _ => True
  | i :: is, s => ok i s ∧ Meets serve ok is (serve i s).2

/-- A condition on the requests alone. -/
theorem Meets.and {serve : ι → σ → α × σ} {ok : ι → σ → Prop} {p : ι → Prop} {is : List ι} :
    ∀ {s : σ}, Meets serve ok is s → (∀ i ∈ is, p i) → Meets serve (fun i s => ok i s ∧ p i) is s := by
  induction is with
  | nil => intro _ _ _; trivial
  | cons i is ih =>
      intro s h hp
      rw [List.forall_mem_cons] at hp
      exact ⟨⟨h.1, hp.1⟩, ih h.2 hp.2⟩

/-- **The lockstep rule.** Two machines whose answers agree and whose states stay related, request by request, agree on
    every list of requests. -/
theorem trace_lockstep {serve : ι → σ → α × σ} {serve' : ι → τ → β × τ} {ok : ι → σ → Prop} {R : σ → τ → Prop}
    {A : α → β → Prop}
    (hstep : ∀ i s t, R s t → ok i s → A (serve i s).1 (serve' i t).1 ∧ R (serve i s).2 (serve' i t).2) :
    ∀ (is : List ι) {s : σ} {t : τ}, R s t → Meets serve ok is s →
      List.Forall₂ (fun a b => A a.1 b.1 ∧ R a.2 b.2) (trace serve is s) (trace serve' is t) := by
  intro is
  induction is with
  | nil => intro s t _ _; exact .nil
  | cons i is ih =>
      intro s t hR hok
      have hone := hstep i s t hR hok.1
      exact .cons hone (ih hone.2 hok.2)

end Lockstep
end Azums
