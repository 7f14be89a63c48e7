import Mathlib.Algebra.BigOperators.Group.Finset.Piecewise
import Mathlib.Algebra.Order.BigOperators.Group.Finset

/-!
# `Lib.Loop` — loops that end

A loop takes one turn after the other. A turn gets its input from outside, and either goes on with a new state or stops
with a result; `loop turn inputs s` runs as many turns as there are inputs, and is `none` if the loop has not stopped by
then. Two rules say what is to be proved of one turn:

* `loop_ends` — where every turn that goes on lowers a rank, the loop stops within as many turns as the rank says;
* `loop_result` — what holds at the start, is kept by a turn that goes on and gives a property of the result of a turn
  that stops, gives that property of the loop's result.

A rank is often a sum over the things that are left to do. `sum_spend` says that it falls by as many as were worked on.
-/

namespace Azums

/-- What a turn of a loop comes to. -/
inductive Turn (σ β : Type) where
  | again (s : σ)
  | stop (result : β)

section Loop

variable {ι σ β : Type} {turn : ι → σ → Turn σ β}

/-- The turns of a loop, one for each input. -/
def loop (turn : ι → σ → Turn σ β) : List ι → σ → Option β
  | [], _ => none
  | i :: is, s =>
      match turn i s with
      | .stop result => some result
      | .again s => loop turn is s

/-- **The termination rule.** -/
theorem loop_ends {I : σ → Prop} (rank : σ → Nat) (is : List ι)
    (hturn : ∀ i ∈ is, ∀ s s', I s → turn i s = .again s' → I s' ∧ rank s' < rank s) :
    ∀ s, I s → rank s < is.length → ∃ result, loop turn is s = some result := by
  induction is with
  | nil => intro s _ hlen; exact absurd hlen (Nat.not_lt_zero _)
  | cons i is ih =>
      intro s hs hlen
      unfold loop
      cases hone : turn i s with
      | stop result => exact ⟨result, rfl⟩
      | again s' =>
          obtain ⟨hs', hrank⟩ := hturn i List.mem_cons_self s s' hs hone
          rw [List.length_cons] at hlen
          exact ih (fun j hj => hturn j (List.mem_cons_of_mem _ hj)) s' hs' (by omega)

/-- **The invariant rule.** -/
theorem loop_result {I : σ → Prop} {P : β → Prop} (is : List ι)
    (hagain : ∀ i ∈ is, ∀ s s', I s → turn i s = .again s' → I s')
    (hstop : ∀ i ∈ is, ∀ s result, I s → turn i s = .stop result → P result) :
    ∀ s result, I s → loop turn is s = some result → P result := by
  induction is with
  | nil => intro s result _ h; cases h
  | cons i is ih =>
      intro s result hs h
      unfold loop at h
      cases hone : turn i s with
      | stop r =>
          rw [hone] at h
          cases h
          exact hstop i List.mem_cons_self s result hs hone
      | again s' =>
          rw [hone] at h
          exact ih (fun j hj => hagain j (List.mem_cons_of_mem _ hj)) (fun j hj => hstop j (List.mem_cons_of_mem _ hj))
            s' result (hagain i List.mem_cons_self s s' hs hone) h

end Loop

/-! ## A sum as a rank -/

/-- Things are left to do, each with its weight. If none is added, none gets heavier, and each of `worked` is gone or
    lighter, then the sum of the weights has fallen by as many as `worked` has. -/
theorem sum_spend {α : Type} [DecidableEq α] {left left' worked : Finset α} {weight weight' : α → Nat}
    (hsub : left' ⊆ left) (hworked : worked ⊆ left) (hpos : ∀ a ∈ worked, 1 ≤ weight a)
    (hle : ∀ a ∈ left', weight' a ≤ weight a) (hlt : ∀ a ∈ left', a ∈ worked → weight' a < weight a) :
    ∑ a ∈ left', weight' a + worked.card ≤ ∑ a ∈ left, weight a := by
  have hcard : worked.card = ∑ a ∈ left, if a ∈ worked then 1 else 0 := by
    rw [Finset.sum_ite_mem, Finset.inter_eq_right.mpr hworked, Finset.card_eq_sum_ones]
  have hrest : ∑ a ∈ left', weight' a = ∑ a ∈ left, if a ∈ left' then weight' a else 0 := by
    rw [Finset.sum_ite_mem, Finset.inter_eq_right.mpr hsub]
  rw [hcard, hrest, ← Finset.sum_add_distrib]
  refine Finset.sum_le_sum fun a _ => ?_
  by_cases hin : a ∈ left' <;> by_cases hw : a ∈ worked
  · simpa [hin, hw] using Nat.succ_le_of_lt (hlt a hin hw)
  · simpa [hin, hw] using hle a hin
  · simpa [hin, hw] using hpos a hw
  · simp [hin, hw]

end Azums
