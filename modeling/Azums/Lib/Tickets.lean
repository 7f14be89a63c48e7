import Mathlib.Data.List.NodupEquivFin
import Mathlib.Data.List.Perm.Lattice
import Mathlib.Logic.Function.Basic

/-!
# `Lib.Tickets` — numbers that are drawn and given back

A dispenser issues the numbers 1, 2, 3, … under each key. A client holds at most one number at a time, and gives it back
when it is done with what the number was for. `Tickets.Sound` is the account of it: a number that has been issued is held
by one client, or has been given back once, and nothing else is held or has been given back.
-/

namespace Azums

/-- How many numbers were issued under each key, who holds one, and which were given back. -/
structure Tickets (ι κ : Type) where
  issued : κ → Nat
  holder : ι → Option (κ × Nat)
  returned : κ → List Nat

namespace Tickets

variable {ι κ : Type}

/-- Nothing has been issued. -/
def empty : Tickets ι κ := { issued := fun _ => 0, holder := fun _ => none, returned := fun _ => [] }

/-- The account of the numbers. -/
structure Sound (t : Tickets ι κ) : Prop where
  nodup : ∀ k, (t.returned k).Nodup
  owner : ∀ i j k n, t.holder i = some (k, n) → t.holder j = some (k, n) → i = j
  apart : ∀ i k n, t.holder i = some (k, n) → n ∉ t.returned k
  numbers : ∀ k n, (n ∈ t.returned k ∨ ∃ i, t.holder i = some (k, n)) ↔ 1 ≤ n ∧ n ≤ t.issued k

section Account

variable {t : Tickets ι κ} {i : ι} {k : κ} {n : Nat}

theorem empty_sound : (empty : Tickets ι κ).Sound where
  nodup _ := List.nodup_nil
  owner _ _ _ _ h := by cases h
  apart _ _ _ h := by cases h
  numbers k n := by
    simp only [empty, List.not_mem_nil, reduceCtorEq, exists_false, or_self, false_iff]
    omega

/-- What is held has been issued. -/
theorem Sound.held (h : t.Sound) (hi : t.holder i = some (k, n)) : 1 ≤ n ∧ n ≤ t.issued k :=
  (h.numbers k n).mp (Or.inr ⟨i, hi⟩)

/-- The next number is nobody's. -/
theorem Sound.fresh (h : t.Sound) (i : ι) (k : κ) : t.holder i ≠ some (k, t.issued k + 1) := by
  intro hi
  have hle := (h.held hi).2
  omega

/-- **The account at rest.** When nobody holds a number, those given back are the numbers up to the last one issued, each
    once. -/
theorem Sound.returned_perm (h : t.Sound) (hnone : ∀ i, t.holder i = none) (k : κ) :
    (t.returned k).Perm (List.range' 1 (t.issued k)) := by
  refine (List.perm_ext_iff_of_nodup (h.nodup k) List.nodup_range').mpr fun n => ?_
  have hnum := h.numbers k n
  simp only [hnone, reduceCtorEq, exists_false, or_false] at hnum
  rw [hnum, List.mem_range'_1]
  omega

/-- Distinct numbers from 1 up to a bound are not more than the bound. -/
theorem length_le_of_bounded {l : List Nat} {b : Nat} (hnodup : l.Nodup) (h : ∀ n ∈ l, 1 ≤ n ∧ n ≤ b) :
    l.length ≤ b := by
  have hsub : l ⊆ List.range' 1 b := fun n hn => by
    rw [List.mem_range'_1]
    have := h n hn
    omega
  simpa using (List.subperm_of_subset hnodup hsub).length_le

end Account

section Operations

variable [DecidableEq ι] [DecidableEq κ]

/-- The next number under a key goes to a client. -/
def issue (t : Tickets ι κ) (i : ι) (k : κ) : Tickets ι κ :=
  { t with
    issued := Function.update t.issued k (t.issued k + 1)
    holder := Function.update t.holder i (some (k, t.issued k + 1)) }

/-- A client gives back what it holds. -/
def giveBack (t : Tickets ι κ) (i : ι) : Tickets ι κ :=
  match t.holder i with
  | none => t
  | some (k, n) =>
      { t with
        holder := Function.update t.holder i none
        returned := Function.update t.returned k (t.returned k ++ [n]) }

variable {t : Tickets ι κ} {i j : ι} {k k' : κ} {n : Nat}

/-! ## What the operations do -/

@[simp] theorem issue_issued_self : (t.issue i k).issued k = t.issued k + 1 := by simp [issue]

theorem issue_issued_of_ne (h : k' ≠ k) : (t.issue i k).issued k' = t.issued k' := by simp [issue, h]

@[simp] theorem issue_holder_self : (t.issue i k).holder i = some (k, t.issued k + 1) := by simp [issue]

theorem issue_holder_of_ne (h : j ≠ i) : (t.issue i k).holder j = t.holder j := by simp [issue, h]

@[simp] theorem issue_returned : (t.issue i k).returned = t.returned := rfl

theorem issued_le_issue (k' : κ) : t.issued k' ≤ (t.issue i k).issued k' := by
  by_cases hk : k' = k
  · subst hk
    simp
  · rw [issue_issued_of_ne hk]

@[simp] theorem giveBack_issued : (t.giveBack i).issued = t.issued := by
  unfold giveBack
  split <;> rfl

@[simp] theorem giveBack_holder_self : (t.giveBack i).holder i = none := by
  unfold giveBack
  split
  · assumption
  · simp

theorem giveBack_holder_of_ne (h : j ≠ i) : (t.giveBack i).holder j = t.holder j := by
  unfold giveBack
  split
  · rfl
  · simp [h]

theorem giveBack_none (h : t.holder i = none) : t.giveBack i = t := by simp [giveBack, h]

theorem giveBack_returned (h : t.holder i = some (k, n)) :
    (t.giveBack i).returned = Function.update t.returned k (t.returned k ++ [n]) := by simp [giveBack, h]

theorem mem_giveBack_returned {m : Nat} :
    m ∈ (t.giveBack i).returned k ↔ m ∈ t.returned k ∨ t.holder i = some (k, m) := by
  cases hi : t.holder i with
  | none => simp [giveBack_none hi]
  | some held =>
      obtain ⟨k₁, n⟩ := held
      rw [giveBack_returned hi]
      by_cases hk : k = k₁
      · subst hk
        simp [eq_comm]
      · simp [hk, Ne.symm hk]

/-! ## The account is kept -/

/-- A client that holds nothing may draw a number. -/
theorem Sound.issue (h : t.Sound) (hi : t.holder i = none) : (t.issue i k).Sound where
  nodup := h.nodup
  owner := by
    intro a b k' n ha hb
    by_cases hai : a = i
    · by_cases hbi : b = i
      · rw [hai, hbi]
      · rw [hai, issue_holder_self] at ha
        rw [issue_holder_of_ne hbi] at hb
        cases ha
        exact absurd hb (h.fresh b k)
    · rw [issue_holder_of_ne hai] at ha
      by_cases hbi : b = i
      · rw [hbi, issue_holder_self] at hb
        cases hb
        exact absurd ha (h.fresh a k)
      · rw [issue_holder_of_ne hbi] at hb
        exact h.owner a b k' n ha hb
  apart := by
    intro a k' n ha hmem
    rw [issue_returned] at hmem
    by_cases hai : a = i
    · rw [hai, issue_holder_self] at ha
      cases ha
      have hle := ((h.numbers k _).mp (Or.inl hmem)).2
      omega
    · rw [issue_holder_of_ne hai] at ha
      exact h.apart a k' n ha hmem
  numbers := by
    intro k' n
    have hholder : (∃ a, (t.issue i k).holder a = some (k', n)) ↔
        (k' = k ∧ n = t.issued k + 1) ∨ ∃ a, t.holder a = some (k', n) := by
      constructor
      · rintro ⟨a, ha⟩
        by_cases hai : a = i
        · rw [hai, issue_holder_self] at ha
          cases ha
          exact Or.inl ⟨rfl, rfl⟩
        · rw [issue_holder_of_ne hai] at ha
          exact Or.inr ⟨a, ha⟩
      · rintro (⟨rfl, rfl⟩ | ⟨a, ha⟩)
        · exact ⟨i, issue_holder_self⟩
        · refine ⟨a, ?_⟩
          rw [issue_holder_of_ne (fun hai => by rw [hai, hi] at ha; cases ha)]
          exact ha
    rw [hholder, issue_returned]
    have hold := h.numbers k' n
    by_cases hk : k' = k
    · subst hk
      rw [issue_issued_self]
      simp only [true_and]
      constructor
      · rintro (hmem | rfl | hex)
        · have := hold.mp (Or.inl hmem)
          omega
        · omega
        · have := hold.mp (Or.inr hex)
          omega
      · intro hn
        by_cases hlast : n = t.issued k' + 1
        · exact Or.inr (Or.inl hlast)
        · rcases hold.mpr (by omega) with hmem | hex
          · exact Or.inl hmem
          · exact Or.inr (Or.inr hex)
    · rw [issue_issued_of_ne hk]
      simpa [hk] using hold

/-- A client may give back what it holds. -/
theorem Sound.giveBack (h : t.Sound) (i : ι) : (t.giveBack i).Sound := by
  cases hi : t.holder i with
  | none =>
      rw [giveBack_none hi]
      exact h
  | some held =>
      obtain ⟨k, n⟩ := held
      have hother : ∀ {a k' m}, (t.giveBack i).holder a = some (k', m) → a ≠ i ∧ t.holder a = some (k', m) := by
        intro a k' m ha
        have hai : a ≠ i := fun hai => by rw [hai, giveBack_holder_self] at ha; cases ha
        rw [giveBack_holder_of_ne hai] at ha
        exact ⟨hai, ha⟩
      refine ⟨?_, ?_, ?_, ?_⟩
      · intro k'
        rw [giveBack_returned hi]
        by_cases hk : k' = k
        · subst hk
          rw [Function.update_self]
          exact (List.nodup_append_comm.mp (List.nodup_cons.mpr ⟨h.apart i k' n hi, h.nodup k'⟩))
        · rw [Function.update_of_ne hk]
          exact h.nodup k'
      · intro a b k' m ha hb
        exact h.owner a b k' m (hother ha).2 (hother hb).2
      · intro a k' m ha hmem
        obtain ⟨hai, ha⟩ := hother ha
        rcases mem_giveBack_returned.mp hmem with hold | hown
        · exact h.apart a k' m ha hold
        · exact hai (h.owner a i k' m ha hown)
      · intro k' m
        rw [giveBack_issued, ← h.numbers k' m, mem_giveBack_returned, or_assoc]
        refine or_congr Iff.rfl ⟨?_, ?_⟩
        · rintro (hown | ⟨a, ha⟩)
          · exact ⟨i, hown⟩
          · exact ⟨a, (hother ha).2⟩
        · rintro ⟨a, ha⟩
          by_cases hai : a = i
          · subst hai
            exact Or.inl ha
          · exact Or.inr ⟨a, (giveBack_holder_of_ne hai).trans ha⟩

end Operations

end Tickets
end Azums
