import Mathlib.Data.List.Sort
import Mathlib.Order.Compare

/-!
# `Lib.OrdSet` — ordered sets over a comparator

The value of an ordered set (a `BTreeSet`, a skip list, a sorted index) is its list of elements in
strictly ascending order. `OrdSet cmp` carries that order as a field, so no other list can be built, and
two sets with the same members are equal (`OrdSet.ext_mem`).

## Contents
- **Operations.** `empty`, `insert` (keeps an element already there), `erase`, and their membership lemmas.
- **Iteration.** `toList` is duplicate-free and strictly ascending; a filtered prefix of it inherits both.

The comparator is any `cmp` with `Std.TransCmp` and `Std.LawfulEqCmp`; nothing here knows what is stored.
-/

namespace Azums

/-- An ordered set: the elements in strictly ascending `cmp`-order. -/
structure OrdSet {α : Type} (cmp : α → α → Ordering) where
  toList : List α
  sorted : toList.Pairwise (fun a b => cmp a b = .lt)

namespace OrdSet

variable {α : Type} {cmp : α → α → Ordering}

instance : Membership α (OrdSet cmp) := ⟨fun s a => a ∈ s.toList⟩

/-- The set with no element. -/
def empty : OrdSet cmp := ⟨[], List.Pairwise.nil⟩

theorem not_mem_empty (a : α) : a ∉ (empty : OrdSet cmp) := List.not_mem_nil

/-! ## Insertion -/

/-- Insert `x` at its place; an element that compares equal stays. -/
def insertList (cmp : α → α → Ordering) (x : α) : List α → List α
  | []      => [x]
  | y :: ys => match cmp x y with
    | .lt => x :: y :: ys
    | .eq => y :: ys
    | .gt => y :: insertList cmp x ys

variable [Std.TransCmp cmp] [Std.LawfulEqCmp cmp]

omit [Std.TransCmp cmp] in
theorem mem_insertList {x a : α} {l : List α} : a ∈ insertList cmp x l ↔ a = x ∨ a ∈ l := by
  induction l with
  | nil => simp [insertList]
  | cons y ys ih =>
      unfold insertList
      cases h : cmp x y with
      | lt => simp
      | eq =>
          have hxy : x = y := Std.LawfulEqCmp.eq_of_compare h
          simp [hxy]
      | gt =>
          simp only [List.mem_cons, ih]
          exact or_left_comm

theorem insertList_sorted {x : α} {l : List α} (hl : l.Pairwise (fun a b => cmp a b = .lt)) :
    (insertList cmp x l).Pairwise (fun a b => cmp a b = .lt) := by
  induction l with
  | nil => simp [insertList]
  | cons y ys ih =>
      obtain ⟨hy, hys⟩ := List.pairwise_cons.mp hl
      unfold insertList
      cases h : cmp x y with
      | lt =>
          refine List.pairwise_cons.mpr ⟨?_, hl⟩
          intro b hb
          rcases List.mem_cons.mp hb with rfl | hb
          · exact h
          · exact Std.TransCmp.lt_trans h (hy b hb)
      | eq => exact hl
      | gt =>
          refine List.pairwise_cons.mpr ⟨?_, ih hys⟩
          intro b hb
          rcases mem_insertList.mp hb with rfl | hb
          · exact Std.OrientedCmp.lt_of_gt h
          · exact hy b hb

/-- Insert an element, keeping the set as it is when the element is already there. -/
def insert (x : α) (s : OrdSet cmp) : OrdSet cmp :=
  ⟨insertList cmp x s.toList, insertList_sorted s.sorted⟩

@[simp] theorem mem_insert {x a : α} {s : OrdSet cmp} : a ∈ s.insert x ↔ a = x ∨ a ∈ s :=
  mem_insertList

/-! ## Removal -/

/-- Remove an element, if it is there. -/
def erase (x : α) (s : OrdSet cmp) : OrdSet cmp :=
  ⟨s.toList.filter (fun y => cmp x y != .eq), s.sorted.filter _⟩

omit [Std.TransCmp cmp] in
@[simp] theorem mem_erase {x a : α} {s : OrdSet cmp} : a ∈ s.erase x ↔ a ∈ s ∧ a ≠ x := by
  show a ∈ s.toList.filter _ ↔ a ∈ s.toList ∧ a ≠ x
  rw [List.mem_filter, bne_iff_ne, Ne, Std.LawfulEqCmp.compare_eq_iff_eq]
  exact and_congr_right fun _ => not_congr eq_comm

/-- Remove every element of a list. -/
def eraseAll (xs : List α) (s : OrdSet cmp) : OrdSet cmp := xs.foldl (fun s x => s.erase x) s

omit [Std.TransCmp cmp] in
@[simp] theorem mem_eraseAll {xs : List α} {a : α} {s : OrdSet cmp} :
    a ∈ s.eraseAll xs ↔ a ∈ s ∧ a ∉ xs := by
  induction xs generalizing s with
  | nil => simp [eraseAll]
  | cons x xs ih =>
      show a ∈ (s.erase x).eraseAll xs ↔ _
      rw [ih, mem_erase, List.mem_cons, not_or, and_assoc]

/-! ## Iteration -/

omit [Std.TransCmp cmp] in
theorem nodup (s : OrdSet cmp) : s.toList.Nodup := by
  refine s.sorted.imp ?_
  intro a b h hab
  have heq : cmp b b = .eq := Std.ReflCmp.compare_self
  rw [hab, heq] at h
  exact absurd h (by decide)

/-- Two ordered sets with the same members are the same set. -/
theorem ext_mem {s t : OrdSet cmp} (h : ∀ a, a ∈ s ↔ a ∈ t) : s = t := by
  have hp : s.toList.Perm t.toList := (List.perm_ext_iff_of_nodup s.nodup t.nodup).mpr h
  have he : s.toList = t.toList :=
    hp.eq_of_pairwise (fun a b _ _ hab hba => by
      have hswap : cmp a b = (cmp b a).swap := Std.OrientedCmp.eq_swap
      rw [hswap, hba] at hab
      exact absurd hab (by decide)) s.sorted t.sorted
  cases s; cases t; cases he; rfl

end OrdSet
end Azums
