import Mathlib.Data.List.Count
import Mathlib.Data.List.Sort

/-!
# `Lib.OrderBy` — `ORDER BY … LIMIT n` on lists

The first `n` rows of a sorted selection are `(l.insertionSort r).take n`. These lemmas say how that commutes with
a `WHERE`: sorting a part of a list gives that part of the sorted list, and the first `n` rows of the part are the
first `n` rows of the whole exactly when those all belong to the part.

Where the order ties rows, the first `n` depend on how the ties are broken; `take_eq_of_sorted` says when they do not.
-/

namespace Azums.OrderBy

variable {α : Type} {r : α → α → Prop}

/-- Two sorted arrangements of the same rows agree, where `r` does not tie two different rows. -/
theorem eq_of_sorted {l l' : List α} (hp : l.Perm l') (hl : l.Pairwise r) (hl' : l'.Pairwise r)
    (hanti : ∀ a ∈ l, ∀ b ∈ l, r a b → r b a → a = b) : l = l' :=
  hp.eq_of_pairwise (fun a b ha hb => hanti a ha b (hp.mem_iff.mpr hb)) hl hl'

/-- Sorting a part of a list is taking that part of the sorted list. -/
theorem insertionSort_filter [DecidableRel r] [Std.Total r] [IsTrans α r] (p : α → Bool) {l : List α}
    (hanti : ∀ a ∈ l, ∀ b ∈ l, r a b → r b a → a = b) :
    (l.filter p).insertionSort r = (l.insertionSort r).filter p := by
  have hperm : ((l.filter p).insertionSort r).Perm ((l.insertionSort r).filter p) :=
    (List.perm_insertionSort r _).trans ((List.perm_insertionSort r l).filter p).symm
  refine eq_of_sorted hperm (List.pairwise_insertionSort r _) ((List.pairwise_insertionSort r l).filter p) ?_
  intro a ha b hb
  exact hanti a (List.mem_of_mem_filter ((List.mem_insertionSort r).mp ha)) b
    (List.mem_of_mem_filter ((List.mem_insertionSort r).mp hb))

/-- The first `n` of a part are the first `n` of the whole exactly when those belong to the part. -/
theorem take_filter_eq_iff (n : Nat) (p : α → Bool) (l : List α) :
    (l.filter p).take n = l.take n ↔ ∀ a ∈ l.take n, p a = true := by
  constructor
  · intro h a ha
    rw [← h] at ha
    exact (List.mem_filter.mp (List.mem_of_mem_take ha)).2
  · intro h
    have hsplit : l.filter p = l.take n ++ (l.drop n).filter p := by
      conv_lhs => rw [← List.take_append_drop n l, List.filter_append, List.filter_eq_self.mpr h]
    rw [hsplit]
    by_cases hn : n ≤ l.length
    · rw [List.take_left' (List.length_take_of_le hn)]
    · rw [List.drop_eq_nil_of_le (by omega), List.filter_nil, List.append_nil, List.take_take, min_self]

/-! ## Ties -/

/-- Of a sorted list, the first `n` rows contain every row that comes before one of them. -/
theorem mem_take_of_before {s : α → α → Prop} {l : List α} {n : Nat} (hl : l.Pairwise s)
    (hasymm : ∀ a b, s a b → ¬s b a) {a b : α} (hb : b ∈ l.take n) (ha : a ∈ l) (hab : s a b) : a ∈ l.take n := by
  rw [← List.take_append_drop n l] at ha hl
  rcases List.mem_append.mp ha with hin | hout
  · exact hin
  · exact absurd hab (hasymm b a ((List.pairwise_append.mp hl).2.2 b hb a hout))

/-- Fewer than `n` rows come strictly before one of the first `n`. -/
theorem countP_before_lt [DecidableRel r] [Std.Total r] {l : List α} {n : Nat} (hl : l.Pairwise r) {a : α}
    (ha : a ∈ l.take n) : l.countP (fun b => !decide (r a b)) < n := by
  rw [← List.take_append_drop n l] at hl
  obtain ⟨_, _, hlater⟩ := List.pairwise_append.mp hl
  have hdrop : (l.drop n).countP (fun b => !decide (r a b)) = 0 := by
    refine List.countP_eq_zero.mpr fun b hb => ?_
    simp [hlater a ha b hb]
  have hself : r a a := (Std.Total.total a a).elim id id
  have htake : (l.take n).countP (fun b => !decide (r a b)) < (l.take n).length :=
    List.countP_lt_length_iff.mpr ⟨a, ha, by simp [hself]⟩
  have hsplit : l.countP (fun b => !decide (r a b)) =
      (l.take n).countP (fun b => !decide (r a b)) + (l.drop n).countP (fun b => !decide (r a b)) := by
    rw [← List.countP_append, List.take_append_drop]
  have hlen : (l.take n).length ≤ n := List.length_take_le ..
  omega

/-- Two sorted arrangements of the same rows have the same first `n`, where the order ties no row that fewer than `n`
    rows come strictly before. -/
theorem take_eq_of_sorted [DecidableRel r] [Std.Total r] {l l' : List α} {n : Nat} (hp : l.Perm l')
    (hl : l.Pairwise r) (hl' : l'.Pairwise r)
    (hties : ∀ a ∈ l, ∀ b ∈ l, a ≠ b → r a b → r b a → n ≤ l.countP (fun c => !decide (r a c))) :
    l.take n = l'.take n := by
  -- the rows that fewer than `n` come before: the first `n` are among them, and they are not tied
  have hcount (a : α) : l'.countP (fun c => !decide (r a c)) = l.countP (fun c => !decide (r a c)) :=
    (hp.countP_eq _).symm
  have hfirst : ∀ a ∈ l.take n, decide (l.countP (fun c => !decide (r a c)) < n) = true :=
    fun a ha => decide_eq_true (countP_before_lt hl ha)
  have hfirst' : ∀ a ∈ l'.take n, decide (l.countP (fun c => !decide (r a c)) < n) = true :=
    fun a ha => decide_eq_true (hcount a ▸ countP_before_lt hl' ha)
  have huntied : l.filter (fun a => decide (l.countP (fun c => !decide (r a c)) < n)) =
      l'.filter (fun a => decide (l.countP (fun c => !decide (r a c)) < n)) := by
    refine eq_of_sorted (hp.filter _) (hl.filter _) (hl'.filter _) fun a ha b hb hab hba => ?_
    obtain ⟨ha, hlt⟩ := List.mem_filter.mp ha
    by_contra hne
    exact absurd (of_decide_eq_true hlt) (not_lt.mpr (hties a ha b (List.mem_of_mem_filter hb) hne hab hba))
  rw [← (take_filter_eq_iff n _ l).mpr hfirst, ← (take_filter_eq_iff n _ l').mpr hfirst', huntied]

/-- Where what has a property comes before what has not, the first `n` rows have it as often as they can. -/
theorem countP_take {l : List α} {p : α → Bool} (hl : l.Pairwise (fun a b => p b = true → p a = true)) (n : Nat) :
    (l.take n).countP p = min n (l.countP p) := by
  induction l generalizing n with
  | nil => simp
  | cons a l ih =>
      obtain ⟨hhead, htail⟩ := List.pairwise_cons.mp hl
      cases n with
      | zero => simp
      | succ n =>
          rw [List.take_succ_cons]
          by_cases ha : p a = true
          · rw [List.countP_cons_of_pos ha, List.countP_cons_of_pos ha, ih htail]
            omega
          · have hnone : l.countP p = 0 := List.countP_eq_zero.mpr fun b hb hpb => ha (hhead b hb hpb)
            rw [List.countP_cons_of_neg ha, List.countP_cons_of_neg ha, ih htail, hnone]
            omega

end Azums.OrderBy
