import Mathlib.Data.Finset.Card

/-!
# `Lib.Reached` — what a loop gets that stops at the first obstacle

A loop of `n` rounds takes the elements of a list one by one and gets no further than the first that fails `p`: it
reaches `(l.takeWhile p).take n`. `reached_count_iff` says when it gets as many of the elements marked by `r` as the
list and the rounds allow.
-/

namespace Azums

section Reached

variable {α : Type} {p r : α → Bool} {l : List α} {n : Nat}

/-- The reached elements are among the first `n`. -/
theorem reached_prefix (p : α → Bool) (l : List α) (n : Nat) : (l.takeWhile p).take n <+: l.take n :=
  (List.takeWhile_prefix p).take n

/-- The first `n` elements are all reached if each of them lets the loop go on. -/
theorem reached_eq_take (hn : n ≤ l.length) (hall : ∀ a ∈ l.take n, p a = true) :
    (l.takeWhile p).take n = l.take n := by
  have hsplit : l.takeWhile p = l.take n ++ (l.drop n).takeWhile p := by
    rw [← List.takeWhile_append_of_pos hall, List.take_append_drop]
  rw [hsplit, List.take_append_of_le_length (by simp [hn]), List.take_take, min_self]

variable [DecidableEq α]

/-- The distinct elements of a list that are wanted. -/
def wanted (r : α → Bool) (l : List α) : Finset α := (l.filter r).toFinset

theorem mem_wanted {a : α} : a ∈ wanted r l ↔ a ∈ l ∧ r a = true := by simp [wanted]

theorem wanted_card (r : α → Bool) (l : List α) : (wanted r l).card = (l.filter r).dedup.length :=
  List.card_toFinset _

theorem wanted_subset {l' : List α} (h : l' ⊆ l) : wanted r l' ⊆ wanted r l := by
  intro a ha
  rw [mem_wanted] at ha ⊢
  exact ⟨h ha.1, ha.2⟩

/-- At most one for each element. -/
theorem wanted_card_le (r : α → Bool) (l : List α) : (wanted r l).card ≤ l.length :=
  (List.toFinset_card_le _).trans (List.length_filter_le r l)

/-- One for each element, exactly if the elements are distinct and all wanted. -/
theorem wanted_card_eq_iff : (wanted r l).card = l.length ↔ l.Nodup ∧ ∀ a ∈ l, r a = true := by
  constructor
  · intro h
    have hfilter : (l.filter r).length = l.length :=
      le_antisymm (List.length_filter_le r l) (h ▸ List.toFinset_card_le _)
    have hall : l.filter r = l := (List.filter_sublist.eq_of_length hfilter)
    refine ⟨?_, List.filter_eq_self.mp hall⟩
    rw [wanted, hall, List.card_toFinset] at h
    exact List.dedup_eq_self.mp ((List.dedup_sublist l).eq_of_length h)
  · rintro ⟨hnd, hall⟩
    rw [wanted, List.filter_eq_self.mpr hall, List.toFinset_card_of_nodup hnd]

/-- As many wanted elements are reached as there are, up to `n`, exactly if the first `n` elements are distinct and
    wanted, or every wanted element is reached. -/
theorem reached_count_iff (hr : ∀ a, r a = true → p a = true) :
    (wanted r ((l.takeWhile p).take n)).card = min n (wanted r l).card ↔
      (n ≤ l.length ∧ (l.take n).Nodup ∧ ∀ a ∈ l.take n, r a = true) ∨
        ∀ a ∈ l, r a = true → a ∈ (l.takeWhile p).take n := by
  have hpre := reached_prefix p l n
  have hsub : wanted r ((l.takeWhile p).take n) ⊆ wanted r l :=
    wanted_subset fun a ha => List.mem_of_mem_take (hpre.subset ha)
  have hlen : ((l.takeWhile p).take n).length ≤ n := List.length_take_le n _
  have hle := wanted_card_le r ((l.takeWhile p).take n)
  constructor
  · intro h
    rcases le_or_gt (wanted r l).card n with hfew | hmany
    · -- every wanted element fits
      right
      have heq := Finset.eq_of_subset_of_card_le hsub (by omega)
      intro a ha hwant
      have hmem : a ∈ wanted r l := mem_wanted.mpr ⟨ha, hwant⟩
      rw [← heq] at hmem
      exact (mem_wanted.mp hmem).1
    · -- the reached elements fill the batch, so they are the first ones
      left
      have hfull : ((l.takeWhile p).take n).length = n := by omega
      have hn : n ≤ l.length := by
        have h' := hpre.length_le
        rw [hfull, List.length_take] at h'
        omega
      have heq : (l.takeWhile p).take n = l.take n := hpre.eq_of_length (by rw [hfull, List.length_take]; omega)
      have hcard : (wanted r (l.take n)).card = (l.take n).length := by
        rw [← heq, hfull]
        omega
      exact ⟨hn, wanted_card_eq_iff.mp hcard⟩
  · rintro (⟨hn, hnd, hall⟩ | hall)
    · have heq := reached_eq_take hn fun a ha => hr a (hall a ha)
      have hcard := wanted_card_eq_iff.mpr ⟨hnd, hall⟩
      rw [List.length_take, min_eq_left hn] at hcard
      have hmore := Finset.card_le_card hsub
      rw [heq, hcard] at hmore ⊢
      omega
    · have heq : wanted r l ⊆ wanted r ((l.takeWhile p).take n) := by
        intro a ha
        obtain ⟨hmem, hwant⟩ := mem_wanted.mp ha
        exact mem_wanted.mpr ⟨hall a hmem hwant, hwant⟩
      have hcard := Finset.card_le_card heq
      have hmore := Finset.card_le_card hsub
      omega

end Reached
end Azums
