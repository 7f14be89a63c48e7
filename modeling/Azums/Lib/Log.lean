import Mathlib.Data.List.Sort

/-!
# `Lib.Log` — logs that grow at the end

A log lists its entries in the order of their keys. Between two readings an entry may change as `R` allows, and what is new
goes to the end: `Extends R l l'`. What `R` keeps true of an entry is counted no less later (`Extends.countP_le`), and
`Extends.of_sorted` derives the relation from what a keyed store does to one entry at a time.
-/

namespace Azums.Log

variable {α β : Type} {R : α → α → Prop} {l l' : List α}

/-- `l'` is `l` with its entries changed as `R` allows, and more entries after them. -/
inductive Extends (R : α → α → Prop) : List α → List α → Prop where
  | more (new : List α) : Extends R [] new
  | entry {a b : α} {l l' : List α} : R a b → Extends R l l' → Extends R (a :: l) (b :: l')

namespace Extends

theorem map {R' : β → β → Prop} {f g : α → β} (hf : ∀ a b, R a b → R' (f a) (g b)) (h : Extends R l l') :
    Extends R' (l.map f) (l'.map g) := by
  induction h with
  | more new => exact .more _
  | entry hab _ ih => exact .entry (hf _ _ hab) ih

/-- What `R` keeps true of an entry is true of as many entries later. -/
theorem countP_le {p : α → Bool} (hp : ∀ a b, R a b → p a = true → p b = true) (h : Extends R l l') :
    l.countP p ≤ l'.countP p := by
  induction h with
  | more new => simp
  | @entry a b l l' hab _ ih =>
      rw [List.countP_cons, List.countP_cons]
      by_cases ha : p a = true
      · simpa [ha, hp a b hab ha] using ih
      · simp only [ha, Bool.false_eq_true, if_false]
        omega

/-- **A keyed store makes a growing log.** Sorted by key, the entries that were there stand first, each under its key; the
    new keys are larger than all of theirs. -/
theorem of_sorted {κ : Type} [LinearOrder κ] {key : α → κ} :
    ∀ {l l' : List α}, l.Pairwise (fun a b => key a < key b) → l'.Pairwise (fun a b => key a < key b) →
      (∀ a ∈ l, ∃ b ∈ l', key b = key a ∧ R a b) → (∀ b ∈ l', (∃ a ∈ l, key b = key a) ∨ ∀ a ∈ l, key a < key b) →
      Extends R l l' := by
  intro l
  induction l with
  | nil => intro l' _ _ _ _; exact .more l'
  | cons a l ih =>
      intro l' hl hl' hkept hnew
      obtain ⟨hfirst, hrest⟩ := List.pairwise_cons.mp hl
      obtain ⟨b, hb, hkey, hab⟩ := hkept a List.mem_cons_self
      cases l' with
      | nil => cases hb
      | cons c l' =>
          obtain ⟨hfirst', hrest'⟩ := List.pairwise_cons.mp hl'
          -- no key comes before the first of `l`, so the successor of `a` is the first of `l'`
          have hle : key a ≤ key c := by
            rcases hnew c List.mem_cons_self with ⟨d, hd, hcd⟩ | hlarge
            · rw [hcd]
              rcases List.mem_cons.mp hd with rfl | hd
              · exact le_refl _
              · exact (hfirst d hd).le
            · exact (hlarge a List.mem_cons_self).le
          have hbc : b = c := by
            rcases List.mem_cons.mp hb with rfl | hb
            · rfl
            · exact absurd (hkey ▸ hfirst' b hb) (not_lt.mpr hle)
          subst hbc
          refine .entry hab (ih hrest hrest' (fun d hd => ?_) (fun d hd => ?_))
          · obtain ⟨e, he, hed, hde⟩ := hkept d (List.mem_cons_of_mem _ hd)
            rcases List.mem_cons.mp he with rfl | he
            · exact absurd (hfirst d hd) (by rw [← hed, hkey]; exact lt_irrefl _)
            · exact ⟨e, he, hed, hde⟩
          · rcases hnew d (List.mem_cons_of_mem _ hd) with ⟨e, he, hde⟩ | hlarge
            · rcases List.mem_cons.mp he with rfl | he
              · exact absurd (hfirst' d hd) (by rw [hde, hkey]; exact lt_irrefl _)
              · exact Or.inl ⟨e, he, hde⟩
            · exact Or.inr fun e he => hlarge e (List.mem_cons_of_mem _ he)

end Extends

end Azums.Log
