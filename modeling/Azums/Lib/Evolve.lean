import Azums.Lib.ReadCommitted

/-!
# `Lib.Evolve` — what transactions make of a table over a whole run

`Lib.ReadCommitted` follows the rows that one transaction has pending. Here the guard is on all of them: in a table that is
`GuardedAll G`, whoever commits turns committed rows into rows that `G` allows. `Evolved G v v'` is what comes of it: every
row that was committed still is, as it was or as `G` allows. It holds of each statement, commit and rollback, and for a
transitive guard it adds up over a run.
-/

namespace Azums.Versions

variable {τ κ ρ : Type} {key : ρ → κ} {v v' v'' : Versions τ key} {t : τ} {G Q : ρ → ρ → Prop}

/-- What any transaction has pending over a committed row is related to it by `G`. -/
def GuardedAll (G : ρ → ρ → Prop) (v : Versions τ key) : Prop := ∀ t, Guarded t G v

/-- Every committed row is still there, as it was or as `G` allows. -/
def Evolved (G : ρ → ρ → Prop) (v v' : Versions τ key) : Prop :=
  ∀ k r, (v.cell k).committed = some r → ∃ r', (v'.cell k).committed = some r' ∧ (r' = r ∨ G r r')

theorem Evolved.refl (G : ρ → ρ → Prop) (v : Versions τ key) : Evolved G v v := fun _ r hr => ⟨r, hr, Or.inl rfl⟩

theorem Evolved.trans (hG : ∀ {a b c}, G a b → G b c → G a c) (h : Evolved G v v') (h' : Evolved G v' v'') :
    Evolved G v v'' := by
  intro k r hr
  obtain ⟨r', hr', hG'⟩ := h k r hr
  obtain ⟨r'', hr'', hG''⟩ := h' k r' hr'
  refine ⟨r'', hr'', ?_⟩
  rcases hG' with rfl | hG'
  · exact hG''
  · rcases hG'' with rfl | hG''
    · exact Or.inr hG'
    · exact Or.inr (hG hG' hG'')

/-- Where no committed version changes, nothing has. -/
theorem Evolved.of_committed (h : ∀ k, (v'.cell k).committed = (v.cell k).committed) : Evolved G v v' := by
  intro k r hr
  exact ⟨r, by rw [h k, hr], Or.inl rfl⟩

variable [DecidableEq τ]

/-- **The statement rule.** A statement whose writes meet the guard keeps it, and commits nothing. -/
theorem GuardedAll.wrote (h : GuardedAll G v) (hw : Wrote t Q v v')
    (hq : ∀ {r₀ r r'}, r = r₀ ∨ G r₀ r → Q r r' → G r₀ r') : GuardedAll G v' ∧ Evolved G v v' := by
  constructor
  · intro t'
    by_cases ht : t' = t
    · subst ht
      exact (h t').wrote hw fun _ _ _ _ _ _ hr hQ => hq hr hQ
    · exact (h t').steady (hw.steady ht)
  · refine .of_committed fun k => ?_
    rcases hw k with hsame | ⟨_, _, _, _, _, hcell⟩
    · rw [hsame]
    · rw [hcell]

theorem GuardedAll.insert [DecidableEq κ] {row : ρ} (h : GuardedAll G v) (hins : v.insert t row = some v') :
    GuardedAll G v' ∧ Evolved G v v' := by
  constructor
  · intro t'
    by_cases ht : t' = t
    · subst ht
      exact (h t').insert hins
    · exact (h t').steady (insert_steady hins ht)
  · refine .of_committed fun k => ?_
    rcases insert_cases hins k with hsame | ⟨_, hold, hnew⟩
    · rw [hsame]
    · rw [hold, hnew]

/-- **The commit rule.** What was pending was allowed, so what is committed now has evolved. -/
theorem GuardedAll.commit (h : GuardedAll G v) (t : τ) : GuardedAll G (v.commit t) ∧ Evolved G v (v.commit t) := by
  constructor
  · intro t'
    by_cases ht : t' = t
    · subst ht
      exact fun k r₀ r _ hp => absurd hp commit_pending
    · exact (h t').steady (commit_steady ht)
  · intro k r hr
    show ∃ r', ((v.cell k).commit t).committed = some r' ∧ _
    rcases (v.cell k).commit_cases t with ⟨r', hp, hc⟩ | ⟨_, hc⟩
    · exact ⟨r', by rw [hc], Or.inr (h t k r r' hr hp)⟩
    · exact ⟨r, by rw [hc, hr], Or.inl rfl⟩

theorem GuardedAll.rollback (h : GuardedAll G v) (t : τ) :
    GuardedAll G (v.rollback t) ∧ Evolved G v (v.rollback t) := by
  constructor
  · intro t'
    by_cases ht : t' = t
    · subst ht
      exact fun k r₀ r _ hp => absurd hp rollback_pending
    · exact (h t').steady (rollback_steady ht)
  · exact .of_committed rollback_committed

omit [DecidableEq τ] in
/-- Where no transaction is open, there is nothing to guard. -/
theorem ofRows_guardedAll [DecidableEq κ] (rows : List ρ) : GuardedAll G (ofRows (τ := τ) key rows) :=
  fun _ _ _ _ _ hp => by cases hp

end Azums.Versions
