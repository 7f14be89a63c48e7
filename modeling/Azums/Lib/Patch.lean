import Mathlib.Data.List.Nodup
import Mathlib.Data.List.Perm.Basic

/-!
# `Lib.Patch` — rows rewritten under their keys

A list of patches says for some keys what becomes of the row under each. `patch` rewrites a row by the entry under its
key, and leaves a row without an entry alone. Where no key has two entries, the order of the patches does not matter
(`patch_perm`), and rewriting by one list after the other is rewriting by both (`patch_patch`).
-/

namespace Azums

section Patch

variable {ρ κ : Type} [DecidableEq κ] {key : ρ → κ} {ps qs : List (κ × (ρ → ρ))} {r : ρ}

/-- A row, rewritten by the entry under its key. -/
def patch (key : ρ → κ) (ps : List (κ × (ρ → ρ))) (r : ρ) : ρ :=
  (ps.find? (fun p => p.1 == key r)).elim r (fun p => p.2 r)

@[simp] theorem patch_nil : patch key [] r = r := rfl

theorem patch_of_notMem (h : key r ∉ ps.map (·.1)) : patch key ps r = r := by
  have hnone : ps.find? (fun p => p.1 == key r) = none := by
    rw [List.find?_eq_none]
    intro p hp hkey
    exact h (List.mem_map.mpr ⟨p, hp, by simpa using hkey⟩)
  simp [patch, hnone]

theorem patch_of_mem (hnd : (ps.map (·.1)).Nodup) {p : κ × (ρ → ρ)} (hp : p ∈ ps) (hkey : p.1 = key r) :
    patch key ps r = p.2 r := by
  cases hfound : ps.find? (fun p => p.1 == key r) with
  | none =>
      rw [List.find?_eq_none] at hfound
      exact absurd (by simpa using hkey) (hfound p hp)
  | some q =>
      have hq : q.1 = key r := by simpa using List.find?_some hfound
      have hsame : q = p :=
        List.inj_on_of_nodup_map hnd (List.mem_of_find?_eq_some hfound) hp (hq.trans hkey.symm)
      simp [patch, hfound, hsame]

/-- The one entry. -/
theorem patch_singleton {k : κ} {f : ρ → ρ} : patch key [(k, f)] r = if key r = k then f r else r := by
  by_cases h : key r = k
  · rw [if_pos h]
    exact patch_of_mem (by simp) List.mem_cons_self h.symm
  · rw [if_neg h]
    exact patch_of_notMem (by simpa using h)

/-- **The order of the patches does not matter.** -/
theorem patch_perm (hnd : (ps.map (·.1)).Nodup) (h : ps.Perm qs) : patch key ps r = patch key qs r := by
  by_cases hmem : key r ∈ ps.map (·.1)
  · obtain ⟨p, hp, hkey⟩ := List.mem_map.mp hmem
    rw [patch_of_mem hnd hp hkey, patch_of_mem ((h.map _).nodup_iff.mp hnd) (h.subset hp) hkey]
  · rw [patch_of_notMem hmem, patch_of_notMem fun hin => hmem ((h.map _).symm.subset hin)]

/-- **One list after the other.** -/
theorem patch_patch (hkeep : ∀ p ∈ ps, ∀ r, key (p.2 r) = key r) (hnd : ((ps ++ qs).map (·.1)).Nodup) :
    patch key qs (patch key ps r) = patch key (ps ++ qs) r := by
  have hboth := hnd
  rw [List.map_append, List.nodup_append'] at hnd
  obtain ⟨hps, _, hdisj⟩ := hnd
  by_cases hmem : key r ∈ ps.map (·.1)
  · obtain ⟨p, hp, hkey⟩ := List.mem_map.mp hmem
    have hout : key (p.2 r) ∉ qs.map (·.1) := by
      rw [hkeep p hp]
      exact hdisj hmem
    rw [patch_of_mem hps hp hkey, patch_of_mem hboth (List.mem_append_left _ hp) hkey, patch_of_notMem hout]
  · rw [patch_of_notMem hmem]
    unfold patch
    have hnone : ps.find? (fun p => p.1 == key r) = none := by
      rw [List.find?_eq_none]
      intro p hp hkey
      exact hmem (List.mem_map.mpr ⟨p, hp, by simpa using hkey⟩)
    rw [List.find?_append, hnone, Option.none_or]

end Patch

end Azums
