import Mathlib.Data.List.Pairwise
import Mathlib.Data.List.Basic
import Mathlib.Order.Defs.Unbundled

/-!
# `Lib.Pages` — reading a sorted selection page by page

A client that wants all rows of a long selection asks for one page after the other. With each request it hands back the
key of the last row that it has, its cursor, and it stops at the first empty page. `Walk` is such a reading: its pages,
in a derivation that ends with the empty one, so that a walk is a reading that terminates.

* `exists_walk` — where a request is answered with the first rows beyond the cursor, the walk exists and its pages make
  up the selection;
* `not_walk_of_stuck` — where requests with and without a cursor are answered with rows, the client never stops.

`r` orders the keys strictly; `r k k'` says that a row under `k` is listed before one under `k'`.
-/

namespace Azums.Pages

variable {α κ : Type}

/-! ## Rows beyond a cursor -/

/-- A key is beyond the cursor; without a cursor every key is. -/
def Beyond (r : κ → κ → Prop) : Option κ → κ → Prop
  | none, _ => True
  | some c, k => r c k

instance (r : κ → κ → Prop) [DecidableRel r] (c : Option κ) (k : κ) : Decidable (Beyond r c k) :=
  match c with
  | none => isTrue trivial
  | some c => inferInstanceAs (Decidable (r c k))

/-- The rows beyond a cursor, in their order. -/
def rest (r : κ → κ → Prop) [DecidableRel r] (key : α → κ) (rows : List α) (c : Option κ) : List α :=
  rows.filter (fun a => decide (Beyond r c (key a)))

section Rest

variable {r : κ → κ → Prop} [DecidableRel r] [IsStrictOrder κ r] {key : α → κ} {rows : List α} {c : Option κ} {n : Nat}

omit [IsStrictOrder κ r] in
theorem mem_rest {a : α} : a ∈ rest r key rows c ↔ a ∈ rows ∧ Beyond r c (key a) := by
  rw [rest, List.mem_filter, decide_eq_true_iff]

omit [IsStrictOrder κ r] in
@[simp] theorem rest_none : rest r key rows none = rows := by
  rw [rest, List.filter_eq_self]
  exact fun _ _ => decide_eq_true trivial

/-- Beyond a row that is itself beyond the cursor, the selection is the same with and without the cursor. -/
theorem rest_rest {a : α} (ha : a ∈ rest r key rows c) :
    rest r key rows (some (key a)) = rest r key (rest r key rows c) (some (key a)) := by
  simp only [rest]
  rw [List.filter_filter]
  refine List.filter_congr fun b _ => ?_
  rw [Bool.eq_iff_iff, Bool.and_eq_true, decide_eq_true_iff, decide_eq_true_iff]
  refine ⟨fun hab => ⟨hab, ?_⟩, And.left⟩
  have hbeyond := (mem_rest.mp ha).2
  cases c with
  | none => trivial
  | some c => exact IsTrans.trans _ _ _ hbeyond hab

/-- Beyond the last row of a page lies what the page has left over. -/
theorem rest_last (hsorted : rows.Pairwise (fun a b => r (key a) (key b))) {a : α}
    (hlast : (rows.take n).getLast? = some a) : rest r key rows (some (key a)) = rows.drop n := by
  obtain ⟨front, hfront⟩ := List.getLast?_eq_some_iff.mp hlast
  have hsplit : rows = (front ++ [a]) ++ rows.drop n := by rw [← hfront, List.take_append_drop]
  rw [hsplit] at hsorted
  obtain ⟨hpage, _, hlater⟩ := List.pairwise_append.mp hsorted
  have hnone : (front ++ [a]).filter (fun b => decide (Beyond r (some (key a)) (key b))) = [] := by
    refine List.filter_eq_nil_iff.mpr fun b hb => ?_
    rw [decide_eq_true_iff]
    rcases List.mem_append.mp hb with hb | hb
    · exact asymm ((List.pairwise_append.mp hpage).2.2 b hb a (List.mem_singleton_self a))
    · rw [List.mem_singleton.mp hb]
      exact irrefl _
  have hall : (rows.drop n).filter (fun b => decide (Beyond r (some (key a)) (key b))) = rows.drop n :=
    List.filter_eq_self.mpr fun b hb => decide_eq_true (hlater a (by simp) b hb)
  conv_lhs => rw [hsplit]
  rw [rest, List.filter_append, hnone, hall, List.nil_append]

end Rest

/-! ## Walks -/

/-- The pages that a client reads, from a cursor on: it asks beyond the last row it got, and stops at the empty page. -/
inductive Walk (fetch : Option κ → List α) (key : α → κ) : Option κ → List (List α) → Prop where
  | done {c : Option κ} : fetch c = [] → Walk fetch key c [[]]
  | more {c : Option κ} {a : α} {pages : List (List α)} :
      (fetch c).getLast? = some a → Walk fetch key (some (key a)) pages → Walk fetch key c (fetch c :: pages)

variable {fetch : Option κ → List α} {key : α → κ} {c : Option κ} {pages pages' : List (List α)}

/-- A client reads one way only. -/
theorem Walk.unique (h : Walk fetch key c pages) (h' : Walk fetch key c pages') : pages = pages' := by
  induction h generalizing pages' with
  | done hnil =>
      cases h' with
      | done _ => rfl
      | more hlast _ => rw [hnil] at hlast; cases hlast
  | more hlast _ ih =>
      cases h' with
      | done hnil => rw [hnil] at hlast; cases hlast
      | more hlast' hrest =>
          rw [hlast] at hlast'
          cases hlast'
          rw [ih hrest]

/-- The last page is the empty one. -/
theorem Walk.getLast? (h : Walk fetch key c pages) : pages.getLast? = some [] := by
  induction h with
  | done _ => rfl
  | more _ hrest ih =>
      cases hrest <;> exact ih

/-- **A walk is the selection.** Where every request is answered with the first `n` rows beyond its cursor, the client
    stops, and its pages are the rows beyond the cursor it began with. -/
theorem exists_walk {r : κ → κ → Prop} [DecidableRel r] [IsStrictOrder κ r] {rows : List α} {n : Nat} (hn : 0 < n)
    (hsorted : rows.Pairwise (fun a b => r (key a) (key b)))
    (hfetch : ∀ c, fetch c = (rest r key rows c).take n) (c : Option κ) :
    ∃ pages, Walk fetch key c pages ∧ pages.flatten = rest r key rows c ∧ ∀ page ∈ pages, page.length ≤ n := by
  -- the rows still to be read become fewer
  induction hlen : (rest r key rows c).length using Nat.strongRecOn generalizing c with
  | _ len ih =>
      by_cases hnil : rest r key rows c = []
      · refine ⟨[[]], .done ?_, by rw [hnil]; rfl, ?_⟩
        · rw [hfetch, hnil, List.take_nil]
        · intro page hpage
          rw [List.mem_singleton.mp hpage]
          exact Nat.zero_le n
      · have hpos : 0 < (rest r key rows c).length := List.length_pos_iff.mpr hnil
        have hpage : (rest r key rows c).take n ≠ [] := by
          rw [Ne, List.take_eq_nil_iff]
          exact not_or.mpr ⟨by omega, hnil⟩
        have hlast := List.getLast?_eq_some_getLast hpage
        have hmem := List.mem_of_mem_take (List.getLast_mem hpage)
        have hrest : rest r key rows (some (key (((rest r key rows c).take n).getLast hpage))) =
            (rest r key rows c).drop n := by
          rw [rest_rest hmem]
          exact rest_last (hsorted.filter _) hlast
        have hshorter : (rest r key rows (some (key (((rest r key rows c).take n).getLast hpage)))).length < len := by
          rw [hrest, List.length_drop]
          omega
        obtain ⟨pages, hwalk, hflat, hle⟩ := ih _ hshorter _ rfl
        refine ⟨fetch c :: pages, .more (by rw [hfetch]; exact hlast) hwalk, ?_, ?_⟩
        · rw [List.flatten_cons, hflat, hrest, hfetch, List.take_append_drop]
        · intro page hpage
          rcases List.mem_cons.mp hpage with rfl | hpage
          · rw [hfetch]
            exact List.length_take_le ..
          · exact hle page hpage

/-- A client that is never answered with an empty page never stops. -/
theorem not_walk_of_stuck (hstuck : ∀ c, fetch c ≠ []) : ¬Walk fetch key c pages := by
  intro h
  induction h with
  | done hnil => exact hstuck _ hnil
  | more _ _ ih => exact ih

end Azums.Pages
