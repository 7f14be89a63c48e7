import Azums.Lib.Pages
import Mathlib.Data.List.Perm.Subperm

/-!
# `Lib.Keyset` — reading page by page while the rows change

`Lib.Pages` reads a selection that stays as it is. Here the source is in another state at every request: rows have come,
gone or changed between one page and the next. What a reader can still rely on is

* `read_sorted` — the keys of all that it reads go strictly down the order, so it reads no key twice;
* `read_sound` — what is on a page was there when the page was read;
* `read_complete` — a key that is there at every request is read, if the reader goes on until a page is empty;
* `read_ends` — it does come to an empty page, if it may ask once more than there are keys.

`Serves` is what the source has to do at each request: to answer with the first rows beyond the cursor.
-/

namespace Azums.Keyset

open Azums.Pages

variable {σ α κ : Type}

/-- The pages that a reader gets, from a cursor on, where the source is in these states one after the other. The last
    row of a page is the next cursor; the empty page is the end. -/
def read (fetch : σ → Option κ → List α) (key : α → κ) : Option κ → List σ → List (List α)
  | _, [] => []
  | c, s :: later =>
      match (fetch s c).getLast? with
      | none => [fetch s c]
      | some a => fetch s c :: read fetch key (some (key a)) later

/-- In this state the source answers with the first `n` rows beyond the cursor, and there is one such list of rows. -/
structure Serves (r : κ → κ → Prop) [DecidableRel r] (key : α → κ) (n : Nat) (rows : σ → List α)
    (fetch : σ → Option κ → List α) (s : σ) : Prop where
  sorted : (rows s).Pairwise (fun a b => r (key a) (key b))
  page : ∀ c, fetch s c = (rest r key (rows s) c).take n

variable {r : κ → κ → Prop} [DecidableRel r] {key : α → κ} {n : Nat} {rows : σ → List α}
  {fetch : σ → Option κ → List α} {s : σ} {later : List σ} {c : Option κ} {a b : α} {k k' : κ}

/-! ## One page -/

section Page

variable (h : Serves r key n rows fetch s)
include h

theorem Serves.mem_page (ha : a ∈ fetch s c) : a ∈ rows s ∧ Beyond r c (key a) := by
  rw [h.page] at ha
  exact mem_rest.mp (List.mem_of_mem_take ha)

theorem Serves.page_sorted : (fetch s c).Pairwise (fun a b => r (key a) (key b)) := by
  rw [h.page]
  exact (h.sorted.filter _).take

/-- A row beyond the cursor that is not on the page is beyond the page. -/
theorem Serves.beyond_page (hb : b ∈ rows s) (hbeyond : Beyond r c (key b)) (hout : b ∉ fetch s c)
    (ha : a ∈ fetch s c) : r (key a) (key b) := by
  have hsorted : (rest r key (rows s) c).Pairwise (fun a b => r (key a) (key b)) := h.sorted.filter _
  have hmem : b ∈ rest r key (rows s) c := mem_rest.mpr ⟨hb, hbeyond⟩
  rw [h.page] at hout ha
  rw [← List.take_append_drop n (rest r key (rows s) c)] at hmem hsorted
  exact (List.pairwise_append.mp hsorted).2.2 a ha b ((List.mem_append.mp hmem).resolve_left hout)

/-- An empty page says that there is nothing beyond the cursor. -/
theorem Serves.empty_page (hn : 0 < n) (hempty : fetch s c = []) (hb : b ∈ rows s) : ¬Beyond r c (key b) := by
  intro hbeyond
  have hmem : b ∈ rest r key (rows s) c := mem_rest.mpr ⟨hb, hbeyond⟩
  rw [h.page, List.take_eq_nil_iff] at hempty
  rcases hempty with rfl | hnil
  · exact absurd hn (Nat.lt_irrefl 0)
  · rw [hnil] at hmem
    exact absurd hmem (List.not_mem_nil)

end Page

/-! ## The whole reading -/

section Order

variable [IsStrictOrder κ r]

omit [DecidableRel r] in
theorem Beyond.trans (h : Beyond r c k) (h' : r k k') : Beyond r c k' := by
  cases c with
  | none => trivial
  | some c => exact IsTrans.trans _ _ _ h h'

/-- No row of a page is listed after its last one. -/
theorem Serves.upTo_last (h : Serves r key n rows fetch s) (ha : (fetch s c).getLast? = some a) (hb : b ∈ fetch s c)
    (hk : r (key a) k) : r (key b) k := by
  obtain ⟨front, hfront⟩ := List.getLast?_eq_some_iff.mp ha
  have hsorted : (fetch s c).Pairwise (fun a b => r (key a) (key b)) := h.page_sorted
  rw [hfront] at hsorted hb
  rcases List.mem_append.mp hb with hb | hb
  · have hbefore := (List.pairwise_append.mp hsorted).2.2 b hb a (List.mem_singleton_self a)
    exact IsTrans.trans _ _ _ hbefore hk
  · rw [List.mem_singleton.mp hb]
    exact hk

/-- What is read is beyond the cursor it is read from. -/
theorem read_beyond {states : List σ} (h : ∀ s ∈ states, Serves r key n rows fetch s)
    (hb : b ∈ (read fetch key c states).flatten) : Beyond r c (key b) := by
  induction states generalizing c with
  | nil => simp [read] at hb
  | cons s later ih =>
      have hs := h s List.mem_cons_self
      simp only [read] at hb
      split at hb
      · rw [List.flatten_singleton] at hb
        exact (hs.mem_page hb).2
      · rename_i a ha
        rw [List.flatten_cons, List.mem_append] at hb
        rcases hb with hb | hb
        · exact (hs.mem_page hb).2
        · have hmem : a ∈ fetch s c := List.mem_of_getLast? ha
          exact Beyond.trans (hs.mem_page hmem).2 (ih (fun s' hs' => h s' (List.mem_cons_of_mem _ hs')) hb)

/-- **Nothing is read twice.** The keys go strictly down the order, from one page to the next. -/
theorem read_sorted {states : List σ} (h : ∀ s ∈ states, Serves r key n rows fetch s) :
    (read fetch key c states).flatten.Pairwise (fun a b => r (key a) (key b)) := by
  induction states generalizing c with
  | nil => exact List.Pairwise.nil
  | cons s later ih =>
      have hs := h s List.mem_cons_self
      have hlater : ∀ s' ∈ later, Serves r key n rows fetch s' := fun s' hs' => h s' (List.mem_cons_of_mem _ hs')
      simp only [read]
      split
      · rw [List.flatten_singleton]
        exact hs.page_sorted
      · rename_i a ha
        rw [List.flatten_cons]
        refine List.pairwise_append.mpr ⟨hs.page_sorted, ih hlater, fun b hb b' hb' => ?_⟩
        exact hs.upTo_last ha hb (read_beyond hlater hb')

end Order

/-- **A key that stays is read**, by a reader that goes on to the empty page. -/
theorem read_complete (hn : 0 < n) {states : List σ} (h : ∀ s ∈ states, Serves r key n rows fetch s)
    (hend : [] ∈ read fetch key c states) (hbeyond : Beyond r c k) (hstays : ∀ s ∈ states, ∃ b ∈ rows s, key b = k) :
    ∃ b ∈ (read fetch key c states).flatten, key b = k := by
  induction states generalizing c with
  | nil => simp [read] at hend
  | cons s later ih =>
      have hs := h s List.mem_cons_self
      obtain ⟨b, hb, rfl⟩ := hstays s List.mem_cons_self
      simp only [read] at hend ⊢
      split at hend
      · rename_i hlast
        exact absurd hbeyond (hs.empty_page hn (List.getLast?_eq_none_iff.mp hlast) hb)
      · rename_i a ha
        have hmem : a ∈ fetch s c := List.mem_of_getLast? ha
        by_cases hin : b ∈ fetch s c
        · exact ⟨b, by rw [List.flatten_cons]; exact List.mem_append_left _ hin, rfl⟩
        · -- it is beyond this page, and so it is still to be read
          have hrest : [] ∈ read fetch key (some (key a)) later := by
            refine (List.mem_cons.mp hend).resolve_left fun hnil => ?_
            rw [← hnil] at hmem
            exact absurd hmem List.not_mem_nil
          obtain ⟨b', hb', hkey⟩ := ih (fun s' hs' => h s' (List.mem_cons_of_mem _ hs')) hrest
            (hs.beyond_page hb hbeyond hin hmem) (fun s' hs' => hstays s' (List.mem_cons_of_mem _ hs'))
          exact ⟨b', by rw [List.flatten_cons]; exact List.mem_append_right _ hb', hkey⟩

/-- **What is on a page was there.** -/
theorem read_sound {states : List σ} (h : ∀ s ∈ states, Serves r key n rows fetch s) {i : Nat} {page : List α}
    (hpage : (read fetch key c states)[i]? = some page) : ∃ s, states[i]? = some s ∧ ∀ a ∈ page, a ∈ rows s := by
  induction states generalizing c i with
  | nil => simp [read] at hpage
  | cons s later ih =>
      have hs := h s List.mem_cons_self
      simp only [read] at hpage
      split at hpage
      · cases i with
        | zero =>
            cases hpage
            exact ⟨s, rfl, fun a ha => (hs.mem_page ha).1⟩
        | succ i => simp at hpage
      · cases i with
        | zero =>
            cases hpage
            exact ⟨s, rfl, fun a ha => (hs.mem_page ha).1⟩
        | succ i =>
            rw [List.getElem?_cons_succ] at hpage ⊢
            exact ih (fun s' hs' => h s' (List.mem_cons_of_mem _ hs')) hpage

/-- Every page but the last has a row. -/
theorem read_length (states : List σ) :
    (read fetch key c states).length ≤ (read fetch key c states).flatten.length + 1 := by
  induction states generalizing c with
  | nil => simp [read]
  | cons s later ih =>
      simp only [read]
      split
      · simp
      · rename_i a ha
        have hpos : 0 < (fetch s c).length := List.length_pos_of_mem (List.mem_of_getLast? ha)
        rw [List.length_cons, List.flatten_cons, List.length_append]
        have hrest := ih (c := some (key a))
        omega

/-- **The reading is short.** If no key is ever there that is not among these, it takes one request more than there are
    keys, at the most. -/
theorem read_length_le [IsStrictOrder κ r] {states : List σ} (h : ∀ s ∈ states, Serves r key n rows fetch s)
    {keys : List κ} (hkeys : ∀ s ∈ states, ∀ a ∈ rows s, key a ∈ keys) :
    (read fetch key c states).length ≤ keys.length + 1 := by
  have hnodup : ((read fetch key c states).flatten.map key).Nodup :=
    List.pairwise_map.mpr ((read_sorted h).imp fun {a b} hr heq => by
      rw [heq] at hr
      exact irrefl _ hr)
  have hsub : (read fetch key c states).flatten.map key ⊆ keys := by
    intro k hk
    obtain ⟨a, ha, rfl⟩ := List.mem_map.mp hk
    obtain ⟨page, hpage, hin⟩ := List.mem_flatten.mp ha
    obtain ⟨i, hi⟩ := List.mem_iff_getElem?.mp hpage
    obtain ⟨s, hs, hall⟩ := read_sound h hi
    exact hkeys s (List.mem_of_getElem? hs) a (hall a hin)
  have hle := (List.subperm_of_subset hnodup hsub).length_le
  rw [List.length_map] at hle
  have hpages : (read fetch key c states).length ≤ (read fetch key c states).flatten.length + 1 := read_length states
  omega

/-- A reading that has not come to the empty page has taken all its requests. -/
theorem read_length_of_unfinished {states : List σ} (h : [] ∉ read fetch key c states) :
    (read fetch key c states).length = states.length := by
  induction states generalizing c with
  | nil => rfl
  | cons s later ih =>
      simp only [read] at h ⊢
      split at h
      · rename_i hlast
        rw [List.getLast?_eq_none_iff] at hlast
        exact absurd (by rw [hlast]; exact List.mem_singleton_self _) h
      · rw [List.length_cons, List.length_cons, ih fun hin => h (List.mem_cons_of_mem _ hin)]

/-- **The reading ends**, given one request more than there are keys. -/
theorem read_ends [IsStrictOrder κ r] {states : List σ} (h : ∀ s ∈ states, Serves r key n rows fetch s)
    {keys : List κ} (hkeys : ∀ s ∈ states, ∀ a ∈ rows s, key a ∈ keys) (hlong : keys.length + 1 < states.length) :
    [] ∈ read fetch key c states := by
  by_contra hend
  have hle : (read fetch key c states).length ≤ keys.length + 1 := read_length_le h hkeys
  rw [read_length_of_unfinished hend] at hle
  omega

end Azums.Keyset
