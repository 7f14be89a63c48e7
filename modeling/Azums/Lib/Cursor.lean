import Mathlib.Data.List.Pairwise
import Mathlib.Data.List.Basic

/-!
# `Lib.Cursor` — reading a numbered log through an offset

A consumer of a log reads the entries above its offset, a batch at a time, and moves the offset to a number that it has
received. That is safe as long as no entry appears below the offset later. `Passed` says this of an offset: everything
numbered up to it was delivered, and no number that is still to come is below it. It is kept by everything that may
happen: the log grows above what was seen (`Passed.extend`), and a batch of an ascending log is delivered
(`Passed.batch`).

Where the consumer takes the beginning of what is above its offset each time, it gets the log in its own order
(`Ascending.upTo_getLast`).

The entries are of any type, with a number each.
-/

namespace Azums.Cursor

variable {α : Type} {num : α → Int} {log log' delivered delivered' seen seen' : List α} {after v : Int} {limit : Nat}

/-! ## Batches -/

/-- The numbers of a log go up. -/
def Ascending (num : α → Int) (log : List α) : Prop := log.Pairwise (fun a b => num a < num b)

theorem ascending_append_one {a : α} (h : Ascending num log) (ha : ∀ b ∈ log, num b < num a) :
    Ascending num (log ++ [a]) := by
  refine List.pairwise_append.mpr ⟨h, List.pairwise_singleton _ _, ?_⟩
  intro b hb a' ha'
  rw [List.mem_singleton.mp ha']
  exact ha b hb

/-- The first `limit` entries above `after`. -/
def batch (num : α → Int) (after : Int) (limit : Nat) (log : List α) : List α :=
  (log.filter (fun a => decide (after < num a))).take limit

theorem mem_of_mem_batch {a : α} (h : a ∈ batch num after limit log) : a ∈ log ∧ after < num a := by
  have hmem := List.mem_filter.mp (List.mem_of_mem_take h)
  exact ⟨hmem.1, of_decide_eq_true hmem.2⟩

theorem Ascending.batch (h : Ascending num log) : Ascending num (batch num after limit log) :=
  (h.filter _).take

/-- **A batch has no gap**: with an entry it has all those of the log above `after` that are numbered below it. -/
theorem Ascending.mem_batch {a b : α} (h : Ascending num log) (hb : b ∈ Cursor.batch num after limit log) (ha : a ∈ log)
    (hafter : after < num a) (hle : num a ≤ num b) : a ∈ Cursor.batch num after limit log := by
  have hmem : a ∈ log.filter (fun a => decide (after < num a)) :=
    List.mem_filter.mpr ⟨ha, decide_eq_true hafter⟩
  have hasc : Ascending num (log.filter (fun a => decide (after < num a))) := h.filter _
  rw [← List.take_append_drop limit (log.filter (fun a => decide (after < num a)))] at hmem hasc
  rcases List.mem_append.mp hmem with hin | hout
  · exact hin
  · -- what does not fit into the batch is numbered above all of it
    have hlt := (List.pairwise_append.mp hasc).2.2 b hb a hout
    omega

/-! ## Reading in order -/

/-- The entries of a log up to a number. -/
def upTo (num : α → Int) (v : Int) (log : List α) : List α := log.filter (fun a => decide (num a ≤ v))

/-- The entries of a log above a number. -/
def above (num : α → Int) (v : Int) (log : List α) : List α := log.filter (fun a => decide (v < num a))

theorem mem_upTo {a : α} : a ∈ upTo num v log ↔ a ∈ log ∧ num a ≤ v := by simp [upTo]

theorem mem_above {a : α} : a ∈ above num v log ↔ a ∈ log ∧ v < num a := by simp [above]

theorem above_append : above num v (log ++ log') = above num v log ++ above num v log' := List.filter_append ..

theorem upTo_eq_nil (h : ∀ a ∈ log, v < num a) : upTo num v log = [] := by
  refine List.filter_eq_nil_iff.mpr fun a ha hle => ?_
  have hlt := h a ha
  have hle := of_decide_eq_true hle
  omega

/-- An entry above the number is none of those up to it. -/
theorem upTo_append_above_self {a : α} (ha : v < num a) : upTo num v (log ++ [a]) = upTo num v log := by
  have hnil : upTo num v [a] = [] := upTo_eq_nil fun b hb => by rw [List.mem_singleton.mp hb]; exact ha
  unfold upTo at *
  rw [List.filter_append, hnil, List.append_nil]

/-- Removing entries up to the number leaves those above it. -/
theorem above_filter {p : α → Bool} (h : ∀ a ∈ log, v < num a → p a = true) :
    above num v (log.filter p) = above num v log := by
  unfold above
  rw [List.filter_filter]
  refine List.filter_congr fun a ha => ?_
  by_cases hlt : v < num a
  · rw [h a ha hlt, Bool.and_true]
  · rw [decide_eq_false hlt, Bool.false_and]

/-- What two logs share above a number, they share above a larger one. -/
theorem above_congr {w : Int} (h : above num v log = above num v log') (hle : v ≤ w) :
    above num w log = above num w log' := by
  have hnarrow : ∀ l : List α, above num w l = above num w (above num v l) := by
    intro l
    unfold above
    rw [List.filter_filter]
    refine List.filter_congr fun a _ => ?_
    by_cases hlt : w < num a
    · rw [decide_eq_true hlt, decide_eq_true (show v < num a by omega), Bool.and_true]
    · rw [decide_eq_false hlt, Bool.false_and]
  rw [hnarrow log, hnarrow log', h]

/-- A log that goes up falls into two parts at any number. -/
theorem Ascending.upTo_append_above (h : Ascending num log) (v : Int) : upTo num v log ++ above num v log = log := by
  induction log with
  | nil => rfl
  | cons a rest ih =>
      have hrest := List.pairwise_cons.mp h
      by_cases hle : num a ≤ v
      · have hcons : upTo num v (a :: rest) = a :: upTo num v rest := List.filter_cons_of_pos (decide_eq_true hle)
        have hskip : above num v (a :: rest) = above num v rest := List.filter_cons_of_neg (by simpa using hle)
        rw [hcons, hskip, List.cons_append, ih hrest.2]
      · -- everything is above the number
        have hall : ∀ b ∈ a :: rest, v < num b := by
          intro b hb
          rcases List.mem_cons.mp hb with rfl | hb
          · omega
          · have hlt := hrest.1 b hb
            omega
        rw [upTo_eq_nil hall, List.nil_append]
        exact List.filter_eq_self.mpr fun b hb => decide_eq_true (hall b hb)

/-- What is read up to a number is the beginning of the log. -/
theorem Ascending.upTo_prefix (h : Ascending num log) (v : Int) : upTo num v log <+: log :=
  ⟨above num v log, h.upTo_append_above v⟩

/-- **Reading goes on where it stopped.** If a beginning of what is above `v` has been taken, then the entries up to its
    last number are those up to `v`, followed by what was taken. -/
theorem Ascending.upTo_getLast (h : Ascending num log) {taken : List α} {b : α} (ht : taken <+: above num v log)
    (hb : taken.getLast? = some b) : upTo num (num b) log = upTo num v log ++ taken := by
  obtain ⟨rest, hrest⟩ := ht
  obtain ⟨before, rfl⟩ := List.getLast?_eq_some_iff.mp hb
  have hlog : (upTo num v log ++ before) ++ [b] ++ rest = log := by
    rw [List.append_assoc (upTo num v log), List.append_assoc (upTo num v log), hrest, h.upTo_append_above v]
  have hasc : Ascending num ((upTo num v log ++ before) ++ [b] ++ rest) := by
    rw [hlog]
    exact h
  obtain ⟨hbegin, _, hrest⟩ := List.pairwise_append.mp hasc
  -- all that was taken is numbered up to `b`, and all that is left above it
  have hlast : upTo num (num b) (upTo num v log ++ before ++ [b]) = upTo num v log ++ before ++ [b] := by
    refine List.filter_eq_self.mpr fun a ha => decide_eq_true ?_
    rcases List.mem_append.mp ha with hin | hself
    · exact Int.le_of_lt ((List.pairwise_append.mp hbegin).2.2 a hin b (List.mem_singleton_self b))
    · exact Int.le_of_eq (congrArg num (List.mem_singleton.mp hself))
  have hnil : upTo num (num b) rest = [] := upTo_eq_nil fun a ha => hrest b (by simp) a ha
  calc upTo num (num b) log
      = upTo num (num b) ((upTo num v log ++ before) ++ [b] ++ rest) := by rw [hlog]
    _ = upTo num (num b) (upTo num v log ++ before ++ [b]) ++ upTo num (num b) rest := List.filter_append ..
    _ = upTo num v log ++ (before ++ [b]) := by rw [hlast, hnil, List.append_nil, List.append_assoc]

/-! ## Offsets -/

/-- The offset `v` is safe: no number that may still appear is below it, as long as these are above what was `seen`; and
    every entry up to it was delivered. -/
structure Passed (num : α → Int) (seen log delivered : List α) (v : Int) : Prop where
  reached : v ≤ 0 ∨ ∃ a ∈ seen, v ≤ num a
  covered : ∀ a ∈ log, num a ≤ v → a ∈ delivered

/-- The log `log'` has nothing new but entries with positive numbers above everything that was seen. -/
def Extends (num : α → Int) (seen log log' : List α) : Prop :=
  ∀ a ∈ log', a ∈ log ∨ (0 < num a ∧ ∀ b ∈ seen, num b < num a)

theorem Extends.refl : Extends num seen log log := fun _ ha => Or.inl ha

theorem Extends.trans {log'' : List α} (h : Extends num seen log log') (h' : Extends num seen' log' log'')
    (hseen : seen ⊆ seen') : Extends num seen log log'' := by
  intro a ha
  rcases h' a ha with hold | ⟨hpos, hab⟩
  · exact h a hold
  · exact Or.inr ⟨hpos, fun b hb => hab b (hseen hb)⟩

namespace Passed

/-- Where nothing is positive, nothing has to be delivered yet. -/
theorem start (hpos : ∀ a ∈ log, 0 < num a) (hv : v ≤ 0) : Passed num seen log delivered v :=
  ⟨Or.inl hv, fun a ha hle => absurd (hpos a ha) (by omega)⟩

/-- A safe offset stays safe while the log grows above what was seen. -/
theorem extend (h : Passed num seen log delivered v) (hlog : Extends num seen log log') (hseen : seen ⊆ seen')
    (hdel : delivered ⊆ delivered') : Passed num seen' log' delivered' v := by
  constructor
  · rcases h.reached with hv | ⟨b, hb, hv⟩
    · exact Or.inl hv
    · exact Or.inr ⟨b, hseen hb, hv⟩
  · intro a ha hle
    rcases hlog a ha with hold | ⟨hpos, hab⟩
    · exact hdel (h.covered a hold hle)
    · rcases h.reached with hv | ⟨b, hb, hv⟩
      · omega
      · have hlt := hab b hb
        omega

/-- The number of an entry of a delivered batch is a safe offset, if the batch was read from one. -/
theorem batch {b : α} (h : Passed num seen log delivered after) (hasc : Ascending num log)
    (hb : b ∈ Cursor.batch num after limit log) (hseen : b ∈ seen') (hdel : delivered ⊆ delivered')
    (hbatch : Cursor.batch num after limit log ⊆ delivered') : Passed num seen' log delivered' (num b) := by
  refine ⟨Or.inr ⟨b, hseen, Int.le_refl _⟩, fun a ha hle => ?_⟩
  by_cases hafter : after < num a
  · exact hbatch (hasc.mem_batch hb ha hafter hle)
  · exact hdel (h.covered a ha (by omega))

/-- So is it where the batch was read from a part of the log, if all that is missing there is up to another safe offset. -/
theorem batchOfPart {b : α} {u : Int} {part : List α} (h : Passed num seen log delivered after)
    (hu : Passed num seen log delivered u) (hpart : ∀ a ∈ log, a ∈ part ∨ num a ≤ u) (hasc : Ascending num part)
    (hb : b ∈ Cursor.batch num after limit part) (hseen : b ∈ seen') (hdel : delivered ⊆ delivered')
    (hbatch : Cursor.batch num after limit part ⊆ delivered') : Passed num seen' log delivered' (num b) := by
  refine ⟨Or.inr ⟨b, hseen, Int.le_refl _⟩, fun a ha hle => ?_⟩
  rcases hpart a ha with hin | hmissing
  · by_cases hafter : after < num a
    · exact hbatch (hasc.mem_batch hb hin hafter hle)
    · exact hdel (h.covered a ha (by omega))
  · exact hdel (hu.covered a ha hmissing)

/-- Of two safe offsets the larger one is safe. -/
theorem max {w : Int} (h : Passed num seen log delivered v) (h' : Passed num seen log delivered w) :
    Passed num seen log delivered (Max.max v w) := by
  rcases Int.le_total v w with hle | hle
  · rw [Int.max_eq_right hle]
    exact h'
  · rw [Int.max_eq_left hle]
    exact h

end Passed
end Azums.Cursor
