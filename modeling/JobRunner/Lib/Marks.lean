import Mathlib.Data.List.Basic

/-!
# Values with a mark in front of each

Values are written one after another, each behind a mark and none of them escaped, so a value that
contains a mark reads like two values. `cut` cuts every value at the marks it contains. If no mark
begins inside another one, this is all that is lost: two lists of marked values are written the same
exactly if they are cut into the same list (`join_eq_iff`).
-/

universe u v

/-- The marks `μ`, written as lists of `α`, and their reader. -/
structure Marks (α : Type u) (μ : Type v) where
  text : μ → List α
  read : List α → Option (μ × List α)
  text_ne : ∀ m, text m ≠ []
  read_text : ∀ m s, read (text m ++ s) = some (m, s)
  eq_of_read : ∀ {s m t}, read s = some (m, t) → s = text m ++ t
  /-- No mark is read where a mark has begun before. -/
  apart : ∀ {m u v}, text m = u ++ v → u ≠ [] → v ≠ [] → ∀ s, read (v ++ s) = none

namespace Marks

variable {α : Type u} {μ : Type v} (M : Marks α μ)

/-- The text of marked values. -/
def join (l : List (μ × List α)) : List α := l.flatMap fun p => M.text p.1 ++ p.2

/-- The text up to the first mark, and the marked values behind it. -/
def split : List α → List α × List (μ × List α)
  | [] => ([], [])
  | c :: s =>
    match M.read (c :: (split s).1) with
    | some (m, v) => ([], (m, v) :: (split s).2)
    | none => (c :: (split s).1, (split s).2)

/-- Every value, cut at the marks it contains. -/
def cut (l : List (μ × List α)) : List (μ × List α) :=
  l.flatMap fun p => (p.1, (M.split p.2).1) :: (M.split p.2).2

@[simp] theorem join_cons (p : μ × List α) (l : List (μ × List α)) :
    M.join (p :: l) = M.text p.1 ++ (p.2 ++ M.join l) := by
  rw [join, List.flatMap_cons, List.append_assoc]
  rfl

theorem join_append (l l' : List (μ × List α)) : M.join (l ++ l') = M.join l ++ M.join l' :=
  List.flatMap_append

@[simp] theorem cut_cons (p : μ × List α) (l : List (μ × List α)) :
    M.cut (p :: l) = (p.1, (M.split p.2).1) :: ((M.split p.2).2 ++ M.cut l) := rfl

theorem split_cons_of_read {c : α} {s v : List α} {m : μ}
    (h : M.read (c :: (M.split s).1) = some (m, v)) :
    M.split (c :: s) = ([], (m, v) :: (M.split s).2) := by
  rw [split, h]

theorem split_cons_of_none {c : α} {s : List α} (h : M.read (c :: (M.split s).1) = none) :
    M.split (c :: s) = (c :: (M.split s).1, (M.split s).2) := by
  rw [split, h]

/-! ## Nothing is lost in a split -/

theorem join_split (s : List α) : (M.split s).1 ++ M.join (M.split s).2 = s := by
  induction s with
  | nil => rfl
  | cons c s ih =>
    cases h : M.read (c :: (M.split s).1) with
    | none => rw [M.split_cons_of_none h, List.cons_append, ih]
    | some p =>
      obtain ⟨m, v⟩ := p
      have hv : c :: (M.split s).1 = M.text m ++ v := M.eq_of_read h
      rw [M.split_cons_of_read h, List.nil_append, join_cons, ← List.append_assoc, ← hv,
        List.cons_append, ih]

theorem join_cut (l : List (μ × List α)) : M.join (M.cut l) = M.join l := by
  induction l with
  | nil => rfl
  | cons p l ih =>
    rw [cut_cons, join_cons, join_append, ih, join_cons, ← List.append_assoc (M.split p.2).1,
      M.join_split]

/-! ## What is written is read back cut -/

/-- The rest of a mark is no value of its own. -/
theorem split_rest {m : μ} (v s : List α) :
    ∀ {u : List α}, M.text m = u ++ v → u ≠ [] →
      M.split (v ++ s) = (v ++ (M.split s).1, (M.split s).2) := by
  induction v with
  | nil =>
    intro u _ _
    rfl
  | cons c v ih =>
    intro u hm hu
    have htail : M.split (v ++ s) = (v ++ (M.split s).1, (M.split s).2) :=
      ih (hm.trans (List.append_cons u c v)) (by simp)
    have hnone : M.read (c :: (M.split (v ++ s)).1) = none := by
      rw [htail]
      exact M.apart hm hu (List.cons_ne_nil c v) (M.split s).1
    rw [List.cons_append, M.split_cons_of_none hnone, htail]
    rfl

theorem split_text (m : μ) (s : List α) :
    M.split (M.text m ++ s) = ([], (m, (M.split s).1) :: (M.split s).2) := by
  cases hm : M.text m with
  | nil => exact absurd hm (M.text_ne m)
  | cons c v =>
    have hrest : M.split (v ++ s) = (v ++ (M.split s).1, (M.split s).2) :=
      M.split_rest v s (u := [c]) hm (List.cons_ne_nil c [])
    have hread : M.read (c :: (M.split (v ++ s)).1) = some (m, (M.split s).1) := by
      rw [hrest, ← List.cons_append, ← hm]
      exact M.read_text m _
    rw [List.cons_append, M.split_cons_of_read hread, hrest]

/-- A value is split in front of a mark as it is alone. -/
theorem split_append (v : List α) {s : List α} {l : List (μ × List α)}
    (hs : M.split s = ([], l)) : M.split (v ++ s) = ((M.split v).1, (M.split v).2 ++ l) := by
  induction v with
  | nil => exact hs
  | cons c v ih =>
    cases h : M.read (c :: (M.split v).1) with
    | none =>
      have h' : M.read (c :: (M.split (v ++ s)).1) = none := by rw [ih]; exact h
      rw [List.cons_append, M.split_cons_of_none h, M.split_cons_of_none h', ih]
    | some p =>
      have h' : M.read (c :: (M.split (v ++ s)).1) = some (p.1, p.2) := by rw [ih]; exact h
      rw [List.cons_append, M.split_cons_of_read h, M.split_cons_of_read h', ih]
      rfl

theorem split_join (l : List (μ × List α)) : M.split (M.join l) = ([], M.cut l) := by
  induction l with
  | nil => rfl
  | cons p l ih =>
    have hv : M.split (p.2 ++ M.join l) = ((M.split p.2).1, (M.split p.2).2 ++ M.cut l) :=
      M.split_append p.2 ih
    rw [join_cons, M.split_text, hv, cut_cons]

/-- Marked values are written the same exactly if they are cut into the same. -/
theorem join_eq_iff (l l' : List (μ × List α)) : M.join l = M.join l' ↔ M.cut l = M.cut l' := by
  constructor
  · intro h
    have hsplit : M.split (M.join l) = M.split (M.join l') := by rw [h]
    rw [M.split_join, M.split_join] at hsplit
    exact (Prod.mk.inj hsplit).2
  · intro h
    rw [← M.join_cut l, ← M.join_cut l', h]

/-- Values that contain no mark stay as they are. -/
theorem cut_eq_self {l : List (μ × List α)} (h : ∀ p ∈ l, M.split p.2 = (p.2, [])) :
    M.cut l = l := by
  induction l with
  | nil => rfl
  | cons p l ih =>
    have htail : M.cut l = l := ih fun q hq => h q (List.mem_cons_of_mem p hq)
    rw [cut_cons, h p List.mem_cons_self, htail]
    rfl

end Marks
