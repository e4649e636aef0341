import JobRunner.Lib.Lts
import Mathlib.Logic.Function.Basic

/-!
# Journals and their readers

A journal is a sequence of events that grows until an event is appended that is the last one. Some
of its events stand for an item. A reader is handed the items in order, from the first one on, and
is closed only when it has been handed all items of a complete journal. So readers of one journal
agree as far as they have come, and those that are closed have the same items, whenever they
started (`Journal.closed_agree`).
-/

open Lts

universe u v w

/-- Which events are last ones, and the items events stand for. -/
structure JournalFormat (ε : Type u) (β : Type v) where
  last : ε → Bool
  item : ε → Option β

namespace JournalFormat

variable {ε : Type u} {β : Type v} (fmt : JournalFormat ε β)

def items (evs : List ε) : List β := evs.filterMap fmt.item

def complete (evs : List ε) : Bool := evs.any fmt.last

variable {fmt}

theorem items_mono {evs evs' : List ε} (h : evs <+: evs') : fmt.items evs <+: fmt.items evs' :=
  h.filterMap fmt.item

theorem complete_iff {evs : List ε} :
    fmt.complete evs = true ↔ ∃ ev ∈ evs, fmt.last ev = true :=
  List.any_eq_true

end JournalFormat

/-- What a reader has been handed, and whether it has been told that there is no more. -/
structure JournalReader (β : Type v) where
  got : List β
  closed : Bool

structure Journal (ε : Type u) (β : Type v) (ι : Type w) where
  entries : List ε
  readers : ι → Option (JournalReader β)

namespace Journal

variable {ε : Type u} {β : Type v} {ι : Type w} [DecidableEq β] [DecidableEq ι]
  {fmt : JournalFormat ε β}

def empty : Journal ε β ι := { entries := [], readers := fun _ => none }

inductive Act (ε : Type u) (β : Type v) (ι : Type w) where
  | append (ev : ε)
  | subscribe (i : ι)
  | deliver (i : ι) (item : β)
  | close (i : ι)

def setReader (j : Journal ε β ι) (i : ι) (r : JournalReader β) : Journal ε β ι :=
  { j with readers := Function.update j.readers i (some r) }

def step (fmt : JournalFormat ε β) (j : Journal ε β ι) : Act ε β ι → Option (Journal ε β ι)
  | .append ev =>
    if fmt.complete j.entries then none else some { j with entries := j.entries ++ [ev] }
  | .subscribe i =>
    match j.readers i with
    | none => some (j.setReader i { got := [], closed := false })
    | some _ => none
  | .deliver i item =>
    match j.readers i with
    | none => none
    | some r =>
      if r.closed = false ∧ r.got ++ [item] <+: fmt.items j.entries then
        some (j.setReader i { r with got := r.got ++ [item] })
      else none
  | .close i =>
    match j.readers i with
    | none => none
    | some r =>
      if fmt.complete j.entries = true ∧ r.got = fmt.items j.entries then
        some (j.setReader i { r with closed := true })
      else none

section Steps

variable {j j' : Journal ε β ι}

theorem step_append {ev : ε} (h : j.step fmt (.append ev) = some j') :
    fmt.complete j.entries = false ∧ j' = { j with entries := j.entries ++ [ev] } := by
  simp only [step] at h
  split at h
  · cases h
  · next hc => exact ⟨by simpa using hc, by simpa using h.symm⟩

theorem step_subscribe {i : ι} (h : j.step fmt (.subscribe i) = some j') :
    j.readers i = none ∧ j' = j.setReader i { got := [], closed := false } := by
  simp only [step] at h
  split at h
  · next hr => exact ⟨hr, by simpa using h.symm⟩
  · cases h

theorem step_deliver {i : ι} {item : β} (h : j.step fmt (.deliver i item) = some j') :
    ∃ r, j.readers i = some r ∧ r.closed = false ∧ r.got ++ [item] <+: fmt.items j.entries ∧
      j' = j.setReader i { r with got := r.got ++ [item] } := by
  simp only [step] at h
  split at h
  · cases h
  · next r hr =>
    simp only [Option.ite_none_right_eq_some, Option.some.injEq] at h
    exact ⟨r, hr, h.1.1, h.1.2, h.2.symm⟩

theorem step_close {i : ι} (h : j.step fmt (.close i) = some j') :
    ∃ r, j.readers i = some r ∧ fmt.complete j.entries = true ∧ r.got = fmt.items j.entries ∧
      j' = j.setReader i { r with closed := true } := by
  simp only [step] at h
  split at h
  · cases h
  · next r hr =>
    simp only [Option.ite_none_right_eq_some, Option.some.injEq] at h
    exact ⟨r, hr, h.1.1, h.1.2, h.2.symm⟩

end Steps

/-! ## What is written stays written -/

section Growth

variable {j j' : Journal ε β ι}

theorem entries_of_step {a : Act ε β ι} (h : j.step fmt a = some j') :
    j.entries <+: j'.entries ∧ (fmt.complete j.entries = true → j'.entries = j.entries) := by
  cases a with
  | append ev =>
    obtain ⟨hc, rfl⟩ := step_append h
    exact ⟨List.prefix_append _ _, fun h => by rw [hc] at h; cases h⟩
  | subscribe i =>
    obtain ⟨-, rfl⟩ := step_subscribe h
    exact ⟨List.prefix_refl _, fun _ => rfl⟩
  | deliver i item =>
    obtain ⟨r, -, -, -, rfl⟩ := step_deliver h
    exact ⟨List.prefix_refl _, fun _ => rfl⟩
  | close i =>
    obtain ⟨r, -, -, -, rfl⟩ := step_close h
    exact ⟨List.prefix_refl _, fun _ => rfl⟩

/-- A complete journal stays as it is. -/
theorem entries_of_complete (hr : Reachable (step fmt) j j') (hc : fmt.complete j.entries = true) :
    j'.entries = j.entries := by
  apply hr.invariant (I := fun k => k.entries = j.entries) rfl
  intro k a k' hk hs
  rw [← hk] at hc
  exact ((entries_of_step hs).2 hc).trans hk

end Growth

/-! ## What readers know -/

/-- A reader has been handed a beginning of the items, and a closed one all of them. -/
structure Inv (fmt : JournalFormat ε β) (j : Journal ε β ι) : Prop where
  part : ∀ i r, j.readers i = some r → r.got <+: fmt.items j.entries
  whole : ∀ i r, j.readers i = some r → r.closed = true →
    fmt.complete j.entries = true ∧ r.got = fmt.items j.entries

namespace Inv

variable {j j' : Journal ε β ι}

omit [DecidableEq β] [DecidableEq ι] in
theorem empty : Inv fmt (Journal.empty : Journal ε β ι) where
  part i r h := by cases h
  whole i r h := by cases h

omit [DecidableEq β] in
theorem setReader (h : Inv fmt j) {i : ι} {r : JournalReader β}
    (hpart : r.got <+: fmt.items j.entries)
    (hwhole : r.closed = true → fmt.complete j.entries = true ∧ r.got = fmt.items j.entries) :
    Inv fmt (j.setReader i r) where
  part k r' hr' := by
    by_cases hk : k = i
    · subst hk
      obtain rfl : r = r' := by simpa [Journal.setReader] using hr'
      exact hpart
    · exact h.part k r' (by simpa [Journal.setReader, hk] using hr')
  whole k r' hr' := by
    by_cases hk : k = i
    · subst hk
      obtain rfl : r = r' := by simpa [Journal.setReader] using hr'
      exact hwhole
    · exact h.whole k r' (by simpa [Journal.setReader, hk] using hr')

theorem step (h : Inv fmt j) {a : Act ε β ι} (hs : j.step fmt a = some j') : Inv fmt j' := by
  cases a with
  | append ev =>
    obtain ⟨hc, rfl⟩ := step_append hs
    refine ⟨fun i r hr => (h.part i r hr).trans ?_, fun i r hr hclosed => ?_⟩
    · exact JournalFormat.items_mono (List.prefix_append _ _)
    · have hcomplete := (h.whole i r hr hclosed).1
      rw [hc] at hcomplete
      cases hcomplete
  | subscribe i =>
    obtain ⟨-, rfl⟩ := step_subscribe hs
    exact h.setReader List.nil_prefix fun hclosed => by cases hclosed
  | deliver i item =>
    obtain ⟨r, -, hopen, hpart, rfl⟩ := step_deliver hs
    exact h.setReader hpart fun hclosed => by rw [hopen] at hclosed; cases hclosed
  | close i =>
    obtain ⟨r, hr, hc, hgot, rfl⟩ := step_close hs
    exact h.setReader (h.part i r hr) fun _ => ⟨hc, hgot⟩

end Inv

/-- A reader that is closed has what any other one has, now or later, and both have the same items
if the other one is closed too. -/
theorem closed_agree {j j' : Journal ε β ι} (h : Inv fmt j) (h' : Inv fmt j')
    (hr : Reachable (step fmt) j j') {i i' : ι} {r r' : JournalReader β}
    (hi : j.readers i = some r) (hi' : j'.readers i' = some r') (hc : r.closed = true) :
    r'.got <+: r.got ∧ (r'.closed = true → r'.got = r.got) := by
  obtain ⟨hcomplete, hgot⟩ := h.whole i r hi hc
  have hsame : fmt.items j'.entries = r.got := by
    rw [entries_of_complete hr hcomplete, hgot]
  rw [← hsame]
  exact ⟨h'.part i' r' hi', fun hc' => (h'.whole i' r' hi' hc').2⟩

end Journal
