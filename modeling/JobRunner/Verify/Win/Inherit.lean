import JobRunner.Win.Server
import JobRunner.Verify.Win.Spawn

/-!
# Which write ends a child inherits

A call marks its two write ends inheritable and creates its process, and nothing keeps two calls
apart. So a child gets the write ends of its own pipes (`inherits_own`), and those of every other
call that has marked an end by then and not closed it yet (`Overlap`). A run in which no process is
created in such a moment is one in which every child has its own ends only, and every pipe ends with
the child it was made for (`separate_iff`).
-/

namespace JobRunner.Win

open Lts

namespace Server

/-- The rules of `Server.step`. -/
inductive Step (s : Server) : Act → Server → Prop
  | call {i spec} (hi : s.spawns i = none) :
      Step s (.call i spec)
        { s with spawns := Function.update s.spawns i (some (Spawn.start spec)) }
  | create {i sp sp'} (hi : s.spawns i = some sp)
      (hs : sp.step (.createProcessW (.ok ())) = some sp') :
      Step s (.spawn i (.createProcessW (.ok ())))
        { spawns := Function.update s.spawns i (some sp')
          children := Function.update s.children i (some s.newChild) }
  | spawn {i a sp sp'} (hi : s.spawns i = some sp) (ha : a ≠ .createProcessW (.ok ()))
      (hs : sp.step a = some sp') :
      Step s (.spawn i a) { s with spawns := Function.update s.spawns i (some sp') }
  | close {i j k c} (hi : s.children i = some c) :
      Step s (.close i j k) { s with
        children := Function.update s.children i (some { c with
          holds := Function.update c.holds j (Function.update (c.holds j) k false) }) }
  | exit {i c} (hi : s.children i = some c) :
      Step s (.exit i) { s with
        children := Function.update s.children i (some { c with holds := fun _ _ => false }) }

theorem Step.of_step {s s' : Server} {a : Act} (h : s.step a = some s') : Step s a s' := by
  cases a with
  | call i spec =>
    simp only [step] at h
    split at h
    · next hi => cases h; exact .call hi
    · cases h
  | spawn i a =>
    simp only [step] at h
    split at h
    · cases h
    · next sp hi =>
      split at h
      · cases h
      · next sp' hsp =>
        cases h
        split
        · exact .create hi hsp
        · next hne => exact .spawn hi (fun e => hne e) hsp
  | close i j k =>
    simp only [step] at h
    split at h
    · cases h
    · next c hi => cases h; exact .close hi
  | exit i =>
    simp only [step] at h
    split at h
    · cases h
    · next c hi => cases h; exact .exit hi

/-! ## What holds in every state -/

/-- The calls are runs of `spawn`, a call that has a child has created it, and no child has a copy
it was not created with. -/
structure WellFormed (s : Server) : Prop where
  spawns : ∀ i sp, s.spawns i = some sp → ∃ spec, Reachable Spawn.step (Spawn.start spec) sp
  created : ∀ i c, s.children i = some c → ∃ sp, s.spawns i = some sp ∧ Spawn.Created sp.pc
  holds : ∀ i c, s.children i = some c → ∀ j k, c.holds j k = true → c.inherited j k = true

theorem wellFormed_start : WellFormed start where
  spawns := by
    intro i sp h
    cases h
  created := by
    intro i c h
    cases h
  holds := by
    intro i c h
    cases h

/-- A call that creates its process has no child yet. -/
theorem WellFormed.children_none {s : Server} {i : Nat} {sp sp' : Spawn} (h : WellFormed s)
    (hi : s.spawns i = some sp) (hs : sp.step (.createProcessW (.ok ())) = some sp') :
    s.children i = none := by
  cases hc : s.children i with
  | none => rfl
  | some c =>
    obtain ⟨sp₁, hsp, hcreated⟩ := h.created i c hc
    obtain rfl : sp = sp₁ := Option.some.inj (hi.symm.trans hsp)
    have hdrop := (Spawn.created_step hcreated (.of_step hs)).2
    cases hdrop

theorem WellFormed.spawns_update {s : Server} {i : Nat} {a : Spawn.Act} {sp sp' : Spawn}
    (h : WellFormed s) (hi : s.spawns i = some sp) (hs : sp.step a = some sp') :
    ∀ j t, Function.update s.spawns i (some sp') j = some t →
      ∃ spec, Reachable Spawn.step (Spawn.start spec) t := by
  intro j t ht
  rcases of_update_eq_some ht with ⟨rfl, rfl⟩ | ⟨-, ht⟩
  · obtain ⟨spec, hr⟩ := h.spawns j sp hi
    exact ⟨spec, hr.tail hs⟩
  · exact h.spawns j t ht

/-- A child that closes copies keeps the state well formed. -/
theorem WellFormed.children_update {s : Server} {i : Nat} {c : ChildProc}
    {f : Nat → PipeKind → Bool} (h : WellFormed s) (hi : s.children i = some c)
    (hf : ∀ j k, f j k = true → c.holds j k = true) :
    WellFormed
      { s with children := Function.update s.children i (some { c with holds := f }) } := by
  refine ⟨h.spawns, ?_, ?_⟩
  · intro l d hd
    rcases of_update_eq_some hd with ⟨rfl, rfl⟩ | ⟨-, hd⟩
    · exact h.created l c hi
    · exact h.created l d hd
  · intro l d hd
    rcases of_update_eq_some hd with ⟨rfl, rfl⟩ | ⟨-, hd⟩
    · intro j k hh
      exact h.holds l c hi j k (hf j k hh)
    · exact h.holds l d hd

theorem WellFormed.step {s s' : Server} {a : Act} (h : WellFormed s) (hs : Step s a s') :
    WellFormed s' := by
  cases hs with
  | @call i spec hi =>
    refine ⟨?_, ?_, h.holds⟩
    · intro j t ht
      rcases of_update_eq_some ht with ⟨rfl, rfl⟩ | ⟨-, ht⟩
      · exact ⟨spec, Reachable.refl _⟩
      · exact h.spawns j t ht
    · intro j c hc
      obtain ⟨sp, hsp, hcreated⟩ := h.created j c hc
      have hj : j ≠ i := by
        rintro rfl
        rw [hi] at hsp
        cases hsp
      exact ⟨sp, (Function.update_of_ne hj ..).trans hsp, hcreated⟩
  | @create i sp sp' hi hsp =>
    refine ⟨h.spawns_update hi hsp, ?_, ?_⟩
    · intro j c hc
      rcases of_update_eq_some hc with ⟨rfl, -⟩ | ⟨hj, hc⟩
      · refine ⟨sp', Function.update_self .., ?_⟩
        cases Spawn.Step.of_step hsp
        trivial
      · obtain ⟨t, ht, hcreated⟩ := h.created j c hc
        exact ⟨t, (Function.update_of_ne hj ..).trans ht, hcreated⟩
    · intro j c hc
      rcases of_update_eq_some hc with ⟨rfl, rfl⟩ | ⟨-, hc⟩
      · exact fun _ _ hh => hh
      · exact h.holds j c hc
  | @spawn i a sp sp' hi ha hsp =>
    refine ⟨h.spawns_update hi hsp, ?_, h.holds⟩
    intro j c hc
    obtain ⟨t, ht, hcreated⟩ := h.created j c hc
    by_cases hj : j = i
    · subst hj
      obtain rfl : sp = t := Option.some.inj (hi.symm.trans ht)
      exact ⟨sp', Function.update_self .., (Spawn.created_step hcreated (.of_step hsp)).1⟩
    · exact ⟨t, (Function.update_of_ne hj ..).trans ht, hcreated⟩
  | @close i j k c hi =>
    apply h.children_update hi
    intro j' k' hh
    by_cases hj : j' = j
    · subst hj
      by_cases hk : k' = k
      · simp [hk] at hh
      · simpa [hk] using hh
    · simpa [hj] using hh
  | exit hi =>
    apply h.children_update hi
    intro j k hh
    cases hh

theorem wellFormed_run {s : Server} {as : List Act} (h : run Server.step start as = some s) :
    WellFormed s := by
  apply Reachable.invariant ⟨as, h⟩ wellFormed_start
  intro s a s' hs ha
  exact hs.step (.of_step ha)

/-- The child of a call inherits both write ends of that call. -/
theorem inherits_own {s : Server} (h : WellFormed s) {i : Nat} {sp sp' : Spawn}
    (hi : s.spawns i = some sp) (hs : sp.step (.createProcessW (.ok ())) = some sp')
    (k : PipeKind) : s.inheritable i k = true := by
  obtain ⟨spec, hr⟩ := h.spawns i sp hi
  obtain ⟨hopen, hmark⟩ := Spawn.marked_of_createProcess hr (.of_step hs) k
  simp only [inheritable, hi, hopen, hmark, Bool.and_self]

/-! ## Children that have their own ends only -/

/-- Every child was created with copies of the write ends of its own pipes, and no others. -/
def OwnOnly (s : Server) : Prop :=
  ∀ i c, s.children i = some c → ∀ j k, c.inherited j k = true ↔ j = i

/-- The label creates a process while another call has an inheritable write end open. -/
def Overlap (s : Server) (a : Act) : Prop :=
  ∃ i, a = .spawn i (.createProcessW (.ok ())) ∧ ∃ j k, j ≠ i ∧ s.inheritable j k = true

/-- A child that closes copies was created with what it was created with. -/
theorem ownOnly_update {s : Server} {i : Nat} {c : ChildProc} (hi : s.children i = some c)
    (f : Nat → PipeKind → Bool) :
    OwnOnly { s with children := Function.update s.children i (some { c with holds := f }) } ↔
      OwnOnly s := by
  constructor
  · intro h j d hd
    by_cases hj : j = i
    · subst hj
      obtain rfl : c = d := Option.some.inj (hi.symm.trans hd)
      exact h j { c with holds := f } (Function.update_self ..)
    · exact h j d ((Function.update_of_ne hj ..).trans hd)
  · intro h j d hd
    rcases of_update_eq_some hd with ⟨rfl, rfl⟩ | ⟨-, hd⟩
    · exact h j c hi
    · exact h j d hd

theorem ownOnly_step {s s' : Server} {a : Act} (h : WellFormed s) (hs : Step s a s') :
    OwnOnly s' ↔ OwnOnly s ∧ ¬Overlap s a := by
  cases hs with
  | call hi =>
    refine (and_iff_left ?_).symm
    rintro ⟨i, he, -⟩
    cases he
  | @create i sp sp' hi hsp =>
    have hnone := h.children_none hi hsp
    constructor
    · intro hown
      refine ⟨?_, ?_⟩
      · intro j c hc
        have hj : j ≠ i := by
          rintro rfl
          rw [hnone] at hc
          cases hc
        exact hown j c ((Function.update_of_ne hj ..).trans hc)
      · rintro ⟨i', he, j, k, hj, hinh⟩
        cases he
        exact hj ((hown i s.newChild (Function.update_self ..) j k).1 hinh)
    · rintro ⟨hown, hno⟩ j c hc
      rcases of_update_eq_some hc with ⟨rfl, rfl⟩ | ⟨-, hc⟩
      · intro l k
        constructor
        · intro hinh
          by_contra hl
          exact hno ⟨j, rfl, l, k, hl, hinh⟩
        · rintro rfl
          exact inherits_own h hi hsp k
      · exact hown j c hc
  | @spawn i a sp sp' hi ha hsp =>
    refine (and_iff_left ?_).symm
    rintro ⟨j, he, -⟩
    cases he
    exact ha rfl
  | close hi =>
    refine (ownOnly_update hi _).trans (and_iff_left ?_).symm
    rintro ⟨j, he, -⟩
    cases he
  | exit hi =>
    refine (ownOnly_update hi _).trans (and_iff_left ?_).symm
    rintro ⟨j, he, -⟩
    cases he

/-- In a run, the children have their own ends only exactly if no process was created in an
overlap. -/
theorem ownOnly_run {s : Server} {as : List Act} (h : run Server.step start as = some s) :
    OwnOnly s ↔ ¬Met Server.step Overlap start as := by
  apply run_induct (motive := fun as s => OwnOnly s ↔ ¬Met Server.step Overlap start as) _ _ h
  · refine iff_of_true ?_ not_met_nil
    intro i c hc
    cases hc
  · intro as s a s' hr ih ha
    rw [met_snoc hr, not_or, ← ih]
    exact ownOnly_step (wellFormed_run hr) (.of_step ha)

/-- The readers of a pipe are at its end once the child it was made for has closed its copy of the
write end, and the server its own. -/
def EndsWithChild (s : Server) : Prop :=
  ∀ i k c, s.children i = some c → c.holds i k = false → s.txOpen i k = false → s.AtEnd i k

theorem OwnOnly.endsWithChild {s : Server} (hown : OwnOnly s) (h : WellFormed s) :
    EndsWithChild s := by
  intro i k c hc hclosed htx
  refine ⟨htx, ?_⟩
  intro j d hd
  by_cases hj : j = i
  · subst hj
    obtain rfl : c = d := Option.some.inj (hc.symm.trans hd)
    exact hclosed
  · by_contra hh
    have hinh := h.holds j d hd i k (by simpa using hh)
    exact hj ((hown j d hd i k).1 hinh).symm

/-- No job captures a pipe of another: a child is created with the write ends of its own pipes and
never holds others, and the pipes end with their child. -/
structure Separate (s : Server) : Prop where
  inherited : OwnOnly s
  holds : ∀ i c, s.children i = some c → ∀ j k, c.holds j k = true → j = i
  ends : EndsWithChild s

/-- After a run the jobs are separate exactly if no process was created while another call had an
inheritable write end open. -/
theorem separate_iff {s : Server} {as : List Act} (hrun : run Server.step start as = some s) :
    s.Separate ↔ ¬Met Server.step Overlap start as := by
  have hw := wellFormed_run hrun
  rw [← ownOnly_run hrun]
  constructor
  · exact Separate.inherited
  · intro hown
    refine ⟨hown, ?_, hown.endsWithChild hw⟩
    intro i c hc j k hh
    exact (hown i c hc j k).1 (hw.holds i c hc j k hh)

/-- The label is not one of another call than `n`. -/
def Act.Of (n : Nat) : Act → Prop
  | .call i _ => i = n
  | .spawn i _ => i = n
  | _ => True

theorem spawns_alone {n : Nat} {s : Server} {as : List Act}
    (h : run Server.step start as = some s) :
    (∀ a ∈ as, a.Of n) → ∀ j, j ≠ n → s.spawns j = none := by
  apply run_induct (motive := fun as s => (∀ a ∈ as, a.Of n) → ∀ j, j ≠ n → s.spawns j = none) _ _ h
  · intro _ j _
    rfl
  · intro as s a s' _ ih ha hof j hj
    have hs := ih (fun b hb => hof b (List.mem_append_left _ hb)) j hj
    have hofa : a.Of n := hof a (by simp)
    cases Step.of_step ha with
    | call | create | spawn =>
      obtain rfl := hofa
      exact (Function.update_of_ne hj ..).trans hs
    | close | exit => exact hs

/-- A call that is alone meets no overlap. -/
theorem not_met_alone {n : Nat} {as : List Act} (hof : ∀ a ∈ as, a.Of n) :
    ¬Met Server.step Overlap start as := by
  rintro ⟨bs, a, cs, s, rfl, hr, i, rfl, j, k, hj, hinh⟩
  obtain rfl : i = n := hof (.spawn i (.createProcessW (.ok ()))) (by simp)
  have hnone := spawns_alone hr (fun b hb => hof b (by simp [hb])) j hj
  simp only [inheritable, hnone] at hinh
  cases hinh

/-- The steps of call `i` up to and with its `CreateProcessW`. -/
def createRun (i : Nat) : List Act :=
  [.call i { exe := [0x63], args := [] }, .spawn i (.createPipe (.ok ())),
    .spawn i (.setHandleInformation (.ok ())), .spawn i (.createPipe (.ok ())),
    .spawn i (.setHandleInformation (.ok ())), .spawn i (.createProcessW (.ok ()))]

theorem separate_iff_createRun :
    ∃ s, run Server.step start (createRun 0) = some s ∧ s.Separate := by
  have hrun : ∃ s, run Server.step start (createRun 0) = some s := ⟨_, rfl⟩
  obtain ⟨s, hs⟩ := hrun
  refine ⟨s, hs, (separate_iff hs).2 (not_met_alone (n := 0) ?_)⟩
  simp [createRun, Act.Of]

/-- The call `1` creates its process before the call `0` does, and closes its write ends after
that. The job `1` exits. -/
def overlapRun : List Act :=
  (createRun 1).append ((createRun 0).append [.spawn 1 .drop, .spawn 1 .drop, .exit 1])

/-- The readers of job `1` wait for job `0`. -/
theorem not_separate_overlapRun :
    ∃ s, run Server.step start overlapRun = some s ∧
      (∃ c, s.children 1 = some c ∧ ∀ j k, c.holds j k = false) ∧
      (∀ k, s.txOpen 1 k = false ∧ ¬s.AtEnd 1 k) ∧ ¬s.Separate := by
  have hrun : ∃ s, run Server.step start overlapRun = some s ∧
      (∃ c, s.children 1 = some c ∧ ∀ j k, c.holds j k = false) ∧
      (∀ k, s.txOpen 1 k = false) ∧ ∃ c, s.children 0 = some c ∧ ∀ k, c.holds 1 k = true :=
    ⟨_, rfl, ⟨_, rfl, fun _ _ => rfl⟩, by rintro (_ | _) <;> rfl, _, rfl, by rintro (_ | _) <;> rfl⟩
  obtain ⟨s, hs, ⟨c, hc, hclosed⟩, htx, d, hd, hheld⟩ := hrun
  have hnot : ∀ k, ¬s.AtEnd 1 k := by
    rintro k ⟨-, hall⟩
    have hcopy := hall 0 d hd
    rw [hheld k] at hcopy
    cases hcopy
  refine ⟨s, hs, ⟨c, hc, hclosed⟩, fun k => ⟨htx k, hnot k⟩, ?_⟩
  intro hsep
  exact hnot .stdout (hsep.ends 1 .stdout c hc (hclosed 1 .stdout) (htx .stdout))

end Server

end JobRunner.Win
