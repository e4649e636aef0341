import JobRunner.Verify.Win.Spawn
import Mathlib.Data.List.TakeWhile

/-!
# The arguments of a Windows job

`WinArgs::new` joins the words of a spec with single spaces and ends the line with a NUL. A program
started with that line reads its `argv` from the part before the first NUL, by the rules of
`Lib.Argv`. It gets the words of the spec back exactly if the spec is `Plain`: no word has a NUL, a
space, a tab or a double quote, and no argument is empty.
-/

namespace JobRunner.Win

open Lts

/-- Behind the first word each word has a space before it. -/
theorem flatMap_zipIdx_succ {items : List OsString} (h : items ≠ []) (n : Nat) :
    ((items.zipIdx (n + 1)).flatMap fun (t, i) => (if i > 0 then [Argv.space] else []) ++ t) =
      Argv.space :: Argv.join items := by
  induction items generalizing n with
  | nil => exact absurd rfl h
  | cons t ts ih =>
    rw [List.zipIdx_cons, List.flatMap_cons]
    cases ts with
    | nil => simp [Argv.join]
    | cons v vs =>
      rw [ih (by simp), Argv.join_cons_cons]
      simp

/-- `WinArgs::new` joins the words with spaces and adds a NUL. -/
theorem winArgs_new (items : List OsString) :
    (WinArgs.new items).u16s = Argv.join items ++ [0] := by
  unfold WinArgs.new
  congr 1
  cases items with
  | nil => rfl
  | cons t ts =>
    rw [List.zipIdx_cons, List.flatMap_cons]
    cases ts with
    | nil => simp [Argv.join]
    | cons v vs =>
      rw [flatMap_zipIdx_succ (by simp), Argv.join_cons_cons]
      simp

/-- What is read ends at the first NUL of a word, or behind the last word. -/
theorem asPwstr_new (items : List OsString) :
    (WinArgs.new items).asPwstr = (Argv.join items).takeWhile (· != 0) := by
  unfold WinArgs.asPwstr
  rw [winArgs_new, List.takeWhile_append]
  split
  · next hall =>
    have hself := (List.takeWhile_prefix (· != 0) (l := Argv.join items)).eq_of_length hall
    simp [hself]
  · rfl

/-- The units that a joined line cannot carry in a word. -/
def PlainUnit (c : UInt16) : Prop :=
  c ≠ 0 ∧ c ≠ Argv.space ∧ c ≠ Argv.tab ∧ c ≠ Argv.quote

/-- No word has a NUL, a blank or a double quote, and no argument is empty. -/
def JobSpec.Plain (spec : JobSpec) : Prop :=
  (∀ c ∈ spec.exe, PlainUnit c) ∧ ∀ arg ∈ spec.args, arg ≠ [] ∧ ∀ c ∈ arg, PlainUnit c

theorem plainUnit_iff (c : UInt16) :
    PlainUnit c ↔ c ≠ 0 ∧ Argv.isBlank c = false ∧ c ≠ Argv.quote := by
  simp [PlainUnit, Argv.isBlank, and_assoc]

theorem forall_plainUnit_iff (w : OsString) :
    (∀ c ∈ w, PlainUnit c) ↔ (0 : UInt16) ∉ w ∧ Argv.Word w := by
  constructor
  · intro h
    exact ⟨fun h0 => (h 0 h0).1 rfl, fun c hc => ((plainUnit_iff c).1 (h c hc)).2⟩
  · rintro ⟨h0, hw⟩ c hc
    refine (plainUnit_iff c).2 ⟨?_, hw c hc⟩
    rintro rfl
    exact h0 hc

/-- The units of a joined line are those of its words, and spaces. -/
theorem mem_join {c : UInt16} (hc : c ≠ Argv.space) (ws : List OsString) :
    c ∈ Argv.join ws ↔ ∃ w ∈ ws, c ∈ w := by
  induction ws with
  | nil => simp [Argv.join]
  | cons w ws ih =>
    cases ws with
    | nil => simp [Argv.join]
    | cons v vs =>
      rw [Argv.join_cons_cons, List.mem_append, List.mem_cons, ih]
      simp [hc]

/-- A plain spec has plain words, and its line has no NUL before the last one. -/
theorem plain_iff (spec : JobSpec) :
    spec.Plain ↔ (0 : UInt16) ∉ Argv.join spec.exeAndArgs ∧ Argv.Words spec.exeAndArgs := by
  unfold JobSpec.Plain JobSpec.exeAndArgs Argv.Words
  rw [forall_plainUnit_iff, mem_join (by decide)]
  simp only [forall_plainUnit_iff, List.mem_cons, exists_eq_or_imp, not_or, not_exists, not_and]
  constructor
  · rintro ⟨⟨h0, hexe⟩, hargs⟩
    exact ⟨⟨h0, fun arg harg => (hargs arg harg).2.1⟩, hexe,
      fun arg harg => ⟨(hargs arg harg).2.2, (hargs arg harg).1⟩⟩
  · rintro ⟨⟨h0, hnul⟩, hexe, hargs⟩
    exact ⟨⟨h0, hexe⟩, fun arg harg => ⟨(hargs arg harg).2, hnul arg harg, (hargs arg harg).1⟩⟩

theorem takeWhile_eq_self_iff_nul (cs : List UInt16) :
    cs.takeWhile (· != 0) = cs ↔ (0 : UInt16) ∉ cs := by
  rw [List.takeWhile_eq_self_iff]
  constructor
  · intro h h0
    exact absurd (h 0 h0) (by decide)
  · intro h c hc
    have hne : c ≠ 0 := fun e => h (e ▸ hc)
    simpa using hne

/-- The line of a spec is split into the words of the spec exactly if the spec is plain. -/
theorem split_asPwstr_iff (spec : JobSpec) :
    Argv.split (WinArgs.new spec.exeAndArgs).asPwstr = spec.exeAndArgs ↔ spec.Plain := by
  rw [asPwstr_new, plain_iff, Argv.split_prefix_join_iff (by simp [JobSpec.exeAndArgs])
    (List.takeWhile_prefix _), takeWhile_eq_self_iff_nul]

namespace Spawn

/-- The child's `argv` is the program and the arguments of the spec. -/
def Faithful (s : Spawn) : Prop :=
  ∃ line, s.cmdLine = some line ∧ Argv.split line.asPwstr = s.spec.exeAndArgs

/-- The call when Win32 refuses nothing. -/
def acceptedRun : List Act :=
  [.createPipe (.ok ()), .setHandleInformation (.ok ()), .createPipe (.ok ()),
    .setHandleInformation (.ok ()), .createProcessW (.ok ()), .drop, .drop]

theorem run_acceptedRun (spec : JobSpec) :
    ∃ s, run Spawn.step (start spec) acceptedRun = some s ∧ s.pc = .returned (.ok child) :=
  ⟨_, rfl, rfl⟩

/-- A call that returned a child has handed it the words of its spec exactly if the spec is plain;
and a plain spec shares its line with no other plain one. -/
theorem faithful_iff {spec : JobSpec} {as : List Act} {s : Spawn} {c : Child}
    (hrun : run Spawn.step (start spec) as = some s) (hret : s.pc = .returned (.ok c)) :
    (s.Faithful ↔ spec.Plain) ∧
    ∀ spec' as' s' c', run Spawn.step (start spec') as' = some s' → s'.pc = .returned (.ok c') →
      s'.cmdLine = s.cmdLine → spec.Plain → spec'.Plain → spec' = spec := by
  have hline := cmdLine_returned hrun hret
  have hspec : s.spec = spec := (lineOf_run hrun).1
  constructor
  · unfold Faithful
    rw [hline, hspec, ← split_asPwstr_iff]
    simp
  · intro spec' as' s' c' hrun' hret' hsame hplain hplain'
    rw [hline, cmdLine_returned hrun' hret', Option.some.injEq] at hsame
    have hwords := (split_asPwstr_iff spec').2 hplain'
    rw [hsame, (split_asPwstr_iff spec).2 hplain] at hwords
    obtain ⟨exe, args⟩ := spec
    obtain ⟨exe', args'⟩ := spec'
    simp only [JobSpec.exeAndArgs, List.cons.injEq] at hwords
    obtain ⟨rfl, rfl⟩ := hwords
    rfl

/-- `cmd /c dir`. -/
def plainSpec : JobSpec := { exe := [0x63, 0x6d, 0x64], args := [[0x2f, 0x63], [0x64, 0x69, 0x72]] }

theorem faithful_iff_acceptedRun :
    ∃ s, run Spawn.step (start plainSpec) acceptedRun = some s ∧ s.pc = .returned (.ok child) ∧
      s.Faithful := by
  obtain ⟨s, hrun, hret⟩ := run_acceptedRun plainSpec
  have hplain : plainSpec.Plain := by
    simp [plainSpec, JobSpec.Plain, PlainUnit, Argv.space, Argv.tab, Argv.quote]
  exact ⟨s, hrun, hret, (faithful_iff hrun hret).1.2 hplain⟩

/-- `cmd` with the one argument `a b`. -/
def blankSpec : JobSpec := { exe := [0x63, 0x6d, 0x64], args := [[0x61, 0x20, 0x62]] }

/-- The one argument arrives as two, on the line of another spec. -/
theorem not_faithful_blankSpec :
    ∃ s s', run Spawn.step (start blankSpec) acceptedRun = some s ∧
      s.pc = .returned (.ok child) ∧ ¬s.Faithful ∧
      run Spawn.step (start { blankSpec with args := [[0x61], [0x62]] }) acceptedRun = some s' ∧
      s'.pc = .returned (.ok child) ∧ s'.cmdLine = s.cmdLine := by
  obtain ⟨s, hrun, hret⟩ := run_acceptedRun blankSpec
  obtain ⟨s', hrun', hret'⟩ := run_acceptedRun { blankSpec with args := [[0x61], [0x62]] }
  have hline := cmdLine_returned hrun hret
  refine ⟨s, s', hrun, hret, ?_, hrun', hret', ?_⟩
  · rintro ⟨line, hl, hsplit⟩
    obtain rfl := Option.some.inj (hline.symm.trans hl)
    rw [(lineOf_run hrun).1, split_asPwstr_iff] at hsplit
    simp [blankSpec, JobSpec.Plain, PlainUnit, Argv.space] at hsplit
  · rw [cmdLine_returned hrun' hret', hline]
    rfl

end Spawn

end JobRunner.Win
