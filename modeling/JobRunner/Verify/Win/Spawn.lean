import JobRunner.Win.Spawn

/-!
# What a call of `win::Child::spawn` keeps

The rules of the call, and two things that hold along it: its command line is the joined words of
its spec (`cmdLine_returned`), and both write ends are open and inheritable when it creates the
process (`marked_of_createProcess`).
-/

namespace JobRunner.Win

open Lts

/-- An entry of an updated table is the new one or an old one. -/
theorem of_update_eq_some {β : Type*} {f : Nat → Option β} {i j : Nat} {v t : β}
    (h : Function.update f i (some v) j = some t) : (j = i ∧ v = t) ∨ (j ≠ i ∧ f j = some t) := by
  by_cases hj : j = i
  · subst hj
    rw [Function.update_self] at h
    exact .inl ⟨rfl, Option.some.inj h⟩
  · rw [Function.update_of_ne hj] at h
    exact .inr ⟨hj, h⟩

namespace OsHandles

variable (os : OsHandles) (n m : HandleKind)

theorem create_self : os.create n n = { created := true, inherit := false, closes := 0 } := by
  simp [create]

theorem create_of_ne (h : m ≠ n) : os.create n m = os m := by
  simp [create, h]

theorem setInherit_self : os.setInherit n n = { os n with inherit := true } := by
  simp [setInherit]

theorem setInherit_of_ne (h : m ≠ n) : os.setInherit n m = os m := by
  simp [setInherit, h]

end OsHandles

namespace Spawn

/-- The rules of `Spawn.step`. -/
inductive Step (s : Spawn) : Act → Spawn → Prop
  | createPipe {k} (hpc : s.pc = .createPipe k) :
      Step s (.createPipe (.ok ())) { s with
        os := (s.os.create (.pipeRx k)).create (.pipeTx k), pc := .setInherit k }
  | createPipeFails {k err} (hpc : s.pc = .createPipe k) :
      Step s (.createPipe (.error err)) { s with
        pc := .unwind (.ofOwned .null (.pipeTx k) :: .ofOwned .null (.pipeRx k) :: outer k)
          (.createReadPipe err) }
  | setInheritOut (hpc : s.pc = .setInherit .stdout) :
      Step s (.setHandleInformation (.ok ())) { s with
        os := s.os.setInherit (.pipeTx .stdout), pc := .createPipe .stderr }
  | setInheritErr (hpc : s.pc = .setInherit .stderr) :
      Step s (.setHandleInformation (.ok ())) { s with
        os := s.os.setInherit (.pipeTx .stderr), pc := .createProcess }
  | setInheritFails {k err} (hpc : s.pc = .setInherit k) :
      Step s (.setHandleInformation (.error err)) { s with
        pc := .unwind (.of (.pipeTx k) :: .of (.pipeRx k) :: outer k) (.createReadPipe err) }
  | createProcess (hpc : s.pc = .createProcess) :
      Step s (.createProcessW (.ok ())) { s with
        os := (s.os.create .process).create .thread
        cmdLine := some (WinArgs.new s.spec.exeAndArgs)
        pc := .dropTx .stdout }
  | createProcessFails {err} (hpc : s.pc = .createProcess) :
      Step s (.createProcessW (.error err)) { s with
        cmdLine := some (WinArgs.new s.spec.exeAndArgs)
        pc := .unwind locals (.createProcessW err) }
  | dropOut (hpc : s.pc = .dropTx .stdout) :
      Step s .drop { s with
        os := (Handle.of (.pipeTx .stdout)).close s.os, pc := .dropTx .stderr }
  | dropErr (hpc : s.pc = .dropTx .stderr) :
      Step s .drop { s with
        os := (Handle.of (.pipeTx .stderr)).close s.os, pc := .returned (.ok child) }
  | unwind {h hs err} (hpc : s.pc = .unwind (h :: hs) err) :
      Step s .drop { s with os := h.close s.os, pc := .unwind hs err }
  | unwound {err} (hpc : s.pc = .unwind [] err) :
      Step s .drop { s with pc := .returned (.error err) }

theorem Step.of_step {s s' : Spawn} {a : Act} (h : s.step a = some s') : Step s a s' := by
  cases a with
  | createPipe res =>
    simp only [step] at h
    split at h
    · next k hpc => cases h; exact .createPipe hpc
    · next k err hpc => cases h; exact .createPipeFails hpc
    · cases h
  | setHandleInformation res =>
    simp only [step] at h
    split at h
    · next k hpc =>
      cases h
      cases k with
      | stdout => exact .setInheritOut hpc
      | stderr => exact .setInheritErr hpc
    · next k err hpc => cases h; exact .setInheritFails hpc
    · cases h
  | createProcessW res =>
    simp only [step] at h
    split at h
    · next hpc => cases h; exact .createProcess hpc
    · next err hpc => cases h; exact .createProcessFails hpc
    · cases h
  | drop =>
    simp only [step] at h
    split at h
    · next k hpc =>
      cases h
      cases k with
      | stdout => exact .dropOut hpc
      | stderr => exact .dropErr hpc
    · next hd hs err hpc => cases h; exact .unwind hpc
    · next err hpc => cases h; exact .unwound hpc
    · cases h

/-! ## The command line -/

/-- `CreateProcessW` has succeeded. -/
def Created : SpawnPc → Prop
  | .dropTx _ => True
  | .returned (.ok _) => True
  | _ => False

/-- `CreateProcessW` has been given the line of the spec when it has succeeded. -/
def LineOf (spec : JobSpec) (s : Spawn) : Prop :=
  s.spec = spec ∧ (Created s.pc → s.cmdLine = some (WinArgs.new spec.exeAndArgs))

theorem LineOf.step {spec : JobSpec} {s s' : Spawn} {a : Act} (h : LineOf spec s)
    (hs : Step s a s') : LineOf spec s' := by
  obtain ⟨rfl, hline⟩ := h
  cases hs with
  | createPipe | createPipeFails | setInheritOut | setInheritErr | setInheritFails
    | createProcessFails | unwind | unwound => exact ⟨rfl, False.elim⟩
  | createProcess => exact ⟨rfl, fun _ => rfl⟩
  | dropOut hpc | dropErr hpc =>
    refine ⟨rfl, fun _ => hline ?_⟩
    rw [hpc]
    trivial

theorem lineOf_run {spec : JobSpec} {s : Spawn} {as : List Act}
    (h : run Spawn.step (start spec) as = some s) : LineOf spec s := by
  apply Reachable.invariant ⟨as, h⟩
  · exact ⟨rfl, False.elim⟩
  · intro s a s' hs ha
    exact hs.step (.of_step ha)

/-- A call that returned a child has created its process with the line of its spec. -/
theorem cmdLine_returned {spec : JobSpec} {s : Spawn} {as : List Act} {c : Child}
    (h : run Spawn.step (start spec) as = some s) (hret : s.pc = .returned (.ok c)) :
    s.cmdLine = some (WinArgs.new spec.exeAndArgs) :=
  (lineOf_run h).2 (by rw [hret]; trivial)

/-! ## The write ends -/

theorem created_step {s s' : Spawn} {a : Act} (hc : Created s.pc) (hs : Step s a s') :
    Created s'.pc ∧ a = .drop := by
  cases hs with
  | dropOut | dropErr => exact ⟨trivial, rfl⟩
  | createPipe hpc | createPipeFails hpc | setInheritOut hpc | setInheritErr hpc
    | setInheritFails hpc | createProcess hpc | createProcessFails hpc | unwind hpc
    | unwound hpc =>
    rw [hpc] at hc
    exact hc.elim

/-- The write ends a call has open where it is, and whether they are marked inheritable. -/
def txMark : SpawnPc → PipeKind → Option Bool
  | .setInherit .stdout, .stdout => some false
  | .createPipe .stderr, .stdout => some true
  | .setInherit .stderr, .stdout => some true
  | .setInherit .stderr, .stderr => some false
  | .createProcess, _ => some true
  | _, _ => none

def TxMarked (s : Spawn) : Prop :=
  ∀ k b, txMark s.pc k = some b →
    (s.os (.pipeTx k)).isOpen = true ∧ (s.os (.pipeTx k)).inherit = b

theorem TxMarked.step {s s' : Spawn} {a : Act} (h : TxMarked s) (hs : Step s a s') :
    TxMarked s' := by
  intro k b hk
  cases hs with
  | @createPipe j hpc =>
    cases j with
    | stdout =>
      cases k with
      | stderr => cases hk
      | stdout =>
        cases hk
        dsimp only
        rw [OsHandles.create_self]
        exact ⟨rfl, rfl⟩
    | stderr =>
      cases k with
      | stderr =>
        cases hk
        dsimp only
        rw [OsHandles.create_self]
        exact ⟨rfl, rfl⟩
      | stdout =>
        dsimp only
        rw [OsHandles.create_of_ne _ _ _ (by decide), OsHandles.create_of_ne _ _ _ (by decide)]
        apply h .stdout b
        rw [hpc]
        exact hk
  | setInheritOut hpc =>
    cases k with
    | stderr => cases hk
    | stdout =>
      cases hk
      dsimp only
      rw [OsHandles.setInherit_self]
      exact ⟨(h .stdout false (by rw [hpc]; rfl)).1, rfl⟩
  | setInheritErr hpc =>
    cases hk
    cases k with
    | stdout =>
      dsimp only
      rw [OsHandles.setInherit_of_ne _ _ _ (by decide)]
      apply h .stdout true
      rw [hpc]
      rfl
    | stderr =>
      dsimp only
      rw [OsHandles.setInherit_self]
      exact ⟨(h .stderr false (by rw [hpc]; rfl)).1, rfl⟩
  | createPipeFails | setInheritFails | createProcess | createProcessFails | dropOut | dropErr
    | unwind | unwound => cases hk

theorem txMarked_reachable {spec : JobSpec} {s : Spawn}
    (h : Reachable Spawn.step (start spec) s) : TxMarked s := by
  apply h.invariant
  · intro k b hk
    cases hk
  · intro s a s' hs ha
    exact hs.step (.of_step ha)

/-- When a call creates its process, both its write ends are open and inheritable. -/
theorem marked_of_createProcess {spec : JobSpec} {s s' : Spawn}
    (h : Reachable Spawn.step (start spec) s)
    (hs : Step s (.createProcessW (.ok ())) s') (k : PipeKind) :
    (s.os (.pipeTx k)).isOpen = true ∧ (s.os (.pipeTx k)).inherit = true := by
  cases hs with
  | createProcess hpc =>
    apply txMarked_reachable h k true
    rw [hpc]
    rfl

end Spawn

end JobRunner.Win
