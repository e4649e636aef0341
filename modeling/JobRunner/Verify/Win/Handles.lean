import JobRunner.Win.Child
import JobRunner.Verify.Win.Spawn

/-!
# Who closes the handles of a child

Each handle that `spawn` creates is owned by exactly one `Handle` until that one closes it
(`Ledger`), through the call, its error paths, the reading threads and the drop of the `Child`. The
clones that the futures and their threads hold own nothing, and nothing ties them to the owner: the
process handle is closed with the `Child`, whether or not a thread still uses it
(`disciplined_iff`).
-/

namespace JobRunner.Win

open Lts

/-! ## The ledger -/

/-- Whether the `Handle` closes this handle when it is dropped. -/
def Handle.owns (n : HandleKind) (h : Handle) : Nat :=
  if h.owned = true ∧ h.inner = .created n then 1 else 0

def ownsAll (n : HandleKind) : List Handle → Nat
  | [] => 0
  | h :: hs => h.owns n + ownsAll n hs

@[simp] theorem ownsAll_nil (n : HandleKind) : ownsAll n [] = 0 := rfl

@[simp] theorem ownsAll_cons (n : HandleKind) (h : Handle) (hs : List Handle) :
    ownsAll n (h :: hs) = h.owns n + ownsAll n hs := rfl

@[simp] theorem ownsAll_append (n : HandleKind) (hs hs' : List Handle) :
    ownsAll n (hs ++ hs') = ownsAll n hs + ownsAll n hs' := by
  induction hs with
  | nil => simp
  | cons h hs ih =>
    rw [List.cons_append, ownsAll_cons, ownsAll_cons, ih]
    omega

theorem ownsAll_perm (n : HandleKind) {hs hs' : List Handle} (hp : hs'.Perm hs) :
    ownsAll n hs' = ownsAll n hs := by
  induction hp with
  | nil => rfl
  | cons h hp ih => rw [ownsAll_cons, ownsAll_cons, ih]
  | swap h h' hs =>
    simp only [ownsAll_cons]
    omega
  | trans hp hp' ih ih' => exact ih.trans ih'

@[simp] theorem owns_of (n m : HandleKind) : (Handle.of m).owns n = if m = n then 1 else 0 := by
  simp [Handle.owns, Handle.of, Handle.ofOwned]

@[simp] theorem owns_clone (n : HandleKind) (h : Handle) : h.clone.owns n = 0 := by
  simp [Handle.owns, Handle.clone]

@[simp] theorem owns_null (n m : HandleKind) : (Handle.ofOwned .null m).owns n = 0 := by
  simp [Handle.owns, Handle.ofOwned]

@[simp] theorem close_clone (h : Handle) (os : OsHandles) : h.clone.close os = os := by
  simp [Handle.close, Handle.clone]

/-- A handle that was created is closed, or owned by one of these. -/
def Ledger (os : OsHandles) (hs : List Handle) : Prop :=
  ∀ n, (os n).closes + ownsAll n hs = if (os n).created then 1 else 0

theorem Ledger.congr {os : OsHandles} {hs hs' : List Handle} (h : Ledger os hs)
    (he : ∀ n, ownsAll n hs' = ownsAll n hs) : Ledger os hs' := by
  intro n
  rw [he n]
  exact h n

theorem Ledger.perm {os : OsHandles} {hs hs' : List Handle} (h : Ledger os hs)
    (hp : hs'.Perm hs) : Ledger os hs' := by
  apply h.congr
  intro n
  exact ownsAll_perm n hp

theorem Ledger.create {os : OsHandles} {hs : List Handle} {n : HandleKind} (h : Ledger os hs)
    (hn : (os n).created = false) : Ledger (os.create n) (.of n :: hs) := by
  intro m
  have hm := h m
  by_cases he : m = n
  · subst he
    rw [hn] at hm
    rw [OsHandles.create_self, ownsAll_cons, owns_of]
    simp only [Bool.false_eq_true, if_false] at hm
    simp only [if_true]
    omega
  · rw [OsHandles.create_of_ne _ _ _ he, ownsAll_cons, owns_of, if_neg (Ne.symm he)]
    omega

theorem Ledger.setInherit {os : OsHandles} {hs : List Handle} (h : Ledger os hs)
    (n : HandleKind) : Ledger (os.setInherit n) hs := by
  intro m
  by_cases he : m = n
  · subst he
    rw [OsHandles.setInherit_self]
    exact h m
  · rw [OsHandles.setInherit_of_ne _ _ _ he]
    exact h m

theorem Ledger.close {os : OsHandles} {h : Handle} {hs : List Handle} (hl : Ledger os (h :: hs)) :
    Ledger (h.close os) hs := by
  intro m
  have hm := hl m
  obtain ⟨owned, kind, inner⟩ := h
  rw [ownsAll_cons] at hm
  unfold Handle.close
  cases owned with
  | false => simpa [Handle.owns] using hm
  | true =>
    cases inner with
    | null => simpa [Handle.owns, HANDLE.isInvalid] using hm
    | created n =>
      simp only [Bool.true_eq_false, if_false, HANDLE.isInvalid, if_true, OsHandles.closeHandle]
      by_cases he : m = n
      · subst he
        simp only [Handle.owns, true_and, if_true] at hm
        rw [Function.update_self]
        dsimp only
        omega
      · have hne : ¬(HANDLE.created n = .created m) := fun e => he (by cases e; rfl)
        simp only [Handle.owns, true_and, if_neg hne] at hm
        rw [Function.update_of_ne he]
        omega

theorem Ledger.closeAll {hs hs' : List Handle} {os : OsHandles} (h : Ledger os (hs ++ hs')) :
    Ledger (ChildRun.closeAll hs os) hs' := by
  induction hs generalizing os with
  | nil => exact h
  | cons hd hs ih => exact ih h.close

theorem Ledger.closes_le {os : OsHandles} {hs : List Handle} (h : Ledger os hs)
    (n : HandleKind) : (os n).closes ≤ 1 := by
  have hn := h n
  split at hn <;> omega

/-- What has an owner is open. -/
theorem Ledger.closes_eq_zero {os : OsHandles} {hs : List Handle} (h : Ledger os hs)
    {n : HandleKind} (ho : 0 < ownsAll n hs) : (os n).closes = 0 := by
  have hn := h n
  split at hn <;> omega

theorem Ledger.closes_eq_one {os : OsHandles} (h : Ledger os []) {n : HandleKind}
    (hc : (os n).created = true) : (os n).closes = 1 := by
  have hn := h n
  rw [if_pos hc, ownsAll_nil] at hn
  exact hn

/-! ## The call -/

/-- The `Handle`s that are alive in a call. -/
def SpawnPc.owners : SpawnPc → List Handle
  | .createPipe k => Spawn.outer k
  | .setInherit k => .of (.pipeTx k) :: .of (.pipeRx k) :: Spawn.outer k
  | .createProcess => Spawn.locals
  | .dropTx .stdout => .of .thread :: .of .process :: Spawn.locals
  | .dropTx .stderr => [.of .thread, .of .process, .of (.pipeRx .stderr), .of (.pipeTx .stderr),
      .of (.pipeRx .stdout)]
  | .unwind hs _ => hs
  | .returned (.ok c) => ChildRun.handles c
  | .returned (.error _) => []

/-- The handles a call has not created yet. -/
def SpawnPc.later : SpawnPc → List HandleKind
  | .createPipe .stdout => [.pipeRx .stdout, .pipeTx .stdout, .pipeRx .stderr, .pipeTx .stderr,
      .process, .thread]
  | .setInherit .stdout => [.pipeRx .stderr, .pipeTx .stderr, .process, .thread]
  | .createPipe .stderr => [.pipeRx .stderr, .pipeTx .stderr, .process, .thread]
  | .setInherit .stderr => [.process, .thread]
  | .createProcess => [.process, .thread]
  | _ => []

structure Spawn.Owned (s : Spawn) : Prop where
  ledger : Ledger s.os s.pc.owners
  later : ∀ n ∈ s.pc.later, (s.os n).created = false

theorem Spawn.owned_start (spec : JobSpec) : (Spawn.start spec).Owned where
  ledger := fun _ => rfl
  later := fun _ _ => rfl

theorem later_setInherit (k : PipeKind) : ∀ n ∈ (SpawnPc.setInherit k).later,
    n ∈ (SpawnPc.createPipe k).later ∧ n ≠ .pipeTx k ∧ n ≠ .pipeRx k := by
  cases k <;> decide

/-- A write end is marked, and the call goes on at `pc`. -/
theorem Spawn.Owned.setInherit {s : Spawn} (h : s.Owned) {k : PipeKind}
    (hpc : s.pc = .setInherit k) (pc : SpawnPc)
    (hperm : pc.owners.Perm (SpawnPc.owners (.setInherit k)))
    (hlater : ∀ n ∈ pc.later, n ∈ SpawnPc.later (.setInherit k) ∧ n ≠ .pipeTx k) :
    Spawn.Owned { s with os := s.os.setInherit (.pipeTx k), pc := pc } := by
  have hledger := h.ledger
  have hold := h.later
  rw [hpc] at hledger hold
  refine ⟨(hledger.setInherit _).perm hperm, ?_⟩
  intro n hn
  obtain ⟨hmem, hne⟩ := hlater n hn
  dsimp only
  rw [OsHandles.setInherit_of_ne _ _ _ hne]
  exact hold n hmem

theorem Spawn.Owned.step {s s' : Spawn} {a : Spawn.Act} (h : s.Owned) (hs : Spawn.Step s a s') :
    s'.Owned := by
  have hledger := h.ledger
  have hlater := h.later
  cases hs with
  | @createPipe k hpc =>
    rw [hpc] at hledger hlater
    have hrx : (s.os (.pipeRx k)).created = false := by
      apply hlater
      cases k <;> decide
    have htx : (s.os.create (.pipeRx k) (.pipeTx k)).created = false := by
      rw [OsHandles.create_of_ne s.os (.pipeRx k) (.pipeTx k) nofun]
      apply hlater
      cases k <;> decide
    refine ⟨(hledger.create hrx).create htx, ?_⟩
    intro n hn
    obtain ⟨hold, htx', hrx'⟩ := later_setInherit k n hn
    dsimp only
    rw [OsHandles.create_of_ne _ _ _ htx', OsHandles.create_of_ne _ _ _ hrx']
    exact hlater n hold
  | createPipeFails hpc =>
    rw [hpc] at hledger
    refine ⟨hledger.congr ?_, nofun⟩
    intro n
    simp [SpawnPc.owners]
  | setInheritOut hpc => exact h.setInherit hpc (.createPipe .stderr) (by decide) (by decide)
  | setInheritErr hpc => exact h.setInherit hpc .createProcess (by decide) (by decide)
  | setInheritFails hpc =>
    rw [hpc] at hledger
    exact ⟨hledger, nofun⟩
  | createProcess hpc =>
    rw [hpc] at hledger hlater
    have hproc : (s.os .process).created = false := hlater _ (by decide)
    have hthread : (s.os.create .process .thread).created = false := by
      rw [OsHandles.create_of_ne s.os .process .thread nofun]
      exact hlater _ (by decide)
    exact ⟨(hledger.create hproc).create hthread, nofun⟩
  | createProcessFails hpc =>
    rw [hpc] at hledger
    exact ⟨hledger, nofun⟩
  | dropOut hpc =>
    rw [hpc] at hledger
    have hfront : Ledger s.os (.of (.pipeTx .stdout) :: SpawnPc.owners (.dropTx .stderr)) :=
      hledger.perm (by decide)
    exact ⟨hfront.close, nofun⟩
  | dropErr hpc =>
    rw [hpc] at hledger
    have hfront : Ledger s.os (.of (.pipeTx .stderr) :: ChildRun.handles Spawn.child) :=
      hledger.perm (by decide)
    exact ⟨hfront.close, nofun⟩
  | unwind hpc =>
    rw [hpc] at hledger
    exact ⟨hledger.close, nofun⟩
  | unwound hpc =>
    rw [hpc] at hledger
    exact ⟨hledger, nofun⟩

/-- A call that has returned is over. -/
theorem Spawn.Step.not_returned {s s' : Spawn} {a : Spawn.Act} (hs : Spawn.Step s a s') :
    ∀ res, s.pc ≠ .returned res := by
  intro res hres
  cases hs with
  | createPipe hpc | createPipeFails hpc | setInheritOut hpc | setInheritErr hpc
    | setInheritFails hpc | createProcess hpc | createProcessFails hpc | dropOut hpc | dropErr hpc
    | unwind hpc | unwound hpc =>
    rw [hpc] at hres
    cases hres

theorem Spawn.Step.child_of_returned {s s' : Spawn} {a : Spawn.Act} (hs : Spawn.Step s a s')
    {c : Child} (hret : s'.pc = .returned (.ok c)) : c = Spawn.child := by
  cases hs with
  | dropErr => cases hret; rfl
  | createPipe | createPipeFails | setInheritOut | setInheritErr | setInheritFails
    | createProcess | createProcessFails | dropOut | unwind | unwound => cases hret

namespace ChildRun

theorem returnedChild_eq_some {sp : Spawn} {c : Child} :
    returnedChild sp = some c ↔ sp.pc = .returned (.ok c) := by
  unfold returnedChild
  split
  · next c' hpc => simp [hpc]
  · next hne =>
    constructor
    · exact nofun
    · intro hpc
      exact absurd hpc (hne c)

theorem returnedChild_eq_none {sp : Spawn} (h : returnedChild sp = none) (c : Child) :
    sp.pc ≠ .returned (.ok c) := by
  intro hpc
  rw [returnedChild_eq_some.2 hpc] at h
  cases h

/-- The rules of `ChildRun.step`. -/
inductive Step (s : ChildRun) : Act → ChildRun → Prop
  | spawn {a sp} (hsp : s.spawn.step a = some sp) (hret : returnedChild sp = none) :
      Step s (.spawn a) { s with spawn := sp }
  | returned {a sp c} (hsp : s.spawn.step a = some sp) (hret : returnedChild sp = some c) :
      Step s (.spawn a) { s with spawn := sp, child := some c }
  | take {k c h} (hc : s.child = some c) (hf : s.future = none) (ho : output c k = some h) :
      Step s (.take k) { s with
        child := some (takeOutput c k), readers := Function.update s.readers k (some h) }
  | readerEnds {k h} (hr : s.readers k = some h) :
      Step s (.readerEnds k)
        ({ s with readers := Function.update s.readers k none }.setOs (h.close s.spawn.os))
  | wait {c} (hc : s.child = some c) (hf : s.future = none) :
      Step s .wait { s with future := some (.wait c.process.clone) }
  | kill {c} (hc : s.child = some c) (hf : s.future = none) :
      Step s .kill { s with future := some (.kill c.process.clone false) }
  | ready {i h} (hf : s.future = some (.wait h)) (he : s.exited = true) : Step s (.poll i) s
  | waits {i h} (hf : s.future = some (.wait h)) (ht : s.threads i = none) :
      Step s (.poll i) (s.startThread i .waitForSingleObject h.clone)
  | failed {i h} (hf : s.future = some (.wait h)) (ht : s.threads i = none) :
      Step s (.pollFailed i) (s.startThread i .waitForSingleObject h.clone)
  | kills {i h} (hf : s.future = some (.kill h false)) (ht : s.threads i = none) :
      Step s (.poll i)
        ({ s with future := some (.kill h true) }.startThread i .terminateProcess h.clone)
  | killing {i h} (hf : s.future = some (.kill h true)) : Step s (.poll i) s
  | dropFuture {h} (hf : s.future = some (.wait h) ∨ ∃ b, s.future = some (.kill h b)) :
      Step s .dropFuture ({ s with future := none }.setOs (h.close s.spawn.os))
  | call {i t} (ht : s.threads i = some t) (hpc : t.pc = .started) :
      Step s (.call i) (s.setThread i { t with pc := .inCall })
  | return_ {i t} (ht : s.threads i = some t) (hpc : t.pc = .inCall) :
      Step s (.return_ i)
        ((s.setThread i { t with pc := .done }).setOs (t.handle.close s.spawn.os))
  | exit : Step s .exit { s with exited := true }
  | dropChild {c} (hc : s.child = some c) (hf : s.future = none) :
      Step s .dropChild
        ({ s with child := none }.setOs (closeAll (handles c) s.spawn.os))

theorem Step.of_poll {s s' : ChildRun} {i : Nat} (h : s.step (.poll i) = some s') :
    Step s (.poll i) s' := by
  simp only [step] at h
  split at h
  · next hd hf ht =>
    split at h
    · next he => cases h; exact .ready hf he
    · cases h; exact .waits hf ht
  · next hd hf ht => cases h; exact .kills hf ht
  · next hd hf => cases h; exact .killing hf
  · cases h

theorem Step.of_step {s s' : ChildRun} {a : Act} (h : s.step a = some s') : Step s a s' := by
  cases a with
  | poll i => exact .of_poll h
  | spawn a =>
    simp only [step] at h
    split at h
    · cases h
    · next sp hsp =>
      split at h
      · next c hret => cases h; exact .returned hsp hret
      · next hret => cases h; exact .spawn hsp hret
  | take k =>
    simp only [step] at h
    split at h
    · next c hc hf =>
      split at h
      · cases h
      · next hd ho => cases h; exact .take hc hf ho
    · cases h
  | readerEnds k =>
    simp only [step] at h
    split at h
    · cases h
    · next hd hr => cases h; exact .readerEnds hr
  | wait =>
    simp only [step] at h
    split at h
    · next c hc hf => cases h; exact .wait hc hf
    · cases h
  | kill =>
    simp only [step] at h
    split at h
    · next c hc hf => cases h; exact .kill hc hf
    · cases h
  | dropFuture =>
    simp only [step] at h
    split at h
    · next hd hf => cases h; exact .dropFuture (.inl hf)
    · next hd b hf => cases h; exact .dropFuture (.inr ⟨b, hf⟩)
    · cases h
  | pollFailed i =>
    simp only [step] at h
    split at h
    · next hd hf ht => cases h; exact .failed hf ht
    · cases h
  | call i =>
    simp only [step] at h
    split at h
    · next t ht =>
      split at h
      · next hpc => cases h; exact .call ht hpc
      · cases h
    · cases h
  | return_ i =>
    simp only [step] at h
    split at h
    · next t ht =>
      split at h
      · next hpc => cases h; exact .return_ ht hpc
      · cases h
    · cases h
  | exit => cases h; exact .exit
  | dropChild =>
    simp only [step] at h
    split at h
    · next c hc hf => cases h; exact .dropChild hc hf
    · cases h

/-! ## What holds in every state -/

/-- The `Handle`s alive in a call; those of the `Child` it returns have been moved out. -/
def callOwners : SpawnPc → List Handle
  | .returned _ => []
  | pc => pc.owners

/-- The `Handle`s that may own a handle. -/
def owners (s : ChildRun) : List Handle :=
  callOwners s.spawn.pc ++ s.child.elim [] handles ++ (s.readers .stdout).toList ++
    (s.readers .stderr).toList

/-- The handle of a future, and of the threads it starts. -/
def borrowed : Handle := (Handle.of .process).clone

structure Inv (s : ChildRun) : Prop where
  ledger : Ledger s.spawn.os (owners s)
  later : ∀ n ∈ s.spawn.pc.later, (s.spawn.os n).created = false
  idle : (∀ c, s.spawn.pc ≠ .returned (.ok c)) → s.child = none ∧ s.future = none ∧
    (∀ i, s.threads i = none) ∧ ∀ k, s.readers k = none
  child : ∀ c, s.child = some c → c.process = .of .process ∧
    ∀ k, output c k ≠ none → s.readers k = none
  future : ∀ h, (s.future = some (.wait h) ∨ ∃ b, s.future = some (.kill h b)) →
    h = borrowed ∧ s.child ≠ none
  threads : ∀ i t, s.threads i = some t → t.handle = borrowed

theorem no_future {o : Option Future} (ho : o = none) {P : Handle → Prop} :
    ∀ h, (o = some (.wait h) ∨ ∃ b, o = some (.kill h b)) → P h := by
  subst ho
  rintro h (hf | ⟨b, hf⟩)
  · cases hf
  · cases hf

theorem inv_start (spec : JobSpec) : Inv (start spec) where
  ledger := (Spawn.owned_start spec).ledger
  later := (Spawn.owned_start spec).later
  idle := fun _ => ⟨rfl, rfl, fun _ => rfl, fun _ => rfl⟩
  child := by
    intro c hc
    cases hc
  future := no_future rfl
  threads := by
    intro i t ht
    cases ht

section Steps

variable {s s' : ChildRun}

/-- A child, a future, a thread or a reader is there only once `spawn` has returned. -/
theorem Inv.returned (h : Inv s) (hl : s.child ≠ none ∨ s.future ≠ none ∨
    (∃ i, s.threads i ≠ none) ∨ ∃ k, s.readers k ≠ none) : ∃ c, s.spawn.pc = .returned (.ok c) := by
  by_contra hno
  obtain ⟨hchild, hfuture, hthreads, hreaders⟩ := h.idle fun c hc => hno ⟨c, hc⟩
  rcases hl with hl | hl | ⟨i, hl⟩ | ⟨k, hl⟩
  · exact hl hchild
  · exact hl hfuture
  · exact hl (hthreads i)
  · exact hl (hreaders k)

theorem callOwners_eq {pc : SpawnPc} (h : ∀ c, pc ≠ .returned (.ok c)) :
    callOwners pc = pc.owners := by
  cases pc with
  | returned res =>
    cases res with
    | ok c => exact absurd rfl (h c)
    | error err => rfl
  | createPipe | setInherit | createProcess | dropTx | unwind => rfl

/-- A call that has returned creates nothing more. -/
theorem later_returned {pc : SpawnPc} {res : Except Win.Error Child} (h : pc = .returned res)
    {P : HandleKind → Prop} : ∀ n ∈ pc.later, P n := by
  subst h
  exact nofun

/-- Before `spawn` returns, the owners are those of the call. -/
theorem owners_idle (hpc : ∀ c, s.spawn.pc ≠ .returned (.ok c)) (hchild : s.child = none)
    (hreaders : ∀ k, s.readers k = none) : owners s = s.spawn.pc.owners := by
  unfold owners
  rw [callOwners_eq hpc, hchild, hreaders .stdout, hreaders .stderr]
  simp

theorem Inv.owned (h : Inv s) (hpc : ∀ c, s.spawn.pc ≠ .returned (.ok c)) : s.spawn.Owned := by
  obtain ⟨hchild, -, -, hreaders⟩ := h.idle hpc
  refine ⟨?_, h.later⟩
  rw [← owners_idle hpc hchild hreaders]
  exact h.ledger

theorem ownsAll_take (n : HandleKind) (c : Child) {k : PipeKind} {hd : Handle}
    (ho : output c k = some hd) :
    ownsAll n (handles c) = ownsAll n (handles (takeOutput c k)) + hd.owns n := by
  cases k with
  | stdout =>
    have hout : c.stdout = some hd := ho
    simp only [handles, takeOutput, hout, ownsAll_cons, ownsAll_append, Option.toList_some,
      Option.toList_none, ownsAll_nil]
    omega
  | stderr =>
    have hout : c.stderr = some hd := ho
    simp only [handles, takeOutput, hout, ownsAll_cons, ownsAll_append, Option.toList_some,
      Option.toList_none, ownsAll_nil]
    omega

theorem ownsAll_readers (n : HandleKind) (f : PipeKind → Option Handle) (k : PipeKind)
    (o : Option Handle) :
    ownsAll n ((Function.update f k o .stdout).toList) +
      ownsAll n ((Function.update f k o .stderr).toList) + ownsAll n (f k).toList =
    ownsAll n (f .stdout).toList + ownsAll n (f .stderr).toList + ownsAll n o.toList := by
  cases k with
  | stdout =>
    have hne : PipeKind.stderr ≠ .stdout := nofun
    simp only [Function.update_self, Function.update_of_ne hne]
    omega
  | stderr =>
    have hne : PipeKind.stdout ≠ .stderr := nofun
    simp only [Function.update_self, Function.update_of_ne hne]
    omega

theorem takeOutput_output (c : Child) (k j : PipeKind) :
    output (takeOutput c k) j = if j = k then none else output c j := by
  cases k <;> cases j <;> rfl

theorem takeOutput_process (c : Child) (k : PipeKind) : (takeOutput c k).process = c.process := by
  cases k <;> rfl

theorem Inv.take (h : Inv s) {k : PipeKind} {c : Child} {hd : Handle} (hc : s.child = some c)
    (hf : s.future = none) (ho : output c k = some hd) :
    Inv { s with
      child := some (takeOutput c k), readers := Function.update s.readers k (some hd) } := by
  obtain ⟨c₀, hret⟩ := h.returned (.inl (by simp [hc]))
  obtain ⟨hproc, hfree⟩ := h.child c hc
  have hnone : s.readers k = none := hfree k (by simp [ho])
  refine ⟨h.ledger.congr ?_, h.later, fun hno => absurd hret (hno c₀), ?_, ?_, h.threads⟩
  · intro n
    have hreaders := ownsAll_readers n s.readers k (some hd)
    have htake := ownsAll_take n c ho
    unfold owners
    simp only [ownsAll_append, hc, hnone, Option.elim_some, Option.toList_none, Option.toList_some,
      ownsAll_nil, ownsAll_cons] at hreaders htake ⊢
    omega
  · rintro c' ⟨⟩
    refine ⟨(takeOutput_process c k).trans hproc, ?_⟩
    intro j hj
    rw [takeOutput_output] at hj
    by_cases hjk : j = k
    · rw [if_pos hjk] at hj
      exact absurd rfl hj
    · rw [if_neg hjk] at hj
      exact (Function.update_of_ne hjk ..).trans (hfree j hj)
  · exact no_future hf

theorem Inv.spawn (h : Inv s) {a : Spawn.Act} {sp : Spawn} (hsp : s.spawn.step a = some sp)
    (hret : returnedChild sp = none) : Inv { s with spawn := sp } := by
  have hstep := Spawn.Step.of_step hsp
  have hpc : ∀ c, s.spawn.pc ≠ .returned (.ok c) := fun c => hstep.not_returned (.ok c)
  obtain ⟨hchild, hfuture, hthreads, hreaders⟩ := h.idle hpc
  have howned := (h.owned hpc).step hstep
  refine ⟨?_, howned.later, fun _ => ⟨hchild, hfuture, hthreads, hreaders⟩, h.child, h.future,
    h.threads⟩
  have howners := owners_idle (s := { s with spawn := sp }) (returnedChild_eq_none hret) hchild
    hreaders
  rw [howners]
  exact howned.ledger

/-- `spawn` returns the child. -/
theorem Inv.spawned (h : Inv s) {a : Spawn.Act} {sp : Spawn} {c : Child}
    (hsp : s.spawn.step a = some sp) (hret : returnedChild sp = some c) :
    Inv { s with spawn := sp, child := some c } := by
  have hstep := Spawn.Step.of_step hsp
  have hpc : ∀ c, s.spawn.pc ≠ .returned (.ok c) := fun c => hstep.not_returned (.ok c)
  have hpc' := returnedChild_eq_some.1 hret
  have hc := hstep.child_of_returned hpc'
  obtain ⟨-, hfuture, -, hreaders⟩ := h.idle hpc
  have howned := (h.owned hpc).step hstep
  refine ⟨?_, howned.later, fun hno => absurd hpc' (hno c), ?_, ?_, h.threads⟩
  · have hledger := howned.ledger
    rw [hpc'] at hledger
    apply hledger.congr
    intro n
    simp [owners, hpc', callOwners, hreaders, SpawnPc.owners]
  · rintro c' ⟨⟩
    exact ⟨by rw [hc]; rfl, fun k _ => hreaders k⟩
  · exact no_future hfuture

/-- A `Handle` that owns a handle is dropped by its reading thread. -/
theorem Inv.readerEnds (h : Inv s) {k : PipeKind} {hd : Handle} (hr : s.readers k = some hd) :
    Inv ({ s with readers := Function.update s.readers k none }.setOs
      (hd.close s.spawn.os)) := by
  obtain ⟨c₀, hret⟩ := h.returned (.inr (.inr (.inr ⟨k, by simp [hr]⟩)))
  refine ⟨?_, ?_, fun hno => absurd hret (hno c₀), ?_, h.future, h.threads⟩
  · apply Ledger.close (h := hd)
    apply h.ledger.congr
    intro n
    have hreaders := ownsAll_readers n s.readers k none
    unfold owners
    simp only [setOs, ownsAll_append, ownsAll_cons, hr, Option.toList_none, Option.toList_some,
      ownsAll_nil] at hreaders ⊢
    omega
  · exact later_returned hret
  · intro c hc
    obtain ⟨hproc, hfree⟩ := h.child c hc
    refine ⟨hproc, ?_⟩
    intro j hj
    by_cases hjk : j = k
    · subst hjk
      exact Function.update_self ..
    · exact (Function.update_of_ne hjk ..).trans (hfree j hj)

theorem Inv.dropChild (h : Inv s) {c : Child} (hc : s.child = some c) (hf : s.future = none) :
    Inv ({ s with child := none }.setOs (closeAll (handles c) s.spawn.os)) := by
  obtain ⟨c₀, hret⟩ := h.returned (.inl (by simp [hc]))
  refine ⟨?_, ?_, fun hno => absurd hret (hno c₀), ?_, ?_, h.threads⟩
  · apply Ledger.closeAll
    apply h.ledger.congr
    intro n
    simp only [owners, setOs, ownsAll_append, hc, Option.elim_some, Option.elim_none, ownsAll_nil]
    omega
  · exact later_returned hret
  · intro c' hc'
    cases hc'
  · exact no_future hf

/-- A step of a future or of a thread leaves the owners alone. -/
theorem Inv.frame (h : Inv s) {s' : ChildRun} (hspawn : s'.spawn = s.spawn)
    (hchild : s'.child = s.child) (hreaders : s'.readers = s.readers)
    (hlive : ∃ c, s.spawn.pc = .returned (.ok c))
    (hfuture : ∀ h', (s'.future = some (.wait h') ∨ ∃ b, s'.future = some (.kill h' b)) →
      h' = borrowed ∧ s.child ≠ none)
    (hthreads : ∀ i t, s'.threads i = some t → t.handle = borrowed) : Inv s' := by
  obtain ⟨c, hc⟩ := hlive
  have howners : owners s' = owners s := by
    unfold owners
    rw [hspawn, hchild, hreaders]
  refine ⟨?_, ?_, fun hno => absurd hc (by rw [← hspawn]; exact hno c), ?_, ?_, hthreads⟩
  · rw [hspawn, howners]
    exact h.ledger
  · rw [hspawn]
    exact h.later
  · rw [hchild, hreaders]
    exact h.child
  · rw [hchild]
    exact hfuture

/-- The drop of a borrowed `Handle` closes nothing. -/
theorem setOs_close_borrowed (s : ChildRun) : s.setOs (borrowed.close s.spawn.os) = s := by
  unfold borrowed
  rw [close_clone]
  rfl

theorem threads_update {i : Nat} {u : CallThread} (h : Inv s) (hu : u.handle = borrowed) :
    ∀ j t, Function.update s.threads i (some u) j = some t → t.handle = borrowed := by
  intro j t ht
  rcases of_update_eq_some ht with ⟨-, rfl⟩ | ⟨-, hold⟩
  · exact hu
  · exact h.threads j t hold

theorem Inv.newFuture (h : Inv s) {c : Child} (hc : s.child = some c) (f : Future)
    (hf : f = .wait c.process.clone ∨ f = .kill c.process.clone false) :
    Inv { s with future := some f } := by
  have hlive := h.returned (.inl (by simp [hc]))
  refine h.frame rfl rfl rfl hlive ?_ h.threads
  have hproc : c.process.clone = borrowed := by
    rw [(h.child c hc).1]
    rfl
  rintro h' (hf' | ⟨b, hf'⟩)
  · rcases hf with rfl | rfl
    · cases hf'
      exact ⟨hproc, by simp [hc]⟩
    · cases hf'
  · rcases hf with rfl | rfl
    · cases hf'
    · cases hf'
      exact ⟨hproc, by simp [hc]⟩

theorem Inv.step {a : Act} (h : Inv s) (hs : Step s a s') : Inv s' := by
  cases hs with
  | spawn hsp hret => exact h.spawn hsp hret
  | returned hsp hret => exact h.spawned hsp hret
  | take hc hf ho => exact h.take hc hf ho
  | readerEnds hr => exact h.readerEnds hr
  | dropChild hc hf => exact h.dropChild hc hf
  | wait hc hf => exact h.newFuture hc _ (.inl rfl)
  | kill hc hf => exact h.newFuture hc _ (.inr rfl)
  | ready => exact h
  | killing => exact h
  | exit => exact ⟨h.ledger, h.later, h.idle, h.child, h.future, h.threads⟩
  | @waits i hd hf | @failed i hd hf =>
    have hlive := h.returned (.inr (.inl (by simp [hf])))
    obtain ⟨rfl, -⟩ := h.future hd (.inl hf)
    exact h.frame rfl rfl rfl hlive h.future (threads_update h rfl)
  | @kills i hd hf =>
    have hlive := h.returned (.inr (.inl (by simp [hf])))
    obtain ⟨rfl, hchild⟩ := h.future hd (.inr ⟨false, hf⟩)
    refine h.frame rfl rfl rfl hlive ?_ (threads_update (s := s) h rfl)
    rintro h' (hf' | ⟨b, hf'⟩)
    · cases hf'
    · cases hf'
      exact ⟨rfl, hchild⟩
  | @dropFuture hd hf =>
    have hlive : ∃ c, s.spawn.pc = .returned (.ok c) := by
      apply h.returned
      rcases hf with hf | ⟨b, hf⟩ <;> exact .inr (.inl (by simp [hf]))
    obtain ⟨rfl, -⟩ := h.future hd hf
    have hsame := setOs_close_borrowed { s with future := none }
    dsimp only at hsame
    rw [hsame]
    exact h.frame rfl rfl rfl hlive (no_future rfl) h.threads
  | @call i t ht =>
    have hlive := h.returned (.inr (.inr (.inl ⟨i, by simp [ht]⟩)))
    exact h.frame rfl rfl rfl hlive h.future (threads_update h (h.threads i t ht))
  | @return_ i t ht =>
    have hlive := h.returned (.inr (.inr (.inl ⟨i, by simp [ht]⟩)))
    have hhandle := h.threads i t ht
    have hsame := setOs_close_borrowed (s.setThread i { t with pc := .done })
    dsimp only [setThread] at hsame
    dsimp only [setThread]
    rw [hhandle] at hsame ⊢
    rw [hsame]
    exact h.frame rfl rfl rfl hlive h.future (threads_update h rfl)

theorem inv_run {spec : JobSpec} {as : List Act}
    (h : run ChildRun.step (start spec) as = some s) : Inv s := by
  apply Reachable.invariant ⟨as, h⟩ (inv_start spec)
  intro s a s' hs ha
  exact hs.step (.of_step ha)

end Steps

/-! ## Threads that outlive the `Child` -/

/-- The `Child` has been dropped. -/
def Dropped (s : ChildRun) : Prop := s.child = none ∧ ∃ c, s.spawn.pc = .returned (.ok c)

/-- Every thread has ended. -/
def Done (s : ChildRun) : Prop := ∀ i t, s.threads i = some t → t.pc = .done

/-- The label drops the `Child` while a thread has not finished its call. -/
def Premature (s : ChildRun) (a : Act) : Prop :=
  a = .dropChild ∧ ∃ i t, s.threads i = some t ∧ t.pc ≠ .done

section Use

variable {s s' : ChildRun} {a : Act}

/-- While there is a `Child`, the process handle is open. -/
theorem Inv.process_open (h : Inv s) (hc : s.child ≠ none) :
    (s.spawn.os .process).closes = 0 := by
  obtain ⟨c, hc⟩ := Option.ne_none_iff_exists'.1 hc
  apply h.ledger.closes_eq_zero
  unfold owners
  simp only [ownsAll_append, hc, Option.elim_some, handles, ownsAll_cons, (h.child c hc).1, owns_of,
    if_true]
  omega

theorem closed_borrowed : s.Closed borrowed ↔ 0 < (s.spawn.os .process).closes := by
  constructor
  · rintro ⟨name, hn, hpos⟩
    cases hn
    exact hpos
  · exact fun hpos => ⟨.process, rfl, hpos⟩

/-- With the threads ended before the `Child` goes, no handle is used behind its close. -/
theorem Inv.not_misused (h : Inv s) (hdone : Dropped s → Done s) : ¬s.Misused := by
  rintro (⟨i, t, ht, hpc, hclosed⟩ | ⟨hd, hf, hclosed⟩)
  · rw [h.threads i t ht, closed_borrowed] at hclosed
    have hlive := h.returned (.inr (.inr (.inl ⟨i, by simp [ht]⟩)))
    have hchild : s.child = none := by
      by_contra hc
      have hopen := h.process_open hc
      omega
    have hend := hdone ⟨hchild, hlive⟩ i t ht
    rw [hend] at hpc
    cases hpc
  · obtain ⟨rfl, hc⟩ := h.future hd (.inl hf)
    rw [closed_borrowed, h.process_open hc] at hclosed
    omega

theorem done_step (h : Inv s) (hs : Step s a s') (hno : ¬Premature s a)
    (hdone : Dropped s → Done s) : Dropped s' → Done s' := by
  rintro ⟨hchild, c₀, hret⟩
  cases hs with
  | spawn hsp hnone => exact absurd hret (returnedChild_eq_none hnone c₀)
  | returned | take => cases hchild
  | wait hc | kill hc =>
    have hnone : s.child = none := hchild
    rw [hnone] at hc
    cases hc
  | waits hf | failed hf => exact absurd hchild (h.future _ (.inl hf)).2
  | kills hf => exact absurd hchild (h.future _ (.inr ⟨_, hf⟩)).2
  | call ht hpc =>
    have hend := hdone ⟨hchild, c₀, hret⟩ _ _ ht
    rw [hpc] at hend
    cases hend
  | return_ ht hpc =>
    have hend := hdone ⟨hchild, c₀, hret⟩ _ _ ht
    rw [hpc] at hend
    cases hend
  | dropChild hc hf =>
    intro i t ht
    by_contra hpc
    exact hno ⟨rfl, i, t, ht, hpc⟩
  | ready | killing | readerEnds | dropFuture | exit => exact hdone ⟨hchild, c₀, hret⟩

theorem done_run {spec : JobSpec} {as : List Act}
    (h : run ChildRun.step (start spec) as = some s) :
    ¬Met ChildRun.step Premature (start spec) as → Dropped s → Done s := by
  apply run_induct (motive := fun as s =>
    ¬Met ChildRun.step Premature (start spec) as → Dropped s → Done s) _ _ h
  · rintro - ⟨-, c, hc⟩
    cases hc
  · intro as s a s' hr ih ha hmet
    rw [met_snoc hr, not_or] at hmet
    exact done_step (inv_run hr) (.of_step ha) hmet.2 (ih hmet.1)

theorem closes_le_close (hd : Handle) (os : OsHandles) (n : HandleKind) :
    (os n).closes ≤ (hd.close os n).closes := by
  unfold Handle.close
  split
  · exact Nat.le_refl _
  · split
    · cases hd.inner with
      | null => exact Nat.le_refl _
      | created m =>
        by_cases hn : n = m
        · subst hn
          simp [OsHandles.closeHandle]
        · simp [OsHandles.closeHandle, hn]
    · exact Nat.le_refl _

theorem closes_le_closeAll (hs : List Handle) (os : OsHandles) (n : HandleKind) :
    (os n).closes ≤ (closeAll hs os n).closes := by
  induction hs generalizing os with
  | nil => exact Nat.le_refl _
  | cons hd hs ih => exact Nat.le_trans (closes_le_close hd os n) (ih _)

/-- The drop of the `Child` closes the process handle. -/
theorem Inv.closed_of_drop (h : Inv s) {c : Child} (hc : s.child = some c) :
    0 < (closeAll (handles c) s.spawn.os .process).closes := by
  have hfirst : 0 < (c.process.close s.spawn.os .process).closes := by
    rw [(h.child c hc).1]
    simp [Handle.close, Handle.of, Handle.ofOwned, HANDLE.isInvalid, OsHandles.closeHandle]
  exact Nat.lt_of_lt_of_le hfirst (closes_le_closeAll _ _ _)

end Use

/-- The steps that the threads take on their own. -/
def Act.ofThread : Act → Bool
  | .call _ => true
  | .return_ _ => true
  | _ => false

/-- No handle is closed twice, when all is over each is closed, and no thread is ever in a call on a
closed handle: along the run, and whatever its threads do from any point of it on. -/
structure Disciplined (spec : JobSpec) (as : List Act) (s : ChildRun) : Prop where
  once : ∀ n, (s.spawn.os n).closes ≤ 1
  closed : s.Over → ∀ n, (s.spawn.os n).created = true → (s.spawn.os n).closes = 1
  unused : ∀ pre bs t, pre <+: as → (∀ b ∈ bs, b.ofThread = true) →
    run ChildRun.step (start spec) (pre ++ bs) = some t → ¬t.Misused

theorem Inv.closed_of_over {s : ChildRun} (h : Inv s) (hover : s.Over) {n : HandleKind}
    (hc : (s.spawn.os n).created = true) : (s.spawn.os n).closes = 1 := by
  obtain ⟨⟨res, hret⟩, hchild, hreaders⟩ := hover
  have hledger := h.ledger
  unfold owners at hledger
  rw [hret, hchild, hreaders .stdout, hreaders .stderr] at hledger
  exact hledger.closes_eq_one hc

/-- A run is disciplined exactly if the `Child` is never dropped while a thread has not finished its
call. -/
theorem disciplined_iff {spec : JobSpec} {as : List Act} {s : ChildRun}
    (hrun : run ChildRun.step (start spec) as = some s) :
    Disciplined spec as s ↔ ¬Met ChildRun.step Premature (start spec) as := by
  have h := inv_run hrun
  constructor
  · rintro hdis ⟨pre, a, cs, t, rfl, ht, rfl, i, u, hu, hpc⟩
    obtain ⟨t₁, ht₁, hrest⟩ := run_append_iff.1 hrun
    obtain rfl : t = t₁ := Option.some.inj (ht.symm.trans ht₁)
    obtain ⟨t', hdrop, -⟩ := run_cons_iff.1 hrest
    have hpre : run ChildRun.step (start spec) (pre ++ [.dropChild]) = some t' :=
      run_snoc_iff.2 ⟨t, ht, hdrop⟩
    have hprefix : pre ++ [.dropChild] <+: pre ++ .dropChild :: cs := ⟨cs, by simp⟩
    have hinv := inv_run ht
    cases Step.of_step hdrop with
    | @dropChild c hc hf =>
      have hclosed := hinv.closed_of_drop hc
      have hhandle := hinv.threads i u hu
      cases hup : u.pc with
      | done => exact hpc hup
      | inCall =>
        apply hdis.unused (pre ++ [.dropChild]) [] _ hprefix (by simp)
          (by rw [List.append_nil]; exact hpre)
        refine .inl ⟨i, u, hu, hup, ?_⟩
        rw [hhandle, closed_borrowed]
        exact hclosed
      | started =>
        -- the thread enters its call behind the drop
        have hcall : run ChildRun.step (start spec) (pre ++ [.dropChild] ++ [.call i]) = some
            (({ t with child := none }.setOs (closeAll (handles c) t.spawn.os)).setThread i
              { u with pc := .inCall }) := by
          refine run_snoc_iff.2 ⟨_, hpre, ?_⟩
          simp only [ChildRun.step, setOs, hu]
          rw [if_pos hup]
        apply hdis.unused (pre ++ [.dropChild]) [.call i] _ hprefix (by simp [Act.ofThread]) hcall
        refine .inl ⟨i, _, Function.update_self .., rfl, ?_⟩
        rw [hhandle, closed_borrowed]
        exact hclosed
  · intro hno
    refine ⟨h.ledger.closes_le, fun hover n hc => h.closed_of_over hover hc, ?_⟩
    rintro pre bs t ⟨cs, rfl⟩ hbs ht
    have hmet : ¬Met ChildRun.step Premature (start spec) (pre ++ bs) := by
      intro hmet
      apply hno
      apply Met.append
      apply met_of_append ht _ hmet
      rintro b hb v ⟨rfl, -⟩
      have hthread := hbs _ hb
      cases hthread
    exact (inv_run ht).not_misused (done_run ht hmet)

/-- A job starts: the call returns its child, and the two readers are given their handles. -/
def startRun : List Act :=
  [.spawn (.createPipe (.ok ())), .spawn (.setHandleInformation (.ok ())),
    .spawn (.createPipe (.ok ())), .spawn (.setHandleInformation (.ok ())),
    .spawn (.createProcessW (.ok ())), .spawn .drop, .spawn .drop, .take .stdout, .take .stderr]

/-- The thread of the first poll returns when the process ends, and wakes the second poll. -/
def waitedRun : List Act :=
  startRun.append [.wait, .poll 0, .call 0, .exit, .return_ 0, .poll 1, .dropFuture,
    .readerEnds .stdout, .readerEnds .stderr]

theorem disciplined_iff_waitedRun :
    ∃ s, run ChildRun.step (start { exe := [0x63], args := [] }) (waitedRun ++ [.dropChild]) =
        some s ∧ s.Over ∧
      Disciplined { exe := [0x63], args := [] } (waitedRun ++ [.dropChild]) s := by
  have hrun : ∃ t s, run ChildRun.step (start { exe := [0x63], args := [] }) waitedRun = some t ∧
      t.step .dropChild = some s ∧ t.threads 0 = some ⟨.waitForSingleObject, borrowed, .done⟩ ∧
      (∀ i, t.threads (i + 1) = none) ∧ s.Over :=
    ⟨_, _, rfl, rfl, rfl, fun _ => rfl, ⟨_, rfl⟩, rfl, by rintro (_ | _) <;> rfl⟩
  obtain ⟨t, s, ht, hdrop, hzero, hnone, hover⟩ := hrun
  have hs := run_snoc_iff.2 ⟨t, ht, hdrop⟩
  refine ⟨s, hs, hover, (disciplined_iff hs).2 ?_⟩
  rw [met_snoc ht, not_or]
  constructor
  · rintro ⟨pre, a, cs, v, hsplit, -, rfl, -⟩
    have hmem : Act.dropChild ∈ waitedRun := by
      rw [hsplit]
      simp
    simp [waitedRun, startRun] at hmem
  · rintro ⟨-, i, u, hu, hpc⟩
    cases i with
    | zero =>
      obtain rfl := Option.some.inj (hzero.symm.trans hu)
      exact hpc rfl
    | succ i => simp [hnone i] at hu

/-- A pending poll has its thread wait for the process, and an error ends the loop of the tracker,
which drops the future and the child. -/
theorem misused_brokenLoop :
    ∃ s, run ChildRun.step (start { exe := [0x63], args := [] })
        (startRun ++ [.wait, .poll 0, .call 0, .dropFuture, .dropChild]) = some s ∧
      (s.spawn.os .process).closes = 1 ∧ s.Misused ∧
      ¬Disciplined { exe := [0x63], args := [] }
        (startRun ++ [.wait, .poll 0, .call 0, .dropFuture, .dropChild]) s := by
  have hrun : ∃ s, run ChildRun.step (start { exe := [0x63], args := [] })
        (startRun ++ [.wait, .poll 0, .call 0, .dropFuture, .dropChild]) = some s ∧
      (s.spawn.os .process).closes = 1 ∧
      s.threads 0 = some ⟨.waitForSingleObject, borrowed, .inCall⟩ := ⟨_, rfl, rfl, rfl⟩
  obtain ⟨s, hs, hcloses, hthread⟩ := hrun
  have hmisused : s.Misused :=
    .inl ⟨0, _, hthread, rfl, closed_borrowed.2 (by rw [hcloses]; exact Nat.one_pos)⟩
  refine ⟨s, hs, hcloses, hmisused, ?_⟩
  intro hdis
  exact hdis.unused _ [] s (List.prefix_refl _) (by simp) (by rw [List.append_nil]; exact hs)
    hmisused

end ChildRun

end JobRunner.Win
