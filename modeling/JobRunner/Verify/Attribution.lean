import JobRunner.Supervised
import JobRunner.Verify.KillProtocol

/-!
# Who is said to have killed a job

A process that has ended by itself stays unreaped until something waits for it. A kill request that
`wait` takes in between finds a process that still takes the signal, so it succeeds, names the user
as the killer and is answered with the job like any other. After the process has been waited for,
and before it has ended, the result of `child.kill()` is the truth. So the record is right in the
runs that call `child.kill()` on no unreaped process (`attributed_iff`).
-/

namespace JobRunner

open Lts

namespace TokioChild

variable {called c c' : TokioChild}

/-- The child stays as it is or, after its end, is known to have been waited for. -/
def Reaps (c c' : TokioChild) : Prop :=
  c' = c ∨ ∃ how waited, c = .ended how waited ∧ c' = .ended how true

theorem wait_reaps {status : Except IoError ProcStatus} (h : c.wait status = some c') :
    Reaps c c' := by
  cases status with
  | error err => exact .inl (Option.some.inj h).symm
  | ok st =>
    cases c with
    | running => cases h
    | ended how waited => exact .inr ⟨how, waited, rfl, (Option.some.inj h).symm⟩

/-- The end of `child.kill()` is that of its wait: the signal has ended the process before. -/
theorem kill_reaps {res : Except IoError Unit} (h : called.kill c res = some c') : Reaps c c' := by
  match res with
  | .error err =>
    match called with
    | .running | .ended _ true => exact .inl (Option.some.inj h).symm
    | .ended _ false => cases h
  | .ok u =>
    match called, c with
    | .ended _ true, _ => cases h
    | .running, .running | .ended _ false, .running => cases h
    | .running, .ended how waited | .ended _ false, .ended how waited =>
      exact .inr ⟨how, waited, rfl, (Option.some.inj h).symm⟩

theorem Reaps.ended (h : Reaps c c') {how : Ended} {waited : Bool} (hc : c' = .ended how waited) :
    ∃ waited', c = .ended how waited' := by
  rcases h with rfl | ⟨how', waited', hold, hnew⟩
  · exact ⟨waited, hc⟩
  · cases hnew.symm.trans hc
    exact ⟨waited', hold⟩

theorem Reaps.running (h : Reaps c c') (hc : c' = .running) : c = .running := by
  rcases h with rfl | ⟨how, waited, -, hnew⟩
  · exact hc
  · cases hnew.symm.trans hc

/-- A kill that succeeds has found no process that has been waited for. -/
theorem kill_ok {u : Unit} (h : called.kill c (.ok u) = some c') :
    called = .running ∨ ∃ how, called = .ended how false := by
  cases called with
  | running => exact .inl rfl
  | ended how waited =>
    cases waited with
    | false => exact .inr ⟨how, rfl⟩
    | true => cases h

end TokioChild

namespace Supervised

/-! ## The rules of a step -/

inductive Step (s : Supervised) : Act → Supervised → Prop
  | plain {ev trk} (hev : Tracker.Plain ev) (ht : s.trk.step ev = some trk) :
      Step s (.wait ev) { s with trk }
  | call {req trk} (ht : s.trk.step (.killReq (some req)) = some trk) (hnew : req.tx ∉ s.txs) :
      Step s (.wait (.killReq (some req)))
        { s with trk, called := s.child, txs := req.tx :: s.txs }
  | returned {req res now trk child} (ht : s.trk.step (.killRes req res now) = some trk)
      (hk : s.called.kill s.child res = some child) :
      Step s (.wait (.killRes req res now)) { s with trk, child }
  | exit {status now trk child} (ht : s.trk.step (.exit status now) = some trk)
      (hw : s.child.wait status = some child) :
      Step s (.wait (.exit status now)) { s with trk, child }
  | ends (hc : s.child = .running) : Step s .ends { s with child := .ended .byItself false }
  | sigkill (htxs : s.txs ≠ []) (hc : s.child = .running) :
      Step s .sigkill { s with child := .ended .bySignal false }

theorem Step.of_wait {s s' : Supervised} {ev : Tracker.Ev} (h : s.step (.wait ev) = some s') :
    Step s (.wait ev) s' := by
  simp only [step, stepWait] at h
  split at h
  · cases h
  · next trk ht =>
    cases ev with
    | output | sent | setRes =>
      cases h
      exact .plain trivial ht
    | killReq req =>
      cases req with
      | none =>
        cases h
        exact .plain trivial ht
      | some req =>
        dsimp only at h
        split at h
        · cases h
        · next hnew =>
          cases h
          exact .call ht hnew
    | killRes req res now =>
      obtain ⟨child, hk, rfl⟩ := Option.map_eq_some_iff.1 h
      exact .returned ht hk
    | exit status now =>
      obtain ⟨child, hw, rfl⟩ := Option.map_eq_some_iff.1 h
      exact .exit ht hw

theorem Step.of_step {s s' : Supervised} {a : Act} (h : s.step a = some s') : Step s a s' := by
  cases a with
  | wait ev => exact .of_wait h
  | ends =>
    simp only [step] at h
    split at h
    · next hc =>
      cases h
      exact .ends hc
    · cases h
  | sigkill =>
    simp only [step] at h
    split at h
    · next tx txs htxs hc =>
      cases h
      exact .sigkill (by simp [htxs]) hc
    · cases h

/-! ## Calls of `child.kill()` -/

/-- The events of `wait` in a run. -/
def evs (as : List Act) : List Tracker.Ev :=
  as.filterMap fun a => match a with
    | .wait ev => some ev
    | _ => none

@[simp] theorem evs_append (as bs : List Act) : evs (as ++ bs) = evs as ++ evs bs :=
  List.filterMap_append

theorem killing_iff {pc : WaitPc} {req : KillRequest} :
    pc = .killing req ↔ Tracker.inHand pc = [req] := by
  cases pc <;> simp [Tracker.inHand]

@[simp] theorem evs_wait (ev : Tracker.Ev) : evs [.wait ev] = [ev] := rfl

/-- A run of `wait` next to its process is one of `wait`. -/
theorem run_trk {job : Job} {as : List Act} {s : Supervised}
    (hr : run step (start job) as = some s) :
    run Tracker.step (Tracker.start job) (evs as) = some s.trk := by
  refine run_induct (motive := fun as s =>
    run Tracker.step (Tracker.start job) (evs as) = some s.trk) rfl ?_ hr
  intro as s a s' _ ih hs
  rw [evs_append]
  cases Step.of_step hs with
  | plain _ ht => exact run_snoc_iff.2 ⟨s.trk, ih, ht⟩
  | call ht _ => exact run_snoc_iff.2 ⟨s.trk, ih, ht⟩
  | returned ht _ => exact run_snoc_iff.2 ⟨s.trk, ih, ht⟩
  | exit ht _ => exact run_snoc_iff.2 ⟨s.trk, ih, ht⟩
  | ends => exact (congrArg _ (List.append_nil (evs as))).trans ih
  | sigkill => exact (congrArg _ (List.append_nil (evs as))).trans ih

theorem kill_run {job : Job} {as : List Act} {s : Supervised} (hend : job.endedAt = none)
    (hk : job.killed = none) (hr : run step (start job) as = some s) :
    Tracker.KillInv (evs as) s.trk :=
  .run hend hk (run_trk hr)

/-- The label calls `child.kill()` for this request. -/
def Act.Calls (req : KillRequest) (a : Act) : Prop := a = .wait (.killReq (some req))

/-- `child.kill()` is called for the request after the process has ended by itself. -/
def LateCall (req : KillRequest) (s : Supervised) (a : Act) : Prop :=
  a.Calls req ∧ s.child.endedByItself = true

/-- `child.kill()` is called while the process is running. -/
def LiveCall (s : Supervised) (a : Act) : Prop := (∃ req, a.Calls req) ∧ s.child = .running

/-- `child.kill()` is called when the process has ended by itself and nothing has waited for it. -/
def Unreaped (s : Supervised) (a : Act) : Prop :=
  (∃ req, a.Calls req) ∧ s.child = .ended .byItself false

/-- No request that came after the process had ended by itself sets `killed` or is answered with the
job, and a job whose record has `killed` set was running at a call of `child.kill()`. -/
structure Attributed (job : Job) (as : List Act) (s : Supervised) : Prop where
  unset : ∀ req, Met step (LateCall req) (start job) as → req ∉ Tracker.succeeded (evs as)
  unanswered : ∀ req, Met step (LateCall req) (start job) as →
    ∀ job', (req, .ok job') ∉ s.trk.answers
  running : s.trk.job.killed ≠ none → Met step LiveCall (start job) as

section Calls

variable {job : Job} {as : List Act} {s s' : Supervised} {a : Act}

theorem mem_taken_of_late {req : KillRequest} (h : Met step (LateCall req) (start job) as) :
    req ∈ Tracker.taken (evs as) := by
  obtain ⟨bs, a, cs, t, rfl, -, rfl, -⟩ := h
  simp [evs, Tracker.taken]

/-- A label that is no call leaves the calls met as they are. -/
theorem met_quiet (hr : run step (start job) as = some s) (hq : ∀ req, ¬a.Calls req) :
    (∀ req, Met step (LateCall req) (start job) (as ++ [a]) ↔
      Met step (LateCall req) (start job) as) ∧
    (Met step LiveCall (start job) (as ++ [a]) ↔ Met step LiveCall (start job) as) ∧
    (Met step Unreaped (start job) (as ++ [a]) ↔ Met step Unreaped (start job) as) := by
  simp only [met_snoc hr]
  refine ⟨fun req => or_iff_left ?_, or_iff_left ?_, or_iff_left ?_⟩
  · exact fun hl => hq req hl.1
  · exact fun ⟨⟨req, hc⟩, _⟩ => hq req hc
  · exact fun ⟨⟨req, hc⟩, _⟩ => hq req hc

end Calls

/-! ## The invariant -/

/-- `wait` is in `child.kill()`. -/
def Calling (s : Supervised) : Prop := ∃ req, s.trk.pc = .killing req

theorem not_calling {s : Supervised} (h : Tracker.inHand s.trk.pc = []) : ¬s.Calling := by
  rintro ⟨req, hpc⟩
  rw [killing_iff, h] at hpc
  cases hpc

structure Inv (job : Job) (as : List Act) (s : Supervised) : Prop where
  txs : ∀ req ∈ Tracker.taken (evs as), req.tx ∈ s.txs
  running : s.child = .running → s.called = .running
  called : s.Calling → s.called = .running ∨ s.child = s.called
  late : ∀ req, s.trk.pc = .killing req →
    (Met step (LateCall req) (start job) as ↔ s.called.endedByItself = true)
  live : s.txs ≠ [] → s.called = .running → Met step LiveCall (start job) as
  signal : ∀ w, s.child = .ended .bySignal w → Met step LiveCall (start job) as
  unreaped : Met step Unreaped (start job) as ↔
    (∃ req ∈ Tracker.succeeded (evs as), Met step (LateCall req) (start job) as) ∨
      (s.Calling ∧ s.called = .ended .byItself false)
  success : Tracker.succeeded (evs as) ≠ [] →
    Met step LiveCall (start job) as ∨ Met step Unreaped (start job) as

namespace Inv

variable {job : Job} {as : List Act} {s s' : Supervised} {a : Act}

theorem init : Inv job [] (start job) where
  txs := nofun
  running := fun _ => rfl
  called := by
    rintro ⟨req, hpc⟩
    cases hpc
  late := by
    intro req hpc
    cases hpc
  live := fun htxs => absurd rfl htxs
  signal := by
    intro w hc
    cases hc
  unreaped := by
    refine iff_of_false not_met_nil ?_
    rintro (⟨req, hmem, -⟩ | ⟨⟨req, hpc⟩, -⟩)
    · cases hmem
    · cases hpc
  success := fun h => absurd rfl h

/-- A label that calls nothing and completes no call, neither before nor after. -/
theorem quiet (h : Inv job as s) (hr : run step (start job) as = some s)
    (hq : ∀ req, ¬a.Calls req) (htaken : Tracker.taken (evs [a]) = [])
    (hatt : Tracker.attempts (evs [a]) = []) (htxs : s'.txs = s.txs)
    (hcalled : s'.called = s.called)
    (hin : Tracker.inHand s'.trk.pc = Tracker.inHand s.trk.pc)
    (hrunning : s'.child = .running → s.child = .running)
    (hchild : s'.Calling → s'.called = .running ∨ s'.child = s'.called)
    (hsignal : ∀ w, s'.child = .ended .bySignal w → Met step LiveCall (start job) as) :
    Inv job (as ++ [a]) s' := by
  have hpc : ∀ req, s'.trk.pc = .killing req ↔ s.trk.pc = .killing req := by
    intro req
    rw [killing_iff, hin, ← killing_iff]
  have hcalling : s'.Calling ↔ s.Calling := exists_congr hpc
  have hsucc : Tracker.succeeded (evs (as ++ [a])) = Tracker.succeeded (evs as) := by
    simp [Tracker.succeeded, hatt]
  obtain ⟨hlate, hlive, hunr⟩ := met_quiet hr hq
  constructor
  case txs =>
    rw [evs_append, Tracker.taken_append, htaken, List.append_nil, htxs]
    exact h.txs
  case running =>
    rw [hcalled]
    exact fun hc => h.running (hrunning hc)
  case called => exact hchild
  case late =>
    intro req hk
    rw [hlate, hcalled]
    exact h.late req ((hpc req).1 hk)
  case live =>
    rw [htxs, hcalled, hlive]
    exact h.live
  case signal =>
    rw [hlive]
    exact hsignal
  case unreaped =>
    rw [hunr, hsucc, hcalling, hcalled]
    simp only [hlate]
    exact h.unreaped
  case success =>
    rw [hsucc, hlive, hunr]
    exact h.success

/-- A new request calls `child.kill()` on the child as it is. -/
theorem call (h : Inv job as s) (hr : run step (start job) as = some s)
    (hkill : Tracker.KillInv (evs as) s.trk) {req : KillRequest} {trk : Tracker}
    (ht : s.trk.step (.killReq (some req)) = some trk) (hnew : req.tx ∉ s.txs) :
    Inv job (as ++ [.wait (.killReq (some req))])
      { s with trk, called := s.child, txs := req.tx :: s.txs } := by
  obtain ⟨hsel, -, htrk⟩ := Tracker.step_killReq ht
  have hpc : trk.pc = .killing req := by rw [htrk]; rfl
  have hidle : ¬s.Calling := not_calling (by rw [hsel]; rfl)
  have hfresh : req ∉ Tracker.taken (evs as) := fun hm => hnew (h.txs req hm)
  have hcalls : ∀ req', (Act.wait (.killReq (some req))).Calls req' ↔ req' = req := by
    intro req'
    simp [Act.Calls, eq_comm]
  have hsucc : Tracker.succeeded (evs (as ++ [.wait (.killReq (some req))])) =
      Tracker.succeeded (evs as) := by
    rw [evs_append, Tracker.succeeded_append]
    exact List.append_nil _
  constructor
  case txs =>
    intro req' hm
    rw [evs_append, Tracker.taken_append] at hm
    rcases List.mem_append.1 hm with hm | hm
    · exact List.mem_cons_of_mem _ (h.txs req' hm)
    · obtain rfl : req' = req := by simpa [Tracker.taken] using hm
      exact List.mem_cons_self
  case running => exact id
  case called => exact fun _ => .inr rfl
  case late =>
    intro req' hk
    obtain rfl : req = req' := by simpa [hpc] using hk
    have hnone : ¬Met step (LateCall req) (start job) as := fun hm => hfresh (mem_taken_of_late hm)
    rw [met_snoc hr]
    simp [hnone, LateCall, hcalls]
  case live =>
    intro _ hc
    exact (met_snoc hr).2 (.inr ⟨⟨req, rfl⟩, hc⟩)
  case signal =>
    intro w hc
    exact (h.signal w hc).append _
  case unreaped =>
    have hlate : ∀ req' ∈ Tracker.succeeded (evs as),
        (Met step (LateCall req') (start job) (as ++ [.wait (.killReq (some req))]) ↔
          Met step (LateCall req') (start job) as) := by
      intro req' hm
      rw [met_snoc hr]
      refine or_iff_left fun hl => hfresh ?_
      rw [← (hcalls req').1 hl.1]
      exact hkill.mem_taken hm
    rw [met_snoc hr, hsucc, h.unreaped]
    simp only [hidle, false_and, or_false]
    apply or_congr
    · exact exists_congr fun req' => and_congr_right fun hm => (hlate req' hm).symm
    · constructor
      · rintro ⟨-, hc⟩
        exact ⟨⟨req, hpc⟩, hc⟩
      · rintro ⟨-, hc⟩
        exact ⟨⟨req, rfl⟩, hc⟩
  case success =>
    rw [hsucc]
    intro hne
    exact (h.success hne).imp (·.append _) (·.append _)

/-- `child.kill()` returns, and after an `Ok` its request is one that succeeded. -/
theorem returned (h : Inv job as s) (hr : run step (start job) as = some s)
    (hkill : Tracker.KillInv (evs as) s.trk) {req : KillRequest} {res : Except IoError Unit}
    {now : DateTime} {trk : Tracker} {child : TokioChild}
    (ht : s.trk.step (.killRes req res now) = some trk)
    (hk : s.called.kill s.child res = some child) :
    Inv job (as ++ [.wait (.killRes req res now)]) { s with trk, child } := by
  obtain ⟨hpc, -, htrk⟩ := Tracker.step_killRes ht
  have hcalling : s.Calling := ⟨req, hpc⟩
  have htxs : s.txs ≠ [] := by
    have hmem : req ∈ Tracker.taken (evs as) := by simp [hkill.taken_eq, hpc, Tracker.inHand]
    exact List.ne_nil_of_mem (h.txs req hmem)
  have hidle : ¬Calling { s with trk, child } := by
    apply not_calling
    rw [htrk]
    cases res <;> exact Tracker.inHand_loopTop _
  have hq : ∀ req', ¬(Act.wait (.killRes req res now)).Calls req' := by
    intro req' hc
    cases hc
  obtain ⟨hlate, hlive, hunr⟩ := met_quiet hr hq
  have hbefore := h.unreaped
  simp only [hcalling, true_and] at hbefore
  constructor
  case txs =>
    rw [evs_append, Tracker.taken_append]
    simpa [Tracker.taken] using h.txs
  case running => exact fun hc => h.running ((TokioChild.kill_reaps hk).running hc)
  case called => exact fun hc => absurd hc hidle
  case late => exact fun req' hc => absurd ⟨req', hc⟩ hidle
  case live =>
    rw [hlive]
    exact h.live
  case signal =>
    rw [hlive]
    intro w hc
    obtain ⟨w', hw⟩ := (TokioChild.kill_reaps hk).ended hc
    exact h.signal w' hw
  case unreaped =>
    rw [hunr, hbefore, evs_append, Tracker.succeeded_append]
    simp only [hlate, hidle, false_and, or_false]
    cases res with
    | error err =>
      have hnot : s.called ≠ .ended .byItself false := by
        intro hc
        rw [hc] at hk
        cases hk
      have hnone : Tracker.succeeded (evs [.wait (.killRes req (.error err) now)]) = [] := rfl
      rw [or_iff_left hnot, hnone, List.append_nil]
    | ok u =>
      have hend : s.called.endedByItself = true ↔ s.called = .ended .byItself false := by
        rcases TokioChild.kill_ok hk with hc | ⟨how, hc⟩
        · simp [hc, TokioChild.endedByItself]
        · cases how <;> simp [hc, TokioChild.endedByItself]
      have hone : Tracker.succeeded (evs [.wait (.killRes req (.ok u) now)]) = [req] := rfl
      rw [hone]
      simp only [List.mem_append, List.mem_singleton, or_and_right, exists_or, exists_eq_left]
      rw [h.late req hpc, hend]
  case success =>
    rw [hlive, hunr, evs_append, Tracker.succeeded_append]
    cases res with
    | error err =>
      have hnone : Tracker.succeeded (evs [.wait (.killRes req (.error err) now)]) = [] := rfl
      rw [hnone, List.append_nil]
      exact h.success
    | ok u =>
      intro _
      rcases TokioChild.kill_ok hk with hc | ⟨how, hc⟩
      · exact .inl (h.live htxs hc)
      · cases how with
        | byItself => exact .inr (hbefore.2 (.inr hc))
        | bySignal =>
          have hsame : s.child = s.called := (h.called hcalling).resolve_left (by simp [hc])
          exact .inl (h.signal false (hsame.trans hc))

/-- Every step keeps the invariant. -/
theorem step (h : Inv job as s) (hr : run Supervised.step (start job) as = some s)
    (hkill : Tracker.KillInv (evs as) s.trk) (hs : s.step a = some s') :
    Inv job (as ++ [a]) s' := by
  cases Step.of_step hs with
  | @plain ev trk hev ht =>
    have hf : Tracker.Framed ev s.trk trk := hev.framed ht
    have hq : ∀ req, ¬(Act.wait ev).Calls req := by
      rintro req hc
      cases hc
      exact hev
    have hidle : ¬Calling { s with trk } := not_calling hf.after
    exact h.quiet hr hq hf.taken hf.attempts rfl rfl (hf.after.trans hf.before.symm) id
      (fun hc => absurd hc hidle) h.signal
  | call ht hnew => exact h.call hr hkill ht hnew
  | returned ht hk => exact h.returned hr hkill ht hk
  | @exit status now trk child ht hw =>
    obtain ⟨hpc, -, htrk⟩ := Tracker.step_exit ht
    have hin : Tracker.inHand s.trk.pc = [] := by rw [hpc]; rfl
    have hin' : Tracker.inHand trk.pc = [] := by
      rw [htrk]
      cases status with
      | ok st => exact Tracker.inHand_loopTop _
      | error err => rfl
    have hq : ∀ req, ¬(Act.wait (.exit status now)).Calls req := by
      intro req hc
      cases hc
    have hidle : ¬Calling { s with trk, child } := not_calling hin'
    refine h.quiet hr hq rfl rfl rfl rfl (hin'.trans hin.symm) (TokioChild.wait_reaps hw).running
      (fun hc => absurd hc hidle) ?_
    intro w hc
    obtain ⟨w', hw'⟩ := (TokioChild.wait_reaps hw).ended hc
    exact h.signal w' hw'
  | ends hc =>
    have hq : ∀ req, ¬Act.ends.Calls req := by
      intro req hc
      cases hc
    exact h.quiet hr hq rfl rfl rfl rfl rfl nofun (fun _ => .inl (h.running hc)) nofun
  | sigkill htxs hc =>
    -- a process that is running now was running at the call
    have hlive : Met Supervised.step LiveCall (start job) as := h.live htxs (h.running hc)
    have hq : ∀ req, ¬Act.sigkill.Calls req := by
      intro req hc
      cases hc
    exact h.quiet hr hq rfl rfl rfl rfl rfl nofun (fun _ => .inl (h.running hc)) fun _ _ => hlive

theorem run (hend : job.endedAt = none) (hk : job.killed = none)
    (hr : Lts.run Supervised.step (start job) as = some s) : Inv job as s :=
  run_induct .init (fun _ _ _ _ hr h hs => h.step hr (kill_run hend hk hr) hs) hr

end Inv

/-! ## The killers of a job -/

section Killers

variable {jobId : JobId} {user : User} {pid : Pid} {now : DateTime} {job : Job} {as : List Act}
  {s s' : Supervised}

/-- A process that does not end by itself is never found unreaped. -/
theorem not_unreaped (hr : Lts.run step (start job) as = some s) (has : Act.ends ∉ as) :
    ¬Met step Unreaped (start job) as := by
  have hboth : Act.ends ∉ as → (∀ w, s.child ≠ .ended .byItself w) ∧
      ¬Met step Unreaped (start job) as := by
    apply run_induct (motive := fun as s => Act.ends ∉ as →
      (∀ w, s.child ≠ .ended .byItself w) ∧ ¬Met step Unreaped (start job) as) _ _ hr
    · exact fun _ => ⟨nofun, not_met_nil⟩
    · intro as s a s' hr ih hs has
      have hends : Act.ends ∉ as := fun hm => has (List.mem_append_left _ hm)
      obtain ⟨hchild, hmet⟩ := ih hends
      refine ⟨fun w hc => ?_, fun hm => ((met_snoc hr).1 hm).elim hmet fun hu => hchild _ hu.2⟩
      cases Step.of_step hs with
      | plain | call => exact hchild w hc
      | returned ht hk =>
        obtain ⟨w', hw⟩ := (TokioChild.kill_reaps hk).ended hc
        exact hchild w' hw
      | exit ht hwait =>
        obtain ⟨w', hw⟩ := (TokioChild.wait_reaps hwait).ended hc
        exact hchild w' hw
      | ends => simp at has
      | sigkill => cases hc
  exact (hboth has).2

/-- The calls of unreaped processes are the only ones that go wrong. -/
theorem attributed (h : Inv job as s) (hkill : Tracker.KillInv (evs as) s.trk)
    (hmet : ¬Met step Unreaped (start job) as) : Attributed job as s := by
  have hunset : ∀ req, Met step (LateCall req) (start job) as →
      req ∉ Tracker.succeeded (evs as) :=
    fun req hlate hm => hmet (h.unreaped.2 (.inl ⟨req, hm, hlate⟩))
  constructor
  case unset => exact hunset
  case unanswered =>
    intro req hlate job' hans
    obtain ⟨-, hm, -⟩ := hkill.answer_ok hans
    exact hunset req hlate hm
  case running =>
    intro hk
    have hne : Tracker.succeeded (evs as) ≠ [] := by
      intro hnil
      have hkilled := hkill.killed_eq
      rw [hnil] at hkilled
      exact hk (Option.map_eq_none_iff.1 hkilled)
    exact (h.success hne).resolve_right hmet

/-- **Who killed the job.** In every run of `wait` next to a process that may end at any moment,
`killed` names the user of the last request whose `child.kill()` succeeded. If `child.kill()` is
called on no process that has ended by itself and is still unreaped, then no request that came after
the process had ended by itself sets `killed` or is answered with the job. At any moment at which
`child.kill()` is not being awaited, that is so in these runs only. -/
theorem attributed_iff
    (hr : Lts.run step (start (Job.started jobId user pid now)) as = some s) :
    s.trk.job.killed.map JobKilled.user =
      (Tracker.succeeded (evs as)).getLast?.map KillRequest.user ∧
    (¬Met step Unreaped (start (Job.started jobId user pid now)) as →
      Attributed (Job.started jobId user pid now) as s) ∧
    (¬s.Calling → (Attributed (Job.started jobId user pid now) as s ↔
      ¬Met step Unreaped (start (Job.started jobId user pid now)) as)) := by
  have h : Inv (Job.started jobId user pid now) as s := .run rfl rfl hr
  have hkill : Tracker.KillInv (evs as) s.trk := kill_run rfl rfl hr
  have henough := attributed h hkill
  refine ⟨hkill.killed_eq, henough, fun hidle => ⟨fun hatt hmet => ?_, henough⟩⟩
  rcases h.unreaped.1 hmet with ⟨req, hm, hlate⟩ | ⟨hcalling, -⟩
  · exact hatt.unset req hlate hm
  · exact hidle hcalling

/-- A kill of a running process. -/
def killedRun : List Act :=
  [.wait (.killReq (some ⟨⟨"alice"⟩, 0⟩)), .sigkill,
    .wait (.killRes ⟨⟨"alice"⟩, 0⟩ (.ok ()) ⟨2⟩), .wait (.exit (.ok (.signaled 9)) ⟨3⟩)]

theorem attributed_iff_killedRun :
    ∃ s, Lts.run step (start (Job.started ⟨"job"⟩ ⟨"alice"⟩ ⟨7⟩ ⟨1⟩)) killedRun = some s ∧
      s.trk.job.killed = some ⟨⟨2⟩, ⟨"alice"⟩⟩ ∧
      Attributed (Job.started ⟨"job"⟩ ⟨"alice"⟩ ⟨7⟩ ⟨1⟩) killedRun s :=
  ⟨_, rfl, rfl, (attributed_iff rfl).2.1 (not_unreaped rfl (by simp [killedRun]))⟩

/-- The process ends by itself with code 0, and `select!` takes a kill request before the exit. -/
def unreapedRun : List Act :=
  [.ends, .wait (.killReq (some ⟨⟨"bob"⟩, 0⟩)), .wait (.killRes ⟨⟨"bob"⟩, 0⟩ (.ok ()) ⟨2⟩),
    .wait (.exit (.ok (.exited 0)) ⟨3⟩)]

theorem not_attributed_unreapedRun :
    ∃ s, Lts.run step (start (Job.started ⟨"job"⟩ ⟨"bob"⟩ ⟨7⟩ ⟨1⟩)) unreapedRun = some s ∧
      s.trk.job.killed = some ⟨⟨2⟩, ⟨"bob"⟩⟩ ∧ s.trk.answers = [(⟨⟨"bob"⟩, 0⟩, .ok s.trk.job)] ∧
      ¬Attributed (Job.started ⟨"job"⟩ ⟨"bob"⟩ ⟨7⟩ ⟨1⟩) unreapedRun s := by
  refine ⟨_, rfl, rfl, rfl, fun h => h.unset ⟨⟨"bob"⟩, 0⟩ ?_ List.mem_cons_self⟩
  exact ⟨[.ends], _, _, _, rfl, rfl, rfl, rfl⟩

end Killers

end Supervised

end JobRunner
