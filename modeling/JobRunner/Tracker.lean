import JobRunner.Types
import JobRunner.Lib.Lts
import Mathlib.Logic.Function.Basic

/-!
# `JobTracker::wait`

The control loop of a spawned job, as a system of its own: its labels are the events its awaits
can complete with (a result from one of the output streams, the completion of a send to the
broadcaster, a kill request, the completion of `child.kill()` or of `child.wait()`), in whatever
order and with whatever contents. What surrounds the loop is added in `Pipeline`.

A lock of `self.inner` is held across no await, so an update under the lock belongs to the step
that takes it.
-/

namespace JobRunner

/-- A request to kill a process. `tx` names the oneshot channel the answer goes to. -/
structure KillRequest where
  user : User
  tx : Nat
  deriving DecidableEq, Repr

/-- Where `wait` is: in `tokio::select!`, in `frame_tx.send(frame).await` of a stream branch, in
`child.kill().await` of the kill branch, or after the loop, sending the terminal event and then
locking `inner` to store the result. The check at the top of the loop belongs to the step before
it. -/
inductive WaitPc where
  | select
  | sendFrame (frame : Frame)
  | killing (req : KillRequest)
  | sendLast
  | setRes
  | returned
  deriving DecidableEq, Repr

/-- The locals of `wait` (`streamOk` is `stdout_ok` and `stderr_ok`), the `job` and `res` of the
shared `JobTrackerInner`, what is known of the child (`waited`: `Child::wait` has returned `Ok`),
and what was sent on the oneshot channels of the kill requests. -/
structure Tracker where
  pc : WaitPc
  streamOk : StreamKind → Bool
  killOk : Bool
  childOk : Bool
  loopErr : Option TrackerError
  killReqs : List KillRequest
  job : Job
  res : Option (Except TrackerError Unit)
  waited : Bool
  answers : List (KillRequest × Except IoError Job)

namespace Tracker

/-- `wait` at its first `select!`. -/
def start (job : Job) : Tracker :=
  { pc := .select, streamOk := fun _ => true, killOk := true, childOk := true, loopErr := none
    killReqs := [], job, res := none, waited := false, answers := [] }

/-- What an await of `wait` completes with. -/
inductive Ev where
  | output (k : StreamKind) (ev : Option (Except TrackerError Frame))
  | sent (ok : Bool)
  | killReq (req : Option KillRequest)
  | killRes (req : KillRequest) (res : Except IoError Unit) (now : DateTime)
  | exit (status : Except IoError ProcStatus) (now : DateTime)
  | setRes

/-- The top of the loop: on to the next `select!`, unless everything has ended. -/
def loopTop (s : Tracker) : Tracker :=
  { s with
    pc := if !s.childOk && !s.streamOk .stdout && !s.streamOk .stderr then .sendLast else .select }

/-- The `break_err!` macro. -/
def breakErr (s : Tracker) (err : TrackerError) : Tracker :=
  { s with loopErr := some err, pc := .sendLast }

/-- The stdout and stderr branches, up to the send to the broadcaster. -/
def onOutput (s : Tracker) (k : StreamKind) : Option (Except TrackerError Frame) → Tracker
  | none => loopTop { s with streamOk := Function.update s.streamOk k false }
  | some (.ok frame) => { s with pc := .sendFrame frame }
  | some (.error err) => s.breakErr err

/-- The kill branch, up to the call of `child.kill()`. -/
def onKillReq (s : Tracker) : Option KillRequest → Tracker
  | none => loopTop { s with killOk := false }
  | some req => { s with pc := .killing req }

/-- The kill branch after `child.kill()`: a failure is answered at once, after a success the
request is retained until the process dies. -/
def onKillRes (s : Tracker) (req : KillRequest) (now : DateTime) : Except IoError Unit → Tracker
  | .error err => loopTop { s with answers := s.answers ++ [(req, .error err)] }
  | .ok () => loopTop { s with
      job := { s.job with killed := some { killedAt := now, user := req.user } }
      killReqs := s.killReqs ++ [req] }

/-- The exit branch: the record is updated and the retained kill requests are answered. -/
def onExit (s : Tracker) (now : DateTime) : Except IoError ProcStatus → Tracker
  | .ok status =>
    let job := { s.job with endedAt := some now, state := .exited (.ofProc status) }
    loopTop { s with
      childOk := false, job, waited := true, killReqs := []
      answers := s.answers ++ s.killReqs.map fun req => (req, .ok job) }
  | .error err => breakErr { s with childOk := false } (.waitChild err)

/-- The event `wait` is handing to the broadcaster, if it is in a send. -/
def outgoing (s : Tracker) : Option FrameEvent :=
  match s.pc with
  | .sendFrame frame => some (.frame frame)
  | .sendLast => some (match s.loopErr with | some err => .error err | none => .eof)
  | _ => none

/-- What `child.kill()` may return. It is assumed of `Child::kill` that it fails once `Child::wait`
has returned `Ok`. -/
def killReturns (s : Tracker) (res : Except IoError Unit) : Bool := !(s.waited && res.isOk)

/-- One step of `wait`. -/
def step (s : Tracker) : Ev → Option Tracker
  | .output k ev => if s.pc = .select ∧ s.streamOk k = true then some (s.onOutput k ev) else none
  | .sent ok =>
    match s.pc with
    | .sendFrame frame =>
      some (if ok then s.loopTop else s.breakErr (.broadcasterDisappeared frame))
    -- a failure is only logged
    | .sendLast => some { s with pc := .setRes }
    | _ => none
  | .killReq req => if s.pc = .select ∧ s.killOk = true then some (s.onKillReq req) else none
  | .killRes req res now =>
    if s.pc = .killing req ∧ s.killReturns res = true then
      some (s.onKillRes req now res)
    else none
  | .exit status now =>
    if s.pc = .select ∧ s.childOk = true then some (s.onExit now status) else none
  | .setRes =>
    if s.pc = .setRes then
      some { s with
        pc := .returned
        res := some (match s.loopErr with | some err => .error err | none => .ok ()) }
    else none

/-! ## What a step does -/

section Steps

variable {s s' : Tracker}

theorem step_output {k : StreamKind} {ev : Option (Except TrackerError Frame)}
    (h : s.step (.output k ev) = some s') :
    s.pc = .select ∧ s.streamOk k = true ∧ s' = s.onOutput k ev := by
  simp only [step, Option.ite_none_right_eq_some, Option.some.injEq] at h
  exact ⟨h.1.1, h.1.2, h.2.symm⟩

/-- A send ends in the loop, where only its success goes on, or after it. -/
theorem step_sent {ok : Bool} (h : s.step (.sent ok) = some s') :
    (∃ frame, s.pc = .sendFrame frame ∧ ok = true ∧ s' = s.loopTop) ∨
    (∃ frame, s.pc = .sendFrame frame ∧ ok = false ∧
      s' = s.breakErr (.broadcasterDisappeared frame)) ∨
    (s.pc = .sendLast ∧ s' = { s with pc := .setRes }) := by
  simp only [step] at h
  split at h
  · next frame hpc =>
    cases ok with
    | true => exact .inl ⟨frame, hpc, rfl, by simpa using h.symm⟩
    | false => exact .inr (.inl ⟨frame, hpc, rfl, by simpa using h.symm⟩)
  · next hpc => exact .inr (.inr ⟨hpc, by simpa using h.symm⟩)
  · cases h

theorem step_killReq {req : Option KillRequest} (h : s.step (.killReq req) = some s') :
    s.pc = .select ∧ s.killOk = true ∧ s' = s.onKillReq req := by
  simp only [step, Option.ite_none_right_eq_some, Option.some.injEq] at h
  exact ⟨h.1.1, h.1.2, h.2.symm⟩

/-- A `child.kill()` that succeeds finds a child that has not been waited for. -/
theorem step_killRes {req : KillRequest} {res : Except IoError Unit} {now : DateTime}
    (h : s.step (.killRes req res now) = some s') :
    s.pc = .killing req ∧ (res.isOk = true → s.waited = false) ∧ s' = s.onKillRes req now res := by
  simp only [step, Option.ite_none_right_eq_some, Option.some.injEq] at h
  refine ⟨h.1.1, fun hok => ?_, h.2.symm⟩
  simpa [killReturns, hok] using h.1.2

theorem step_exit {status : Except IoError ProcStatus} {now : DateTime}
    (h : s.step (.exit status now) = some s') :
    s.pc = .select ∧ s.childOk = true ∧ s' = s.onExit now status := by
  simp only [step, Option.ite_none_right_eq_some, Option.some.injEq] at h
  exact ⟨h.1.1, h.1.2, h.2.symm⟩

theorem step_setRes (h : s.step .setRes = some s') :
    s.pc = .setRes ∧ s' = { s with
      pc := .returned
      res := some (match s.loopErr with | some err => .error err | none => .ok ()) } := by
  simp only [step, Option.ite_none_right_eq_some, Option.some.injEq] at h
  exact ⟨h.1, h.2.symm⟩

/-- A branch of `select!` closes only itself, and only that of the exit writes the state. -/
theorem step_branches {ev : Ev} (h : s.step ev = some s') :
    ((s'.childOk = s.childOk ∧ s'.job.state = s.job.state) ∨ ∃ status now, ev = .exit status now) ∧
    (s'.killOk = s.killOk ∨ ev = .killReq none) := by
  cases ev with
  | output k ev =>
    obtain ⟨-, -, rfl⟩ := step_output h
    cases ev with
    | none => exact ⟨.inl ⟨rfl, rfl⟩, .inl rfl⟩
    | some res => cases res <;> exact ⟨.inl ⟨rfl, rfl⟩, .inl rfl⟩
  | sent ok =>
    rcases step_sent h with ⟨f, -, -, rfl⟩ | ⟨f, -, -, rfl⟩ | ⟨-, rfl⟩
    · exact ⟨.inl ⟨rfl, rfl⟩, .inl rfl⟩
    · exact ⟨.inl ⟨rfl, rfl⟩, .inl rfl⟩
    · exact ⟨.inl ⟨rfl, rfl⟩, .inl rfl⟩
  | killReq req =>
    obtain ⟨-, -, rfl⟩ := step_killReq h
    cases req with
    | none => exact ⟨.inl ⟨rfl, rfl⟩, .inr rfl⟩
    | some req => exact ⟨.inl ⟨rfl, rfl⟩, .inl rfl⟩
  | killRes req res now =>
    obtain ⟨-, -, rfl⟩ := step_killRes h
    cases res <;> exact ⟨.inl ⟨rfl, rfl⟩, .inl rfl⟩
  | exit status now =>
    obtain ⟨-, -, rfl⟩ := step_exit h
    cases status <;> exact ⟨.inr ⟨_, _, rfl⟩, .inl rfl⟩
  | setRes =>
    obtain ⟨-, rfl⟩ := step_setRes h
    exact ⟨.inl ⟨rfl, rfl⟩, .inl rfl⟩

/-- The loop goes on unless the child and both streams have ended. -/
theorem loopTop_pc (s : Tracker) :
    (s.loopTop.pc = .select) ∨
    (s.loopTop.pc = .sendLast ∧ s.childOk = false ∧ ∀ k, s.streamOk k = false) := by
  unfold loopTop
  split
  · next h =>
    simp only [Bool.and_eq_true, Bool.not_eq_true'] at h
    refine .inr ⟨rfl, h.1.1, fun k => ?_⟩
    cases k with
    | stdout => exact h.1.2
    | stderr => exact h.2
  · exact .inl rfl

end Steps

end Tracker

end JobRunner
