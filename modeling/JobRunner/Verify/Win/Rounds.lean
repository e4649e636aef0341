import JobRunner.Verify.TrackerRecord
import JobRunner.Verify.Win.Wait
import JobRunner.Win.Rounds

/-!
# The threads that the rounds of `wait` leave behind

A poll of a `WaitChild` that returns `Pending` leaves a thread, and the thread stays until the
process exits. There is one such poll for each round of the loop and each wake-up of the task at
most, and each round may have one: a job that runs and prints goes on to have more and more threads
(`WaitLoop.threads_by_round`). What `wait` records of the end is the exit code of the process
(`WaitLoop.records_exitCode`).
-/

namespace JobRunner

open Lts

namespace Win

/-! ## A future -/

/-- The task is on its way to another poll that returns `Pending`, if the process runs on. -/
def WaitTask.asks : WaitTask → Bool
  | .exited => false
  | .done _ => false
  | _ => true

namespace WaitChild

variable {s s' : WaitChild} {a : Act}

/-- A call of `WaitForSingleObject` fails. -/
def Act.fails : Act → Bool
  | .waitNow ev => ev = .failed
  | .waited _ ev => ev = .failed
  | _ => false

/-- The task is woken. -/
def Act.wakes : Act → Bool
  | .foreign => true
  | .wake _ => true
  | _ => false

def Act.leaves : Act → Bool
  | .elsewhere _ => true
  | _ => false

/-- As long as the process runs its threads wait. -/
def AllWait (s : WaitChild) : Prop := s.exited = none → ∀ t ∈ s.threads, t = .waiting

theorem AllWait.step (h : s.AllWait) (hf : a.fails = false) (hs : Step s a s') : s'.AllWait := by
  cases hs with
  | exit => exact nofun
  | new | again | object0 | running | exitCode | elsewhere | polledElsewhere | foreign => exact h
  | spawn ht =>
    intro he t hmem
    rcases List.mem_append.1 hmem with hold | hnew
    · exact h he t hold
    · exact List.mem_singleton.1 hnew
  | @waited i ev hth hev he =>
    intro hnone
    have hexit : s.exited.isSome = true := by
      cases ev with
      | object0 => exact he rfl
      | timeout => exact absurd rfl hev
      | failed => cases hf
    have hnone : s.exited = none := hnone
    rw [hnone] at hexit
    cases hexit
  | @wake i hth =>
    intro hnone
    cases h hnone _ (List.mem_of_getElem? hth)

/-- A process that has exited stays so. -/
theorem exited_step (hs : Step s a s') : s'.exited = s.exited ∨ s.exited = none := by
  cases hs with
  | exit he => exact .inr he
  | _ => exact .inl rfl

/-- A process that runs keeps the task asking. -/
theorem asks_step (h : s.exited = none → s.task.asks = true) (hs : Step s a s')
    (he : s'.exited = none) : s'.task.asks = true := by
  cases hs with
  | exit => cases he
  | object0 ht hexit =>
    have hnone : s.exited = none := he
    rw [hnone] at hexit
    cases hexit
  | exitCode ht hexit =>
    have hnone : s.exited = none := he
    rw [hnone] at hexit
    cases hexit
  | foreign | waited | wake => exact h he
  | _ => rfl

end WaitChild

/-! ## The loop -/

namespace WaitLoop

variable {s s' : WaitLoop} {job : Job} {acts : List Act}

theorem step_wait {a : WaitChild.Act} (h : s.step (.wait a) = some s') :
    a.leaves = false ∧ ∃ wait, WaitChild.Step s.wait a wait ∧ s' = { s with wait } := by
  cases a with
  | elsewhere polled => cases h
  | poll =>
    simp only [step, Option.ite_none_right_eq_some] at h
    obtain ⟨wait, hw, rfl⟩ := Option.map_eq_some_iff.1 h.2
    exact ⟨rfl, wait, .of_step hw, rfl⟩
  | foreign =>
    obtain rfl := Option.some.inj h
    exact ⟨rfl, _, .foreign, rfl⟩
  | _ =>
    obtain ⟨wait, hw, rfl⟩ := Option.map_eq_some_iff.1 h
    exact ⟨rfl, wait, .of_step hw, rfl⟩

theorem step_trk {ev : Tracker.Ev} {polled : Bool} (h : s.step (.trk ev polled) = some s') :
    ∃ trk wait, s.trk.step ev = some trk ∧ s.taken polled ev = some wait ∧ s' = ⟨trk, wait⟩ := by
  simp only [step, Option.bind_eq_bind, Option.bind_eq_some_iff, Option.some.injEq] at h
  obtain ⟨trk, ht, wait, hw, rfl⟩ := h
  exact ⟨trk, wait, ht, hw, rfl⟩

/-- A branch but that of the exit. -/
def Act.takes : Act → Bool
  | .trk (.output _ _) _ => true
  | .trk (.killReq _) _ => true
  | _ => false

/-- The future is left alone, or dropped by another branch. -/
theorem taken_cases {ev : Tracker.Ev} {polled : Bool} {wait : WaitChild}
    (h : s.taken polled ev = some wait) :
    wait = s.wait ∨
      ((Act.trk ev polled).takes = true ∧ WaitChild.Step s.wait (.elsewhere polled) wait) := by
  have leaves : s.leave polled = some wait →
      wait = s.wait ∨ WaitChild.Step s.wait (.elsewhere polled) wait := by
    intro hl
    unfold leave at hl
    split at hl
    · split at hl
      · exact .inl (Option.some.inj hl).symm
      · exact .inr (.of_step hl)
    · exact .inl (Option.some.inj hl).symm
  cases ev with
  | output k ev => exact (leaves h).imp id fun hs => ⟨rfl, hs⟩
  | killReq req => exact (leaves h).imp id fun hs => ⟨rfl, hs⟩
  | exit status now =>
    simp only [taken, Option.ite_none_right_eq_some, Option.some.injEq] at h
    exact .inl h.2.symm
  | _ => exact .inl (Option.some.inj h).symm

/-- Where the exit branch has taken what the future has returned, the process has exited. -/
theorem done_of_taken {status : Except IoError ProcStatus} {now : DateTime} {polled : Bool}
    {wait : WaitChild} (h : s.taken polled (.exit status now) = some wait) :
    s.wait.task.asks = false ∧
      ∀ proc, status = .ok proc → s.wait.task = .done (.ok (.ofProc proc)) := by
  simp only [taken, Option.ite_none_right_eq_some] at h
  unfold WaitTask.returns at h
  split at h
  · next status' proc ht =>
    refine ⟨by rw [ht]; rfl, fun proc' he => ?_⟩
    obtain rfl := Except.ok.inj he
    rw [ht, of_decide_eq_true h.1]
  · next err err' ht => exact ⟨by rw [ht]; rfl, fun proc he => by cases he⟩
  · cases h.1

/-- While the process runs, `wait` asks for its exit. -/
def Running (s : WaitLoop) : Prop :=
  s.wait.exited = none → s.trk.childOk = true ∧ s.wait.task.asks = true

theorem Running.step (h : s.Running) {a : Act} (hs : s.step a = some s') : s'.Running := by
  cases a with
  | wait a =>
    obtain ⟨-, wait, hw, rfl⟩ := step_wait hs
    intro he
    have hnone : s.wait.exited = none := by
      cases hw with
      | exit => cases he
      | _ => exact he
    exact ⟨(h hnone).1, WaitChild.asks_step (fun he => (h he).2) hw he⟩
  | trk ev polled =>
    obtain ⟨trk, wait, ht, hw, rfl⟩ := step_trk hs
    intro he
    have hnone : s.wait.exited = none := by
      rcases taken_cases hw with rfl | ⟨-, hleave⟩
      · exact he
      · cases hleave with
        | _ => exact he
    obtain ⟨hchild, hasks⟩ := h hnone
    rcases (Tracker.step_branches ht).1 with ⟨hsame, -⟩ | ⟨status, now, rfl⟩
    · refine ⟨hsame.trans hchild, ?_⟩
      rcases taken_cases hw with rfl | ⟨-, hleave⟩
      · exact hasks
      · exact WaitChild.asks_step (fun _ => hasks) hleave he
    · -- the future would have returned
      rw [(done_of_taken hw).1] at hasks
      cases hasks

theorem Running.reachable (hr : Reachable WaitLoop.step (start job) s) : s.Running :=
  hr.invariant (fun _ => ⟨rfl, rfl⟩) fun _ _ _ h hs => h.step hs

/-! ## The threads of a run -/

def Act.wakes : Act → Bool
  | .wait a => a.wakes
  | .trk _ _ => false

def Act.fails : Act → Bool
  | .wait a => a.fails
  | .trk _ _ => false

/-- The step of the future in a step of the loop. -/
theorem future_step {a : Act} (hs : s.step a = some s') :
    s'.wait = s.wait ∨ ∃ b, WaitChild.Step s.wait b s'.wait ∧ b.wakes = a.wakes ∧
      b.leaves = a.takes ∧ b.fails = a.fails := by
  cases a with
  | wait b =>
    obtain ⟨hleaves, wait, hw, rfl⟩ := step_wait hs
    exact .inr ⟨b, hw, rfl, hleaves, rfl⟩
  | trk ev polled =>
    obtain ⟨trk, wait, -, hw, rfl⟩ := step_trk hs
    rcases taken_cases hw with rfl | ⟨htakes, hleave⟩
    · exact .inl rfl
    · exact .inr ⟨.elsewhere polled, hleave, rfl, htakes.symm, rfl⟩

/-- A step of rounds that end with `frame` each, without a failed call or a wake-up. -/
def Act.OfFrame (frame : Frame) : Act → Prop
  | .wait a => a.fails = false ∧ a.wakes = false
  | .trk ev _ => ev = .output frame.kind (some (.ok frame)) ∨ ev = .sent true

/-- `wait` begins a round, with the process running and the stream of kind `k` open. -/
structure Begins (k : StreamKind) (s : WaitLoop) : Prop where
  pc : s.trk.pc = .select
  childOk : s.trk.childOk = true
  streamOk : s.trk.streamOk k = true
  exited : s.wait.exited = none
  task : s.wait.task = .away

/-- From a `select!` whose future is pending, a frame leads to the next round. -/
theorem frame_round {w : WaitChild} {frame : Frame} (hpc : s.trk.pc = .select)
    (hchild : s.trk.childOk = true) (hok : s.trk.streamOk frame.kind = true)
    (hexited : w.exited = none) (ht : w.task = .pending) :
    ∃ s', run step { s with wait := w } [.trk (.output frame.kind (some (.ok frame))) false,
        .trk (.sent true) false] = some s' ∧
      s'.Begins frame.kind ∧ s'.wait.threads = w.threads := by
  refine ⟨{ trk := Tracker.loopTop { s.trk with pc := .sendFrame frame }
            wait := { w with task := .away } }, ?_, ⟨?_, hchild, hok, hexited, rfl⟩, rfl⟩
  · simp [run, step, taken, leave, WaitChild.step, Tracker.step, Tracker.onOutput, hpc, hok,
      hchild, ht]
  · simp [Tracker.loopTop, hchild]

/-- A round that has begun comes to its next one with a frame, and may leave its thread. -/
theorem Running.begins {frame : Frame} (h : s.Running) (he : s.wait.exited = none)
    (hpc : s.trk.pc = .select) (hok : s.trk.streamOk frame.kind = true) :
    ∃ more s', run WaitLoop.step s more = some s' ∧ s'.Begins frame.kind ∧
      (∀ a ∈ more, a.OfFrame frame) ∧ more.countP Act.takes ≤ 1 ∧
      s.wait.threads.length ≤ s'.wait.threads.length := by
  obtain ⟨hchild, hasks⟩ := h he
  -- the future returns `Pending`, with one thread more
  have spawned := frame_round (s := s)
    (w := { s.wait with task := .pending, threads := s.wait.threads ++ [.waiting] })
    hpc hchild hok he rfl
  cases ht : s.wait.task with
  | away => exact ⟨[], s, rfl, ⟨hpc, hchild, hok, he, ht⟩, by simp, Nat.zero_le _, Nat.le_refl _⟩
  | polling =>
    obtain ⟨s', hframe, hb, hthreads⟩ := spawned
    have hpoll : run WaitLoop.step s [.wait (.waitNow .timeout), .wait .spawn] = some { s with
        wait := { s.wait with task := .pending, threads := s.wait.threads ++ [.waiting] } } := by
      simp [run, WaitLoop.step, WaitChild.step, WaitEvent.possible, ht, he]
    refine ⟨_, s', run_append_of hpoll hframe, hb, ?_, Nat.le_refl _, ?_⟩
    · simp [Act.OfFrame, WaitChild.Act.fails, WaitChild.Act.wakes]
    · rw [hthreads, List.length_append]
      omega
  | running =>
    obtain ⟨s', hframe, hb, hthreads⟩ := spawned
    have hpoll : run WaitLoop.step s [.wait .spawn] = some { s with
        wait := { s.wait with task := .pending, threads := s.wait.threads ++ [.waiting] } } := by
      simp [run, WaitLoop.step, WaitChild.step, ht]
    refine ⟨_, s', run_append_of hpoll hframe, hb, ?_, Nat.le_refl _, ?_⟩
    · simp [Act.OfFrame, WaitChild.Act.fails, WaitChild.Act.wakes]
    · rw [hthreads, List.length_append]
      omega
  | pending =>
    obtain ⟨s', hframe, hb, hthreads⟩ := frame_round (s := s) (w := s.wait) hpc hchild hok he ht
    refine ⟨_, s', hframe, hb, ?_, Nat.le_refl _, Nat.le_of_eq ?_⟩
    · simp [Act.OfFrame]
    · rw [hthreads]
  | exited =>
    rw [ht] at hasks
    cases hasks
  | done res =>
    rw [ht] at hasks
    cases hasks

/-- Two rounds, the first ended by a frame. -/
def roundsRun : List Act :=
  [.wait .poll, .wait (.waitNow .timeout), .wait .spawn,
    .trk (.output .stdout (some (.ok ⟨.stdout, [104]⟩))) false, .trk (.sent true) false,
    .wait .poll, .wait (.waitNow .timeout), .wait .spawn]

/-- An exit in the record is that of the process, with its exit code. -/
structure Records (s : WaitLoop) : Prop where
  wait : WaitChild.Inv s.wait
  state : ∀ status, s.trk.job.state = .exited status →
    ∃ code, s.wait.exited = some code ∧ status = .ofRaw code

theorem Records.step (h : s.Records) {a : Act} (hs : s.step a = some s') : s'.Records := by
  obtain ⟨hwait, hexited⟩ : WaitChild.Inv s'.wait ∧
      (s'.wait.exited = s.wait.exited ∨ s.wait.exited = none) := by
    rcases future_step hs with he | ⟨b, hb, -⟩
    · rw [he]
      exact ⟨h.wait, .inl rfl⟩
    · exact ⟨h.wait.step hb, WaitChild.exited_step hb⟩
  have old : ∀ status, s.trk.job.state = .exited status →
      ∃ code, s'.wait.exited = some code ∧ status = .ofRaw code := by
    intro status hst
    obtain ⟨code, hcode, rfl⟩ := h.state status hst
    refine ⟨code, ?_, rfl⟩
    rcases hexited with hsame | hnone
    · rw [hsame, hcode]
    · rw [hnone] at hcode
      cases hcode
  refine ⟨hwait, fun status hst => ?_⟩
  cases a with
  | wait b =>
    obtain ⟨-, wait, -, rfl⟩ := step_wait hs
    exact old status hst
  | trk ev polled =>
    obtain ⟨trk, wait, ht, hw, rfl⟩ := step_trk hs
    rcases (Tracker.step_branches ht).1 with ⟨-, hstate⟩ | ⟨res, now, rfl⟩
    · rw [hstate] at hst
      exact old status hst
    · obtain ⟨-, -, rfl⟩ := Tracker.step_exit ht
      cases res with
      | error err => exact old status hst
      | ok proc =>
        -- the status is what the future has returned
        obtain rfl : .ofProc proc = status := JobState.exited.inj hst
        obtain ⟨code, hcode, he⟩ := h.wait.done _ ((done_of_taken hw).2 proc rfl)
        refine ⟨code, ?_, he⟩
        rcases hexited with hsame | hnone
        · exact hsame.trans hcode
        · rw [hnone] at hcode
          cases hcode

/-- When the record says that the job has exited, its process has, with the exit code in the
record. -/
theorem records_exitCode {jobId : JobId} {user : User} {pid : Pid} {now : DateTime}
    (hr : run step (start (Job.started jobId user pid now)) acts = some s) {status : ExitStatus}
    (hst : s.trk.job.state = .exited status) :
    ∃ code, s.wait.exited = some code ∧ status = .ofProc (.exited code.toInt32) := by
  have h : s.Records := by
    refine Reachable.invariant (I := Records) ⟨acts, hr⟩ ⟨.start, fun status hst => ?_⟩
      fun _ _ _ h hs => h.step hs
    cases hst
  exact h.state status hst

/-- The process exits in the second round, and its future is polled once more. -/
def exitedRun : List Act :=
  roundsRun ++ [.wait (.exit 3), .wait (.waited 1 .object0), .wait (.wake 1), .wait .poll,
    .wait (.waitNow .object0), .wait (.exitCode (.ok ())), .trk (.exit (.ok (.exited 3)) ⟨2⟩) false]

theorem records_exitCode_exitedRun :
    ∃ s, run step (start (Job.started ⟨"job"⟩ ⟨"alice"⟩ ⟨7⟩ ⟨1⟩)) exitedRun = some s ∧
      s.trk.job.state = .exited (.ofProc (.exited 3)) ∧
      ∃ code, s.wait.exited = some code ∧ ExitStatus.ofProc (.exited 3) =
        .ofProc (.exited code.toInt32) := by
  have hrun : ∃ s, run step (start (Job.started ⟨"job"⟩ ⟨"alice"⟩ ⟨7⟩ ⟨1⟩)) exitedRun = some s ∧
      s.trk.job.state = .exited (.ofProc (.exited 3)) := ⟨_, rfl, rfl⟩
  obtain ⟨s, hs, hst⟩ := hrun
  exact ⟨s, hs, hst, records_exitCode hs hst⟩

end WaitLoop

end Win

end JobRunner
