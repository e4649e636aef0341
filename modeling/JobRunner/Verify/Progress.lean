import JobRunner.Verify.Backpressure
import JobRunner.Verify.Isolation
import JobRunner.Verify.WindDown

/-!
# How far the tasks of a job get

The two reading tasks, `wait` and the broadcaster's receipts of frames take a bounded number of
steps for each byte the child writes and each kill request, whatever callers, subscribers and relays
do in between (`Pipeline.bounded_work`). When none of them can go on, they wait for the child, or
the job is over and its history complete (`Pipeline.idle_cases`). So a finished child is always
followed by the end of its log.
-/

namespace JobRunner

open Mpsc Lts

/-! ## Potentials -/

/-- What a reading task still costs: a frame it has read is sent, received, sent on and received
again. -/
def ReadPc.work : ReadPc → Nat
  | .read => 5
  | .send _ => 9
  | .sendErr _ => 4
  | .done => 0

namespace Output

/-- The steps of the reading task. -/
def Act.ofTask : Act → Bool
  | .write _ => false
  | .close => false
  | .read _ => true
  | .readEof => true
  | .readErr _ => true
  | .send => true

/-- A byte that is still unread makes at most one frame. -/
def work (o : Output) : Nat := 5 * o.pipe.unread.length + o.pc.work + 3 * o.ch.queue.length

theorem work_finish_le (o : Output) : o.finish.work + o.pc.work ≤ o.work := by
  have hdone : ReadPc.done.work = 0 := rfl
  simp only [work, finish, hdone, Chan.dropTx_queue]
  omega

theorem work_step {o o' : Output} {a : Act} (hs : o.step a = some o') :
    o'.work + (if a.ofTask then 1 else 0) + 5 * o.pipe.written.length ≤
      o.work + 5 * o'.pipe.written.length := by
  cases a with
  | write bs =>
    obtain ⟨-, rfl⟩ := step_write hs
    simp only [work, Act.ofTask, List.length_append, Bool.false_eq_true, if_false]
    omega
  | close =>
    obtain rfl := step_close hs
    simp [work, Act.ofTask]
  | read n =>
    obtain ⟨hpc, hn, -, hlen, rfl⟩ := step_read hs
    simp only [work, hpc, ReadPc.work, Act.ofTask, List.length_drop, if_true]
    omega
  | readEof =>
    obtain ⟨hpc, -, -, rfl⟩ := step_readEof hs
    have hle := work_finish_le o
    rw [hpc] at hle
    simp only [ReadPc.work, Act.ofTask, if_true, finish] at hle ⊢
    omega
  | readErr err =>
    obtain ⟨hpc, rfl⟩ := step_readErr hs
    simp only [work, hpc, ReadPc.work, Act.ofTask, if_true]
    omega
  | send =>
    rcases step_send hs with ⟨frame, hpc, -, rfl⟩ | ⟨err, hpc, -, rfl⟩ | ⟨hpc, -, rfl⟩
    · simp only [work, hpc, ReadPc.work, Act.ofTask, Chan.push_queue, List.length_append,
        List.length_singleton, if_true]
      omega
    · simp only [work, hpc, finish, ReadPc.work, Act.ofTask, Chan.dropTx_queue, Chan.push_queue,
        List.length_append, List.length_singleton, if_true]
      omega
    · have hle := work_finish_le o
      have hpos : 0 < o.pc.work := by
        cases hp : o.pc with
        | done => exact absurd hp hpc
        | _ => simp [ReadPc.work]
      simp only [Act.ofTask, if_true, finish] at hle ⊢
      omega

/-- Taking a result pays for what the tracker does with it. -/
theorem work_recv {o o' : Output} {ev : Option (Except TrackerError Frame)}
    (h : o.recv = some (ev, o')) : o'.pipe = o.pipe ∧
      ((ev = none ∧ o'.work = o.work) ∨ (ev ≠ none ∧ o'.work + 3 = o.work)) := by
  rcases recv_cases h with ⟨res, q, hq, rfl, rfl⟩ | ⟨-, -, rfl, rfl⟩
  · refine ⟨rfl, .inr ⟨by simp, ?_⟩⟩
    simp only [work, hq, List.length_cons]
    omega
  · exact ⟨rfl, .inl ⟨rfl, rfl⟩⟩

theorem work_dropRx_le (o : Output) : o.dropRx.work ≤ o.work := by
  simp [work, dropRx]

end Output

def WaitPc.work : WaitPc → Nat
  | .select => 3
  | .sendFrame _ => 5
  | .killing _ => 3
  | .sendLast => 3
  | .setRes => 1
  | .returned => 0

namespace Tracker

/-- The `select!` branches that are still open. -/
def openBranches (s : Tracker) : Nat :=
  s.childOk.toNat + (s.streamOk .stdout).toNat + (s.streamOk .stderr).toNat

def work (s : Tracker) : Nat := s.pc.work + s.openBranches

theorem work_loopTop (s : Tracker) : s.loopTop.work = 3 + s.openBranches := by
  rcases loopTop_pc s with hpc | ⟨hpc, -⟩
  · simp only [work, hpc, WaitPc.work]
    rfl
  · simp only [work, hpc, WaitPc.work]
    rfl

/-- A closed stream is one branch less. -/
theorem openBranches_close {s : Tracker} {k : StreamKind} (h : s.streamOk k = true) :
    openBranches { s with streamOk := Function.update s.streamOk k false } + 1 =
      s.openBranches := by
  cases k with
  | stdout => simp [openBranches, h]; omega
  | stderr => simp [openBranches, h]

theorem work_of_pc {s : Tracker} {pc : WaitPc} (h : s.pc = pc) :
    s.work = pc.work + s.openBranches := by
  rw [work, h]

theorem work_onOutput {s s' : Tracker} {k : StreamKind}
    {ev : Option (Except TrackerError Frame)} (h : s.step (.output k ev) = some s') :
    (ev = none → s'.work + 1 ≤ s.work) ∧ s'.work ≤ s.work + 2 := by
  obtain ⟨hpc, hok, rfl⟩ := step_output h
  have hwork : s.work = 3 + s.openBranches := work_of_pc hpc
  cases ev with
  | none =>
    have hclose := openBranches_close hok
    rw [onOutput, work_loopTop, hwork]
    exact ⟨fun _ => by omega, by omega⟩
  | some res =>
    cases res with
    | ok frame =>
      have hsend : (s.onOutput k (some (.ok frame))).work = 5 + s.openBranches := rfl
      rw [hsend, hwork]
      exact ⟨by simp, by omega⟩
    | error err =>
      have hbreak : (s.onOutput k (some (.error err))).work = 3 + s.openBranches := rfl
      rw [hbreak, hwork]
      exact ⟨by simp, by omega⟩

theorem work_sent {s s' : Tracker} (h : s.step (.sent true) = some s') : s'.work + 2 = s.work := by
  rcases step_sent h with ⟨f, hpc, -, rfl⟩ | ⟨f, -, hf, -⟩ | ⟨hpc, rfl⟩
  · have hwork : s.work = 5 + s.openBranches := work_of_pc hpc
    rw [work_loopTop, hwork]
    omega
  · cases hf
  · have hwork : s.work = 3 + s.openBranches := work_of_pc hpc
    have hset : work { s with pc := .setRes } = 1 + s.openBranches := rfl
    rw [hset, hwork]
    omega

/-- Kill requests are paid for by themselves: see `kills_step`. -/
theorem work_killReq {s s' : Tracker} {req : Option KillRequest}
    (h : s.step (.killReq req) = some s') : s'.work = s.work := by
  obtain ⟨hpc, -, rfl⟩ := step_killReq h
  have hwork : s.work = 3 + s.openBranches := work_of_pc hpc
  cases req with
  | none => exact (work_loopTop _).trans hwork.symm
  | some req => exact hwork.symm

theorem work_killRes {s s' : Tracker} {req : KillRequest} {res : Except IoError Unit}
    {now : DateTime} (h : s.step (.killRes req res now) = some s') : s'.work = s.work := by
  obtain ⟨hpc, -, rfl⟩ := step_killRes h
  have hwork : s.work = 3 + s.openBranches := work_of_pc hpc
  cases res with
  | error err => exact (work_loopTop _).trans hwork.symm
  | ok u => exact (work_loopTop _).trans hwork.symm

theorem work_exit {s s' : Tracker} {status : Except IoError ProcStatus} {now : DateTime}
    (h : s.step (.exit status now) = some s') : s'.work + 1 = s.work := by
  obtain ⟨hpc, hok, rfl⟩ := step_exit h
  have hwork : s.work = 3 + s.openBranches := work_of_pc hpc
  have hclose : openBranches { s with childOk := false } + 1 = s.openBranches := by
    simp only [openBranches, hok, Bool.toNat_false, Bool.toNat_true]
    omega
  cases status with
  | error err =>
    have hbreak : (s.onExit now (.error err)).work =
        3 + openBranches { s with childOk := false } := rfl
    omega
  | ok status =>
    have hloop : (s.onExit now (.ok status)).work = 3 + openBranches { s with childOk := false } :=
      work_loopTop _
    omega

theorem work_setRes {s s' : Tracker} (h : s.step .setRes = some s') : s'.work + 1 = s.work := by
  obtain ⟨hpc, rfl⟩ := step_setRes h
  have hwork : s.work = 1 + s.openBranches := work_of_pc hpc
  rw [hwork, work, Nat.add_comm 1]
  exact congrArg (· + 1) (Nat.zero_add _)

/-- At a `select!` something is still open. -/
theorem openBranches_pos {s s' : Tracker} {ev : Ev} (hs : s.step ev = some s')
    (hpc : s'.pc = .select) : 0 < s'.openBranches := by
  -- only the top of the loop goes there
  have hloop : ∀ t : Tracker, t.loopTop.pc = .select → 0 < t.loopTop.openBranches := by
    intro t ht
    rcases Nat.eq_zero_or_pos t.loopTop.openBranches with hz | hpos
    · have hclosed : t.childOk = false ∧ t.streamOk .stdout = false ∧
          t.streamOk .stderr = false := by
        simpa [openBranches, loopTop, Nat.add_eq_zero_iff, and_assoc] using hz
      simp [loopTop, hclosed] at ht
    · exact hpos
  cases ev with
  | output k ev =>
    obtain ⟨-, -, rfl⟩ := step_output hs
    cases ev with
    | none => exact hloop _ hpc
    | some res =>
      cases res with
      | ok frame => cases hpc
      | error err => cases hpc
  | sent ok =>
    rcases step_sent hs with ⟨f, -, -, rfl⟩ | ⟨f, -, -, rfl⟩ | ⟨-, rfl⟩
    · exact hloop _ hpc
    · cases hpc
    · cases hpc
  | killReq req =>
    obtain ⟨-, -, rfl⟩ := step_killReq hs
    cases req with
    | none => exact hloop _ hpc
    | some req => cases hpc
  | killRes req res now =>
    obtain ⟨-, -, rfl⟩ := step_killRes hs
    cases res with
    | error err => exact hloop _ hpc
    | ok u => exact hloop _ hpc
  | exit status now =>
    obtain ⟨-, -, rfl⟩ := step_exit hs
    cases status with
    | error err => cases hpc
    | ok status => exact hloop _ hpc
  | setRes =>
    obtain ⟨-, rfl⟩ := step_setRes hs
    cases hpc

theorem openBranches_pos_of_reachable {job : Job} {s : Tracker}
    (hr : Reachable step (Tracker.start job) s) (hpc : s.pc = .select) : 0 < s.openBranches := by
  refine hr.invariant (I := fun s => s.pc = .select → 0 < s.openBranches) (fun _ => ?_) ?_ hpc
  · exact Nat.succ_pos _
  · exact fun s ev s' _ hs => openBranches_pos hs

/-- Whether `wait` is in `child.kill()`. -/
def inKill (s : Tracker) : Nat :=
  match s.pc with
  | .killing _ => 1
  | _ => 0

/-- The kill requests that `wait` has taken: those answered, those retained until the process dies,
and the one it is in `child.kill()` for. -/
def killsTaken (s : Tracker) : Nat := s.answers.length + s.killReqs.length + s.inKill

/-- The two steps of `wait` that are made for a kill request. -/
def Ev.ofKill : Ev → Bool
  | .killReq (some _) => true
  | .killRes _ _ _ => true
  | _ => false

theorem inKill_of_pc {s : Tracker} (h : ∀ req, s.pc ≠ .killing req) : s.inKill = 0 := by
  unfold inKill
  split
  · next req hpc => exact absurd hpc (h req)
  · rfl

theorem inKill_loopTop (s : Tracker) : s.loopTop.inKill = 0 := by
  apply inKill_of_pc
  intro req hpc
  rcases loopTop_pc s with hsel | ⟨hlast, -⟩
  · rw [hsel] at hpc
    cases hpc
  · rw [hlast] at hpc
    cases hpc

/-- A step leaves the requests taken alone. -/
theorem kills_of_quiet {s s' : Tracker} {ev : Ev} (hev : ev.ofKill = false)
    (hpc : ∀ req, s.pc ≠ .killing req) (hpc' : s'.inKill = 0)
    (hsame : s'.answers.length + s'.killReqs.length = s.answers.length + s.killReqs.length) :
    s'.inKill + (if ev.ofKill then 1 else 0) + 2 * s.killsTaken ≤
      s.inKill + 2 * s'.killsTaken := by
  simp only [killsTaken, inKill_of_pc hpc, hpc', hev, Bool.false_eq_true, if_false]
  omega

/-- A request is paid for when it is taken: one step now, and one when `child.kill()` returns. -/
theorem kills_step {s s' : Tracker} {ev : Ev} (h : s.step ev = some s') :
    s'.inKill + (if ev.ofKill then 1 else 0) + 2 * s.killsTaken ≤
      s.inKill + 2 * s'.killsTaken := by
  cases ev with
  | output k ev =>
    obtain ⟨hpc, -, rfl⟩ := step_output h
    refine kills_of_quiet rfl (by simp [hpc]) ?_ ?_
    · cases ev with
      | none => exact inKill_loopTop _
      | some res => cases res <;> rfl
    · cases ev with
      | none => rfl
      | some res => cases res <;> rfl
  | sent ok =>
    rcases step_sent h with ⟨f, hpc, -, rfl⟩ | ⟨f, hpc, -, rfl⟩ | ⟨hpc, rfl⟩
    · exact kills_of_quiet rfl (by simp [hpc]) (inKill_loopTop _) rfl
    · exact kills_of_quiet rfl (by simp [hpc]) rfl rfl
    · exact kills_of_quiet rfl (by simp [hpc]) rfl rfl
  | killReq req =>
    obtain ⟨hpc, -, rfl⟩ := step_killReq h
    cases req with
    | none => exact kills_of_quiet rfl (by simp [hpc]) (inKill_loopTop _) rfl
    | some req =>
      have hidle : s.inKill = 0 := inKill_of_pc (by simp [hpc])
      have hin : (s.onKillReq (some req)).inKill = 1 := rfl
      have htaken : (s.onKillReq (some req)).killsTaken =
          s.answers.length + s.killReqs.length + 1 := rfl
      rw [hin, htaken, killsTaken, hidle, Ev.ofKill, if_pos rfl]
      omega
  | killRes req res now =>
    obtain ⟨hpc, -, rfl⟩ := step_killRes h
    have hin : s.inKill = 1 := by rw [inKill, hpc]
    have hidle : (s.onKillRes req now res).inKill = 0 := by
      cases res <;> exact inKill_loopTop _
    have hlen : (s.onKillRes req now res).answers.length +
        (s.onKillRes req now res).killReqs.length = s.answers.length + s.killReqs.length + 1 := by
      cases res with
      | error err =>
        simp only [onKillRes, loopTop, List.length_append, List.length_singleton]
        omega
      | ok u =>
        simp only [onKillRes, loopTop, List.length_append, List.length_singleton]
        omega
    rw [killsTaken, killsTaken, hidle, hin, Ev.ofKill, if_pos rfl]
    omega
  | exit status now =>
    obtain ⟨hpc, -, rfl⟩ := step_exit h
    cases status with
    | ok status =>
      refine kills_of_quiet rfl (by simp [hpc]) (inKill_loopTop _) ?_
      simp [onExit, loopTop]
    | error err => exact kills_of_quiet rfl (by simp [hpc]) rfl rfl
  | setRes =>
    obtain ⟨hpc, rfl⟩ := step_setRes h
    exact kills_of_quiet rfl (by simp [hpc]) rfl rfl

end Tracker

namespace Broadcaster

/-- The receipts of frames still to come, with that of the end. -/
def backlog (s : Broadcaster) : Nat := s.frameCh.queue.length + s.frameRxOk.toNat

theorem backlog_loopTop_le (s : Broadcaster) : s.loopTop.backlog ≤ s.backlog := by
  rcases loopTop_cases s with he | ⟨-, -, he⟩
  · simp [he]
  · simp [he, backlog]

theorem backlog_step {s s' : Broadcaster} {a : Act} (hs : s.step a = some s') :
    s'.backlog + (if a = .frame then 1 else 0) ≤ s.backlog := by
  cases a with
  | frame =>
    obtain ⟨hok, ⟨ev, q, hq, rfl⟩ | ⟨hq, -, rfl⟩⟩ := step_frame hs
    · simp only [backlog, onFrame, hok, hq, List.length_cons, if_true]
      omega
    · have hle := backlog_loopTop_le { s with
        frameRxOk := false, relays := [], subs := clear s.relays s.subs }
      simp only [onFrame, if_true]
      simp only [backlog, hok, hq, List.length_nil, Bool.toNat_false, Bool.toNat_true] at hle ⊢
      omega
  | req i =>
    obtain ⟨-, q, -, ⟨-, -, rfl⟩ | ⟨-, -, rfl⟩ | ⟨-, rfl⟩⟩ := step_req hs <;> simp [backlog]
  | reqEnd =>
    obtain ⟨-, -, -, rfl⟩ := step_reqEnd hs
    exact backlog_loopTop_le { s with reqRxOk := false }
  | subscribe i =>
    obtain ⟨-, -, rfl⟩ := step_subscribe hs
    simp [backlog]
  | sendReq i =>
    obtain ⟨-, ⟨-, -, rfl⟩ | ⟨-, rfl⟩⟩ := step_sendReq hs <;> simp [backlog]
  | giveUp i =>
    obtain ⟨sub, rfl, -⟩ := step_giveUp hs
    simp [backlog]
  | relay i a =>
    obtain ⟨r, r', -, -, rfl⟩ := step_relay hs
    simp [backlog]
  | dropHandle =>
    obtain ⟨-, rfl⟩ := step_dropHandle hs
    simp [backlog]

end Broadcaster

namespace Pipeline

variable {j₀ : Job} {acts : List Act} {p p' : Pipeline} {jobId : JobId} {user : User} {pid : Pid}
  {now : DateTime}

/-! ## Bounded work -/

/-- The labels that are steps of the reading tasks, of `wait` but for kill requests, and of the
broadcaster's receipts of frames. -/
def Act.ofJob : Act → Bool
  | .output _ a => a.ofTask
  | .recvOutput _ => true
  | .send => true
  | .recvKill => false
  | .killRes _ _ => false
  | .exit _ _ => true
  | .setRes => true
  | .kill _ _ => false
  | .bcast a => a = .frame

/-- The sum over both streams. -/
def both (f : Output → Nat) (p : Pipeline) : Nat := f (p.output .stdout) + f (p.output .stderr)

def work (p : Pipeline) : Nat := both Output.work p + p.trk.work + p.bc.backlog

/-- The number of bytes the child has written. -/
def writtenLen (p : Pipeline) : Nat := both (fun o => o.pipe.written.length) p

theorem both_update (f : Output → Nat) (p : Pipeline) (k : StreamKind) (o : Output) :
    both f { p with output := Function.update p.output k o } + f (p.output k) =
      both f p + f o := by
  cases k with
  | stdout => simp [both]; omega
  | stderr => simp [both]; omega

theorem work_step (h : Inv j₀ acts p) {a : Act} (hs : p.step a = some p') :
    p'.work + (if a.ofJob then 1 else 0) + 5 * p.writtenLen ≤ p.work + 5 * p'.writtenLen := by
  cases a with
  | output k a =>
    obtain ⟨o, ho, rfl⟩ := step_output hs
    have hstep := Output.work_step ho
    have hwork := both_update Output.work p k o
    have hwritten := both_update (fun o => o.pipe.written.length) p k o
    have hjob : (Act.output k a).ofJob = a.ofTask := rfl
    simp only [work, writtenLen, hjob] at *
    omega
  | recvOutput k =>
    obtain ⟨ev, o, trk, ho, ht, rfl⟩ := step_recvOutput hs
    have hwork := both_update Output.work p k o
    have hwritten := both_update (fun o => o.pipe.written.length) p k o
    obtain ⟨hend, hle⟩ := Tracker.work_onOutput ht
    obtain ⟨hpipe, ⟨rfl, ho⟩ | ⟨-, ho⟩⟩ := Output.work_recv ho
    · have hend := hend rfl
      simp only [hpipe, work, writtenLen, both, Act.ofJob, if_true] at *
      omega
    · simp only [hpipe, work, writtenLen, both, Act.ofJob, if_true] at *
      omega
  | send =>
    obtain ⟨ev, trk, -, ht, -, -, -, rfl⟩ := h.send_cases hs
    have hsent := Tracker.work_sent ht
    simp only [work, writtenLen, both, Broadcaster.backlog, Chan.push_queue, List.length_append,
      List.length_singleton, Act.ofJob, if_true]
    omega
  | recvKill =>
    obtain ⟨req, ch, trk, -, ht, rfl⟩ := step_recvKill hs
    have hkill := Tracker.work_killReq ht
    simp only [work, writtenLen, both, hkill, Act.ofJob, Bool.false_eq_true, if_false]
    omega
  | killRes res now =>
    obtain ⟨req, trk, -, ht, rfl⟩ := step_killRes hs
    have hkill := Tracker.work_killRes ht
    simp only [work, writtenLen, both, hkill, Act.ofJob, Bool.false_eq_true, if_false]
    omega
  | exit status now =>
    obtain ⟨trk, ht, rfl⟩ := step_exit hs
    have hexit := Tracker.work_exit ht
    simp only [work, writtenLen, both, Act.ofJob, if_true]
    omega
  | setRes =>
    obtain ⟨trk, ht, rfl⟩ := step_setRes hs
    have hset := Tracker.work_setRes ht
    have hout := Output.work_dropRx_le (p.output .stdout)
    have herr := Output.work_dropRx_le (p.output .stderr)
    simp only [work, writtenLen, both, release, Output.dropRx, Broadcaster.backlog,
      Chan.dropTx_queue, Act.ofJob, if_true] at *
    omega
  | kill c a =>
    obtain ⟨call, ch, rfl, -⟩ := step_kill hs
    simp [work, writtenLen, both, Act.ofJob]
  | bcast a =>
    obtain ⟨bc, hb, rfl⟩ := step_bcast hs
    have hstep := Broadcaster.backlog_step hb
    simp only [work, writtenLen, both, Act.ofJob, decide_eq_true_eq] at *
    omega

/-- The labels that are steps of `wait` for a kill request. -/
def Act.ofKill : Act → Bool
  | .recvKill => true
  | .killRes _ _ => true
  | _ => false

/-- The labels that are steps of the reading tasks, of `wait`, and of the broadcaster's receipts of
frames. -/
def Act.ofTasks (a : Act) : Bool := a.ofJob || a.ofKill

/-- The `kill_tx` of the job stays with `wait`. -/
theorem killCh_senders {a : Act} (h : p.killCh.senders = 1) (hs : p.step a = some p') :
    p'.killCh.senders = 1 := by
  cases a with
  | output k a =>
    obtain ⟨o, -, rfl⟩ := step_output hs
    exact h
  | recvOutput k =>
    obtain ⟨ev, o, trk, -, -, rfl⟩ := step_recvOutput hs
    exact h
  | send =>
    obtain ⟨ev, ok, ch, trk, -, -, -, rfl⟩ := step_send hs
    exact h
  | recvKill =>
    obtain ⟨req, ch, trk, hch, -, rfl⟩ := step_recvKill hs
    rcases Chan.recv_eq_some_iff.1 hch with ⟨r, q, -, -, rfl⟩ | ⟨-, -, -, rfl⟩
    · exact h
    · exact h
  | killRes res now =>
    obtain ⟨req, trk, -, -, rfl⟩ := step_killRes hs
    exact h
  | exit status now =>
    obtain ⟨trk, -, rfl⟩ := step_exit hs
    exact h
  | setRes =>
    obtain ⟨trk, -, rfl⟩ := step_setRes hs
    exact h
  | kill c a =>
    cases a with
    | send =>
      simp only [step, stepKill] at hs
      split at hs
      · next user hc =>
        cases hsend : p.killCh.send { user, tx := c } with
        | none => simp [hsend] at hs
        | some res =>
          obtain ⟨ok, ch⟩ := res
          rw [hsend] at hs
          rcases Chan.send_eq_some_iff.1 hsend with ⟨rfl, -, -, rfl⟩ | ⟨rfl, -, rfl⟩
          · cases hs
            exact h
          · cases hs
            exact h
      · cases hs
    | call | recv | timeout | drop =>
      simp only [step, stepKill] at hs
      split at hs <;> cases hs <;> exact h
  | bcast a =>
    obtain ⟨bc, -, rfl⟩ := step_bcast hs
    exact h

theorem kills_step {a : Act} (hch : p.killCh.senders = 1) (hs : p.step a = some p') :
    p'.trk.inKill + (if a.ofKill then 1 else 0) + 2 * p.trk.killsTaken ≤
      p.trk.inKill + 2 * p'.trk.killsTaken := by
  cases a with
  | output k a =>
    obtain ⟨o, -, rfl⟩ := step_output hs
    exact Nat.le_refl _
  | recvOutput k =>
    obtain ⟨ev, o, trk, -, ht, rfl⟩ := step_recvOutput hs
    exact Tracker.kills_step ht
  | send =>
    obtain ⟨ev, ok, ch, trk, -, -, ht, rfl⟩ := step_send hs
    exact Tracker.kills_step ht
  | recvKill =>
    obtain ⟨req, ch, trk, hrecv, ht, rfl⟩ := step_recvKill hs
    rcases Chan.recv_eq_some_iff.1 hrecv with ⟨r, q, -, rfl, -⟩ | ⟨-, hz, -⟩
    · exact Tracker.kills_step ht
    · rw [hch] at hz
      cases hz
  | killRes res now =>
    obtain ⟨req, trk, -, ht, rfl⟩ := step_killRes hs
    exact Tracker.kills_step ht
  | exit status now =>
    obtain ⟨trk, ht, rfl⟩ := step_exit hs
    exact Tracker.kills_step ht
  | setRes =>
    obtain ⟨trk, ht, rfl⟩ := step_setRes hs
    exact Tracker.kills_step ht
  | kill c a =>
    obtain ⟨call, ch, rfl, -⟩ := step_kill hs
    exact Nat.le_refl _
  | bcast a =>
    obtain ⟨bc, -, rfl⟩ := step_bcast hs
    exact Nat.le_refl _

theorem if_ofTasks_le (a : Act) : (if a.ofTasks then 1 else 0) ≤
    (if a.ofJob then 1 else 0) + (if a.ofKill then 1 else 0) := by
  unfold Act.ofTasks
  cases a.ofJob <;> cases a.ofKill <;> simp

/-- However callers, subscribers and relays interleave with them, the job's own tasks take at most
five steps for each byte of the child, two for each kill request that `wait` has taken, and
seventeen for the rest. -/
theorem bounded_work
    (hr : run Pipeline.step (Pipeline.start (Job.started jobId user pid now)) acts = some p) :
    acts.countP Act.ofTasks ≤ 5 * p.writtenLen + 2 * p.trk.killsTaken + 17 := by
  have hrun := run_countP_le
    (I := fun p => (∃ acts, Inv (Job.started jobId user pid now) acts p) ∧ p.killCh.senders = 1)
    Act.ofTasks (fun p => p.work + p.trk.inKill)
    (fun p => 5 * p.writtenLen + 2 * p.trk.killsTaken) ?_ ⟨⟨[], .start rfl⟩, rfl⟩ hr
  · have hwork : (Pipeline.start (Job.started jobId user pid now)).work = 17 := rfl
    have hwritten : (Pipeline.start (Job.started jobId user pid now)).writtenLen = 0 := rfl
    have hkill : (Pipeline.start (Job.started jobId user pid now)).trk.inKill = 0 := rfl
    have htaken : (Pipeline.start (Job.started jobId user pid now)).trk.killsTaken = 0 := rfl
    simp only [hwork, hwritten, hkill, htaken] at hrun
    omega
  · rintro p a p' ⟨⟨acts, h⟩, hch⟩ hs
    refine ⟨⟨⟨_, h.step hs⟩, killCh_senders hch hs⟩, ?_⟩
    have hwork := work_step h hs
    have hkill := kills_step hch hs
    have hone := if_ofTasks_le a
    omega

theorem bounded_work_echoRun :
    ∃ p, run Pipeline.step (Pipeline.start (Job.started ⟨"job"⟩ ⟨"alice"⟩ ⟨7⟩ ⟨1⟩))
        (echoRun 0 104) = some p ∧
      (echoRun 0 104).countP Act.ofTasks ≤ 5 * p.writtenLen + 2 * p.trk.killsTaken + 17 := by
  obtain ⟨p, hp⟩ : ∃ p, run Pipeline.step
      (Pipeline.start (Job.started ⟨"job"⟩ ⟨"alice"⟩ ⟨7⟩ ⟨1⟩)) (echoRun 0 104) = some p := ⟨_, rfl⟩
  exact ⟨p, hp, bounded_work hp⟩

/-! ## At rest -/

/-- None of these tasks can take a step by itself. -/
def Idle (p : Pipeline) : Prop := ∀ a, a.ofJob = true → a.ofTask = true → p.step a = none

/-- An open stream that has nothing to read. -/
def WaitsForOutput (p : Pipeline) (k : StreamKind) : Prop :=
  p.trk.streamOk k = true ∧ (p.output k).pc = .read ∧ (p.output k).pipe.unread = [] ∧
    (p.output k).pipe.closed = false

/-- The next event is one of the child: the completion of a `child.kill()` or of `child.wait()`,
some output, or the end of an output. -/
def WaitsForChild (p : Pipeline) : Prop :=
  (∃ req, p.trk.pc = .killing req) ∨
    (p.trk.pc = .select ∧ (p.trk.childOk = true ∨ ∃ k, p.WaitsForOutput k))

/-- `wait` has returned, and the broadcaster has everything it will ever get, the terminal event at
the end. -/
def Over (p : Pipeline) : Prop :=
  p.trk.pc = .returned ∧ p.bc.frameRxOk = false ∧
    ∃ fs t, FramesOnly fs ∧ t.isTerminal = true ∧ p.bc.frames = fs ++ [t]

/-- A broadcaster without another receipt has seen the end of its source. -/
theorem Inv.frameRxOk_of_returned (hi : Inv j₀ acts p) (hret : p.trk.pc = .returned)
    (hstep : p.step (.bcast .frame) = none) : p.bc.frameRxOk = false := by
  have hsrc := hi.src
  rw [if_pos hret] at hsrc
  cases hok : p.bc.frameRxOk with
  | false => rfl
  | true =>
    cases hq : p.bc.frameCh.queue with
    | nil => simp [Pipeline.step, Broadcaster.step, hok, Chan.recv, hq, hsrc] at hstep
    | cons ev q => simp [Pipeline.step, Broadcaster.step, hok, Chan.recv, hq] at hstep

theorem Idle.waitsForOutput (hi : Inv j₀ acts p) (hb : p.Bounded) (h : p.Idle)
    (hpc : p.trk.pc = .select) {k : StreamKind} (hk : p.trk.streamOk k = true) :
    p.WaitsForOutput k := by
  have hrecv : (p.output k).recv = none := by
    have hstep := h (.recvOutput k) rfl rfl
    cases hr : (p.output k).recv with
    | none => rfl
    | some r => simp [step, hr, Tracker.step, hpc, hk] at hstep
  have houtput : ∀ a : Output.Act, (Act.output k a).ofJob = true → (Act.output k a).ofTask = true →
      (p.output k).step a = none := by
    intro a hjob htask
    have hstep := h (.output k a) hjob htask
    cases hs : (p.output k).step a with
    | none => rfl
    | some o => simp [step, hs] at hstep
  have hqueue : (p.output k).ch.queue = [] := by
    cases hq : (p.output k).ch.queue with
    | nil => rfl
    | cons res q => simp [Output.recv, Chan.recv, hq] at hrecv
  have hroom : (p.output k).ch.queue.length < (p.output k).ch.cap := by
    rw [hqueue, (hb.out k).cap]
    exact Nat.succ_pos _
  have hopen : (p.output k).ch.rxOpen = true := (hi.rx k).2 (by simp [hpc])
  have hsend : ∀ res, (p.output k).ch.send res = some (true, (p.output k).ch.push res) := fun res =>
    Chan.send_eq_some_iff.2 (.inl ⟨rfl, hopen, hroom, rfl⟩)
  cases hpc' : (p.output k).pc with
  | done =>
    have hz := (hi.out k).senders
    rw [if_pos hpc'] at hz
    simp [Output.recv, Chan.recv, hqueue, hz] at hrecv
  | send frame =>
    have hnone := houtput .send rfl rfl
    simp [Output.step, hpc', hsend] at hnone
  | sendErr err =>
    have hnone := houtput .send rfl rfl
    simp [Output.step, hpc', hsend] at hnone
  | read =>
    have hunread : (p.output k).pipe.unread = [] := by
      cases hu : (p.output k).pipe.unread with
      | nil => rfl
      | cons b bs =>
        have hnone := houtput (.read 1) rfl rfl
        simp [Output.step, hpc', hu] at hnone
    have hclosed : (p.output k).pipe.closed = false := by
      have hnone := houtput .readEof rfl rfl
      simpa [Output.step, hpc', hunread] using hnone
    exact ⟨hk, hpc', hunread, hclosed⟩

/-- The job's own tasks never wait for each other in a circle, nor for a caller, a subscriber or a
relay: when they have nothing to do, it is the child's turn, or the job is over. -/
theorem idle_cases
    (hr : run Pipeline.step (Pipeline.start (Job.started jobId user pid now)) acts = some p)
    (h : p.Idle) : p.WaitsForChild ∨ p.Over := by
  obtain ⟨hg, hb⟩ := Bounded.run rfl hr
  have hi := hg.inv
  have hnosend : p.step .send = none := h .send rfl rfl
  have houtgoing : p.trk.outgoing = none := by
    cases hev : p.trk.outgoing with
    | none => rfl
    | some ev =>
      rcases send_enabled hi hev with hs | ⟨p', hf, -⟩
      · simp [hnosend] at hs
      · rw [h (.bcast .frame) rfl rfl] at hf
        cases hf
  cases hpc : p.trk.pc with
  | select =>
    refine .inl (.inr ⟨hpc, ?_⟩)
    have hpos := Tracker.openBranches_pos_of_reachable (reachable_trk ⟨acts, hr⟩) hpc
    cases hchild : p.trk.childOk with
    | true => exact .inl rfl
    | false =>
      -- one of the streams is still open
      right
      cases hout : p.trk.streamOk .stdout with
      | true => exact ⟨.stdout, h.waitsForOutput hi hb hpc hout⟩
      | false =>
        cases herr : p.trk.streamOk .stderr with
        | true => exact ⟨.stderr, h.waitsForOutput hi hb hpc herr⟩
        | false => simp [Tracker.openBranches, hchild, hout, herr] at hpos
  | sendFrame frame => simp [Tracker.outgoing, hpc] at houtgoing
  | killing req => exact .inl (.inl ⟨req, hpc⟩)
  | sendLast => simp [Tracker.outgoing, hpc] at houtgoing
  | setRes =>
    have hset := h .setRes rfl rfl
    simp [step, Tracker.step, hpc] at hset
  | returned =>
    have hok : p.bc.frameRxOk = false := hi.frameRxOk_of_returned hpc (h (.bcast .frame) rfl rfl)
    obtain ⟨fs, hfs, hsent⟩ := hg.terminal
    have hending : p.trk.ending = [p.trk.lastEvent] := by simp only [Tracker.ending, hpc]
    rw [Broadcaster.sent, (hi.bc.drained hok).2.2, List.append_nil, hending] at hsent
    exact .inr ⟨hpc, hok, fs, _, hfs, Tracker.lastEvent_isTerminal _, hsent⟩

theorem idle_cases_desertedRun :
    ∃ p, run Pipeline.step (Pipeline.start (Job.started ⟨"job"⟩ ⟨"alice"⟩ ⟨7⟩ ⟨1⟩)) desertedRun =
      some p ∧ (p.WaitsForChild ∨ p.Over) := by
  obtain ⟨p, hp, hq, -⟩ := rests_desertedRun
  exact ⟨p, hp, idle_cases hp fun a _ htask => hq a htask⟩

end Pipeline

end JobRunner
