import JobRunner.Tracker

/-!
# The job record across a run of `wait`

`RecordInv` links the record of a job to the loop flags of its tracker: the record is `Exited`
with an `ended_at` exactly from the moment `Child::wait` has returned `Ok`, the loop ends without
an error only after that and after the end of both streams, and nothing the loop does later
touches the record. From it:

* `lifeCycle_run`: how two snapshots of one record are related;
* `ended_iff_exitSeen`: when `wait` has returned, the record has left `Running` exactly if the
  child's exit reached the loop before anything that breaks out of it.
-/

namespace JobRunner

/-- The program points inside the `select!` loop. -/
def WaitPc.inLoop : WaitPc → Bool
  | .select => true
  | .sendFrame _ => true
  | .killing _ => true
  | .sendLast => false
  | .setRes => false
  | .returned => false

namespace Tracker

/-! ## The invariant -/

/-- The record of the job `j₀` and the flags of its tracker. -/
structure RecordInv (j₀ : Job) (s : Tracker) : Prop where
  id_eq : s.job.id = j₀.id
  user_eq : s.job.user = j₀.user
  startedAt_eq : s.job.startedAt = j₀.startedAt
  running : s.waited = false → s.job.state = j₀.state ∧ s.job.endedAt = none
  exited : s.waited = true → s.job.state.isExited = true ∧ s.job.endedAt.isSome = true
  childOk_of_waited : s.waited = true → s.childOk = false
  waited_of_childOk : s.childOk = false → s.loopErr = none → s.waited = true
  inLoop : s.pc.inLoop = true → s.loopErr = none
  ended : s.pc.inLoop = false → s.loopErr = none →
    s.childOk = false ∧ ∀ k, s.streamOk k = false

namespace RecordInv

variable {j₀ : Job} {s s' : Tracker}

theorem start (h : j₀.endedAt = none) : RecordInv j₀ (start j₀) where
  id_eq := rfl
  user_eq := rfl
  startedAt_eq := rfl
  running := fun _ => ⟨rfl, h⟩
  exited := fun hw => by cases hw
  childOk_of_waited := fun hw => by cases hw
  waited_of_childOk := fun hc => by cases hc
  inLoop := fun _ => rfl
  ended := fun hp => by cases hp

theorem not_waited (h : RecordInv j₀ s) (hc : s.childOk = true) : s.waited = false := by
  apply Bool.eq_false_iff.2
  intro hw
  exact absurd ((h.childOk_of_waited hw).symm.trans hc) Bool.false_ne_true

/-- Going back to the top of the loop: only the program counter moves. -/
theorem loopTop (h : RecordInv j₀ s) (herr : s.loopErr = none) : RecordInv j₀ s.loopTop := by
  have hpc := loopTop_pc s
  refine { h with inLoop := fun _ => herr, ended := fun hout _ => ?_ }
  rcases hpc with hsel | ⟨_, hc, hk⟩
  · rw [hsel] at hout
    cases hout
  · exact ⟨hc, hk⟩

theorem breakErr (h : RecordInv j₀ s) (err : TrackerError) : RecordInv j₀ (s.breakErr err) where
  id_eq := h.id_eq
  user_eq := h.user_eq
  startedAt_eq := h.startedAt_eq
  running := h.running
  exited := h.exited
  childOk_of_waited := h.childOk_of_waited
  waited_of_childOk := fun _ he => by cases he
  inLoop := fun hp => by cases hp
  ended := fun _ he => by cases he

/-- The flags of the streams and of the kill channel, and the program points of the loop, say
nothing about the record. -/
theorem frame (h : RecordInv j₀ s) (herr : s.loopErr = none) (pc : WaitPc)
    (hpc : pc.inLoop = true) (streamOk : StreamKind → Bool) (killOk : Bool) :
    RecordInv j₀ { s with pc, streamOk, killOk } where
  id_eq := h.id_eq
  user_eq := h.user_eq
  startedAt_eq := h.startedAt_eq
  running := h.running
  exited := h.exited
  childOk_of_waited := h.childOk_of_waited
  waited_of_childOk := h.waited_of_childOk
  inLoop := fun _ => herr
  ended := fun hout => by
    rw [hpc] at hout
    cases hout

theorem onOutput (h : RecordInv j₀ s) (hpc : s.pc = .select) (k : StreamKind)
    (ev : Option (Except TrackerError Frame)) : RecordInv j₀ (s.onOutput k ev) := by
  have herr : s.loopErr = none := h.inLoop (by rw [hpc]; rfl)
  cases ev with
  | none => exact (h.frame herr s.pc (by rw [hpc]; rfl) _ s.killOk).loopTop herr
  | some ev =>
    cases ev with
    | ok frame => exact h.frame herr (.sendFrame frame) rfl s.streamOk s.killOk
    | error err => exact h.breakErr err

theorem onKillReq (h : RecordInv j₀ s) (hpc : s.pc = .select) (req : Option KillRequest) :
    RecordInv j₀ (s.onKillReq req) := by
  have herr : s.loopErr = none := h.inLoop (by rw [hpc]; rfl)
  cases req with
  | none => exact (h.frame herr s.pc (by rw [hpc]; rfl) s.streamOk false).loopTop herr
  | some req => exact h.frame herr (.killing req) rfl s.streamOk s.killOk

theorem onKillRes (h : RecordInv j₀ s) {req : KillRequest} (hpc : s.pc = .killing req)
    (now : DateTime) {res : Except IoError Unit} (hw : res.isOk = true → s.waited = false) :
    RecordInv j₀ (s.onKillRes req now res) := by
  have herr : s.loopErr = none := h.inLoop (by rw [hpc]; rfl)
  cases res with
  | error err =>
    have h' : RecordInv j₀ { s with answers := s.answers ++ [(req, .error err)] } := { h with }
    exact h'.loopTop herr
  | ok u =>
    have hw' : s.waited = false := hw rfl
    have h' : RecordInv j₀ { s with
        job := { s.job with killed := some { killedAt := now, user := req.user } }
        killReqs := s.killReqs ++ [req] } :=
      { h with exited := fun hs => absurd (hw'.symm.trans hs) Bool.false_ne_true }
    exact h'.loopTop herr

theorem onExit (h : RecordInv j₀ s) (hpc : s.pc = .select) (now : DateTime)
    (status : Except IoError ProcStatus) : RecordInv j₀ (s.onExit now status) := by
  have herr : s.loopErr = none := h.inLoop (by rw [hpc]; rfl)
  cases status with
  | error err =>
    have h' : RecordInv j₀ (s.breakErr (.waitChild err)) := h.breakErr _
    exact { h' with
      childOk_of_waited := fun _ => rfl
      waited_of_childOk := fun _ he => by cases he
      ended := fun _ he => by cases he }
  | ok st =>
    have hin : s.pc.inLoop = true := by rw [hpc]; rfl
    refine loopTop ?_ herr
    exact
      { id_eq := h.id_eq
        user_eq := h.user_eq
        startedAt_eq := h.startedAt_eq
        running := fun hw => by cases hw
        exited := fun _ => ⟨rfl, rfl⟩
        childOk_of_waited := fun _ => rfl
        waited_of_childOk := fun _ _ => rfl
        inLoop := fun _ => herr
        ended := fun hout => absurd (hout.symm.trans hin) Bool.false_ne_true }

/-- Every step keeps the invariant. -/
theorem step (h : RecordInv j₀ s) {ev : Ev} (hs : s.step ev = some s') : RecordInv j₀ s' := by
  cases ev with
  | output k ev =>
    obtain ⟨hpc, -, rfl⟩ := step_output hs
    exact h.onOutput hpc k ev
  | sent ok =>
    rcases step_sent hs with ⟨f, hpc, -, rfl⟩ | ⟨f, hpc, -, rfl⟩ | ⟨hpc, rfl⟩
    · exact h.loopTop (h.inLoop (by rw [hpc]; rfl))
    · exact h.breakErr _
    · exact { h with
        inLoop := fun hp => by cases hp
        ended := fun _ => h.ended (by rw [hpc]; rfl) }
  | killReq req =>
    obtain ⟨hpc, -, rfl⟩ := step_killReq hs
    exact h.onKillReq hpc req
  | killRes req res now =>
    obtain ⟨hpc, hw, rfl⟩ := step_killRes hs
    exact h.onKillRes hpc now hw
  | exit status now =>
    obtain ⟨hpc, -, rfl⟩ := step_exit hs
    exact h.onExit hpc now status
  | setRes =>
    obtain ⟨hpc, rfl⟩ := step_setRes hs
    exact { h with
      inLoop := fun hp => by cases hp
      ended := fun _ => h.ended (by rw [hpc]; rfl) }

theorem run (hend : j₀.endedAt = none)
    (hr : Lts.Reachable Tracker.step (Tracker.start j₀) s) : RecordInv j₀ s :=
  hr.invariant (I := RecordInv j₀) (RecordInv.start hend) fun _ _ _ h hs => h.step hs

end RecordInv

/-! ## The life cycle of the record -/

/-- How a later snapshot of a record relates to an earlier one. -/
structure LifeCycle (j j' : Job) : Prop where
  id_eq : j'.id = j.id
  user_eq : j'.user = j.user
  startedAt_eq : j'.startedAt = j.startedAt
  killed : j.killed.isSome = true → j'.killed.isSome = true
  frozen : j.state.isExited = true → j' = j

namespace LifeCycle

theorem refl (j : Job) : LifeCycle j j := ⟨rfl, rfl, rfl, id, fun _ => rfl⟩

theorem trans {j j' j'' : Job} (h : LifeCycle j j') (h' : LifeCycle j' j'') : LifeCycle j j'' where
  id_eq := h'.id_eq.trans h.id_eq
  user_eq := h'.user_eq.trans h.user_eq
  startedAt_eq := h'.startedAt_eq.trans h.startedAt_eq
  killed hk := h'.killed (h.killed hk)
  frozen hx := by
    have e : j' = j := h.frozen hx
    rw [← e] at hx ⊢
    exact h'.frozen hx

end LifeCycle

theorem not_exited_of_running {st : JobState} (h : st.isRunning = true) :
    st.isExited = false := by
  cases st with
  | running p => rfl
  | exited st => cases h

/-- One step of `wait` takes the record along its life cycle. -/
theorem lifeCycle_step {j₀ : Job} {s s' : Tracker} {ev : Ev} (hrun : j₀.state.isRunning = true)
    (h : RecordInv j₀ s) (hs : s.step ev = some s') : LifeCycle s.job s'.job := by
  have hstill : s.waited = false → s.job.state.isExited = true → False := fun hw hx => by
    rw [(h.running hw).1, not_exited_of_running hrun] at hx
    cases hx
  cases ev with
  | output k ev =>
    obtain ⟨-, -, rfl⟩ := step_output hs
    match ev with
    | none => exact .refl _
    | some (.ok _) => exact .refl _
    | some (.error _) => exact .refl _
  | sent ok =>
    rcases step_sent hs with ⟨f, -, -, rfl⟩ | ⟨f, -, -, rfl⟩ | ⟨-, rfl⟩ <;> exact .refl _
  | killReq req =>
    obtain ⟨-, -, rfl⟩ := step_killReq hs
    match req with
    | none => exact .refl _
    | some _ => exact .refl _
  | killRes req res now =>
    obtain ⟨-, hw, rfl⟩ := step_killRes hs
    cases res with
    | error err => exact .refl _
    | ok u =>
      -- a kill that succeeds finds the record not yet exited
      exact ⟨rfl, rfl, rfl, fun _ => rfl, fun hx => (hstill (hw rfl) hx).elim⟩
  | exit status now =>
    obtain ⟨-, hc, rfl⟩ := step_exit hs
    cases status with
    | error err => exact .refl _
    | ok st => exact ⟨rfl, rfl, rfl, id, fun hx => (hstill (h.not_waited hc) hx).elim⟩
  | setRes =>
    obtain ⟨-, rfl⟩ := step_setRes hs
    exact .refl _

/-- Two states of one run, in order, hold records in life-cycle order. -/
theorem lifeCycle_run {j₀ : Job} {s s' : Tracker} (hrun : j₀.state.isRunning = true)
    (h : RecordInv j₀ s) (hr : Lts.Reachable step s s') :
    RecordInv j₀ s' ∧ LifeCycle s.job s'.job := by
  refine hr.invariant (I := fun t => RecordInv j₀ t ∧ LifeCycle s.job t.job) ⟨h, .refl _⟩ ?_
  intro t ev t' ⟨ht, hl⟩ hs
  exact ⟨ht.step hs, hl.trans (lifeCycle_step hrun ht hs)⟩

theorem RecordInv.waited_of_exited {j₀ : Job} {s : Tracker} (hrun : j₀.state.isRunning = true)
    (h : RecordInv j₀ s) (hx : s.job.state.isExited = true) : s.waited = true := by
  by_contra hw
  rw [(h.running (Bool.eq_false_iff.2 hw)).1, not_exited_of_running hrun] at hx
  cases hx

/-- The record has an `ended_at` exactly when it is `Exited`. -/
theorem RecordInv.endedAt_iff {j₀ : Job} {s : Tracker} (hrun : j₀.state.isRunning = true)
    (h : RecordInv j₀ s) : s.job.endedAt.isSome = true ↔ s.job.state.isExited = true := by
  cases hw : s.waited with
  | true => exact ⟨fun _ => (h.exited hw).1, fun _ => (h.exited hw).2⟩
  | false =>
    obtain ⟨hst, hend⟩ := h.running hw
    rw [hst, hend, not_exited_of_running hrun]
    simp

/-! ## The recorded exit -/

/-- The event that `child.wait()` returned `Ok`. -/
def reaps : Ev → Bool
  | .exit (.ok _) _ => true
  | _ => false

theorem waited_step {s s' : Tracker} {ev : Ev} (hs : s.step ev = some s') :
    s'.waited = (s.waited || reaps ev) := by
  cases ev with
  | output k ev =>
    obtain ⟨-, -, rfl⟩ := step_output hs
    match ev with
    | none => exact (Bool.or_false _).symm
    | some (.ok _) => exact (Bool.or_false _).symm
    | some (.error _) => exact (Bool.or_false _).symm
  | sent ok =>
    rcases step_sent hs with ⟨f, -, -, rfl⟩ | ⟨f, -, -, rfl⟩ | ⟨-, rfl⟩ <;>
      exact (Bool.or_false _).symm
  | killReq req =>
    obtain ⟨-, -, rfl⟩ := step_killReq hs
    cases req <;> exact (Bool.or_false _).symm
  | killRes req res now =>
    obtain ⟨-, -, rfl⟩ := step_killRes hs
    cases res <;> exact (Bool.or_false _).symm
  | exit status now =>
    obtain ⟨-, -, rfl⟩ := step_exit hs
    cases status with
    | ok st => exact (Bool.or_true _).symm
    | error err => exact (Bool.or_false _).symm
  | setRes =>
    obtain ⟨-, rfl⟩ := step_setRes hs
    exact (Bool.or_false _).symm

theorem waited_run {s s' : Tracker} (hr : Lts.Reachable step s s') (hw : s.waited = true) :
    s'.waited = true := by
  refine hr.invariant (I := fun t => t.waited = true) hw fun t ev t' ht hs => ?_
  rw [waited_step hs, ht, Bool.true_or]

/-- The record is `Exited` with the status and at the time of the one exit the run has seen. -/
structure ExitRecorded (evs : List Ev) (s : Tracker) : Prop where
  seen : s.waited = true → ∃ status now, Ev.exit (.ok status) now ∈ evs
  recorded : ∀ status now, Ev.exit (.ok status) now ∈ evs →
    s.waited = true ∧ s.job.state = .exited (.ofProc status) ∧ s.job.endedAt = some now

theorem exitRecorded_run {j₀ : Job} {evs : List Ev} {s : Tracker} (hrun : j₀.state.isRunning = true)
    (hend : j₀.endedAt = none) (hr : Lts.run step (start j₀) evs = some s) :
    RecordInv j₀ s ∧ ExitRecorded evs s := by
  refine Lts.run_induct (motive := fun evs s => RecordInv j₀ s ∧ ExitRecorded evs s)
    ⟨.start hend, ⟨(fun hw => by cases hw), (fun _ _ hm => by cases hm)⟩⟩ ?_ hr
  intro evs s ev s' _ ⟨h, hx⟩ hs
  have hw := waited_step hs
  refine ⟨h.step hs, ⟨fun hw' => ?_, fun status now hm => ?_⟩⟩
  · rw [hw, Bool.or_eq_true] at hw'
    rcases hw' with hold | hnew
    · obtain ⟨status, now, hm⟩ := hx.seen hold
      exact ⟨status, now, List.mem_append_left _ hm⟩
    · match ev with
      | .exit (.ok status) now => exact ⟨status, now, by simp⟩
  · rcases List.mem_append.1 hm with hold | hnew
    · -- an exit already recorded: the record is frozen
      obtain ⟨hsw, hst, he⟩ := hx.recorded status now hold
      have hfr : s'.job = s.job := (lifeCycle_step hrun h hs).frozen (h.exited hsw).1
      rw [hfr, hw, hsw]
      exact ⟨rfl, hst, he⟩
    · obtain rfl : Ev.exit (.ok status) now = ev := by simpa using hnew
      obtain ⟨-, -, rfl⟩ := step_exit hs
      exact ⟨rfl, rfl, rfl⟩

/-! ## Does the exit reach the loop? -/

/-- What an event decides about the record: the exit of the child ends the job; a read error, a
failed send to the broadcaster and a failed `child.wait()` break out of the loop. -/
def verdict : Ev → Option Bool
  | .exit (.ok _) _ => some true
  | .exit (.error _) _ => some false
  | .output _ (some (.error _)) => some false
  | .sent false => some false
  | _ => none

/-- `child.wait()` returned `Ok` before anything broke out of the loop. -/
def ExitSeen (evs : List Ev) : Prop := evs.findSome? verdict = some true

instance (evs : List Ev) : Decidable (ExitSeen evs) :=
  inferInstanceAs (Decidable (evs.findSome? verdict = some true))

/-- The verdict so far, read off the state. -/
def settled (s : Tracker) : Option Bool :=
  if s.waited then some true else if s.pc.inLoop then none else some false

theorem settled_loopTop {s : Tracker} (hc : s.childOk = false → s.waited = true) :
    s.loopTop.settled = if s.waited then some true else none := by
  cases hw : s.waited with
  | true => simp only [settled, loopTop, hw, if_true]
  | false =>
    have hsel : s.loopTop.pc = .select := by
      rcases loopTop_pc s with hsel | ⟨-, hchild, -⟩
      · exact hsel
      · rw [hc hchild] at hw
        cases hw
    have hw' : s.loopTop.waited = false := hw
    simp [settled, hw', hsel, WaitPc.inLoop]

theorem settled_inLoop {s : Tracker} (hpc : s.pc.inLoop = true) :
    s.settled = if s.waited then some true else none := by
  simp [settled, hpc]

theorem settled_breakErr (s : Tracker) (err : TrackerError) :
    (s.breakErr err).settled = if s.waited then some true else some false := by
  cases hw : s.waited <;> simp [settled, breakErr, WaitPc.inLoop, hw]

/-- A step adds its verdict to an open one, and to no other. -/
theorem settled_step {j₀ : Job} {s s' : Tracker} {ev : Ev} (h : RecordInv j₀ s)
    (hs : s.step ev = some s') : s'.settled = s.settled.or (verdict ev) := by
  have hchild : s.pc.inLoop = true → s.childOk = false → s.waited = true := fun hin hc =>
    h.waited_of_childOk hc (h.inLoop hin)
  cases ev with
  | output k ev =>
    obtain ⟨hpc, -, rfl⟩ := step_output hs
    have hin : s.pc.inLoop = true := by rw [hpc]; rfl
    rw [settled_inLoop hin]
    match ev with
    | none =>
      rw [onOutput, settled_loopTop]
      · cases hw : s.waited <;> simp [verdict]
      · exact hchild hin
    | some (.ok frame) =>
      rw [settled_inLoop (s := s.onOutput k (some (.ok frame))) rfl]
      cases hw : s.waited <;> simp [verdict, onOutput, hw]
    | some (.error err) =>
      rw [onOutput, settled_breakErr]
      cases hw : s.waited <;> simp [verdict]
  | sent ok =>
    rcases step_sent hs with ⟨f, hpc, rfl, rfl⟩ | ⟨f, hpc, rfl, rfl⟩ | ⟨hpc, rfl⟩
    · have hin : s.pc.inLoop = true := by rw [hpc]; rfl
      rw [settled_inLoop hin, settled_loopTop (hchild hin)]
      cases hw : s.waited <;> simp [verdict]
    · have hin : s.pc.inLoop = true := by rw [hpc]; rfl
      rw [settled_inLoop hin, settled_breakErr]
      cases hw : s.waited <;> simp [verdict]
    · -- the loop is over, so the verdict stands
      cases hw : s.waited <;> simp [settled, hw, hpc, WaitPc.inLoop]
  | killReq req =>
    obtain ⟨hpc, -, rfl⟩ := step_killReq hs
    have hin : s.pc.inLoop = true := by rw [hpc]; rfl
    rw [settled_inLoop hin]
    cases req with
    | none =>
      rw [onKillReq, settled_loopTop]
      · cases hw : s.waited <;> simp [verdict]
      · exact hchild hin
    | some req =>
      rw [settled_inLoop (s := s.onKillReq (some req)) rfl]
      cases hw : s.waited <;> simp [verdict, onKillReq, hw]
  | killRes req res now =>
    obtain ⟨hpc, -, rfl⟩ := step_killRes hs
    have hin : s.pc.inLoop = true := by rw [hpc]; rfl
    rw [settled_inLoop hin]
    cases res with
    | error err =>
      rw [onKillRes, settled_loopTop]
      · cases hw : s.waited <;> simp [verdict]
      · exact hchild hin
    | ok u =>
      rw [onKillRes, settled_loopTop]
      · cases hw : s.waited <;> simp [verdict]
      · exact hchild hin
  | exit status now =>
    obtain ⟨hpc, hc, rfl⟩ := step_exit hs
    have hw : s.waited = false := h.not_waited hc
    rw [settled_inLoop (s := s) (by rw [hpc]; rfl), hw]
    cases status with
    | ok st =>
      rw [onExit, settled_loopTop]
      · rfl
      · exact fun _ => rfl
    | error err =>
      rw [onExit, settled_breakErr]
      simp [verdict, hw]
  | setRes =>
    obtain ⟨hpc, rfl⟩ := step_setRes hs
    cases hw : s.waited <;> simp [settled, hw, hpc, verdict, WaitPc.inLoop]

/-- Along a run the state holds the first verdict. -/
theorem settled_run {j₀ : Job} {evs : List Ev} {s : Tracker} (hend : j₀.endedAt = none)
    (hr : Lts.run step (start j₀) evs = some s) :
    RecordInv j₀ s ∧ s.settled = evs.findSome? verdict := by
  refine Lts.run_induct (motive := fun evs s => RecordInv j₀ s ∧ s.settled = evs.findSome? verdict)
    ⟨.start hend, rfl⟩ ?_ hr
  intro evs s ev s' _ ⟨h, hv⟩ hs
  refine ⟨h.step hs, ?_⟩
  rw [settled_step h hs, hv, List.findSome?_append]
  simp

/-- **The record of a job when `wait` has returned.** It has left `Running`, with an `ended_at`,
exactly if the exit of the child reached the loop before a read error, a failed send to the
broadcaster and a failure of `child.wait()`. -/
theorem ended_iff_exitSeen {jobId : JobId} {user : User} {pid : Pid} {now : DateTime}
    {evs : List Ev} {s : Tracker}
    (hr : Lts.run step (start (Job.started jobId user pid now)) evs = some s)
    (hret : s.pc = .returned) :
    (s.job.state.isRunning = false ∧ s.job.endedAt.isSome = true) ↔ ExitSeen evs := by
  obtain ⟨h, hv⟩ := settled_run rfl hr
  unfold ExitSeen
  rw [← hv]
  cases hw : s.waited with
  | true =>
    obtain ⟨hx, he⟩ := h.exited hw
    refine ⟨fun _ => by simp [settled, hw], fun _ => ⟨?_, he⟩⟩
    cases hst : s.job.state with
    | running p => rw [hst] at hx; cases hx
    | exited st => rfl
  | false =>
    obtain ⟨hst, he⟩ := h.running hw
    constructor
    · rintro ⟨-, hsome⟩
      rw [he] at hsome
      cases hsome
    · intro hset
      simp [settled, hw, hret, WaitPc.inLoop] at hset

section Runs

/-- A child that writes nothing and exits with code 0. -/
def exitRun (now : DateTime) : List Ev :=
  [.exit (.ok (.exited 0)) now, .output .stdout none, .output .stderr none, .sent true, .setRes]

/-- A read error on stdout while the child is running. -/
def readErrRun : List Ev :=
  [.output .stdout (some (.error (.readOutput .stdout "io"))), .sent true, .setRes]

theorem ended_iff_exitSeen_exitRun :
    ∃ s, Lts.run step (start (Job.started ⟨"job"⟩ ⟨"alice"⟩ ⟨7⟩ ⟨1⟩)) (exitRun ⟨2⟩) = some s ∧
      ((s.job.state.isRunning = false ∧ s.job.endedAt.isSome = true) ↔ ExitSeen (exitRun ⟨2⟩)) :=
  ⟨_, rfl, ended_iff_exitSeen rfl rfl⟩

/-- After a read error `wait` returns and leaves the record `Running`, without an `ended_at`. -/
theorem not_ended_of_readErr :
    ∃ s, Lts.run step (start (Job.started ⟨"job"⟩ ⟨"alice"⟩ ⟨7⟩ ⟨1⟩)) readErrRun = some s ∧
      s.pc = .returned ∧ s.job.state.isRunning = true ∧ s.job.endedAt = none :=
  ⟨_, rfl, rfl, rfl, rfl⟩

end Runs

end Tracker

end JobRunner
