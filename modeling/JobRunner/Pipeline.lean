import JobRunner.Output
import JobRunner.Tracker
import JobRunner.Broadcaster
import JobRunner.Grpc

/-!
# One tracked job

`JobTracker::track` and everything it starts: the two reading tasks, the `wait` task, the
broadcaster with its relays, and the `JobTracker::kill` and `FrameBroadcaster::stream` calls made
on the tracker. The parts meet at their channels, and a step of the whole is one step of one task
(with the channel operation it completes), of the child, or of a caller.
-/

namespace JobRunner

open Mpsc

/-- A `JobTracker::kill` call: in `tx.send(req).await`, waiting for its oneshot a second at most,
done, or dropped by its caller. -/
inductive KillCall where
  | absent
  | sending (user : User)
  | waiting
  | done (res : Except KillError Job)
  | dropped

/-- A tracked job. `killCh` counts the one `kill_tx` of `JobTrackerInner`, which the `self` of
`wait` keeps alive for as long as `wait` runs; the clones in `kill` calls come on top. -/
structure Pipeline where
  output : StreamKind → Output
  trk : Tracker
  killCh : Chan KillRequest
  kills : Nat → KillCall
  bc : Broadcaster

namespace Pipeline

/-- `JobTracker::track`. -/
def start (job : Job) : Pipeline :=
  { output := Output.start, trk := Tracker.start job, killCh := Chan.new 1
    kills := fun _ => .absent, bc := Broadcaster.start }

/-- The steps of a `kill` call. -/
inductive KillAct where
  | call (user : User)
  | send
  | recv
  | timeout
  | drop
  deriving DecidableEq

inductive Act where
  | output (k : StreamKind) (a : Output.Act)
  | recvOutput (k : StreamKind)
  | send
  | recvKill
  | killRes (res : Except IoError Unit) (now : DateTime)
  | exit (status : Except IoError ProcStatus) (now : DateTime)
  | setRes
  | kill (c : Nat) (a : KillAct)
  | bcast (a : Broadcaster.Act)

/-- What the oneshot channel of kill request `tx` holds: an answer, nothing yet, or nothing for
ever, since a request that is neither answered nor waiting for one was dropped with `wait`. -/
def oneshot (s : Pipeline) (tx : Nat) : Option (Except KillError Job) :=
  match s.trk.answers.find? fun answer => answer.1.tx == tx with
  | some (_, .ok job) => some (.ok job)
  | some (_, .error err) => some (.error (.failed err))
  | none => if s.trk.pc = .returned then some (.error .txDropped) else none

/-- `JobTracker::kill`. The call `c` owns the oneshot channel `c`. -/
def stepKill (s : Pipeline) (c : Nat) : KillAct → Option Pipeline
  | .call user =>
    match s.kills c with
    | .absent => some { s with kills := Function.update s.kills c (.sending user) }
    | _ => none
  | .send =>
    match s.kills c with
    | .sending user =>
      match s.killCh.send { user, tx := c } with
      | none => none
      | some (true, ch) =>
        some { s with killCh := ch, kills := Function.update s.kills c .waiting }
      | some (false, _) =>
        some { s with kills := Function.update s.kills c (.done (.error .reqSendFailed)) }
    | _ => none
  | .recv =>
    match s.kills c, s.oneshot c with
    | .waiting, some res => some { s with kills := Function.update s.kills c (.done res) }
    | _, _ => none
  | .timeout =>
    match s.kills c with
    | .waiting => some { s with kills := Function.update s.kills c (.done (.error .reqTimeout)) }
    | _ => none
  | .drop =>
    match s.kills c with
    | .sending _ => some { s with kills := Function.update s.kills c .dropped }
    | .waiting => some { s with kills := Function.update s.kills c .dropped }
    | _ => none

/-- `wait` returns: its receivers and its `frame_tx` are dropped. -/
def release (s : Pipeline) (trk : Tracker) : Pipeline :=
  { s with
    output := fun k => (s.output k).dropRx
    trk
    killCh := s.killCh.dropRx
    bc := { s.bc with frameCh := s.bc.frameCh.dropTx } }

def step (s : Pipeline) : Act → Option Pipeline
  | .output k a => do
    let o ← (s.output k).step a
    some { s with output := Function.update s.output k o }
  | .recvOutput k => do
    let (ev, o) ← (s.output k).recv
    let trk ← s.trk.step (.output k ev)
    some { s with output := Function.update s.output k o, trk }
  | .send => do
    let ev ← s.trk.outgoing
    let (ok, ch) ← s.bc.frameCh.send ev
    let trk ← s.trk.step (.sent ok)
    some { s with trk, bc := { s.bc with frameCh := ch } }
  | .recvKill => do
    let (req, ch) ← s.killCh.recv
    let trk ← s.trk.step (.killReq req)
    some { s with trk, killCh := ch }
  | .killRes res now =>
    match s.trk.pc with
    | .killing req => do
      let trk ← s.trk.step (.killRes req res now)
      some { s with trk }
    | _ => none
  | .exit status now => do
    let trk ← s.trk.step (.exit status now)
    some { s with trk }
  | .setRes => do
    let trk ← s.trk.step .setRes
    some (s.release trk)
  | .kill c a => s.stepKill c a
  | .bcast a => do
    let bc ← s.bc.step a
    some { s with bc }

/-! ## What a step does -/

section Steps

variable {s s' : Pipeline}

theorem step_output {k : StreamKind} {a : Output.Act} (h : s.step (.output k a) = some s') :
    ∃ o, (s.output k).step a = some o ∧
      s' = { s with output := Function.update s.output k o } := by
  simp only [step, Option.bind_eq_bind, Option.bind_eq_some_iff, Option.some.injEq] at h
  obtain ⟨o, ho, rfl⟩ := h
  exact ⟨o, ho, rfl⟩

theorem step_recvOutput {k : StreamKind} (h : s.step (.recvOutput k) = some s') :
    ∃ ev o trk, (s.output k).recv = some (ev, o) ∧ s.trk.step (.output k ev) = some trk ∧
      s' = { s with output := Function.update s.output k o, trk } := by
  simp only [step, Option.bind_eq_bind, Option.bind_eq_some_iff, Option.some.injEq] at h
  obtain ⟨⟨ev, o⟩, ho, trk, ht, rfl⟩ := h
  exact ⟨ev, o, trk, ho, ht, rfl⟩

theorem step_send (h : s.step .send = some s') :
    ∃ ev ok ch trk, s.trk.outgoing = some ev ∧ s.bc.frameCh.send ev = some (ok, ch) ∧
      s.trk.step (.sent ok) = some trk ∧
      s' = { s with trk, bc := { s.bc with frameCh := ch } } := by
  simp only [step, Option.bind_eq_bind, Option.bind_eq_some_iff, Option.some.injEq] at h
  obtain ⟨ev, hev, ⟨ok, ch⟩, hch, trk, ht, rfl⟩ := h
  exact ⟨ev, ok, ch, trk, hev, hch, ht, rfl⟩

theorem step_recvKill (h : s.step .recvKill = some s') :
    ∃ req ch trk, s.killCh.recv = some (req, ch) ∧ s.trk.step (.killReq req) = some trk ∧
      s' = { s with trk, killCh := ch } := by
  simp only [step, Option.bind_eq_bind, Option.bind_eq_some_iff, Option.some.injEq] at h
  obtain ⟨⟨req, ch⟩, hch, trk, ht, rfl⟩ := h
  exact ⟨req, ch, trk, hch, ht, rfl⟩

theorem step_killRes {res : Except IoError Unit} {now : DateTime}
    (h : s.step (.killRes res now) = some s') :
    ∃ req trk, s.trk.pc = .killing req ∧ s.trk.step (.killRes req res now) = some trk ∧
      s' = { s with trk } := by
  simp only [step] at h
  split at h
  · next req hpc =>
    simp only [Option.bind_eq_bind, Option.bind_eq_some_iff, Option.some.injEq] at h
    obtain ⟨trk, ht, rfl⟩ := h
    exact ⟨req, trk, hpc, ht, rfl⟩
  · cases h

theorem step_exit {status : Except IoError ProcStatus} {now : DateTime}
    (h : s.step (.exit status now) = some s') :
    ∃ trk, s.trk.step (.exit status now) = some trk ∧ s' = { s with trk } := by
  simp only [step, Option.bind_eq_bind, Option.bind_eq_some_iff, Option.some.injEq] at h
  obtain ⟨trk, ht, rfl⟩ := h
  exact ⟨trk, ht, rfl⟩

theorem step_setRes (h : s.step .setRes = some s') :
    ∃ trk, s.trk.step .setRes = some trk ∧ s' = s.release trk := by
  simp only [step, Option.bind_eq_bind, Option.bind_eq_some_iff, Option.some.injEq] at h
  obtain ⟨trk, ht, rfl⟩ := h
  exact ⟨trk, ht, rfl⟩

theorem step_bcast {a : Broadcaster.Act} (h : s.step (.bcast a) = some s') :
    ∃ bc, s.bc.step a = some bc ∧ s' = { s with bc } := by
  simp only [step, Option.bind_eq_bind, Option.bind_eq_some_iff, Option.some.injEq] at h
  obtain ⟨bc, hb, rfl⟩ := h
  exact ⟨bc, hb, rfl⟩

/-- Only its own steps move a `kill` call. -/
theorem kills_of_other {a : Act} (h : s.step a = some s') (ha : ∀ c b, a ≠ .kill c b) :
    s'.kills = s.kills := by
  cases a with
  | output k a =>
    obtain ⟨o, -, rfl⟩ := step_output h
    rfl
  | recvOutput k =>
    obtain ⟨ev, o, trk, -, -, rfl⟩ := step_recvOutput h
    rfl
  | send =>
    obtain ⟨ev, ok, ch, trk, -, -, -, rfl⟩ := step_send h
    rfl
  | recvKill =>
    obtain ⟨req, ch, trk, -, -, rfl⟩ := step_recvKill h
    rfl
  | killRes res now =>
    obtain ⟨req, trk, -, -, rfl⟩ := step_killRes h
    rfl
  | exit status now =>
    obtain ⟨trk, -, rfl⟩ := step_exit h
    rfl
  | setRes =>
    obtain ⟨trk, -, rfl⟩ := step_setRes h
    rfl
  | kill c b => exact (ha c b rfl).elim
  | bcast a =>
    obtain ⟨bc, -, rfl⟩ := step_bcast h
    rfl

/-- A step is one of a `kill` call, or it moves none of them. -/
theorem kill_or_other {a : Act} (h : s.step a = some s') :
    (∃ c b, a = .kill c b) ∨ ((∀ c b, a ≠ .kill c b) ∧ s'.kills = s.kills) := by
  by_cases hother : ∀ c b, a ≠ .kill c b
  · exact .inr ⟨hother, kills_of_other h hother⟩
  · simp only [not_forall, not_not] at hother
    exact .inl hother

/-- A `kill` call moves only itself and the kill channel, and is done with a job only if its
oneshot channel held it. -/
theorem step_kill {c : Nat} {a : KillAct} (h : s.step (.kill c a) = some s') :
    ∃ call ch, s' = { s with killCh := ch, kills := Function.update s.kills c call } ∧
      ∀ job, call = .done (.ok job) → s.oneshot c = some (.ok job) := by
  simp only [step] at h
  cases a with
  | call user =>
    simp only [stepKill] at h
    split at h
    · exact ⟨_, s.killCh, by simpa using h.symm, by simp⟩
    · cases h
  | send =>
    simp only [stepKill] at h
    split at h
    · split at h
      · cases h
      · next ch hs => exact ⟨_, ch, by simpa using h.symm, by simp⟩
      · exact ⟨_, s.killCh, by simpa using h.symm, by simp⟩
    · cases h
  | recv =>
    simp only [stepKill] at h
    split at h
    · next res _ hres =>
      refine ⟨_, s.killCh, by simpa using h.symm, fun job hjob => ?_⟩
      rw [hres, KillCall.done.inj hjob]
    · cases h
  | timeout =>
    simp only [stepKill] at h
    split at h
    · exact ⟨_, s.killCh, by simpa using h.symm, by simp⟩
    · cases h
  | drop =>
    simp only [stepKill] at h
    split at h
    · exact ⟨_, s.killCh, by simpa using h.symm, by simp⟩
    · exact ⟨_, s.killCh, by simpa using h.symm, by simp⟩
    · cases h

end Steps

end Pipeline

end JobRunner
