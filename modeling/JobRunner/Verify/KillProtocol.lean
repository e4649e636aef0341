import JobRunner.Verify.TrackerRecord
import Mathlib.Data.List.Perm.Basic

/-!
# The kill protocol of `wait`

A kill request is answered at once if `child.kill()` fails and otherwise retained in `kill_reqs`
until the exit branch answers it. `KillInv` accounts for every request taken from `kill_rx`: it is
in the hands of the kill branch, retained, or answered, and never two of these.
-/

namespace JobRunner

/-! ## Keyed results -/

section Results

variable {κ ε β : Type}

/-- The failures in a list of results, in order. -/
def errs (l : List (κ × Except ε β)) : List (κ × ε) :=
  l.filterMap fun p => match p with
    | (k, .error e) => some (k, e)
    | (_, .ok _) => none

/-- The successes in a list of results, in order. -/
def oks (l : List (κ × Except ε β)) : List (κ × β) :=
  l.filterMap fun p => match p with
    | (_, .error _) => none
    | (k, .ok b) => some (k, b)

@[simp] theorem errs_append (l l' : List (κ × Except ε β)) : errs (l ++ l') = errs l ++ errs l' :=
  List.filterMap_append

@[simp] theorem oks_append (l l' : List (κ × Except ε β)) : oks (l ++ l') = oks l ++ oks l' :=
  List.filterMap_append

@[simp] theorem errs_error (k : κ) (e : ε) : errs [(k, (.error e : Except ε β))] = [(k, e)] := rfl
@[simp] theorem errs_ok (k : κ) (b : β) : errs [(k, (.ok b : Except ε β))] = [] := rfl
@[simp] theorem oks_error (k : κ) (e : ε) : oks [(k, (.error e : Except ε β))] = [] := rfl
@[simp] theorem oks_ok (k : κ) (b : β) : oks [(k, (.ok b : Except ε β))] = [(k, b)] := rfl

theorem errs_map_ok (l : List κ) (b : β) :
    errs (l.map fun k => (k, (.ok b : Except ε β))) = [] := by
  induction l with
  | nil => rfl
  | cons k l ih => simp [errs]

theorem oks_map_ok (l : List κ) (b : β) :
    oks (l.map fun k => (k, (.ok b : Except ε β))) = l.map fun k => (k, b) := by
  induction l with
  | nil => rfl
  | cons k l ih => simp [oks]

theorem mem_oks {l : List (κ × Except ε β)} {k : κ} {b : β} (h : (k, .ok b) ∈ l) :
    (k, b) ∈ oks l :=
  List.mem_filterMap.2 ⟨(k, .ok b), h, rfl⟩

end Results

namespace Tracker

/-! ## What a run has taken and tried -/

/-- The kill requests taken from `kill_rx`, in order. -/
def taken (evs : List Ev) : List KillRequest :=
  evs.filterMap fun ev => match ev with
    | .killReq req => req
    | _ => none

/-- The calls of `child.kill()` that have completed, each with the request it was made for. -/
def attempts (evs : List Ev) : List (KillRequest × Except IoError Unit) :=
  evs.filterMap fun ev => match ev with
    | .killRes req res _ => some (req, res)
    | _ => none

/-- The requests whose `child.kill()` succeeded, in order. -/
def succeeded (evs : List Ev) : List KillRequest :=
  (oks (attempts evs)).map Prod.fst

/-- The request in the hands of the kill branch. -/
def inHand : WaitPc → List KillRequest
  | .killing req => [req]
  | _ => []

@[simp] theorem taken_append (as bs : List Ev) : taken (as ++ bs) = taken as ++ taken bs :=
  List.filterMap_append

@[simp] theorem attempts_append (as bs : List Ev) :
    attempts (as ++ bs) = attempts as ++ attempts bs :=
  List.filterMap_append

theorem succeeded_append (as bs : List Ev) :
    succeeded (as ++ bs) = succeeded as ++ succeeded bs := by
  simp only [succeeded, attempts_append, oks_append, List.map_append]

theorem inHand_loopTop (s : Tracker) : inHand s.loopTop.pc = [] := by
  rcases loopTop_pc s with h | ⟨h, -⟩ <;> rw [h] <;> rfl

/-! ## Events that have nothing to do with kills -/

/-- The events of `wait` that neither call `child.kill()` nor wait for the process. -/
def Plain : Ev → Prop
  | .killReq (some _) => False
  | .killRes .. => False
  | .exit .. => False
  | _ => True

/-- The event takes no request and completes no `child.kill()`, and touches neither the requests
nor the record. -/
structure Framed (ev : Ev) (s s' : Tracker) : Prop where
  taken : taken [ev] = []
  attempts : attempts [ev] = []
  before : inHand s.pc = []
  after : inHand s'.pc = []
  answers : s'.answers = s.answers
  killReqs : s'.killReqs = s.killReqs
  job : s'.job = s.job
  waited : s'.waited = s.waited

theorem Plain.framed {s s' : Tracker} {ev : Ev} (hev : Plain ev) (h : s.step ev = some s') :
    Framed ev s s' := by
  cases ev with
  | output k ev =>
    obtain ⟨hpc, -, rfl⟩ := step_output h
    have hin : inHand s.pc = [] := by rw [hpc]; rfl
    match ev with
    | none => exact ⟨rfl, rfl, hin, inHand_loopTop _, rfl, rfl, rfl, rfl⟩
    | some (.ok frame) => exact ⟨rfl, rfl, hin, rfl, rfl, rfl, rfl, rfl⟩
    | some (.error err) => exact ⟨rfl, rfl, hin, rfl, rfl, rfl, rfl, rfl⟩
  | sent ok =>
    rcases step_sent h with ⟨f, hpc, -, rfl⟩ | ⟨f, hpc, -, rfl⟩ | ⟨hpc, rfl⟩
    · exact ⟨rfl, rfl, by rw [hpc]; rfl, inHand_loopTop _, rfl, rfl, rfl, rfl⟩
    · exact ⟨rfl, rfl, by rw [hpc]; rfl, rfl, rfl, rfl, rfl, rfl⟩
    · exact ⟨rfl, rfl, by rw [hpc]; rfl, rfl, rfl, rfl, rfl, rfl⟩
  | killReq req =>
    cases req with
    | some req => exact hev.elim
    | none =>
      obtain ⟨hpc, -, rfl⟩ := step_killReq h
      exact ⟨rfl, rfl, by rw [hpc]; rfl, inHand_loopTop _, rfl, rfl, rfl, rfl⟩
  | killRes req res now => exact hev.elim
  | exit status now => exact hev.elim
  | setRes =>
    obtain ⟨hpc, rfl⟩ := step_setRes h
    exact ⟨rfl, rfl, by rw [hpc]; rfl, rfl, rfl, rfl, rfl, rfl⟩

/-! ## The invariant -/

/-- Where the requests of a run are. -/
structure KillInv (evs : List Ev) (s : Tracker) : Prop where
  taken_eq : taken evs = (attempts evs).map Prod.fst ++ inHand s.pc
  errs_eq : errs s.answers = errs (attempts evs)
  perm : (s.answers.map Prod.fst ++ s.killReqs).Perm ((attempts evs).map Prod.fst)
  killed_eq : s.job.killed.map JobKilled.user = (succeeded evs).getLast?.map KillRequest.user
  held : s.waited = false → oks s.answers = [] ∧ s.killReqs = succeeded evs
  answered : s.waited = true →
    s.killReqs = [] ∧ oks s.answers = (succeeded evs).map fun req => (req, s.job)

namespace KillInv

variable {evs : List Ev} {s s' : Tracker}

theorem start {j₀ : Job} (h : j₀.killed = none) : KillInv [] (start j₀) where
  taken_eq := rfl
  errs_eq := rfl
  perm := .refl _
  killed_eq := by unfold Tracker.start; rw [h]; rfl
  held := fun _ => ⟨rfl, rfl⟩
  answered := fun hw => by cases hw

theorem frame (h : KillInv evs s) {ev : Ev} (hf : Framed ev s s') :
    KillInv (evs ++ [ev]) s' := by
  have hatt : attempts (evs ++ [ev]) = attempts evs := by simp [hf.attempts]
  have hsucc : succeeded (evs ++ [ev]) = succeeded evs := by simp [succeeded, hf.attempts]
  constructor
  · rw [taken_append, hf.taken, hatt, hf.after, h.taken_eq, hf.before]
    simp
  · rw [hatt, hf.answers, h.errs_eq]
  · rw [hatt, hf.answers, hf.killReqs]
    exact h.perm
  · rw [hsucc, hf.job, h.killed_eq]
  · rw [hsucc, hf.waited, hf.answers, hf.killReqs]
    exact h.held
  · rw [hsucc, hf.waited, hf.answers, hf.killReqs, hf.job]
    exact h.answered

/-- A failed `child.kill()` is answered with its error. -/
theorem fail (h : KillInv evs s) {req : KillRequest} (hpc : s.pc = .killing req) (err : IoError)
    (now : DateTime) :
    KillInv (evs ++ [.killRes req (.error err) now]) (s.onKillRes req now (.error err)) := by
  have hatt : attempts [.killRes req (.error err) now] = [(req, .error err)] := rfl
  have htak : taken [.killRes req (.error err) now] = [] := rfl
  have hsucc : succeeded (evs ++ [.killRes req (.error err) now]) = succeeded evs := by
    simp [succeeded, hatt]
  have hans : (s.onKillRes req now (.error err)).answers = s.answers ++ [(req, .error err)] := rfl
  constructor
  · rw [taken_append, htak, attempts_append, hatt, h.taken_eq, hpc,
      onKillRes, inHand_loopTop]
    simp [inHand]
  · rw [hans, attempts_append, hatt, errs_append, errs_append, h.errs_eq]
    rfl
  · rw [hans, attempts_append, hatt, List.map_append, List.map_append]
    have hswap : (s.answers.map Prod.fst ++ [req] ++ s.killReqs).Perm
        (s.answers.map Prod.fst ++ s.killReqs ++ [req]) := by
      rw [List.append_assoc, List.append_assoc]
      exact List.perm_append_comm.append_left _
    exact hswap.trans (h.perm.append_right _)
  · rw [hsucc]
    exact h.killed_eq
  · rw [hsucc, hans, oks_append, oks_error, List.append_nil]
    exact h.held
  · rw [hsucc, hans, oks_append, oks_error, List.append_nil]
    exact h.answered

/-- A successful `child.kill()` names the killer and retains the request. -/
theorem succeed (h : KillInv evs s) {req : KillRequest} (hpc : s.pc = .killing req)
    (hw : s.waited = false) (u : Unit) (now : DateTime) :
    KillInv (evs ++ [.killRes req (.ok u) now]) (s.onKillRes req now (.ok u)) := by
  have hatt : attempts [.killRes req (.ok u) now] = [(req, .ok u)] := rfl
  have htak : taken [.killRes req (.ok u) now] = [] := rfl
  have hsucc : succeeded (evs ++ [.killRes req (.ok u) now]) = succeeded evs ++ [req] := by
    simp [succeeded, hatt]
  have hreqs : (s.onKillRes req now (.ok u)).killReqs = s.killReqs ++ [req] := rfl
  have hw' : (s.onKillRes req now (.ok u)).waited = false := hw
  constructor
  · rw [taken_append, htak, attempts_append, hatt, h.taken_eq, hpc,
      onKillRes, inHand_loopTop]
    simp [inHand]
  · rw [attempts_append, hatt, errs_append, errs_ok, List.append_nil]
    exact h.errs_eq
  · rw [hreqs, attempts_append, hatt, List.map_append, ← List.append_assoc]
    exact h.perm.append_right _
  · rw [hsucc, List.getLast?_concat]
    rfl
  · intro _
    obtain ⟨hans, hheld⟩ := h.held hw
    rw [hsucc, hreqs, hheld]
    exact ⟨hans, rfl⟩
  · intro hx
    rw [hw'] at hx
    cases hx

/-- The recorded exit answers every retained request with the record. -/
theorem exit (h : KillInv evs s) (hpc : s.pc = .select) (hw : s.waited = false)
    (status : ProcStatus) (now : DateTime) :
    KillInv (evs ++ [.exit (.ok status) now]) (s.onExit now (.ok status)) := by
  have hatt : attempts [.exit (.ok status) now] = [] := rfl
  have htak : taken [.exit (.ok status) now] = [] := rfl
  have hsucc : succeeded (evs ++ [.exit (.ok status) now]) = succeeded evs := by
    simp [succeeded, hatt]
  have hans : (s.onExit now (.ok status)).answers =
      s.answers ++ s.killReqs.map fun req => (req, .ok (s.onExit now (.ok status)).job) := rfl
  have hreqs : (s.onExit now (.ok status)).killReqs = [] := rfl
  constructor
  · rw [taken_append, htak, attempts_append, hatt, h.taken_eq, hpc,
      onExit, inHand_loopTop]
    simp [inHand]
  · rw [hans, attempts_append, hatt, errs_append, errs_map_ok, h.errs_eq]
    simp
  · rw [hans, hreqs, attempts_append, hatt, List.map_append, List.map_map]
    simpa [Function.comp_def] using h.perm
  · rw [hsucc]
    exact h.killed_eq
  · intro hx
    cases hx
  · intro _
    obtain ⟨hnone, hheld⟩ := h.held hw
    rw [hsucc, hans, oks_append, oks_map_ok, hnone, hheld]
    exact ⟨hreqs, rfl⟩

/-- Every step keeps the invariant. -/
theorem step {j₀ : Job} (hj : RecordInv j₀ s) (h : KillInv evs s) {ev : Ev}
    (hs : s.step ev = some s') : KillInv (evs ++ [ev]) s' := by
  cases ev with
  | output k ev => exact h.frame (Plain.framed trivial hs)
  | sent ok => exact h.frame (Plain.framed trivial hs)
  | killReq req =>
    cases req with
    | none => exact h.frame (Plain.framed trivial hs)
    | some req =>
      have hatt : attempts (evs ++ [.killReq (some req)]) = attempts evs := by simp [attempts]
      have hsucc : succeeded (evs ++ [.killReq (some req)]) = succeeded evs := by
        simp [succeeded, hatt]
      obtain ⟨hpc, -, rfl⟩ := step_killReq hs
      have hin : inHand s.pc = [] := by rw [hpc]; rfl
      constructor
      · rw [taken_append, hatt, h.taken_eq, hin, List.append_nil]
        rfl
      · rw [hatt]
        exact h.errs_eq
      · rw [hatt]
        exact h.perm
      · rw [hsucc]
        exact h.killed_eq
      · rw [hsucc]
        exact h.held
      · rw [hsucc]
        exact h.answered
  | killRes req res now =>
    obtain ⟨hpc, hok, rfl⟩ := step_killRes hs
    cases res with
    | error err => exact h.fail hpc err now
    | ok u => exact h.succeed hpc (hok rfl) u now
  | exit status now =>
    obtain ⟨hpc, hc, rfl⟩ := step_exit hs
    cases status with
    | ok st => exact h.exit hpc (hj.not_waited hc) st now
    | error err =>
      have hin : inHand s.pc = [] := by rw [hpc]; rfl
      exact h.frame ⟨rfl, rfl, hin, rfl, rfl, rfl, rfl, rfl⟩
  | setRes => exact h.frame (Plain.framed trivial hs)

theorem run {j₀ : Job} (hend : j₀.endedAt = none) (hk : j₀.killed = none)
    (hr : Lts.run Tracker.step (Tracker.start j₀) evs = some s) : KillInv evs s := by
  have hboth : RecordInv j₀ s ∧ KillInv evs s :=
    Lts.run_induct (motive := fun evs s => RecordInv j₀ s ∧ KillInv evs s)
      ⟨.start hend, .start hk⟩ (fun _ _ _ _ _ ⟨hj, h⟩ hs => ⟨hj.step hs, KillInv.step hj h hs⟩) hr
  exact hboth.2

/-- A request whose kill succeeded has been taken. -/
theorem mem_taken (h : KillInv evs s) {req : KillRequest} (hreq : req ∈ succeeded evs) :
    req ∈ taken evs := by
  obtain ⟨⟨req', u⟩, hok, rfl⟩ := List.mem_map.1 hreq
  obtain ⟨⟨req', res⟩, hatt, heq⟩ := List.mem_filterMap.1 hok
  rw [h.taken_eq]
  apply List.mem_append_left
  cases res with
  | error e => cases heq
  | ok u =>
    cases heq
    exact List.mem_map_of_mem hatt

/-- A job in an answer is the record, and the record of a recorded exit. -/
theorem answer_ok (h : KillInv evs s) {req : KillRequest} {job : Job}
    (hm : (req, .ok job) ∈ s.answers) :
    s.waited = true ∧ req ∈ succeeded evs ∧ job = s.job := by
  have hmem : (req, job) ∈ oks s.answers := mem_oks hm
  have hw : s.waited = true := by
    cases hw : s.waited with
    | true => rfl
    | false =>
      rw [(h.held hw).1] at hmem
      cases hmem
  rw [(h.answered hw).2] at hmem
  obtain ⟨req', hreq, heq⟩ := List.mem_map.1 hmem
  obtain ⟨rfl, rfl⟩ : req' = req ∧ s.job = job := by simpa using heq
  exact ⟨hw, hreq, rfl⟩

end KillInv

/-! ## The protocol -/

/-- **The kill protocol.** In every run of `wait`:

* each request taken from `kill_rx` is answered at most once;
* the requests answered with an error are those whose `child.kill()` failed, with its error;
* a request is answered with a job only once the child's exit is recorded, and that job is the
  record: `Exited`, with an `ended_at`, and killed by the user of the last request whose
  `child.kill()` succeeded;
* if the loop has ended without an error, every request taken has been answered. -/
theorem kill_protocol {jobId : JobId} {user : User} {pid : Pid} {now : DateTime}
    {evs : List Ev} {s : Tracker}
    (hr : Lts.run step (start (Job.started jobId user pid now)) evs = some s) :
    (∀ req, (s.answers.map Prod.fst).count req ≤ (taken evs).count req) ∧
    errs s.answers = errs (attempts evs) ∧
    (∀ req job, (req, .ok job) ∈ s.answers →
      req ∈ succeeded evs ∧
      (∃ status ended, Ev.exit (.ok status) ended ∈ evs ∧
        job.state = .exited (.ofProc status) ∧ job.endedAt = some ended) ∧
      job = s.job ∧
      ∃ last, (succeeded evs).getLast? = some last ∧
        job.killed.map JobKilled.user = some last.user) ∧
    (s.pc.inLoop = false → s.loopErr = none → (s.answers.map Prod.fst).Perm (taken evs)) := by
  have h : KillInv evs s := KillInv.run rfl rfl hr
  obtain ⟨hj, hx⟩ : RecordInv (Job.started jobId user pid now) s ∧ ExitRecorded evs s :=
    exitRecorded_run rfl rfl hr
  refine ⟨fun req => ?_, h.errs_eq, fun req job hm => ?_, fun hout herr => ?_⟩
  · have hle : (s.answers.map Prod.fst).count req ≤
        (s.answers.map Prod.fst ++ s.killReqs).count req := by
      rw [List.count_append]
      omega
    rw [h.perm.count_eq req] at hle
    rw [h.taken_eq, List.count_append]
    omega
  · obtain ⟨hw, hreq, rfl⟩ := h.answer_ok hm
    obtain ⟨status, ended, hev⟩ := hx.seen hw
    obtain ⟨-, hst, he⟩ := hx.recorded status ended hev
    refine ⟨hreq, ⟨status, ended, hev, hst, he⟩, rfl, ?_⟩
    cases hl : (succeeded evs).getLast? with
    | none =>
      rw [List.getLast?_eq_none_iff.1 hl] at hreq
      cases hreq
    | some last => exact ⟨last, rfl, by rw [h.killed_eq, hl]; rfl⟩
  · -- after the loop no request is in hand, and a recorded exit has released the retained ones
    have hw : s.waited = true := hj.waited_of_childOk (hj.ended hout herr).1 herr
    have hin : inHand s.pc = [] := by
      cases hpc : s.pc with
      | killing req => rw [hpc] at hout; cases hout
      | _ => rfl
    have hperm := h.perm
    rw [(h.answered hw).1, List.append_nil] at hperm
    rw [h.taken_eq, hin, List.append_nil]
    exact hperm

/-- Two kills, the second after the exit, with stdout still open. -/
def killRun : List Ev :=
  [.killReq (some ⟨⟨"alice"⟩, 0⟩), .killRes ⟨⟨"alice"⟩, 0⟩ (.ok ()) ⟨2⟩,
    .exit (.ok (.signaled 9)) ⟨3⟩, .killReq (some ⟨⟨"alice"⟩, 1⟩),
    .killRes ⟨⟨"alice"⟩, 1⟩ (.error "invalid argument") ⟨4⟩, .output .stderr none]

/-- The first request is answered with the record of the killed job, the second with an error. -/
theorem kill_protocol_killRun :
    ∃ s job, Lts.run step (start (Job.started ⟨"job"⟩ ⟨"alice"⟩ ⟨7⟩ ⟨1⟩)) killRun = some s ∧
      s.answers = [(⟨⟨"alice"⟩, 0⟩, .ok job), (⟨⟨"alice"⟩, 1⟩, .error "invalid argument")] ∧
      job.state = .exited (.ofProc (.signaled 9)) ∧ job.endedAt = some ⟨3⟩ ∧
      job.killed.map JobKilled.user = some ⟨"alice"⟩ ∧
      errs s.answers = errs (attempts killRun) := by
  obtain ⟨s, job, hr, hanswers⟩ : ∃ s job,
      Lts.run step (start (Job.started ⟨"job"⟩ ⟨"alice"⟩ ⟨7⟩ ⟨1⟩)) killRun = some s ∧
      s.answers = [(⟨⟨"alice"⟩, 0⟩, .ok job), (⟨⟨"alice"⟩, 1⟩, .error "invalid argument")] :=
    ⟨_, _, rfl, rfl⟩
  obtain ⟨-, herrs, hok, -⟩ := kill_protocol hr
  obtain ⟨-, ⟨status, ended, hexit, hstate, hended⟩, -, last, hlast, hkilled⟩ :=
    hok ⟨⟨"alice"⟩, 0⟩ job (by simp [hanswers])
  obtain ⟨rfl, rfl⟩ : status = .signaled 9 ∧ ended = ⟨3⟩ := by simpa [killRun] using hexit
  obtain rfl : ⟨⟨"alice"⟩, 0⟩ = last := Option.some.inj hlast
  exact ⟨s, job, hr, hanswers, hstate, hended, hkilled, herrs⟩

end Tracker

end JobRunner
