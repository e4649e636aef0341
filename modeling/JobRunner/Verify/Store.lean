import JobRunner.Verify.Awaited
import JobRunner.Verify.LogStreams
import JobRunner.Verify.Killers

/-!
# The coordinator is a job store

`Coord.abs` forgets the tasks and channels of a coordinator and keeps its records, its logs, the
kill calls made on its jobs and the answers it has given. Every run of the coordinator is a run of
the abstract store between the images of its states (`Coord.refines`), with the events that its
labels stand for. So each answer is true at one moment of its call, and the rules of the store hold
of what clients see.
-/

namespace JobRunner

open Lts Mpsc Store

/-! ## The image of a state -/

/-- What the client of a forwarder knows of the log. -/
def Forwarder.reader (f : Forwarder) : JournalReader FrameResult :=
  { got := f.got, closed := f.ended }

namespace Tracked

def entry (t : Tracked) : Entry :=
  { job := t.job, listed := t.registered, asked := t.served.pl.asked
    log :=
      { entries := t.served.pl.bc.sent
        readers := fun i => (t.served.fwds i).map Forwarder.reader } }

/-- What a step of a job's own parts is for its owner. -/
def events (t : Tracked) : Served.Act → List EntryAct
  | .pipe .send =>
    match t.served.pl.trk.outgoing with
    | some ev => [.write ev]
    | none => []
  | .pipe (.exit (.ok status) now) => [.exit (.ofProc status) now]
  | .pipe (.killRes (.ok _) now) =>
    match t.served.pl.trk.pc with
    | .killing req => [.kill req.tx now]
    | _ => []
  | .fwd i .clientRecv =>
    match t.served.fwds i with
    | some f =>
      match f.ch.queue with
      | item :: _ => [.deliver i item]
      | [] => [.close i]
    | none => []
  | _ => []

end Tracked

/-- The answer of a call that has one. -/
def Call.answer (call : Call) : Option (User × Answer) :=
  match call.pc with
  | .rejected st => some (call.user, .rejected st)
  | .done res => some (call.user, .done res)
  | .spawning _ => none
  | .waiting _ _ => none
  | .cancelled => none

namespace Coord

def abs (s : Coord) : Store :=
  { entries := fun j => (s.tracked j).map Tracked.entry
    answers := fun c => (s.calls c).bind Call.answer }

/-- The answer that call `c` has got to its query by now, as an event. -/
def answered (s : Coord) (c : Nat) (q : Query) : List Store.Act :=
  match (s.calls c).bind Call.answer with
  | some (user, a) => [.answer c user q a]
  | none => []

/-- What the step from `s` to `s'` is for the clients. -/
def events (s : Coord) (a : Act) (s' : Coord) : List Store.Act :=
  match a with
  | .spawn c _ name _ =>
    match s'.calls c with
    | some { pc := .spawning job, .. } => [.start job]
    | _ => s'.answered c (.spawn name)
  | .call c user op j =>
    match s'.calls c with
    | some { pc := .waiting .kill _, .. } => [.ask c user j]
    | _ => s'.answered c (.job op j)
  | .insert c =>
    match s.calls c with
    | some { pc := .spawning job, .. } => [.list c job]
    | _ => []
  | .reply c | .timeout c | .cancel c =>
    match s.calls c with
    | some { pc := .waiting op j, .. } => s'.answered c (.job op j)
    | _ => []
  | .task j b =>
    match s.tracked j with
    | some t => (t.events b).map (.job j)
    | none => []

end Coord

/-! ## A job -/

namespace Served

theorem readers_setFwd (s : Served) (i : SubId) (f : Forwarder) :
    (fun i' => ((s.setFwd i f).fwds i').map Forwarder.reader) =
      Function.update (fun i' => (s.fwds i').map Forwarder.reader) i (some f.reader) := by
  funext i'
  by_cases h : i' = i
  · subst h
    simp [setFwd]
  · simp [setFwd, h]

/-- Nothing new for the client of a forwarder. -/
theorem readers_setFwd_same {s : Served} {i : SubId} {f f' : Forwarder} (hf : s.fwds i = some f)
    (h : f'.reader = f.reader) :
    (fun i' => ((s.setFwd i f').fwds i').map Forwarder.reader) =
      fun i' => (s.fwds i').map Forwarder.reader := by
  rw [readers_setFwd, h]
  apply Function.update_eq_self_iff.2
  rw [hf]
  rfl

end Served

namespace Tracked

section Entries

variable {t t' : Tracked} {j : JobId}

/-- The image depends on five parts of a job. -/
theorem entry_eq (hjob : t'.served.pl.trk.job = t.served.pl.trk.job)
    (hreg : t'.registered = t.registered) (hasked : t'.served.pl.asked = t.served.pl.asked)
    (hsent : t'.served.pl.bc.sent = t.served.pl.bc.sent)
    (hread : (fun i => (t'.served.fwds i).map Forwarder.reader) =
      fun i => (t.served.fwds i).map Forwarder.reader) : t'.entry = t.entry := by
  simp only [entry, job, hjob, hreg, hasked, hsent, hread]

/-- A step of the pipeline that leaves the record and what was sent alone. -/
theorem entry_pipe {pl : Pipeline} (hjob : pl.trk.job = t.served.pl.trk.job)
    (hasked : pl.asked = t.served.pl.asked) (hsent : pl.bc.sent = t.served.pl.bc.sent) :
    entry { t with served := { t.served with pl } } = t.entry :=
  entry_eq hjob rfl hasked hsent rfl

/-- A job of its own, with all that is known of it. -/
theorem Of.parts (h : t.Of j) : ∃ user pid now acts,
    Served.Inv (Job.started j user pid now) t.served ∧ t.served.Exact ∧
    Pipeline.Good (Job.started j user pid now) acts t.served.pl ∧
    Reachable Pipeline.step (Pipeline.start (Job.started j user pid now)) t.served.pl := by
  obtain ⟨user, pid, now, hr⟩ := h
  obtain ⟨hi, hex⟩ := Served.Exact.reachable rfl hr
  obtain ⟨acts, hg⟩ := hi.good
  have h₀ : Served.Inv (Job.started j user pid now) (Served.start (Job.started j user pid now)) :=
    .start rfl
  exact ⟨user, pid, now, acts, hi, hex, hg, (h₀.reachable hr).2⟩

/-- A job that is not waited for is running. -/
theorem running_of_not_waited {user : User} {pid : Pid} {now : DateTime} {acts : List Pipeline.Act}
    (hg : Pipeline.Good (Job.started j user pid now) acts t.served.pl)
    (hw : t.served.pl.trk.waited = false) : t.entry.job.state.isRunning = true := by
  have hstate : t.served.pl.trk.job.state = .running pid := (hg.inv.record.running hw).1
  have hentry : t.entry.job.state = t.served.pl.trk.job.state := rfl
  rw [hentry, hstate]
  rfl

theorem entry_send (h : t.Of j) (hs : t.serve (.pipe .send) = some t') :
    run Entry.step t.entry (t.events (.pipe .send)) = some t'.entry := by
  obtain ⟨user, pid, now, acts, hi, -, hg, -⟩ := h.parts
  obtain ⟨served, hserved, rfl⟩ := Option.map_eq_some_iff.1 hs
  obtain ⟨-, pl, hpl, rfl⟩ := Served.step_pipe hserved
  obtain ⟨ev, trk, hev, ht, -, -, -, rfl⟩ := hg.inv.send_cases hpl
  have hopen : logFormat.complete t.served.pl.bc.sent = false := by
    apply Bool.eq_false_iff.2
    intro hc
    rcases (Served.complete_sent_iff hg.terminal).1 hc with hpc | hpc
    · simp [Tracker.outgoing, hpc] at hev
    · simp [Tracker.outgoing, hpc] at hev
  have hexit : ¬(ev = .eof ∧ t.entry.job.state.isRunning = true) := by
    rintro ⟨rfl, hrun⟩
    have hx : t.entry.job.state.isExited = true :=
      Pipeline.exited_of_eof rfl hg.inv hg.terminal (.inr hev)
    rw [Tracker.not_exited_of_running hrun] at hx
    cases hx
  have hplain : Tracker.Plain (.sent true) := trivial
  have hjob : trk.job = t.served.pl.trk.job := (hplain.framed ht).job
  have happend : t.entry.log.step logFormat (.append ev) =
      some { t.entry.log with entries := t.served.pl.bc.sent ++ [ev] } := by
    simp [Journal.step, entry, hopen]
  have hsent : t.served.pl.bc.sent ++ [ev] =
      Broadcaster.sent { t.served.pl.bc with frameCh := t.served.pl.bc.frameCh.push ev } := by
    simp [Broadcaster.sent]
  rw [events, hev, run_single, Entry.step, if_neg hexit, Entry.logStep, happend, hsent]
  simp only [Option.map_some, entry, job, hjob]
  rfl

theorem entry_exit (h : t.Of j) {status : ProcStatus} {now : DateTime}
    (hs : t.serve (.pipe (.exit (.ok status) now)) = some t') :
    run Entry.step t.entry [.exit (.ofProc status) now] = some t'.entry := by
  obtain ⟨user, pid, now₀, acts, hi, -, hg, -⟩ := h.parts
  obtain ⟨served, hserved, rfl⟩ := Option.map_eq_some_iff.1 hs
  obtain ⟨-, pl, hpl, rfl⟩ := Served.step_pipe hserved
  obtain ⟨trk, ht, rfl⟩ := Pipeline.step_exit hpl
  obtain ⟨-, hchild, rfl⟩ := Tracker.step_exit ht
  have hrun := running_of_not_waited hg (hg.inv.record.not_waited hchild)
  rw [run_single, Entry.step, if_pos hrun]
  rfl

theorem entry_killed (h : t.Of j) (hk : t.served.pl.KilledBy t.job.user) {u : Unit}
    {now : DateTime} (hs : t.serve (.pipe (.killRes (.ok u) now)) = some t') :
    run Entry.step t.entry (t.events (.pipe (.killRes (.ok u) now))) = some t'.entry := by
  obtain ⟨user, pid, now₀, acts, hi, -, hg, -⟩ := h.parts
  obtain ⟨served, hserved, rfl⟩ := Option.map_eq_some_iff.1 hs
  obtain ⟨-, pl, hpl, rfl⟩ := Served.step_pipe hserved
  obtain ⟨req, trk, hpc, ht, rfl⟩ := Pipeline.step_killRes hpl
  obtain ⟨-, hw, rfl⟩ := Tracker.step_killRes ht
  have hrun := running_of_not_waited hg (hw rfl)
  obtain ⟨howner, hasked⟩ := hk.inHand req (by rw [hpc]; exact List.mem_singleton_self _)
  rw [events, hpc, run_single, Entry.step, if_pos ⟨hrun, hasked⟩]
  simp only [entry, job, Tracker.onKillRes, Tracker.loopTop, howner]
  rfl

theorem entry_clientRecv (h : t.Of j) {i : SubId} (hs : t.serve (.fwd i .clientRecv) = some t') :
    run Entry.step t.entry (t.events (.fwd i .clientRecv)) = some t'.entry := by
  obtain ⟨user, pid, now, acts, hi, hex, -, -⟩ := h.parts
  obtain ⟨served, hserved, rfl⟩ := Option.map_eq_some_iff.1 hs
  have hi' := (hi.step hserved).1
  have hex' := hex.step hi hserved
  obtain ⟨r, f, hr, hf, hfwd⟩ := Served.step_fwd hserved
  obtain ⟨r₀, -, hinv⟩ := hi.fwd i f hf
  obtain ⟨f', hf', rfl⟩ := Option.map_eq_some_iff.1 hfwd
  have hself : (t.served.setFwd i f').fwds i = some f' := by simp [Served.setFwd]
  obtain ⟨hpart, hwhole⟩ := Served.items_of_exact hi' hex' hself
  have hreader : t.entry.log.readers i = some f.reader := by simp [entry, hf]
  -- the image of the step is the new reader in the journal
  have himage : entry { t with served := t.served.setFwd i f' } =
      { t.entry with log := t.entry.log.setReader i f'.reader } := by
    simp only [entry, Journal.setReader, Served.readers_setFwd]
    rfl
  simp only [Forwarder.clientRecv, Option.ite_none_right_eq_some] at hf'
  obtain ⟨ho, hf'⟩ := hf'
  cases hq : f.ch.queue with
  | cons item q =>
    obtain rfl : { f with ch := { f.ch with queue := q }, got := f.got ++ [item] } = f' := by
      simpa [Chan.recv, hq] using hf'
    have hopen : f.ended = false := by
      apply Bool.eq_false_iff.2
      intro hend
      rw [(hinv.final hend).2.1] at hq
      cases hq
    have hdeliver : t.entry.log.step logFormat (.deliver i item) =
        some (t.entry.log.setReader i { got := f.got ++ [item], closed := f.ended }) := by
      rw [Journal.step, hreader]
      exact if_pos ⟨hopen, hpart⟩
    rw [himage, events, hf]
    simp only [hq, run_single, Entry.step, Entry.logStep, hdeliver]
    rfl
  | nil =>
    obtain ⟨hz, rfl⟩ : f.ch.senders = 0 ∧ { f with ended := true } = f' := by
      by_cases hz : f.ch.senders = 0
      · exact ⟨hz, by simpa [Chan.recv, hq, hz] using hf'⟩
      · simp [Chan.recv, hq, hz] at hf'
    have hclose : t.entry.log.step logFormat (.close i) =
        some (t.entry.log.setReader i { got := f.got, closed := true }) := by
      rw [Journal.step, hreader]
      exact if_pos (hwhole rfl)
    rw [himage, events, hf]
    simp only [hq, run_single, Entry.step, Entry.logStep, hclose]
    rfl

/-- A step of the pipeline that is nothing to the owner. -/
theorem entry_quiet (h : t.Of j) {a : Pipeline.Act} (hs : t.serve (.pipe a) = some t')
    (hcall : ∀ c u, a ≠ .kill c (.call u)) (hsend : a ≠ .send)
    (hkill : ∀ u now, a ≠ .killRes (.ok u) now)
    (hexit : ∀ status now, a ≠ .exit (.ok status) now) : t'.entry = t.entry := by
  obtain ⟨user, pid, now₀, acts, hi, -, hg, -⟩ := h.parts
  obtain ⟨served, hserved, rfl⟩ := Option.map_eq_some_iff.1 hs
  obtain ⟨-, pl, hpl, rfl⟩ := Served.step_pipe hserved
  cases a with
  | output k a =>
    obtain ⟨o, -, rfl⟩ := Pipeline.step_output hpl
    exact entry_pipe rfl rfl rfl
  | recvOutput k =>
    obtain ⟨ev, o, trk, -, ht, rfl⟩ := Pipeline.step_recvOutput hpl
    have hplain : Tracker.Plain (.output k ev) := trivial
    exact entry_pipe (hplain.framed ht).job rfl rfl
  | send => exact absurd rfl hsend
  | recvKill =>
    obtain ⟨req, ch, trk, -, ht, rfl⟩ := Pipeline.step_recvKill hpl
    obtain ⟨-, -, rfl⟩ := Tracker.step_killReq ht
    cases req with
    | none => exact entry_pipe rfl rfl rfl
    | some req => exact entry_pipe rfl rfl rfl
  | killRes res now =>
    obtain ⟨req, trk, -, ht, rfl⟩ := Pipeline.step_killRes hpl
    obtain ⟨-, -, rfl⟩ := Tracker.step_killRes ht
    cases res with
    | error err => exact entry_pipe rfl rfl rfl
    | ok u => exact absurd rfl (hkill u now)
  | exit status now =>
    obtain ⟨trk, ht, rfl⟩ := Pipeline.step_exit hpl
    obtain ⟨-, -, rfl⟩ := Tracker.step_exit ht
    cases status with
    | error err => exact entry_pipe rfl rfl rfl
    | ok status => exact absurd rfl (hexit status now)
  | setRes =>
    obtain ⟨trk, ht, rfl⟩ := Pipeline.step_setRes hpl
    have hplain : Tracker.Plain .setRes := trivial
    exact entry_pipe (hplain.framed ht).job rfl rfl
  | kill c a =>
    have hasked := (Pipeline.asked_of_kill hpl).2 fun u he => hcall c u (by rw [he])
    obtain ⟨call, ch, rfl, -⟩ := Pipeline.step_kill hpl
    exact entry_pipe rfl hasked rfl
  | bcast a =>
    obtain ⟨bc, hb, rfl⟩ := Pipeline.step_bcast hpl
    exact entry_pipe rfl rfl (Broadcaster.source_of_act hg.inv.bc hb).1

/-- A forwarder's task does nothing its client sees. -/
theorem entry_fwd {i : SubId} {a : Forwarder.Act} (ha : a ≠ .clientRecv)
    (hs : t.serve (.fwd i a) = some t') : t'.entry = t.entry := by
  obtain ⟨served, hserved, rfl⟩ := Option.map_eq_some_iff.1 hs
  obtain ⟨r, f, hr, hf, hfwd⟩ := Served.step_fwd hserved
  have same : ∀ {r' : Relay} {f' : Forwarder}, f'.reader = f.reader →
      entry { t with served := (t.served.setRelay i r').setFwd i f' } = t.entry := by
    intro r' f' he
    exact entry_eq rfl rfl rfl rfl (Served.readers_setFwd_same (s := t.served.setRelay i r') hf he)
  cases a with
  | recv =>
    obtain ⟨-, -, ⟨ev, q, -, -, rfl⟩ | ⟨q, -, rfl⟩ | ⟨-, -, rfl⟩⟩ := Served.stepFwd_recv hfwd
    · exact same rfl
    · exact same rfl
    · exact same rfl
  | send =>
    obtain ⟨item, last, -, ⟨-, -, rfl⟩ | ⟨-, -, rfl⟩ | ⟨-, rfl⟩⟩ := Served.stepFwd_send hfwd
    · exact entry_eq rfl rfl rfl rfl (Served.readers_setFwd_same hf rfl)
    · exact same rfl
    · exact same rfl
  | clientRecv => exact absurd rfl ha
  | clientDrop =>
    obtain ⟨f', hf', rfl⟩ := Option.map_eq_some_iff.1 hfwd
    simp only [Forwarder.clientDrop, Option.ite_none_right_eq_some, Option.some.injEq] at hf'
    obtain ⟨-, rfl⟩ := hf'
    exact entry_eq rfl rfl rfl rfl (Served.readers_setFwd_same hf rfl)

/-- The parts of a job do for its owner what their events say. -/
theorem entry_task (h : t.Of j) (hk : t.served.pl.KilledBy t.job.user) {b : Served.Act}
    (hint : t.internal b = true) (hs : t.serve b = some t') :
    run Entry.step t.entry (t.events b) = some t'.entry := by
  have stay : ∀ {u : Tracked}, u.entry = t.entry → run Entry.step t.entry [] = some u.entry :=
    fun he => congrArg some he.symm
  cases b with
  | pipe a =>
    cases a with
    | send => exact entry_send h hs
    | exit status now =>
      cases status with
      | ok status => exact entry_exit h hs
      | error err => exact stay (entry_quiet h hs (by simp) (by simp) (by simp) (by simp))
    | killRes res now =>
      cases res with
      | ok u => exact entry_killed h hk hs
      | error err => exact stay (entry_quiet h hs (by simp) (by simp) (by simp) (by simp))
    | kill c a =>
      refine stay (entry_quiet h hs (fun c' u he => ?_) (by simp) (by simp) (by simp))
      rw [he] at hint
      cases hint
    | _ => exact stay (entry_quiet h hs (by simp) (by simp) (by simp) (by simp))
  | openLogs i => cases hint
  | abandon i => cases hint
  | fwd i a =>
    cases a with
    | clientRecv => exact entry_clientRecv h hs
    | _ => exact stay (entry_fwd (by simp) hs)

end Entries

end Tracked

/-! ## Answers -/

namespace Pipeline

variable {p p' : Pipeline} {jobId : JobId} {user : User} {pid : Pid} {now : DateTime} {c : Nat}

/-- A `kill` call is done with a record that says so. -/
theorem kill_done_killed
    (hr : Reachable step (start (Job.started jobId user pid now)) p) {job : Job}
    (hk : p.kills c = .done (.ok job)) : job.killed.isSome = true := by
  refine (hr.invariant
    (I := fun p => Reachable step (start (Job.started jobId user pid now)) p ∧
      ∀ c job, p.kills c = .done (.ok job) → job.killed.isSome = true)
    ⟨.refl _, fun c job hk => by cases hk⟩ ?_).2 c job hk
  rintro p a p' ⟨hr, hp⟩ hs
  refine ⟨hr.tail hs, fun c job hk => ?_⟩
  rcases kills_of_step hs hk with hold | ⟨-, hone⟩
  · exact hp c job hold
  · obtain ⟨req, hm⟩ := oneshot_ok hone
    obtain ⟨evs, hevs⟩ := reachable_trk hr
    have hkill := Tracker.KillInv.run rfl rfl hevs
    obtain ⟨-, hreq, rfl⟩ := hkill.answer_ok hm
    -- the last request that succeeded is in the record
    have hlast : ((Tracker.succeeded evs).getLast?.map KillRequest.user).isSome = true := by
      cases hq : (Tracker.succeeded evs).getLast? with
      | none =>
        rw [List.getLast?_eq_none_iff.1 hq] at hreq
        cases hreq
      | some last => rfl
    rw [← hkill.killed_eq, Option.isSome_map] at hlast
    exact hlast

/-- `wait` has nothing to do any more. -/
theorem returned_of_step {a : Act} (hs : p.step a = some p') (h : p.trk.pc = .returned) :
    p'.trk.pc = .returned := by
  obtain ⟨evs, hevs, -⟩ := events_of_step hs
  cases evs with
  | nil =>
    obtain he : p.trk = p'.trk := by simpa using hevs
    rw [← he, h]
  | cons ev evs =>
    obtain ⟨trk, ht, -⟩ := run_cons_iff.1 hevs
    cases ev <;> simp [Tracker.step, h] at ht

/-- A request is dropped without an answer only when `wait` has returned. -/
theorem returned_of_txDropped
    (hr : Reachable step (start (Job.started jobId user pid now)) p)
    (hk : p.kills c = .done (.error .txDropped)) : p.trk.pc = .returned := by
  refine hr.invariant
    (I := fun p => p.kills c = .done (.error .txDropped) → p.trk.pc = .returned)
    (fun h => by cases h) ?_ hk
  intro p a p' hp hs hk
  rcases kill_or_other hs with ⟨c', b, rfl⟩ | ⟨-, hkills⟩
  · have new : ∀ {call : KillCall} {p' : Pipeline},
        p'.kills = Function.update p.kills c' call → p'.kills c = .done (.error .txDropped) →
        (call = .done (.error .txDropped) → p.trk.pc = .returned) → p.trk.pc = .returned := by
      intro call p' hkills hk hcall
      rw [hkills] at hk
      by_cases hc : c = c'
      · rw [hc, Function.update_self] at hk
        exact hcall hk
      · rw [Function.update_of_ne hc] at hk
        exact hp hk
    cases killStep_of hs with
    | recv _ hone =>
      refine new rfl hk fun he => ?_
      rw [KillCall.done.inj he] at hone
      unfold oneshot at hone
      split at hone
      · cases hone
      · cases hone
      · split at hone
        · next hret => exact hret
        · cases hone
    | _ => exact new rfl hk nofun
  · rw [hkills] at hk
    exact returned_of_step hs (hp hk)

/-- A request is refused only when `wait` has returned. -/
theorem returned_of_sendFailed
    (hr : Reachable step (start (Job.started jobId user pid now)) p) (hf : p.SendFailed c) :
    p.trk.pc = .returned := by
  refine (hr.invariant
    (I := fun p => Reachable step (start (Job.started jobId user pid now)) p ∧
      (p.SendFailed c → p.trk.pc = .returned)) ⟨.refl _, fun h => by cases h⟩ ?_).2 hf
  rintro p a p' ⟨hr, hp⟩ hs
  refine ⟨hr.tail hs, fun hf => ?_⟩
  rcases (sendFailed_step hs c).1 hf with hold | ⟨rfl, hclosed⟩
  · exact returned_of_step hs (hp hold)
  · obtain ⟨call, ch, rfl, -⟩ := step_kill hs
    by_contra hne
    rw [(killCh_open hr).2 hne] at hclosed
    cases hclosed

end Pipeline

namespace Tracked

section Answers

variable {t t' : Tracked} {c : Nat} {user : User} {j : JobId} {op : Op} {pc : CallPc} {S : Store}

theorem find_entries {e : Entry} (h : S.find user j = some e) : S.entries j = some e :=
  ((Option.filter_eq_some_iff).1 h).1

theorem setEntry_self {e : Entry} (h : S.entries j = some e) : S.setEntry j e = S := by
  rw [Store.setEntry, Function.update_eq_self_iff.2 h.symm]

/-- The job is as before, and so is the store. -/
theorem stay_store (hfind : S.find user j = some t.entry) (he : t'.entry = t.entry) :
    some S = some (S.setEntry j t'.entry) := by
  rw [he, setEntry_self (find_entries hfind)]

theorem entry_openLogs {i : SubId} (hs : t.serve (.openLogs i) = some t') :
    t.entry.logStep (.subscribe i) = some t'.entry := by
  obtain ⟨served, hserved, rfl⟩ := Option.map_eq_some_iff.1 hs
  obtain ⟨r, -, hnone, -, rfl⟩ := Served.step_openLogs hserved
  have hreader : t.entry.log.readers i = none := by simp [entry, hnone]
  rw [Entry.logStep, Journal.step, hreader]
  simp only [Option.map_some, entry, Journal.setReader, Served.readers_setFwd]
  rfl

theorem entry_abandon {i : SubId} (hs : t.serve (.abandon i) = some t') : t'.entry = t.entry := by
  obtain ⟨served, hserved, rfl⟩ := Option.map_eq_some_iff.1 hs
  obtain ⟨r, -, -, -, rfl⟩ := Served.step_abandon hserved
  exact entry_eq rfl rfl rfl rfl rfl

/-- A call's step on the pipeline of its job is nothing to the owner. -/
theorem entry_call (h : t.Of j) {a : Pipeline.Act} {pc pc' : CallPc}
    (hs : (t.serve (.pipe a)).map (·, pc') = some (t', pc)) (hcall : ∀ c u, a ≠ .kill c (.call u))
    (hsend : a ≠ .send) (hkill : ∀ u now, a ≠ .killRes (.ok u) now)
    (hexit : ∀ status now, a ≠ .exit (.ok status) now) : t'.entry = t.entry ∧ pc = pc' := by
  obtain ⟨hserve, rfl⟩ := serve_of_map hs
  exact ⟨entry_quiet h hserve hcall hsend hkill hexit, rfl⟩

/-- The start of a call shows nothing but that it asks for a kill. -/
theorem enter_store (h : t.Of j) (hs : t.enter c user j op = some (t', pc)) :
    (op = .ps ∧ t'.entry = t.entry ∧ pc = .done (.ok (.job t.job))) ∨
    (op = .logs ∧ t'.entry = t.entry ∧ pc = .waiting .logs j) ∨
    (op = .kill ∧ t'.entry = t.entry.ask c ∧ pc = .waiting .kill j) := by
  cases op with
  | ps =>
    obtain ⟨rfl, rfl⟩ := Prod.mk.inj (Option.some.inj hs)
    exact .inl ⟨rfl, rfl, rfl⟩
  | logs =>
    obtain ⟨he, rfl⟩ := entry_call h hs (by simp) (by simp) (by simp) (by simp)
    exact .inr (.inl ⟨rfl, he, rfl⟩)
  | kill =>
    obtain ⟨hserve, rfl⟩ := serve_of_map hs
    obtain ⟨served, hserved, rfl⟩ := Option.map_eq_some_iff.1 hserve
    obtain ⟨-, pl, hpl, rfl⟩ := Served.step_pipe hserved
    have hasked := (Pipeline.asked_of_kill hpl).1
    obtain ⟨call, ch, rfl, -⟩ := Pipeline.step_kill hpl
    refine .inr (.inr ⟨rfl, ?_, rfl⟩)
    simp only [entry, hasked, Entry.ask]
    rfl

/-- A `kill` is answered with the truth. -/
theorem killRes_truthful (h : t.Of j) (hfind : S.find user j = some t.entry)
    {res : Except KillError Job} (hres : t.served.pl.kills c = .done res) :
    S.truthful c user (.job .kill j) (.done (killRes j res)) = true := by
  obtain ⟨owner, pid, now, acts, -, -, hg, hr⟩ := h.parts
  have hasked : t.entry.asked c = true := by
    simp [entry, Pipeline.asked, hres, KillCall.asked]
  cases res with
  | ok job =>
    obtain ⟨hw, rfl⟩ := Pipeline.kill_done hr hres
    have hkilled := Pipeline.kill_done_killed hr hres
    have hexited := (hg.inv.record.exited hw).1
    simp only [killRes, truthful, hfind, Option.any_some, hexited, hkilled, hasked, Bool.and_true]
    exact decide_eq_true rfl
  | error err =>
    cases err with
    | reqSendFailed =>
      have hret := Pipeline.returned_of_sendFailed hr hres
      have hc := (Served.complete_sent_iff hg.terminal).2 (.inr hret)
      simp only [killRes, truthful, hfind, Option.any_some, decide_true, Bool.true_and, hasked]
      exact hc
    | reqTimeout => simp [killRes, truthful, hfind, hasked]
    | txDropped =>
      have hret := Pipeline.returned_of_txDropped hr hres
      have hc := (Served.complete_sent_iff hg.terminal).2 (.inr hret)
      simp only [killRes, truthful, hfind, Option.any_some, Bool.true_and, hasked]
      exact hc
    | failed err => simp [killRes, truthful, hfind, hasked]

theorem reply_store (h : t.Of j) (hawaits : t.served.Awaits c op)
    (hfind : S.find user j = some t.entry) (hs : t.reply c j op = some (t', pc)) :
    ∃ res, pc = .done res ∧ S.truthful c user (.job op j) (.done res) = true ∧
      S.openStream c (.job op j) (.done res) = some (S.setEntry j t'.entry) := by
  cases op with
  | ps => cases hs
  | kill =>
    simp only [reply] at hs
    split at hs
    · next res hk =>
      obtain ⟨rfl, rfl⟩ := Prod.mk.inj (Option.some.inj hs)
      exact ⟨_, rfl, killRes_truthful h hfind hk, stay_store hfind rfl⟩
    · cases hs
  | logs =>
    simp only [reply] at hs
    split at hs
    · obtain ⟨hserve, rfl⟩ := serve_of_map hs
      refine ⟨_, rfl, by simp [truthful, hfind], ?_⟩
      simp only [openStream, find_entries hfind, entry_openLogs hserve, Option.map_some]
    · next hgone =>
      obtain ⟨-, hsub⟩ := hawaits
      rw [hgone] at hsub
      cases hsub
    · -- the broadcaster keeps its receiver
      rw [(Of.requests h).rxOpen, if_pos rfl] at hs
      cases hs
    · cases hs

theorem timeout_store (h : t.Of j) (hfind : S.find user j = some t.entry)
    (hs : t.timeout c op = some (t', pc)) :
    ∃ res, pc = .done res ∧ S.truthful c user (.job op j) (.done res) = true ∧
      S.openStream c (.job op j) (.done res) = some (S.setEntry j t'.entry) := by
  cases op with
  | ps => cases hs
  | kill => cases hs
  | logs =>
    simp only [timeout] at hs
    split at hs
    · obtain ⟨he, rfl⟩ := entry_call h hs (by simp) (by simp) (by simp) (by simp)
      exact ⟨_, rfl, by simp [truthful, hfind], stay_store hfind he⟩
    · cases hs

theorem cancel_store (h : t.Of j) (hs : t.cancel c op = some (t', pc)) :
    t'.entry = t.entry ∧ pc = .cancelled := by
  refine ⟨?_, (cancel_cases hs).2⟩
  cases op with
  | ps => cases hs
  | kill =>
    simp only [cancel] at hs
    split at hs
    · obtain ⟨rfl, -⟩ := Prod.mk.inj (Option.some.inj hs)
      rfl
    · exact (entry_call h hs (by simp) (by simp) (by simp) (by simp)).1
  | logs =>
    simp only [cancel] at hs
    split at hs
    · exact entry_abandon (serve_of_map hs).1
    · obtain ⟨rfl, -⟩ := Prod.mk.inj (Option.some.inj hs)
      rfl
    · exact (entry_call h hs (by simp) (by simp) (by simp) (by simp)).1

end Answers

end Tracked

/-! ## The coordinator -/

namespace Store

variable {S S' : Store}

theorem setEntry_setEntry (S : Store) (j : JobId) (e e' : Entry) :
    (S.setEntry j e).setEntry j e' = S.setEntry j e' := by
  simp [setEntry]

/-- A run of one job is a run of the store. -/
theorem run_job {j : JobId} {bs : List EntryAct} {e e' : Entry} (he : S.entries j = some e)
    (hr : run Entry.step e bs = some e') :
    run Store.step S (bs.map (.job j)) = some (S.setEntry j e') := by
  induction bs generalizing S e with
  | nil =>
    obtain rfl : e = e' := by simpa using hr
    rw [Tracked.setEntry_self he]
    rfl
  | cons b bs ih =>
    obtain ⟨e₁, h1, hr⟩ := run_cons_iff.1 hr
    have hself : (S.setEntry j e₁).entries j = some e₁ := Function.update_self ..
    refine run_cons_iff.2 ⟨S.setEntry j e₁, ?_, ?_⟩
    · simp only [step, he, h1, Option.map_some]
    · rw [ih hself hr, setEntry_setEntry]

theorem run_answer {c : Nat} {user : User} {q : Query} {a : Answer} (hc : S.answers c = none)
    (ht : S.truthful c user q a = true) (ho : S.openStream c q a = some S') :
    run Store.step S [.answer c user q a] = some (S'.setAnswer c user a) := by
  simp only [run_single, step, hc, ht, ho, if_true, Option.map_some]

end Store

namespace Coord

section Image

variable {s : Coord} {c : Nat} {user : User} {j : JobId} {q : Query}

theorem abs_setTracked (s : Coord) (j : JobId) (t : Tracked) :
    (s.setTracked j t).abs = s.abs.setEntry j t.entry := by
  simp only [abs, setTracked, Store.setEntry]
  congr 1
  funext j'
  by_cases hj : j' = j
  · subst hj
    simp
  · simp [hj]

theorem abs_setCall (s : Coord) {call : Call} {a : Answer} (h : call.answer = some (user, a)) :
    (s.setCall c call).abs = s.abs.setAnswer c user a := by
  simp only [abs, setCall, Store.setAnswer]
  congr 1
  funext c'
  by_cases hc : c' = c
  · subst hc
    simp [h]
  · simp [hc]

/-- A call without an answer does not show. -/
theorem abs_setCall_none {call : Call} (h : call.answer = none) (hc : s.abs.answers c = none) :
    (s.setCall c call).abs = s.abs := by
  simp only [abs, setCall]
  congr 1
  funext c'
  by_cases hcc : c' = c
  · subst hcc
    have hnone : (s.calls c').bind Call.answer = none := hc
    simp [h, hnone]
  · simp [hcc]

theorem answered_setCall (s : Coord) {call : Call} {a : Answer}
    (h : call.answer = some (user, a)) :
    (s.setCall c call).answered c q = [.answer c user q a] := by
  simp [answered, h]

theorem answered_setCall_none (s : Coord) {call : Call} (h : call.answer = none) :
    (s.setCall c call).answered c q = [] := by
  simp [answered, h]

theorem abs_answers_of_none (h : s.calls c = none) : s.abs.answers c = none := by
  simp [abs, h]

theorem abs_answers_of_call {call : Call} (h : s.calls c = some call) (ha : call.answer = none) :
    s.abs.answers c = none := by
  simp [abs, h, ha]

theorem abs_entries {t : Tracked} (ht : s.tracked j = some t) : s.abs.entries j = some t.entry := by
  simp [abs, ht]

theorem abs_find {t : Tracked} (ht : s.tracked j = some t) (hreg : t.registered = true)
    (hu : t.job.user = user) : s.abs.find user j = some t.entry := by
  rw [Store.find, abs_entries ht, Option.filter_some, if_pos]
  simp [Tracked.entry, hreg, hu]

theorem abs_find_none {err : CoordError} (h : s.getTracker user j = .error err) :
    s.abs.find user j = none := by
  by_contra hne
  obtain ⟨e, he⟩ := Option.ne_none_iff_exists'.1 hne
  obtain ⟨hentry, hfind⟩ := Option.filter_eq_some_iff.1 he
  obtain ⟨t, ht, rfl⟩ := Option.map_eq_some_iff.1 hentry
  simp only [Bool.and_eq_true, decide_eq_true_eq] at hfind
  rw [getTracker_ok.2 ⟨ht, hfind.1, hfind.2⟩] at h
  cases h

/-- A call that a step has answered, its job having moved to `t'`. -/
theorem run_answered {t' : Tracked} {res : Except CoordError Ret} {op : Op}
    (hc : s.abs.answers c = none)
    (ht : s.abs.truthful c user (.job op j) (.done res) = true)
    (ho : s.abs.openStream c (.job op j) (.done res) = some (s.abs.setEntry j t'.entry)) :
    run Store.step s.abs
        (((s.setTracked j t').setCall c { user, pc := .done res }).answered c (.job op j)) =
      some ((s.setTracked j t').setCall c { user, pc := .done res }).abs := by
  rw [answered_setCall _ rfl, abs_setCall _ rfl, abs_setTracked]
  exact Store.run_answer hc ht ho

/-- A step of a call that does not answer it, and moves its job out of sight. -/
theorem abs_unanswered {t t' : Tracked} {call : Call} (ht : s.tracked j = some t)
    (he : t'.entry = t.entry) (hcall : call.answer = none) (hc : s.abs.answers c = none) :
    ((s.setTracked j t').setCall c call).abs = s.abs := by
  have hset : (s.setTracked j t').abs = s.abs := by
    rw [abs_setTracked, he, Tracked.setEntry_self (abs_entries ht)]
  rw [abs_setCall_none hcall (by rw [hset]; exact hc), hset]

end Image

section Refinement

variable {s s' : Coord}

/-- A pending `spawn` has the record its job was started with. -/
def Spawning (s : Coord) : Prop :=
  ∀ c user job, s.calls c = some { user, pc := .spawning job } →
    job.isFresh = true ∧ job.user = user ∧
      ∃ t, s.tracked job.id = some t ∧ t.job.startedAt = job.startedAt

theorem Spawning.step (hi : Inv s) (h : s.Spawning) {a : Act} (hs : Step s a s') :
    s'.Spawning := by
  intro c user job hc
  rcases hs.called hc with ⟨hold, -⟩ | ⟨u, name, child, -, he, -, ht'⟩ | ⟨_, _, _, hpc, -⟩ | hend
  · obtain ⟨hfresh, hu, t, ht, hstart⟩ := h c user job hold
    obtain ⟨t', ht', hm⟩ := hs.stays ht
    have hlife := (hi.jobs _ t ht).lifeCycle hm.reachable
    exact ⟨hfresh, hu, t', ht', hlife.startedAt_eq.trans hstart⟩
  · cases he
    exact ⟨rfl, rfl, _, ht', rfl⟩
  · cases hpc
  · cases hend

/-- A step of the coordinator is, in the images, what its events say. -/
theorem refines_step (hi : Inv s) (hk : s.OwnerKills) (hsp : s.Spawning) (haw : s.Awaited) {a : Act}
    (hs : Step s a s') : run Store.step s.abs (s.events a s') = some s'.abs := by
  -- the job of a pending call, as its owner finds it
  have find : ∀ {c : Nat} {user : User} {op : Op} {j : JobId} {t : Tracked},
      s.calls c = some { user, pc := .waiting op j } → s.tracked j = some t →
      s.abs.find user j = some t.entry := by
    intro c user op j t hc ht
    obtain ⟨t₁, ht₁, hreg, hu⟩ := hi.known c _ hc
    obtain rfl : t = t₁ := Option.some.inj (ht.symm.trans ht₁)
    exact abs_find ht hreg hu
  cases hs with
  | @rejectSpawn c user name res st hc hv =>
    simp only [events, setCall_self]
    rw [answered_setCall s rfl, abs_setCall s rfl]
    exact Store.run_answer (abs_answers_of_none hc) (by simp [truthful, hv]) rfl
  | @spawnFails c user name err hc hv =>
    simp only [events, setCall_self]
    rw [answered_setCall s rfl, abs_setCall s rfl]
    exact Store.run_answer (abs_answers_of_none hc) rfl rfl
  | @spawn c user name child hc hv hnew =>
    have hentry : s.abs.entries child.jobId = none := by simp [abs, hnew]
    have hanswer :
        (s.setTracked child.jobId (Tracked.start (child.job user))).abs.answers c = none :=
      abs_answers_of_none hc
    simp only [events, setCall_self]
    rw [abs_setCall_none rfl hanswer, abs_setTracked, run_single]
    have hid : (child.job user).id = child.jobId := rfl
    simp only [Store.step, hid, hentry]
    rfl
  | @rejectCall c user op j st hc hv =>
    simp only [events, setCall_self]
    rw [answered_setCall s rfl, abs_setCall s rfl]
    refine Store.run_answer (abs_answers_of_none hc) ?_ ?_
    · cases op <;> simp [truthful, hv]
    · cases op <;> rfl
  | @refuse c user op j err hc hv hg =>
    obtain rfl := getTracker_error hg
    have hnone := abs_find_none hg
    simp only [events, setCall_self]
    rw [answered_setCall s rfl, abs_setCall s rfl]
    refine Store.run_answer (abs_answers_of_none hc) ?_ ?_
    · cases op <;> simp [truthful, hnone]
    · cases op <;> rfl
  | @enter c user op j t t' pc hc hv hg he =>
    obtain ⟨ht, hreg, hu⟩ := getTracker_ok.1 hg
    have hnone := abs_answers_of_none hc
    have hfind := abs_find ht hreg hu
    simp only [events, setCall_self]
    obtain ⟨rfl, hentry, rfl⟩ | ⟨rfl, hentry, rfl⟩ | ⟨rfl, hentry, rfl⟩ :=
      Tracked.enter_store (hi.jobs j t ht) he
    · refine run_answered hnone ?_ (Tracked.stay_store hfind hentry)
      simp only [truthful, hfind, Option.any_some]
      exact decide_eq_true rfl
    · rw [answered_setCall_none _ rfl, abs_unanswered ht hentry rfl hnone]
      rfl
    · have hnone' : (s.setTracked j t').abs.answers c = none := hnone
      rw [abs_setCall_none rfl hnone', abs_setTracked, hentry]
      simp only [run_single, Store.step, hnone, hfind]
  | @insert c user job t t' pc hc ht he =>
    obtain ⟨hreg, rfl, rfl⟩ := Tracked.insert_cases he
    obtain ⟨hfresh, rfl, t₁, ht₁, hstart⟩ := hsp c user job hc
    obtain rfl : t = t₁ := Option.some.inj (ht.symm.trans ht₁)
    have hu := hi.spawning_user hc ht
    have hnone := abs_answers_of_call hc rfl
    have hguard : t.entry.listed = false ∧ job.isFresh = true ∧ job.user = t.entry.job.user ∧
        job.startedAt = t.entry.job.startedAt := ⟨hreg, hfresh, hu.symm, hstart.symm⟩
    simp only [events, hc, run_single]
    rw [abs_setCall _ rfl, abs_setTracked]
    simp only [Store.step, hnone, abs_entries ht, if_pos hguard]
    rfl
  | @release c user job t t' pc hc ht he =>
    obtain ⟨rfl, rfl⟩ := Tracked.release_cases he
    simp only [events, hc]
    have hentry : Tracked.entry { t with held := false } = t.entry := rfl
    rw [abs_unanswered ht hentry rfl (abs_answers_of_call hc rfl)]
    rfl
  | @reply c user op j t t' pc hc ht he =>
    obtain ⟨t₁, ht₁, hawaits⟩ := haw c user op j hc
    obtain rfl : t = t₁ := Option.some.inj (ht.symm.trans ht₁)
    obtain ⟨res, rfl, htrue, hopen⟩ :=
      Tracked.reply_store (hi.jobs j t ht) hawaits (find hc ht) he
    simp only [events, hc]
    exact run_answered (abs_answers_of_call hc rfl) htrue hopen
  | @timeout c user op j t t' pc hc ht he =>
    obtain ⟨res, rfl, htrue, hopen⟩ := Tracked.timeout_store (hi.jobs j t ht) (find hc ht) he
    simp only [events, hc]
    exact run_answered (abs_answers_of_call hc rfl) htrue hopen
  | @cancel c user op j t t' pc hc ht he =>
    obtain ⟨hentry, rfl⟩ := Tracked.cancel_store (hi.jobs j t ht) he
    have hnone := abs_answers_of_call hc rfl
    simp only [events, hc]
    rw [answered_setCall_none _ rfl, abs_unanswered ht hentry rfl hnone]
    rfl
  | @task j b t t' ht hint he =>
    simp only [events, ht]
    rw [abs_setTracked]
    exact Store.run_job (abs_entries ht) (Tracked.entry_task (hi.jobs j t ht) (hk j t ht) hint he)

/-- What the steps of the coordinator need to be steps of the store. -/
structure Refining (s : Coord) : Prop where
  inv : Inv s
  kills : s.OwnerKills
  spawning : s.Spawning
  awaited : s.Awaited

namespace Refining

theorem init : Refining init where
  inv := .init
  kills j t ht := by cases ht
  spawning c user job hc := by cases hc
  awaited c user op j hc := by cases hc

theorem step (h : s.Refining) {a : Act} (hs : Coord.step s a = some s') : s'.Refining :=
  have hstep := step_of hs
  ⟨h.inv.step hstep, h.kills.step h.inv hstep, h.spawning.step h.inv hstep,
    h.awaited.step h.inv hstep⟩

theorem run (h : s.Refining) {acts : List Act} (hr : Lts.run Coord.step s acts = some s') :
    s'.Refining ∧ Lts.run Store.step s.abs (trace Coord.step events s acts) = some s'.abs := by
  refine ⟨Reachable.invariant ⟨acts, hr⟩ h fun s a s' h hs => h.step hs, ?_⟩
  exact run_refine (I := Refining) abs events (fun s a s' h hs => h.step hs)
    (fun s a s' h hs => refines_step h.inv h.kills h.spawning h.awaited (step_of hs)) h hr

end Refining

end Refinement

end Coord

end JobRunner
