import JobRunner.Server
import JobRunner.Client
import JobRunner.Verify.Identity
import JobRunner.Verify.StoreLaws

/-!
# The service in front of the coordinator

A request reaches the coordinator only with the one certificate of its peer, as the user this
stands for. So every job a client is shown has, as owner and as killer, the subject of the client's
own certificate (`Server.answers_named`), and a request without such a certificate makes no
difference to anyone but the client that sent it (`Server.refused_erased`).
-/

namespace JobRunner

open Lts Store

/-! ## Requests and calls -/

theorem Message.act_inj {c c' : Nat} {user user' : User}
    {res res' : Except SpawnError Coord.Spawned} {msg msg' : Message}
    (h : msg.act c user res = msg'.act c' user' res') : c = c' ∧ user = user' ∧ msg = msg' := by
  cases msg with
  | spawn name =>
    cases msg' with
    | spawn name' =>
      cases h
      exact ⟨rfl, rfl, rfl⟩
    | job op jobId => cases h
  | job op jobId =>
    cases msg' with
    | spawn name' => cases h
    | job op' jobId' =>
      cases h
      exact ⟨rfl, rfl, rfl⟩

theorem Message.begins_act (msg : Message) (c : Nat) (user : User)
    (res : Except SpawnError Coord.Spawned) : Server.begins (msg.act c user res) = true := by
  cases msg <;> rfl

/-- What the state of a call has to do with the message it began with. -/
def Message.About (msg : Message) (call : Call) : Prop :=
  match call.pc with
  | .spawning _ => ∃ name, msg = .spawn name
  | .waiting op j => msg = .job op j.val
  | .done (.ok (.job record)) =>
    ∀ op jobId, msg = .job op jobId → op ≠ .logs ∧ record.id.val = jobId
  | _ => True

theorem Tracked.Of.id_eq {j : JobId} {t : Tracked} (h : t.Of j) : t.job.id = j := by
  obtain ⟨user, pid, now, hr⟩ := h
  exact ((Tracked.Of.start ⟨j, pid, now⟩ user).lifeCycle hr).id_eq

namespace Coord

variable {s s' : Coord}

/-- A `reply` with a record answers a `kill`, with a record of its job. -/
theorem reply_about (hi : Inv s) {c : Nat} {op : Op} {j : JobId} {t t' : Tracked} {pc : CallPc}
    (ht : s.tracked j = some t) (he : t.reply c j op = some (t', pc)) {job : Job}
    (hpc : pc = .done (.ok (.job job))) : op ≠ .logs ∧ job.id = j := by
  obtain ⟨-, res, rfl, hres⟩ := Tracked.reply_cases he
  obtain rfl : res = .ok (.job job) := by simpa using hpc
  obtain ⟨rfl, -, hk⟩ := hres job rfl
  obtain ⟨_, _, _, _, -, -, -, hr⟩ := (hi.jobs j t ht).parts
  obtain ⟨-, rfl⟩ := Pipeline.kill_done hr hk
  exact ⟨by simp, (hi.jobs j t ht).id_eq⟩

/-- A call goes on as its message says, or a message has just begun it. -/
theorem Step.about (hi : Inv s) {a : Act} (h : Step s a s') {c : Nat} {call' : Call}
    (hc' : s'.calls c = some call') :
    (∃ call, s.calls c = some call ∧ call'.user = call.user ∧
      ∀ msg : Message, msg.About call → msg.About call') ∨
    (s.calls c = none ∧ ∃ (msg : Message) (user : User) (res : Except SpawnError Spawned),
      a = msg.act c user res ∧ call'.user = user ∧ msg.About call') := by
  have old : s.calls c = some call' → ∃ call, s.calls c = some call ∧ call'.user = call.user ∧
      ∀ msg : Message, msg.About call → msg.About call' := fun hold =>
    ⟨call', hold, rfl, fun _ h => h⟩
  cases h with
  | @rejectSpawn c' user name res st hc hv =>
    rcases setCall_cases hc' with ⟨rfl, rfl⟩ | ⟨-, hold⟩
    · exact .inr ⟨hc, .spawn name, user, res, rfl, rfl, trivial⟩
    · exact .inl (old hold)
  | @spawnFails c' user name err hc hv =>
    rcases setCall_cases hc' with ⟨rfl, rfl⟩ | ⟨-, hold⟩
    · exact .inr ⟨hc, .spawn name, user, _, rfl, rfl, trivial⟩
    · exact .inl (old hold)
  | @spawn c' user name child hc hv hnew =>
    rcases setCall_cases hc' with ⟨rfl, rfl⟩ | ⟨-, hold⟩
    · exact .inr ⟨hc, .spawn name, user, _, rfl, rfl, name, rfl⟩
    · exact .inl (old hold)
  | @rejectCall c' user op j st hc hv =>
    rcases setCall_cases hc' with ⟨rfl, rfl⟩ | ⟨-, hold⟩
    · exact .inr ⟨hc, .job op j.val, user, .error .noPid, rfl, rfl, trivial⟩
    · exact .inl (old hold)
  | @refuse c' user op j err hc hv hg =>
    rcases setCall_cases hc' with ⟨rfl, rfl⟩ | ⟨-, hold⟩
    · exact .inr ⟨hc, .job op j.val, user, .error .noPid, rfl, rfl, trivial⟩
    · exact .inl (old hold)
  | @enter c' user op j t t' pc hc hv hg he =>
    rcases setCall_cases hc' with ⟨rfl, rfl⟩ | ⟨-, hold⟩
    · refine .inr ⟨hc, .job op j.val, user, .error .noPid, rfl, rfl, ?_⟩
      rcases (Tracked.enter_cases he).2 with ⟨rfl, -, rfl⟩ | ⟨-, rfl⟩
      · intro op' jobId hmsg
        cases hmsg
        have hid := (hi.jobs j t (getTracker_ok.1 hg).1).id_eq
        exact ⟨by simp, by rw [hid]⟩
      · rfl
    · exact .inl (old hold)
  | @insert c' user job t t' pc hc ht he =>
    rcases setCall_cases hc' with ⟨rfl, rfl⟩ | ⟨-, hold⟩
    · obtain ⟨-, -, rfl⟩ := Tracked.insert_cases he
      refine .inl ⟨_, hc, rfl, ?_⟩
      rintro msg ⟨name, rfl⟩ op jobId hmsg
      cases hmsg
    · exact .inl (old hold)
  | @release c' user job t t' pc hc ht he =>
    rcases setCall_cases hc' with ⟨rfl, rfl⟩ | ⟨-, hold⟩
    · obtain ⟨-, rfl⟩ := Tracked.release_cases he
      exact .inl ⟨_, hc, rfl, fun _ _ => trivial⟩
    · exact .inl (old hold)
  | @reply c' user op j t t' pc hc ht he =>
    rcases setCall_cases hc' with ⟨rfl, rfl⟩ | ⟨-, hold⟩
    · obtain ⟨-, res, rfl, -⟩ := Tracked.reply_cases he
      refine .inl ⟨_, hc, rfl, fun msg hmsg => ?_⟩
      obtain rfl : msg = .job op j.val := hmsg
      cases res with
      | error err => trivial
      | ok ret =>
        cases ret with
        | stream => trivial
        | job job =>
          intro op' jobId hmsg
          cases hmsg
          obtain ⟨hop, hid⟩ := reply_about hi ht he rfl
          exact ⟨hop, by rw [hid]⟩
    · exact .inl (old hold)
  | @timeout c' user op j t t' pc hc ht he =>
    rcases setCall_cases hc' with ⟨rfl, rfl⟩ | ⟨-, hold⟩
    · obtain ⟨-, err, rfl⟩ := Tracked.timeout_cases he
      exact .inl ⟨_, hc, rfl, fun _ _ => trivial⟩
    · exact .inl (old hold)
  | @cancel c' user op j t t' pc hc ht he =>
    rcases setCall_cases hc' with ⟨rfl, rfl⟩ | ⟨-, hold⟩
    · obtain ⟨-, rfl⟩ := Tracked.cancel_cases he
      exact .inl ⟨_, hc, rfl, fun _ _ => trivial⟩
    · exact .inl (old hold)
  | task ht hint he => exact .inl (old hc')

/-- A call does not go away. -/
theorem Step.carries (hi : Inv s) {a : Act} (h : Step s a s') {c : Nat} {call : Call}
    (hc : s.calls c = some call) : ∃ call', s'.calls c = some call' ∧ call'.user = call.user ∧
      ∀ msg : Message, msg.About call → msg.About call' := by
  have hsome : ∃ call', s'.calls c = some call' := by
    rcases h.keeps hc with hc' | ⟨-, -, pc, hc', -⟩
    · exact ⟨_, hc'⟩
    · exact ⟨_, hc'⟩
  obtain ⟨call', hc'⟩ := hsome
  rcases h.about hi hc' with ⟨call₁, hc₁, hu, habout⟩ | ⟨hnone, -⟩
  · obtain rfl : call = call₁ := Option.some.inj (hc.symm.trans hc₁)
    exact ⟨call', hc', hu, habout⟩
  · rw [hnone] at hc
    cases hc

/-- What a message begins is a new call. -/
theorem Step.begun {msg : Message} {c : Nat} {user : User} {res : Except SpawnError Spawned}
    (h : Step s (msg.act c user res) s') :
    s.calls c = none ∧ ∃ call, s'.calls c = some call := by
  cases msg with
  | spawn name =>
    cases h with
    | rejectSpawn hc _ | spawnFails hc _ | spawn hc _ _ => exact ⟨hc, _, setCall_self ..⟩
  | job op jobId =>
    cases h with
    | rejectCall hc _ | refuse hc _ _ | enter hc _ _ _ => exact ⟨hc, _, setCall_self ..⟩

end Coord

/-! ## Responses -/

/-- A job that is shown is the record the call has got. -/
theorem Call.response_job {call : Call} {pj : Pb.Job} (h : call.response = some (.job pj)) :
    ∃ job, call.pc = .done (.ok (.job job)) ∧ job.toPb = some pj := by
  unfold Call.response at h
  split at h
  · cases h
  · cases h
  · next job hpc =>
    refine ⟨job, hpc, ?_⟩
    cases hpb : job.toPb with
    | none => simp [hpb] at h
    | some pj' => simpa [hpb] using h
  · cases h
  · cases h

/-- The message for a job has all that the record has. -/
theorem Job.toPb_eq_some {job : Job} {pj : Pb.Job} (h : job.toPb = some pj) :
    ∃ state, job.state.toPb = some state ∧ pj =
      { id := job.id.val
        owner := some job.user.toPb
        startedAt := some job.startedAt.toTimestamp
        endedAt := job.endedAt.map DateTime.toTimestamp
        killed := job.killed.map JobKilled.toPb
        state := some state } := by
  simp only [Job.toPb, Option.bind_eq_bind, Option.bind_eq_some_iff, Option.some.injEq] at h
  obtain ⟨state, hstate, rfl⟩ := h
  exact ⟨state, hstate, rfl⟩

theorem JobState.toPb_exited {state : JobState} {pst : Pb.State} (h : state.toPb = some pst) :
    state.isExited = true ↔ ∃ exitCode, pst = .exited exitCode := by
  cases state with
  | running pid =>
    cases h
    simp [JobState.isExited]
  | exited status =>
    obtain ⟨exitCode, -, rfl⟩ := Option.map_eq_some_iff.1 h
    simp [JobState.isExited]

namespace Server

variable {CertificateDer : Type} {x509 : X509Parser CertificateDer} {s s' : Server}

/-- The user a request is handled for is the displayed subject of its only certificate. -/
theorem context_ok {req : Request CertificateDer} {ctx : Ctx} (h : context x509 req = .ok ctx) :
    ∃ cert n, req.peerCerts = some [cert] ∧ x509.subject cert = .ok n ∧
      ctx.user.id = x509.toString n := by
  cases hreq : serverInterceptor x509 req with
  | error st => simp [context, hreq, bind, Except.bind] at h
  | ok req' =>
    obtain ⟨cert, n, ctx', hone, hacc, hctx⟩ := serverInterceptor_ok hreq
    obtain rfl : ctx' = ctx := by simpa [context, hreq, hctx, bind, Except.bind] using h
    exact ⟨cert, n, hone, hacc.subject, hacc.id_eq⟩

/-- A handler always finds a `Ctx`: a request is refused by the interceptor. -/
theorem context_error {req : Request CertificateDer} {st : Status}
    (h : context x509 req = .error st) : extractClientCert x509 req = .error st := by
  cases hreq : serverInterceptor x509 req with
  | error st' =>
    obtain rfl : st' = st := by simpa [context, hreq, bind, Except.bind] using h
    simpa [serverInterceptor] using hreq
  | ok req' =>
    obtain ⟨cert, n, ctx, -, -, hctx⟩ := serverInterceptor_ok hreq
    simp [context, hreq, hctx, bind, Except.bind] at h

theorem step_request {c : Nat} {req : Request CertificateDer} {msg : Message}
    {res : Except SpawnError Coord.Spawned} (h : s.step x509 (.request c req msg res) = some s') :
    s.refused c = none ∧
    ((∃ st, context x509 req = .error st ∧ s.coord.calls c = none ∧
        s' = { s with refused := Function.update s.refused c (some st) }) ∨
      ∃ ctx coord, context x509 req = .ok ctx ∧
        s.coord.step (msg.act c ctx.user res) = some coord ∧ s' = { s with coord }) := by
  simp only [step] at h
  split at h
  · cases h
  · next hnone =>
    refine ⟨hnone, ?_⟩
    split at h
    · next st hctx =>
      simp only [Option.ite_none_right_eq_some, Option.isNone_iff_eq_none, Option.some.injEq] at h
      exact .inl ⟨st, hctx, h.1, h.2.symm⟩
    · next ctx hctx =>
      obtain ⟨coord, hcoord, rfl⟩ := Option.map_eq_some_iff.1 h
      exact .inr ⟨ctx, coord, hctx, hcoord, rfl⟩

theorem step_coord {a : Coord.Act} (h : s.step x509 (.coord a) = some s') :
    begins a = false ∧ ∃ coord, s.coord.step a = some coord ∧ s' = { s with coord } := by
  simp only [step] at h
  split at h
  · cases h
  · next hb =>
    obtain ⟨coord, hcoord, rfl⟩ := Option.map_eq_some_iff.1 h
    exact ⟨by simpa using hb, coord, hcoord, rfl⟩

/-! ## What becomes of a request -/

/-- A request is refused, or is a call of its user that goes on as its message says. There are no
other calls. -/
structure Asked (x509 : X509Parser CertificateDer) (acts : List (Act CertificateDer))
    (s : Server) : Prop where
  call : ∀ c call, s.coord.calls c = some call → ∃ req msg res, .request c req msg res ∈ acts
  refused : ∀ c st, s.refused c = some st → ∃ req msg res,
    .request c req msg res ∈ acts ∧ context x509 req = .error st
  request : ∀ c req msg res, .request c req msg res ∈ acts →
    (∃ st, context x509 req = .error st ∧ s.refused c = some st ∧ s.coord.calls c = none) ∨
    ∃ ctx call, context x509 req = .ok ctx ∧ s.refused c = none ∧ s.coord.calls c = some call ∧
      call.user = ctx.user ∧ msg.About call

namespace Asked

variable {acts : List (Act CertificateDer)}

theorem init : Asked x509 [] init where
  call c call hc := by cases hc
  refused c st hr := by cases hr
  request c req msg res h := by cases h

theorem refuse (h : Asked x509 acts s) {c : Nat} {req : Request CertificateDer} {msg : Message}
    {res : Except SpawnError Coord.Spawned} {st : Status} (hc : s.refused c = none)
    (hcall : s.coord.calls c = none) (hctx : context x509 req = .error st) :
    Asked x509 (acts ++ [.request c req msg res])
      { s with refused := Function.update s.refused c (some st) } where
  call c' call hc' := by
    obtain ⟨req', msg', res', hmem⟩ := h.call c' call hc'
    exact ⟨req', msg', res', List.mem_append_left _ hmem⟩
  refused c' st' hr := by
    by_cases he : c' = c
    · subst he
      obtain rfl : st = st' := by simpa using hr
      exact ⟨req, msg, res, List.mem_append_right _ (List.mem_singleton_self _), hctx⟩
    · obtain ⟨req', msg', res', hmem, hctx'⟩ :=
        h.refused c' st' ((Function.update_of_ne he ..).symm.trans hr)
      exact ⟨req', msg', res', List.mem_append_left _ hmem, hctx'⟩
  request c' req' msg' res' hmem := by
    rcases List.mem_append.1 hmem with hold | hnew
    · have hne : c' ≠ c := by
        rintro rfl
        rcases h.request _ _ _ _ hold with ⟨st', -, hr, -⟩ | ⟨ctx, call, -, -, hc', -⟩
        · rw [hc] at hr
          cases hr
        · rw [hcall] at hc'
          cases hc'
      rcases h.request _ _ _ _ hold with ⟨st', hctx', hr, hnone⟩ | ⟨ctx, call, hctx', hr, hrest⟩
      · exact .inl ⟨st', hctx', (Function.update_of_ne hne ..).trans hr, hnone⟩
      · exact .inr ⟨ctx, call, hctx', (Function.update_of_ne hne ..).trans hr, hrest⟩
    · cases List.mem_singleton.1 hnew
      exact .inl ⟨st, hctx, Function.update_self .., hcall⟩

theorem refused_mono (h : Asked x509 acts s) (a : Act CertificateDer) {c : Nat} {st : Status}
    (hr : s.refused c = some st) : ∃ req msg res,
      .request c req msg res ∈ acts ++ [a] ∧ context x509 req = .error st := by
  obtain ⟨req, msg, res, hmem, hctx⟩ := h.refused c st hr
  exact ⟨req, msg, res, List.mem_append_left _ hmem, hctx⟩

/-- The calls begun so far go on with the coordinator. -/
theorem goOn (h : Asked x509 acts s) (hi : s.coord.Inv) {a : Coord.Act} {coord : Coord}
    (hs : Coord.Step s.coord a coord) {c : Nat} {req : Request CertificateDer} {msg : Message}
    {res : Except SpawnError Coord.Spawned} (hmem : .request c req msg res ∈ acts)
    (ha : ∀ (msg : Message) c user res, a = msg.act c user res → s.refused c = none) :
    (∃ st, context x509 req = .error st ∧ s.refused c = some st ∧ coord.calls c = none) ∨
    ∃ ctx call, context x509 req = .ok ctx ∧ s.refused c = none ∧ coord.calls c = some call ∧
      call.user = ctx.user ∧ msg.About call := by
  rcases h.request _ _ _ _ hmem with
    ⟨st, hctx, hr, hnone⟩ | ⟨ctx, call, hctx, hr, hc, hu, habout⟩
  · refine .inl ⟨st, hctx, hr, Option.eq_none_iff_forall_ne_some.2 fun call hc => ?_⟩
    rcases hs.about hi hc with ⟨call₁, hc₁, -⟩ | ⟨-, msg', user, res', hact, -⟩
    · rw [hnone] at hc₁
      cases hc₁
    · rw [ha _ _ _ _ hact] at hr
      cases hr
  · obtain ⟨call', hc', hu', hgo⟩ := hs.carries hi hc
    exact .inr ⟨ctx, call', hctx, hr, hc', hu'.trans hu, hgo msg habout⟩

theorem step (h : Asked x509 acts s) (hi : s.coord.Inv) {a : Act CertificateDer}
    (hs : s.step x509 a = some s') : Asked x509 (acts ++ [a]) s' := by
  cases a with
  | request c req msg res =>
    obtain ⟨hc, ⟨st, hctx, hcall, rfl⟩ | ⟨ctx, coord, hctx, hcoord, rfl⟩⟩ := step_request hs
    · exact h.refuse hc hcall hctx
    · have hstep := Coord.step_of hcoord
      refine ⟨?_, fun c' st' hr => h.refused_mono _ hr, ?_⟩
      · intro c' call hc'
        rcases hstep.about hi hc' with ⟨call₁, hc₁, -⟩ | ⟨-, msg', user, res', hact, -⟩
        · obtain ⟨req', msg', res', hmem⟩ := h.call c' call₁ hc₁
          exact ⟨req', msg', res', List.mem_append_left _ hmem⟩
        · obtain ⟨rfl, -, -⟩ := Message.act_inj hact
          exact ⟨req, msg, res, List.mem_append_right _ (List.mem_singleton_self _)⟩
      · intro c' req' msg' res' hmem
        rcases List.mem_append.1 hmem with hold | hnew
        · refine h.goOn hi hstep hold fun msg₁ c₁ user₁ res₁ hact => ?_
          obtain ⟨rfl, -, -⟩ := Message.act_inj hact
          exact hc
        · cases List.mem_singleton.1 hnew
          obtain ⟨hnone, call, hc'⟩ := hstep.begun
          refine .inr ⟨ctx, call, hctx, hc, hc', ?_⟩
          rcases hstep.about hi hc' with ⟨call₁, hc₁, -⟩ | ⟨-, msg₁, user, res₁, hact, hu, habout⟩
          · rw [hnone] at hc₁
            cases hc₁
          · obtain ⟨-, rfl, rfl⟩ := Message.act_inj hact
            exact ⟨hu, habout⟩
  | coord a =>
    obtain ⟨hb, coord, hcoord, rfl⟩ := step_coord hs
    have hstep := Coord.step_of hcoord
    have hbegins : ∀ (msg : Message) c user res, a ≠ msg.act c user res := by
      rintro msg c user res rfl
      rw [msg.begins_act] at hb
      cases hb
    refine ⟨?_, fun c' st' hr => h.refused_mono _ hr, ?_⟩
    · intro c' call hc'
      rcases hstep.about hi hc' with ⟨call₁, hc₁, -⟩ | ⟨-, msg', user, res', hact, -⟩
      · obtain ⟨req', msg', res', hmem⟩ := h.call c' call₁ hc₁
        exact ⟨req', msg', res', List.mem_append_left _ hmem⟩
      · exact absurd hact (hbegins _ _ _ _)
    · intro c' req' msg' res' hmem
      rcases List.mem_append.1 hmem with hold | hnew
      · exact h.goOn hi hstep hold fun _ _ _ _ hact => absurd hact (hbegins _ _ _ _)
      · cases List.mem_singleton.1 hnew

/-- A run of the service is one of its coordinator. -/
theorem run (hr : Lts.run (Server.step x509) Server.init acts = some s) :
    Reachable Coord.step Coord.init s.coord ∧ Asked x509 acts s := by
  refine run_induct (motive := fun acts s =>
    Reachable Coord.step Coord.init s.coord ∧ Asked x509 acts s) ⟨.refl _, .init⟩ ?_ hr
  rintro as s a s' - ⟨hreach, h⟩ hs
  refine ⟨?_, h.step (.reachable hreach) hs⟩
  cases a with
  | request c req msg res =>
    obtain ⟨-, ⟨st, -, -, rfl⟩ | ⟨ctx, coord, -, hcoord, rfl⟩⟩ := step_request hs
    · exact hreach
    · exact hreach.tail hcoord
  | coord a =>
    obtain ⟨-, coord, hcoord, rfl⟩ := step_coord hs
    exact hreach.tail hcoord

end Asked

/-! ## What the clients see -/

/-- A client that is shown a job is shown the one it has asked for, if it has named one. The owner,
and the killer if there is one, is the displayed subject of the client's only certificate; the job
has an end time if and only if it is shown as exited; and the command line client prints it. -/
theorem answers_named {acts : List (Act CertificateDer)}
    (hr : Lts.run (step x509) init acts = some s) {c : Nat} {job : Pb.Job}
    (hc : s.response c = some (.job job)) :
    (∃ req msg res, .request c req msg res ∈ acts) ∧
    (∀ req msg res, .request c req msg res ∈ acts → ∃ cert n,
      req.peerCerts = some [cert] ∧ x509.subject cert = .ok n ∧
      job.owner = some { id := x509.toString n } ∧
      (∀ k, job.killed = some k → k.user = some { id := x509.toString n }) ∧
      ∀ op jobId, msg = .job op jobId → op ≠ .logs ∧ job.id = jobId) ∧
    (job.endedAt.isSome = true ↔ ∃ exitCode, job.state = some (.exited exitCode)) ∧
    ∀ reset, ∃ line, Client.onJob reset (.job job) = (some line, .done) := by
  obtain ⟨⟨as, hreach⟩, h⟩ := Asked.run hr
  obtain ⟨-, hi, -⟩ := Coord.Refining.init.laws .init hreach
  -- the answer is that of a call of the coordinator
  have hcall : ∃ call, s.coord.calls c = some call ∧ call.response = some (.job job) := by
    unfold response at hc
    split at hc
    · cases hc
    · exact Option.bind_eq_some_iff.1 hc
  obtain ⟨⟨user, pc⟩, hcall, hresp⟩ := hcall
  obtain ⟨record, hpc, hpb⟩ := Call.response_job hresp
  obtain rfl : pc = .done (.ok (.job record)) := hpc
  obtain ⟨state, hstate, rfl⟩ := Job.toPb_eq_some hpb
  have hans : s.coord.abs.answers c = some (user, .done (.ok (.job record))) := by
    simp [Coord.abs, hcall, Call.answer]
  obtain ⟨hu, hended, hkilled, -⟩ := hi.answers c user record hans
  refine ⟨h.call c _ hcall, fun req msg res hmem => ?_, ?_, fun reset => ?_⟩
  · rcases h.request c req msg res hmem with ⟨st, -, -, hnone⟩ | ⟨ctx, call, hctx, -, hc', hu', ha⟩
    · rw [hnone] at hcall
      cases hcall
    · obtain rfl := Option.some.inj (hcall.symm.trans hc')
      obtain ⟨cert, n, hone, hn, hid⟩ := context_ok hctx
      have hname : user.toPb = { id := x509.toString n } := by
        rw [← hid, ← hu']
        rfl
      refine ⟨cert, n, hone, hn, by rw [hu, hname], fun k hk => ?_, ha⟩
      obtain ⟨k', hk', rfl⟩ := Option.map_eq_some_iff.1 hk
      rw [JobKilled.toPb, hkilled k' hk', hname]
  · rw [Option.isSome_map, hended, JobState.toPb_exited hstate]
    simp only [Option.some.injEq]
  · cases state with
    | running pid => exact ⟨_, rfl⟩
    | exited exitCode => exact ⟨_, rfl⟩

/-- alice starts a job and asks for it, after bob, and somebody without a certificate, have. -/
def aliceRun : List (Act X509Name) :=
  [.request 0 ⟨some [alice], none⟩ (.spawn "sleep") (.ok ⟨⟨"job"⟩, ⟨7⟩, ⟨1⟩⟩), .coord (.insert 0),
    .request 1 ⟨some [bob], none⟩ (.job .ps "job") (.error .noPid),
    .request 2 ⟨none, none⟩ (.job .kill "job") (.error .noPid),
    .request 3 ⟨some [alice], none⟩ (.job .ps "job") (.error .noPid)]

theorem answers_named_aliceRun : ∃ s job, Lts.run (step unescaped) init aliceRun = some s ∧
    s.response 3 = some (.job job) ∧ job.owner = some { id := "CN=alice" } ∧ job.id = "job" := by
  have hrun : ((Lts.run (step unescaped) init aliceRun).bind fun s => s.response 3) =
      some (.job (Pb.Job.mk "job" (some ⟨"CN=alice"⟩) (some ⟨0, 1⟩) none none
        (some (.running 7)))) := by decide +kernel
  obtain ⟨s, hs, hc⟩ := Option.bind_eq_some_iff.1 hrun
  have hmem : .request 3 ⟨some [alice], none⟩ (.job .ps "job") (.error .noPid) ∈ aliceRun := by
    simp [aliceRun]
  obtain ⟨cert, n, -, -, -, -, hid⟩ := (answers_named hs hc).2.1 _ _ _ hmem
  exact ⟨s, _, hs, hc, rfl, (hid _ _ rfl).2⟩

/-- A request that gets to the coordinator. -/
def admitted (x509 : X509Parser CertificateDer) : Act CertificateDer → Bool
  | .request _ req _ _ => (context x509 req).toBool
  | .coord _ => true

/-- Without the requests that are refused, the run is one of the service too. It leaves the
coordinator the same and answers all other calls the same. Those refused are answered that they
are unauthenticated. -/
theorem refused_erased {acts : List (Act CertificateDer)}
    (hr : Lts.run (step x509) init acts = some s) :
    (∃ s', Lts.run (step x509) init (acts.filter (admitted x509)) = some s' ∧
      s'.coord = s.coord ∧
      ∀ c, (∀ req msg res, .request c req msg res ∈ acts → (context x509 req).toBool = true) →
        s'.response c = s.response c) ∧
    ∀ c req msg res st, .request c req msg res ∈ acts → context x509 req = .error st →
      s.response c = some (.status st) ∧ st.code = .unauthenticated := by
  obtain ⟨-, h⟩ := Asked.run hr
  refine ⟨?_, fun c req msg res st hmem hctx => ?_⟩
  · have hfilter := run_filter
      (R := fun s t : Server => t.coord = s.coord ∧ t.refused = fun _ => none)
      (admitted x509) ?_ ?_ ⟨rfl, rfl⟩ hr
    · obtain ⟨s', hs', hcoord, hnone⟩ := hfilter
      refine ⟨s', hs', hcoord, fun c hadm => ?_⟩
      have hc : s.refused c = none := by
        apply Option.eq_none_iff_forall_ne_some.2
        intro st hst
        obtain ⟨req, msg, res, hmem, hctx⟩ := h.refused c st hst
        have hbool := hadm req msg res hmem
        rw [hctx] at hbool
        cases hbool
      simp only [response, hnone, hc, hcoord]
    · rintro s t a s' ⟨hcoord, hnone⟩ hadm hs
      cases a with
      | request c req msg res =>
        obtain ⟨-, ⟨st, hctx, -⟩ | ⟨ctx, coord, hctx, hstep, rfl⟩⟩ := step_request hs
        · rw [admitted, hctx] at hadm
          cases hadm
        · refine ⟨{ t with coord }, ?_, rfl, hnone⟩
          simp only [step, hnone, hctx, hcoord, hstep, Option.map_some]
      | coord a =>
        obtain ⟨hb, coord, hstep, rfl⟩ := step_coord hs
        refine ⟨{ t with coord }, ?_, rfl, hnone⟩
        simp only [step, hb, hcoord, hstep, Option.map_some, Bool.false_eq_true, if_false]
    · rintro s t a s' ⟨hcoord, hnone⟩ hadm hs
      cases a with
      | request c req msg res =>
        obtain ⟨-, ⟨st, -, -, rfl⟩ | ⟨ctx, coord, hctx, -⟩⟩ := step_request hs
        · exact ⟨hcoord, hnone⟩
        · rw [admitted, hctx] at hadm
          cases hadm
      | coord a => cases hadm
  · refine ⟨?_, extractClientCert_error (context_error hctx)⟩
    rcases h.request c req msg res hmem with ⟨st', hctx', hr', -⟩ | ⟨ctx, call, hctx', -⟩
    · obtain rfl : st = st' := Except.error.inj (hctx.symm.trans hctx')
      simp only [response, hr']
    · rw [hctx] at hctx'
      cases hctx'

theorem refused_erased_aliceRun : ∃ s s', Lts.run (step unescaped) init aliceRun = some s ∧
    Lts.run (step unescaped) init (aliceRun.filter (admitted unescaped)) = some s' ∧
    s'.coord = s.coord ∧
    s.response 2 = some (.status { code := .unauthenticated, message := "mtls required" }) := by
  have hrun : (Lts.run (step unescaped) init aliceRun).isSome = true := by decide +kernel
  obtain ⟨s, hs⟩ := Option.isSome_iff_exists.1 hrun
  obtain ⟨⟨s', hs', hcoord, -⟩, hrefused⟩ := refused_erased hs
  have hmem : .request 2 ⟨none, none⟩ (.job .kill "job") (.error .noPid) ∈ aliceRun := by
    simp [aliceRun]
  exact ⟨s, s', hs, hs', hcoord, (hrefused _ _ _ _ _ hmem rfl).1⟩

end Server

end JobRunner
