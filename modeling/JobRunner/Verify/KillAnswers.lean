import JobRunner.Verify.Reports

/-!
# Does `kill` agree with `ps`?

`MemoryCoordinator::kill` answers `JobNotRunning` when the tracker's kill channel is closed, and
that is so exactly from the return of `JobTracker::wait` on (`Pipeline.killCh_open`). The record
`ps` shows is another matter: it is `Exited` from the moment `child.wait()` has returned `Ok`, which
may be long before `wait` returns, or never. `kill_agrees_iff` says for which calls the two agree.
-/

namespace JobRunner

open Lts Mpsc

namespace Pipeline

variable {p p' : Pipeline}

/-- The steps of a `kill` call. -/
inductive KillStep (p : Pipeline) (c : Nat) : KillAct → Pipeline → Prop
  | call {user} (hc : p.kills c = .absent) :
      KillStep p c (.call user) { p with kills := Function.update p.kills c (.sending user) }
  | sent {user} (hc : p.kills c = .sending user) (ho : p.killCh.rxOpen = true) :
      KillStep p c .send { p with
        killCh := p.killCh.push { user, tx := c }, kills := Function.update p.kills c .waiting }
  | failed {user} (hc : p.kills c = .sending user) (ho : p.killCh.rxOpen = false) :
      KillStep p c .send { p with
        kills := Function.update p.kills c (.done (.error .reqSendFailed)) }
  | recv {res} (hc : p.kills c = .waiting) (hone : p.oneshot c = some res) :
      KillStep p c .recv { p with kills := Function.update p.kills c (.done res) }
  | timeout (hc : p.kills c = .waiting) :
      KillStep p c .timeout { p with
        kills := Function.update p.kills c (.done (.error .reqTimeout)) }
  | drop (hc : (∃ user, p.kills c = .sending user) ∨ p.kills c = .waiting) :
      KillStep p c .drop { p with kills := Function.update p.kills c .dropped }

theorem killStep_of {c : Nat} {a : KillAct} (h : p.step (.kill c a) = some p') :
    KillStep p c a p' := by
  simp only [step] at h
  cases a with
  | call user =>
    simp only [stepKill] at h
    split at h
    · next hc =>
      cases h
      exact .call hc
    · cases h
  | send =>
    simp only [stepKill] at h
    split at h
    · next user hc =>
      split at h
      · cases h
      · next ch hsend =>
        cases h
        rcases Chan.send_eq_some_iff.1 hsend with ⟨-, ho, -, rfl⟩ | ⟨hno, -, -⟩
        · exact .sent hc ho
        · cases hno
      · next ch hsend =>
        cases h
        rcases Chan.send_eq_some_iff.1 hsend with ⟨hno, -, -, -⟩ | ⟨-, ho, -⟩
        · cases hno
        · exact .failed hc ho
    · cases h
  | recv =>
    simp only [stepKill] at h
    split at h
    · next res hc hone =>
      cases h
      exact .recv hc hone
    · cases h
  | timeout =>
    simp only [stepKill] at h
    split at h
    · next hc =>
      cases h
      exact .timeout hc
    · cases h
  | drop =>
    simp only [stepKill] at h
    split at h
    · next user hc =>
      cases h
      exact .drop (.inl ⟨user, hc⟩)
    · next hc =>
      cases h
      exact .drop (.inr hc)
    · cases h

/-! ## The kill channel -/

/-- The receivers of `wait` are dropped together. -/
theorem killCh_rxOpen_step {a : Act} (hs : p.step a = some p')
    (h : p.killCh.rxOpen = (p.output .stdout).ch.rxOpen) :
    p'.killCh.rxOpen = (p'.output .stdout).ch.rxOpen := by
  have update : ∀ {k : StreamKind} {o : Output}, o.ch.rxOpen = (p.output k).ch.rxOpen →
      (Function.update p.output k o .stdout).ch.rxOpen = (p.output .stdout).ch.rxOpen := by
    intro k o ho
    by_cases hk : StreamKind.stdout = k
    · subst hk
      rw [Function.update_self, ho]
    · rw [Function.update_of_ne hk]
  cases a with
  | output k a =>
    obtain ⟨o, ho, rfl⟩ := step_output hs
    exact h.trans (update (Output.step_rxOpen ho)).symm
  | recvOutput k =>
    obtain ⟨ev, o, trk, ho, -, rfl⟩ := step_recvOutput hs
    apply h.trans (update _).symm
    rcases Output.recv_cases ho with ⟨res, q, -, -, rfl⟩ | ⟨-, -, -, rfl⟩
    · rfl
    · rfl
  | send =>
    obtain ⟨ev, ok, ch, trk, -, -, -, rfl⟩ := step_send hs
    exact h
  | recvKill =>
    obtain ⟨req, ch, trk, hch, -, rfl⟩ := step_recvKill hs
    rcases Chan.recv_eq_some_iff.1 hch with ⟨_, q, -, -, rfl⟩ | ⟨-, -, -, rfl⟩
    · exact h
    · exact h
  | killRes res now =>
    obtain ⟨req, trk, -, -, rfl⟩ := step_killRes hs
    exact h
  | exit status now =>
    obtain ⟨trk, -, rfl⟩ := step_exit hs
    exact h
  | setRes =>
    obtain ⟨trk, -, rfl⟩ := step_setRes hs
    rfl
  | kill c a =>
    have hsame : p'.killCh.rxOpen = p.killCh.rxOpen ∧ p'.output = p.output := by
      cases killStep_of hs <;> exact ⟨rfl, rfl⟩
    rw [hsame.1, hsame.2]
    exact h
  | bcast a =>
    obtain ⟨bc, -, rfl⟩ := step_bcast hs
    exact h

/-- The kill channel is closed exactly from the return of `wait` on. -/
theorem killCh_open {jobId : JobId} {user : User} {pid : Pid} {now : DateTime}
    (hr : Reachable step (start (Job.started jobId user pid now)) p) :
    p.killCh.rxOpen = true ↔ p.trk.pc ≠ .returned := by
  have hrx : p.killCh.rxOpen = (p.output .stdout).ch.rxOpen := by
    apply hr.invariant (I := fun p => p.killCh.rxOpen = (p.output .stdout).ch.rxOpen) rfl
    intro p a p' h hs
    exact killCh_rxOpen_step hs h
  obtain ⟨acts, hr⟩ := hr
  rw [hrx]
  exact (Inv.run rfl hr).rx .stdout

/-- The send of the request has failed. -/
def SendFailed (p : Pipeline) (c : Nat) : Prop := p.kills c = .done (.error .reqSendFailed)

theorem oneshot_ne_sendFailed {tx : Nat} : p.oneshot tx ≠ some (.error .reqSendFailed) := by
  unfold oneshot
  split
  · simp
  · simp
  · split <;> simp

/-- The failure of a send is decided by the channel, at the send. -/
theorem sendFailed_step {a : Act} (hs : p.step a = some p') (c : Nat) :
    p'.SendFailed c ↔ p.SendFailed c ∨ (a = .kill c .send ∧ p.killCh.rxOpen = false) := by
  have same : p'.kills c = p.kills c → a ≠ .kill c .send →
      (p'.SendFailed c ↔ p.SendFailed c ∨ (a = .kill c .send ∧ p.killCh.rxOpen = false)) := by
    intro hk ha
    unfold SendFailed
    rw [hk]
    simp [ha]
  rcases kill_or_other hs with ⟨c', a, rfl⟩ | ⟨hother, hkills⟩
  · by_cases hc : c' = c
    · subst hc
      cases killStep_of hs with
      | call hc => simp [SendFailed, hc]
      | sent hc ho => simp [SendFailed, hc, ho]
      | failed hc ho => simp [SendFailed, ho]
      | @recv res hc hone =>
        have hne : res ≠ .error .reqSendFailed := by
          intro he
          rw [he] at hone
          exact oneshot_ne_sendFailed hone
        simp [SendFailed, hc, hne]
      | timeout hc => simp [SendFailed, hc]
      | drop hc => rcases hc with ⟨user, hc⟩ | hc <;> simp [SendFailed, hc]
    · have hne : c ≠ c' := fun he => hc he.symm
      refine same ?_ (by simp [hc])
      cases killStep_of hs <;> exact Function.update_of_ne hne _ _
  · exact same (by rw [hkills]) (hother c .send)

end Pipeline

/-! ## The request of a call -/

namespace Tracked

variable {t t' : Tracked}

/-- What a step of a call makes of its job: nothing, or a step no label of the job stands for. -/
def ServesCall (t t' : Tracked) : Prop :=
  t'.served = t.served ∨
    ∃ b, t.served.step b = some t'.served ∧ ∀ u : Tracked, u.internal b = false

theorem ServesCall.serve {b : Served.Act} {pc pc' : CallPc}
    (hb : ∀ u : Tracked, u.internal b = false)
    (h : (t.serve b).map (·, pc') = some (t', pc)) : ServesCall t t' := by
  obtain ⟨u, hu, he⟩ := Option.map_eq_some_iff.1 h
  obtain ⟨rfl, -⟩ : u = t' ∧ pc' = pc := Prod.mk.inj he
  obtain ⟨served, hs, rfl⟩ := Option.map_eq_some_iff.1 hu
  exact .inr ⟨b, hs, hb⟩

theorem ServesCall.stay {pc pc' : CallPc} (h : some (t, pc') = some (t', pc)) :
    ServesCall t t' := by
  obtain ⟨rfl, -⟩ := Prod.mk.inj (Option.some.inj h)
  exact .inl rfl

section Calls

variable {c : Nat} {user : User} {j : JobId} {op : Op} {pc : CallPc}

theorem enter_serves (h : t.enter c user j op = some (t', pc)) : ServesCall t t' := by
  cases op with
  | ps => exact .stay h
  | logs => exact .serve (fun _ => rfl) h
  | kill => exact .serve (fun _ => rfl) h

/-- The request of a new `kill` call is still to be sent. -/
theorem enter_kill (h : t.enter c user j .kill = some (t', pc)) : ¬t'.served.pl.SendFailed c := by
  obtain ⟨u, hu, he⟩ := Option.map_eq_some_iff.1 h
  obtain ⟨rfl, -⟩ : u = t' ∧ _ := Prod.mk.inj he
  obtain ⟨served, hs, rfl⟩ := Option.map_eq_some_iff.1 hu
  obtain ⟨-, pl, hpl, rfl⟩ := Served.step_pipe hs
  cases Pipeline.killStep_of hpl with
  | call _ => simp [Pipeline.SendFailed]

theorem reply_serves (h : t.reply c j op = some (t', pc)) : ServesCall t t' := by
  cases op with
  | ps => cases h
  | kill =>
    simp only [reply] at h
    split at h
    · exact .stay h
    · cases h
  | logs =>
    simp only [reply] at h
    split at h
    · exact .serve (fun _ => rfl) h
    · exact .stay h
    · split at h
      · cases h
      · exact .serve (fun _ => rfl) h
    · cases h

theorem timeout_serves (h : t.timeout c op = some (t', pc)) : ServesCall t t' := by
  cases op with
  | ps => cases h
  | kill => cases h
  | logs =>
    simp only [timeout] at h
    split at h
    · exact .serve (fun _ => rfl) h
    · cases h

theorem cancel_serves (h : t.cancel c op = some (t', pc)) : ServesCall t t' := by
  cases op with
  | ps => cases h
  | kill =>
    simp only [cancel] at h
    split at h
    · exact .stay h
    · exact .serve (fun _ => rfl) h
  | logs =>
    simp only [cancel] at h
    split at h
    · exact .serve (fun _ => rfl) h
    · exact .stay h
    · exact .serve (fun _ => rfl) h

end Calls

end Tracked

namespace Coord

variable {s s' : Coord} {c : Nat} {user : User} {j : JobId}

/-- What a label makes of a job: the step it names, or what the step of a call makes of it. -/
theorem Step.serves {a : Act} (h : Step s a s') {t : Tracked} (ht : s.tracked j = some t) :
    ∃ t', s'.tracked j = some t' ∧
      ((∃ b, a = .task j b ∧ t.served.step b = some t'.served) ∨
        ((∀ b, a ≠ .task j b) ∧ Tracked.ServesCall t t')) := by
  have stay : s'.tracked = s.tracked → (∀ b, a ≠ .task j b) → ∃ t', s'.tracked j = some t' ∧
      ((∃ b, a = .task j b ∧ t.served.step b = some t'.served) ∨
        ((∀ b, a ≠ .task j b) ∧ Tracked.ServesCall t t')) := by
    intro he ha
    exact ⟨t, by rw [he, ht], .inr ⟨ha, .inl rfl⟩⟩
  -- a label moves `j'` on; that is `j`, or not
  have moved : ∀ {j' : JobId} {t₁ t₂ : Tracked}, s'.tracked = (s.setTracked j' t₂).tracked →
      s.tracked j' = some t₁ → (∀ b, a ≠ .task j b) → Tracked.ServesCall t₁ t₂ →
      ∃ t', s'.tracked j = some t' ∧ ((∃ b, a = .task j b ∧ t.served.step b = some t'.served) ∨
        ((∀ b, a ≠ .task j b) ∧ Tracked.ServesCall t t')) := by
    intro j' t₁ t₂ he ht₁ ha hserve
    by_cases hj : j = j'
    · subst hj
      rw [ht, Option.some.injEq] at ht₁
      subst ht₁
      exact ⟨t₂, by rw [he, setTracked_self], .inr ⟨ha, hserve⟩⟩
    · exact ⟨t, by rw [he, setTracked_of_ne hj, ht], .inr ⟨ha, .inl rfl⟩⟩
  cases h with
  | rejectSpawn _ _ => exact stay rfl (by simp)
  | spawnFails _ _ => exact stay rfl (by simp)
  | rejectCall _ _ => exact stay rfl (by simp)
  | refuse _ _ _ => exact stay rfl (by simp)
  | @spawn c user name child _ _ hnew =>
    have hj : j ≠ child.jobId := by
      intro he
      rw [he, hnew] at ht
      cases ht
    exact ⟨t, (setTracked_of_ne hj _ _).trans ht, .inr ⟨by simp, .inl rfl⟩⟩
  | enter _ _ hg he =>
    exact moved rfl (getTracker_ok.1 hg).1 (by simp) (Tracked.enter_serves he)
  | insert _ ht₁ he =>
    obtain ⟨-, rfl, -⟩ := Tracked.insert_cases he
    exact moved rfl ht₁ (by simp) (.inl rfl)
  | release _ ht₁ he =>
    obtain ⟨rfl, -⟩ := Tracked.release_cases he
    exact moved rfl ht₁ (by simp) (.inl rfl)
  | reply _ ht₁ he => exact moved rfl ht₁ (by simp) (Tracked.reply_serves he)
  | timeout _ ht₁ he => exact moved rfl ht₁ (by simp) (Tracked.timeout_serves he)
  | cancel _ ht₁ he => exact moved rfl ht₁ (by simp) (Tracked.cancel_serves he)
  | @task j' b t₁ t₂ ht₁ _ he =>
    by_cases hj : j = j'
    · subst hj
      rw [ht, Option.some.injEq] at ht₁
      subst ht₁
      obtain ⟨served, hs, rfl⟩ := Option.map_eq_some_iff.1 he
      exact ⟨_, setTracked_self .., .inl ⟨b, rfl, hs⟩⟩
    · refine ⟨t, (setTracked_of_ne hj _ _).trans ht, .inr ⟨fun b' hb => ?_, .inl rfl⟩⟩
      cases hb
      exact hj rfl

/-- The label with which kill request `c` is sent, or its send fails. -/
def sendReq (c : Nat) (j : JobId) : Act := .task j (.pipe (.kill c .send))

theorem Step.sendFailed {a : Act} (h : Step s a s') {t t' : Tracked} (ht : s.tracked j = some t)
    (ht' : s'.tracked j = some t') (c : Nat) : t'.served.pl.SendFailed c ↔
      t.served.pl.SendFailed c ∨ (a = sendReq c j ∧ t.served.pl.killCh.rxOpen = false) := by
  obtain ⟨t₁, ht₁, hcase⟩ := h.serves ht
  obtain rfl : t₁ = t' := Option.some.inj (ht₁.symm.trans ht')
  -- a step of the job's parts, which the label names if it is the send
  have served : ∀ {b : Served.Act}, t.served.step b = some t₁.served →
      (a = sendReq c j ↔ b = .pipe (.kill c .send)) → (t₁.served.pl.SendFailed c ↔
        t.served.pl.SendFailed c ∨ (a = sendReq c j ∧ t.served.pl.killCh.rxOpen = false)) := by
    intro b hb hab
    rcases Served.pl_of_step hb with ⟨b', rfl, hpl⟩ | ⟨hne, bc, hpl⟩
    · rw [Pipeline.sendFailed_step hpl c, hab, Served.Act.pipe.injEq]
    · have hno : ¬a = sendReq c j := by
        rw [hab]
        exact hne _
      rw [hpl]
      simp [hno, Pipeline.SendFailed]
  rcases hcase with ⟨b, ha, hb⟩ | ⟨hne, hsame | ⟨b, hb, hint⟩⟩
  · apply served hb
    rw [ha, sendReq, Act.task.injEq]
    simp
  · rw [hsame]
    simp [sendReq, hne]
  · apply served hb
    constructor
    · intro ha
      exact absurd ha (hne _)
    · intro hb'
      have hi : t.internal b = true := by rw [hb']; rfl
      rw [hint t] at hi
      cases hi

/-- The request is sent when `wait` has returned. -/
def SendsLate (c : Nat) (j : JobId) (s : Coord) (a : Act) : Prop :=
  a = sendReq c j ∧ ∃ t, s.tracked j = some t ∧ t.served.pl.trk.pc = .returned

/-- Between the call and its answer: the send fails exactly if it is late. -/
theorem sendFailed_run {mid : List Act} (hr : Reachable step init s) {t t' : Tracked}
    (ht : s.tracked j = some t) (hc : ¬t.served.pl.SendFailed c) (hmid : run step s mid = some s')
    (ht' : s'.tracked j = some t') :
    t'.served.pl.SendFailed c ↔ Met step (SendsLate c j) s mid := by
  refine (run_induct (motive := fun mid u => ∀ t', u.tracked j = some t' →
    (t'.served.pl.SendFailed c ↔ Met step (SendsLate c j) s mid)) ?_ ?_ hmid) t' ht'
  · intro t' ht'
    rw [ht, Option.some.injEq] at ht'
    rw [← ht']
    exact ⟨fun h => absurd h hc, fun h => absurd h not_met_nil⟩
  · intro mid u a u' hu ih hs t'' ht''
    obtain ⟨t₁, ht₁, -⟩ := reachable_served ⟨mid, hu⟩ ht
    rw [(step_of hs).sendFailed ht₁ ht'' c, met_snoc hu, ih t₁ ht₁]
    -- the channel is closed exactly if `wait` has returned
    have hclosed : t₁.served.pl.killCh.rxOpen = false ↔ t₁.served.pl.trk.pc = .returned := by
      obtain ⟨user, pid, now, -, hpl⟩ := ((Inv.reachable (hr.trans ⟨mid, hu⟩)).jobs j t₁ ht₁).inv
      rw [← Bool.not_eq_true, Pipeline.killCh_open hpl, not_not]
    simp only [SendsLate, hclosed, ht₁, Option.some.injEq, exists_eq_left']

/-- A call that has come to its end stays as it is. -/
theorem calls_run {mid : List Act} {call : Call} (hc : s.calls c = some call)
    (hmid : run step s mid = some s') : s'.calls c = some call ∨
      ∃ call', s'.calls c = some call' ∧ call'.pc.pending = false := by
  refine run_induct (motive := fun _ u => u.calls c = some call ∨
    ∃ call', u.calls c = some call' ∧ call'.pc.pending = false) (.inl hc) ?_ hmid
  rintro mid u a u' - (hold | ⟨call', hold, hend⟩) hs
  · rcases (step_of hs).keeps hold with hsame | ⟨-, -, pc, hnew, hend⟩
    · exact .inl hsame
    · exact .inr ⟨_, hnew, hend⟩
  · rcases (step_of hs).keeps hold with hsame | ⟨hp, -, -⟩
    · exact .inr ⟨call', hsame, hend⟩
    · rw [hend] at hp
      cases hp

/-! ## Does the answer agree with the record? -/

/-- `child.wait()` has returned `Ok` for the job. -/
def Reaped (acts : List Act) (j : JobId) : Prop :=
  ∃ status now, Act.task j (.pipe (.exit (.ok status) now)) ∈ acts

theorem isExited_iff {acts : List Act} (hr : run step init acts = some s) {t : Tracked}
    (ht : s.tracked j = some t) : t.job.state.isExited = true ↔ Reaped acts j := by
  obtain ⟨hrec, hseen⟩ := exit_recorded hr ht
  refine ⟨hseen, fun ⟨status, now, hm⟩ => ?_⟩
  rw [hrec status now hm]
  rfl

theorem killRes_notRunning {res : Except KillError Job} :
    Tracked.killRes j res = .error (.jobNotRunning j) ↔ res = .error .reqSendFailed := by
  cases res with
  | ok job => simp [Tracked.killRes]
  | error err => cases err <;> simp [Tracked.killRes]

/-- A `kill` call is turned away, or waits and has not sent its request yet. -/
theorem kill_begins {s₁ : Coord} (hcall : s.step (.call c user .kill j) = some s₁) :
    ∃ call, s₁.calls c = some call ∧ (call.pc.pending = true →
      call = { user, pc := .waiting .kill j } ∧
        ∃ t₁, s₁.tracked j = some t₁ ∧ ¬t₁.served.pl.SendFailed c) := by
  cases step_of hcall with
  | rejectCall _ _ => exact ⟨_, setCall_self .., fun hp => by cases hp⟩
  | refuse _ _ _ => exact ⟨_, setCall_self .., fun hp => by cases hp⟩
  | enter _ _ _ he =>
    refine ⟨_, setCall_self .., fun _ => ⟨?_, _, setTracked_self .., Tracked.enter_kill he⟩⟩
    rcases (Tracked.enter_cases he).2 with ⟨hps, -, -⟩ | ⟨-, rfl⟩
    · cases hps
    · rfl

/-- The answer to a `kill` call tells whether its send failed. -/
theorem kill_replied {s₁ s₂ s₃ : Coord} {mid : List Act} {res : Except CoordError Ret}
    (hcall : s.step (.call c user .kill j) = some s₁) (hmid : run step s₁ mid = some s₂)
    (hreply : s₂.step (.reply c) = some s₃)
    (hres : s₃.calls c = some { user, pc := .done res }) :
    ∃ t₁ t₂, s₁.tracked j = some t₁ ∧ ¬t₁.served.pl.SendFailed c ∧ s₂.tracked j = some t₂ ∧
      (res = .error (.jobNotRunning j) ↔ t₂.served.pl.SendFailed c) := by
  obtain ⟨call, hc₁, hwait⟩ := kill_begins hcall
  cases step_of hreply with
  | @reply _ user' op j' t₂ t' pc hc₂ ht₂ he =>
    -- the call that is answered is the one that was made
    obtain rfl : call = { user := user', pc := .waiting op j' } := by
      rcases calls_run hc₁ hmid with hsame | ⟨call', hsame, hend⟩
      · exact Option.some.inj (hsame.symm.trans hc₂)
      · rw [hc₂, Option.some.injEq] at hsame
        rw [← hsame] at hend
        cases hend
    obtain ⟨hcall, t₁, ht₁, hnot⟩ := hwait rfl
    cases hcall
    refine ⟨t₁, t₂, ht₁, hnot, ht₂, ?_⟩
    simp only [Tracked.reply] at he
    split at he
    · next r hk =>
      obtain ⟨-, rfl⟩ := Prod.mk.inj (Option.some.inj he)
      rw [setCall_self, Option.some.injEq, Call.mk.injEq] at hres
      rw [← CallPc.done.inj hres.2, killRes_notRunning, Pipeline.SendFailed, hk,
        KillCall.done.injEq]
    · cases he

/-- **Does `kill` agree with `ps`?** A `kill` call by the owner of a job, from its start in `s₀` to
its answer in `s₃`. It is answered with `JobNotRunning` if the record was `Exited` at the start, and
only if the record is not `Running`, exactly if a child reaped before the call has its `wait`
returned by the time the request is sent, and a `wait` that has returned by then has reaped its
child. -/
theorem kill_agrees_iff {pre mid : List Act} {s₀ s₁ s₂ s₃ : Coord} {t₀ t : Tracked}
    {res : Except CoordError Ret} (hpre : run step init pre = some s₀)
    (hown : s₀.getTracker user j = .ok t₀)
    (hcall : s₀.step (.call c user .kill j) = some s₁) (hmid : run step s₁ mid = some s₂)
    (hreply : s₂.step (.reply c) = some s₃)
    (hres : s₃.calls c = some { user, pc := .done res }) (ht : s₃.tracked j = some t) :
    ((t₀.job.state.isExited = true → res = .error (.jobNotRunning j)) ∧
      (res = .error (.jobNotRunning j) → t.job.state.isRunning = false)) ↔
    ((Reaped pre j → Met step (SendsLate c j) s₁ mid) ∧
      (Met step (SendsLate c j) s₁ mid → Reaped (pre ++ mid) j)) := by
  have hr₁ : run step init (pre ++ [.call c user .kill j]) = some s₁ :=
    run_snoc_iff.2 ⟨s₀, hpre, hcall⟩
  have hr₃ : run step init (pre ++ [.call c user .kill j] ++ mid ++ [.reply c]) = some s₃ :=
    run_snoc_iff.2 ⟨s₂, run_append_of hr₁ hmid, hreply⟩
  obtain ⟨t₁, t₂, ht₁, hnot, ht₂, hanswer⟩ := kill_replied hcall hmid hreply hres
  have hlate : res = .error (.jobNotRunning j) ↔ Met step (SendsLate c j) s₁ mid :=
    hanswer.trans (sendFailed_run ⟨_, hr₁⟩ ht₁ hnot hmid ht₂)
  have hbefore : t₀.job.state.isExited = true ↔ Reaped pre j :=
    isExited_iff hpre (getTracker_ok.1 hown).1
  have hafter : t.job.state.isRunning = false ↔ Reaped (pre ++ mid) j := by
    have hreaped : Reaped (pre ++ [.call c user .kill j] ++ mid ++ [.reply c]) j ↔
        Reaped (pre ++ mid) j := by
      simp [Reaped]
    rw [← hreaped, ← isExited_iff hr₃ ht]
    cases t.job.state with
    | running pid => simp [JobState.isRunning, JobState.isExited]
    | exited status => simp [JobState.isRunning, JobState.isExited]
  rw [hbefore, hlate, hafter]

section Runs

/-- A step of the parts of alice's job. -/
def ofJob (a : Pipeline.Act) : Act := .task ⟨"job"⟩ (.pipe a)

/-- Her job exits, its output is read to the end, and `wait` returns. -/
def returnedRun : List Act :=
  spawnRun ++ [ofJob (.exit (.ok (.exited 0)) ⟨2⟩),
    ofJob (.output .stdout .close), ofJob (.output .stdout .readEof), ofJob (.recvOutput .stdout),
    ofJob (.output .stderr .close), ofJob (.output .stderr .readEof), ofJob (.recvOutput .stderr),
    ofJob .send, ofJob .setRes]

/-- Her job exits, and a process it has started keeps its output open. -/
def openRun : List Act := spawnRun ++ [ofJob (.exit (.ok (.exited 0)) ⟨2⟩)]

/-- A read of the output fails while her job runs, and `wait` returns. -/
def brokenRun : List Act :=
  spawnRun ++ [ofJob (.output .stdout (.readErr "io")), ofJob (.output .stdout .send),
    ofJob (.recvOutput .stdout), ofJob .send, ofJob .setRes]

/-- The tracker takes the request of call `1`, and `child.kill()` fails. -/
def refusedKill : List Act :=
  [sendReq 1 ⟨"job"⟩, ofJob .recvKill, ofJob (.killRes (.error "invalid argument") ⟨3⟩),
    ofJob (.kill 1 .recv)]

theorem kill_agrees_iff_returnedRun : ∃ s₀ s₁ s₂ s₃ t₀ t res,
    run step init returnedRun = some s₀ ∧ s₀.getTracker ⟨"alice"⟩ ⟨"job"⟩ = .ok t₀ ∧
    s₀.step (.call 1 ⟨"alice"⟩ .kill ⟨"job"⟩) = some s₁ ∧
    run step s₁ [sendReq 1 ⟨"job"⟩] = some s₂ ∧ s₂.step (.reply 1) = some s₃ ∧
    s₃.calls 1 = some ⟨⟨"alice"⟩, .done res⟩ ∧ s₃.tracked ⟨"job"⟩ = some t ∧
    (t₀.job.state.isExited = true → res = .error (.jobNotRunning ⟨"job"⟩)) ∧
    (res = .error (.jobNotRunning ⟨"job"⟩) → t.job.state.isRunning = false) := by
  have hrun : ∃ s₀ s₁ s₂ s₃ t₀ t₁ t res,
      run step init returnedRun = some s₀ ∧ s₀.getTracker ⟨"alice"⟩ ⟨"job"⟩ = .ok t₀ ∧
      s₀.step (.call 1 ⟨"alice"⟩ .kill ⟨"job"⟩) = some s₁ ∧
      run step s₁ [sendReq 1 ⟨"job"⟩] = some s₂ ∧ s₂.step (.reply 1) = some s₃ ∧
      s₃.calls 1 = some ⟨⟨"alice"⟩, .done res⟩ ∧ s₃.tracked ⟨"job"⟩ = some t ∧
      s₁.tracked ⟨"job"⟩ = some t₁ ∧ t₁.served.pl.trk.pc = .returned :=
    ⟨_, _, _, _, _, _, _, _, rfl, rfl, rfl, rfl, rfl, rfl, rfl, rfl, rfl⟩
  obtain ⟨s₀, s₁, s₂, s₃, t₀, t₁, t, res, hpre, hown, hcall, hmid, hreply, hres, ht, ht₁, hpc⟩ :=
    hrun
  refine ⟨s₀, s₁, s₂, s₃, t₀, t, res, hpre, hown, hcall, hmid, hreply, hres, ht,
    (kill_agrees_iff hpre hown hcall hmid hreply hres ht).2 ⟨fun _ => ?_, fun _ => ?_⟩⟩
  · exact ⟨[], _, [], s₁, rfl, rfl, rfl, t₁, ht₁, hpc⟩
  · exact ⟨.exited 0, ⟨2⟩, by simp [returnedRun, ofJob]⟩

/-- The record is `Exited` and the kill is not answered with `JobNotRunning`; the record is
`Running` and it is. -/
theorem kill_disagrees :
    (∃ s₀ s₁ s₂ s₃ t₀ res, run step init openRun = some s₀ ∧
      s₀.getTracker ⟨"alice"⟩ ⟨"job"⟩ = .ok t₀ ∧
      s₀.step (.call 1 ⟨"alice"⟩ .kill ⟨"job"⟩) = some s₁ ∧ run step s₁ refusedKill = some s₂ ∧
      s₂.step (.reply 1) = some s₃ ∧ s₃.calls 1 = some ⟨⟨"alice"⟩, .done res⟩ ∧
      t₀.job.state.isExited = true ∧ res = .error (.kill (.failed "invalid argument"))) ∧
    (∃ s₀ s₁ s₂ s₃ t₀ t res, run step init brokenRun = some s₀ ∧
      s₀.getTracker ⟨"alice"⟩ ⟨"job"⟩ = .ok t₀ ∧
      s₀.step (.call 1 ⟨"alice"⟩ .kill ⟨"job"⟩) = some s₁ ∧
      run step s₁ [sendReq 1 ⟨"job"⟩] = some s₂ ∧ s₂.step (.reply 1) = some s₃ ∧
      s₃.calls 1 = some ⟨⟨"alice"⟩, .done res⟩ ∧ s₃.tracked ⟨"job"⟩ = some t ∧
      res = .error (.jobNotRunning ⟨"job"⟩) ∧ t.job.state.isRunning = true) :=
  ⟨⟨_, _, _, _, _, _, rfl, rfl, rfl, rfl, rfl, rfl, rfl, rfl⟩,
    ⟨_, _, _, _, _, _, _, rfl, rfl, rfl, rfl, rfl, rfl, rfl, rfl, rfl⟩⟩

end Runs

end Coord

end JobRunner
