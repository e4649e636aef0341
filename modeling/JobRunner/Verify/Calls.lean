import JobRunner.Verify.Coordinator

/-!
# What a call does to its job

Every step of the coordinator moves a job by one of the job's own steps, by one that a call takes on
it, or not at all (`Coord.Step.moves`). The steps a call takes on a job are about the subscription
or the kill request of this call, a kill request is made by the owner of the job, and a log stream
is opened only by the answer to a waiting `logs`.
-/

namespace JobRunner

open Lts

namespace Served

/-- The call that takes this step, if it is no step of the job's own parts. -/
def Act.callOf : Act → Option Nat
  | .openLogs i => some i
  | .abandon i => some i
  | .pipe (.kill c (.call _)) => some c
  | .pipe (.kill c .drop) => some c
  | .pipe (.bcast (.subscribe i)) => some i
  | .pipe (.bcast (.giveUp i)) => some i
  | _ => none

variable {s s' : Served} {i : SubId}

/-- A step of a forwarder sets its relay and the forwarder itself. -/
theorem stepFwd_sets {r : Relay} {f : Forwarder} {a : Forwarder.Act}
    (hr : s.pl.bc.subs i = .live r) (hs : s.stepFwd i r f a = some s') :
    ∃ r' f', s' = (s.setRelay i r').setFwd i f' := by
  have self := Inv.setRelay_self hr
  cases a with
  | recv =>
    obtain ⟨-, -, ⟨ev, q, -, -, rfl⟩ | ⟨q, -, rfl⟩ | ⟨-, -, rfl⟩⟩ := stepFwd_recv hs
    · exact ⟨_, _, rfl⟩
    · exact ⟨_, _, rfl⟩
    · exact ⟨_, _, rfl⟩
  | send =>
    obtain ⟨item, last, -, ⟨-, -, rfl⟩ | ⟨-, -, rfl⟩ | ⟨-, rfl⟩⟩ := stepFwd_send hs
    · exact ⟨r, _, by rw [self]⟩
    · exact ⟨_, _, rfl⟩
    · exact ⟨_, _, rfl⟩
  | clientRecv =>
    obtain ⟨f', -, rfl⟩ := stepFwd_client (.inl rfl) hs
    exact ⟨r, f', by rw [self]⟩
  | clientDrop =>
    obtain ⟨f', -, rfl⟩ := stepFwd_client (.inr rfl) hs
    exact ⟨r, f', by rw [self]⟩

/-- A forwarder is an old one, or has just been opened. -/
theorem fwd_came {f' : Forwarder} {a : Act} (hs : s.step a = some s')
    (hf' : s'.fwds i = some f') : (∃ f, s.fwds i = some f) ∨ a = .openLogs i := by
  cases a with
  | pipe a =>
    obtain ⟨-, pl, -, rfl⟩ := step_pipe hs
    exact .inl ⟨f', hf'⟩
  | abandon j =>
    obtain ⟨r, -, -, -, rfl⟩ := step_abandon hs
    exact .inl ⟨f', hf'⟩
  | openLogs j =>
    obtain ⟨r, -, -, -, rfl⟩ := step_openLogs hs
    by_cases hj : i = j
    · subst hj
      exact .inr rfl
    · exact .inl ⟨f', (Function.update_of_ne hj ..).symm.trans hf'⟩
  | fwd j a =>
    obtain ⟨r, f, hr, hf, hs⟩ := step_fwd hs
    obtain ⟨r', g, rfl⟩ := stepFwd_sets hr hs
    by_cases hj : i = j
    · subst hj
      exact .inl ⟨f, hf⟩
    · exact .inl ⟨f', (Function.update_of_ne hj ..).symm.trans hf'⟩

end Served

namespace Tracked

variable {t t' : Tracked} {c : Nat} {user : User} {j : JobId} {op : Op} {pc pc' : CallPc}
  {i : SubId}

/-- A step of call `c` that opens no stream, and asks for a kill only as `user`. -/
def CallStep (c : Nat) (user : User) (t t' : Tracked) : Prop :=
  t'.served = t.served ∨
    ∃ b : Served.Act, b.callOf = some c ∧ (∀ i, b ≠ .openLogs i) ∧
      (∀ c' u, b = .pipe (.kill c' (.call u)) → u = user) ∧ t.served.step b = some t'.served

theorem callOf_internal {b : Served.Act} (h : t.internal b = true) : b.callOf = none := by
  fun_cases Served.Act.callOf b with
  | case7 => rfl
  | _ => cases h

theorem serve_of_map {b : Served.Act} (h : (t.serve b).map (·, pc') = some (t', pc)) :
    t.serve b = some t' ∧ pc = pc' := by
  obtain ⟨u, hu, he⟩ := Option.map_eq_some_iff.1 h
  obtain ⟨rfl, rfl⟩ : u = t' ∧ pc' = pc := Prod.mk.inj he
  exact ⟨hu, rfl⟩

theorem step_of_serve {b : Served.Act} (h : (t.serve b).map (·, pc') = some (t', pc)) :
    t.served.step b = some t'.served := by
  obtain ⟨served, hserved, rfl⟩ := Option.map_eq_some_iff.1 (serve_of_map h).1
  exact hserved

namespace CallStep

theorem came (h : CallStep c user t t') {f' : Forwarder} (hf' : t'.served.fwds i = some f') :
    ∃ f, t.served.fwds i = some f := by
  rcases h with he | ⟨b, -, hb, -, hs⟩
  · exact ⟨f', he ▸ hf'⟩
  · exact (Served.fwd_came hs hf').resolve_right (hb i)

theorem stay (h : some (t, pc') = some (t', pc)) : CallStep c user t t' := by
  obtain ⟨rfl, rfl⟩ := Prod.mk.inj (Option.some.inj h)
  exact .inl rfl

theorem serve {b : Served.Act} (hc : b.callOf = some c) (hb : ∀ i, b ≠ .openLogs i)
    (hk : ∀ c' u, b = .pipe (.kill c' (.call u)) → u = user)
    (h : (t.serve b).map (·, pc') = some (t', pc)) : CallStep c user t t' :=
  .inr ⟨b, hc, hb, hk, step_of_serve h⟩

theorem enter (h : t.enter c user j op = some (t', pc)) : CallStep c user t t' := by
  cases op with
  | ps => exact .stay h
  | logs => exact .serve rfl (by simp) (by simp) h
  | kill =>
    refine .serve rfl (by simp) (fun c' u he => ?_) h
    cases he
    rfl

/-- Only the answer to a `logs` opens a stream, that of the call. -/
theorem reply (h : t.reply c j op = some (t', pc)) :
    CallStep c user t t' ∨ (op = .logs ∧ t.served.step (.openLogs c) = some t'.served) := by
  cases op with
  | ps => cases h
  | kill =>
    simp only [Tracked.reply] at h
    split at h
    · exact .inl (.stay h)
    · cases h
  | logs =>
    simp only [Tracked.reply] at h
    split at h
    · exact .inr ⟨rfl, step_of_serve h⟩
    · exact .inl (.stay h)
    · split at h
      · cases h
      · exact .inl (.serve rfl (by simp) (by simp) h)
    · cases h

theorem timeout (h : t.timeout c op = some (t', pc)) : CallStep c user t t' := by
  cases op with
  | ps => cases h
  | kill => cases h
  | logs =>
    simp only [Tracked.timeout] at h
    split at h
    · exact .serve rfl (by simp) (by simp) h
    · cases h

theorem cancel (h : t.cancel c op = some (t', pc)) : CallStep c user t t' := by
  cases op with
  | ps => cases h
  | kill =>
    simp only [Tracked.cancel] at h
    split at h
    · exact .stay h
    · exact .serve rfl (by simp) (by simp) h
  | logs =>
    simp only [Tracked.cancel] at h
    split at h
    · exact .serve rfl (by simp) (by simp) h
    · exact .stay h
    · exact .serve rfl (by simp) (by simp) h

end CallStep

end Tracked

namespace Coord

variable {s s' : Coord}

/-- The call that a label is a step of. -/
def Act.callNo : Act → Option Nat
  | .spawn c _ _ _ => some c
  | .insert c => some c
  | .call c _ _ _ => some c
  | .reply c => some c
  | .timeout c => some c
  | .cancel c => some c
  | .task _ _ => none

/-- What a step makes of job `j`. -/
inductive Moves (s : Coord) (a : Act) (j : JobId) (t t' : Tracked) : Prop
  | stay (h : t'.served = t.served)
  | task {b} (ha : a = .task j b) (hi : t.internal b = true) (h : t.served.step b = some t'.served)
  | call {c} (ha : a.callNo = some c) (h : Tracked.CallStep c t.job.user t t')
  | stream {c user} (ha : a = .reply c) (hc : s.calls c = some { user, pc := .waiting .logs j })
      (h : t.served.step (.openLogs c) = some t'.served)

theorem setTracked_cases {j j' : JobId} {t t' : Tracked}
    (h : (s.setTracked j t).tracked j' = some t') :
    (j' = j ∧ t = t') ∨ (j' ≠ j ∧ s.tracked j' = some t') := by
  by_cases hj : j' = j
  · subst hj
    rw [setTracked_self] at h
    exact .inl ⟨rfl, Option.some.inj h⟩
  · rw [setTracked_of_ne hj] at h
    exact .inr ⟨hj, h⟩

/-- Every step moves a job, or makes a new one. -/
theorem Step.moves {a : Act} (h : Step s a s') {j : JobId} {t' : Tracked}
    (ht' : s'.tracked j = some t') :
    (∃ t, s.tracked j = some t ∧ Moves s a j t t') ∨
      (s.tracked j = none ∧ ∃ child : Spawned, ∃ user, t' = Tracked.start (child.job user)) := by
  have moved : ∀ {j₁ : JobId} {t t₁ : Tracked}, s.tracked j₁ = some t →
      (s.setTracked j₁ t₁).tracked j = some t' → Moves s a j₁ t t₁ →
      ∃ t, s.tracked j = some t ∧ Moves s a j t t' := by
    intro j₁ t t₁ ht hset hm
    rcases setTracked_cases hset with ⟨rfl, rfl⟩ | ⟨-, hold⟩
    · exact ⟨t, ht, hm⟩
    · exact ⟨t', hold, .stay rfl⟩
  cases h with
  | rejectSpawn | spawnFails | rejectCall | refuse => exact .inl ⟨t', ht', .stay rfl⟩
  | spawn _ _ hnew =>
    rcases setTracked_cases ht' with ⟨rfl, rfl⟩ | ⟨-, hold⟩
    · exact .inr ⟨hnew, _, _, rfl⟩
    · exact .inl ⟨t', hold, .stay rfl⟩
  | enter _ _ hg he =>
    obtain ⟨ht, -, rfl⟩ := getTracker_ok.1 hg
    exact .inl (moved ht ht' (.call rfl (.enter he)))
  | insert _ ht he =>
    obtain ⟨-, rfl, -⟩ := Tracked.insert_cases he
    exact .inl (moved ht ht' (.stay rfl))
  | release _ ht he =>
    obtain ⟨rfl, -⟩ := Tracked.release_cases he
    exact .inl (moved ht ht' (.stay rfl))
  | reply hc ht he =>
    rcases Tracked.CallStep.reply he with hstep | ⟨rfl, hopen⟩
    · exact .inl (moved ht ht' (.call rfl hstep))
    · exact .inl (moved ht ht' (.stream rfl hc hopen))
  | timeout _ ht he => exact .inl (moved ht ht' (.call rfl (.timeout he)))
  | cancel _ ht he => exact .inl (moved ht ht' (.call rfl (.cancel he)))
  | task ht hint he =>
    obtain ⟨served, hserved, rfl⟩ := Option.map_eq_some_iff.1 he
    exact .inl (moved ht ht' (.task rfl hint hserved))

/-- A call that waits has waited before, or has just passed the owner check. -/
theorem Step.waits {a : Act} (h : Step s a s') {c : Nat} {user : User} {op : Op} {j : JobId}
    (hc : s'.calls c = some { user, pc := .waiting op j }) :
    s.calls c = some { user, pc := .waiting op j } ∨
      ∃ t t', s.tracked j = some t ∧ s'.tracked j = some t' ∧
        t.enter c user j op = some (t', .waiting op j) := by
  have ended : ∀ {c' : Nat} {call : Call} {u : Coord}, call.pc.pending = false →
      (u.setCall c' call).calls c = some { user, pc := .waiting op j } → u.calls c = some
        { user, pc := .waiting op j } := by
    intro c' call u hend hcall
    rcases setCall_cases hcall with ⟨rfl, rfl⟩ | ⟨-, hold⟩
    · cases hend
    · exact hold
  cases h with
  | rejectSpawn | spawnFails | rejectCall | refuse => exact .inl (ended rfl hc)
  | spawn =>
    rcases setCall_cases hc with ⟨-, he⟩ | ⟨-, hold⟩
    · cases he
    · exact .inl hold
  | enter _ _ hg he =>
    rcases setCall_cases hc with ⟨rfl, hcall⟩ | ⟨-, hold⟩
    · cases hcall
      rcases (Tracked.enter_cases he).2 with ⟨-, -, hpc⟩ | ⟨-, hpc⟩
      · cases hpc
      · cases hpc
        exact .inr ⟨_, _, (getTracker_ok.1 hg).1, setTracked_self .., he⟩
    · exact .inl hold
  | insert _ _ he =>
    obtain ⟨-, -, rfl⟩ := Tracked.insert_cases he
    exact .inl (ended rfl hc)
  | release _ _ he =>
    obtain ⟨-, rfl⟩ := Tracked.release_cases he
    exact .inl (ended rfl hc)
  | reply _ _ he =>
    obtain ⟨-, res, rfl, -⟩ := Tracked.reply_cases he
    exact .inl (ended rfl hc)
  | timeout _ _ he =>
    obtain ⟨-, err, rfl⟩ := Tracked.timeout_cases he
    exact .inl (ended rfl hc)
  | cancel _ _ he =>
    obtain ⟨-, rfl⟩ := Tracked.cancel_cases he
    exact .inl (ended rfl hc)
  | task => exact .inl hc

/-- A label of a call that has begun ends it. -/
theorem Step.ends {a : Act} (h : Step s a s') {c : Nat} (ha : a.callNo = some c) {call : Call}
    (hc : s.calls c = some call) : ∃ call', s'.calls c = some call' ∧ call'.pc.pending = false := by
  have fresh : ∀ {c'}, some c' = some c → s.calls c' ≠ none := by
    intro c' he hnone
    rw [Option.some.inj he, hc] at hnone
    cases hnone
  cases h with
  | rejectSpawn hn | spawnFails hn | spawn hn | rejectCall hn | refuse hn | enter hn =>
    exact (fresh ha hn).elim
  | insert _ _ he =>
    obtain rfl := Option.some.inj ha
    obtain ⟨-, -, rfl⟩ := Tracked.insert_cases he
    exact ⟨_, setCall_self .., rfl⟩
  | release _ _ he =>
    obtain rfl := Option.some.inj ha
    obtain ⟨-, rfl⟩ := Tracked.release_cases he
    exact ⟨_, setCall_self .., rfl⟩
  | reply _ _ he =>
    obtain rfl := Option.some.inj ha
    obtain ⟨-, res, rfl, -⟩ := Tracked.reply_cases he
    exact ⟨_, setCall_self .., rfl⟩
  | timeout _ _ he =>
    obtain rfl := Option.some.inj ha
    obtain ⟨-, err, rfl⟩ := Tracked.timeout_cases he
    exact ⟨_, setCall_self .., rfl⟩
  | cancel _ _ he =>
    obtain rfl := Option.some.inj ha
    obtain ⟨-, rfl⟩ := Tracked.cancel_cases he
    exact ⟨_, setCall_self .., rfl⟩
  | task => cases ha

end Coord

end JobRunner
