import JobRunner.Verify.Store

/-!
# What the job store promises its clients

Laws of the abstract store, by induction over its runs, and what they say of the coordinator, which
is one (`Coord.refines`): records in answers belong to the caller, nobody else has killed the job,
and what they say stays true (`Coord.records_truthful`); log streams that have ended have delivered
the same items, whoever asked and whenever (`Coord.ended_agree`).
-/

namespace JobRunner

open Lts Store

theorem Job.isFresh_iff {job : Job} :
    job.isFresh = true ↔ job.state.isRunning = true ∧ job.endedAt = none ∧ job.killed = none := by
  simp only [isFresh, Bool.and_eq_true, Option.isNone_iff_eq_none, and_assoc]

namespace Store

/-! ## Jobs -/

namespace Entry

/-- A record of a job that only its owner has killed, and its log. -/
structure Inv (e : Entry) : Prop where
  ended : e.job.endedAt.isSome = true ↔ e.job.state.isExited = true
  killed : ∀ k, e.job.killed = some k → k.user = e.job.user
  log : Journal.Inv logFormat e.log

variable {e e' : Entry}

theorem Inv.start {job : Job} (h : job.isFresh = true) : Inv (Entry.start job) where
  ended := by
    obtain ⟨hrunning, hended, -⟩ := Job.isFresh_iff.1 h
    simp [Entry.start, hended, Tracker.not_exited_of_running hrunning]
  killed k hk := by
    have hsome : job.killed = some k := hk
    rw [(Job.isFresh_iff.1 h).2.2] at hsome
    cases hsome
  log := .empty

theorem logStep_cases {a : Journal.Act FrameEvent FrameResult SubId}
    (h : e.logStep a = some e') :
    ∃ log, e.log.step logFormat a = some log ∧ e' = { e with log } := by
  obtain ⟨log, hlog, rfl⟩ := Option.map_eq_some_iff.1 h
  exact ⟨log, hlog, rfl⟩

/-- A step changes the record of a running job, or takes a step of the log. -/
theorem step_cases {b : EntryAct} (h : e.step b = some e') :
    (∃ status now, e.job.state.isRunning = true ∧ e' = { e with
      job := { e.job with endedAt := some now, state := .exited status } }) ∨
    (∃ now, e.job.state.isRunning = true ∧ e' = { e with
      job := { e.job with killed := some { killedAt := now, user := e.job.user } } }) ∨
    ∃ a, e.logStep a = some e' := by
  cases b with
  | exit status now =>
    simp only [step, Option.ite_none_right_eq_some, Option.some.injEq] at h
    exact .inl ⟨status, now, h.1, h.2.symm⟩
  | kill c now =>
    simp only [step, Option.ite_none_right_eq_some, Option.some.injEq] at h
    obtain ⟨⟨hrun, -⟩, rfl⟩ := h
    exact .inr (.inl ⟨now, hrun, rfl⟩)
  | write ev =>
    simp only [step] at h
    split at h
    · cases h
    · exact .inr (.inr ⟨_, h⟩)
  | deliver i item => exact .inr (.inr ⟨_, h⟩)
  | close i => exact .inr (.inr ⟨_, h⟩)

/-- From one moment to a later one. -/
structure Later (e e' : Entry) : Prop where
  job : Tracker.LifeCycle e.job e'.job
  listed : e.listed = true → e'.listed = true
  log : Reachable (Journal.step logFormat) e.log e'.log

namespace Later

theorem refl (e : Entry) : Later e e := ⟨.refl _, id, .refl _⟩

theorem trans {e'' : Entry} (h : Later e e') (h' : Later e' e'') : Later e e'' :=
  ⟨h.job.trans h'.job, h'.listed ∘ h.listed, h.log.trans h'.log⟩

end Later

theorem later_logStep {a : Journal.Act FrameEvent FrameResult SubId} (hi : Inv e)
    (h : e.logStep a = some e') : Inv e' ∧ Later e e' := by
  obtain ⟨log, hlog, rfl⟩ := logStep_cases h
  exact ⟨{ hi with log := hi.log.step hlog }, .refl _, id, .single hlog⟩

theorem later_step {b : EntryAct} (hi : Inv e) (h : e.step b = some e') : Inv e' ∧ Later e e' := by
  rcases step_cases h with ⟨status, now, hrun, rfl⟩ | ⟨now, hrun, rfl⟩ | ⟨a, ha⟩
  · have hx := Tracker.not_exited_of_running hrun
    refine ⟨{ hi with ended := by simp [JobState.isExited] }, ⟨?_, id, .refl _⟩⟩
    exact ⟨rfl, rfl, rfl, id, fun hexited => by rw [hx] at hexited; cases hexited⟩
  · have hx := Tracker.not_exited_of_running hrun
    refine ⟨{ hi with killed := fun k hk => ?_ }, ⟨?_, id, .refl _⟩⟩
    · obtain rfl : { killedAt := now, user := e.job.user } = k := Option.some.inj hk
      rfl
    · exact ⟨rfl, rfl, rfl, fun _ => rfl, fun hexited => by rw [hx] at hexited; cases hexited⟩
  · exact later_logStep hi ha

end Entry

/-! ## Runs -/

variable {S S' : Store}

/-- Every job is as its invariant says, and the records in answers are earlier ones of the jobs. -/
structure Inv (S : Store) : Prop where
  entries : ∀ j e, S.entries j = some e → e.Inv ∧ e.job.id = j
  answers : ∀ c user job, S.answers c = some (user, .done (.ok (.job job))) →
    job.user = user ∧ (job.endedAt.isSome = true ↔ job.state.isExited = true) ∧
      (∀ k, job.killed = some k → k.user = user) ∧
      ∃ e, S.entries job.id = some e ∧ e.listed = true ∧ Tracker.LifeCycle job e.job

theorem setEntry_cases {j j' : JobId} {e e' : Entry}
    (h : (S.setEntry j e).entries j' = some e') :
    (j' = j ∧ e = e') ∨ (j' ≠ j ∧ S.entries j' = some e') := by
  by_cases hj : j' = j
  · subst hj
    exact .inl ⟨rfl, by simpa [setEntry] using h⟩
  · exact .inr ⟨hj, by simpa [setEntry, hj] using h⟩

theorem setAnswer_cases {c c' : Nat} {user user' : User} {a a' : Answer}
    (h : (S.setAnswer c user a).answers c' = some (user', a')) :
    (c' = c ∧ user = user' ∧ a = a') ∨ (c' ≠ c ∧ S.answers c' = some (user', a')) := by
  by_cases hc : c' = c
  · subst hc
    have he : (user, a) = (user', a') := by simpa [setAnswer] using h
    exact .inl ⟨rfl, Prod.mk.inj he⟩
  · exact .inr ⟨hc, by simpa [setAnswer, hc] using h⟩

theorem find_some {user : User} {j : JobId} {e : Entry} (h : S.find user j = some e) :
    S.entries j = some e ∧ e.listed = true ∧ e.job.user = user := by
  obtain ⟨he, hlisted⟩ := Option.filter_eq_some_iff.1 h
  simp only [Bool.and_eq_true, decide_eq_true_eq] at hlisted
  exact ⟨he, hlisted.1, hlisted.2⟩

/-- The job that a call asks to kill. -/
theorem step_ask {c : Nat} {user : User} {j : JobId} (h : S.step (.ask c user j) = some S') :
    ∃ e, S.find user j = some e ∧ S' = S.setEntry j (e.ask c) := by
  simp only [step] at h
  split at h
  · next e _ he => exact ⟨e, he, (Option.some.inj h).symm⟩
  · cases h

/-- Every job goes on, or is the one that has come. -/
theorem entries_step (h : Inv S) {a : Act} (hs : S.step a = some S') :
    (∀ j e, S.entries j = some e → ∃ e', S'.entries j = some e' ∧ e.Later e') ∧
    ∀ j e', S'.entries j = some e' → e'.Inv ∧ e'.job.id = j := by
  have set : ∀ {j : JobId} {e e₁ : Entry}, S.entries j = some e → e₁.Inv → e.Later e₁ →
      (∀ j' e, S.entries j' = some e → ∃ e', (S.setEntry j e₁).entries j' = some e' ∧ e.Later e') ∧
      ∀ j' e', (S.setEntry j e₁).entries j' = some e' → e'.Inv ∧ e'.job.id = j' := by
    intro j e e₁ he hinv hlater
    refine ⟨fun j' e' he' => ?_, fun j' e' he' => ?_⟩
    · by_cases hj : j' = j
      · subst hj
        obtain rfl : e = e' := Option.some.inj (he.symm.trans he')
        exact ⟨e₁, by simp [setEntry], hlater⟩
      · exact ⟨e', by simpa [setEntry, hj] using he', .refl _⟩
    · rcases setEntry_cases he' with ⟨rfl, rfl⟩ | ⟨-, hold⟩
      · exact ⟨hinv, hlater.job.id_eq.trans (h.entries _ _ he).2⟩
      · exact h.entries j' e' hold
  have stay : (∀ j e, S.entries j = some e → ∃ e', S.entries j = some e' ∧ e.Later e') ∧
      ∀ j e', S.entries j = some e' → e'.Inv ∧ e'.job.id = j :=
    ⟨fun j e he => ⟨e, he, .refl _⟩, h.entries⟩
  cases a with
  | start job =>
    simp only [step] at hs
    split at hs
    · next hnone =>
      simp only [Option.ite_none_right_eq_some, Option.some.injEq] at hs
      obtain ⟨hfresh, rfl⟩ := hs
      refine ⟨fun j e he => ?_, fun j e' he' => ?_⟩
      · have hj : j ≠ job.id := by
          rintro rfl
          rw [hnone] at he
          cases he
        exact ⟨e, by simpa [setEntry, hj] using he, .refl _⟩
      · rcases setEntry_cases he' with ⟨rfl, rfl⟩ | ⟨-, hold⟩
        · exact ⟨.start hfresh, rfl⟩
        · exact h.entries j e' hold
    · cases hs
  | list c job =>
    simp only [step] at hs
    split at hs
    · next e hans he =>
      simp only [Option.ite_none_right_eq_some, Option.some.injEq] at hs
      obtain ⟨-, rfl⟩ := hs
      have hinv : Entry.Inv { e with listed := true } := { (h.entries _ _ he).1 with }
      exact set he hinv ⟨.refl _, fun _ => rfl, .refl _⟩
    · cases hs
  | ask c user j =>
    obtain ⟨e, hfind, rfl⟩ := step_ask hs
    obtain ⟨he, -, -⟩ := find_some hfind
    have hinv : Entry.Inv (e.ask c) := { (h.entries _ _ he).1 with }
    exact set he hinv ⟨.refl _, id, .refl _⟩
  | answer c user q a =>
    simp only [step] at hs
    split at hs
    · simp only [Option.ite_none_right_eq_some, Option.map_eq_some_iff] at hs
      obtain ⟨-, S₁, hopen, rfl⟩ := hs
      unfold openStream at hopen
      split at hopen
      · split at hopen
        · cases hopen
        · next e he =>
          obtain ⟨e₁, hlog, rfl⟩ := Option.map_eq_some_iff.1 hopen
          obtain ⟨hinv, hlater⟩ := Entry.later_logStep (h.entries _ _ he).1 hlog
          exact set he hinv hlater
      · cases hopen
        exact stay
    · cases hs
  | job j b =>
    simp only [step] at hs
    split at hs
    · cases hs
    · next e he =>
      obtain ⟨e₁, hstep, rfl⟩ := Option.map_eq_some_iff.1 hs
      obtain ⟨hinv, hlater⟩ := Entry.later_step (h.entries _ _ he).1 hstep
      exact set he hinv hlater

/-- A record in a truthful answer is that of a listed job of the caller. -/
theorem record_of_truthful {c : Nat} {user : User} {q : Query} {job : Job}
    (h : S.truthful c user q (.done (.ok (.job job))) = true) :
    ∃ j e, S.find user j = some e ∧ job = e.job := by
  cases q with
  | spawn name => cases h
  | job op j =>
    cases op with
    | logs => cases h
    | ps =>
      simp only [truthful, Option.any_eq_true, decide_eq_true_eq] at h
      exact ⟨j, h⟩
    | kill =>
      simp only [truthful, Option.any_eq_true, Bool.and_eq_true, decide_eq_true_eq] at h
      obtain ⟨e, he, ⟨⟨hjob, -⟩, -⟩, -⟩ := h
      exact ⟨j, e, he, hjob⟩

theorem answers_openStream {c : Nat} {q : Query} {a : Answer} (h : S.openStream c q a = some S') :
    S'.answers = S.answers := by
  unfold openStream at h
  split at h
  · split at h
    · cases h
    · obtain ⟨e, -, rfl⟩ := Option.map_eq_some_iff.1 h
      rfl
  · cases h
    rfl

/-- An answer with a record is an old one, that of `spawn`, or that of a job found. -/
theorem record_of_step {a : Act} (hs : S.step a = some S') {c : Nat} {user : User} {job : Job}
    (h : S'.answers c = some (user, .done (.ok (.job job)))) :
    S.answers c = some (user, .done (.ok (.job job))) ∨
    (∃ e, job.user = user ∧ S.entries job.id = some e ∧ job.isFresh = true ∧
      job.startedAt = e.job.startedAt ∧ job.user = e.job.user ∧
      S'.entries job.id = some { e with listed := true }) ∨
    ∃ j e, S.find user j = some e ∧ job = e.job := by
  cases a with
  | start job' =>
    simp only [step] at hs
    split at hs
    · simp only [Option.ite_none_right_eq_some, Option.some.injEq] at hs
      obtain ⟨-, rfl⟩ := hs
      exact .inl h
    · cases hs
  | list c' job' =>
    simp only [step] at hs
    split at hs
    · next e _ he =>
      simp only [Option.ite_none_right_eq_some, Option.some.injEq] at hs
      obtain ⟨⟨-, hfresh, hu, hstart⟩, rfl⟩ := hs
      rcases setAnswer_cases h with ⟨-, rfl, hans⟩ | ⟨-, hold⟩
      · cases hans
        exact .inr (.inl ⟨e, rfl, he, hfresh, hstart, hu, by simp [setEntry, setAnswer]⟩)
      · exact .inl hold
    · cases hs
  | ask c' user' j =>
    obtain ⟨e, -, rfl⟩ := step_ask hs
    exact .inl h
  | answer c' user' q a =>
    simp only [step] at hs
    split at hs
    · simp only [Option.ite_none_right_eq_some, Option.map_eq_some_iff] at hs
      obtain ⟨htrue, S₁, hopen, rfl⟩ := hs
      rcases setAnswer_cases h with ⟨-, rfl, rfl⟩ | ⟨-, hold⟩
      · exact .inr (.inr (record_of_truthful htrue))
      · rw [answers_openStream hopen] at hold
        exact .inl hold
    · cases hs
  | job j b =>
    simp only [step] at hs
    split at hs
    · cases hs
    · obtain ⟨e₁, -, rfl⟩ := Option.map_eq_some_iff.1 hs
      exact .inl h

namespace Inv

theorem init : Inv init where
  entries j e he := by cases he
  answers c user job h := by cases h

theorem step (h : Inv S) {a : Act} (hs : S.step a = some S') : Inv S' := by
  obtain ⟨hlater, hentries⟩ := entries_step h hs
  refine ⟨hentries, fun c user job ha => ?_⟩
  rcases record_of_step hs ha with
    hold | ⟨e, hu, he, hfresh, hstart, hjob, he'⟩ | ⟨j, e, hfind, rfl⟩
  · obtain ⟨hu, hended, hkilled, e, he, hlisted, hlife⟩ := h.answers c user job hold
    obtain ⟨e', he', hl⟩ := hlater _ e he
    exact ⟨hu, hended, hkilled, e', he', hl.listed hlisted, hlife.trans hl.job⟩
  · -- the record of a job that has just been listed
    have hstart' := Entry.Inv.start hfresh
    have hid : e.job.id = job.id := (h.entries _ _ he).2
    obtain ⟨hrunning, -, hnone⟩ := Job.isFresh_iff.1 hfresh
    have hlife : Tracker.LifeCycle job e.job := by
      refine ⟨hid, hjob.symm, hstart.symm, fun hk => ?_, fun hx => ?_⟩
      · rw [hnone] at hk
        cases hk
      · rw [Tracker.not_exited_of_running hrunning] at hx
        cases hx
    exact ⟨hu, hstart'.ended, fun k hk => (hstart'.killed k hk).trans hu, _, he', rfl, hlife⟩
  · obtain ⟨he, hlisted, hu⟩ := find_some hfind
    obtain ⟨hinv, hid⟩ := h.entries j e he
    obtain ⟨e', he', hl⟩ := hlater j e he
    refine ⟨hu, hinv.ended, fun k hk => (hinv.killed k hk).trans hu, e', ?_, hl.listed hlisted,
      hl.job⟩
    rw [hid]
    exact he'

/-- Every run goes on with the jobs there are. -/
theorem run (h : Inv S) {acts : List Act} (hr : Lts.run Store.step S acts = some S') :
    Inv S' ∧ ∀ j e, S.entries j = some e → ∃ e', S'.entries j = some e' ∧ e.Later e' := by
  refine Reachable.invariant (I := fun S' => Inv S' ∧ ∀ j e, S.entries j = some e →
    ∃ e', S'.entries j = some e' ∧ e.Later e') ⟨acts, hr⟩ ⟨h, fun j e he => ⟨e, he, .refl _⟩⟩ ?_
  rintro S₁ a S₂ ⟨h₁, hl⟩ hs
  refine ⟨h₁.step hs, fun j e he => ?_⟩
  obtain ⟨e₁, he₁, hl₁⟩ := hl j e he
  obtain ⟨e₂, he₂, hl₂⟩ := (entries_step h₁ hs).1 j e₁ he₁
  exact ⟨e₂, he₂, hl₁.trans hl₂⟩

end Inv

end Store

/-! ## The coordinator -/

namespace Coord

variable {s s' : Coord}

/-- The laws of the store hold of a coordinator and what becomes of it. -/
theorem Refining.laws (h : s.Refining) (hi : s.abs.Inv) {acts : List Act}
    (hr : Lts.run Coord.step s acts = some s') :
    s'.Refining ∧ s'.abs.Inv ∧ ∀ j t, s.tracked j = some t →
      ∃ t', s'.tracked j = some t' ∧ t.entry.Later t'.entry := by
  obtain ⟨h', habs⟩ := h.run hr
  obtain ⟨hi', hl⟩ := hi.run habs
  refine ⟨h', hi', fun j t ht => ?_⟩
  obtain ⟨e', he', hlater⟩ := hl j t.entry (abs_entries ht)
  obtain ⟨t', ht', rfl⟩ := Option.map_eq_some_iff.1 he'
  exact ⟨t', ht', hlater⟩

/-- A record that a call has been answered with is one of the caller's own jobs. It has an end time
if and only if it has exited, names nobody but the caller as its killer, and the job's record has
since only moved on from it: an exited record is still the job's record, letter by letter, as long
as `Child::kill` fails once `Child::wait` has returned `Ok` (`Tracker.killReturns`). -/
theorem records_truthful {acts : List Act} (hr : run Coord.step init acts = some s) {c : Nat}
    {user : User} {job : Job} (hc : s.calls c = some { user, pc := .done (.ok (.job job)) }) :
    job.user = user ∧ (job.endedAt.isSome = true ↔ job.state.isExited = true) ∧
    (∀ k, job.killed = some k → k.user = user) ∧
    ∃ t, s.tracked job.id = some t ∧ t.registered = true ∧ Tracker.LifeCycle job t.job := by
  obtain ⟨-, hi, -⟩ := Refining.init.laws .init hr
  have hans : s.abs.answers c = some (user, .done (.ok (.job job))) := by
    simp [abs, hc, Call.answer]
  obtain ⟨hu, hended, hkilled, e, he, hlisted, hlife⟩ := hi.answers c user job hans
  obtain ⟨t, ht, rfl⟩ := Option.map_eq_some_iff.1 he
  exact ⟨hu, hended, hkilled, t, ht, hlisted, hlife⟩

theorem records_truthful_spawnRun : ∃ s job, run Coord.step init spawnRun = some s ∧
    s.calls 0 = some { user := ⟨"alice"⟩, pc := .done (.ok (.job job)) } ∧
    ∃ t, s.tracked job.id = some t ∧ t.registered = true ∧ Tracker.LifeCycle job t.job := by
  have hrun : ((run Coord.step init spawnRun).bind fun s => s.calls 0) = some {
      user := ⟨"alice"⟩
      pc := .done (.ok (.job (Job.started ⟨"job"⟩ ⟨"alice"⟩ ⟨7⟩ ⟨1⟩))) } :=
    rfl
  obtain ⟨s, hs, hc⟩ := Option.bind_eq_some_iff.1 hrun
  exact ⟨s, _, hs, hc, (records_truthful hs hc).2.2.2⟩

/-- The client of a log stream that has ended has received what any other client of the job has,
at any later time too, and if the stream of the other one has ended, exactly that. -/
theorem ended_agree {acts acts' : List Act} (hr : run Coord.step init acts = some s)
    (hr' : run Coord.step s acts' = some s') {j : JobId} {t t' : Tracked} {i i' : SubId}
    {f f' : Forwarder} (ht : s.tracked j = some t) (ht' : s'.tracked j = some t')
    (hf : t.served.fwds i = some f) (hf' : t'.served.fwds i' = some f') (hend : f.ended = true) :
    f'.got <+: f.got ∧ (f'.ended = true → f'.got = f.got) := by
  obtain ⟨h, hi, -⟩ := Refining.init.laws .init hr
  obtain ⟨-, hi', hl⟩ := h.laws hi hr'
  obtain ⟨t₁, ht₁, hlater⟩ := hl j t ht
  obtain rfl : t' = t₁ := Option.some.inj (ht'.symm.trans ht₁)
  have hread : t.entry.log.readers i = some f.reader := by simp [Tracked.entry, hf]
  have hread' : t'.entry.log.readers i' = some f'.reader := by simp [Tracked.entry, hf']
  exact Journal.closed_agree (hi.entries _ _ (abs_entries ht)).1.log
    (hi'.entries _ _ (abs_entries ht')).1.log hlater.log hread hread' hend

/-- The step of alice's log stream and its job that a step of the job's own parts is. -/
def ofServed (j : JobId) : Served.Act → Act
  | .pipe (.bcast (.subscribe i)) => .call i ⟨"alice"⟩ .logs j
  | .openLogs i => .reply i
  | a => .task j a

/-- A log stream of a job that has ended with one byte of output. -/
def laterRun (i : SubId) : List Served.Act :=
  [.pipe (.bcast (.subscribe i)), .pipe (.bcast (.sendReq i)), .pipe (.bcast (.req i)),
    .openLogs i, .pipe (.bcast (.relay i .send)), .fwd i .recv, .fwd i .send, .fwd i .clientRecv,
    .pipe (.bcast (.relay i .send)), .fwd i .recv, .fwd i .clientRecv]

theorem ended_agree_laterRun : ∃ s s' t t' f f',
    run Coord.step init (spawnRun ++ (Served.logsRun 1 104).map (ofServed ⟨"job"⟩)) = some s ∧
    run Coord.step s ((laterRun 2).map (ofServed ⟨"job"⟩)) = some s' ∧
    s.tracked ⟨"job"⟩ = some t ∧ s'.tracked ⟨"job"⟩ = some t' ∧ t.served.fwds 1 = some f ∧
    t'.served.fwds 2 = some f' ∧ f'.got = f.got := by
  have hrun : ((run Coord.step init (spawnRun ++
      (Served.logsRun 1 104).map (ofServed ⟨"job"⟩))).bind fun s =>
        (s.tracked ⟨"job"⟩).bind fun t => (t.served.fwds 1).bind fun f =>
      (run Coord.step s ((laterRun 2).map (ofServed ⟨"job"⟩))).bind fun s' =>
        (s'.tracked ⟨"job"⟩).bind fun t' => (t'.served.fwds 2).map fun f' =>
          f.ended && f'.ended) = some true := by decide +kernel
  obtain ⟨s, hs, hrun⟩ := Option.bind_eq_some_iff.1 hrun
  obtain ⟨t, ht, hrun⟩ := Option.bind_eq_some_iff.1 hrun
  obtain ⟨f, hf, hrun⟩ := Option.bind_eq_some_iff.1 hrun
  obtain ⟨s', hs', hrun⟩ := Option.bind_eq_some_iff.1 hrun
  obtain ⟨t', ht', hrun⟩ := Option.bind_eq_some_iff.1 hrun
  obtain ⟨f', hf', hends⟩ := Option.map_eq_some_iff.1 hrun
  obtain ⟨hend, hend'⟩ := Bool.and_eq_true_iff.1 hends
  exact ⟨s, s', t, t', f, f', hs, hs', ht, ht', hf, hf',
    (ended_agree hs hs' ht ht' hf hf' hend).2 hend'⟩

end Coord

end JobRunner
