import JobRunner.Verify.Coordinator

/-!
# Isolation between users

The owner check of `get_tracker` comes before anything a call does to a job. So the coordinator
restricted to the jobs and the calls of one user (`Coord.only`) is a coordinator of its own: it
takes the steps of that user's calls and jobs (`step_only`) and does not see the others
(`only_of_unseen`).
-/

namespace JobRunner

open Lts

/-! ## Restricted maps -/

section Restrict

variable {κ α : Type} (p : α → Bool) (f : κ → Option α)

/-- The entries of a partial map whose values satisfy `p`. -/
def restrict : κ → Option α := fun k => (f k).filter p

variable {p f} {k : κ} {v : α}

theorem restrict_eq_some : restrict p f k = some v ↔ f k = some v ∧ p v = true := by
  simp [restrict, Option.filter_eq_some_iff]

theorem restrict_none (h : f k = none) : restrict p f k = none := by
  simp [restrict, h]

variable [DecidableEq κ]

theorem restrict_update (h : p v = true) :
    restrict p (Function.update f k (some v)) = Function.update (restrict p f) k (some v) := by
  funext k'
  by_cases hk : k' = k
  · subst hk
    simp [restrict, h]
  · simp [restrict, hk]

/-- An update among the values left out. -/
theorem restrict_update_of_not (h : p v = false) (hold : ∀ v₀, f k = some v₀ → p v₀ = false) :
    restrict p (Function.update f k (some v)) = restrict p f := by
  funext k'
  by_cases hk : k' = k
  · subst hk
    have hnone : (f k').filter p = none := by
      cases hf : f k' with
      | none => rfl
      | some v₀ => simp [hold v₀ hf]
    simp [restrict, h, hnone]
  · simp [restrict, hk]

end Restrict

namespace Tracked

variable {t t' : Tracked} {pc : CallPc}

theorem insert_job {job : Job} (h : t.insert job = some (t', pc)) : t'.job = t.job := by
  obtain ⟨-, rfl, -⟩ := insert_cases h
  rfl

theorem release_job (h : t.release = some (t', pc)) : t'.job = t.job := by
  obtain ⟨rfl, -⟩ := release_cases h
  rfl

end Tracked

namespace Coord

variable {s s' : Coord} {B : User} {c : Nat} {j : JobId}

/-! ## The part of a user -/

/-- The coordinator with the jobs and the calls of `B` alone. -/
def only (B : User) (s : Coord) : Coord :=
  { tracked := restrict (fun t => t.job.user = B) s.tracked
    calls := restrict (fun call => call.user = B) s.calls }

theorem only_tracked {t : Tracked} :
    (s.only B).tracked j = some t ↔ s.tracked j = some t ∧ t.job.user = B := by
  simp [only, restrict_eq_some]

theorem only_calls {call : Call} :
    (s.only B).calls c = some call ↔ s.calls c = some call ∧ call.user = B := by
  simp [only, restrict_eq_some]

theorem only_setTracked {t : Tracked} (ht : t.job.user = B) :
    (s.setTracked j t).only B = (s.only B).setTracked j t := by
  simp [only, setTracked, restrict_update, ht]

theorem only_setCall {user : User} {pc : CallPc} (hu : user = B) :
    (s.setCall c { user, pc }).only B = (s.only B).setCall c { user, pc } := by
  simp [only, setCall, restrict_update, hu]

theorem only_setTracked_of_ne {t : Tracked} (ht : t.job.user ≠ B)
    (hold : ∀ t₀, s.tracked j = some t₀ → t₀.job.user ≠ B) :
    (s.setTracked j t).only B = s.only B := by
  unfold only setTracked
  rw [restrict_update_of_not (by simpa using ht) (by simpa using hold)]

theorem only_setCall_of_ne {user : User} {pc : CallPc} (hu : user ≠ B)
    (hold : ∀ call, s.calls c = some call → call.user ≠ B) :
    (s.setCall c { user, pc }).only B = s.only B := by
  unfold only setCall
  rw [restrict_update_of_not (by simpa using hu) (by simpa using hold)]

/-- What others have is to `get_tracker` as if it were not there. -/
theorem getTracker_only (s : Coord) (B : User) (j : JobId) :
    (s.only B).getTracker B j = s.getTracker B j := by
  cases h : s.getTracker B j with
  | ok t =>
    obtain ⟨ht, hreg, hu⟩ := getTracker_ok.1 h
    exact getTracker_ok.2 ⟨only_tracked.2 ⟨ht, hu⟩, hreg, hu⟩
  | error err =>
    cases h' : (s.only B).getTracker B j with
    | ok t =>
      obtain ⟨ht, hreg, hu⟩ := getTracker_ok.1 h'
      rw [getTracker_ok.2 ⟨(only_tracked.1 ht).1, hreg, hu⟩] at h
      cases h
    | error err' => rw [getTracker_error h, getTracker_error h']

/-! ## The steps of a user -/

/-- The labels `B` takes part in: its calls, and whatever happens to its jobs. -/
def sees (B : User) (s : Coord) : Act → Bool
  | .spawn _ user _ _ => user = B
  | .call _ user _ _ => user = B
  | .insert c => (s.calls c).any fun call => call.user = B
  | .reply c => (s.calls c).any fun call => call.user = B
  | .timeout c => (s.calls c).any fun call => call.user = B
  | .cancel c => (s.calls c).any fun call => call.user = B
  | .task j _ => (s.tracked j).any fun t => t.job.user = B

theorem sees_pending {user : User} {pc : CallPc} (hc : s.calls c = some { user, pc })
    (h : ((s.calls c).any fun call => call.user = B) = true) : user = B := by
  simpa [hc] using h

theorem unseen_pending {user : User} {pc : CallPc} (hc : s.calls c = some { user, pc })
    (h : ((s.calls c).any fun call => call.user = B) = false) :
    user ≠ B ∧ ∀ call, s.calls c = some call → call.user ≠ B := by
  have hne : user ≠ B := by simpa [hc] using h
  exact ⟨hne, by simpa [hc] using hne⟩

theorem sees_task {t : Tracked} (ht : s.tracked j = some t)
    (h : ((s.tracked j).any fun t => t.job.user = B) = true) : t.job.user = B := by
  simpa [ht] using h

/-- A call of `B` moves a job of `B`. -/
theorem only_call {t : Tracked} {user : User} {pc : CallPc} (hu : user = B)
    (ht : t.job.user = user) :
    ((s.setTracked j t).setCall c { user, pc }).only B =
      ((s.only B).setTracked j t).setCall c { user, pc } := by
  rw [only_setCall hu, only_setTracked (ht.trans hu)]

/-- A call of someone else moves a job of someone else. -/
theorem only_call_of_ne {t t' : Tracked} {user : User} {pc : CallPc} (hu : user ≠ B)
    (hold : ∀ call, s.calls c = some call → call.user ≠ B) (ht : s.tracked j = some t)
    (htu : t.job.user = user) (htu' : t'.job.user = user) :
    ((s.setTracked j t').setCall c { user, pc }).only B = s.only B := by
  have hsame : (s.setTracked j t').only B = s.only B := by
    apply only_setTracked_of_ne
    · rwa [htu']
    · intro t₀ ht₀
      obtain rfl : t = t₀ := Option.some.inj (ht.symm.trans ht₀)
      rwa [htu]
  rw [← hsame]
  exact only_setCall_of_ne hu hold

/-- The steps `B` takes part in are steps of the coordinator without the others. -/
theorem step_only (h : Inv s) {a : Act} (hs : Step s a s') (hsee : sees B s a = true) :
    Step (s.only B) a (s'.only B) := by
  cases hs with
  | rejectSpawn hc hv =>
    rw [only_setCall (of_decide_eq_true hsee)]
    exact .rejectSpawn (restrict_none hc) hv
  | spawnFails hc hv =>
    rw [only_setCall (of_decide_eq_true hsee)]
    exact .spawnFails (restrict_none hc) hv
  | spawn hc hv hnew =>
    rw [only_call (of_decide_eq_true hsee) rfl]
    exact .spawn (restrict_none hc) hv (restrict_none hnew)
  | rejectCall hc hv =>
    rw [only_setCall (of_decide_eq_true hsee)]
    exact .rejectCall (restrict_none hc) hv
  | refuse hc hv hg =>
    obtain rfl := of_decide_eq_true hsee
    rw [only_setCall rfl]
    exact .refuse (restrict_none hc) hv (by rw [getTracker_only, hg])
  | enter hc hv hg he =>
    obtain rfl := of_decide_eq_true hsee
    obtain ⟨ht, hreg, hu⟩ := getTracker_ok.1 hg
    have hu' := h.user_eq ht (Tracked.enter_cases he).1.reachable
    rw [only_call rfl (hu'.trans hu)]
    exact .enter (restrict_none hc) hv (by rw [getTracker_only, hg]) he
  | insert hc ht he =>
    have hu := h.spawning_user hc ht
    have hB := sees_pending hc hsee
    rw [only_call hB (by rwa [Tracked.insert_job he])]
    exact .insert (only_calls.2 ⟨hc, hB⟩) (only_tracked.2 ⟨ht, hu.trans hB⟩) he
  | release hc ht he =>
    have hu := h.spawning_user hc ht
    have hB := sees_pending hc hsee
    rw [only_call hB (by rwa [Tracked.release_job he])]
    exact .release (only_calls.2 ⟨hc, hB⟩) (only_tracked.2 ⟨ht, hu.trans hB⟩) he
  | reply hc ht he =>
    have hu := h.waiting_user hc ht
    have hB := sees_pending hc hsee
    have hu' := h.user_eq ht (Tracked.reply_cases he).1.reachable
    rw [only_call hB (hu'.trans hu)]
    exact .reply (only_calls.2 ⟨hc, hB⟩) (only_tracked.2 ⟨ht, hu.trans hB⟩) he
  | timeout hc ht he =>
    have hu := h.waiting_user hc ht
    have hB := sees_pending hc hsee
    have hu' := h.user_eq ht (Tracked.timeout_cases he).1.reachable
    rw [only_call hB (hu'.trans hu)]
    exact .timeout (only_calls.2 ⟨hc, hB⟩) (only_tracked.2 ⟨ht, hu.trans hB⟩) he
  | cancel hc ht he =>
    have hu := h.waiting_user hc ht
    have hB := sees_pending hc hsee
    have hu' := h.user_eq ht (Tracked.cancel_cases he).1.reachable
    rw [only_call hB (hu'.trans hu)]
    exact .cancel (only_calls.2 ⟨hc, hB⟩) (only_tracked.2 ⟨ht, hu.trans hB⟩) he
  | task ht hi he =>
    have hB := sees_task ht hsee
    have hu' := h.user_eq ht (Tracked.serve_moves he).1.reachable
    rw [only_setTracked (hu'.trans hB)]
    exact .task (only_tracked.2 ⟨ht, hB⟩) hi he

/-- The others take no step that `B` could tell. -/
theorem only_of_unseen (h : Inv s) {a : Act} (hs : Step s a s') (hsee : sees B s a = false) :
    s'.only B = s.only B := by
  cases hs with
  | rejectSpawn hc _ | spawnFails hc _ | rejectCall hc _ | refuse hc _ _ =>
    exact only_setCall_of_ne (of_decide_eq_false hsee) (by simp [hc])
  | @spawn c user name child hc _ hnew =>
    have hne : user ≠ B := of_decide_eq_false hsee
    have hsame : (s.setTracked child.jobId (Tracked.start (child.job user))).only B = s.only B :=
      only_setTracked_of_ne hne (by simp [hnew])
    rw [← hsame]
    exact only_setCall_of_ne hne (by simp [hc])
  | enter hc _ hg he =>
    obtain ⟨ht, -, hu⟩ := getTracker_ok.1 hg
    have hu' := h.user_eq ht (Tracked.enter_cases he).1.reachable
    exact only_call_of_ne (of_decide_eq_false hsee) (by simp [hc]) ht hu (hu'.trans hu)
  | insert hc ht he =>
    have hu := h.spawning_user hc ht
    obtain ⟨hne, hold⟩ := unseen_pending hc hsee
    exact only_call_of_ne hne hold ht hu (by rwa [Tracked.insert_job he])
  | release hc ht he =>
    have hu := h.spawning_user hc ht
    obtain ⟨hne, hold⟩ := unseen_pending hc hsee
    exact only_call_of_ne hne hold ht hu (by rwa [Tracked.release_job he])
  | reply hc ht he =>
    have hu := h.waiting_user hc ht
    obtain ⟨hne, hold⟩ := unseen_pending hc hsee
    have hu' := h.user_eq ht (Tracked.reply_cases he).1.reachable
    exact only_call_of_ne hne hold ht hu (hu'.trans hu)
  | timeout hc ht he =>
    have hu := h.waiting_user hc ht
    obtain ⟨hne, hold⟩ := unseen_pending hc hsee
    have hu' := h.user_eq ht (Tracked.timeout_cases he).1.reachable
    exact only_call_of_ne hne hold ht hu (hu'.trans hu)
  | cancel hc ht he =>
    have hu := h.waiting_user hc ht
    obtain ⟨hne, hold⟩ := unseen_pending hc hsee
    have hu' := h.user_eq ht (Tracked.cancel_cases he).1.reachable
    exact only_call_of_ne hne hold ht hu (hu'.trans hu)
  | @task j b t t' ht _ he =>
    have hne : t.job.user ≠ B := by simpa [sees, ht] using hsee
    have hu' := h.user_eq ht (Tracked.serve_moves he).1.reachable
    exact only_setTracked_of_ne (by rwa [hu']) fun t₀ ht₀ => by
      rwa [← Option.some.inj (ht.symm.trans ht₀)]

/-- Two runs in which `B` takes part in the same labels leave it the same part. -/
theorem only_eq_of_observed {as bs : List Act} {s t : Coord} (hs : run step init as = some s)
    (ht : run step init bs = some t)
    (ho : observed step (sees B) init as = observed step (sees B) init bs) :
    s.only B = t.only B := by
  refine run_unwind (only B) (sees B) (I := Inv) (fun _ _ _ h hs => h.step (step_of hs)) ?_ ?_
    .init .init rfl hs ht ho
  · intro s a s' h hsee hs
    exact only_of_unseen h (step_of hs) hsee
  · intro s t a s' t' his hit hv hss hst hs ht
    have h₁ := step_iff.2 (step_only his (step_of hs) hss)
    have h₂ := step_iff.2 (step_only hit (step_of ht) hst)
    rw [hv, h₂] at h₁
    exact (Option.some.inj h₁).symm

/-! ## Isolation -/

/-- `B` has spawned job `j`. -/
def IsJobOf (s : Coord) (B : User) (j : JobId) : Prop :=
  ∃ t, s.tracked j = some t ∧ t.registered = true ∧ t.job.user = B

/-- The same state with no job `j`. -/
def without (s : Coord) (j : JobId) : Coord :=
  { s with tracked := Function.update s.tracked j none }

/-- What `B` gets of call `c`, if the call is its own. -/
def replyTo (s : Coord) (B : User) (c : Nat) : Option Response :=
  ((s.calls c).filter fun call => call.user = B).bind Call.response

/-- What `B` has received of the log stream opened by call `c` on job `j`, if the job is its own,
and whether the stream has ended. -/
def streamTo (s : Coord) (B : User) (j : JobId) (c : Nat) : Option (List FrameResult × Bool) :=
  ((s.tracked j).filter fun t => t.job.user = B).bind fun t =>
    (t.served.fwds c).map fun f => (f.got, f.ended)

theorem getTracker_of_not_jobOf (h : ¬s.IsJobOf B j) :
    s.getTracker B j = .error (.jobNotFound j) := by
  cases hg : s.getTracker B j with
  | ok t => exact absurd ⟨t, getTracker_ok.1 hg⟩ h
  | error err => rw [getTracker_error hg]

theorem not_jobOf_without (s : Coord) (B : User) (j : JobId) : ¬(s.without j).IsJobOf B j := by
  rintro ⟨t, ht, -⟩
  simp [without] at ht

/-- The answer to a call on a job that the user does not have. -/
def refusal (B : User) (j : JobId) : Call :=
  if j.val.isEmpty then { user := B, pc := .rejected (.invalidArgument "job id required") }
  else { user := B, pc := .done (.error (.jobNotFound j)) }

/-- A call on a job that is not `B`'s is answered at once, and nothing else happens. -/
theorem step_refusal (h : ¬s.IsJobOf B j) (hc : s.calls c = none) (op : Op) :
    s.step (.call c B op j) = some (s.setCall c (refusal B j)) := by
  have hg := getTracker_of_not_jobOf h
  unfold refusal
  split
  · next he => simp [step, hc, stepCall, validateJobId, he]
  · next he => simp [step, hc, stepCall, validateJobId, he, hg]

theorem refusal_response (B : User) (j : JobId) : (refusal B j).response =
    some (.status (if j.val.isEmpty then .invalidArgument "job id required"
      else .notFound "job not found")) := by
  unfold refusal
  split <;> rfl

theorem replyTo_eq (s : Coord) (B : User) (c : Nat) :
    s.replyTo B c = ((s.only B).calls c).bind Call.response := rfl

theorem streamTo_eq (s : Coord) (B : User) (j : JobId) (c : Nat) :
    s.streamTo B j c = ((s.only B).tracked j).bind fun t =>
      (t.served.fwds c).map fun f => (f.got, f.ended) := rfl

/-- **Isolation between users.** A call of `B` on a job that is not its own is answered at once,
with the status it would have if there were no such job, and changes nothing but itself. And what
`B` gets in a run depends on its own calls and on what happens to its own jobs only. -/
theorem isolation (B : User) :
    (∀ s j c op, ¬IsJobOf s B j → s.calls c = none →
      s.step (.call c B op j) = some (s.setCall c (refusal B j)) ∧
      (s.without j).step (.call c B op j) = some ((s.without j).setCall c (refusal B j)) ∧
      (refusal B j).response = some (.status (if j.val.isEmpty then
        .invalidArgument "job id required" else .notFound "job not found"))) ∧
    (∀ as bs s t, run step init as = some s → run step init bs = some t →
      observed step (sees B) init as = observed step (sees B) init bs →
      (∀ c, s.replyTo B c = t.replyTo B c) ∧ ∀ j c, s.streamTo B j c = t.streamTo B j c) := by
  constructor
  · intro s j c op hj hc
    exact ⟨step_refusal hj hc op, step_refusal (not_jobOf_without s B j) hc op,
      refusal_response B j⟩
  · intro as bs s t hs ht ho
    have he : s.only B = t.only B := only_eq_of_observed hs ht ho
    constructor
    · intro c
      rw [replyTo_eq, replyTo_eq, he]
    · intro j c
      rw [streamTo_eq, streamTo_eq, he]

section Runs

/-- Alice spawns a job and asks for its record. -/
def aliceRun : List Act :=
  [.spawn 0 ⟨"alice"⟩ "sleep" (.ok ⟨⟨"job"⟩, ⟨7⟩, ⟨1⟩⟩), .insert 0,
    .call 1 ⟨"alice"⟩ .ps ⟨"job"⟩]

/-- The same with a job of bob, who tries to kill that of alice. -/
def bobRun : List Act :=
  [.spawn 2 ⟨"bob"⟩ "true" (.ok ⟨⟨"other"⟩, ⟨8⟩, ⟨1⟩⟩),
    .spawn 0 ⟨"alice"⟩ "sleep" (.ok ⟨⟨"job"⟩, ⟨7⟩, ⟨1⟩⟩), .insert 0, .insert 2,
    .call 3 ⟨"bob"⟩ .kill ⟨"job"⟩, .task ⟨"other"⟩ (.pipe (.exit (.ok (.exited 0)) ⟨2⟩)),
    .call 1 ⟨"alice"⟩ .ps ⟨"job"⟩]

theorem isolation_bobRun : ∃ s t, run step init aliceRun = some s ∧ run step init bobRun = some t ∧
    s.replyTo ⟨"alice"⟩ 1 = t.replyTo ⟨"alice"⟩ 1 := by
  have hs : ((run step init aliceRun).map fun s => (s.calls 1).isSome) = some true := by
    decide +kernel
  have ht : ((run step init bobRun).map fun s => (s.calls 1).isSome) = some true := by
    decide +kernel
  obtain ⟨s, hs, -⟩ := Option.map_eq_some_iff.1 hs
  obtain ⟨t, ht, -⟩ := Option.map_eq_some_iff.1 ht
  have ho : observed step (sees ⟨"alice"⟩) init aliceRun =
      observed step (sees ⟨"alice"⟩) init bobRun := rfl
  exact ⟨s, t, hs, ht, ((isolation ⟨"alice"⟩).2 aliceRun bobRun s t hs ht ho).1 1⟩

end Runs

end Coord

end JobRunner
