import JobRunner.Win.Wait

/-!
# The Windows wait future

A pending future has a thread of its own that still has to wake the task, or the task has been
woken: no wake-up is lost, whatever else the task does in between. So once the process has exited
the future completes in a bounded number of steps, with the exit code, unless `WaitForSingleObject`
fails or `select!` takes another branch (`WaitChild.completes`).
-/

namespace JobRunner.Win

open Lts

/-! ## Steps left -/

/-- The steps a thread has left. -/
def WaitThread.left : WaitThread → Nat
  | .waiting => 2
  | .wake => 1
  | .done => 0

def threadsLeft (ts : List WaitThread) : Nat := ts.foldr (fun t n => WaitThread.left t + n) 0

theorem threadsLeft_set {ts : List WaitThread} {i : Nat} {t : WaitThread}
    (h : ts[i]? = some t) (t' : WaitThread) :
    threadsLeft (ts.set i t') + WaitThread.left t = threadsLeft ts + WaitThread.left t' := by
  induction ts generalizing i with
  | nil => simp at h
  | cons u ts ih =>
    cases i with
    | zero =>
      obtain rfl : u = t := by simpa using h
      simp only [List.set_cons_zero, threadsLeft, List.foldr_cons]
      omega
    | succ i =>
      have hrec := ih (by simpa using h)
      simp only [List.set_cons_succ, threadsLeft, List.foldr_cons] at hrec ⊢
      omega

theorem threadsLeft_snoc (ts : List WaitThread) (t : WaitThread) :
    threadsLeft (ts ++ [t]) = threadsLeft ts + WaitThread.left t := by
  induction ts with
  | nil => simp [threadsLeft]
  | cons u ts ih =>
    simp only [threadsLeft, List.cons_append, List.foldr_cons] at ih ⊢
    omega

theorem threadsLeft_le (ts : List WaitThread) : threadsLeft ts ≤ 2 * ts.length := by
  induction ts with
  | nil => simp [threadsLeft]
  | cons u ts ih =>
    have hu : WaitThread.left u ≤ 2 := by cases u <;> simp [WaitThread.left]
    simp only [threadsLeft, List.foldr_cons, List.length_cons] at ih ⊢
    omega

/-- The steps left for a task whose process has exited, with those of the thread it may start. -/
def WaitTask.left : WaitTask → Nat
  | .running => 6
  | .pending => 3
  | .away => 3
  | .polling => 2
  | .exited => 1
  | .done _ => 0

namespace WaitChild

variable {s s' : WaitChild} {a : Act}

/-- The rules of `WaitChild.step`. -/
inductive Step (s : WaitChild) : Act → WaitChild → Prop
  | exit {code} (he : s.exited = none) : Step s (.exit code) { s with exited := some code }
  | new (ht : s.task = .away) : Step s .poll { s with task := .polling }
  | again (ht : s.task = .pending) (hw : s.woken = true) :
      Step s .poll { s with task := .polling, woken := false }
  | object0 (ht : s.task = .polling) (he : s.exited.isSome = true) :
      Step s (.waitNow .object0) { s with task := .exited }
  | running {ev} (ht : s.task = .polling) (hev : ev ≠ .object0)
      (he : ev = .timeout → s.exited = none) : Step s (.waitNow ev) { s with task := .running }
  | exitCode {res code} (ht : s.task = .exited) (he : s.exited = some code) :
      Step s (.exitCode res) { s with task := .done (res.map fun _ => .ofRaw code) }
  | spawn (ht : s.task = .running) :
      Step s .spawn { s with task := .pending, threads := s.threads ++ [.waiting] }
  | elsewhere (ht : s.task = .pending) : Step s (.elsewhere false) { s with task := .away }
  | polledElsewhere (ht : s.task = .pending) (hw : s.woken = true) :
      Step s (.elsewhere true) { s with task := .away, woken := false }
  | foreign : Step s .foreign { s with woken := true }
  | waited {i ev} (hth : s.threads[i]? = some .waiting) (hev : ev ≠ .timeout)
      (he : ev = .object0 → s.exited.isSome = true) :
      Step s (.waited i ev) { s with threads := s.threads.set i .wake }
  | wake {i} (hth : s.threads[i]? = some .wake) :
      Step s (.wake i) { s with threads := s.threads.set i .done, woken := true }

theorem Step.of_step (h : s.step a = some s') : Step s a s' := by
  cases a with
  | exit code =>
    simp only [step] at h
    split at h
    · next he => cases h; exact .exit he
    · cases h
  | poll =>
    simp only [step] at h
    split at h
    · next ht => cases h; exact .new ht
    · next ht =>
      split at h
      · next hw => cases h; exact .again ht hw
      · cases h
    · cases h
  | waitNow ev =>
    simp only [step] at h
    split at h
    · next ht =>
      simp only [Option.ite_none_right_eq_some, Option.some.injEq] at h
      obtain ⟨hp, rfl⟩ := h
      cases ev with
      | object0 => exact .object0 ht hp
      | timeout =>
        have he : s.exited = none := by simpa [WaitEvent.possible] using hp
        exact .running ht (by simp) fun _ => he
      | failed => exact .running ht (by simp) (by simp)
    · cases h
  | exitCode res =>
    simp only [step] at h
    split at h
    · next code ht he => cases h; exact .exitCode ht he
    · cases h
  | spawn =>
    simp only [step] at h
    split at h
    · next ht => cases h; exact .spawn ht
    · cases h
  | elsewhere polled =>
    simp only [step] at h
    split at h
    · next ht =>
      cases polled with
      | false =>
        obtain rfl := Option.some.inj h
        exact .elsewhere ht
      | true =>
        simp only [if_true, Option.ite_none_right_eq_some, Option.some.injEq] at h
        obtain ⟨hw, rfl⟩ := h
        exact .polledElsewhere ht hw
    · cases h
  | foreign =>
    cases h
    exact .foreign
  | waited i ev =>
    simp only [step] at h
    split at h
    · next hth =>
      simp only [Option.ite_none_right_eq_some, Option.some.injEq] at h
      obtain ⟨hp, rfl⟩ := h
      refine .waited hth ?_ ?_
      · rintro rfl
        simp [WaitEvent.possible] at hp
      · rintro rfl
        exact hp
    · cases h
  | wake i =>
    simp only [step] at h
    split at h
    · next hth => cases h; exact .wake hth
    · cases h

/-! ## No wake-up is lost -/

structure Inv (s : WaitChild) : Prop where
  pending : s.task = .pending → s.woken = true ∨ ∃ t ∈ s.threads, t ≠ .done
  exited : s.task = .exited → s.exited.isSome = true
  done : ∀ status, s.task = .done (.ok status) → ∃ code, s.exited = some code ∧ status = .ofRaw code

theorem Inv.start : Inv start where
  pending := nofun
  exited := nofun
  done := nofun

/-- A thread that goes on to where it is not done. -/
theorem exists_set {ts : List WaitThread} {i : Nat} {t t' : WaitThread} (h : ts[i]? = some t)
    (ht' : t' ≠ .done) : ∃ u ∈ ts.set i t', u ≠ .done := by
  obtain ⟨hi, -⟩ := List.getElem?_eq_some_iff.1 h
  exact ⟨t', List.mem_set hi t', ht'⟩

theorem Inv.step (h : Inv s) (hs : Step s a s') : Inv s' := by
  cases hs with
  | exit he =>
    refine ⟨h.pending, fun _ => rfl, fun status hd => ?_⟩
    obtain ⟨code, hc, -⟩ := h.done status hd
    rw [he] at hc
    cases hc
  | new | again | running | elsewhere | polledElsewhere => exact ⟨nofun, nofun, nofun⟩
  | object0 ht he => exact ⟨nofun, fun _ => he, nofun⟩
  | @exitCode res code ht he =>
    refine ⟨nofun, nofun, fun status hd => ⟨code, he, ?_⟩⟩
    cases res with
    | error err => cases hd
    | ok u =>
      cases hd
      rfl
  | spawn ht =>
    refine ⟨fun _ => .inr ⟨.waiting, ?_, by simp⟩, nofun, nofun⟩
    exact List.mem_append_right _ (List.mem_singleton_self _)
  | foreign => exact ⟨fun _ => .inl rfl, h.exited, h.done⟩
  | waited hth => exact ⟨fun _ => .inr (exists_set hth (by simp)), h.exited, h.done⟩
  | wake hth => exact ⟨fun _ => .inl rfl, h.exited, h.done⟩

theorem Inv.reachable (h : Reachable WaitChild.step WaitChild.start s) : Inv s :=
  h.invariant .start fun _ _ _ hs ha => hs.step (.of_step ha)

/-! ## Once the process has exited -/

/-- A step of the task in its future, or of a thread, whose call of `WaitForSingleObject` has not
failed. -/
def Act.own : Act → Bool
  | .exit _ => false
  | .elsewhere _ => false
  | .foreign => false
  | .waitNow ev => ev ≠ .failed
  | .waited _ ev => ev ≠ .failed
  | _ => true

def left (s : WaitChild) : Nat := s.task.left + threadsLeft s.threads

theorem left_step {code : UInt32} (he : s.exited = some code) (ha : a.own = true)
    (hs : Step s a s') : s'.exited = some code ∧ s'.left < s.left := by
  cases hs with
  | exit | elsewhere | polledElsewhere | foreign => cases ha
  | new ht => exact ⟨he, by simp [left, ht, WaitTask.left]⟩
  | again ht => exact ⟨he, by simp [left, ht, WaitTask.left]⟩
  | object0 ht => exact ⟨he, by simp [left, ht, WaitTask.left]⟩
  | @running ev ht hev hexit =>
    -- the call has failed, or the process had not exited
    cases ev with
    | object0 => exact absurd rfl hev
    | timeout =>
      rw [hexit rfl] at he
      cases he
    | failed => cases ha
  | exitCode ht => exact ⟨he, by simp [left, ht, WaitTask.left]⟩
  | spawn ht =>
    refine ⟨he, ?_⟩
    simp only [left, ht, WaitTask.left, threadsLeft_snoc, WaitThread.left]
    omega
  | waited hth =>
    have hset := threadsLeft_set hth .wake
    refine ⟨he, ?_⟩
    simp only [left, WaitThread.left] at hset ⊢
    omega
  | wake hth =>
    have hset := threadsLeft_set hth .done
    refine ⟨he, ?_⟩
    simp only [left, WaitThread.left] at hset ⊢
    omega

/-- As long as the future is not done there is something to do. -/
theorem Inv.not_stuck (h : Inv s) {code : UInt32} (he : s.exited = some code)
    (hstuck : ∀ a : Act, a.own = true → s.step a = none) : ∃ res, s.task = .done res := by
  cases ht : s.task with
  | done res => exact ⟨res, rfl⟩
  | away =>
    have hpoll := hstuck .poll rfl
    simp [WaitChild.step, ht] at hpoll
  | polling =>
    have hwait := hstuck (.waitNow .object0) rfl
    simp [WaitChild.step, ht, WaitEvent.possible, he] at hwait
  | exited =>
    have hcode := hstuck (.exitCode (.ok ())) rfl
    simp [WaitChild.step, ht, he] at hcode
  | running =>
    have hspawn := hstuck .spawn rfl
    simp [WaitChild.step, ht] at hspawn
  | pending =>
    rcases h.pending ht with hw | ⟨t, hmem, hdone⟩
    · have hpoll := hstuck .poll rfl
      simp [WaitChild.step, ht, hw] at hpoll
    · obtain ⟨i, hi⟩ := List.getElem?_of_mem hmem
      cases t with
      | waiting =>
        have hwaited := hstuck (.waited i .object0) rfl
        simp [WaitChild.step, hi, WaitEvent.possible, he] at hwaited
      | wake =>
        have hwake := hstuck (.wake i) rfl
        simp [WaitChild.step, hi] at hwake
      | done => exact absurd rfl hdone

/-- Wherever the task and the threads are when the process has exited: without a failed
`WaitForSingleObject` and while no other branch of `select!` is taken, they take at most six steps
and two more for each thread, in any order, and when none of them can take a step, the future has
completed. If `GetExitCodeProcess` has succeeded it is with the exit code of the process. -/
theorem completes (h : Reachable step start s) {code : UInt32} (he : s.exited = some code)
    {acts : List Act} (hown : ∀ a ∈ acts, a.own = true) (hr : run step s acts = some s') :
    acts.length ≤ 6 + 2 * s.threads.length ∧
    ((∀ a : Act, a.own = true → s'.step a = none) → ∃ res, s'.task = .done res) ∧
    ∀ status, s'.task = .done (.ok status) → status = .ofProc (.exited code.toInt32) := by
  have hlen := run_length_le (I := fun s : WaitChild => s.exited = some code)
    (P := fun a : Act => a.own = true) left
    (fun s a s' he ha hs => left_step he ha (.of_step hs)) he hown hr
  have he' : s'.exited = some code := by
    have hr' : Reachable step s s' := ⟨acts, hr⟩
    refine hr'.invariant (I := fun s : WaitChild => s.exited = some code) he ?_
    intro s a s' he hs
    cases Step.of_step hs with
    | exit hnone =>
      rw [hnone] at he
      cases he
    | _ => exact he
  have hi := Inv.reachable (h.trans ⟨acts, hr⟩)
  refine ⟨?_, hi.not_stuck he', fun status hd => ?_⟩
  · have htask : s.task.left ≤ 6 := by cases s.task <;> simp [WaitTask.left]
    have hthreads := threadsLeft_le s.threads
    simp only [left] at hlen
    omega
  · obtain ⟨code', hcode, rfl⟩ := hi.done status hd
    rw [Option.some.inj (he'.symm.trans hcode), ExitStatus.ofRaw_eq]

/-- A future that is pending when the process exits. -/
def exitRun (code : UInt32) : List Act := [.poll, .waitNow .timeout, .spawn, .exit code]

/-- The thread wakes the task, which polls again. -/
def wakeRun : List Act :=
  [.waited 0 .object0, .wake 0, .poll, .waitNow .object0, .exitCode (.ok ())]

theorem completes_exitRun : ∃ s s', run step start (exitRun 3) = some s ∧
    run step s wakeRun = some s' ∧ s'.task = .done (.ok (.ofRaw 3)) ∧ wakeRun.length ≤ 8 := by
  have hrun : ∃ s, run step start (exitRun 3) = some s ∧ s.exited = some 3 ∧
      s.threads.length = 1 ∧ ∃ s', run step s wakeRun = some s' ∧
        s'.task = .done (.ok (.ofRaw 3)) := ⟨_, rfl, rfl, rfl, _, rfl, rfl⟩
  obtain ⟨s, hs, he, hlen, s', hs', hdone⟩ := hrun
  have hown : ∀ a ∈ wakeRun, a.own = true := by simp [wakeRun, Act.own]
  have hle := (completes ⟨_, hs⟩ he hown hs').1
  rw [hlen] at hle
  exact ⟨s, s', hs, hs', hdone, hle⟩

end WaitChild

end JobRunner.Win
