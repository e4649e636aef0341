import JobRunner.Win.Kill

/-!
# The Windows kill future

The thread of a `KillChild` calls `waker.wake` only behind its `send`, and its `send` returns only
when a poll of the future takes the value. With an executor that polls the future once and then
only after it has been woken, nobody moves first: no run completes the future, and every run leads
to a state in which the thread waits in `send` and nothing can happen any more
(`never_completes`). A task that is also woken from elsewhere may complete, and then it does so
with the result of `TerminateProcess` (`done_eq`).
-/

namespace JobRunner.Win

open Lts

namespace KillChild

variable {foreign : Bool} {res : Except IoError Unit} {s s' : KillChild} {a : Act}

/-- The rules of `KillChild.step`. -/
inductive Step (foreign : Bool) (res : Except IoError Unit) (s : KillChild) :
    Act → KillChild → Prop
  | poll (ht : s.task = .idle) (hp : s.polled = false ∨ s.waker.woken = true) :
      Step foreign res s .poll
        { s with task := .polling, polled := true, waker := s.waker.poll.register }
  | start (ht : s.task = .polling) (hrx : s.rx = false) :
      Step foreign res s .finish
        { s with rx := true, thread := some .terminate, task := .idle }
  | take {r} (ht : s.task = .polling) (hrx : s.rx = true) (hth : s.thread = some (.sending r)) :
      Step foreign res s .finish { s with task := .done r, thread := some .wake }
  | closed (ht : s.task = .polling) (hrx : s.rx = true) (hth : s.thread = some .done) :
      Step foreign res s .finish { s with task := .done (.ok ()) }
  | pending (ht : s.task = .polling) (hrx : s.rx = true)
      (hth : ∀ r, s.thread ≠ some (.sending r)) :
      Step foreign res s .finish { s with task := .idle }
  | foreign (hf : foreign = true) :
      Step foreign res s .foreign { s with waker := s.waker.wakeTask }
  | terminate (hth : s.thread = some .terminate) :
      Step foreign res s .terminate { s with thread := some (.send res) }
  | send {r} (hth : s.thread = some (.send r)) :
      Step foreign res s .send { s with thread := some (.sending r) }
  | wake (hth : s.thread = some .wake) :
      Step foreign res s .wake { s with thread := some .done, waker := s.waker.wake }

theorem Step.of_step (h : s.step foreign res a = some s') : Step foreign res s a s' := by
  cases a with
  | poll =>
    simp only [step] at h
    split at h
    · next ht =>
      split at h
      · next hp => cases h; exact .poll ht hp
      · cases h
    · cases h
  | finish =>
    simp only [step] at h
    split at h
    · next ht =>
      split at h
      · next hrx => cases h; exact .start ht hrx
      · next hrx =>
        have hrx : s.rx = true := by simpa using hrx
        split at h
        · next r hth => cases h; exact .take ht hrx hth
        · next hth => cases h; exact .closed ht hrx hth
        · next hth _ =>
          cases h
          exact .pending ht hrx fun r => hth r
    · cases h
  | foreign =>
    simp only [step] at h
    split at h
    · next hf => cases h; exact .foreign hf
    · cases h
  | terminate =>
    simp only [step] at h
    split at h
    · next hth => cases h; exact .terminate hth
    · cases h
  | send =>
    simp only [step] at h
    split at h
    · next r hth => cases h; exact .send hth
    · cases h
  | wake =>
    simp only [step] at h
    split at h
    · next hth => cases h; exact .wake hth
    · cases h

/-! ## Polled only when woken through the slot -/

/-- How far the future gets: it is polled once, and then waits for the thread, which gets as far
as its `send`. -/
inductive Waits (res : Except IoError Unit) (s : KillChild) : Prop
  | new (ht : s.task = .idle) (hp : s.polled = false) (hrx : s.rx = false)
      (hth : s.thread = none)
  | polling (ht : s.task = .polling) (hp : s.polled = true) (hrx : s.rx = false)
      (hth : s.thread = none) (hw : s.waker.woken = false)
  | thread (ht : s.task = .idle) (hp : s.polled = true) (hw : s.waker.woken = false)
      (hth : s.thread = some .terminate ∨ s.thread = some (.send res) ∨
        s.thread = some (.sending res))

theorem Waits.not_done (h : Waits res s) (r : Except IoError Unit) : s.task ≠ .done r := by
  intro hd
  cases h with
  | new ht | polling ht | thread ht =>
    rw [ht] at hd
    cases hd

theorem Waits.step (h : Waits res s) (hs : Step false res s a s') : Waits res s' := by
  cases h with
  | new ht hp hrx hth =>
    cases hs with
    | poll => exact .polling rfl rfl hrx hth rfl
    | start ht' | take ht' | closed ht' | pending ht' => simp [ht] at ht'
    | foreign hf => cases hf
    | terminate hth' | send hth' | wake hth' => simp [hth] at hth'
  | polling ht hp hrx hth hw =>
    cases hs with
    | poll ht' => simp [ht] at ht'
    | start => exact .thread rfl hp hw (.inl rfl)
    | take ht' hrx' | closed ht' hrx' | pending ht' hrx' => simp [hrx] at hrx'
    | foreign hf => cases hf
    | terminate hth' | send hth' | wake hth' => simp [hth] at hth'
  | thread ht hp hw hth =>
    cases hs with
    | poll ht' hp' => simp [hp, hw] at hp'
    | start ht' | take ht' | closed ht' | pending ht' => simp [ht] at ht'
    | foreign hf => cases hf
    | terminate => exact .thread ht hp hw (.inr (.inl rfl))
    | @send r hth' =>
      have hr : r = res := by simpa [hth'] using hth
      exact .thread ht hp hw (.inr (.inr (by rw [hr])))
    | wake hth' => simp [hth'] at hth

theorem waits_reachable (h : Reachable (KillChild.step false res) new s) : Waits res s := by
  apply h.invariant
  · exact .new rfl rfl rfl rfl
  · intro s a s' hs ha
    exact hs.step (.of_step ha)

/-- The steps left before the thread waits in `send`. -/
def left (s : KillChild) : Nat :=
  match s.thread with
  | some .terminate => 2
  | some (.send _) => 1
  | some _ => 0
  | none => if s.polled then 3 else 4

theorem Waits.progress (h : Waits res s) (hn : s.thread ≠ some (.sending res)) :
    ∃ a s', s.step false res a = some s' ∧ Waits res s' ∧ s'.left < s.left := by
  have hnext : ∀ {a s'}, s.step false res a = some s' → Waits res s' :=
    fun ha => h.step (.of_step ha)
  cases h with
  | new ht hp hrx hth =>
    have hstep : s.step false res .poll =
        some { s with task := .polling, polled := true, waker := s.waker.poll.register } := by
      simp [KillChild.step, ht, hp]
    exact ⟨.poll, _, hstep, hnext hstep, by simp [left, hth, hp]⟩
  | polling ht hp hrx hth hw =>
    have hstep : s.step false res .finish =
        some { s with rx := true, thread := some .terminate, task := .idle } := by
      simp [KillChild.step, ht, hrx]
    exact ⟨.finish, _, hstep, hnext hstep, by simp [left, hth, hp]⟩
  | thread ht hp hw hth =>
    rcases hth with hth | hth | hth
    · have hstep : s.step false res .terminate = some { s with thread := some (.send res) } := by
        simp [KillChild.step, hth]
      exact ⟨.terminate, _, hstep, hnext hstep, by simp [left, hth]⟩
    · have hstep : s.step false res .send = some { s with thread := some (.sending res) } := by
        simp [KillChild.step, hth]
      exact ⟨.send, _, hstep, hnext hstep, by simp [left, hth]⟩
    · exact absurd hth hn

/-- A thread that waits in `send` waits for a poll, and the task for a wake-up. -/
theorem Waits.stuck (h : Waits res s) (hth : s.thread = some (.sending res)) :
    s.Stuck false res := by
  refine ⟨h.not_done, ?_⟩
  intro a
  cases hstep : s.step false res a with
  | none => rfl
  | some s' =>
    cases h with
    | new ht hp hrx hth' | polling ht hp hrx hth' =>
      rw [hth] at hth'
      cases hth'
    | thread ht hp hw =>
      cases Step.of_step hstep with
      | poll ht' hp' => simp [hp, hw] at hp'
      | start ht' | take ht' | closed ht' | pending ht' => simp [ht] at ht'
      | foreign hf => cases hf
      | terminate hth' | send hth' | wake hth' => simp [hth] at hth'

/-- Whatever `TerminateProcess` returns and however the parties interleave, the future has not
completed, and the run goes on to a state in which it never will. -/
theorem never_completes (hreach : Reachable (KillChild.step false res) new s) :
    (∀ r, s.task ≠ .done r) ∧
    ∃ s', Reachable (KillChild.step false res) s s' ∧ s'.Stuck false res := by
  have hwaits := waits_reachable hreach
  refine ⟨hwaits.not_done, ?_⟩
  obtain ⟨s', hr, hwaits', hth⟩ := Reachable.settles (I := Waits res)
    (Q := fun s => s.thread = some (.sending res)) left (fun s hs hn => hs.progress hn) hwaits
  exact ⟨s', hr, hwaits'.stuck hth⟩

theorem never_completes_new :
    ∃ s', Reachable (KillChild.step false (.ok ())) new s' ∧ s'.Stuck false (.ok ()) :=
  (never_completes (Reachable.refl new)).2

/-- The first poll, and the thread up to its `send`. -/
def sendRun : List Act := [.poll, .finish, .terminate, .send]

/-- The process has been terminated, and the future waits for a wake-up that waits for it. -/
theorem stuck_sendRun :
    ∃ s, run (KillChild.step false (.ok ())) new sendRun = some s ∧ s.Stuck false (.ok ()) := by
  have hrun : ∃ s, run (KillChild.step false (.ok ())) new sendRun = some s ∧
      s.thread = some (.sending (.ok ())) := ⟨_, rfl, rfl⟩
  obtain ⟨s, hs, hth⟩ := hrun
  exact ⟨s, hs, (waits_reachable ⟨_, hs⟩).stuck hth⟩

/-! ## Woken from elsewhere as well -/

/-- A result is one of `TerminateProcess`, and the thread is past its `send` only once the task has
the value. -/
structure Sound (res : Except IoError Unit) (s : KillChild) : Prop where
  done : ∀ r, s.task = .done r → r = res
  send : ∀ r, s.thread = some (.send r) ∨ s.thread = some (.sending r) → r = res
  past : s.thread = some .wake ∨ s.thread = some .done → ∃ r, s.task = .done r
  spawned : s.rx = false → s.thread = none

theorem sound_new (res : Except IoError Unit) : Sound res new where
  done := by
    intro r h
    cases h
  send := by
    intro r h
    rcases h with h | h <;> cases h
  past := by
    intro h
    rcases h with h | h <;> cases h
  spawned := fun _ => rfl

theorem Sound.step (h : Sound res s) (hs : Step foreign res s a s') : Sound res s' := by
  -- a thread past its `send` leaves the task done
  have hidle : s.task = .idle ∨ s.task = .polling →
      ¬(s.thread = some .wake ∨ s.thread = some .done) := by
    intro ht hth
    obtain ⟨r, hr⟩ := h.past hth
    rcases ht with ht | ht <;> simp [ht] at hr
  cases hs with
  | poll ht => exact ⟨nofun, h.send, fun hth => absurd hth (hidle (.inl ht)), h.spawned⟩
  | start => exact ⟨nofun, by simp, by simp, nofun⟩
  | @take r ht hrx hth =>
    have hr : r = res := h.send r (.inr hth)
    refine ⟨?_, by simp, fun _ => ⟨r, rfl⟩, fun hrx' => by simp [hrx] at hrx'⟩
    intro r' hr'
    cases hr'
    exact hr
  | closed ht hrx hth => exact absurd (.inr hth) (hidle (.inr ht))
  | pending ht => exact ⟨nofun, h.send, fun hth => absurd hth (hidle (.inr ht)), h.spawned⟩
  | foreign => exact ⟨h.done, h.send, h.past, h.spawned⟩
  | terminate hth =>
    refine ⟨h.done, by simp, by simp, ?_⟩
    intro hrx
    have hnone := h.spawned hrx
    rw [hth] at hnone
    cases hnone
  | @send r hth =>
    have hr : r = res := h.send r (.inl hth)
    refine ⟨h.done, by simp [hr], by simp, ?_⟩
    intro hrx
    have hnone := h.spawned hrx
    rw [hth] at hnone
    cases hnone
  | wake hth =>
    refine ⟨h.done, by simp, fun _ => h.past (.inl hth), ?_⟩
    intro hrx
    have hnone := h.spawned hrx
    rw [hth] at hnone
    cases hnone

/-- A kill future that completes does so with the result of its `TerminateProcess` call. -/
theorem done_eq (h : Reachable (KillChild.step foreign res) new s) {r : Except IoError Unit}
    (hr : s.task = .done r) : r = res := by
  have hsound : Sound res s := by
    apply h.invariant (sound_new res)
    intro s a s' hs ha
    exact hs.step (.of_step ha)
  exact hsound.done r hr

end KillChild

end JobRunner.Win
