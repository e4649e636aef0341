import JobRunner.Verify.Win.Stream

/-!
# The wake-ups of a Windows output stream

A task that polls the stream as `consume_output` does: again at once after some bytes, behind a
wake-up after a `Pending`, and not any more after zero bytes or an error. A poll registers the waker
before it looks into the channel, and the thread sends before it wakes. So whenever the last poll
has returned `Pending`, either the task has been woken, or its waker is registered and the thread
has a message to send first or stands right before `w.wake` (`Wakes.pending`). The last message is
no exception, since it stays in the channel until the task has stopped (`Wakes.last`).
-/

namespace JobRunner.Win.Stream

open Lts Mpsc

/-- The task has been told to stop, or has dropped the stream. -/
def Stopped : Task → Prop
  | .polled res => res.ends = true
  | .dropped => True
  | _ => False

structure Wakes (s : Stream) : Prop where
  last : s.reader.past = true → Stopped s.task ∨ ∃ m ∈ s.ch.queue, m.last = true
  polling : ∀ cap, s.task = .polling cap → s.waker.Armed
  pending : s.task = .polled .pending → s.waker.woken = true ∨
    (s.waker.registered = true ∧
      ((s.ch.queue = [] ∧ s.reader.past = false) ∨ ∃ last, s.reader = .wake last))

theorem wakes_start : Wakes start where
  last := nofun
  polling := nofun
  pending := nofun

theorem not_stopped_of_mayPoll {s : Stream} (h : s.mayPoll = true) : ¬Stopped s.task := by
  intro hst
  unfold mayPoll at h
  cases ht : s.task with
  | start | polling | dropped => simp [ht, Stopped] at h hst
  | polled res =>
    rw [ht] at h hst
    cases res with
    | pending | panicked => cases hst
    | failed => cases h
    | ready bs =>
      have hbs : bs.isEmpty = true := hst
      simp [hbs] at h

/-- A pending task is armed, and while the thread has nothing to wake it for the channel is
empty. -/
theorem Wakes.armed {s : Stream} (h : Wakes s) (ht : s.task = .polled .pending) :
    s.waker.Armed := by
  rcases h.pending ht with hw | ⟨hreg, -⟩
  · exact .inr hw
  · exact .inl hreg

/-- What the thread does before it sends leaves a pending task where it is. -/
theorem Wakes.reading {s : Stream} (h : Wakes s) {r : Reader} {read : List UInt8}
    (hwake : ∀ last, s.reader ≠ .wake last)
    (hr : r.past = false) : Wakes { s with reader := r, read } := by
  refine ⟨?_, h.polling, ?_⟩
  · intro hp
    rw [hr] at hp
    cases hp
  · intro ht
    rcases h.pending ht with hw | ⟨hreg, hq | ⟨last, hl⟩⟩
    · exact .inl hw
    · exact .inr ⟨hreg, .inl ⟨hq.1, hr⟩⟩
    · exact absurd hl (hwake last)

theorem Wakes.copy {s : Stream} (h : s.reader.past = true →
    (s.buffer.drop s.pos).take (min (s.buffer.length - s.pos) cap) = [] ∨
      ∃ m ∈ s.ch.queue, m.last = true) (hpos : s.pos ≤ s.buffer.length) :
    Wakes (s.copy cap) := by
  rw [copy_eq hpos]
  refine ⟨?_, nofun, nofun⟩
  intro hp
  rcases h hp with hnil | hm
  · left
    exact List.isEmpty_iff.2 hnil
  · exact .inr hm

theorem Wakes.step {s s' : Stream} {a : Act} (hc : Ctl s) (h : Wakes s) (hs : Step s a s')
    (hpoll : ∀ cap, a = .poll cap → s.mayPoll = true) : Wakes s' := by
  -- a task that is polling has not stopped, so the last message is still in the channel
  have hlast : ∀ cap, s.task = .polling cap → s.reader.past = true →
      ∃ m ∈ s.ch.queue, m.last = true := by
    intro cap ht hp
    rcases h.last hp with hst | hm
    · rw [ht] at hst
      exact hst.elim
    · exact hm
  cases hs with
  | enter hr | bytes hr | brokenPipe hr | failed hr =>
    exact h.reading (by simp [hr]) rfl
  | @sent msg hr =>
    refine ⟨fun hp => .inr ⟨msg, by simp, hp⟩, h.polling, ?_⟩
    intro ht
    rcases h.pending ht with hw | ⟨hreg, -⟩
    · exact .inl hw
    · exact .inr ⟨hreg, .inr ⟨_, rfl⟩⟩
  | unsent hr hclosed =>
    have ht := hc.rxOpen.1 hclosed
    refine ⟨fun _ => .inl (by dsimp only; rw [ht]; trivial), ?_, ?_⟩
    · intro cap hp
      rw [ht] at hp
      cases hp
    · intro hp
      rw [ht] at hp
      cases hp
  | @wake last hr =>
    refine ⟨?_, fun cap ht => (h.polling cap ht).wake, fun ht => .inl (h.armed ht).wake_woken⟩
    intro hp
    apply h.last
    rw [hr]
    cases last with
    | false => cases hp
    | true => rfl
  | leave hr =>
    refine ⟨fun _ => h.last (by rw [hr]; rfl), h.polling, ?_⟩
    intro ht
    rcases h.pending ht with hw | ⟨-, ⟨-, hp⟩ | ⟨last, hl⟩⟩
    · exact .inl hw
    · rw [hr] at hp
      cases hp
    · rw [hr] at hl
      cases hl
  | @poll cap =>
    refine ⟨?_, fun _ _ => AtomicWaker.armed_register, nofun⟩
    intro hp
    right
    exact (h.last hp).resolve_left (not_stopped_of_mayPoll (hpoll cap rfl))
  | @copy cap ht => exact Wakes.copy (fun hp => .inr (hlast cap ht hp)) hc.pos
  | @fetch cap bs q ht hp hq =>
    refine Wakes.copy ?_ (Nat.zero_le _)
    intro hpast
    obtain ⟨m, hm, hmlast⟩ := hlast cap ht hpast
    rw [hq] at hm
    rcases List.mem_cons.1 hm with rfl | hm
    · left
      rw [List.isEmpty_iff.1 hmlast]
      rfl
    · exact .inr ⟨m, hm, hmlast⟩
  | fetchErr => exact ⟨fun _ => .inl rfl, nofun, nofun⟩
  | @empty cap ht hp hq =>
    have hpast : s.reader.past = false := by
      cases hr : s.reader.past with
      | false => rfl
      | true =>
        obtain ⟨m, hm, -⟩ := hlast cap ht hr
        rw [hq] at hm
        cases hm
    refine ⟨?_, nofun, ?_⟩
    · intro hp
      rw [hpast] at hp
      cases hp
    · intro _
      rcases h.polling cap ht with hreg | hw
      · exact .inr ⟨hreg, .inl ⟨hq, hpast⟩⟩
      · exact .inl hw
  | closed => exact ⟨fun _ => .inl rfl, nofun, nofun⟩
  | drop => exact ⟨fun _ => .inl trivial, nofun, nofun⟩

theorem Step.of_taskStep {s s' : Stream} {a : Act} (h : s.taskStep a = some s') :
    Step s a s' ∧ ∀ cap, a = .poll cap → s.mayPoll = true := by
  cases a with
  | poll cap =>
    simp only [taskStep] at h
    split at h
    · next hm => exact ⟨.of_step h, fun _ _ => hm⟩
    · cases h
  | enter | readFile | send | wake | leave | finish | drop => exact ⟨.of_step h, nofun⟩

theorem wakes_reachable {s : Stream} (h : Reachable taskStep start s) :
    Ctl s ∧ Data s ∧ Wakes s := by
  apply Reachable.invariant (I := fun s => Ctl s ∧ Data s ∧ Wakes s) h
    ⟨ctl_start, data_start, wakes_start⟩
  rintro s a s' ⟨hc, hd, hw⟩ ha
  obtain ⟨hs, hpoll⟩ := Step.of_taskStep ha
  exact ⟨hc.step hs, hd.step hc hs, hw.step hc hs hpoll⟩

/-- The last poll returned `Pending`, a message is in the channel or the thread is behind its loop,
the task has not been woken, and the next step of the thread does not wake it. -/
def LostWakeup (s : Stream) : Prop :=
  s.task = .polled .pending ∧ (s.ch.queue ≠ [] ∨ s.reader = .left ∨ s.reader = .done) ∧
    s.waker.woken = false ∧ ∀ s', s.step .wake = some s' → s'.waker.woken = false

/-- No wake-up is lost. -/
theorem no_lostWakeup {s : Stream} {as : List Act} (hrun : run taskStep start as = some s) :
    ¬LostWakeup s := by
  rintro ⟨ht, hmsg, hwoken, hnext⟩
  obtain ⟨-, -, hw⟩ := wakes_reachable ⟨as, hrun⟩
  rcases hw.pending ht with h | ⟨hreg, ⟨hq, hpast⟩ | ⟨last, hl⟩⟩
  · rw [h] at hwoken
    cases hwoken
  · rcases hmsg with hne | hr | hr
    · exact hne hq
    · rw [hr] at hpast
      cases hpast
    · rw [hr] at hpast
      cases hpast
  · have harmed : s.waker.Armed := .inl hreg
    have hstep : s.step .wake =
        some { s with waker := s.waker.wake, reader := if last then .left else .loop } := by
      simp only [Stream.step, hl]
    have hlost := hnext _ hstep
    dsimp only at hlost
    rw [harmed.wake_woken] at hlost
    cases hlost

/-- The task finds nothing, and a chunk arrives. -/
def chunkRun : List Act := [.poll 1024, .finish, .enter, .readFile (.bytes [1]), .send]

theorem no_lostWakeup_chunkRun :
    ∃ s, run taskStep start chunkRun = some s ∧ s.task = .polled .pending ∧
      s.ch.queue = [.ok [1]] ∧ ¬LostWakeup s := by
  have hrun : ∃ s, run taskStep start chunkRun = some s ∧ s.task = .polled .pending ∧
      s.ch.queue = [.ok [1]] := ⟨_, rfl, rfl, rfl⟩
  obtain ⟨s, hs, ht, hq⟩ := hrun
  exact ⟨s, hs, ht, hq, no_lostWakeup hs⟩

end JobRunner.Win.Stream
