/-!
# A task and the slot that wakes it

A task that is polled registers its waker in a slot, and another party wakes whatever the slot
holds. `wake` takes the waker out, so a wake-up reaches the task at most once for each registration
and is lost when nothing is registered. The executor polls the task when it is woken, and a poll
uses the wake-ups received so far.
-/

/-- The slot, and whether its task has been woken since it was last polled. -/
structure AtomicWaker where
  registered : Bool
  woken : Bool
  deriving DecidableEq

namespace AtomicWaker

def new : AtomicWaker := { registered := false, woken := false }

/-- The task puts its waker in the slot. -/
def register (w : AtomicWaker) : AtomicWaker := { w with registered := true }

/-- The other party takes the waker out and wakes the task. -/
def wake (w : AtomicWaker) : AtomicWaker :=
  if w.registered then { registered := false, woken := true } else w

/-- The executor starts a poll of the task. -/
def poll (w : AtomicWaker) : AtomicWaker := { w with woken := false }

/-- The task is woken from outside the slot. -/
def wakeTask (w : AtomicWaker) : AtomicWaker := { w with woken := true }

variable (w : AtomicWaker)

@[simp] theorem register_woken : w.register.woken = w.woken := rfl
@[simp] theorem poll_woken : w.poll.woken = false := rfl

/-- The task has been woken, or the next `wake` wakes it. -/
def Armed : Prop := w.registered = true ∨ w.woken = true

variable {w}

theorem armed_register : w.register.Armed := .inl rfl

/-- A wake-up of an armed task arrives. -/
theorem Armed.wake_woken (h : w.Armed) : w.wake.woken = true := by
  unfold wake
  rcases h with h | h
  · rw [if_pos h]
  · split
    · rfl
    · exact h

theorem Armed.wake (h : w.Armed) : w.wake.Armed := .inr h.wake_woken

end AtomicWaker
