import JobRunner.Verify.Backpressure
import JobRunner.Verify.Win.Job

/-!
# What a stream with a thread holds

The thread of a `WinHandleOutputStream` reads ahead of the task: 1024 chunks wait in its channel,
one is in its hands and one in the buffer of the stream. So on Windows a child is held back only
after 1046 reads that nobody has listened to (`JobRun.inFlight_bounded`), where on Unix it is after
twenty.
-/

namespace JobRunner.Win

open Lts Mpsc

namespace Stream

/-- The chunks of a stream, and the number of those in its channel. -/
structure Sized (s : Stream) : Prop where
  cap : s.ch.cap = 1024
  len : s.ch.queue.length ≤ 1024
  queue : ∀ m ∈ s.ch.queue, m.bytes.length ≤ 1024
  held : s.reader.held.length ≤ 1024
  buffer : s.buffer.length ≤ 1024

namespace Sized

variable {s s' : Stream}

theorem start : Sized Stream.start where
  cap := rfl
  len := Nat.zero_le _
  queue m hm := by cases hm
  held := Nat.zero_le _
  buffer := Nat.zero_le _

theorem copy (h : Sized s) (cap : Nat) : Sized (s.copy cap) := by
  unfold Stream.copy
  dsimp only
  split
  · exact ⟨h.cap, h.len, h.queue, h.held, h.buffer⟩
  · exact ⟨h.cap, h.len, h.queue, h.held, h.buffer⟩

/-- A fetch takes the first chunk out of the channel. -/
theorem fetch (h : Sized s) {m : Msg} {q : List Msg} (hq : s.ch.queue = m :: q) :
    m.bytes.length ≤ 1024 ∧ q.length ≤ 1024 ∧ ∀ m' ∈ q, m'.bytes.length ≤ 1024 := by
  have hlen := h.len
  have hqueue := h.queue
  rw [hq] at hlen hqueue
  obtain ⟨hm, hrest⟩ := List.forall_mem_cons.1 hqueue
  exact ⟨hm, Nat.le_of_succ_le hlen, hrest⟩

theorem step (h : Sized s) {a : Act} (hs : Step s a s') : Sized s' := by
  cases hs with
  | enter => exact { h with held := Nat.zero_le _ }
  | bytes hr hlen => exact { h with held := hlen }
  | brokenPipe => exact { h with held := Nat.zero_le _ }
  | failed => exact { h with held := Nat.zero_le _ }
  | @sent msg hr ho hcap =>
    have hmsg := h.held
    rw [hr] at hmsg
    rw [h.cap] at hcap
    refine ⟨h.cap, ?_, fun m hm => ?_, Nat.zero_le _, h.buffer⟩
    · rw [Chan.push_queue, List.length_append, List.length_singleton]
      exact hcap
    · rcases List.mem_append.1 hm with hm | hm
      · exact h.queue m hm
      · rw [List.mem_singleton.1 hm]
        exact hmsg
  | @unsent msg => exact { h with held := by cases msg <;> exact Nat.zero_le _ }
  | @wake last => exact { h with held := by cases last <;> exact Nat.zero_le _ }
  | leave => exact { h with held := Nat.zero_le _ }
  | poll => exact { h with }
  | copy => exact h.copy _
  | @fetch cap bs q ht hp hq =>
    obtain ⟨hbs, hlen, hrest⟩ := h.fetch hq
    have hnext : Sized { s with ch := { s.ch with queue := q }, buffer := bs, pos := 0 } :=
      ⟨h.cap, hlen, hrest, h.held, hbs⟩
    exact hnext.copy cap
  | fetchErr ht hp hq =>
    obtain ⟨-, hlen, hrest⟩ := h.fetch hq
    exact ⟨h.cap, hlen, hrest, h.held, h.buffer⟩
  | empty => exact { h with }
  | closed => exact { h with }
  | drop => exact ⟨h.cap, Nat.zero_le _, fun m hm => (by cases hm), h.held, h.buffer⟩

theorem reachable (h : Reachable taskStep Stream.start s) : Sized s :=
  h.invariant start fun _ _ _ hi hs => hi.step (Step.of_taskStep hs).1

/-- What is between `ReadFile` and the task. -/
theorem length_rest_le (h : Sized s) : s.rest.length ≤ 1026 * 1024 := by
  have hqueue := length_flatMap_le h.queue
  have hlen := h.len
  have hheld := h.held
  have hbuffer := h.buffer
  simp only [rest, List.length_append, List.length_drop]
  omega

end Sized

end Stream

namespace JobRun

variable {jobId : JobId} {user : User} {pid : Pid} {now : DateTime} {as : List Act} {s : JobRun}

/-- While `wait` runs and the task of a stream reads, at most 1046 reads of the stream have left its
pipe and not reached the history. -/
theorem inFlight_bounded (hr : run step (start (Job.started jobId user pid now)) as = some s)
    (hw : ∀ a ∈ as, ∀ k, a ≠ .output k (.write [])) (hpc : s.pl.trk.pc ≠ .returned)
    {k : StreamKind} (hreads : (s.pl.output k).pc.reads = true) :
    (s.pl.output k).pipe.written.length ≤ (s.pl.output k).pipe.unread.length + 1046 * 1024 +
      (FrameEvent.streamBytes k s.pl.bc.frames).length := by
  obtain ⟨bs, p, hrun, -, hf⟩ := follows_run hr hw
  obtain ⟨hg, hb⟩ := Pipeline.Bounded.run rfl hrun
  have hp : p.trk.pc ≠ .returned := by
    rw [hf.rest]
    exact hpc
  have hle := hb.inFlight hg hp k
  have hrest := (Stream.Sized.reachable (hf.reads k).stream).length_rest_le
  have hwritten : (p.output k).pipe.written = (s.pl.output k).pipe.written := by
    rw [(hf.reads k).same]
  have hbc : p.bc = s.pl.bc := by rw [hf.rest]
  rw [hwritten, hbc, (hf.reads k).unread hreads, List.length_append] at hle
  omega

/-- The thread has read a byte that the task does not know of. -/
def readRun (b : UInt8) : List Act :=
  [.output .stdout .enter, .output .stdout (.write [b]), .output .stdout (.readFile 1)]

theorem inFlight_bounded_readRun : ∃ s,
    run step (start (Job.started ⟨"job"⟩ ⟨"alice"⟩ ⟨7⟩ ⟨1⟩)) (readRun 104) = some s ∧
    (s.pl.output .stdout).pipe.written.length ≤ (s.pl.output .stdout).pipe.unread.length +
      1046 * 1024 + (FrameEvent.streamBytes .stdout s.pl.bc.frames).length := by
  obtain ⟨s, hs, hpc, hreads⟩ : ∃ s,
      run step (start (Job.started ⟨"job"⟩ ⟨"alice"⟩ ⟨7⟩ ⟨1⟩)) (readRun 104) = some s ∧
      s.pl.trk.pc ≠ .returned ∧ (s.pl.output .stdout).pc.reads = true :=
    ⟨_, rfl, by decide, rfl⟩
  exact ⟨s, hs, inFlight_bounded hs (by simp [readRun]) hpc hreads⟩

end JobRun

end JobRunner.Win
