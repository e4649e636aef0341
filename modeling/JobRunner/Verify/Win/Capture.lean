import JobRunner.Win.Capture
import JobRunner.Verify.Output
import JobRunner.Verify.Win.Wake

/-!
# What is captured of a Windows output

The bytes pass from the pipe through the stream and `consume_output` into the frames. The thread
stops at the first `ReadFile` that returns no bytes: at the end of the pipe, and also where a write
of no bytes meets a waiting `ReadFile`. What the child writes after such a write stays in the pipe;
everything else is captured (`captured_iff`), and a closed pipe leaves only so much to do
(`weight_step`).
-/

namespace JobRunner.Win

open Lts Mpsc

/-- `ReadFile` has returned no bytes. -/
def Reader.ending : Reader → Bool
  | .send msg => msg.last
  | r => r.past

theorem Reader.ending_of_past {r : Reader} (h : r.past = true) : r.ending = true := by
  cases r with
  | send msg => cases h
  | loop | reading | wake last | left | done => exact h

namespace Capture

/-- The steps of the thread outside `ReadFile`. -/
def Act.thread : Act → Option Stream.Act
  | .enter => some .enter
  | .sendMsg => some .send
  | .wake => some .wake
  | .leave => some .leave
  | _ => none

/-- The rules of `Capture.step`. -/
inductive Step (s : Capture) : Act → Capture → Prop
  | cut {stream} (hc : s.out.pipe.closed = false) (hr : s.stream.reader = .reading)
      (hu : s.out.pipe.unread = [])
      (hst : s.stream.step (.readFile (.bytes [])) = some stream) :
      Step s (.write []) { s with stream, cut := true }
  | write {bs} (hc : s.out.pipe.closed = false) :
      Step s (.write bs) { s with
        out := { s.out with
          pipe := { s.out.pipe with
            written := s.out.pipe.written ++ bs, unread := s.out.pipe.unread ++ bs } } }
  | close :
      Step s .close { s with out := { s.out with pipe := { s.out.pipe with closed := true } } }
  | thread {a b stream} (hb : a.thread = some b) (hst : s.stream.step b = some stream) :
      Step s a { s with stream }
  | readFile {n stream} (hn : 1 ≤ n) (hlen : n ≤ s.out.pipe.unread.length)
      (hst : s.stream.step (.readFile (.bytes (s.out.pipe.unread.take n))) = some stream) :
      Step s (.readFile n) { s with
        stream
        out := { s.out with
          pipe := { s.out.pipe with unread := s.out.pipe.unread.drop n } } }
  | brokenPipe {stream} (hu : s.out.pipe.unread = []) (hc : s.out.pipe.closed = true)
      (hst : s.stream.step (.readFile .brokenPipe) = some stream) :
      Step s .brokenPipe { s with stream }
  | poll {stream} (hpc : s.out.pc = .read)
      (hst : s.stream.taskStep (.poll 1024) = some stream) : Step s .poll { s with stream }
  | finish {stream} (hpc : s.out.pc = .read) (hst : s.stream.step .finish = some stream) :
      Step s .finish { s with stream }.consume
  | sent {frame} (hpc : s.out.pc = .send frame) (ho : s.out.ch.rxOpen = true)
      (hcap : s.out.ch.queue.length < s.out.ch.cap) :
      Step s .send { s with
        out := { s.out with pc := .read, ch := s.out.ch.push (.ok frame) }
        frames := s.frames ++ [frame] }
  | unsent {frame} (hpc : s.out.pc = .send frame) (hc : s.out.ch.rxOpen = false) :
      Step s .send { s with out := s.out.finish, stream := dropStream s.stream }
  | sentErr {err out} (hpc : s.out.pc = .sendErr err) (hst : s.out.step .send = some out) :
      Step s .send { s with out }
  | recv {res q} (hq : s.out.ch.queue = res :: q) :
      Step s .recv { s with out := { s.out with ch := { s.out.ch with queue := q } } }

theorem Step.of_write {s s' : Capture} {bs : List UInt8} (h : s.step (.write bs) = some s') :
    Step s (.write bs) s' := by
  simp only [step] at h
  split at h
  · cases h
  · next hc =>
    have hc : s.out.pipe.closed = false := by simpa using hc
    split at h
    · next hr hu =>
      obtain ⟨stream, hst, h⟩ := Option.bind_eq_some_iff.1 h
      cases h
      exact .cut hc hr hu hst
    · obtain ⟨out, hout, h⟩ := Option.bind_eq_some_iff.1 h
      cases h
      obtain ⟨-, rfl⟩ := Output.step_write hout
      exact .write hc

theorem Step.of_step {s s' : Capture} {a : Act} (h : s.step a = some s') : Step s a s' := by
  cases a with
  | write bs => exact .of_write h
  | close =>
    cases h
    exact .close
  | enter | sendMsg | wake | leave =>
    simp only [step] at h
    obtain ⟨stream, hst, h⟩ := Option.bind_eq_some_iff.1 h
    cases h
    exact .thread rfl hst
  | readFile n =>
    simp only [step] at h
    split at h
    · next hn =>
      obtain ⟨stream, hst, h⟩ := Option.bind_eq_some_iff.1 h
      cases h
      exact .readFile hn.1 hn.2 hst
    · cases h
  | brokenPipe =>
    simp only [step] at h
    split at h
    · next hp =>
      obtain ⟨stream, hst, h⟩ := Option.bind_eq_some_iff.1 h
      cases h
      exact .brokenPipe hp.1 hp.2 hst
    · cases h
  | poll =>
    simp only [step] at h
    split at h
    · next hpc =>
      obtain ⟨stream, hst, h⟩ := Option.bind_eq_some_iff.1 h
      cases h
      exact .poll hpc hst
    · cases h
  | finish =>
    simp only [step] at h
    split at h
    · next hpc =>
      obtain ⟨stream, hst, h⟩ := Option.bind_eq_some_iff.1 h
      cases h
      exact .finish hpc hst
    · cases h
  | send =>
    simp only [step] at h
    split at h
    · next frame hpc =>
      split at h
      · cases h
      · next ch hsend =>
        cases h
        rcases Chan.send_eq_some_iff.1 hsend with ⟨-, ho, hcap, rfl⟩ | ⟨hno, -⟩
        · exact .sent hpc ho hcap
        · cases hno
      · next ch hsend =>
        cases h
        rcases Chan.send_eq_some_iff.1 hsend with ⟨hno, -⟩ | ⟨-, hc, -⟩
        · cases hno
        · exact .unsent hpc hc
    · next err hpc =>
      obtain ⟨out, hout, h⟩ := Option.bind_eq_some_iff.1 h
      cases h
      exact .sentErr hpc hout
    · cases h
  | recv =>
    simp only [step] at h
    split at h
    · next res out hr =>
      cases h
      rcases Output.recv_cases hr with ⟨res, q, hq, -, rfl⟩ | ⟨-, -, hno, -⟩
      · exact .recv hq
      · cases hno
    · cases h

/-! ## The stream's part of a step -/

/-- No read has failed. -/
structure NoErr (st : Stream) : Prop where
  reader : ∀ err, st.reader ≠ .send (.error err)
  queue : ∀ err, .error err ∉ st.ch.queue

/-- What a step of the thread leaves alone. -/
structure ThreadStep (st st' : Stream) : Prop where
  task : st'.task = st.task
  put : st'.put = st.put
  read : st'.read = st.read
  past : st.reader.past = true → st'.reader.past = true
  ending : st.ch.rxOpen = true ∨ st.reader.past = true → st'.reader.ending = st.reader.ending
  noErr : NoErr st → NoErr st'

theorem ThreadStep.of_step {a : Act} {b : Stream.Act} {st st' : Stream}
    (hb : a.thread = some b) (h : Stream.Step st b st') : ThreadStep st st' := by
  cases a with
  | write | close | readFile | brokenPipe | poll | finish | send | recv => cases hb
  | enter =>
    cases hb
    cases h with
    | enter hr =>
      refine ⟨rfl, rfl, rfl, ?_, fun _ => by rw [hr]; rfl, fun hn => ⟨nofun, hn.queue⟩⟩
      intro hp
      rw [hr] at hp
      cases hp
  | sendMsg =>
    cases hb
    cases h with
    | @sent msg hr ho =>
      refine ⟨rfl, rfl, rfl, ?_, fun _ => by rw [hr]; rfl, ?_⟩
      · intro hp
        rw [hr] at hp
        cases hp
      · intro hn
        refine ⟨nofun, ?_⟩
        intro err hm
        rcases List.mem_append.1 hm with hm | hm
        · exact hn.queue err hm
        · apply hn.reader err
          rw [hr, List.mem_singleton.1 hm]
    | @unsent msg hr hc =>
      refine ⟨rfl, rfl, rfl, ?_, ?_, ?_⟩
      · intro hp
        rw [hr] at hp
        cases hp
      · rintro (ho | hp)
        · rw [hc] at ho
          cases ho
        · rw [hr] at hp
          cases hp
      · intro hn
        refine ⟨?_, hn.queue⟩
        cases msg <;> exact nofun
  | wake =>
    cases hb
    cases h with
    | @wake last hr =>
      cases last with
      | false =>
        refine ⟨rfl, rfl, rfl, ?_, fun _ => by rw [hr]; rfl, fun hn => ⟨nofun, hn.queue⟩⟩
        intro hp
        rw [hr] at hp
        cases hp
      | true => exact ⟨rfl, rfl, rfl, fun _ => rfl, fun _ => by rw [hr]; rfl,
          fun hn => ⟨nofun, hn.queue⟩⟩
  | leave =>
    cases hb
    cases h with
    | leave hr => exact ⟨rfl, rfl, rfl, fun _ => rfl, fun _ => by rw [hr]; rfl,
        fun hn => ⟨nofun, hn.queue⟩⟩

/-- What the rest of a poll does when no read has failed: it finds nothing, or puts some bytes. -/
structure PollStep (st st' : Stream) : Prop where
  reader : st'.reader = st.reader
  read : st'.read = st.read
  noErr : NoErr st'
  res : (st'.task = .polled .pending ∧ st'.put = st.put) ∨
    ∃ bs, st'.task = .polled (.ready bs) ∧ st'.put = st.put ++ bs

theorem PollStep.copy {st : Stream} (cap : Nat) (hpos : st.pos ≤ st.buffer.length)
    (hn : NoErr st) : PollStep st (st.copy cap) := by
  rw [Stream.copy_eq hpos]
  exact ⟨rfl, rfl, ⟨hn.reader, hn.queue⟩, .inr ⟨_, rfl, rfl⟩⟩

theorem PollStep.of_step {st st' : Stream} (hc : Stream.Ctl st) (hn : NoErr st)
    (h : Stream.Step st .finish st') : PollStep st st' := by
  cases h with
  | copy => exact .copy _ hc.pos hn
  | @fetch cap bs q ht hp hq =>
    have hn' : NoErr { st with ch := { st.ch with queue := q }, buffer := bs, pos := 0 } := by
      refine ⟨hn.reader, ?_⟩
      intro err hm
      apply hn.queue err
      rw [hq]
      exact List.mem_cons_of_mem _ hm
    have hcopy := PollStep.copy cap (Nat.zero_le _) hn'
    exact ⟨hcopy.reader, hcopy.read, hcopy.noErr, hcopy.res⟩
  | @fetchErr cap err q ht hp hq =>
    exact absurd (by rw [hq]; exact List.mem_cons_self) (hn.queue err)
  | empty => exact ⟨rfl, rfl, ⟨hn.reader, hn.queue⟩, .inl ⟨rfl, rfl⟩⟩
  | closed => exact ⟨rfl, rfl, ⟨hn.reader, hn.queue⟩, .inr ⟨[], rfl, by simp⟩⟩

/-! ## Nothing is lost up to the thread's last read -/

/-- What the frames hold, by where `consume_output` is. -/
def AtPc (s : Capture) : Prop :=
  match s.out.pc with
  | .read => ¬Stream.Stopped s.stream.task ∧ s.captured = s.stream.put
  | .send frame => (∃ bs, bs ≠ [] ∧ s.stream.task = .polled (.ready bs)) ∧
      s.captured ++ frame.bs = s.stream.put
  | .sendErr _ => False
  | .done => s.stream.reader.past = true ∧ s.stream.put = s.stream.read ∧
      s.captured = s.stream.put

structure Inv (s : Capture) : Prop where
  stream : Reachable Stream.taskStep Stream.start s.stream
  rxOpen : s.out.ch.rxOpen = true
  slots : s.out.ch.cap = 16
  noErr : NoErr s.stream
  written : s.stream.read ++ s.out.pipe.unread = s.out.pipe.written
  atPc : AtPc s
  ending : s.stream.reader.ending = true →
    s.cut = true ∨ (s.out.pipe.closed = true ∧ s.out.pipe.unread = [])
  cut : s.cut = true → s.stream.reader.ending = true

theorem inv_start (kind : StreamKind) : Inv (start kind) where
  stream := Reachable.refl _
  rxOpen := rfl
  slots := rfl
  noErr := ⟨nofun, nofun⟩
  written := rfl
  atPc := ⟨id, rfl⟩
  ending := nofun
  cut := nofun

/-- No read has failed, so there is no error to send. -/
theorem Inv.not_sendErr {s : Capture} (h : Inv s) {err : TrackerError}
    (hpc : s.out.pc = .sendErr err) : False := by
  have hat := h.atPc
  unfold AtPc at hat
  rw [hpc] at hat
  exact hat

/-- The receiver of the stream is gone only when `consume_output` is done. -/
theorem Inv.open_or_past {s : Capture} (h : Inv s) :
    s.stream.ch.rxOpen = true ∨ s.stream.reader.past = true := by
  obtain ⟨hc, -, -⟩ := Stream.wakes_reachable h.stream
  have hat := h.atPc
  unfold AtPc at hat
  cases hpc : s.out.pc with
  | read =>
    rw [hpc] at hat
    left
    apply hc.isOpen
    intro ht
    rw [ht] at hat
    exact hat.1 trivial
  | send frame =>
    rw [hpc] at hat
    obtain ⟨⟨bs, -, ht⟩, -⟩ := hat
    left
    apply hc.isOpen
    simp [ht]
  | sendErr err => exact (h.not_sendErr hpc).elim
  | done =>
    rw [hpc] at hat
    exact .inr hat.1

/-- A step that is not one of `consume_output` leaves what the frames hold. -/
theorem AtPc.frame {s s' : Capture} (h : AtPc s) (hpc : s'.out.pc = s.out.pc)
    (hframes : s'.frames = s.frames) (htask : s'.stream.task = s.stream.task)
    (hput : s'.stream.put = s.stream.put)
    (hpast : s.stream.reader.past = true →
      s'.stream.reader.past = true ∧ s'.stream.read = s.stream.read) : AtPc s' := by
  have hcap : s'.captured = s.captured := by
    unfold captured
    rw [hframes]
  unfold AtPc at h ⊢
  rw [hpc, htask, hput, hcap]
  cases hp : s.out.pc with
  | read | send | sendErr =>
    rw [hp] at h
    exact h
  | done =>
    rw [hp] at h
    obtain ⟨hpast', hread⟩ := hpast h.1
    refine ⟨hpast', ?_, h.2.2⟩
    rw [hread]
    exact h.2.1

/-- A thread that waits in `ReadFile` has not been told the end. -/
theorem Inv.cut_of_readFile {s : Capture} (h : Inv s) {bs : List UInt8} {stream : Stream}
    (hst : s.stream.step (.readFile (.bytes bs)) = some stream) : s.cut = false := by
  cases hc : s.cut with
  | false => rfl
  | true =>
    have he := h.cut hc
    cases Stream.Step.of_step hst with
    | bytes hr =>
      rw [hr] at he
      cases he

/-- `ReadFile` returns while the thread waits in it. -/
theorem Inv.readFile {s : Capture} (h : Inv s) {bs : List UInt8} {stream : Stream} (pipe : Pipe)
    (cut : Bool) (hst : s.stream.step (.readFile (.bytes bs)) = some stream)
    (hw : s.stream.read ++ bs ++ pipe.unread = pipe.written)
    (hcut : cut = true ↔ bs = []) :
    Inv { s with stream, cut, out := { s.out with pipe } } := by
  have hreach : Reachable Stream.taskStep Stream.start stream :=
    h.stream.tail (a := .readFile (.bytes bs)) hst
  cases Stream.Step.of_step hst with
  | bytes hr =>
    refine ⟨hreach, h.rxOpen, h.slots, ⟨?_, h.noErr.queue⟩, hw, ?_, ?_, ?_⟩
    · intro err he
      cases he
    · refine h.atPc.frame rfl rfl rfl rfl ?_
      intro hp
      rw [hr] at hp
      cases hp
    · intro he
      exact .inl (hcut.2 (List.isEmpty_iff.1 he))
    · intro hc
      exact List.isEmpty_iff.2 (hcut.1 hc)

theorem Inv.finish {s : Capture} (h : Inv s) {stream : Stream} (hpc : s.out.pc = .read)
    (hst : s.stream.step .finish = some stream) : Inv { s with stream }.consume := by
  obtain ⟨hc, -, -⟩ := Stream.wakes_reachable h.stream
  have hreach : Reachable Stream.taskStep Stream.start stream :=
    h.stream.tail (a := .finish) hst
  obtain ⟨hc', hd', -⟩ := Stream.wakes_reachable hreach
  have hpoll := PollStep.of_step hc h.noErr (.of_step hst)
  have hat := h.atPc
  unfold AtPc at hat
  rw [hpc] at hat
  obtain ⟨hstop, hcap⟩ := hat
  rcases hpoll.res with ⟨ht, hput⟩ | ⟨bs, ht, hput⟩
  · -- nothing to read yet
    have he : { s with stream }.consume = { s with stream } := by
      simp only [consume, ht]
    rw [he]
    refine ⟨hreach, h.rxOpen, h.slots, hpoll.noErr, ?_, ?_, ?_, ?_⟩
    · rw [hpoll.read]
      exact h.written
    · unfold AtPc
      dsimp only
      rw [hpc, ht, hput]
      exact ⟨by simp [Stream.Stopped, PollRead.ends], hcap⟩
    · rw [hpoll.reader]
      exact h.ending
    · rw [hpoll.reader]
      exact h.cut
  · cases bs with
    | nil =>
      -- the end, and the stream is dropped
      have he : { s with stream }.consume =
          { s with out := s.out.finish, stream := dropStream stream } := by
        simp only [consume, ht]
      have hdrop : stream.taskStep .drop = some (dropStream stream) := by
        simp only [Stream.taskStep, Stream.step, ht]
        rfl
      obtain ⟨hpast, hread⟩ := hd'.ended _ ht rfl
      rw [he]
      refine ⟨hreach.tail hdrop, h.rxOpen, h.slots, ⟨hpoll.noErr.reader, by simp [dropStream]⟩,
        ?_, ?_, ?_, ?_⟩
      · dsimp only [dropStream]
        rw [hpoll.read]
        exact h.written
      · refine ⟨hpast, hread, ?_⟩
        dsimp only [dropStream]
        rw [hput, List.append_nil]
        exact hcap
      · dsimp only [dropStream]
        rw [hpoll.reader]
        exact h.ending
      · dsimp only [dropStream]
        rw [hpoll.reader]
        exact h.cut
    | cons b bs =>
      have he : { s with stream }.consume =
          { s with
            stream
            out := { s.out with pc := .send { kind := s.out.kind, bs := b :: bs } } } := by
        simp only [consume, ht]
      rw [he]
      refine ⟨hreach, h.rxOpen, h.slots, hpoll.noErr, ?_, ?_, ?_, ?_⟩
      · rw [hpoll.read]
        exact h.written
      · refine ⟨⟨b :: bs, by simp, ht⟩, ?_⟩
        dsimp only
        rw [hput, ← hcap]
        rfl
      · rw [hpoll.reader]
        exact h.ending
      · rw [hpoll.reader]
        exact h.cut

theorem Inv.step {s s' : Capture} {a : Act} (h : Inv s) (hs : Step s a s') : Inv s' := by
  have hsame : s.stream.reader.past = true →
      s.stream.reader.past = true ∧ s.stream.read = s.stream.read := fun hp => ⟨hp, rfl⟩
  cases hs with
  | cut hc hr hu hst =>
    have hcut := h.readFile s.out.pipe true hst
      (by rw [List.append_nil]; exact h.written) (by simp)
    exact hcut
  | @write bs hc =>
    refine ⟨h.stream, h.rxOpen, h.slots, h.noErr, ?_, h.atPc.frame rfl rfl rfl rfl hsame, ?_, h.cut⟩
    · dsimp only
      rw [← List.append_assoc, h.written]
    · intro he
      rcases h.ending he with hcut | ⟨hclosed, -⟩
      · exact .inl hcut
      · rw [hc] at hclosed
        cases hclosed
  | close =>
    refine ⟨h.stream, h.rxOpen, h.slots, h.noErr, h.written, h.atPc.frame rfl rfl rfl rfl hsame, ?_,
      h.cut⟩
    intro he
    rcases h.ending he with hcut | ⟨-, hu⟩
    · exact .inl hcut
    · exact .inr ⟨rfl, hu⟩
  | @thread a b stream hb hst =>
    have ht := ThreadStep.of_step hb (.of_step hst)
    have hend := ht.ending h.open_or_past
    have hreach : Reachable Stream.taskStep Stream.start stream := by
      apply h.stream.tail (a := b)
      rw [← hst]
      cases a with
      | enter | sendMsg | wake | leave =>
        cases hb
        rfl
      | write | close | readFile | brokenPipe | poll | finish | send | recv => cases hb
    refine ⟨hreach, h.rxOpen, h.slots, ht.noErr h.noErr, ?_, ?_, ?_, ?_⟩
    · dsimp only
      rw [ht.read]
      exact h.written
    · exact h.atPc.frame rfl rfl ht.task ht.put fun hp => ⟨ht.past hp, ht.read⟩
    · rw [hend]
      exact h.ending
    · rw [hend]
      exact h.cut
  | @readFile n stream hn hlen hst =>
    have hcut := h.cut_of_readFile hst
    apply h.readFile _ _ hst
    · rw [List.append_assoc, List.take_append_drop]
      exact h.written
    · rw [hcut]
      refine iff_of_false nofun ?_
      intro hnil
      have hlen' := congrArg List.length hnil
      simp only [List.length_take, List.length_nil] at hlen'
      omega
  | @brokenPipe stream hu hc hst =>
    have hreach : Reachable Stream.taskStep Stream.start stream :=
      h.stream.tail (a := .readFile .brokenPipe) hst
    cases Stream.Step.of_step hst with
    | brokenPipe hr =>
      refine ⟨hreach, h.rxOpen, h.slots, ⟨?_, h.noErr.queue⟩, h.written, ?_, fun _ => .inr ⟨hc, hu⟩,
        fun _ => rfl⟩
      · intro err he
        cases he
      · refine h.atPc.frame rfl rfl rfl rfl ?_
        intro hp
        rw [hr] at hp
        cases hp
  | @poll stream hpc hst =>
    have hreach := h.stream.tail hst
    have hat := h.atPc
    unfold AtPc at hat
    rw [hpc] at hat
    cases (Stream.Step.of_taskStep hst).1 with
    | poll =>
      refine ⟨hreach, h.rxOpen, h.slots, ⟨h.noErr.reader, h.noErr.queue⟩, h.written, ?_, h.ending,
        h.cut⟩
      unfold AtPc
      dsimp only
      rw [hpc]
      exact ⟨id, hat.2⟩
  | finish hpc hst => exact h.finish hpc hst
  | @sent frame hpc =>
    have hat := h.atPc
    unfold AtPc at hat
    rw [hpc] at hat
    obtain ⟨⟨bs, hbs, ht⟩, hcap⟩ := hat
    refine ⟨h.stream, h.rxOpen, h.slots, h.noErr, h.written, ⟨?_, ?_⟩, h.ending, h.cut⟩
    · dsimp only
      rw [ht]
      simpa [Stream.Stopped, PollRead.ends] using hbs
    · rw [← hcap]
      simp [captured]
  | unsent hpc hc =>
    rw [h.rxOpen] at hc
    cases hc
  | sentErr hpc => exact (h.not_sendErr hpc).elim
  | recv =>
    exact ⟨h.stream, h.rxOpen, h.slots, h.noErr, h.written, h.atPc.frame rfl rfl rfl rfl hsame,
      h.ending, h.cut⟩

theorem inv_run {kind : StreamKind} {s : Capture} {as : List Act}
    (h : run Capture.step (start kind) as = some s) : Inv s := by
  apply Reachable.invariant ⟨as, h⟩ (inv_start kind)
  intro s a s' hs ha
  exact hs.step (.of_step ha)

/-! ## Writes behind the thread's last read -/

/-- The label writes some bytes, and a write of no bytes has ended a `ReadFile` before. -/
def Lossy (s : Capture) (a : Act) : Prop := ∃ bs, a = .write bs ∧ bs ≠ [] ∧ s.cut = true

theorem consume_pipe (s : Capture) :
    s.consume.cut = s.cut ∧ s.consume.out.pipe = s.out.pipe := by
  unfold consume
  split <;> exact ⟨rfl, rfl⟩

/-- What is behind the thread's last read stays in the pipe. -/
theorem lossy_step {s s' : Capture} {a : Act} (h : Inv s) (hs : Step s a s') :
    (s'.cut = true ∧ s'.out.pipe.unread ≠ []) ↔
      (s.cut = true ∧ s.out.pipe.unread ≠ []) ∨ Lossy s a := by
  have hnot : ∀ {b : Act}, (∀ bs, b ≠ .write bs) → ¬Lossy s b := by
    rintro b hb ⟨bs, rfl, -⟩
    exact hb bs rfl
  cases hs with
  | cut hc hr hu =>
    refine iff_of_false (fun hl => hl.2 hu) ?_
    rintro (⟨-, hne⟩ | ⟨bs, he, hne, -⟩)
    · exact hne hu
    · cases he
      exact hne rfl
  | @write bs =>
    constructor
    · rintro ⟨hcut, hne⟩
      by_cases hbs : bs = []
      · subst hbs
        dsimp only at hne
        rw [List.append_nil] at hne
        exact .inl ⟨hcut, hne⟩
      · exact .inr ⟨bs, rfl, hbs, hcut⟩
    · rintro (⟨hcut, hne⟩ | ⟨bs', he, hne, hcut⟩)
      · exact ⟨hcut, by simp [hne]⟩
      · cases he
        exact ⟨hcut, by simp [hne]⟩
  | @readFile n stream hn hlen hst =>
    have hcut := h.cut_of_readFile hst
    refine iff_of_false (by simp [hcut]) ?_
    rintro (⟨hc, -⟩ | hl)
    · rw [hcut] at hc
      cases hc
    · exact hnot (by simp) hl
  | @thread a b stream hb =>
    refine (or_iff_left (hnot ?_)).symm
    rintro bs rfl
    cases hb
  | finish =>
    rw [(consume_pipe _).1, (consume_pipe _).2]
    exact (or_iff_left (hnot (by simp))).symm
  | unsent hpc hc =>
    rw [h.rxOpen] at hc
    cases hc
  | sentErr hpc => exact (h.not_sendErr hpc).elim
  | close | brokenPipe | poll | sent | recv => exact (or_iff_left (hnot (by simp))).symm

theorem lossy_run {kind : StreamKind} {s : Capture} {as : List Act}
    (h : run Capture.step (start kind) as = some s) :
    Met Capture.step Lossy (start kind) as ↔ s.cut = true ∧ s.out.pipe.unread ≠ [] := by
  apply run_induct (motive := fun as s =>
    Met Capture.step Lossy (start kind) as ↔ s.cut = true ∧ s.out.pipe.unread ≠ []) _ _ h
  · refine iff_of_false not_met_nil ?_
    rintro ⟨hc, -⟩
    cases hc
  · intro as s a s' hr ih ha
    rw [met_snoc hr, ih, lossy_step (inv_run hr) (.of_step ha)]

/-! ## When nothing more happens -/

section Rest

variable {s : Capture}

/-- The tracker has emptied its channel. -/
theorem AtRest.queue_nil (hrest : AtRest s) : s.out.ch.queue = [] := by
  cases hq : s.out.ch.queue with
  | nil => rfl
  | cons res q =>
    have hstep := hrest.2 .recv (by simp)
    simp [step, Output.recv, Chan.recv, hq] at hstep

/-- `consume_output` is done, or waits for the stream. -/
theorem AtRest.consumer (h : Inv s) (hrest : AtRest s) : s.out.pc = .done ∨
    (s.stream.task = .polled .pending ∧ s.stream.waker.woken = false) := by
  have hat := h.atPc
  unfold AtPc at hat
  cases hpc : s.out.pc with
  | done => exact .inl rfl
  | sendErr err => exact (h.not_sendErr hpc).elim
  | send frame =>
    have hstep := hrest.2 .send (by simp)
    have hsend : s.out.ch.send (.ok frame) = some (true, s.out.ch.push (.ok frame)) := by
      apply Chan.send_eq_some_iff.2
      left
      refine ⟨rfl, h.rxOpen, ?_, rfl⟩
      rw [hrest.queue_nil, h.slots]
      decide
    simp [step, hpc, hsend] at hstep
  | read =>
    rw [hpc] at hat
    have hpoll := hrest.2 .poll (by simp)
    have hfinish := hrest.2 .finish (by simp)
    right
    cases ht : s.stream.task with
    | start => simp [step, hpc, Stream.taskStep, Stream.mayPoll, Stream.step, ht] at hpoll
    | polling cap => simp [step, hpc, Stream.step, ht] at hfinish
    | dropped =>
      rw [ht] at hat
      exact absurd trivial hat.1
    | polled res =>
      rw [ht] at hat
      cases res with
      | pending =>
        refine ⟨rfl, ?_⟩
        cases hw : s.stream.waker.woken with
        | false => rfl
        | true => simp [step, hpc, Stream.taskStep, Stream.mayPoll, Stream.step, ht, hw] at hpoll
      | failed err => exact absurd rfl hat.1
      | panicked =>
        obtain ⟨-, hd, -⟩ := Stream.wakes_reachable h.stream
        exact absurd ht hd.panic
      | ready bs =>
        have hbs : bs.isEmpty = false := by simpa [Stream.Stopped, PollRead.ends] using hat.1
        simp [step, hpc, Stream.taskStep, Stream.mayPoll, Stream.step, ht, hbs] at hpoll

/-- The thread is done, or waits for room in the channel. -/
theorem AtRest.thread (h : Inv s) (hrest : AtRest s) :
    s.stream.reader = .done ∨ s.stream.ch.queue ≠ [] := by
  cases hr : s.stream.reader with
  | done => exact .inl rfl
  | loop =>
    have hstep := hrest.2 .enter (by simp)
    simp [step, Stream.step, hr] at hstep
  | reading =>
    by_cases hu : s.out.pipe.unread = []
    · have hstep := hrest.2 .brokenPipe (by simp)
      simp [step, Stream.step, hr, hu, hrest.1] at hstep
    · have hstep := hrest.2 (.readFile 1) (by simp)
      have hlen : 1 ≤ s.out.pipe.unread.length := List.length_pos_iff.2 hu
      simp [step, Stream.step, hr, hlen] at hstep
  | wake last =>
    have hstep := hrest.2 .wake (by simp)
    simp [step, Stream.step, hr] at hstep
  | left =>
    have hstep := hrest.2 .leave (by simp)
    simp [step, Stream.step, hr] at hstep
  | send msg =>
    right
    intro hq
    obtain ⟨hc, -, -⟩ := Stream.wakes_reachable h.stream
    have hstep := hrest.2 .sendMsg (by simp)
    have hopen : s.stream.ch.rxOpen = true := by
      apply h.open_or_past.resolve_right
      simp [hr, Reader.past]
    cases msg with
    | error err => exact absurd hr (h.noErr.reader err)
    | ok bs =>
      have hsend : s.stream.ch.send (.ok bs) = some (true, s.stream.ch.push (.ok bs)) := by
        apply Chan.send_eq_some_iff.2
        left
        refine ⟨rfl, hopen, ?_, rfl⟩
        rw [hq, hc.slots]
        decide
      simp [step, Stream.step, hr, hsend] at hstep

/-- No wake-up is lost, so `consume_output` is done. -/
theorem AtRest.done (h : Inv s) (hrest : AtRest s) : s.out.pc = .done := by
  obtain ⟨-, -, hw⟩ := Stream.wakes_reachable h.stream
  rcases hrest.consumer h with hdone | ⟨ht, hwoken⟩
  · exact hdone
  · exfalso
    rcases hw.pending ht with hwoken' | ⟨-, ⟨hq, hpast⟩ | ⟨last, hr⟩⟩
    · rw [hwoken] at hwoken'
      cases hwoken'
    · rcases hrest.thread h with hr | hne
      · rw [hr] at hpast
        cases hpast
      · exact hne hq
    · have hstep := hrest.2 .wake (by simp)
      simp [step, Stream.step, hr] at hstep

/-- With both parties done and the tracker's channel empty, nothing more happens. -/
theorem atRest_of_done (hclosed : s.out.pipe.closed = true) (hpc : s.out.pc = .done)
    (hr : s.stream.reader = .done) (hq : s.out.ch.queue = []) : AtRest s := by
  refine ⟨hclosed, ?_⟩
  intro a ha
  cases a with
  | close => exact absurd rfl ha
  | write bs => simp [step, hclosed]
  | readFile n => simp [step, Stream.step, hr]
  | brokenPipe => simp [step, Stream.step, hr]
  | enter | sendMsg | wake | leave => simp [step, Stream.step, hr]
  | poll | finish | send => simp [step, hpc]
  | recv =>
    simp only [step]
    split
    · next res out hrecv =>
      rcases Output.recv_cases hrecv with ⟨res', q, hq', -⟩ | ⟨-, -, hno, -⟩
      · rw [hq] at hq'
        cases hq'
      · cases hno
    · rfl

end Rest

/-! ## Every run ends -/

section Weight

/-- What a message in the channel may still cause, the wake-up that announces it apart. -/
def Msg.weight (msg : Msg) : Nat := 4 * msg.bytes.length + 1

def queueWeight : List Msg → Nat
  | [] => 0
  | msg :: q => Msg.weight msg + queueWeight q

theorem queueWeight_push (q : List Msg) (msg : Msg) :
    queueWeight (q ++ [msg]) = queueWeight q + Msg.weight msg := by
  induction q with
  | nil => simp [queueWeight]
  | cons m q ih =>
    rw [List.cons_append, queueWeight, queueWeight, ih]
    omega

/-- What the thread may still do with a message, and after it. -/
def Reader.weight : Reader → Nat
  | .loop => 8
  | .reading => 7
  | .send msg => if msg.last then 6 else 4 * msg.bytes.length + 13
  | .wake last => if last then 4 else 11
  | .left => 1
  | .done => 0

def Task.weight : Task → Nat
  | .polling _ => 1
  | .polled .pending => 0
  | .dropped => 0
  | _ => 2

/-- A bound for the steps of a stream and of the task that polls it. -/
def streamWeight (st : Stream) : Nat :=
  Reader.weight st.reader + queueWeight st.ch.queue + 4 * (st.buffer.length - st.pos) +
    2 * st.waker.woken.toNat + Task.weight st.task

def sendWeight : ReadPc → Nat
  | .send _ => 2
  | _ => 0

/-- A bound for the steps behind the close of the pipe. -/
def weight (s : Capture) : Nat :=
  11 * s.out.pipe.unread.length + streamWeight s.stream + sendWeight s.out.pc +
    s.out.ch.queue.length

theorem weight_thread {a : Act} {b : Stream.Act} {st st' : Stream} (hb : a.thread = some b)
    (h : Stream.Step st b st') : streamWeight st' < streamWeight st := by
  cases a with
  | write | close | readFile | brokenPipe | poll | finish | send | recv => cases hb
  | enter =>
    cases hb
    cases h with
    | enter hr =>
      simp only [streamWeight, hr, Reader.weight]
      omega
  | sendMsg =>
    cases hb
    cases h with
    | @sent msg hr =>
      simp only [streamWeight, hr, Reader.weight, Chan.push, queueWeight_push, Msg.weight]
      cases hl : msg.last with
      | true =>
        simp only [Msg.bytes_of_last hl, List.length_nil, if_true]
        omega
      | false =>
        simp only [Bool.false_eq_true, if_false]
        omega
    | @unsent msg hr =>
      simp only [streamWeight, hr, Reader.weight]
      cases msg with
      | ok bs =>
        dsimp only
        split <;> omega
      | error err =>
        simp only [Msg.last, if_true]
        omega
  | wake =>
    cases hb
    cases h with
    | @wake last hr =>
      have hwoken : st.waker.wake.woken.toNat ≤ 1 := Bool.toNat_le _
      simp only [streamWeight, hr, Reader.weight]
      cases last with
      | true =>
        simp only [if_true]
        omega
      | false =>
        simp only [Bool.false_eq_true, if_false]
        omega
  | leave =>
    cases hb
    cases h with
    | leave hr =>
      simp only [streamWeight, hr, Reader.weight, Chan.dropTx]
      omega

/-- A poll uses up a wake-up, or the bytes that the poll before it has put. -/
theorem weight_poll {st st' : Stream} {cap : Nat} (h : Stream.Step st (.poll cap) st')
    (hmay : st.mayPoll = true) : streamWeight st' < streamWeight st := by
  cases h with
  | poll =>
    simp only [streamWeight, AtomicWaker.register_woken, AtomicWaker.poll_woken, Bool.toNat_false,
      Task.weight]
    unfold Stream.mayPoll at hmay
    cases ht : st.task with
    | start =>
      dsimp only
      omega
    | polling cap | dropped =>
      rw [ht] at hmay
      cases hmay
    | polled res =>
      rw [ht] at hmay
      cases res with
      | pending =>
        rw [show st.waker.woken = true from hmay, Bool.toNat_true]
        dsimp only
        omega
      | ready bs =>
        dsimp only
        omega
      | failed err | panicked => cases hmay

/-- The bytes that a poll puts pay for their frame and for the next poll. -/
theorem weight_copy (st : Stream) {cap : Nat} (hpos : st.pos ≤ st.buffer.length)
    (ht : st.task = .polling cap) : ∃ bs, (st.copy cap).task = .polled (.ready bs) ∧
      streamWeight (st.copy cap) + 4 * bs.length = streamWeight st + 1 := by
  rw [Stream.copy_eq hpos]
  refine ⟨_, rfl, ?_⟩
  simp only [streamWeight, ht, Task.weight, List.length_take, List.length_drop]
  omega

theorem weight_finish {st st' : Stream} (hc : Stream.Ctl st) (hn : NoErr st)
    (h : Stream.Step st .finish st') :
    (st'.task = .polled .pending ∧ streamWeight st' < streamWeight st) ∨
    ∃ bs, st'.task = .polled (.ready bs) ∧
      streamWeight st' + 4 * bs.length ≤ streamWeight st + 1 := by
  cases h with
  | copy ht =>
    obtain ⟨bs, hbs, hw⟩ := weight_copy st hc.pos ht
    exact .inr ⟨bs, hbs, Nat.le_of_eq hw⟩
  | @fetch cap bs q ht hp hq =>
    obtain ⟨ds, hds, hw⟩ := weight_copy
      { st with ch := { st.ch with queue := q }, buffer := bs, pos := 0 } (Nat.zero_le _) ht
    refine .inr ⟨ds, hds, ?_⟩
    rw [hw]
    simp only [streamWeight, hq, queueWeight, Msg.weight, Msg.bytes]
    omega
  | @fetchErr cap err q ht hp hq =>
    exact absurd (by rw [hq]; exact List.mem_cons_self) (hn.queue err)
  | empty ht =>
    refine .inl ⟨rfl, ?_⟩
    simp only [streamWeight, ht, Task.weight]
    omega
  | closed ht =>
    refine .inr ⟨[], rfl, ?_⟩
    simp only [streamWeight, ht, Task.weight, List.length_nil]
    omega

theorem weight_consume {s : Capture} (h : Inv s) {stream : Stream} (hpc : s.out.pc = .read)
    (hst : s.stream.step .finish = some stream) :
    weight { s with stream }.consume < weight s := by
  obtain ⟨hc, -, -⟩ := Stream.wakes_reachable h.stream
  rcases weight_finish hc h.noErr (.of_step hst) with ⟨ht, hw⟩ | ⟨bs, ht, hw⟩
  · simp only [consume, ht, weight]
    omega
  · cases bs with
    | nil =>
      have hdrop : streamWeight (dropStream stream) + 2 ≤ streamWeight stream := by
        simp only [streamWeight, dropStream, Chan.dropRx, ht, Task.weight, queueWeight]
        omega
      simp only [List.length_nil] at hw
      simp only [consume, ht, weight, Output.finish, Chan.dropTx, sendWeight, hpc]
      omega
    | cons b bs =>
      simp only [List.length_cons] at hw
      simp only [consume, ht, weight, sendWeight, hpc]
      omega

/-- Behind the close of the pipe, every step lowers the weight. -/
theorem weight_step {s s' : Capture} {a : Act} (h : Inv s) (hclosed : s.out.pipe.closed = true)
    (ha : a ≠ .close) (hs : Step s a s') :
    s'.out.pipe.closed = true ∧ weight s' < weight s := by
  cases hs with
  | cut hc | write hc =>
    rw [hclosed] at hc
    cases hc
  | close => exact absurd rfl ha
  | thread hb hst =>
    refine ⟨hclosed, ?_⟩
    have hw := weight_thread hb (.of_step hst)
    simp only [weight]
    omega
  | @readFile n stream hn hlen hst =>
    refine ⟨hclosed, ?_⟩
    cases Stream.Step.of_step hst with
    | bytes hr =>
      simp only [weight, streamWeight, hr, Reader.weight, Msg.bytes, List.length_drop,
        List.length_take]
      split <;> omega
  | brokenPipe hu hc hst =>
    refine ⟨hclosed, ?_⟩
    cases Stream.Step.of_step hst with
    | brokenPipe hr =>
      simp only [weight, streamWeight, hr, Reader.weight, Msg.last, List.isEmpty_nil, if_true]
      omega
  | poll hpc hst =>
    refine ⟨hclosed, ?_⟩
    obtain ⟨hstep, hmay⟩ := Stream.Step.of_taskStep hst
    have hw := weight_poll hstep (hmay _ rfl)
    simp only [weight]
    omega
  | finish hpc hst =>
    rw [(consume_pipe _).2]
    exact ⟨hclosed, weight_consume h hpc hst⟩
  | sent hpc =>
    refine ⟨hclosed, ?_⟩
    simp only [weight, sendWeight, hpc, Chan.push, List.length_append, List.length_singleton]
    omega
  | unsent hpc hc =>
    rw [h.rxOpen] at hc
    cases hc
  | sentErr hpc => exact (h.not_sendErr hpc).elim
  | recv hq =>
    refine ⟨hclosed, ?_⟩
    simp only [weight, hq, List.length_cons]
    omega

/-- Once the pipe is closed, a run is no longer than the weight. -/
theorem length_le_weight {s s' : Capture} {bs : List Act} (h : Inv s)
    (hclosed : s.out.pipe.closed = true) (hrun : run Capture.step s bs = some s')
    (hbs : .close ∉ bs) : bs.length ≤ weight s := by
  have hle := run_length_le (I := fun t => Inv t ∧ t.out.pipe.closed = true)
    (P := fun b => b ≠ Act.close) weight ?_ ⟨h, hclosed⟩ (fun b hb he => hbs (he ▸ hb)) hrun
  · omega
  · rintro t b t' ⟨ht, hct⟩ hb hstep
    have hs := Step.of_step hstep
    obtain ⟨hct', hlt⟩ := weight_step ht hct hb hs
    exact ⟨⟨ht.step hs, hct'⟩, hlt⟩

end Weight

/-- Once the pipe is closed the run can only go on for so long, and when nothing more happens the
frames hold all bytes of all writes, in order, exactly if no byte was written behind a write of no
bytes that ended a `ReadFile`. -/
theorem captured_iff {kind : StreamKind} {s : Capture} {as : List Act}
    (hrun : run Capture.step (start kind) as = some s) (hclosed : s.out.pipe.closed = true) :
    (∃ N, ∀ bs s', run Capture.step s bs = some s' → .close ∉ bs → bs.length ≤ N) ∧
    (AtRest s →
      (s.captured = s.out.pipe.written ↔ ¬Met Capture.step Lossy (start kind) as)) := by
  have h := inv_run hrun
  refine ⟨⟨weight s, fun bs s' hr hbs => length_le_weight h hclosed hr hbs⟩, fun hrest => ?_⟩
  have hat := h.atPc
  unfold AtPc at hat
  rw [hrest.done h] at hat
  obtain ⟨hpast, hread, hcap⟩ := hat
  rw [lossy_run hrun, hcap, hread, ← h.written]
  constructor
  · rintro hall ⟨-, hne⟩
    exact hne (List.self_eq_append_right.1 hall)
  · intro hno
    have hu : s.out.pipe.unread = [] := by
      rcases h.ending (Reader.ending_of_past hpast) with hcut | ⟨-, hu⟩
      · by_contra hne
        exact hno ⟨hcut, hne⟩
      · exact hu
    rw [hu, List.append_nil]

/-- The child writes a byte and closes the pipe. -/
def oneByte : List Act :=
  [.write [1], .enter, .readFile 1, .sendMsg, .wake, .poll, .finish, .send, .recv, .close, .enter,
    .brokenPipe, .sendMsg, .wake, .leave, .poll, .finish]

theorem captured_iff_oneByte :
    ∃ s, run Capture.step (start .stdout) oneByte = some s ∧ s.captured = [1] ∧
      ¬Met Capture.step Lossy (start .stdout) oneByte := by
  have hrun : ∃ s, run Capture.step (start .stdout) oneByte = some s ∧
      s.out.pipe.closed = true ∧ s.out.pc = .done ∧ s.stream.reader = .done ∧
      s.out.ch.queue = [] ∧ s.captured = [1] ∧ s.out.pipe.written = [1] :=
    ⟨_, rfl, rfl, rfl, rfl, rfl, rfl, rfl⟩
  obtain ⟨s, hs, hclosed, hpc, hr, hq, hcap, hwritten⟩ := hrun
  refine ⟨s, hs, hcap, ?_⟩
  apply ((captured_iff hs hclosed).2 (atRest_of_done hclosed hpc hr hq)).1
  rw [hcap, hwritten]

/-- The thread waits in `ReadFile` when the child writes nothing, and then a byte. -/
def emptyWrite : List Act :=
  [.enter, .write [], .write [1], .close, .sendMsg, .wake, .leave, .poll, .finish]

/-- The byte is lost. -/
theorem not_captured_emptyWrite :
    ∃ s, run Capture.step (start .stdout) emptyWrite = some s ∧ AtRest s ∧
      s.out.pipe.written = [1] ∧ s.captured = [] := by
  have hrun : ∃ s, run Capture.step (start .stdout) emptyWrite = some s ∧
      s.out.pipe.closed = true ∧ s.out.pc = .done ∧ s.stream.reader = .done ∧
      s.out.ch.queue = [] ∧ s.out.pipe.written = [1] ∧ s.captured = [] :=
    ⟨_, rfl, rfl, rfl, rfl, rfl, rfl, rfl⟩
  obtain ⟨s, hs, hclosed, hpc, hr, hq, hwritten, hcap⟩ := hrun
  exact ⟨s, hs, atRest_of_done hclosed hpc hr hq, hwritten, hcap⟩

end Capture

end JobRunner.Win
