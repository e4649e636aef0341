import JobRunner.Win.Job
import JobRunner.Verify.Bytes
import JobRunner.Verify.Win.Capture

/-!
# A job on Windows is a job on Unix

The thread, the channel and the buffer of a `WinHandleOutputStream` are nothing but a part of the
pipe: to the reading task the bytes on their way are unread ones (`Reads.unread`). So a job on
Windows makes the runs of a `Pipeline`, and what holds of these holds of it
(`JobRun.matches_unix`), as long as the child does not write no bytes.
-/

namespace JobRunner

open Lts Mpsc

/-- `consume_output` still reads. -/
def ReadPc.reads : ReadPc → Bool
  | .read => true
  | .send _ => true
  | _ => false

/-- A step of an output but a read. -/
def Output.Act.visible : Output.Act → Option Output.Act
  | .read _ => none
  | .readEof => none
  | .readErr _ => none
  | a => some a

/-- A send does not see the pipe. -/
theorem Output.step_send_pipe {o : Output} {pipe : Pipe} :
    ({ o with pipe } : Output).step .send = (o.step .send).map fun out => { out with pipe } := by
  simp only [Output.step]
  split
  · next frame hpc =>
    cases hs : o.ch.send (.ok frame) with
    | none => simp
    | some p => rcases p with ⟨_ | _, ch⟩ <;> simp [Output.finish]
  · next err hpc =>
    cases hs : o.ch.send (.error err) with
    | none => simp
    | some p => simp [Output.finish]
  · rfl

namespace Win

namespace Stream

/-- What the rest of a poll returns, and where the bytes come from. -/
structure PollCases (st st' : Stream) : Prop where
  read : st'.read = st.read
  reader : st'.reader = st.reader
  queue : ∀ m ∈ st'.ch.queue, m ∈ st.ch.queue
  res : (st'.task = .polled .pending ∧ st'.put = st.put) ∨
    (∃ bs c, st'.task = .polled (.ready bs) ∧ st'.put = st.put ++ bs ∧ st.task = .polling c ∧
      bs.length ≤ c) ∨
    ∃ err, st'.task = .polled (.failed err)

theorem PollCases.copy {st : Stream} {cap : Nat} (hpos : st.pos ≤ st.buffer.length)
    (ht : st.task = .polling cap) : PollCases st (st.copy cap) := by
  rw [copy_eq hpos]
  refine ⟨rfl, rfl, fun m hm => hm, .inr (.inl ⟨_, cap, rfl, rfl, ht, ?_⟩)⟩
  rw [List.length_take]
  omega

theorem PollCases.of_step {st st' : Stream} (hc : Ctl st) (h : Step st .finish st') :
    PollCases st st' := by
  cases h with
  | copy ht => exact .copy hc.pos ht
  | @fetch cap bs q ht hp hq =>
    have hcopy : PollCases { st with ch := { st.ch with queue := q }, buffer := bs, pos := 0 } _ :=
      .copy (Nat.zero_le _) ht
    refine ⟨hcopy.read, hcopy.reader, fun m hm => ?_, hcopy.res⟩
    rw [hq]
    exact List.mem_cons_of_mem _ (hcopy.queue m hm)
  | @fetchErr cap err q ht hp hq =>
    refine ⟨rfl, rfl, fun m hm => ?_, .inr (.inr ⟨err, rfl⟩)⟩
    rw [hq]
    exact List.mem_cons_of_mem _ hm
  | empty => exact ⟨rfl, rfl, fun m hm => hm, .inl ⟨rfl, rfl⟩⟩
  | closed ht => exact ⟨rfl, rfl, fun m hm => hm, .inr (.inl ⟨[], _, rfl, by simp, ht, by simp⟩)⟩

/-- A poll returns no bytes only for an empty chunk. -/
theorem eof_of_ready_nil {st st' : Stream} (hc : Ctl st) (hw : Wakes st)
    (h : Step st .finish st') (ht : st'.task = .polled (.ready [])) : .ok [] ∈ st.ch.queue := by
  cases h with
  | @copy cap htask hp =>
    rw [copy_eq hc.pos] at ht
    have hnil := PollRead.ready.inj (Task.polled.inj ht)
    exact absurd (used_of_copied_nil (hc.cap cap htask) hnil) (Nat.not_le.2 hp)
  | @fetch cap bs q htask hp hq =>
    rw [copy_eq (Nat.zero_le _)] at ht
    have hnil := PollRead.ready.inj (Task.polled.inj ht)
    have hbs : bs = [] := by
      apply List.eq_nil_of_length_eq_zero
      exact Nat.le_zero.1 (used_of_copied_nil (hc.cap cap htask) hnil)
    rw [hq, hbs]
    exact List.mem_cons_self
  | fetchErr => cases ht
  | empty => cases ht
  | @closed cap htask hp hq hs =>
    -- the thread has left without a last message
    have hpast : st.reader.past = true := by
      rw [hc.senders] at hs
      cases hr : st.reader <;> simp [hr, Reader.senders] at hs ⊢
      rfl
    rcases hw.last hpast with hstop | ⟨m, hm, -⟩
    · rw [htask] at hstop
      exact hstop.elim
    · rw [hq] at hm
      cases hm

end Stream

/-! ## One output -/

/-- What a step with a stream is to an output without one, a read apart. -/
def Capture.Act.visible : Capture.Act → Option Output.Act
  | .write bs => some (.write bs)
  | .close => some .close
  | .send => some .send
  | _ => none

/-- The output `o` reads the stream `st`, and `o'` reads its pipe itself. -/
structure Reads (st : Stream) (o o' : Output) : Prop where
  stream : Reachable Stream.taskStep Stream.start st
  reading : o.pc = .read → ¬Stream.Stopped st.task
  sending : ∀ frame, o.pc = .send frame → ∃ bs, bs ≠ [] ∧ st.task = .polled (.ready bs)
  cap : ∀ c, st.task = .polling c → c = 1024
  eof : .ok [] ∈ st.ch.queue ∨ st.reader = .send (.ok []) →
    o.pipe.closed = true ∧ o.pipe.unread = []
  same : o' = { o with pipe := { o.pipe with unread := o'.pipe.unread } }
  unread : o.pc.reads = true → o'.pipe.unread = st.rest ++ o.pipe.unread

namespace Reads

variable {st st' : Stream} {o o' : Output}

theorem start (k : StreamKind) : Reads Stream.start (Output.start k) (Output.start k) where
  stream := .refl _
  reading := fun _ => id
  sending := nofun
  cap := nofun
  eof := by
    rintro (hm | hr)
    · cases hm
    · cases hr
  same := rfl
  unread := fun _ => rfl

/-- A task that still reads has its stream, and of the bytes read those that are not put are on
their way. -/
theorem rest_of_reads {pc : ReadPc} (hst : Reachable Stream.taskStep Stream.start st)
    (hread : pc = .read → ¬Stream.Stopped st.task)
    (hsend : ∀ frame, pc = .send frame → ∃ bs, bs ≠ [] ∧ st.task = .polled (.ready bs))
    (hpc : pc.reads = true) : st.read = st.put ++ st.rest := by
  obtain ⟨hc, hd, -⟩ := Stream.wakes_reachable hst
  apply hd.bytes
  apply hc.isOpen
  intro ht
  cases pc with
  | read =>
    have hno := hread rfl
    rw [ht] at hno
    exact hno trivial
  | send frame =>
    obtain ⟨bs, -, he⟩ := hsend frame rfl
    cases ht.symm.trans he
  | sendErr err | done => cases hpc

theorem rest_eq (h : Reads st o o') (hpc : o.pc.reads = true) : st.read = st.put ++ st.rest :=
  rest_of_reads h.stream h.reading h.sending hpc

/-- The stream moves on, and the reading task does not. -/
theorem stream_step (h : Reads st o o') (pipe : Pipe) {a : Stream.Act}
    (hs : st.taskStep a = some st') (hput : st'.put = st.put)
    (hread : st'.read ++ pipe.unread = st.read ++ o.pipe.unread)
    (hwritten : pipe.written = o.pipe.written) (hclosed : pipe.closed = o.pipe.closed)
    (htask : o.pc = .read → ¬Stream.Stopped st'.task)
    (hsame : ∀ frame, o.pc = .send frame → st'.task = st.task)
    (hcap : ∀ c, st'.task = .polling c → c = 1024)
    (heof : .ok [] ∈ st'.ch.queue ∨ st'.reader = .send (.ok []) →
      pipe.closed = true ∧ pipe.unread = []) : Reads st' { o with pipe } o' := by
  have hreach := h.stream.tail hs
  have hsend : ∀ frame, o.pc = .send frame → ∃ bs, bs ≠ [] ∧ st'.task = .polled (.ready bs) := by
    intro frame hp
    rw [hsame frame hp]
    exact h.sending frame hp
  refine ⟨hreach, htask, hsend, hcap, heof, ?_, fun hpc => ?_⟩
  · rw [h.same]
    simp [hwritten, hclosed]
  · have hrest := h.rest_eq hpc
    have hrest' := rest_of_reads hreach htask hsend hpc
    rw [hrest, hrest', hput, List.append_assoc, List.append_assoc] at hread
    rw [h.unread hpc]
    exact (List.append_cancel_left hread).symm

/-- The reading task drops the stream. -/
theorem dropped (h : Reads st o o') (hst : Reachable Stream.taskStep Stream.start st')
    (ht : ∃ res, st'.task = .polled res) (hr : st'.reader = st.reader)
    {pc : ReadPc} {ch : Chan (Except TrackerError Frame)} (hpc : pc.reads = false) :
    Reads (Capture.dropStream st') { o with pc, ch } { o' with pc, ch } where
  stream := by
    obtain ⟨res, ht⟩ := ht
    refine hst.tail (a := .drop) ?_
    simp only [Stream.taskStep, Stream.step, ht]
    rfl
  reading := by
    intro hp
    have hp : pc = .read := hp
    rw [hp] at hpc
    cases hpc
  sending := by
    intro frame hp
    have hp : pc = .send frame := hp
    rw [hp] at hpc
    cases hpc
  cap := nofun
  eof := by
    rintro (hm | hread)
    · cases hm
    · exact h.eof (.inr (hr.symm.trans hread))
  same := by
    rw [h.same]
  unread := by
    intro hp
    have hp : pc.reads = true := hp
    rw [hpc] at hp
    cases hp

theorem pc_eq (h : Reads st o o') : o'.pc = o.pc := by
  rw [h.same]

theorem ch_eq (h : Reads st o o') : o'.ch = o.ch := by
  rw [h.same]

theorem closed_eq (h : Reads st o o') : o'.pipe.closed = o.pipe.closed := by
  rw [h.same]

theorem kind_eq (h : Reads st o o') : o'.kind = o.kind := by
  rw [h.same]

theorem eof_of_poll (h : Reads st o o') (hc : Stream.PollCases st st')
    (he : .ok [] ∈ st'.ch.queue ∨ st'.reader = .send (.ok [])) :
    o.pipe.closed = true ∧ o.pipe.unread = [] := by
  rcases he with hm | hr
  · exact h.eof (.inl (hc.queue _ hm))
  · exact h.eof (.inr (hc.reader ▸ hr))

/-- A poll that is pending. -/
theorem finish_pending (h : Reads st o o') (hpc : o.pc = .read) (hst : st.step .finish = some st')
    (hc : Stream.PollCases st st') (ht : st'.task = .polled .pending) (hput : st'.put = st.put) :
    Reads st' o o' := by
  refine h.stream_step o.pipe (a := .finish) hst hput (by rw [hc.read]) rfl rfl ?_ ?_ ?_
    (h.eof_of_poll hc)
  · rw [ht]
    exact fun _ hno => Bool.false_ne_true hno
  · intro frame hno
    cases hpc.symm.trans hno
  · intro c hno
    cases ht.symm.trans hno

/-- A poll that brings no bytes is the end of the pipe. -/
theorem finish_eof (h : Reads st o o') (hpc : o.pc = .read) (hst : st.step .finish = some st')
    (hc : Stream.PollCases st st') (ht : st'.task = .polled (.ready []))
    (hput : st'.put = st.put) :
    o'.step .readEof = some o'.finish ∧ Reads (Capture.dropStream st') o.finish o'.finish := by
  have hreach : Reachable Stream.taskStep Stream.start st' := h.stream.tail (a := .finish) hst
  have hreads : o.pc.reads = true := by rw [hpc]; rfl
  obtain ⟨hctl, -, hw⟩ := Stream.wakes_reachable h.stream
  obtain ⟨-, hd', -⟩ := Stream.wakes_reachable hreach
  have hsent := Stream.eof_of_ready_nil hctl hw (Stream.Step.of_step hst) ht
  obtain ⟨hclosed, hunread⟩ := h.eof (.inl hsent)
  have hnone : st.rest = [] := by
    have hall : st'.put = st'.read := (hd'.ended _ ht rfl).2
    rw [hput, hc.read, h.rest_eq hreads] at hall
    exact List.self_eq_append_right.1 hall
  have hempty : o'.pipe.unread = [] := by
    rw [h.unread hreads, hnone, hunread]
    rfl
  constructor
  · simp only [Output.step, h.pc_eq, hpc, hempty, h.closed_eq, hclosed, and_self, if_true]
  · rw [Output.finish, Output.finish, h.ch_eq]
    exact h.dropped hreach ⟨_, ht⟩ hc.reader rfl

/-- A poll that brings bytes is a read of as many of the pipe. -/
theorem finish_bytes (h : Reads st o o') (hpc : o.pc = .read) (hst : st.step .finish = some st')
    (hc : Stream.PollCases st st') {bs : List UInt8} (ht : st'.task = .polled (.ready bs))
    (hput : st'.put = st.put ++ bs) (hne : bs ≠ []) (hlen : bs.length ≤ 1024) :
    ∃ o₁, o'.step (.read bs.length) = some o₁ ∧
      Reads st' { o with pc := .send { kind := o.kind, bs } } o₁ := by
  have hreach : Reachable Stream.taskStep Stream.start st' := h.stream.tail (a := .finish) hst
  have hreads : o.pc.reads = true := by rw [hpc]; rfl
  obtain ⟨hctl', hd', -⟩ := Stream.wakes_reachable hreach
  have hbytes : st.rest = bs ++ st'.rest := by
    have heq := hd'.bytes (hctl'.isOpen (by simp [ht]))
    rw [hc.read, hput, h.rest_eq hreads, List.append_assoc] at heq
    exact List.append_cancel_left heq
  have hunread : o'.pipe.unread = bs ++ (st'.rest ++ o.pipe.unread) := by
    rw [h.unread hreads, hbytes, List.append_assoc]
  have hguard : o'.pc = .read ∧ 1 ≤ bs.length ∧ bs.length ≤ 1024 ∧
      bs.length ≤ o'.pipe.unread.length := by
    refine ⟨h.pc_eq.trans hpc, List.length_pos_iff.2 hne, hlen, ?_⟩
    rw [hunread, List.length_append]
    exact Nat.le_add_right ..
  have hread : o'.step (.read bs.length) = some { o' with
      pipe := { o'.pipe with unread := st'.rest ++ o.pipe.unread }
      pc := .send { kind := o.kind, bs } } := by
    simp only [Output.step]
    rw [if_pos hguard, hunread, List.drop_left, List.take_left, h.kind_eq]
  refine ⟨_, hread, hreach, ?_, ?_, ?_, h.eof_of_poll hc, ?_, ?_⟩
  · intro hno
    cases hno
  · exact fun _ _ => ⟨bs, hne, ht⟩
  · intro c hno
    cases ht.symm.trans hno
  · rw [h.same]
  · exact fun _ => rfl

/-- A failed poll is a read error. -/
theorem finish_failed (h : Reads st o o') (hpc : o.pc = .read) (hst : st.step .finish = some st')
    (hc : Stream.PollCases st st') {err : IoError} (ht : st'.task = .polled (.failed err)) :
    ∃ o₁, o'.step (.readErr err) = some o₁ ∧
      Reads (Capture.dropStream st') { o with pc := .sendErr (.readOutput o.kind err) } o₁ := by
  have hread : o'.step (.readErr err) =
      some { o' with pc := .sendErr (.readOutput o.kind err), ch := o.ch } := by
    simp only [Output.step, h.pc_eq, hpc, h.kind_eq, if_true, ← h.ch_eq]
  exact ⟨_, hread, h.dropped (h.stream.tail (a := .finish) hst) ⟨_, ht⟩ hc.reader rfl⟩

/-- The rest of a poll, with what the task makes of it. -/
theorem finish (h : Reads st o o') (hpc : o.pc = .read) (hst : st.step .finish = some st') :
    ∃ bs o₁, run Output.step o' bs = some o₁ ∧ bs.filterMap Output.Act.visible = [] ∧
      Reads (Capture.consume ⟨o, st', false, []⟩).stream
        (Capture.consume ⟨o, st', false, []⟩).out o₁ := by
  obtain ⟨hctl, -, -⟩ := Stream.wakes_reachable h.stream
  have hc := Stream.PollCases.of_step hctl (Stream.Step.of_step hst)
  rcases hc.res with ⟨ht, hput⟩ | ⟨bs, c, ht, hput, hcap, hlen⟩ | ⟨err, ht⟩
  · simp only [Capture.consume, ht]
    exact ⟨[], o', rfl, rfl, h.finish_pending hpc hst hc ht hput⟩
  · rw [h.cap c hcap] at hlen
    cases bs with
    | nil =>
      obtain ⟨hread, hreads⟩ := h.finish_eof hpc hst hc ht (by rw [hput, List.append_nil])
      simp only [Capture.consume, ht]
      exact ⟨[.readEof], _, run_single.2 hread, rfl, hreads⟩
    | cons b bs =>
      obtain ⟨o₁, hread, hreads⟩ := h.finish_bytes hpc hst hc ht hput (List.cons_ne_nil b bs) hlen
      simp only [Capture.consume, ht]
      exact ⟨[.read (b :: bs).length], o₁, run_single.2 hread, rfl, hreads⟩
  · obtain ⟨o₁, hread, hreads⟩ := h.finish_failed hpc hst hc ht
    simp only [Capture.consume, ht]
    exact ⟨[.readErr err], o₁, run_single.2 hread, rfl, hreads⟩

/-- The steps of the thread outside `ReadFile` are nothing to the task. -/
theorem thread (h : Reads st o o') {a : Capture.Act} {b : Stream.Act} (hb : a.thread = some b)
    (hst : st.step b = some st') : Reads st' o o' := by
  have hstep := Stream.Step.of_step hst
  have hthread := Capture.ThreadStep.of_step hb hstep
  have htask : st.taskStep b = some st' := by
    cases a <;> cases hb <;> exact hst
  have heof : .ok [] ∈ st'.ch.queue ∨ st'.reader = .send (.ok []) →
      .ok [] ∈ st.ch.queue ∨ st.reader = .send (.ok []) := by
    cases a with
    | write | close | readFile | brokenPipe | poll | finish | send | recv => cases hb
    | enter =>
      cases hb
      cases hstep with
      | enter => exact Or.imp_right nofun
    | sendMsg =>
      cases hb
      cases hstep with
      | @sent msg hr =>
        rintro (hm | hno)
        · rcases List.mem_append.1 hm with hm | hm
          · exact .inl hm
          · rw [List.mem_singleton.1 hm]
            exact .inr hr
        · cases hno
      | @unsent msg =>
        rintro (hm | hno)
        · exact .inl hm
        · cases msg <;> cases hno
    | wake =>
      cases hb
      cases hstep with
      | @wake last =>
        rintro (hm | hno)
        · exact .inl hm
        · cases last <;> cases hno
    | leave =>
      cases hb
      cases hstep with
      | leave => exact Or.imp_right nofun
  refine h.stream_step o.pipe htask hthread.put (by rw [hthread.read]) rfl rfl ?_ ?_ ?_ ?_
  · rw [hthread.task]
    exact h.reading
  · exact fun _ _ => hthread.task
  · rw [hthread.task]
    exact h.cap
  · exact fun he => h.eof (heof he)

/-- `ReadFile` returns, and the pipe has lost what it returns. -/
theorem readFile (h : Reads st o o') (bs : List UInt8) (pipe : Pipe) {res : ReadFile}
    (hst : st.step (.readFile res) = some st') (hput : st'.put = st.put)
    (hread : st'.read = st.read ++ bs) (hpipe : o.pipe.unread = bs ++ pipe.unread)
    (hwritten : pipe.written = o.pipe.written) (hclosed : pipe.closed = o.pipe.closed)
    (htask : st'.task = st.task)
    (heof : .ok [] ∈ st'.ch.queue ∨ st'.reader = .send (.ok []) →
      pipe.closed = true ∧ pipe.unread = []) : Reads st' { o with pipe } o' := by
  refine h.stream_step pipe (a := .readFile res) hst hput ?_ hwritten hclosed ?_ ?_ ?_ heof
  · rw [hread, hpipe, List.append_assoc]
  · rw [htask]
    exact h.reading
  · exact fun _ _ => htask
  · rw [htask]
    exact h.cap

/-- The send of a frame or of an error takes the same course, as the channel is the same. -/
theorem send (h : Reads st o o') {c : Capture} (hs : Capture.Step ⟨o, st, false, []⟩ .send c) :
    ∃ o₁, o'.step .send = some o₁ ∧ Reads c.stream c.out o₁ := by
  cases hs with
  | thread hb => cases hb
  | @sent frame hpc ho hcap =>
    have hpc : o.pc = .send frame := hpc
    obtain ⟨bs, hne, ht⟩ := h.sending frame hpc
    have hsend : o'.step .send = some { o' with pc := .read, ch := o.ch.push (.ok frame) } := by
      have hch : o.ch.send (.ok frame) = some (true, o.ch.push (.ok frame)) :=
        Chan.send_eq_some_iff.2 (.inl ⟨rfl, ho, hcap, rfl⟩)
      simp only [Output.step, h.pc_eq, hpc, h.ch_eq, hch]
    refine ⟨_, hsend, h.stream, fun _ => ?_, fun _ hno => ?_, h.cap, h.eof, ?_, ?_⟩
    · simpa [ht, Stream.Stopped, PollRead.ends] using hne
    · cases hno
    · rw [h.same]
    · exact fun _ => h.unread (by rw [hpc]; rfl)
  | @unsent frame hpc hclosed =>
    have hpc : o.pc = .send frame := hpc
    obtain ⟨bs, -, ht⟩ := h.sending frame hpc
    have hsend : o'.step .send = some { o' with pc := .done, ch := o.ch.dropTx } := by
      have hch : o.ch.send (.ok frame) = some (false, o.ch) :=
        Chan.send_eq_some_iff.2 (.inr ⟨rfl, hclosed, rfl⟩)
      simp only [Output.step, h.pc_eq, hpc, h.ch_eq, hch, Output.finish]
    exact ⟨_, hsend, h.dropped h.stream ⟨_, ht⟩ rfl rfl⟩
  | @sentErr err out hpc hout =>
    have hpc : o.pc = .sendErr err := hpc
    have hsend : o'.step .send = some { out with pipe := o'.pipe } := by
      rw [h.same, Output.step_send_pipe, hout]
      rfl
    have hout : ∃ ch, out = { o with pc := .done, ch } := by
      rcases Output.step_send hout with ⟨frame, hno, -⟩ | ⟨_, _, _, he⟩ | ⟨_, _, he⟩
      · cases hpc.symm.trans hno
      · exact ⟨_, he⟩
      · exact ⟨_, he⟩
    obtain ⟨ch, rfl⟩ := hout
    refine ⟨_, hsend, ?_⟩
    rw [h.same]
    refine ⟨h.stream, fun hno => ?_, fun _ hno => ?_, h.cap, h.eof, rfl, fun hno => ?_⟩
    · cases hno
    · cases hno
    · cases hno

theorem step (h : Reads st o o') {a : Capture.Act} {c : Capture}
    (hs : Capture.Step ⟨o, st, false, []⟩ a c) (hrecv : a ≠ .recv) (hw : a ≠ .write []) :
    ∃ bs o₁, run Output.step o' bs = some o₁ ∧
      bs.filterMap Output.Act.visible = a.visible.toList ∧ Reads c.stream c.out o₁ := by
  by_cases hsend : a = .send
  · subst hsend
    obtain ⟨o₁, hstep, hreads⟩ := h.send hs
    exact ⟨[.send], o₁, run_single.2 hstep, rfl, hreads⟩
  cases hs with
  | cut => exact absurd rfl hw
  | recv => exact absurd rfl hrecv
  | @write bs hc =>
    have hc : o.pipe.closed = false := hc
    have hwrite : o'.step (.write bs) = some { o' with pipe := { o'.pipe with
        written := o'.pipe.written ++ bs, unread := o'.pipe.unread ++ bs } } := by
      simp only [Output.step, h.closed_eq, hc, Bool.false_eq_true, if_false]
    refine ⟨[.write bs], _, run_single.2 hwrite, rfl, ?_⟩
    refine ⟨h.stream, h.reading, h.sending, h.cap, ?_, ?_, ?_⟩
    · intro he
      have hopen := (h.eof he).1
      rw [hc] at hopen
      cases hopen
    · rw [h.same]
    · intro hpc
      have hunread := h.unread hpc
      simp only [hunread, List.append_assoc]
  | close =>
    refine ⟨[.close], _, run_single.2 rfl, rfl, ?_⟩
    refine ⟨h.stream, h.reading, h.sending, h.cap, ?_, ?_, h.unread⟩
    · exact fun he => ⟨rfl, (h.eof he).2⟩
    · rw [h.same]
  | thread hb hst =>
    have hvis : a.visible = none := by cases a <;> cases hb <;> rfl
    exact ⟨[], o', rfl, by rw [hvis]; rfl, h.thread hb hst⟩
  | @readFile n stream hn hlen hst =>
    refine ⟨[], o', rfl, rfl, ?_⟩
    have hlen : n ≤ o.pipe.unread.length := hlen
    have hpipe : o.pipe.unread = o.pipe.unread.take n ++ o.pipe.unread.drop n :=
      (List.take_append_drop ..).symm
    cases Stream.Step.of_step hst with
    | bytes =>
      refine h.readFile _ { o.pipe with unread := o.pipe.unread.drop n } hst rfl rfl hpipe rfl rfl
        rfl ?_
      -- the pipe had bytes, so no message has been its end
      have hsome : ¬(.ok [] ∈ st.ch.queue ∨ st.reader = .send (.ok [])) := by
        intro he
        rw [(h.eof he).2] at hlen
        exact absurd (Nat.le_trans hn hlen) (by simp)
      rintro (hm | hr)
      · exact absurd (.inl hm) hsome
      · have hnil := congrArg List.length (Except.ok.inj (Reader.send.inj hr))
        rw [List.length_take, List.length_nil] at hnil
        omega
  | brokenPipe hu hc hst =>
    refine ⟨[], o', rfl, rfl, ?_⟩
    cases Stream.Step.of_step hst with
    | brokenPipe =>
      exact h.readFile [] o.pipe hst rfl (List.append_nil _).symm rfl rfl rfl rfl
        fun _ => ⟨hc, hu⟩
  | poll hpc hst =>
    refine ⟨[], o', rfl, rfl, ?_⟩
    have hpc : o.pc = .read := hpc
    cases (Stream.Step.of_taskStep hst).1 with
    | poll =>
      refine h.stream_step o.pipe hst rfl rfl rfl rfl (fun _ => id) ?_ ?_ h.eof
      · intro frame hno
        cases hpc.symm.trans hno
      · intro c he
        exact (Task.polling.inj he).symm
  | finish hpc hst => exact h.finish hpc hst
  | sent | unsent | sentErr => exact absurd rfl hsend

/-- The tracker's side sees the channel alone. -/
theorem setCh (h : Reads st o o') (ch : Chan (Except TrackerError Frame)) :
    Reads st { o with ch } { o' with ch } where
  stream := h.stream
  reading := h.reading
  sending := h.sending
  cap := h.cap
  eof := h.eof
  same := by rw [h.same]
  unread := h.unread

theorem dropRx (h : Reads st o o') : Reads st o.dropRx o'.dropRx := by
  rw [Output.dropRx, Output.dropRx, h.ch_eq]
  exact h.setCh o.ch.dropRx

theorem recv (h : Reads st o o') {ev : Option (Except TrackerError Frame)} {o₁ : Output}
    (hr : o.recv = some (ev, o₁)) : ∃ o₁', o'.recv = some (ev, o₁') ∧ Reads st o₁ o₁' := by
  simp only [Output.recv] at hr
  cases hch : o.ch.recv with
  | none => simp [hch] at hr
  | some res =>
    obtain ⟨ev', ch⟩ := res
    rw [hch] at hr
    cases hr
    exact ⟨{ o' with ch }, by simp only [Output.recv, h.ch_eq, hch], h.setCh ch⟩

/-- A failed `ReadFile`. -/
theorem failed (h : Reads st o o') {err : String}
    (hst : st.step (.readFile (.failed err)) = some st') : Reads st' o o' := by
  cases Stream.Step.of_step hst with
  | failed =>
    refine h.readFile [] o.pipe hst rfl (List.append_nil _).symm rfl rfl rfl rfl ?_
    rintro (hm | hr)
    · exact h.eof (.inl hm)
    · cases hr

end Reads

end Win

/-! ## The rest of the job -/

namespace Pipeline

/-- A step but a read of a pipe. -/
def Act.visible : Act → Option Act
  | .output k a => a.visible.map (.output k)
  | a => some a

/-- A `kill` call sees the channel and the answers of `wait`. -/
theorem stepKill_setOutput (s : Pipeline) (c : Nat) (b : KillAct) (output : StreamKind → Output) :
    stepKill { s with output } c b = (s.stepKill c b).map fun s' => { s' with output } := by
  cases b with
  | call user => cases hc : s.kills c <;> simp [stepKill, hc]
  | timeout => cases hc : s.kills c <;> simp [stepKill, hc]
  | drop => cases hc : s.kills c <;> simp [stepKill, hc]
  | recv =>
    have hone : oneshot { s with output } c = s.oneshot c := rfl
    cases hc : s.kills c <;> cases ho : s.oneshot c <;> simp [stepKill, hc, hone, ho]
  | send =>
    cases hc : s.kills c with
    | sending user =>
      cases hs : s.killCh.send { user, tx := c } with
      | none => simp [stepKill, hc, hs]
      | some res =>
        obtain ⟨_ | _, ch⟩ := res
        · simp [stepKill, hc, hs]
        · simp [stepKill, hc, hs]
    | absent | waiting | done | dropped => simp [stepKill, hc]

/-- Besides the reading tasks, only the receives of `wait` and its end see the outputs. -/
theorem step_setOutput {s s' : Pipeline} {a : Act} (h : s.step a = some s')
    (hout : ∀ k b, a ≠ .output k b) (hrecv : ∀ k, a ≠ .recvOutput k) (hset : a ≠ .setRes)
    (output : StreamKind → Output) :
    s'.output = s.output ∧ step { s with output } a = some { s' with output } := by
  cases a with
  | output k b => exact absurd rfl (hout k b)
  | recvOutput k => exact absurd rfl (hrecv k)
  | setRes => exact absurd rfl hset
  | send =>
    obtain ⟨ev, ok, ch, trk, hev, hch, ht, rfl⟩ := step_send h
    refine ⟨rfl, ?_⟩
    simp only [step, hev, hch, ht, Option.bind_eq_bind, Option.bind_some]
  | recvKill =>
    obtain ⟨req, ch, trk, hch, ht, rfl⟩ := step_recvKill h
    refine ⟨rfl, ?_⟩
    simp only [step, hch, ht, Option.bind_eq_bind, Option.bind_some]
  | killRes res now =>
    obtain ⟨req, trk, hpc, ht, rfl⟩ := step_killRes h
    refine ⟨rfl, ?_⟩
    simp only [step, hpc, ht, Option.bind_eq_bind, Option.bind_some]
  | exit status now =>
    obtain ⟨trk, ht, rfl⟩ := step_exit h
    refine ⟨rfl, ?_⟩
    simp only [step, ht, Option.bind_eq_bind, Option.bind_some]
  | bcast b =>
    obtain ⟨bc, hb, rfl⟩ := step_bcast h
    refine ⟨rfl, ?_⟩
    simp only [step, hb, Option.bind_eq_bind, Option.bind_some]
  | kill c b =>
    have h : s.stepKill c b = some s' := h
    have hmap := stepKill_setOutput s c b output
    rw [h, Option.map_some] at hmap
    obtain ⟨call, ch, rfl, -⟩ := step_kill h
    exact ⟨rfl, hmap⟩

end Pipeline

namespace Win

namespace JobRun

/-- What a step is to a job on Unix, the reads apart. -/
def Act.visible : Act → Option Pipeline.Act
  | .pl a => some a
  | .output k a => a.visible.map (.output k)
  | .failed _ _ => none

/-- The job `p` on Unix does what the job `s` on Windows does. -/
structure Follows (s : JobRun) (p : Pipeline) : Prop where
  rest : p = { s.pl with output := p.output }
  reads : ∀ k, Reads (s.streams k) (s.pl.output k) (p.output k)

namespace Follows

variable {s s' : JobRun} {p : Pipeline}

theorem start (job : Job) : Follows (JobRun.start job) (Pipeline.start job) where
  rest := rfl
  reads := Reads.start

theorem update (h : Follows s p) {k : StreamKind} {st : Stream} {o o' : Output}
    (hreads : Reads st o o') (k' : StreamKind) :
    Reads (Function.update s.streams k st k') (Function.update s.pl.output k o k')
      (Function.update p.output k o' k') := by
  by_cases hk : k' = k
  · subst hk
    simpa using hreads
  · simpa [hk] using h.reads k'

theorem pl (h : Follows s p) {a : Pipeline.Act} {q : Pipeline} (hs : s.pl.step a = some q)
    (hout : ∀ k b, a ≠ .output k b) : ∃ p', p.step a = some p' ∧ Follows { s with pl := q } p' := by
  by_cases hset : a = .setRes
  · subst hset
    obtain ⟨trk, ht, rfl⟩ := Pipeline.step_setRes hs
    refine ⟨p.release trk, ?_, ?_, fun k => (h.reads k).dropRx⟩
    · rw [h.rest]
      simp only [Pipeline.step, ht, Option.bind_eq_bind, Option.bind_some]
    · rw [h.rest]
      rfl
  by_cases hrecv : ∃ k, a = .recvOutput k
  · obtain ⟨k, rfl⟩ := hrecv
    obtain ⟨ev, o, trk, ho, ht, rfl⟩ := Pipeline.step_recvOutput hs
    obtain ⟨o', ho', hreads⟩ := (h.reads k).recv ho
    have hupdate := h.update (k := k) hreads
    rw [Function.update_eq_self] at hupdate
    refine ⟨{ p with output := Function.update p.output k o', trk }, ?_, ?_, hupdate⟩
    · have htrk : p.trk.step (.output k ev) = some trk := by
        rw [h.rest]
        exact ht
      simp only [Pipeline.step, ho', htrk, Option.bind_eq_bind, Option.bind_some]
    · rw [h.rest]
  · have hrecv : ∀ k, a ≠ .recvOutput k := not_exists.1 hrecv
    obtain ⟨hkeep, hstep⟩ := Pipeline.step_setOutput hs hout hrecv hset p.output
    refine ⟨{ q with output := p.output }, ?_, rfl, ?_⟩
    · rw [h.rest]
      exact hstep
    · intro k
      change Reads (s.streams k) (q.output k) (p.output k)
      rw [hkeep]
      exact h.reads k

/-- A run of one output is one of the job. -/
theorem output (h : Follows s p) {k : StreamKind} {st : Stream} {o o' : Output}
    {bs : List Output.Act} (hr : run Output.step (p.output k) bs = some o')
    (hreads : Reads st o o') : ∃ p', run Pipeline.step p (bs.map (.output k)) = some p' ∧
      Follows { s with
        pl := { s.pl with output := Function.update s.pl.output k o }
        streams := Function.update s.streams k st } p' := by
  have hstep : ∀ t b t', True → Output.step t b = some t' →
      Pipeline.step { p with output := Function.update p.output k t } (.output k b) =
        some { p with output := Function.update p.output k t' } := by
    intro t b t' _ hb
    simp [Pipeline.step, hb]
  have hrun := run_embed (fun o => { p with output := Function.update p.output k o })
    (Pipeline.Act.output k) hstep (fun _ _ => trivial) hr
  rw [Function.update_eq_self] at hrun
  refine ⟨_, hrun, ?_, h.update hreads⟩
  rw [h.rest]

end Follows

theorem step_pl {s s' : JobRun} {a : Pipeline.Act} (h : s.step (.pl a) = some s') :
    (∀ k b, a ≠ .output k b) ∧ ∃ q, s.pl.step a = some q ∧ s' = { s with pl := q } := by
  cases a with
  | output k b => cases h
  | recvOutput | send | recvKill | killRes | exit | setRes | kill | bcast =>
    simp only [step, Option.map_eq_some_iff] at h
    obtain ⟨q, hq, rfl⟩ := h
    exact ⟨nofun, q, hq, rfl⟩

theorem step_output {s s' : JobRun} {k : StreamKind} {a : Capture.Act}
    (h : s.step (.output k a) = some s') :
    a ≠ .recv ∧ ∃ c, (s.capture k).step a = some c ∧ s' = s.setCapture k c := by
  cases a with
  | recv => cases h
  | write | close | enter | readFile | brokenPipe | sendMsg | wake | leave | poll | finish | send =>
    simp only [step, Option.map_eq_some_iff] at h
    obtain ⟨c, hc, rfl⟩ := h
    exact ⟨nofun, c, hc, rfl⟩

theorem Follows.step {s s' : JobRun} {p : Pipeline} (h : Follows s p) {a : Act}
    (hs : s.step a = some s') (hw : ∀ k, a ≠ .output k (.write [])) :
    ∃ bs p', run Pipeline.step p bs = some p' ∧
      bs.filterMap Pipeline.Act.visible = a.visible.toList ∧ Follows s' p' := by
  cases a with
  | pl a =>
    obtain ⟨hout, q, hq, rfl⟩ := step_pl hs
    obtain ⟨p', hp, hf⟩ := h.pl hq hout
    have hvis : a.visible = some a := by
      cases a with
      | output k b => exact absurd rfl (hout k b)
      | recvOutput | send | recvKill | killRes | exit | setRes | kill | bcast => rfl
    exact ⟨[a], p', run_single.2 hp, by simp [hvis, Act.visible], hf⟩
  | output k a =>
    obtain ⟨hrecv, c, hc, rfl⟩ := step_output hs
    have hne : a ≠ .write [] := by
      rintro rfl
      exact hw k rfl
    obtain ⟨bs, o, hr, hvis, hreads⟩ := (h.reads k).step (Capture.Step.of_step hc) hrecv hne
    obtain ⟨p', hp, hf⟩ := h.output hr hreads
    refine ⟨bs.map (.output k), p', hp, ?_, hf⟩
    calc (bs.map (.output k)).filterMap Pipeline.Act.visible
      _ = (bs.filterMap Output.Act.visible).map (.output k) := by
        rw [List.filterMap_map, List.map_filterMap]
        rfl
      _ = (Act.output k a).visible.toList := by
        rw [hvis, Act.visible, Option.toList_map]
  | failed k err =>
    simp only [JobRun.step, Option.map_eq_some_iff] at hs
    obtain ⟨st, hst, rfl⟩ := hs
    have hnone : run Output.step (p.output k) [] = some (p.output k) := rfl
    obtain ⟨p', hp, hf⟩ := h.output hnone ((h.reads k).failed hst)
    rw [Function.update_eq_self] at hf
    exact ⟨[], p', hp, rfl, hf⟩

theorem follows_run {job : Job} {as : List Act} {s : JobRun}
    (hr : run step (start job) as = some s) (hw : ∀ a ∈ as, ∀ k, a ≠ .output k (.write [])) :
    ∃ bs p, run Pipeline.step (Pipeline.start job) bs = some p ∧
      bs.filterMap Pipeline.Act.visible = as.filterMap Act.visible ∧ Follows s p :=
  run_simulate (R := Follows) Act.visible Pipeline.Act.visible
    (fun _ _ _ _ hf hne hs => hf.step hs hne) (Follows.start job) hw hr

/-- A job on Windows whose child never writes no bytes is a job on Unix: what the child writes and
closes, what the reading tasks send, and all that the rest of the job does, is a run of a
`Pipeline`. That run ends where this one does, but for the bytes that the thread and the stream
still hold, which are unread there. -/
theorem matches_unix {job : Job} {as : List Act} {s : JobRun}
    (hr : run step (start job) as = some s) (hw : ∀ a ∈ as, ∀ k, a ≠ .output k (.write [])) :
    ∃ bs p, run Pipeline.step (Pipeline.start job) bs = some p ∧
      bs.filterMap Pipeline.Act.visible = as.filterMap Act.visible ∧
      p = { s.pl with output := p.output } ∧
      ∀ k, p.output k = { s.pl.output k with
          pipe := { (s.pl.output k).pipe with unread := (p.output k).pipe.unread } } ∧
        ((s.pl.output k).pc.reads = true →
          (p.output k).pipe.unread = (s.streams k).rest ++ (s.pl.output k).pipe.unread) := by
  obtain ⟨bs, p, hrun, hvis, hf⟩ := follows_run hr hw
  exact ⟨bs, p, hrun, hvis, hf.rest, fun k => ⟨(hf.reads k).same, (hf.reads k).unread⟩⟩

/-- A client reads a byte that the child writes, and then the end of both streams. -/
def logsRun (b : UInt8) : List Act :=
  [.pl (.bcast (.subscribe 0)), .pl (.bcast (.sendReq 0)), .pl (.bcast (.req 0)),
    .output .stdout .enter, .output .stdout (.write [b]), .output .stdout (.readFile 1),
    .output .stdout .sendMsg, .output .stdout .wake, .output .stdout .poll,
    .output .stdout .finish, .output .stdout .send, .pl (.recvOutput .stdout), .pl .send] ++
  relayed ++ [.pl (.exit (.ok (.exited 0)) ⟨2⟩)] ++ closed .stdout ++ closed .stderr ++
  [.pl .send, .pl .setRes] ++ relayed
where
  relayed := [.pl (.bcast .frame), .pl (.bcast (.relay 0 .recv)), .pl (.bcast (.relay 0 .send)),
    .pl (.bcast (.relay 0 .clientRecv))]
  closed k := [.output k .close, .output k .enter, .output k .brokenPipe, .output k .sendMsg,
    .output k .wake, .output k .leave, .output k .poll, .output k .finish, .pl (.recvOutput k)]

theorem matches_unix_logsRun : ∃ s bs p,
    run step (start (Job.started ⟨"job"⟩ ⟨"alice"⟩ ⟨7⟩ ⟨1⟩)) (logsRun 104) = some s ∧
    run Pipeline.step (Pipeline.start (Job.started ⟨"job"⟩ ⟨"alice"⟩ ⟨7⟩ ⟨1⟩)) bs = some p ∧
    bs.filterMap Pipeline.Act.visible = (logsRun 104).filterMap Act.visible ∧ p.bc = s.pl.bc := by
  obtain ⟨s, hs⟩ : ∃ s, run step (start (Job.started ⟨"job"⟩ ⟨"alice"⟩ ⟨7⟩ ⟨1⟩)) (logsRun 104) =
      some s := ⟨_, rfl⟩
  obtain ⟨bs, p, hp, hvis, hrest, -⟩ :=
    matches_unix hs (by simp [logsRun, logsRun.relayed, logsRun.closed])
  exact ⟨s, bs, p, hs, hp, hvis, by rw [hrest]⟩

/-- Behind a stream with a thread, too, a client gets each stream as the child has written it, in
order and from its beginning, and all of it before the end. -/
theorem log_faithful {job : Job} {as : List Act} {s : JobRun} (hend : job.endedAt = none)
    (hr : run step (start job) as = some s) (hw : ∀ a ∈ as, ∀ k, a ≠ .output k (.write []))
    {i : SubId} {r : Relay} (hsub : s.pl.bc.subs i = .live r) (k : StreamKind) :
    FrameEvent.streamBytes k r.got <+: (s.pl.output k).pipe.written ∧
    (.eof ∈ r.got → FrameEvent.streamBytes k r.got = (s.pl.output k).pipe.written ∧
      (s.pl.output k).pipe.closed = true) := by
  obtain ⟨bs, p, hrun, -, hf⟩ := follows_run hr hw
  have hgood : Pipeline.Good job bs p :=
    run_induct (motive := Pipeline.Good job) (.start hend) (fun _ _ _ _ _ hg hs => hg.step hs) hrun
  have hsub : p.bc.subs i = .live r := by
    rw [hf.rest]
    exact hsub
  have hpipe : (p.output k).pipe.written = (s.pl.output k).pipe.written := by
    rw [(hf.reads k).same]
  rw [← hpipe, ← (hf.reads k).closed_eq]
  exact ⟨hgood.got_prefix hsub k, fun heof => hgood.got_complete hsub heof k⟩

theorem log_faithful_logsRun : ∃ s r,
    run step (start (Job.started ⟨"job"⟩ ⟨"alice"⟩ ⟨7⟩ ⟨1⟩)) (logsRun 104) = some s ∧
    s.pl.bc.subs 0 = .live r ∧
    ∀ k, FrameEvent.streamBytes k r.got = (s.pl.output k).pipe.written ∧
      (s.pl.output k).pipe.closed = true := by
  obtain ⟨s, hs, r, hsub, hgot⟩ : ∃ s,
      run step (start (Job.started ⟨"job"⟩ ⟨"alice"⟩ ⟨7⟩ ⟨1⟩)) (logsRun 104) = some s ∧
      ∃ r, s.pl.bc.subs 0 = .live r ∧ .eof ∈ r.got :=
    ⟨_, rfl, _, rfl, by decide⟩
  have hw : ∀ a ∈ logsRun 104, ∀ k, a ≠ .output k (.write []) := by
    simp [logsRun, logsRun.relayed, logsRun.closed]
  exact ⟨s, r, hs, hsub, fun k => (log_faithful rfl hs hw hsub k).2 hgot⟩

end JobRun

end Win

end JobRunner
