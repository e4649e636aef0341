import JobRunner.Win.Stream

/-!
# The bytes of a Windows output stream

What `ReadFile` has returned is what the callers have got, followed by the rest of the stream's
buffer, the chunks in the channel and the one the thread is about to send (`Data.bytes`). A last
message, a zero-byte chunk or an error, is at the end of the channel, and once it is there the
thread reads no more (`Ctl.lasts`). So a poll that returns zero bytes or an error has served
everything that was read.
-/

namespace JobRunner.Win

open Lts Mpsc

/-- Whether the thread breaks behind this message. -/
def Msg.last : Msg → Bool
  | .ok bs => bs.isEmpty
  | .error _ => true

def Msg.bytes : Msg → List UInt8
  | .ok bs => bs
  | .error _ => []

/-- The bytes the thread is about to send. -/
def Reader.held : Reader → List UInt8
  | .send msg => msg.bytes
  | _ => []

/-- The thread calls `ReadFile` no more and sends nothing more. -/
def Reader.past : Reader → Bool
  | .wake last => last
  | .left => true
  | .done => true
  | _ => false

/-- The sender handles the thread holds. -/
def Reader.senders : Reader → Nat
  | .done => 0
  | _ => 1

/-- A poll that tells the task to stop. -/
def PollRead.ends : PollRead → Bool
  | .ready bs => bs.isEmpty
  | .failed _ => true
  | _ => false

theorem Reader.held_of_past {r : Reader} (h : r.past = true) : r.held = [] := by
  cases r with
  | send msg => cases h
  | loop | reading | wake last | left | done => rfl

theorem Msg.bytes_of_last {m : Msg} (h : m.last = true) : m.bytes = [] := by
  cases m with
  | ok bs => exact List.isEmpty_iff.1 h
  | error err => rfl

namespace Stream

/-- The rules of `Stream.step`. -/
inductive Step (s : Stream) : Act → Stream → Prop
  | enter (hr : s.reader = .loop) : Step s .enter { s with reader := .reading }
  | bytes {bs} (hr : s.reader = .reading) (hlen : bs.length ≤ 1024) :
      Step s (.readFile (.bytes bs)) { s with reader := .send (.ok bs), read := s.read ++ bs }
  | brokenPipe (hr : s.reader = .reading) :
      Step s (.readFile .brokenPipe) { s with reader := .send (.ok []) }
  | failed {err} (hr : s.reader = .reading) :
      Step s (.readFile (.failed err))
        { s with reader := .send (.error ("ReadFile: ".append err)) }
  | sent {msg} (hr : s.reader = .send msg) (ho : s.ch.rxOpen = true)
      (hcap : s.ch.queue.length < s.ch.cap) :
      Step s .send { s with ch := s.ch.push msg, reader := .wake msg.last }
  | unsent {msg} (hr : s.reader = .send msg) (hc : s.ch.rxOpen = false) :
      Step s .send { s with
        reader := match msg with
          | .ok _ => .left
          | .error _ => .wake true }
  | wake {last} (hr : s.reader = .wake last) :
      Step s .wake { s with waker := s.waker.wake, reader := if last then .left else .loop }
  | leave (hr : s.reader = .left) : Step s .leave { s with reader := .done, ch := s.ch.dropTx }
  | poll {cap} (ht : s.task = .start ∨ ∃ res, s.task = .polled res) (hcap : 0 < cap) :
      Step s (.poll cap) { s with task := .polling cap, waker := s.waker.poll.register }
  | copy {cap} (ht : s.task = .polling cap) (hp : s.pos < s.buffer.length) :
      Step s .finish (s.copy cap)
  | fetch {cap bs q} (ht : s.task = .polling cap) (hp : s.buffer.length ≤ s.pos)
      (hq : s.ch.queue = .ok bs :: q) :
      Step s .finish ({ s with ch := { s.ch with queue := q }, buffer := bs, pos := 0 }.copy cap)
  | fetchErr {cap err q} (ht : s.task = .polling cap) (hp : s.buffer.length ≤ s.pos)
      (hq : s.ch.queue = .error err :: q) :
      Step s .finish { s with ch := { s.ch with queue := q }, task := .polled (.failed err) }
  | empty {cap} (ht : s.task = .polling cap) (hp : s.buffer.length ≤ s.pos)
      (hq : s.ch.queue = []) (hs : s.ch.senders ≠ 0) :
      Step s .finish { s with task := .polled .pending }
  | closed {cap} (ht : s.task = .polling cap) (hp : s.buffer.length ≤ s.pos)
      (hq : s.ch.queue = []) (hs : s.ch.senders = 0) :
      Step s .finish { s with task := .polled (.ready []) }
  | drop (ht : s.task = .start ∨ ∃ res, s.task = .polled res) :
      Step s .drop { s with task := .dropped, ch := s.ch.dropRx }

theorem Step.of_send {s s' : Stream} (h : s.step .send = some s') : Step s .send s' := by
  simp only [step] at h
  split at h
  · next bs hr =>
    split at h
    · cases h
    · next ch hsend =>
      cases h
      rcases Chan.send_eq_some_iff.1 hsend with ⟨-, ho, hcap, rfl⟩ | ⟨hno, -⟩
      · exact .sent hr ho hcap
      · cases hno
    · next ch hsend =>
      cases h
      rcases Chan.send_eq_some_iff.1 hsend with ⟨hno, -⟩ | ⟨-, hc, -⟩
      · cases hno
      · exact @Step.unsent s (.ok bs) hr hc
  · next err hr =>
    split at h
    · cases h
    · next ok ch hsend =>
      cases h
      rcases Chan.send_eq_some_iff.1 hsend with ⟨-, ho, hcap, rfl⟩ | ⟨-, hc, rfl⟩
      · exact .sent hr ho hcap
      · exact @Step.unsent s (.error err) hr hc
  · cases h

theorem Step.of_finish {s s' : Stream} (h : s.step .finish = some s') : Step s .finish s' := by
  simp only [step] at h
  split at h
  · next cap ht =>
    cases h
    unfold pollRead
    split
    · next hp =>
      split
      · next bs ch hrecv =>
        rcases Chan.recv_eq_some_iff.1 hrecv with ⟨m, q, hq, hm, rfl⟩ | ⟨-, -, hno, -⟩
        · cases hm
          exact .fetch ht hp hq
        · cases hno
      · next err ch hrecv =>
        rcases Chan.recv_eq_some_iff.1 hrecv with ⟨m, q, hq, hm, rfl⟩ | ⟨-, -, hno, -⟩
        · cases hm
          exact .fetchErr ht hp hq
        · cases hno
      · next hrecv =>
        unfold Chan.recv at hrecv
        split at hrecv
        · cases hrecv
        · next hq =>
          split at hrecv
          · cases hrecv
          · next hs => exact .empty ht hp hq hs
      · next ch hrecv =>
        rcases Chan.recv_eq_some_iff.1 hrecv with ⟨m, q, -, hm, -⟩ | ⟨hq, hs, -, -⟩
        · cases hm
        · exact .closed ht hp hq hs
    · next hp => exact .copy ht (by omega)
  · cases h

theorem Step.of_step {s s' : Stream} {a : Act} (h : s.step a = some s') : Step s a s' := by
  cases a with
  | send => exact .of_send h
  | finish => exact .of_finish h
  | enter =>
    simp only [step] at h
    split at h
    · next hr => cases h; exact .enter hr
    · cases h
  | readFile res =>
    simp only [step] at h
    split at h
    · next bs hr =>
      split at h
      · next hlen => cases h; exact .bytes hr hlen
      · cases h
    · next hr => cases h; exact .brokenPipe hr
    · next err hr => cases h; exact .failed hr
    · cases h
  | wake =>
    simp only [step] at h
    split at h
    · next last hr => cases h; exact .wake hr
    · cases h
  | leave =>
    simp only [step] at h
    split at h
    · next hr => cases h; exact .leave hr
    · cases h
  | poll cap =>
    simp only [step] at h
    split at h
    · next ht =>
      split at h
      · next hcap => cases h; exact .poll (.inl ht) hcap
      · cases h
    · next res ht =>
      split at h
      · next hcap => cases h; exact .poll (.inr ⟨res, ht⟩) hcap
      · cases h
    · cases h
  | drop =>
    simp only [step] at h
    split at h
    · next ht => cases h; exact .drop (.inl ht)
    · next res ht => cases h; exact .drop (.inr ⟨res, ht⟩)
    · cases h

/-! ## The channel -/

/-- A last message is at the end of the channel, and the thread is past it. -/
def Lasts (past : Bool) (q : List Msg) : Prop :=
  (∀ m ∈ q, m.last = false) ∨
    (past = true ∧ ∃ q' m, q = q' ++ [m] ∧ m.last = true ∧ ∀ m' ∈ q', m'.last = false)

theorem Lasts.push {q : List Msg} (h : Lasts false q) (m : Msg) : Lasts m.last (q ++ [m]) := by
  rcases h with h | ⟨hno, -⟩
  · cases hm : m.last with
    | false =>
      left
      intro m' hm'
      rcases List.mem_append.1 hm' with hm' | hm'
      · exact h m' hm'
      · rwa [List.mem_singleton.1 hm']
    | true => exact .inr ⟨rfl, q, m, rfl, hm, h⟩
  · cases hno

theorem Lasts.mono {p p' : Bool} {q : List Msg} (h : Lasts p q) (hp : p = true → p' = true) :
    Lasts p' q := by
  rcases h with h | ⟨hpast, h⟩
  · exact .inl h
  · exact .inr ⟨hp hpast, h⟩

theorem Lasts.tail {p : Bool} {q : List Msg} {m : Msg} (h : Lasts p (m :: q)) : Lasts p q := by
  rcases h with h | ⟨hp, q', m', he, hm', h⟩
  · exact .inl fun n hn => h n (List.mem_cons_of_mem _ hn)
  · cases q' with
    | nil =>
      obtain ⟨-, rfl⟩ := List.cons.inj he
      exact .inl (by simp)
    | cons n q' =>
      obtain ⟨-, rfl⟩ := List.cons.inj he
      exact .inr ⟨hp, q', m', rfl, hm', fun l hl => h l (List.mem_cons_of_mem _ hl)⟩

/-- A last message that is fetched leaves the channel empty for good. -/
theorem Lasts.head {p : Bool} {q : List Msg} {m : Msg} (h : Lasts p (m :: q))
    (hm : m.last = true) : q = [] ∧ p = true := by
  rcases h with h | ⟨hp, q', m', he, hm', h⟩
  · rw [h m List.mem_cons_self] at hm
    cases hm
  · cases q' with
    | nil =>
      obtain ⟨-, rfl⟩ := List.cons.inj he
      exact ⟨rfl, hp⟩
    | cons n q' =>
      obtain ⟨rfl, -⟩ := List.cons.inj he
      rw [h m List.mem_cons_self] at hm
      cases hm

/-- The thread, the channel and the task agree. -/
structure Ctl (s : Stream) : Prop where
  senders : s.ch.senders = s.reader.senders
  rxOpen : s.ch.rxOpen = false ↔ s.task = .dropped
  lasts : Lasts s.reader.past s.ch.queue
  cap : ∀ c, s.task = .polling c → 0 < c
  pos : s.pos ≤ s.buffer.length
  slots : s.ch.cap = 1024

theorem ctl_start : Ctl start where
  senders := rfl
  rxOpen := by simp [start]
  lasts := .inl (by simp [start])
  cap := nofun
  pos := Nat.le_refl _
  slots := rfl

/-- A poll of a task that has not dropped the stream keeps the receiver. -/
theorem Ctl.isOpen {s : Stream} (h : Ctl s) (ht : s.task ≠ .dropped) : s.ch.rxOpen = true := by
  cases ho : s.ch.rxOpen with
  | true => rfl
  | false => exact absurd (h.rxOpen.1 ho) ht

theorem copy_eq {s : Stream} (h : s.pos ≤ s.buffer.length) (cap : Nat) :
    s.copy cap = { s with
      pos := s.pos + min (s.buffer.length - s.pos) cap
      put := s.put ++ (s.buffer.drop s.pos).take (min (s.buffer.length - s.pos) cap)
      task :=
        .polled (.ready ((s.buffer.drop s.pos).take (min (s.buffer.length - s.pos) cap))) } := by
  unfold copy
  rw [if_pos ⟨h, by omega, by omega⟩]

theorem Ctl.copy {s : Stream} (h : Ctl s) (ht : s.task ≠ .dropped) (cap : Nat) :
    Ctl (s.copy cap) := by
  have hpos := h.pos
  rw [copy_eq hpos]
  refine ⟨h.senders, by simp [h.isOpen ht], h.lasts, nofun, ?_, h.slots⟩
  dsimp only
  omega

theorem Ctl.step {s s' : Stream} {a : Act} (h : Ctl s) (hs : Step s a s') : Ctl s' := by
  have hsenders := h.senders
  have hlasts := h.lasts
  cases hs with
  | enter hr | bytes hr | brokenPipe hr | failed hr =>
    rw [hr] at hsenders hlasts
    exact ⟨hsenders, h.rxOpen, hlasts, h.cap, h.pos, h.slots⟩
  | @sent msg hr ho hcap =>
    rw [hr] at hsenders hlasts
    exact ⟨hsenders, h.rxOpen, hlasts.push msg, h.cap, h.pos, h.slots⟩
  | @unsent msg hr hc =>
    rw [hr] at hsenders hlasts
    cases msg with
    | ok bs => exact ⟨hsenders, h.rxOpen, hlasts.mono nofun, h.cap, h.pos, h.slots⟩
    | error err => exact ⟨hsenders, h.rxOpen, hlasts.mono nofun, h.cap, h.pos, h.slots⟩
  | @wake last hr =>
    rw [hr] at hsenders hlasts
    cases last with
    | false => exact ⟨hsenders, h.rxOpen, hlasts, h.cap, h.pos, h.slots⟩
    | true => exact ⟨hsenders, h.rxOpen, hlasts, h.cap, h.pos, h.slots⟩
  | leave hr =>
    rw [hr] at hsenders hlasts
    refine ⟨?_, h.rxOpen, hlasts, h.cap, h.pos, h.slots⟩
    rw [Chan.dropTx_senders, hsenders]
    rfl
  | @poll cap ht hcap =>
    have hopen : s.ch.rxOpen = true := by
      apply h.isOpen
      rcases ht with ht | ⟨res, ht⟩ <;> simp [ht]
    refine ⟨hsenders, by simp [hopen], hlasts, ?_, h.pos, h.slots⟩
    intro c hc
    cases hc
    exact hcap
  | @copy cap ht => exact h.copy (by simp [ht]) cap
  | @fetch cap bs q ht hp hq =>
    rw [hq] at hlasts
    have hnext : Ctl { s with ch := { s.ch with queue := q }, buffer := bs, pos := 0 } :=
      ⟨hsenders, h.rxOpen, hlasts.tail, h.cap, Nat.zero_le _, h.slots⟩
    exact hnext.copy (by simp [ht]) cap
  | @fetchErr cap err q ht hp hq =>
    rw [hq] at hlasts
    exact ⟨hsenders, by simp [h.isOpen (by simp [ht])], hlasts.tail, nofun, h.pos, h.slots⟩
  | empty ht | closed ht =>
    exact ⟨hsenders, by simp [h.isOpen (by simp [ht])], hlasts, nofun, h.pos, h.slots⟩
  | drop => exact ⟨hsenders, by simp, .inl (by simp), nofun, h.pos, h.slots⟩

/-! ## The bytes -/

/-- What has been read and not been put into a caller's buffer. -/
def rest (s : Stream) : List UInt8 :=
  s.buffer.drop s.pos ++ s.ch.queue.flatMap Msg.bytes ++ s.reader.held

/-- No poll panics; the bytes read are those put and the rest, in order; and a poll that tells the
task to stop has put them all. -/
structure Data (s : Stream) : Prop where
  panic : s.task ≠ .polled .panicked
  bytes : s.ch.rxOpen = true → s.read = s.put ++ s.rest
  pre : s.put <+: s.read
  ended : ∀ res, s.task = .polled res → res.ends = true → s.reader.past = true ∧ s.put = s.read

theorem data_start : Data start where
  panic := nofun
  bytes := fun _ => rfl
  pre := List.nil_prefix
  ended := nofun

/-- While the thread still reads, no poll has told the task to stop. -/
theorem Data.not_ended {s : Stream} {P : Prop} (h : Data s) (hr : s.reader.past = false) :
    ∀ res, s.task = .polled res → res.ends = true → P := by
  intro res ht he
  have hpast := (h.ended res ht he).1
  rw [hr] at hpast
  cases hpast

theorem Data.copy {s : Stream} {cap : Nat} (hpos : s.pos ≤ s.buffer.length)
    (hbytes : s.read = s.put ++ s.rest)
    (hend : (s.buffer.drop s.pos).take (min (s.buffer.length - s.pos) cap) = [] →
      s.reader.past = true ∧ s.put = s.read) : Data (s.copy cap) := by
  rw [copy_eq hpos]
  generalize hn : min (s.buffer.length - s.pos) cap = n at hend ⊢
  have hsplit : (s.buffer.drop s.pos).take n ++ s.buffer.drop (s.pos + n) =
      s.buffer.drop s.pos := by
    rw [← List.drop_drop, List.take_append_drop]
  have hread : s.read = s.put ++ (s.buffer.drop s.pos).take n ++
      (s.buffer.drop (s.pos + n) ++ s.ch.queue.flatMap Msg.bytes ++ s.reader.held) := by
    rw [hbytes, List.append_assoc, ← List.append_assoc (List.take _ _),
      ← List.append_assoc (List.take _ _), hsplit]
    rfl
  refine ⟨nofun, fun _ => hread, ?_, ?_⟩
  · dsimp only
    rw [hread]
    exact List.prefix_append _ _
  · intro res ht he
    cases ht
    have hnil := List.isEmpty_iff.1 he
    obtain ⟨hpast, hput⟩ := hend hnil
    refine ⟨hpast, ?_⟩
    dsimp only
    rw [hnil, List.append_nil, hput]

/-- A poll with room in the caller's buffer puts some bytes unless the stream's buffer is used
up. -/
theorem used_of_copied_nil {buf : List UInt8} {pos cap : Nat} (hcap : 0 < cap)
    (h : (buf.drop pos).take (min (buf.length - pos) cap) = []) : buf.length ≤ pos := by
  have hlen := congrArg List.length h
  simp only [List.length_take, List.length_drop, List.length_nil] at hlen
  omega

/-- With the buffer used up, what is left is in the channel and with the thread. -/
theorem rest_of_used {s : Stream} (hp : s.buffer.length ≤ s.pos) :
    s.rest = s.ch.queue.flatMap Msg.bytes ++ s.reader.held := by
  rw [rest, List.drop_eq_nil_of_le hp, List.nil_append]

theorem Data.step {s s' : Stream} {a : Act} (hc : Ctl s) (h : Data s) (hs : Step s a s') :
    Data s' := by
  have hbytes := h.bytes
  unfold rest at hbytes
  cases hs with
  | enter hr | brokenPipe hr | failed hr =>
    rw [hr] at hbytes
    exact ⟨h.panic, hbytes, h.pre, h.not_ended (by rw [hr]; rfl)⟩
  | @bytes bs hr =>
    rw [hr] at hbytes
    refine ⟨h.panic, ?_, h.pre.trans (List.prefix_append _ _), h.not_ended (by rw [hr]; rfl)⟩
    intro ho
    unfold rest
    dsimp only
    rw [hbytes ho]
    simp [Reader.held, Msg.bytes]
  | @sent msg hr =>
    rw [hr] at hbytes
    refine ⟨h.panic, ?_, h.pre, h.not_ended (by rw [hr]; rfl)⟩
    intro ho
    unfold rest
    dsimp only
    rw [hbytes ho]
    simp [Reader.held]
  | unsent hr hclosed =>
    refine ⟨h.panic, ?_, h.pre, h.not_ended (by rw [hr]; rfl)⟩
    intro ho
    rw [hclosed] at ho
    cases ho
  | @wake last hr =>
    rw [hr] at hbytes
    cases last with
    | false => exact ⟨h.panic, hbytes, h.pre, h.not_ended (by rw [hr]; rfl)⟩
    | true => exact ⟨h.panic, hbytes, h.pre, fun res ht he => ⟨rfl, (h.ended res ht he).2⟩⟩
  | leave hr =>
    rw [hr] at hbytes
    exact ⟨h.panic, hbytes, h.pre, fun res ht he => ⟨rfl, (h.ended res ht he).2⟩⟩
  | poll => exact ⟨nofun, hbytes, h.pre, nofun⟩
  | @copy cap ht hp =>
    apply Data.copy hc.pos (h.bytes (hc.isOpen (by simp [ht])))
    intro hnil
    exact absurd (used_of_copied_nil (hc.cap cap ht) hnil) (Nat.not_le.2 hp)
  | @fetch cap bs q ht hp hq =>
    have hread := h.bytes (hc.isOpen (by simp [ht]))
    rw [rest_of_used hp, hq, List.flatMap_cons] at hread
    apply Data.copy (Nat.zero_le _)
    · rw [hread]
      rfl
    · intro hnil
      have hbs : bs = [] := by
        apply List.eq_nil_of_length_eq_zero
        exact Nat.le_zero.1 (used_of_copied_nil (hc.cap cap ht) hnil)
      -- a zero-byte chunk is the last message
      have hlasts := hc.lasts
      rw [hq] at hlasts
      obtain ⟨rfl, hpast⟩ := hlasts.head (m := .ok bs) (by rw [hbs]; rfl)
      refine ⟨hpast, ?_⟩
      dsimp only
      rw [hread, Reader.held_of_past hpast, hbs]
      simp [Msg.bytes]
  | @fetchErr cap err q ht hp hq =>
    have hread := h.bytes (hc.isOpen (by simp [ht]))
    rw [rest_of_used hp, hq] at hread
    have hlasts := hc.lasts
    rw [hq] at hlasts
    obtain ⟨rfl, hpast⟩ := hlasts.head (m := .error err) rfl
    rw [Reader.held_of_past hpast] at hread
    have hput : s.read = s.put := by simpa [Msg.bytes] using hread
    refine ⟨nofun, ?_, h.pre, fun _ _ _ => ⟨hpast, hput.symm⟩⟩
    intro _
    unfold rest
    dsimp only
    rw [List.drop_eq_nil_of_le hp, Reader.held_of_past hpast, hput]
    simp
  | empty => exact ⟨nofun, hbytes, h.pre, by rintro _ ⟨⟩ he; cases he⟩
  | @closed cap ht hp hq hsenders =>
    have hread := h.bytes (hc.isOpen (by simp [ht]))
    have hpast : s.reader.past = true := by
      rw [hc.senders] at hsenders
      cases hr : s.reader <;> simp [hr, Reader.senders] at hsenders ⊢
      rfl
    rw [rest_of_used hp, hq, Reader.held_of_past hpast] at hread
    have hput : s.read = s.put := by simpa using hread
    exact ⟨nofun, hbytes, h.pre, fun _ _ _ => ⟨hpast, hput.symm⟩⟩
  | drop => exact ⟨nofun, by simp, h.pre, nofun⟩

theorem inv_run {s : Stream} {as : List Act} (h : run Stream.step start as = some s) :
    Ctl s ∧ Data s := by
  apply Reachable.invariant (I := fun s => Ctl s ∧ Data s) ⟨as, h⟩ ⟨ctl_start, data_start⟩
  rintro s a s' ⟨hc, hd⟩ ha
  exact ⟨hc.step (.of_step ha), hd.step hc (.of_step ha)⟩

/-- The stream is faithful: no poll panics and `pos` stays within the buffer; what the callers got
is a prefix of what `ReadFile` returned, and all of it once a poll returns zero bytes or an error;
and a poll returns zero bytes only when the thread has sent its last message. -/
theorem stream_faithful {s : Stream} {as : List Act} (hrun : run Stream.step start as = some s) :
    s.task ≠ .polled .panicked ∧ s.pos ≤ s.buffer.length ∧ s.put <+: s.read ∧
    (∀ res, s.task = .polled res → res.ends = true → s.put = s.read) ∧
    (s.task = .polled (.ready []) → s.reader.past = true) := by
  obtain ⟨hc, hd⟩ := inv_run hrun
  refine ⟨hd.panic, hc.pos, hd.pre, ?_, ?_⟩
  · intro res ht he
    exact (hd.ended res ht he).2
  · intro ht
    exact (hd.ended _ ht rfl).1

/-- A chunk of three bytes, read two bytes at a time, and the end of the pipe. -/
def threeBytes : List Act :=
  [.enter, .readFile (.bytes [1, 2, 3]), .send, .wake, .poll 2, .finish, .enter,
    .readFile .brokenPipe, .poll 2, .finish, .send, .wake, .leave, .poll 2, .finish]

theorem stream_faithful_threeBytes :
    ∃ s, run Stream.step start threeBytes = some s ∧ s.read = [1, 2, 3] ∧ s.put = s.read := by
  have hrun : ∃ s, run Stream.step start threeBytes = some s ∧ s.read = [1, 2, 3] ∧
      s.task = .polled (.ready []) := ⟨_, rfl, rfl, rfl⟩
  obtain ⟨s, hs, hread, htask⟩ := hrun
  exact ⟨s, hs, hread, (stream_faithful hs).2.2.2.1 _ htask rfl⟩

/-- The pipe ends, and the task polls before the thread is behind `w.wake`. -/
def earlyEnd : List Act := [.enter, .readFile .brokenPipe, .send, .poll 1024, .finish]

/-- The thread is still in its loop when the poll returns zero bytes. -/
theorem ready_earlyEnd :
    ∃ s, run Stream.step start earlyEnd = some s ∧ s.task = .polled (.ready []) ∧
      s.reader = .wake true :=
  ⟨_, rfl, rfl, rfl⟩

end Stream

end JobRunner.Win
