import JobRunner.Output

/-!
# One output stream

`Output.pending` are the bytes of a stream that its reading task has not handed to the tracker: in
the task's channel, in its pending send and in the pipe. While the tracker has the receiver,
nothing is lost on the way (`step_pending`). `Output.Hist` says how the task ended, by the reads
it made so far: an end of file and a read error exclude each other, and after an end of file the
pipe is closed and empty and the channel holds no error.
-/

namespace JobRunner

open Mpsc

namespace Output

/-- The bytes of one result of the reading task. -/
def resBytes : Except TrackerError Frame → List UInt8
  | .ok frame => frame.bs
  | .error _ => []

/-- The bytes in the task's pending send. -/
def ReadPc.bytes : ReadPc → List UInt8
  | .send frame => frame.bs
  | _ => []

def pending (o : Output) : List UInt8 :=
  o.ch.queue.flatMap resBytes ++ ReadPc.bytes o.pc ++ o.pipe.unread

/-! ## What a step does -/

section Steps

variable {o o' : Output}

theorem step_write {bs : List UInt8} (h : o.step (.write bs) = some o') :
    o.pipe.closed = false ∧ o' = { o with
      pipe := { o.pipe with written := o.pipe.written ++ bs, unread := o.pipe.unread ++ bs } } := by
  simp only [step] at h
  split at h
  · cases h
  · next hc => exact ⟨by simpa using hc, by simpa using h.symm⟩

theorem step_close (h : o.step .close = some o') :
    o' = { o with pipe := { o.pipe with closed := true } } := by
  simpa [step] using h.symm

theorem step_read {n : Nat} (h : o.step (.read n) = some o') :
    o.pc = .read ∧ 1 ≤ n ∧ n ≤ 1024 ∧ n ≤ o.pipe.unread.length ∧ o' = { o with
      pipe := { o.pipe with unread := o.pipe.unread.drop n }
      pc := .send { kind := o.kind, bs := o.pipe.unread.take n } } := by
  simp only [step, Option.ite_none_right_eq_some, Option.some.injEq] at h
  obtain ⟨⟨hpc, h1, h2, h3⟩, rfl⟩ := h
  exact ⟨hpc, h1, h2, h3, rfl⟩

theorem step_readEof (h : o.step .readEof = some o') :
    o.pc = .read ∧ o.pipe.unread = [] ∧ o.pipe.closed = true ∧ o' = o.finish := by
  simp only [step, Option.ite_none_right_eq_some, Option.some.injEq] at h
  obtain ⟨⟨hpc, h1, h2⟩, rfl⟩ := h
  exact ⟨hpc, h1, h2, rfl⟩

theorem step_readErr {err : IoError} (h : o.step (.readErr err) = some o') :
    o.pc = .read ∧ o' = { o with pc := .sendErr (.readOutput o.kind err) } := by
  simp only [step, Option.ite_none_right_eq_some, Option.some.injEq] at h
  exact ⟨h.1, h.2.symm⟩

/-- A send hands over what the task holds, or finds the tracker gone and ends the task. -/
theorem step_send (h : o.step .send = some o') :
    (∃ frame, o.pc = .send frame ∧ o.ch.rxOpen = true ∧
      o' = { o with pc := .read, ch := o.ch.push (.ok frame) }) ∨
    (∃ err, o.pc = .sendErr err ∧ o.ch.rxOpen = true ∧
      o' = { o with ch := o.ch.push (.error err) }.finish) ∨
    (o.pc ≠ .done ∧ o.ch.rxOpen = false ∧ o' = o.finish) := by
  simp only [step] at h
  split at h
  · next frame hpc =>
    cases hs : o.ch.send (.ok frame) with
    | none => simp [hs] at h
    | some p =>
      obtain ⟨ok, ch⟩ := p
      rcases Chan.send_eq_some_iff.1 hs with ⟨rfl, ho, -, rfl⟩ | ⟨rfl, ho, rfl⟩
      · exact .inl ⟨frame, hpc, ho, by simpa [hs] using h.symm⟩
      · exact .inr (.inr ⟨by simp [hpc], ho, by simpa [hs] using h.symm⟩)
  · next err hpc =>
    cases hs : o.ch.send (.error err) with
    | none => simp [hs] at h
    | some p =>
      obtain ⟨ok, ch⟩ := p
      rcases Chan.send_eq_some_iff.1 hs with ⟨rfl, ho, -, rfl⟩ | ⟨rfl, ho, rfl⟩
      · exact .inr (.inl ⟨err, hpc, ho, by simpa [hs] using h.symm⟩)
      · exact .inr (.inr ⟨by simp [hpc], ho, by simpa [hs] using h.symm⟩)
  · cases h

theorem recv_cases {ev : Option (Except TrackerError Frame)} (h : o.recv = some (ev, o')) :
    (∃ res q, o.ch.queue = res :: q ∧ ev = some res ∧
      o' = { o with ch := { o.ch with queue := q } }) ∨
    (o.ch.queue = [] ∧ o.ch.senders = 0 ∧ ev = none ∧ o' = o) := by
  unfold recv at h
  cases hr : o.ch.recv with
  | none => simp [hr] at h
  | some p =>
    obtain ⟨ev', ch⟩ := p
    rcases Chan.recv_eq_some_iff.1 hr with ⟨res, q, hq, rfl, rfl⟩ | ⟨hq, hz, rfl, rfl⟩
    · simp only [hr, Option.some.injEq, Prod.mk.injEq] at h
      exact .inl ⟨res, q, hq, h.1.symm, h.2.symm⟩
    · simp only [hr, Option.some.injEq, Prod.mk.injEq] at h
      exact .inr ⟨hq, hz, h.1.symm, h.2.symm⟩

end Steps

/-! ## Kinds and handles -/

/-- Every result on the way is about the stream `k`, and the task's sender is gone exactly when
the task is done. -/
structure Inv (k : StreamKind) (o : Output) : Prop where
  kind : o.kind = k
  senders : o.ch.senders = if o.pc = .done then 0 else 1
  frames : ∀ frame, .ok frame ∈ o.ch.queue ∨ o.pc = .send frame → frame.kind = k
  errors : ∀ e, .error e ∈ o.ch.queue ∨ o.pc = .sendErr e → ∃ err, e = .readOutput k err

namespace Inv

variable {k : StreamKind} {o o' : Output}

theorem start (k : StreamKind) : Inv k (Output.start k) where
  kind := rfl
  senders := rfl
  frames frame h := by rcases h with h | h <;> cases h
  errors e h := by rcases h with h | h <;> cases h

theorem finish (h : Inv k o) (hpc : o.pc ≠ .done) : Inv k o.finish where
  kind := h.kind
  senders := by simp [Output.finish, h.senders, hpc]
  frames frame hf := by
    rcases hf with hf | hf
    · exact h.frames frame (.inl hf)
    · cases hf
  errors e he := by
    rcases he with he | he
    · exact h.errors e (.inl he)
    · cases he

theorem step (h : Inv k o) {a : Act} (hs : o.step a = some o') : Inv k o' := by
  cases a with
  | write bs =>
    obtain ⟨-, rfl⟩ := step_write hs
    exact { h with }
  | close =>
    obtain rfl := step_close hs
    exact { h with }
  | read n =>
    obtain ⟨hpc, -, -, -, rfl⟩ := step_read hs
    refine ⟨h.kind, ?_, fun frame hf => ?_, fun e he => ?_⟩
    · simpa [hpc] using h.senders
    · rcases hf with hf | hf
      · exact h.frames frame (.inl hf)
      · obtain rfl := ReadPc.send.inj hf
        exact h.kind
    · rcases he with he | he
      · exact h.errors e (.inl he)
      · cases he
  | readEof =>
    obtain ⟨hpc, -, -, rfl⟩ := step_readEof hs
    exact h.finish (by simp [hpc])
  | readErr err =>
    obtain ⟨hpc, rfl⟩ := step_readErr hs
    refine ⟨h.kind, ?_, fun frame hf => ?_, fun e he => ?_⟩
    · simpa [hpc] using h.senders
    · rcases hf with hf | hf
      · exact h.frames frame (.inl hf)
      · cases hf
    · rcases he with he | he
      · exact h.errors e (.inl he)
      · obtain rfl := ReadPc.sendErr.inj he
        exact ⟨err, by rw [h.kind]⟩
  | send =>
    rcases step_send hs with ⟨frame, hpc, -, rfl⟩ | ⟨err, hpc, -, rfl⟩ | ⟨hpc, -, rfl⟩
    · refine ⟨h.kind, ?_, fun f hf => ?_, fun e he => ?_⟩
      · simpa [hpc] using h.senders
      · rcases hf with hf | hf
        · rcases List.mem_append.1 hf with hf | hf
          · exact h.frames f (.inl hf)
          · obtain rfl := Except.ok.inj (List.mem_singleton.1 hf)
            exact h.frames f (.inr hpc)
        · cases hf
      · rcases he with he | he
        · rcases List.mem_append.1 he with he | he
          · exact h.errors e (.inl he)
          · cases List.mem_singleton.1 he
        · cases he
    · have hpush : Inv k { o with ch := o.ch.push (.error err) } := by
        refine ⟨h.kind, h.senders, fun f hf => ?_, fun e he => ?_⟩
        · rcases hf with hf | hf
          · rcases List.mem_append.1 hf with hf | hf
            · exact h.frames f (.inl hf)
            · cases List.mem_singleton.1 hf
          · exact h.frames f (.inr hf)
        · rcases he with he | he
          · rcases List.mem_append.1 he with he | he
            · exact h.errors e (.inl he)
            · obtain rfl := Except.error.inj (List.mem_singleton.1 he)
              exact h.errors e (.inr hpc)
          · exact h.errors e (.inr he)
      exact hpush.finish (by simp [hpc])
    · exact h.finish hpc

theorem recv (h : Inv k o) {ev : Option (Except TrackerError Frame)}
    (hr : o.recv = some (ev, o')) : Inv k o' := by
  rcases recv_cases hr with ⟨res, q, hq, -, rfl⟩ | ⟨-, -, -, rfl⟩
  · have hmem : ∀ x ∈ q, x ∈ o.ch.queue := fun x hx => by
      rw [hq]
      exact List.mem_cons_of_mem _ hx
    exact
      { h with
        frames := fun f hf => h.frames f (hf.imp_left (hmem _))
        errors := fun e he => h.errors e (he.imp_left (hmem _)) }
  · exact h

theorem dropRx (h : Inv k o) : Inv k o.dropRx where
  kind := h.kind
  senders := h.senders
  frames f hf := h.frames f (hf.imp_left fun hf => by cases hf)
  errors e he := h.errors e (he.imp_left fun he => by cases he)

end Inv

/-! ## Bytes -/

/-- While the tracker has the receiver, the task and the child only add to the pending bytes what
the child writes. -/
theorem step_pending {o o' : Output} {a : Act} (hs : o.step a = some o')
    (ho : o.ch.rxOpen = true) :
    ∃ bs, o'.pipe.written = o.pipe.written ++ bs ∧ o'.pending = o.pending ++ bs ∧
      o'.ch.rxOpen = true := by
  cases a with
  | write bs =>
    obtain ⟨-, rfl⟩ := step_write hs
    exact ⟨bs, rfl, by simp [pending], ho⟩
  | close =>
    obtain rfl := step_close hs
    exact ⟨[], (List.append_nil _).symm, (List.append_nil _).symm, ho⟩
  | read n =>
    obtain ⟨hpc, -, -, -, rfl⟩ := step_read hs
    refine ⟨[], (List.append_nil _).symm, ?_, ho⟩
    simp [pending, hpc, ReadPc.bytes]
  | readEof =>
    obtain ⟨hpc, -, -, rfl⟩ := step_readEof hs
    exact ⟨[], (List.append_nil _).symm, by simp [pending, finish, hpc, ReadPc.bytes], ho⟩
  | readErr err =>
    obtain ⟨hpc, rfl⟩ := step_readErr hs
    exact ⟨[], (List.append_nil _).symm, by simp [pending, hpc, ReadPc.bytes], ho⟩
  | send =>
    rcases step_send hs with ⟨frame, hpc, -, rfl⟩ | ⟨err, hpc, -, rfl⟩ | ⟨-, hc, -⟩
    · exact ⟨[], (List.append_nil _).symm, by simp [pending, hpc, ReadPc.bytes, resBytes], ho⟩
    · exact ⟨[], (List.append_nil _).symm,
        by simp [pending, finish, hpc, ReadPc.bytes, resBytes], ho⟩
    · rw [ho] at hc
      cases hc

/-- What the child has written is never taken back. -/
theorem step_written {o o' : Output} {a : Act} (hs : o.step a = some o') :
    o.pipe.written <+: o'.pipe.written ∧
    (o.pipe.closed = true → o'.pipe = o.pipe ∨ ∃ n, o.pc = .read ∧ a = .read n) := by
  cases a with
  | write bs =>
    obtain ⟨hc, rfl⟩ := step_write hs
    exact ⟨List.prefix_append _ _, fun h => by rw [hc] at h; cases h⟩
  | close =>
    obtain rfl := step_close hs
    refine ⟨List.prefix_rfl, fun h => .inl ?_⟩
    rw [← h]
  | read n =>
    obtain ⟨hpc, -, -, -, rfl⟩ := step_read hs
    exact ⟨List.prefix_rfl, fun _ => .inr ⟨n, hpc, rfl⟩⟩
  | readEof =>
    obtain ⟨-, -, -, rfl⟩ := step_readEof hs
    exact ⟨List.prefix_rfl, fun _ => .inl rfl⟩
  | readErr err =>
    obtain ⟨-, rfl⟩ := step_readErr hs
    exact ⟨List.prefix_rfl, fun _ => .inl rfl⟩
  | send =>
    rcases step_send hs with ⟨frame, -, -, rfl⟩ | ⟨err, -, -, rfl⟩ | ⟨-, -, rfl⟩
    · exact ⟨List.prefix_rfl, fun _ => .inl rfl⟩
    · exact ⟨List.prefix_rfl, fun _ => .inl rfl⟩
    · exact ⟨List.prefix_rfl, fun _ => .inl rfl⟩

/-- Only the tracker closes the receiver. -/
theorem step_rxOpen {o o' : Output} {a : Act} (hs : o.step a = some o') :
    o'.ch.rxOpen = o.ch.rxOpen := by
  cases a with
  | write bs =>
    obtain ⟨-, rfl⟩ := step_write hs
    rfl
  | close =>
    obtain rfl := step_close hs
    rfl
  | read n =>
    obtain ⟨-, -, -, -, rfl⟩ := step_read hs
    rfl
  | readEof =>
    obtain ⟨-, -, -, rfl⟩ := step_readEof hs
    rfl
  | readErr err =>
    obtain ⟨-, rfl⟩ := step_readErr hs
    rfl
  | send =>
    rcases step_send hs with ⟨frame, -, -, rfl⟩ | ⟨err, -, -, rfl⟩ | ⟨-, -, rfl⟩
    · rfl
    · rfl
    · rfl

/-- While the tracker has the receiver, the task ends at an end of file or after sending a read
error. -/
theorem done_of_step {o o' : Output} {a : Act} (hs : o.step a = some o') (hd : o'.pc = .done)
    (ho : o.ch.rxOpen = true) :
    (o.pc = .done ∧ o'.ch = o.ch) ∨ a = .readEof ∨ ∃ e, .error e ∈ o'.ch.queue := by
  cases a with
  | write bs =>
    obtain ⟨-, rfl⟩ := step_write hs
    exact .inl ⟨hd, rfl⟩
  | close =>
    obtain rfl := step_close hs
    exact .inl ⟨hd, rfl⟩
  | read n =>
    obtain ⟨-, -, -, -, rfl⟩ := step_read hs
    cases hd
  | readEof => exact .inr (.inl rfl)
  | readErr err =>
    obtain ⟨-, rfl⟩ := step_readErr hs
    cases hd
  | send =>
    rcases step_send hs with ⟨frame, -, -, rfl⟩ | ⟨err, -, -, rfl⟩ | ⟨-, hc, -⟩
    · cases hd
    · exact .inr (.inr ⟨err, List.mem_append_right _ (List.mem_singleton_self _)⟩)
    · rw [ho] at hc
      cases hc

/-! ## How a stream ended -/

/-- The reading task against the labels `as` of its stream so far. -/
structure Hist (as : List Act) (o : Output) : Prop where
  reading : (o.pc = .read ∨ ∃ frame, o.pc = .send frame) →
    .readEof ∉ as ∧ ∀ err, .readErr err ∉ as
  failing : ∀ e, o.pc = .sendErr e → .readEof ∉ as ∧ ∃ err, .readErr err ∈ as
  eof : .readEof ∈ as → o.pc = .done ∧ o.pipe.unread = [] ∧ o.pipe.closed = true ∧
    (∀ e, .error e ∉ o.ch.queue) ∧ ∀ err, .readErr err ∉ as
  error : ∀ e, .error e ∈ o.ch.queue → ∃ err, .readErr err ∈ as

namespace Hist

variable {as : List Act} {o o' : Output}

theorem start (k : StreamKind) : Hist [] (Output.start k) where
  reading _ := ⟨List.not_mem_nil, fun _ => List.not_mem_nil⟩
  failing e he := by cases he
  eof h := by cases h
  error e he := by cases he

/-- A label that is no result of a read is not in the way. -/
theorem of_same {a : Act} (h : Hist as o) (ha : a ≠ .readEof) (ha' : ∀ err, a ≠ .readErr err)
    (hreading : (o'.pc = .read ∨ ∃ frame, o'.pc = .send frame) →
      o.pc = .read ∨ ∃ frame, o.pc = .send frame)
    (hfailing : ∀ e, o'.pc = .sendErr e → o.pc = .sendErr e)
    (hdone : o.pc = .done → o.pipe.unread = [] → o.pipe.closed = true →
      o'.pc = .done ∧ o'.pipe.unread = [] ∧ o'.pipe.closed = true ∧ o'.ch = o.ch)
    (herror : ∀ e, .error e ∈ o'.ch.queue → .error e ∈ o.ch.queue ∨ o.pc = .sendErr e) :
    Hist (as ++ [a]) o' := by
  have hE : .readEof ∈ as ++ [a] ↔ .readEof ∈ as := by simp [Ne.symm ha]
  have hR : ∀ err, .readErr err ∈ as ++ [a] ↔ .readErr err ∈ as := fun err => by
    simp [Ne.symm (ha' err)]
  refine ⟨fun hpc => ?_, fun e he => ?_, fun he => ?_, fun e he => ?_⟩
  · simp only [hE, hR]
    exact h.reading (hreading hpc)
  · simp only [hE, hR]
    exact h.failing e (hfailing e he)
  · obtain ⟨hpc, hu, hc, hq, hr⟩ := h.eof (hE.1 he)
    obtain ⟨hpc', hu', hc', hch⟩ := hdone hpc hu hc
    simp only [hR, hch]
    exact ⟨hpc', hu', hc', hq, hr⟩
  · simp only [hR]
    rcases herror e he with he | he
    · exact h.error e he
    · exact (h.failing e he).2

theorem step (h : Hist as o) {a : Act} (hs : o.step a = some o') : Hist (as ++ [a]) o' := by
  cases a with
  | write bs =>
    obtain ⟨hc, rfl⟩ := step_write hs
    refine h.of_same (by simp) (by simp) id (fun _ => id) (fun _ _ hc' => ?_) (fun _ => .inl)
    rw [hc] at hc'
    cases hc'
  | close =>
    obtain rfl := step_close hs
    exact h.of_same (by simp) (by simp) id (fun _ => id) (fun hpc hu _ => ⟨hpc, hu, rfl, rfl⟩)
      (fun _ => .inl)
  | read n =>
    obtain ⟨hpc, -, -, -, rfl⟩ := step_read hs
    refine h.of_same (by simp) (by simp) (fun _ => .inl hpc) (fun e he => by cases he)
      (fun hd => ?_) (fun _ => .inl)
    rw [hpc] at hd
    cases hd
  | readEof =>
    obtain ⟨hpc, hu, hc, rfl⟩ := step_readEof hs
    obtain ⟨-, hr⟩ := h.reading (.inl hpc)
    have hr' : ∀ err, .readErr err ∉ as ++ [Act.readEof] := fun err => by simp [hr err]
    refine ⟨fun hpc' => ?_, (fun e he => by cases he), fun _ => ⟨rfl, hu, hc, fun e he => ?_, hr'⟩,
      fun e he => ?_⟩
    · rcases hpc' with hpc' | ⟨_, hpc'⟩ <;> cases hpc'
    · obtain ⟨err, herr⟩ := h.error e he
      exact hr err herr
    · obtain ⟨err, herr⟩ := h.error e he
      exact (hr err herr).elim
  | readErr err =>
    obtain ⟨hpc, rfl⟩ := step_readErr hs
    obtain ⟨he, -⟩ := h.reading (.inl hpc)
    have he' : .readEof ∉ as ++ [Act.readErr err] := by simp [he]
    have hin : Act.readErr err ∈ as ++ [Act.readErr err] := by simp
    refine ⟨fun hpc' => ?_, fun e _ => ⟨he', err, hin⟩, fun hc => (he' hc).elim,
      fun e _ => ⟨err, hin⟩⟩
    rcases hpc' with hpc' | ⟨_, hpc'⟩ <;> cases hpc'
  | send =>
    rcases step_send hs with ⟨frame, hpc, -, rfl⟩ | ⟨err, hpc, -, rfl⟩ | ⟨hpc, -, rfl⟩
    · refine h.of_same (by simp) (by simp) (fun _ => .inr ⟨frame, hpc⟩) (fun e he => by cases he)
        (fun hd => ?_) (fun e he => ?_)
      · rw [hpc] at hd
        cases hd
      · rcases List.mem_append.1 he with he | he
        · exact .inl he
        · cases List.mem_singleton.1 he
    · refine h.of_same (by simp) (by simp) (fun hc => ?_) (fun e he => by cases he)
        (fun hd => ?_) (fun e he => ?_)
      · rcases hc with hc | ⟨_, hc⟩ <;> cases hc
      · rw [hpc] at hd
        cases hd
      · rcases List.mem_append.1 he with he | he
        · exact .inl he
        · obtain rfl := Except.error.inj (List.mem_singleton.1 he)
          exact .inr hpc
    · refine h.of_same (by simp) (by simp) (fun hc => ?_) (fun e he => by cases he)
        (fun hd => (hpc hd).elim) (fun _ => .inl)
      rcases hc with hc | ⟨_, hc⟩ <;> cases hc

theorem recv (h : Hist as o) {ev : Option (Except TrackerError Frame)}
    (hr : o.recv = some (ev, o')) : Hist as o' := by
  rcases recv_cases hr with ⟨res, q, hq, -, rfl⟩ | ⟨-, -, -, rfl⟩
  · have hmem : ∀ x ∈ q, x ∈ o.ch.queue := fun x hx => by
      rw [hq]
      exact List.mem_cons_of_mem _ hx
    refine { h with eof := fun he => ?_, error := fun e he => h.error e (hmem _ he) }
    obtain ⟨hpc, hu, hc, hno, hne⟩ := h.eof he
    exact ⟨hpc, hu, hc, fun e he => hno e (hmem _ he), hne⟩
  · exact h

theorem dropRx (h : Hist as o) : Hist as o.dropRx := by
  refine { h with eof := fun he => ?_, error := fun e he => by cases he }
  obtain ⟨hpc, hu, hc, -, hne⟩ := h.eof he
  exact ⟨hpc, hu, hc, fun _ => List.not_mem_nil, hne⟩

end Hist

end Output

end JobRunner
