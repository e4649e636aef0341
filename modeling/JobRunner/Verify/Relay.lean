import JobRunner.Broadcaster

/-!
# One relay and its client

`Relay.seen` is everything that has reached a relay, in the order in which the client gets it: what
the client has, then the four places where an event can wait. No step of the relay or of the
client reorders it (`Flow.step`).

`Relay.Inv` counts the handles on the relay's channels. The task holds a `bcast_tx` of its own, so
its `frame_rx.recv()` never sees the end of the channel: the drain phase is not reached, and the
task ends only after its client has dropped the receiver.
-/

namespace JobRunner

open Mpsc

namespace Relay

/-- What has reached the relay: at the client, on its way to the client, in the `to_send` slot, in
the relay's buffer, and on its way from the broadcaster. -/
def seen (r : Relay) : List FrameEvent :=
  r.got ++ r.clientCh.queue ++ r.toSend.toList ++ r.frames ++ r.bcastCh.queue

section LoopTop

variable (r : Relay)

theorem loopTop_cases :
    (∃ ev rest, r.toSend = none ∧ r.frames = ev :: rest ∧
      r.loopTop = { r with toSend := some ev, frames := rest }) ∨
    ((r.toSend = none → r.frames = []) ∧ r.loopTop = r) := by
  unfold loopTop
  split
  · next ev rest hto hfr => exact .inl ⟨ev, rest, hto, hfr, rfl⟩
  · next hnot =>
    refine .inr ⟨fun hto => ?_, rfl⟩
    cases hfr : r.frames with
    | nil => rfl
    | cons ev rest => exact (hnot ev rest hto hfr).elim

@[simp] theorem loopTop_pc : r.loopTop.pc = r.pc := by
  rcases r.loopTop_cases with ⟨_, _, -, -, h⟩ | ⟨-, h⟩ <;> rw [h]

@[simp] theorem loopTop_bcastCh : r.loopTop.bcastCh = r.bcastCh := by
  rcases r.loopTop_cases with ⟨_, _, -, -, h⟩ | ⟨-, h⟩ <;> rw [h]

@[simp] theorem loopTop_clientCh : r.loopTop.clientCh = r.clientCh := by
  rcases r.loopTop_cases with ⟨_, _, -, -, h⟩ | ⟨-, h⟩ <;> rw [h]

@[simp] theorem loopTop_got : r.loopTop.got = r.got := by
  rcases r.loopTop_cases with ⟨_, _, -, -, h⟩ | ⟨-, h⟩ <;> rw [h]

/-- Moving the head of the buffer to the `to_send` slot keeps the order. -/
@[simp] theorem seen_loopTop : r.loopTop.seen = r.seen := by
  rcases r.loopTop_cases with ⟨ev, rest, hto, hfr, h⟩ | ⟨-, h⟩
  · simp [seen, h, hto, hfr]
  · rw [h]

theorem loopTop_popped (h : r.loopTop.toSend = none) : r.loopTop.frames = [] := by
  rcases r.loopTop_cases with ⟨ev, rest, -, -, he⟩ | ⟨hp, he⟩
  · rw [he] at h
    cases h
  · rw [he] at h ⊢
    exact hp h

end LoopTop

@[simp] theorem seen_start (frames : List FrameEvent) : (start frames).seen = frames := by
  rw [start, seen_loopTop]
  simp [seen]

/-! ## What a step does -/

section Steps

variable {r r' : Relay}

theorem step_recv (h : r.step .recv = some r') :
    r.pc = .loop ∧
    ((∃ ev q, r.bcastCh.queue = ev :: q ∧
        r' = loopTop { r with
          frames := r.frames ++ [ev], bcastCh := { r.bcastCh with queue := q } }) ∨
      (r.bcastCh.queue = [] ∧ r.bcastCh.senders = 0 ∧ r' = { r with pc := .drain })) := by
  simp only [step, Option.ite_none_right_eq_some] at h
  obtain ⟨hpc, h⟩ := h
  refine ⟨hpc, ?_⟩
  cases hrecv : r.bcastCh.recv with
  | none => simp [hrecv] at h
  | some p =>
    obtain ⟨o, ch⟩ := p
    rcases Chan.recv_eq_some_iff.1 hrecv with ⟨ev, q, hq, rfl, rfl⟩ | ⟨hq, hs, rfl, rfl⟩
    · exact .inl ⟨ev, q, hq, by simpa [hrecv] using h.symm⟩
    · exact .inr ⟨hq, hs, by simpa [hrecv] using h.symm⟩

theorem step_send (h : r.step .send = some r') :
    r.pc = .loop ∧ ∃ ev, r.toSend = some ev ∧
    ((r.clientCh.rxOpen = true ∧ r.clientCh.queue.length < r.clientCh.cap ∧
        r' = loopTop { r with clientCh := r.clientCh.push ev, toSend := none }) ∨
      (r.clientCh.rxOpen = false ∧ r' = r.finish)) := by
  simp only [step] at h
  split at h
  · next ev hpc hto =>
    refine ⟨hpc, ev, hto, ?_⟩
    cases hsend : r.clientCh.send ev with
    | none => simp [hsend] at h
    | some p =>
      obtain ⟨ok, ch⟩ := p
      rcases Chan.send_eq_some_iff.1 hsend with ⟨rfl, ho, hl, rfl⟩ | ⟨rfl, ho, rfl⟩
      · exact .inl ⟨ho, hl, by simpa [hsend] using h.symm⟩
      · exact .inr ⟨ho, by simpa [hsend] using h.symm⟩
  · cases h

theorem step_drain (h : r.step .drain = some r') : r.pc = .drain := by
  simp only [step, Option.ite_none_right_eq_some] at h
  exact h.1

theorem clientRecv_cases {o : Option FrameEvent} (h : r.clientRecv = some (o, r')) :
    r.clientCh.rxOpen = true ∧
    ((∃ ev q, o = some ev ∧ r.clientCh.queue = ev :: q ∧
        r' = { r with clientCh := { r.clientCh with queue := q }, got := r.got ++ [ev] }) ∨
      (o = none ∧ r.clientCh.queue = [] ∧ r.clientCh.senders = 0 ∧
        r' = { r with ended := true })) := by
  simp only [clientRecv, Option.ite_none_right_eq_some] at h
  obtain ⟨ho, h⟩ := h
  refine ⟨ho, ?_⟩
  cases hrecv : r.clientCh.recv with
  | none => simp [hrecv] at h
  | some p =>
    obtain ⟨o', ch⟩ := p
    rcases Chan.recv_eq_some_iff.1 hrecv with ⟨ev, q, hq, rfl, rfl⟩ | ⟨hq, hs, rfl, rfl⟩
    · simp only [hrecv, Option.some.injEq, Prod.mk.injEq] at h
      exact .inl ⟨ev, q, h.1.symm, hq, h.2.symm⟩
    · simp only [hrecv, Option.some.injEq, Prod.mk.injEq] at h
      exact .inr ⟨h.1.symm, hq, hs, h.2.symm⟩

theorem step_clientRecv (h : r.step .clientRecv = some r') :
    ∃ o, r.clientRecv = some (o, r') := by
  simp only [step, Option.map_eq_some_iff] at h
  obtain ⟨⟨o, r₁⟩, h, rfl⟩ := h
  exact ⟨o, h⟩

theorem step_clientDrop (h : r.step .clientDrop = some r') :
    r.clientCh.rxOpen = true ∧ r' = r.clientDrop := by
  simp only [step, Option.ite_none_right_eq_some, Option.some.injEq] at h
  exact ⟨h.1, h.2.symm⟩

end Steps

/-! ## Handles -/

/-- The handles on a relay's channels; `reg` says whether the broadcaster still has its own. -/
structure Inv (reg : Bool) (r : Relay) : Prop where
  handles : r.bcastCh.senders = reg.toNat + if r.pc = .done then 0 else 1
  rxOpen : r.pc ≠ .done → r.bcastCh.rxOpen = true
  clientTx : r.clientCh.senders = if r.pc = .done then 0 else 1
  notDrain : r.pc ≠ .drain
  dropped : r.pc = .done → r.clientCh.rxOpen = false
  popped : r.toSend = none → r.frames = []
  bcastCap : r.bcastCh.cap = 1024
  clientCap : r.clientCh.cap = 1024

namespace Inv

variable {reg : Bool} {r r' : Relay}

theorem start (frames : List FrameEvent) : Inv true (Relay.start frames) where
  handles := by simp [Relay.start]
  rxOpen := by simp [Relay.start]
  clientTx := by simp [Relay.start]
  notDrain := by simp [Relay.start]
  dropped := by simp [Relay.start]
  popped := loopTop_popped _
  bcastCap := by simp [Relay.start]
  clientCap := by simp [Relay.start]

theorem dropHandle (h : Inv true r) : Inv false r.dropHandle := by
  have hh : r.bcastCh.senders = 1 + if r.pc = .done then 0 else 1 := h.handles
  refine { h with handles := ?_ }
  change r.bcastCh.senders - 1 = 0 + if r.pc = .done then 0 else 1
  omega

theorem step (h : Inv reg r) {a : Act} (hs : r.step a = some r') : Inv reg r' := by
  cases a with
  | recv =>
    obtain ⟨hpc, ⟨ev, q, hq, rfl⟩ | ⟨hq, hz, rfl⟩⟩ := step_recv hs
    · constructor
      · simpa using h.handles
      · simpa using h.rxOpen
      · simpa using h.clientTx
      · simpa using h.notDrain
      · simpa using h.dropped
      · exact loopTop_popped _
      · simpa using h.bcastCap
      · simpa using h.clientCap
    · -- the task's own handle keeps the channel open
      have hh := h.handles
      simp [hz, hpc] at hh
  | send =>
    obtain ⟨hpc, ev, hto, ⟨ho, hl, rfl⟩ | ⟨ho, rfl⟩⟩ := step_send hs
    · constructor
      · simpa using h.handles
      · simpa using h.rxOpen
      · simpa using h.clientTx
      · simpa using h.notDrain
      · simpa using h.dropped
      · exact loopTop_popped _
      · simpa using h.bcastCap
      · simpa using h.clientCap
    · have hh := h.handles
      have ht := h.clientTx
      simp only [hpc, reduceCtorEq, if_false] at hh ht
      constructor
      · simp [finish, hh]
      · simp [finish]
      · simp [finish, ht]
      · simp [finish]
      · simpa [finish] using ho
      · simp [finish]
      · simpa [finish] using h.bcastCap
      · simpa [finish] using h.clientCap
  | drain => exact (h.notDrain (step_drain hs)).elim
  | clientRecv =>
    obtain ⟨o, hr⟩ := step_clientRecv hs
    obtain ⟨ho, ⟨ev, q, -, hq, rfl⟩ | ⟨-, hq, hz, rfl⟩⟩ := clientRecv_cases hr
    · exact { h with }
    · exact { h with }
  | clientDrop =>
    obtain ⟨ho, rfl⟩ := step_clientDrop hs
    exact { h with dropped := fun _ => rfl }

/-- A relay whose client listens is still in its loop. -/
theorem pc_of_open (h : Inv reg r) (ho : r.clientCh.rxOpen = true) : r.pc = .loop := by
  cases hpc : r.pc with
  | loop => rfl
  | drain => exact (h.notDrain hpc).elim
  | done =>
    rw [h.dropped hpc] at ho
    cases ho

end Inv

/-! ## Order -/

/-- What a relay has seen, against the history `h` of the broadcaster. -/
structure Flow (reg : Bool) (h : List FrameEvent) (r : Relay) : Prop where
  got : r.got <+: h
  seen : r.clientCh.rxOpen = true → r.seen <+: h
  whole : r.clientCh.rxOpen = true → reg = true → r.seen = h

namespace Flow

variable {reg : Bool} {h : List FrameEvent} {r r' : Relay}

theorem start (frames : List FrameEvent) : Flow true frames (Relay.start frames) := by
  refine ⟨?_, fun _ => ?_, fun _ _ => seen_start frames⟩
  · rw [Relay.start, loopTop_got]
    exact List.nil_prefix
  · exact ⟨[], by rw [seen_start, List.append_nil]⟩

theorem dropHandle (hf : Flow reg h r) : Flow false h r.dropHandle :=
  ⟨hf.got, hf.seen, fun _ hr => by cases hr⟩

/-- The client's part is a prefix of whatever the whole is a prefix of. -/
theorem got_of_seen (hs : r.seen <+: h) : r.got <+: h := by
  refine List.IsPrefix.trans ?_ hs
  simp only [Relay.seen, List.append_assoc]
  exact List.prefix_append _ _

theorem of_seen_eq (hf : Flow reg h r) (hopen : r'.clientCh.rxOpen = r.clientCh.rxOpen)
    (hseen : r'.seen = r.seen) (hgot : r.clientCh.rxOpen = false → r'.got = r.got) :
    Flow reg h r' := by
  refine ⟨?_, fun ho => ?_, fun ho hr => ?_⟩
  · cases ho : r.clientCh.rxOpen with
    | true => exact got_of_seen (hseen ▸ hf.seen ho)
    | false =>
      rw [hgot ho]
      exact hf.got
  · rw [hseen]
    exact hf.seen (hopen ▸ ho)
  · rw [hseen]
    exact hf.whole (hopen ▸ ho) hr

/-- No step of a relay or of its client loses, duplicates or reorders an event. -/
theorem step {reg' : Bool} (hi : Inv reg' r) (hf : Flow reg h r) {a : Act}
    (hs : r.step a = some r') : Flow reg h r' := by
  cases a with
  | recv =>
    obtain ⟨hpc, ⟨ev, q, hq, rfl⟩ | ⟨hq, hz, rfl⟩⟩ := step_recv hs
    · refine hf.of_seen_eq (by simp) ?_ (fun _ => by simp)
      rw [seen_loopTop]
      simp [Relay.seen, hq]
    · exact ⟨hf.got, hf.seen, hf.whole⟩
  | send =>
    obtain ⟨hpc, ev, hto, ⟨ho, hl, rfl⟩ | ⟨ho, rfl⟩⟩ := step_send hs
    · refine hf.of_seen_eq (by simp) ?_ (fun _ => by simp)
      rw [seen_loopTop]
      simp [Relay.seen, hto]
    · -- the client is gone
      have hc : r.finish.clientCh.rxOpen = false := ho
      refine ⟨hf.got, fun hc' => ?_, fun hc' => ?_⟩ <;> rw [hc] at hc' <;> cases hc'
  | drain => exact (hi.notDrain (step_drain hs)).elim
  | clientRecv =>
    obtain ⟨o, hr⟩ := step_clientRecv hs
    obtain ⟨ho, ⟨ev, q, -, hq, rfl⟩ | ⟨-, hq, hz, rfl⟩⟩ := clientRecv_cases hr
    · refine hf.of_seen_eq rfl ?_ (fun hc => by rw [ho] at hc; cases hc)
      simp [Relay.seen, hq]
    · exact ⟨hf.got, hf.seen, hf.whole⟩
  | clientDrop =>
    obtain ⟨ho, rfl⟩ := step_clientDrop hs
    exact ⟨hf.got, (fun hc => by cases hc), (fun hc => by cases hc)⟩

end Flow

/-- While the client listens, what the relay has seen only grows by what it is offered. -/
theorem seen_step {reg : Bool} {r r' : Relay} (hi : Inv reg r) {a : Act} (hs : r.step a = some r')
    (ho : r'.clientCh.rxOpen = true) : r'.seen = r.seen := by
  have hf : Flow true r.seen r :=
    ⟨Flow.got_of_seen List.prefix_rfl, fun _ => List.prefix_rfl, fun _ _ => rfl⟩
  exact (hf.step hi hs).whole ho rfl

/-- The backlog from the broadcaster only shrinks, and a receiver that is open was open. -/
theorem step_backlog {reg : Bool} {r r' : Relay} (hi : Inv reg r) {a : Act}
    (hs : r.step a = some r') :
    r'.bcastCh.queue.length ≤ r.bcastCh.queue.length ∧
    (r'.clientCh.rxOpen = true → r.clientCh.rxOpen = true) := by
  cases a with
  | recv =>
    obtain ⟨-, ⟨ev, q, hq, rfl⟩ | ⟨-, -, rfl⟩⟩ := step_recv hs
    · simp [hq]
    · exact ⟨Nat.le_refl _, id⟩
  | send =>
    obtain ⟨-, ev, -, ⟨-, -, rfl⟩ | ⟨ho, rfl⟩⟩ := step_send hs
    · simp
    · exact ⟨Nat.zero_le _, id⟩
  | drain => exact (hi.notDrain (step_drain hs)).elim
  | clientRecv =>
    obtain ⟨o, hr⟩ := step_clientRecv hs
    obtain ⟨ho, ⟨ev, q, -, -, rfl⟩ | ⟨-, -, -, rfl⟩⟩ := clientRecv_cases hr
    · exact ⟨Nat.le_refl _, id⟩
    · exact ⟨Nat.le_refl _, id⟩
  | clientDrop =>
    obtain ⟨ho, rfl⟩ := step_clientDrop hs
    exact ⟨Nat.le_refl _, fun _ => ho⟩

/-! ## An event offered by the broadcaster -/

theorem accept_cases (r : Relay) (ev : FrameEvent) :
    (r.bcastCh.rxOpen = true ∧ r.bcastCh.queue.length < r.bcastCh.cap ∧
      r.accept ev = (true, { r with bcastCh := r.bcastCh.push ev })) ∨
    ((r.bcastCh.rxOpen = false ∨ r.bcastCh.cap ≤ r.bcastCh.queue.length) ∧
      r.accept ev = (false, r)) := by
  unfold accept
  cases ho : r.bcastCh.rxOpen with
  | false => exact .inr ⟨.inl rfl, by simp [Chan.trySend, ho]⟩
  | true =>
    by_cases hl : r.bcastCh.queue.length < r.bcastCh.cap
    · exact .inl ⟨rfl, hl, by simp [Chan.trySend, ho, hl]⟩
    · exact .inr ⟨.inr (Nat.le_of_not_lt hl), by simp [Chan.trySend, ho, hl]⟩

/-- An accepted event joins the end of what the relay has seen. -/
theorem accepted {h : List FrameEvent} {r : Relay} (hi : Inv true r) (hf : Flow true h r)
    (ev : FrameEvent) :
    Inv true { r with bcastCh := r.bcastCh.push ev } ∧
    Flow true (h ++ [ev]) { r with bcastCh := r.bcastCh.push ev } := by
  have hseen : r.clientCh.rxOpen = true →
      { r with bcastCh := r.bcastCh.push ev }.seen = h ++ [ev] := by
    intro ho
    have hw := hf.whole ho rfl
    simp only [seen, Chan.push_queue] at hw ⊢
    rw [← List.append_assoc, hw]
  refine ⟨{ hi with }, ?_, fun ho => ?_, fun ho _ => hseen ho⟩
  · exact hf.got.trans (List.prefix_append _ _)
  · exact ⟨[], by rw [hseen ho, List.append_nil]⟩

/-- A relay that is not offered an event, or refuses it, falls behind the history. -/
theorem Flow.grow {reg : Bool} {h : List FrameEvent} {r : Relay} (hf : Flow reg h r)
    (ev : FrameEvent) : Flow false (h ++ [ev]) r :=
  ⟨hf.got.trans (List.prefix_append _ _), fun ho => (hf.seen ho).trans (List.prefix_append _ _),
    fun _ hr => by cases hr⟩

end Relay

end JobRunner
