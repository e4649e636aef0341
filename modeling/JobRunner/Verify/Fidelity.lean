import JobRunner.Logs
import JobRunner.Verify.Bytes

/-!
# Log streams end to end

A forwarder turns the events it takes from its relay into log frames one by one, so what its
client has received is the beginning of what the child has written (`Forwarder.Inv`); and a stream
that ends without an error status has ended at `EOF`, with everything delivered.
-/

namespace JobRunner

open Mpsc

/-- The log frames of a sequence of events. -/
def frameItems (evs : List FrameEvent) : List FrameResult :=
  evs.filterMap fun ev =>
    match ev with
    | .frame frame => some (.ok frame.toLogFrame)
    | _ => none

/-- The bytes of one stream in what a gRPC client has received. -/
def logBytes (k : StreamKind) (items : List FrameResult) : List UInt8 :=
  items.flatMap fun item =>
    match item with
    | .ok frame => if frame.kind = k.toLogFrameKind then frame.bs else []
    | .error _ => []

@[simp] theorem frameItems_append (as bs : List FrameEvent) :
    frameItems (as ++ bs) = frameItems as ++ frameItems bs :=
  List.filterMap_append

@[simp] theorem logBytes_append (k : StreamKind) (as bs : List FrameResult) :
    logBytes k (as ++ bs) = logBytes k as ++ logBytes k bs :=
  List.flatMap_append

theorem logBytes_mono {k : StreamKind} {as bs : List FrameResult} (h : as <+: bs) :
    logBytes k as <+: logBytes k bs := by
  obtain ⟨t, rfl⟩ := h
  rw [logBytes_append]
  exact List.prefix_append _ _

/-- The log frames carry the bytes of the events. -/
theorem logBytes_frameItems (k : StreamKind) (evs : List FrameEvent) :
    logBytes k (frameItems evs) = FrameEvent.streamBytes k evs := by
  induction evs with
  | nil => rfl
  | cons ev evs ih =>
    have hone : logBytes k (frameItems [ev]) = ev.bytes k := by
      cases ev with
      | frame f =>
        have hk : f.toLogFrame.kind = k.toLogFrameKind ↔ f.kind = k :=
          StreamKind.toLogFrameKind_inj
        by_cases hf : f.kind = k
        · simp [frameItems, logBytes, FrameEvent.bytes, hf, Frame.toLogFrame]
        · simp [frameItems, logBytes, FrameEvent.bytes, hf, hk]
      | error e => rfl
      | eof => rfl
    rw [← List.singleton_append, frameItems_append, logBytes_append, hone, ih,
      FrameEvent.streamBytes_append]
    simp

/-- The item of the pending send. -/
def FwdPc.item : FwdPc → List FrameResult
  | .send item _ => [item]
  | _ => []

/-- The loop goes on after what it is doing. -/
def FwdPc.goesOn : FwdPc → Bool
  | .recv => true
  | .send _ last => !last
  | .done => false

namespace Forwarder

/-- Everything the forwarder has made of its events. -/
def made (f : Forwarder) : List FrameResult := f.got ++ f.ch.queue ++ f.pc.item

/-- A forwarder against the relay whose events it takes. -/
structure Inv (f : Forwarder) (r : Relay) : Prop where
  senders : f.ch.senders = if f.pc = .done then 0 else 1
  relayOpen : f.pc ≠ .done → r.clientCh.rxOpen = true
  part : ∀ k, logBytes k f.got <+: FrameEvent.streamBytes k r.got
  items : f.ch.rxOpen = true →
    (f.made = frameItems r.got ∧ (f.pc.goesOn = true ∨ f.pc = .done ∧ .eof ∈ r.got)) ∨
    (f.pc.goesOn = false ∧ ∃ st, f.made = frameItems r.got ++ [.error st])
  final : f.ended = true → f.pc = .done ∧ f.ch.queue = [] ∧
    ((f.got = frameItems r.got ∧ .eof ∈ r.got) ∨ ∃ st, .error st ∈ f.got)

namespace Inv

variable {f f' : Forwarder} {r r' : Relay}

theorem start (hgot : r.got = []) (ho : r.clientCh.rxOpen = true) : Inv Forwarder.start r where
  senders := rfl
  relayOpen _ := ho
  part k := List.nil_prefix
  items _ := .inl ⟨by rw [hgot]; rfl, .inl rfl⟩
  final h := by cases h

/-- The relay moves on without handing anything over. -/
theorem relay (h : Inv f r) (hgot : r'.got = r.got)
    (ho : r'.clientCh.rxOpen = r.clientCh.rxOpen) : Inv f r' where
  senders := h.senders
  relayOpen hpc := ho.trans (h.relayOpen hpc)
  part := by rw [hgot]; exact h.part
  items := by rw [hgot]; exact h.items
  final := by rw [hgot]; exact h.final

/-- Waiting for an event, the loop has passed on everything it was given. -/
theorem made_of_recv (h : Inv f r) (hpc : f.pc = .recv) (hrx : f.ch.rxOpen = true) :
    f.got ++ f.ch.queue = frameItems r.got := by
  have hmade : f.made = frameItems r.got := by
    rcases h.items hrx with ⟨hm, -⟩ | ⟨hgo, -⟩
    · exact hm
    · rw [hpc] at hgo
      cases hgo
  rw [← hmade, made, hpc]
  exact (List.append_nil _).symm

theorem not_ended (h : Inv f r) (hpc : f.pc ≠ .done) : f.ended = false := by
  cases hend : f.ended with
  | false => rfl
  | true => exact (hpc (h.final hend).1).elim

/-- The loop goes on to the send of a frame or of an error. -/
theorem event (h : Inv f r) (hpc : f.pc = .recv) {ev : FrameEvent} (hgot : r'.got = r.got ++ [ev])
    (ho : r'.clientCh.rxOpen = true) (hev : ev ≠ .eof) :
    Inv { f with pc := onEvent (some ev) } r' := by
  have hne : onEvent (some ev) ≠ .done := by
    cases ev with
    | frame f => simp [onEvent]
    | error e => simp [onEvent]
    | eof => exact (hev rfl).elim
  have hend : f.ended = false := h.not_ended (by simp [hpc])
  constructor
  · simpa [hne, hpc] using h.senders
  · exact fun _ => ho
  · intro k
    rw [hgot, FrameEvent.streamBytes_append]
    exact (h.part k).trans (List.prefix_append _ _)
  · intro hrx
    have hold := h.made_of_recv hpc hrx
    rw [hgot, frameItems_append, ← hold]
    cases ev with
    | frame fr => exact .inl ⟨rfl, .inl rfl⟩
    | error e =>
      refine .inr ⟨rfl, .internal ("log stream failed: " ++ e.display), ?_⟩
      simp [made, onEvent, FwdPc.item, frameItems]
    | eof => exact (hev rfl).elim
  · intro hend'
    exact absurd (hend.symm.trans hend') Bool.false_ne_true

/-- At `EOF` the loop ends, and so does the task. -/
theorem eof (h : Inv f r) (hpc : f.pc = .recv) (hgot : r'.got = r.got ++ [.eof]) :
    Inv f.finish r' := by
  have hend : f.ended = false := h.not_ended (by simp [hpc])
  have hs : f.ch.senders = 1 := by simpa [hpc] using h.senders
  constructor
  · simp [finish, hs]
  · exact fun hne => (hne rfl).elim
  · intro k
    rw [hgot, FrameEvent.streamBytes_append]
    exact (h.part k).trans (List.prefix_append _ _)
  · intro hrx
    refine .inl ⟨?_, .inr ⟨rfl, by simp [hgot]⟩⟩
    rw [hgot, frameItems_append, ← h.made_of_recv hpc hrx]
    rfl
  · intro hend'
    exact absurd (hend.symm.trans hend') Bool.false_ne_true

/-- The events have ended without a terminal one. -/
theorem noEvent (h : Inv f r) (hpc : f.pc = .recv) (hgot : r'.got = r.got)
    (ho : r'.clientCh.rxOpen = true) : Inv { f with pc := onEvent none } r' := by
  have hend : f.ended = false := h.not_ended (by simp [hpc])
  constructor
  · simpa [onEvent, hpc] using h.senders
  · exact fun _ => ho
  · rw [hgot]
    exact h.part
  · intro hrx
    refine .inr ⟨rfl, .internal "log stream terminated unexpectedly", ?_⟩
    rw [hgot, ← h.made_of_recv hpc hrx]
    rfl
  · intro hend'
    exact absurd (hend.symm.trans hend') Bool.false_ne_true

/-- The item of a send is in the channel, and the loop goes on. -/
theorem sent (h : Inv f r) {item : FrameResult} (hpc : f.pc = .send item false) :
    Inv { f with pc := .recv, ch := f.ch.push item } r := by
  have hend : f.ended = false := h.not_ended (by simp [hpc])
  constructor
  · simpa [hpc] using h.senders
  · exact fun _ => h.relayOpen (by simp [hpc])
  · exact h.part
  · intro hrx
    rcases h.items hrx with ⟨hm, -⟩ | ⟨hgo, -⟩
    · refine .inl ⟨?_, .inl rfl⟩
      rw [← hm]
      simp [made, hpc, FwdPc.item]
    · rw [hpc] at hgo
      cases hgo
  · intro hend'
    exact absurd (hend.symm.trans hend') Bool.false_ne_true

/-- The last item of a stream that fails is in the channel, and the task has ended. -/
theorem sentLast (h : Inv f r) {item : FrameResult} (hpc : f.pc = .send item true)
    (hgot : r'.got = r.got) : Inv { f with ch := f.ch.push item }.finish r' := by
  have hend : f.ended = false := h.not_ended (by simp [hpc])
  have hs : f.ch.senders = 1 := by simpa [hpc] using h.senders
  constructor
  · simp [finish, hs]
  · exact fun hne => (hne rfl).elim
  · rw [hgot]
    exact h.part
  · intro hrx
    rcases h.items hrx with ⟨-, hgo | ⟨hdone, -⟩⟩ | ⟨-, st, hm⟩
    · rw [hpc] at hgo
      cases hgo
    · rw [hpc] at hdone
      cases hdone
    · refine .inr ⟨rfl, st, ?_⟩
      rw [hgot, ← hm]
      simp [made, finish, hpc, FwdPc.item]
  · intro hend'
    exact absurd (hend.symm.trans hend') Bool.false_ne_true

/-- The client is gone, and the task ends. -/
theorem unsent (h : Inv f r) (hpc : f.pc ≠ .done) (hrx : f.ch.rxOpen = false)
    (hgot : r'.got = r.got) : Inv f.finish r' := by
  have hend : f.ended = false := h.not_ended hpc
  have hs : f.ch.senders = 1 := by simpa [hpc] using h.senders
  constructor
  · simp [finish, hs]
  · exact fun hne => (hne rfl).elim
  · rw [hgot]
    exact h.part
  · intro hrx'
    exact absurd (hrx.symm.trans hrx') Bool.false_ne_true
  · intro hend'
    exact absurd (hend.symm.trans hend') Bool.false_ne_true

/-- The forwarder's items carry the bytes of the events it was given. -/
theorem logBytes_made (h : Inv f r) (hrx : f.ch.rxOpen = true) (k : StreamKind) :
    logBytes k f.made = FrameEvent.streamBytes k r.got := by
  rcases h.items hrx with ⟨hm, -⟩ | ⟨-, st, hm⟩
  · rw [hm, logBytes_frameItems]
  · rw [hm, logBytes_append, logBytes_frameItems]
    exact List.append_nil _

/-- The client reads an item of the stream. -/
theorem clientItem (h : Inv f r) (hrx : f.ch.rxOpen = true) {item : FrameResult}
    {q : List FrameResult} (hq : f.ch.queue = item :: q) :
    Inv { f with ch := { f.ch with queue := q }, got := f.got ++ [item] } r := by
  have hmade : made { f with ch := { f.ch with queue := q }, got := f.got ++ [item] } = f.made := by
    simp [made, hq]
  constructor
  · exact h.senders
  · exact h.relayOpen
  · intro k
    rw [← h.logBytes_made hrx k]
    apply logBytes_mono
    rw [made, hq, List.append_cons f.got item q, List.append_assoc]
    exact List.prefix_append _ _
  · intro hrx
    rw [hmade]
    exact h.items hrx
  · intro hend
    obtain ⟨-, hempty, -⟩ := h.final hend
    rw [hq] at hempty
    cases hempty

/-- The client is told that the stream has ended. -/
theorem clientEnd (h : Inv f r) (hrx : f.ch.rxOpen = true) (hq : f.ch.queue = [])
    (hz : f.ch.senders = 0) : Inv { f with ended := true } r := by
  have hpc : f.pc = .done := by
    have hs := h.senders
    rw [hz] at hs
    by_contra hne
    rw [if_neg hne] at hs
    cases hs
  have hmade : f.made = f.got := by
    rw [made, hq, hpc, List.append_nil]
    exact List.append_nil _
  refine { h with final := fun _ => ⟨hpc, hq, ?_⟩ }
  rcases h.items hrx with ⟨hm, hgo | ⟨-, heof⟩⟩ | ⟨-, st, hm⟩
  · rw [hpc] at hgo
    cases hgo
  · exact .inl ⟨hmade ▸ hm, heof⟩
  · have hst : Except.error st ∈ f.made := by
      rw [hm]
      exact List.mem_append_right _ (List.mem_singleton_self _)
    rw [hmade] at hst
    exact .inr ⟨st, hst⟩

theorem clientRecv (h : Inv f r) (hs : f.clientRecv = some f') : Inv f' r := by
  simp only [Forwarder.clientRecv, Option.ite_none_right_eq_some] at hs
  obtain ⟨ho, hs⟩ := hs
  cases hrecv : f.ch.recv with
  | none => simp [hrecv] at hs
  | some p =>
    obtain ⟨o, ch⟩ := p
    rcases Chan.recv_eq_some_iff.1 hrecv with ⟨item, q, hq, rfl, rfl⟩ | ⟨hq, hz, rfl, rfl⟩
    · obtain rfl : { f with ch := { f.ch with queue := q }, got := f.got ++ [item] } = f' := by
        simpa [hrecv] using hs
      exact h.clientItem ho hq
    · obtain rfl : { f with ended := true } = f' := by simpa [hrecv] using hs
      exact h.clientEnd ho hq hz

theorem clientDrop (h : Inv f r) (hs : f.clientDrop = some f') : Inv f' r := by
  simp only [Forwarder.clientDrop, Option.ite_none_right_eq_some, Option.some.injEq] at hs
  obtain ⟨-, rfl⟩ := hs
  refine { h with items := (fun hrx => by cases hrx), final := fun hend => ?_ }
  obtain ⟨hpc, -, hfin⟩ := h.final hend
  exact ⟨hpc, rfl, hfin⟩

end Inv

end Forwarder

/-! ## Relays between the reads of their clients -/

/-- A step of the relay's task is nothing its client sees. -/
theorem Relay.got_of_step {reg : Bool} {r r' : Relay} (hi : Relay.Inv reg r) {b : Relay.Act}
    (hs : r.step b = some r') (hrecv : b ≠ .clientRecv) (hdrop : b ≠ .clientDrop) :
    r'.got = r.got ∧ r'.clientCh.rxOpen = r.clientCh.rxOpen := by
  cases b with
  | recv =>
    obtain ⟨-, ⟨ev, q, -, rfl⟩ | ⟨-, -, rfl⟩⟩ := Relay.step_recv hs
    · exact ⟨Relay.loopTop_got _, by rw [Relay.loopTop_clientCh]⟩
    · exact ⟨rfl, rfl⟩
  | send =>
    obtain ⟨-, ev, -, ⟨-, -, rfl⟩ | ⟨-, rfl⟩⟩ := Relay.step_send hs
    · exact ⟨Relay.loopTop_got _, by rw [Relay.loopTop_clientCh]; rfl⟩
    · exact ⟨rfl, rfl⟩
  | drain => exact (hi.notDrain (Relay.step_drain hs)).elim
  | clientRecv => exact (hrecv rfl).elim
  | clientDrop => exact (hdrop rfl).elim

/-- The broadcaster starts relays and feeds them; what their clients have is not its business. -/
theorem Broadcaster.got_of_act {s s' : Broadcaster} (h : Broadcaster.Inv s) {a : Broadcaster.Act}
    (hs : s.step a = some s') (i : SubId) (hrecv : a ≠ .relay i .clientRecv)
    (hdrop : a ≠ .relay i .clientDrop) :
    (∀ r, s.subs i = .live r → ∃ r', s'.subs i = .live r' ∧ r'.got = r.got ∧
      r'.clientCh.rxOpen = r.clientCh.rxOpen) ∧
    (∀ r', s'.subs i = .live r' → (∃ r, s.subs i = .live r) ∨ r'.got = []) := by
  by_cases hframe : a = .frame
  · subst hframe
    have hsub : s'.subs i = s.subs i ∨ (∃ ev, s'.subs i = ((s.subs i).offer ev).2) ∨
        s'.subs i = (s.subs i).dropHandle := by
      obtain ⟨-, ⟨ev, q, -, rfl⟩ | ⟨-, -, rfl⟩⟩ := Broadcaster.step_frame hs
      · rw [(Broadcaster.onFrame_sub h _ ev i).2]
        split
        · exact .inr (.inl ⟨ev, rfl⟩)
        · exact .inl rfl
      · rw [(Broadcaster.onFrame_end_sub h _ i).2.2.2]
        split
        · exact .inr (.inr rfl)
        · exact .inl rfl
    have hlive : ∀ r, s.subs i = .live r → ∃ r', s'.subs i = .live r' ∧ r'.got = r.got ∧
        r'.clientCh.rxOpen = r.clientCh.rxOpen := by
      intro r hr
      rw [hr] at hsub
      rcases hsub with he | ⟨ev, he⟩ | he
      · exact ⟨r, he, rfl, rfl⟩
      · rcases r.accept_cases ev with ⟨-, -, hacc⟩ | ⟨-, hacc⟩
        · simp only [Sub.offer, hacc] at he
          exact ⟨_, he, rfl, rfl⟩
        · simp only [Sub.offer, hacc] at he
          exact ⟨_, he, rfl, rfl⟩
      · exact ⟨r.dropHandle, he, rfl, rfl⟩
    refine ⟨hlive, fun r' hr' => .inl ?_⟩
    cases hold : s.subs i with
    | live r => exact ⟨r, rfl⟩
    | _ =>
      rw [hold] at hsub
      rcases hsub with he | ⟨ev, he⟩ | he <;> rw [hr'] at he <;> cases he
  by_cases hreq : a = .req i
  · subst hreq
    obtain ⟨-, q, hq, hcase⟩ := Broadcaster.step_req hs
    obtain ⟨waiting, hw⟩ := h.queued i (by rw [hq]; exact List.mem_cons_self)
    refine ⟨fun r hr => (by rw [hw] at hr; cases hr), fun r' hr' => .inr ?_⟩
    rcases hcase with ⟨-, -, rfl⟩ | ⟨-, -, rfl⟩ | ⟨-, rfl⟩
    · obtain rfl : Relay.start s.frames = r' := by simpa using hr'
      exact Relay.loopTop_got _
    · obtain rfl : (Relay.start s.frames).dropHandle = r' := by simpa using hr'
      exact Relay.loopTop_got _
    · simp at hr'
  obtain ⟨-, -, -, hmove⟩ := Broadcaster.move_of_step h (a := .act a) hs
    (fun e => hframe (by injection e)) (fun e => hreq (by injection e))
  generalize hsub : s.subs i = sub at hmove
  generalize hsub' : s'.subs i = sub' at hmove
  cases hmove with
  | same => exact ⟨fun r hr => ⟨r, hr, rfl, rfl⟩, fun r' hr' => .inl ⟨r', hr'⟩⟩
  | idle hn hn' => exact ⟨fun r hr => (hn r hr).elim, fun r' hr' => (hn' r' hr').elim⟩
  | own ha hb =>
    injection ha with ha
    subst ha
    obtain ⟨hinv, -⟩ := h.live hsub
    obtain ⟨hgot, ho⟩ := Relay.got_of_step hinv hb (fun e => hrecv (by rw [e]))
      (fun e => hdrop (by rw [e]))
    refine ⟨fun r hr => ?_, fun r' hr' => .inl ⟨_, rfl⟩⟩
    obtain rfl := Sub.live.inj hr
    exact ⟨_, rfl, hgot, ho⟩

/-- Outside the broadcaster no step touches a subscriber. -/
theorem Pipeline.subs_of_step {p p' : Pipeline} {a : Pipeline.Act} (hs : p.step a = some p')
    (ha : ∀ b, a ≠ .bcast b) : p'.bc.subs = p.bc.subs := by
  cases a with
  | bcast b => exact (ha b rfl).elim
  | output k a =>
    obtain ⟨o, -, rfl⟩ := Pipeline.step_output hs
    rfl
  | recvOutput k =>
    obtain ⟨ev, o, trk, -, -, rfl⟩ := Pipeline.step_recvOutput hs
    rfl
  | send =>
    obtain ⟨ev, ok, ch, trk, -, -, -, rfl⟩ := Pipeline.step_send hs
    rfl
  | recvKill =>
    obtain ⟨req, ch, trk, -, -, rfl⟩ := Pipeline.step_recvKill hs
    rfl
  | killRes res now =>
    obtain ⟨req, trk, -, -, rfl⟩ := Pipeline.step_killRes hs
    rfl
  | exit status now =>
    obtain ⟨trk, -, rfl⟩ := Pipeline.step_exit hs
    rfl
  | setRes =>
    obtain ⟨trk, -, rfl⟩ := Pipeline.step_setRes hs
    rfl
  | kill c a =>
    obtain ⟨call, ch, rfl, -⟩ := Pipeline.step_kill hs
    rfl

theorem Served.got_of_pipe {p p' : Pipeline} (h : p.bc.Inv) {a : Pipeline.Act}
    (ha : Served.ofClient a = false) (hs : p.step a = some p') (i : SubId) :
    (∀ r, p.bc.subs i = .live r → ∃ r', p'.bc.subs i = .live r' ∧ r'.got = r.got ∧
      r'.clientCh.rxOpen = r.clientCh.rxOpen) ∧
    (∀ r', p'.bc.subs i = .live r' → (∃ r, p.bc.subs i = .live r) ∨ r'.got = []) := by
  by_cases hb : ∃ b, a = .bcast b
  · obtain ⟨b, rfl⟩ := hb
    obtain ⟨bc, hbc, rfl⟩ := Pipeline.step_bcast hs
    apply Broadcaster.got_of_act h hbc i
    · rintro rfl
      cases ha
    · rintro rfl
      cases ha
  · have hsub := Pipeline.subs_of_step hs fun b e => hb ⟨b, e⟩
    rw [hsub]
    exact ⟨fun r hr => ⟨r, hr, rfl, rfl⟩, fun r' hr' => .inl ⟨r', hr'⟩⟩

namespace Served

/-! ## What a step does -/

section Steps

variable {s s' : Served}

theorem step_pipe {a : Pipeline.Act} (h : s.step (.pipe a) = some s') :
    ofClient a = false ∧ ∃ pl, s.pl.step a = some pl ∧ s' = { s with pl } := by
  simp only [step] at h
  split at h
  · cases h
  · next hc =>
    obtain ⟨pl, hpl, rfl⟩ := Option.map_eq_some_iff.1 h
    exact ⟨by simpa using hc, pl, hpl, rfl⟩

theorem step_openLogs {i : SubId} (h : s.step (.openLogs i) = some s') :
    ∃ r, s.pl.bc.subs i = .live r ∧ s.fwds i = none ∧ r.clientCh.rxOpen = true ∧
      s' = s.setFwd i Forwarder.start := by
  simp only [step] at h
  split at h
  · next r hr hf =>
    split at h
    · next ho => exact ⟨r, hr, hf, ho, by simpa using h.symm⟩
    · cases h
  · cases h

theorem step_abandon {i : SubId} (h : s.step (.abandon i) = some s') :
    ∃ r, s.pl.bc.subs i = .live r ∧ s.fwds i = none ∧ r.clientCh.rxOpen = true ∧
      s' = s.setRelay i r.clientDrop := by
  simp only [step] at h
  split at h
  · next r hr hf =>
    split at h
    · next ho => exact ⟨r, hr, hf, ho, by simpa using h.symm⟩
    · cases h
  · cases h

theorem step_fwd {i : SubId} {a : Forwarder.Act} (h : s.step (.fwd i a) = some s') :
    ∃ r f, s.pl.bc.subs i = .live r ∧ s.fwds i = some f ∧ s.stepFwd i r f a = some s' := by
  simp only [step] at h
  split at h
  · next r f hr hf => exact ⟨r, f, hr, hf, h⟩
  · cases h

/-- The loop of a forwarder takes an event, or the end of the events. -/
theorem stepFwd_recv {i : SubId} {r : Relay} {f : Forwarder}
    (h : s.stepFwd i r f .recv = some s') :
    f.pc = .recv ∧ r.clientCh.rxOpen = true ∧
    ((∃ ev q, r.clientCh.queue = ev :: q ∧ ev ≠ .eof ∧
        s' = (s.setRelay i
          { r with clientCh := { r.clientCh with queue := q }, got := r.got ++ [ev] }).setFwd i
            { f with pc := Forwarder.onEvent (some ev) }) ∨
      (∃ q, r.clientCh.queue = .eof :: q ∧
        s' = (s.setRelay i (Relay.clientDrop
          { r with clientCh := { r.clientCh with queue := q }, got := r.got ++ [.eof] })
          ).setFwd i f.finish) ∨
      (r.clientCh.queue = [] ∧ r.clientCh.senders = 0 ∧
        s' = (s.setRelay i { r with ended := true }).setFwd i
          { f with pc := Forwarder.onEvent none })) := by
  simp only [stepFwd, Option.ite_none_right_eq_some] at h
  obtain ⟨hpc, h⟩ := h
  cases hrecv : r.clientRecv with
  | none => simp [hrecv] at h
  | some p =>
    obtain ⟨o, r'⟩ := p
    obtain ⟨ho, ⟨ev, q, rfl, hq, rfl⟩ | ⟨rfl, hq, hz, rfl⟩⟩ := Relay.clientRecv_cases hrecv
    · refine ⟨hpc, ho, ?_⟩
      cases ev with
      | frame fr => exact .inl ⟨_, q, hq, by simp, by simpa [hrecv, Forwarder.onEvent] using h.symm⟩
      | error e => exact .inl ⟨_, q, hq, by simp, by simpa [hrecv, Forwarder.onEvent] using h.symm⟩
      | eof => exact .inr (.inl ⟨q, hq, by simpa [hrecv, Forwarder.onEvent] using h.symm⟩)
    · exact ⟨hpc, ho, .inr (.inr ⟨hq, hz, by simpa [hrecv, Forwarder.onEvent] using h.symm⟩)⟩

theorem stepFwd_send {i : SubId} {r : Relay} {f : Forwarder}
    (h : s.stepFwd i r f .send = some s') :
    ∃ item last, f.pc = .send item last ∧
    ((f.ch.rxOpen = true ∧ last = false ∧
        s' = s.setFwd i { f with pc := .recv, ch := f.ch.push item }) ∨
      (f.ch.rxOpen = true ∧ last = true ∧
        s' = (s.setRelay i r.clientDrop).setFwd i { f with ch := f.ch.push item }.finish) ∨
      (f.ch.rxOpen = false ∧ s' = (s.setRelay i r.clientDrop).setFwd i f.finish)) := by
  simp only [stepFwd] at h
  split at h
  · next item last hpc =>
    refine ⟨item, last, hpc, ?_⟩
    cases hsend : f.ch.send item with
    | none => simp [hsend] at h
    | some p =>
      obtain ⟨ok, ch⟩ := p
      rcases Chan.send_eq_some_iff.1 hsend with ⟨rfl, ho, -, rfl⟩ | ⟨rfl, ho, rfl⟩
      · cases last with
        | false => exact .inl ⟨ho, rfl, by simpa [hsend] using h.symm⟩
        | true => exact .inr (.inl ⟨ho, rfl, by simpa [hsend] using h.symm⟩)
      · exact .inr (.inr ⟨ho, by simpa [hsend] using h.symm⟩)
  · cases h

theorem stepFwd_client {i : SubId} {r : Relay} {f : Forwarder} {a : Forwarder.Act}
    (ha : a = .clientRecv ∨ a = .clientDrop) (h : s.stepFwd i r f a = some s') :
    ∃ f', (f.clientRecv = some f' ∨ f.clientDrop = some f') ∧ s' = s.setFwd i f' := by
  rcases ha with rfl | rfl
  · obtain ⟨f', hf, rfl⟩ := Option.map_eq_some_iff.1 h
    exact ⟨f', .inl hf, rfl⟩
  · obtain ⟨f', hf, rfl⟩ := Option.map_eq_some_iff.1 h
    exact ⟨f', .inr hf, rfl⟩

end Steps

/-! ## The invariant -/

/-- A job in a state reachable from `j₀`, and its forwarders against their relays. -/
structure Inv (j₀ : Job) (s : Served) : Prop where
  good : ∃ acts, Pipeline.Good j₀ acts s.pl
  fwd : ∀ i f, s.fwds i = some f → ∃ r, s.pl.bc.subs i = .live r ∧ f.Inv r
  unread : ∀ i r, s.pl.bc.subs i = .live r → s.fwds i = none → r.got = []

namespace Inv

variable {j₀ : Job} {s s' : Served}

theorem start (hend : j₀.endedAt = none) : Inv j₀ (Served.start j₀) where
  good := ⟨[], .start hend⟩
  fwd i f hf := by cases hf
  unread i r hr := by cases hr

/-- A relay moves on. -/
theorem relay_step (hg : ∃ acts, Pipeline.Good j₀ acts s.pl) {i : SubId} {r r' : Relay}
    {b : Relay.Act} (hr : s.pl.bc.subs i = .live r) (hb : r.step b = some r') :
    s.pl.step (.bcast (.relay i b)) = some (s.setRelay i r').pl ∧
    ∃ acts, Pipeline.Good j₀ acts (s.setRelay i r').pl := by
  have hs : s.pl.step (.bcast (.relay i b)) = some (s.setRelay i r').pl := by
    simp [Pipeline.step, Broadcaster.step, hr, hb, setRelay]
  obtain ⟨acts, hg⟩ := hg
  exact ⟨hs, _, hg.step hs⟩

theorem setRelay_idem (s : Served) (i : SubId) (r r' : Relay) :
    (s.setRelay i r).setRelay i r' = s.setRelay i r' := by
  simp [setRelay]

theorem setRelay_self {i : SubId} {r : Relay} (hr : s.pl.bc.subs i = .live r) :
    s.setRelay i r = s := by
  rw [setRelay, ← hr, Function.update_eq_self]

/-- A relay moves on, and then its client drops the receiver. -/
theorem relay_step_drop (hg : ∃ acts, Pipeline.Good j₀ acts s.pl) {i : SubId} {r r' : Relay}
    {b : Relay.Act} (hr : s.pl.bc.subs i = .live r) (hb : r.step b = some r')
    (ho : r'.clientCh.rxOpen = true) :
    Lts.Reachable Pipeline.step s.pl (s.setRelay i r'.clientDrop).pl ∧
    ∃ acts, Pipeline.Good j₀ acts (s.setRelay i r'.clientDrop).pl := by
  obtain ⟨hstep, hgood⟩ := relay_step hg hr hb
  have hr' : (s.setRelay i r').pl.bc.subs i = .live r' := by simp [setRelay]
  have hdrop : r'.step .clientDrop = some r'.clientDrop := by simp [Relay.step, ho]
  obtain ⟨hstep', hgood'⟩ := relay_step hgood hr' hdrop
  rw [setRelay_idem] at hstep' hgood'
  exact ⟨(Lts.Reachable.single hstep).tail hstep', hgood'⟩

/-- Forwarder `i` and its relay take a step together. -/
theorem update (h : Inv j₀ s) {i : SubId} {r : Relay} {f : Forwarder}
    (hgood : ∃ acts, Pipeline.Good j₀ acts (s.setRelay i r).pl) (hf : f.Inv r) :
    Inv j₀ ((s.setRelay i r).setFwd i f) where
  good := hgood
  fwd j g hg := by
    by_cases hj : j = i
    · subst hj
      obtain rfl : f = g := by simpa [setFwd] using hg
      exact ⟨r, by simp [setFwd, setRelay], hf⟩
    · obtain ⟨r', hr', hinv⟩ := h.fwd j g (by simpa [setFwd, setRelay, hj] using hg)
      exact ⟨r', by simpa [setFwd, setRelay, hj] using hr', hinv⟩
  unread j r' hr' hnone := by
    by_cases hj : j = i
    · subst hj
      simp [setFwd] at hnone
    · exact h.unread j r' (by simpa [setFwd, setRelay, hj] using hr')
        (by simpa [setFwd, setRelay, hj] using hnone)

theorem fwd_recv (h : Inv j₀ s) {i : SubId} {r : Relay} {f : Forwarder}
    (hr : s.pl.bc.subs i = .live r) (hinv : f.Inv r) (hs : s.stepFwd i r f .recv = some s') :
    Inv j₀ s' ∧ Lts.Reachable Pipeline.step s.pl s'.pl := by
  obtain ⟨hpc, ho, ⟨ev, q, hq, hev, rfl⟩ | ⟨q, hq, rfl⟩ | ⟨hq, hz, rfl⟩⟩ := stepFwd_recv hs
  · have hb : r.step .clientRecv = some
        { r with clientCh := { r.clientCh with queue := q }, got := r.got ++ [ev] } := by
      simp [Relay.step, Relay.clientRecv, ho, Chan.recv, hq]
    obtain ⟨hstep, hgood⟩ := relay_step h.good hr hb
    exact ⟨h.update hgood (hinv.event hpc rfl ho hev), .single hstep⟩
  · have hb : r.step .clientRecv = some
        { r with clientCh := { r.clientCh with queue := q }, got := r.got ++ [.eof] } := by
      simp [Relay.step, Relay.clientRecv, ho, Chan.recv, hq]
    obtain ⟨hreach, hgood⟩ := relay_step_drop h.good hr hb ho
    exact ⟨h.update hgood (hinv.eof hpc rfl), hreach⟩
  · have hb : r.step .clientRecv = some { r with ended := true } := by
      simp [Relay.step, Relay.clientRecv, ho, Chan.recv, hq, hz]
    obtain ⟨hstep, hgood⟩ := relay_step h.good hr hb
    exact ⟨h.update hgood (hinv.noEvent hpc rfl ho), .single hstep⟩

theorem fwd_send (h : Inv j₀ s) {i : SubId} {r : Relay} {f : Forwarder}
    (hr : s.pl.bc.subs i = .live r) (hinv : f.Inv r) (hs : s.stepFwd i r f .send = some s') :
    Inv j₀ s' ∧ Lts.Reachable Pipeline.step s.pl s'.pl := by
  obtain ⟨item, last, hpc, hcase⟩ := stepFwd_send hs
  have hpc' : f.pc ≠ .done := by simp [hpc]
  have hro : r.clientCh.rxOpen = true := hinv.relayOpen hpc'
  have hdrop : r.step .clientDrop = some r.clientDrop := by simp [Relay.step, hro]
  rcases hcase with ⟨ho, rfl, rfl⟩ | ⟨ho, rfl, rfl⟩ | ⟨ho, rfl⟩
  · have hself := setRelay_self hr
    have hgood : ∃ acts, Pipeline.Good j₀ acts (s.setRelay i r).pl := by
      rw [hself]
      exact h.good
    have hupd := h.update hgood (hinv.sent hpc)
    rw [hself] at hupd
    exact ⟨hupd, .refl _⟩
  · obtain ⟨hstep, hgood⟩ := relay_step h.good hr hdrop
    exact ⟨h.update hgood (hinv.sentLast hpc rfl), .single hstep⟩
  · obtain ⟨hstep, hgood⟩ := relay_step h.good hr hdrop
    exact ⟨h.update hgood (hinv.unsent hpc' ho rfl), .single hstep⟩

theorem fwd_client (h : Inv j₀ s) {i : SubId} {r : Relay} {f : Forwarder} {a : Forwarder.Act}
    (hr : s.pl.bc.subs i = .live r) (hinv : f.Inv r) (ha : a = .clientRecv ∨ a = .clientDrop)
    (hs : s.stepFwd i r f a = some s') :
    Inv j₀ s' ∧ Lts.Reachable Pipeline.step s.pl s'.pl := by
  obtain ⟨f', hf', rfl⟩ := stepFwd_client ha hs
  have hinv' : f'.Inv r := by
    rcases hf' with hf' | hf'
    · exact hinv.clientRecv hf'
    · exact hinv.clientDrop hf'
  have hself := setRelay_self hr
  have hgood : ∃ acts, Pipeline.Good j₀ acts (s.setRelay i r).pl := by
    rw [hself]
    exact h.good
  have hupd := h.update hgood hinv'
  rw [hself] at hupd
  exact ⟨hupd, .refl _⟩

theorem pipe (h : Inv j₀ s) {a : Pipeline.Act} (hs : s.step (.pipe a) = some s') :
    Inv j₀ s' ∧ Lts.Reachable Pipeline.step s.pl s'.pl := by
  obtain ⟨hc, pl, hpl, rfl⟩ := step_pipe hs
  obtain ⟨acts, hg⟩ := h.good
  refine ⟨⟨⟨_, hg.step hpl⟩, fun i f hf => ?_, fun i r' hr' hnone => ?_⟩, .single hpl⟩
  · obtain ⟨r, hr, hinv⟩ := h.fwd i f hf
    obtain ⟨r', hr', hgot, ho⟩ := (got_of_pipe hg.inv.bc hc hpl i).1 r hr
    exact ⟨r', hr', hinv.relay hgot ho⟩
  · obtain ⟨hlive, hnew⟩ := got_of_pipe hg.inv.bc hc hpl i
    rcases hnew r' hr' with ⟨r, hr⟩ | hgot
    · obtain ⟨r₁, hr₁, hgot, -⟩ := hlive r hr
      obtain rfl : r₁ = r' := Sub.live.inj (hr₁.symm.trans hr')
      rw [hgot]
      exact h.unread i r hr hnone
    · exact hgot

theorem step (h : Inv j₀ s) {a : Act} (hs : s.step a = some s') :
    Inv j₀ s' ∧ Lts.Reachable Pipeline.step s.pl s'.pl := by
  cases a with
  | pipe a => exact h.pipe hs
  | openLogs i =>
    obtain ⟨r, hr, hnone, ho, rfl⟩ := step_openLogs hs
    have hself := setRelay_self hr
    have hgood : ∃ acts, Pipeline.Good j₀ acts (s.setRelay i r).pl := by
      rw [hself]
      exact h.good
    have hupd := h.update hgood (.start (h.unread i r hr hnone) ho)
    rw [hself] at hupd
    exact ⟨hupd, .refl _⟩
  | abandon i =>
    obtain ⟨r, hr, hnone, ho, rfl⟩ := step_abandon hs
    have hdrop : r.step .clientDrop = some r.clientDrop := by simp [Relay.step, ho]
    obtain ⟨hstep, hgood⟩ := relay_step h.good hr hdrop
    refine ⟨⟨hgood, fun j f hf => ?_, fun j r' hr' hf => ?_⟩, .single hstep⟩
    · have hj : j ≠ i := by
        rintro rfl
        have hf' : s.fwds j = some f := hf
        rw [hnone] at hf'
        cases hf'
      obtain ⟨r', hr', hinv⟩ := h.fwd j f hf
      exact ⟨r', by simpa [setRelay, hj] using hr', hinv⟩
    · by_cases hj : j = i
      · subst hj
        obtain rfl : r.clientDrop = r' := by simpa [setRelay] using hr'
        exact h.unread j r hr hnone
      · exact h.unread j r' (by simpa [setRelay, hj] using hr') hf
  | fwd i a =>
    obtain ⟨r, f, hr, hf, hs⟩ := step_fwd hs
    obtain ⟨r₀, hr₀, hinv⟩ := h.fwd i f hf
    obtain rfl : r = r₀ := Sub.live.inj (hr.symm.trans hr₀)
    cases a with
    | recv => exact h.fwd_recv hr hinv hs
    | send => exact h.fwd_send hr hinv hs
    | clientRecv => exact h.fwd_client hr hinv (.inl rfl) hs
    | clientDrop => exact h.fwd_client hr hinv (.inr rfl) hs

theorem reachable (h : Inv j₀ s) (hr : Lts.Reachable Served.step s s') :
    Inv j₀ s' ∧ Lts.Reachable Pipeline.step s.pl s'.pl :=
  ⟨hr.invariant (I := Inv j₀) h fun _ _ _ hi hs => (hi.step hs).1,
    hr.project (I := Inv j₀) Served.pl (fun _ _ _ hi hs => (hi.step hs).1)
      (fun _ _ _ hi hs => (hi.step hs).2) h⟩

end Inv

/-- At each moment the bytes a client has received of a stream are the beginning of what the child
has written to it; and if its gRPC stream has ended without an error status, they are all the
child has written, and ever will. -/
theorem log_fidelity {jobId : JobId} {user : User} {pid : Pid} {now : DateTime} {s : Served}
    (hr : Lts.Reachable Served.step (Served.start (Job.started jobId user pid now)) s)
    {i : SubId} {f : Forwarder} (hf : s.fwds i = some f) :
    (∀ k, logBytes k f.got <+: (s.pl.output k).pipe.written) ∧
    (f.ended = true → (∀ item ∈ f.got, item.isOk = true) →
      ∀ k, logBytes k f.got = (s.pl.output k).pipe.written ∧
        (s.pl.output k).pipe.closed = true) := by
  have h₀ : Inv (Job.started jobId user pid now) (Served.start (Job.started jobId user pid now)) :=
    .start rfl
  obtain ⟨h, -⟩ := h₀.reachable hr
  obtain ⟨acts, hg⟩ := h.good
  obtain ⟨r, hr, hinv⟩ := h.fwd i f hf
  refine ⟨fun k => (hinv.part k).trans (hg.got_prefix hr k), fun hend hok k => ?_⟩
  obtain ⟨-, -, ⟨hgot, heof⟩ | ⟨st, hst⟩⟩ := hinv.final hend
  · rw [hgot, logBytes_frameItems]
    exact hg.got_complete hr heof k
  · cases hok _ hst

/-- A child that writes one byte to stdout and exits, with a log stream served along. -/
def logsRun (i : SubId) (b : UInt8) : List Act :=
  [.pipe (.bcast (.subscribe i)), .pipe (.bcast (.sendReq i)), .pipe (.bcast (.req i)),
    .openLogs i, .pipe (.output .stdout (.write [b])), .pipe (.output .stdout (.read 1)),
    .pipe (.output .stdout .send), .pipe (.recvOutput .stdout), .pipe .send, .pipe (.bcast .frame),
    .pipe (.bcast (.relay i .recv)), .pipe (.bcast (.relay i .send)),
    .fwd i .recv, .fwd i .send, .fwd i .clientRecv,
    .pipe (.exit (.ok (.exited 0)) ⟨2⟩), .pipe (.output .stdout .close),
    .pipe (.output .stdout .readEof), .pipe (.recvOutput .stdout), .pipe (.output .stderr .close),
    .pipe (.output .stderr .readEof), .pipe (.recvOutput .stderr), .pipe .send, .pipe .setRes,
    .pipe (.bcast .frame), .pipe (.bcast (.relay i .recv)), .pipe (.bcast (.relay i .send)),
    .fwd i .recv, .fwd i .clientRecv]

theorem log_fidelity_logsRun :
    ∃ s f, Lts.run Served.step (Served.start (Job.started ⟨"job"⟩ ⟨"alice"⟩ ⟨7⟩ ⟨1⟩))
        (logsRun 0 104) = some s ∧ s.fwds 0 = some f ∧ f.ended = true ∧
      ∀ k, logBytes k f.got = (s.pl.output k).pipe.written ∧
        (s.pl.output k).pipe.closed = true := by
  have hrun : ((Lts.run Served.step (Served.start (Job.started ⟨"job"⟩ ⟨"alice"⟩ ⟨7⟩ ⟨1⟩))
      (logsRun 0 104)).bind fun s => (s.fwds 0).map fun f => (f.ended, f.got)) =
        some (true, [.ok ⟨0, [104]⟩]) := by decide +kernel
  obtain ⟨s, hs, hf⟩ := Option.bind_eq_some_iff.1 hrun
  obtain ⟨f, hf, he⟩ := Option.map_eq_some_iff.1 hf
  have hend : f.ended = true := congrArg Prod.fst he
  have hgot : f.got = [.ok ⟨0, [104]⟩] := congrArg Prod.snd he
  have hok : ∀ item ∈ f.got, item.isOk = true := by
    intro item hitem
    rw [hgot, List.mem_singleton] at hitem
    rw [hitem]
    rfl
  exact ⟨s, f, hs, hf, hend, (log_fidelity ⟨_, hs⟩ hf).2 hend hok⟩

end Served

end JobRunner
