import JobRunner.Verify.LogStreams
import JobRunner.Verify.CutOff

/-!
# Log streams at rest

Nothing is stuck on its way from a job to the clients of its log streams. The tasks of a stream take
a bounded number of steps for each event (`Served.delivery_work`), so they come to rest when the job
does. A relay that is not cut off is offered every event and takes it (`Broadcaster.Kept`), and when
neither these tasks nor the client can take another step, a client that is still connected has been
handed the whole log so far, and has been told of its end exactly if it is complete
(`Served.settled_delivered`).
-/

namespace JobRunner

open Lts Mpsc

/-! ## No event passes by -/

namespace Relay

variable {r : Relay}

/-- A relay that has nothing to do, and whose client has taken everything, has handed over all it
has seen. -/
theorem got_of_quiet {reg : Bool} (hi : Inv reg r) (ho : r.clientCh.rxOpen = true)
    (hrecv : r.step .recv = none) (hsend : r.step .send = none) (hq : r.clientCh.queue = []) :
    r.got = r.seen := by
  have hpc : r.pc = .loop := hi.pc_of_open ho
  have hbcast : r.bcastCh.queue = [] := by
    cases hb : r.bcastCh.queue with
    | nil => rfl
    | cons ev q => simp [step, hpc, Chan.recv, hb] at hrecv
  have hto : r.toSend = none := by
    cases hto : r.toSend with
    | none => rfl
    | some ev =>
      have hroom : r.clientCh.send ev = some (true, r.clientCh.push ev) := by
        refine Chan.send_eq_some_iff.2 (.inl ⟨rfl, ho, ?_, rfl⟩)
        rw [hq, hi.clientCap]
        decide
      simp [step, hpc, hto, hroom] at hsend
  simp [seen, hq, hbcast, hto, hi.popped hto]

end Relay

namespace Broadcaster

variable {s s' : Broadcaster} {i : SubId}

/-- The broadcaster has an event for the relay of `i`, whose client listens, and no room for it. -/
def CutsOff (i : SubId) (s : Broadcaster) : Prop :=
  s.frameCh.queue ≠ [] ∧ i ∈ s.relays ∧
  ∃ r, s.subs i = .live r ∧ r.clientCh.rxOpen = true ∧ 1024 ≤ r.bcastCh.queue.length

/-- The relay of `i`, if its client listens, has taken every event. -/
structure Kept (i : SubId) (s : Broadcaster) : Prop where
  registered : ∀ r, s.subs i = .live r → r.clientCh.rxOpen = true → s.frameRxOk = true →
    i ∈ s.relays
  whole : ∀ r, s.subs i = .live r → r.clientCh.rxOpen = true → s.frameRxOk = false →
    r.seen = s.frames

namespace Kept

theorem seen (hk : Kept i s) (h : Inv s) {r : Relay} (hr : s.subs i = .live r)
    (ho : r.clientCh.rxOpen = true) : r.seen = s.frames := by
  cases hok : s.frameRxOk with
  | false => exact hk.whole r hr ho hok
  | true => exact (h.live hr).2.whole ho (decide_eq_true (hk.registered r hr ho hok))

/-- A step that leaves the history and the registrations alone. -/
theorem move (hk : Kept i s) (hrel : i ∈ s'.relays ↔ i ∈ s.relays) (hfr : s'.frames = s.frames)
    (hok : s'.frameRxOk = s.frameRxOk)
    (hback : ∀ r', s'.subs i = .live r' → r'.clientCh.rxOpen = true →
      ∃ r, s.subs i = .live r ∧ r.clientCh.rxOpen = true ∧ r'.seen = r.seen) : Kept i s' where
  registered r' hr' ho hrx := by
    obtain ⟨r, hr, ho, -⟩ := hback r' hr' ho
    exact hrel.2 (hk.registered r hr ho (hok ▸ hrx))
  whole r' hr' ho hrx := by
    obtain ⟨r, hr, ho, hseen⟩ := hback r' hr' ho
    rw [hseen, hfr]
    exact hk.whole r hr ho (hok ▸ hrx)

theorem frame (hk : Kept i s) (h : Inv s) (hs : s.step .frame = some s')
    (hroom : ¬s.CutsOff i) : Kept i s' := by
  obtain ⟨hok, ⟨ev, q, hq, rfl⟩ | ⟨-, -, rfl⟩⟩ := step_frame hs
  · obtain ⟨hmem, hsub⟩ := onFrame_sub h { s.frameCh with queue := q } ev i
    have hon : (s.onFrame { s.frameCh with queue := q } (some ev)).frameRxOk = true := hok
    refine ⟨fun r' hr' ho _ => ?_, fun r' _ _ hoff =>
      absurd (hoff.symm.trans hon) Bool.false_ne_true⟩
    by_cases hi : i ∈ s.relays
    · obtain ⟨r, hr⟩ := h.mem_relays hi
      obtain ⟨hinv, -⟩ := h.live hr
      rw [hsub, if_pos hi, hr] at hr'
      refine hmem.2 ⟨hi, ?_⟩
      rcases r.accept_cases ev with ⟨-, -, he⟩ | ⟨hno, he⟩
      · simp [hr, Sub.offer, he]
      · -- it has room, and still listens itself
        obtain rfl : r.dropHandle = r' := by simpa [Sub.offer, he] using hr'
        have ho : r.clientCh.rxOpen = true := ho
        rcases hno with hno | hno
        · rw [hinv.rxOpen (by simp [hinv.pc_of_open ho])] at hno
          cases hno
        · rw [hinv.bcastCap] at hno
          exact absurd ⟨by simp [hq], hi, r, hr, ho, hno⟩ hroom
    · rw [hsub, if_neg hi] at hr'
      exact absurd (hk.registered r' hr' ho hok) hi
  · obtain ⟨hfr, hoff, -, hsub⟩ := onFrame_end_sub h s.frameCh i
    refine ⟨fun r' _ _ hon => absurd (hoff.symm.trans hon) Bool.false_ne_true,
      fun r' hr' ho _ => ?_⟩
    rw [hfr]
    rw [hsub] at hr'
    by_cases hi : i ∈ s.relays
    · obtain ⟨r, hr⟩ := h.mem_relays hi
      rw [if_pos hi, hr] at hr'
      obtain rfl : r.dropHandle = r' := by simpa [Sub.dropHandle] using hr'
      have hseen : r.seen = s.frames := hk.seen h hr ho
      exact hseen
    · rw [if_neg hi] at hr'
      exact hk.seen h hr' ho

/-- A relay starts with the whole history. -/
theorem req (hs : s.step (.req i) = some s') : Kept i s' := by
  obtain ⟨-, q, -, ⟨-, hon, rfl⟩ | ⟨-, hoff, rfl⟩ | ⟨-, rfl⟩⟩ := step_req hs
  · refine ⟨fun r hr _ _ => by simp, fun r _ _ hoff => ?_⟩
    exact absurd (hoff.symm.trans hon) Bool.false_ne_true
  · refine ⟨fun r _ _ hon => absurd (hoff.symm.trans hon) Bool.false_ne_true, fun r hr _ _ => ?_⟩
    obtain rfl : (Relay.start s.frames).dropHandle = r := by simpa using hr
    exact Relay.seen_start _
  · exact ⟨fun r hr => by simp at hr, fun r hr => by simp at hr⟩

theorem step (hk : Kept i s) (h : Inv s) {a : Act} (hs : s.step a = some s')
    (hroom : a = .frame → ¬s.CutsOff i) : Kept i s' := by
  by_cases hframe : a = .frame
  · subst hframe
    exact hk.frame h hs (hroom rfl)
  by_cases hreq : a = .req i
  · subst hreq
    exact .req hs
  obtain ⟨hrel, hfr, hok, hmove⟩ := move_of_step h (a := .act a) hs (by simpa using hframe)
    (by simpa using hreq)
  refine hk.move hrel hfr hok fun r' hr' ho => ?_
  generalize hsub : s.subs i = sub at hmove
  generalize hsub' : s'.subs i = sub' at hmove
  rw [hsub'] at hr'
  cases hmove with
  | same => exact ⟨r', hr', ho, rfl⟩
  | idle hn hn' => exact (hn' r' hr').elim
  | own ha hb =>
    obtain rfl := Sub.live.inj hr'
    obtain ⟨hinv, -⟩ := h.live hsub
    obtain ⟨-, hopen⟩ := Relay.step_backlog hinv hb
    exact ⟨_, rfl, hopen ho, Relay.seen_step hinv hb ho⟩

end Kept

end Broadcaster

/-- Outside the broadcaster no step does more to it than to send it events. -/
theorem Pipeline.bc_of_other {p p' : Pipeline} {a : Pipeline.Act} (hs : p.step a = some p')
    (ha : ∀ b, a ≠ .bcast b) : ∃ ch evs, p'.bc = { p.bc with frameCh := ch } ∧
      ch.queue = p.bc.frameCh.queue ++ evs := by
  cases a with
  | bcast b => exact (ha b rfl).elim
  | output k a =>
    obtain ⟨o, -, rfl⟩ := Pipeline.step_output hs
    exact ⟨_, [], rfl, (List.append_nil _).symm⟩
  | recvOutput k =>
    obtain ⟨ev, o, trk, -, -, rfl⟩ := Pipeline.step_recvOutput hs
    exact ⟨_, [], rfl, (List.append_nil _).symm⟩
  | send =>
    obtain ⟨ev, ok, ch, trk, -, hsend, -, rfl⟩ := Pipeline.step_send hs
    rcases Chan.send_eq_some_iff.1 hsend with ⟨-, -, -, rfl⟩ | ⟨-, -, rfl⟩
    · exact ⟨_, [ev], rfl, rfl⟩
    · exact ⟨_, [], rfl, (List.append_nil _).symm⟩
  | recvKill =>
    obtain ⟨req, ch, trk, -, -, rfl⟩ := Pipeline.step_recvKill hs
    exact ⟨_, [], rfl, (List.append_nil _).symm⟩
  | killRes res now =>
    obtain ⟨req, trk, -, -, rfl⟩ := Pipeline.step_killRes hs
    exact ⟨_, [], rfl, (List.append_nil _).symm⟩
  | exit status now =>
    obtain ⟨trk, -, rfl⟩ := Pipeline.step_exit hs
    exact ⟨_, [], rfl, (List.append_nil _).symm⟩
  | setRes =>
    obtain ⟨trk, -, rfl⟩ := Pipeline.step_setRes hs
    exact ⟨_, [], rfl, (List.append_nil _).symm⟩
  | kill c a =>
    obtain ⟨call, ch, rfl, -⟩ := Pipeline.step_kill hs
    exact ⟨_, [], rfl, (List.append_nil _).symm⟩

/-! ## Work -/

namespace Relay

variable {r r' : Relay}

/-- The steps of the tasks behind the broadcaster that are still to come for what is in a relay:
the receipt by the relay, its send, the receipt by the forwarder and its send. -/
def load (r : Relay) : Nat :=
  4 * r.bcastCh.queue.length + 3 * r.frames.length + 3 * r.toSend.toList.length +
    2 * r.clientCh.queue.length

@[simp] theorem load_loopTop (r : Relay) : r.loopTop.load = r.load := by
  rcases r.loopTop_cases with ⟨ev, rest, hto, hfr, he⟩ | ⟨-, he⟩
  · rw [he]
    simp only [load, hto, hfr, List.length_cons, Option.toList_some, Option.toList_none,
      List.length_nil]
    omega
  · rw [he]

theorem load_start (frames : List FrameEvent) : (start frames).load = 3 * frames.length := by
  rw [start, load_loopTop]
  simp [load, Chan.new, Chan.cloneTx]

theorem load_clientDrop_le (r : Relay) : r.clientDrop.load ≤ r.load := by
  simp [load, clientDrop, Chan.dropRx]

def Act.ofTask : Act → Bool
  | .clientRecv => false
  | .clientDrop => false
  | _ => true

/-- A relay with a client has a handle of its own, and does not see the end of its channel. -/
theorem load_step {reg : Bool} (hi : Inv reg r) {a : Act} (hs : r.step a = some r') :
    r'.load + (if a.ofTask then 1 else 0) ≤ r.load := by
  cases a with
  | recv =>
    obtain ⟨hpc, ⟨ev, q, hq, rfl⟩ | ⟨-, hz, rfl⟩⟩ := step_recv hs
    · rw [load_loopTop]
      simp only [load, hq, List.length_append, List.length_cons, List.length_nil, Act.ofTask,
        if_true]
      omega
    · rw [hi.handles, if_neg (by simp [hpc])] at hz
      omega
  | send =>
    obtain ⟨-, ev, hto, ⟨-, -, rfl⟩ | ⟨-, rfl⟩⟩ := step_send hs
    · rw [load_loopTop]
      simp only [load, hto, Chan.push_queue, List.length_append, List.length_cons,
        List.length_nil, Option.toList_some, Option.toList_none, Act.ofTask, if_true]
      omega
    · simp only [load, finish, hto, Chan.dropTx, Chan.dropRx, List.length_cons, List.length_nil,
        Option.toList_some, Option.toList_none, Act.ofTask, if_true]
      omega
  | drain => exact absurd (step_drain hs) hi.notDrain
  | clientRecv =>
    obtain ⟨o, ho⟩ := step_clientRecv hs
    obtain ⟨-, ⟨ev, q, -, hq, rfl⟩ | ⟨-, -, -, rfl⟩⟩ := clientRecv_cases ho
    · simp only [load, hq, List.length_cons, Act.ofTask, Bool.false_eq_true, if_false]
      omega
    · exact Nat.le_refl _
  | clientDrop =>
    obtain ⟨-, rfl⟩ := step_clientDrop hs
    exact r.load_clientDrop_le

end Relay

/-- A relay that is still to come starts with a history of `n` events. -/
def Sub.load (n : Nat) : Sub → Nat
  | .live r => r.load
  | _ => 3 * n

theorem Sub.load_of_idle {sub : Sub} (h : ∀ r, sub ≠ .live r) (n : Nat) : sub.load n = 3 * n := by
  cases sub with
  | live r => exact absurd rfl (h r)
  | _ => rfl

namespace Broadcaster

variable {s s' : Broadcaster}

/-- With the receipt by the broadcaster it is five steps for each event sent, and one for the end
of the source. -/
def load (i : SubId) (s : Broadcaster) : Nat :=
  5 * s.frameCh.queue.length + s.frameRxOk.toNat + (s.subs i).load s.frames.length

def Act.ofStream (i : SubId) : Act → Bool
  | .frame => true
  | .relay j a => j = i && a.ofTask
  | _ => false

theorem load_frame (h : Inv s) {i : SubId} (hs : s.step .frame = some s') :
    s'.load i + 1 ≤ s.load i := by
  obtain ⟨hok, ⟨ev, q, hq, rfl⟩ | ⟨hq, -, rfl⟩⟩ := step_frame hs
  · obtain ⟨-, hsub⟩ := onFrame_sub h { s.frameCh with queue := q } ev i
    -- the event is at most one more in the relay or in the history it starts with
    have hload : ((s.onFrame { s.frameCh with queue := q } (some ev)).subs i).load
        (s.frames.length + 1) ≤ (s.subs i).load s.frames.length + 4 := by
      rw [hsub]
      by_cases hi : i ∈ s.relays
      · obtain ⟨r, hr⟩ := h.mem_relays hi
        rw [if_pos hi, hr]
        rcases r.accept_cases ev with ⟨-, -, he⟩ | ⟨-, he⟩
        · simp only [Sub.offer, he, Sub.load, Relay.load, Chan.push_queue, List.length_append,
            List.length_cons, List.length_nil]
          omega
        · simp [Sub.offer, he, Sub.load, Relay.load, Relay.dropHandle, Chan.dropTx]
      · rw [if_neg hi]
        cases s.subs i with
        | live r => exact Nat.le_add_right _ _
        | _ => simp only [Sub.load]; omega
    have hnew : (s.onFrame { s.frameCh with queue := q } (some ev)).load i =
        5 * q.length + s.frameRxOk.toNat +
          ((s.onFrame { s.frameCh with queue := q } (some ev)).subs i).load
            (s.frames.length + 1) := by
      have hframes : (s.onFrame { s.frameCh with queue := q } (some ev)).frames.length =
          s.frames.length + 1 := List.length_append
      rw [load, hframes]
      rfl
    rw [hnew, load, hq, List.length_cons]
    omega
  · obtain ⟨hfr, hoff, -, hsub⟩ := onFrame_end_sub h s.frameCh i
    have hlen := (source_of_act h hs).2.2
    have hload : ((s.onFrame s.frameCh none).subs i).load s.frames.length =
        (s.subs i).load s.frames.length := by
      rw [hsub]
      by_cases hi : i ∈ s.relays
      · obtain ⟨r, hr⟩ := h.mem_relays hi
        rw [if_pos hi, hr]
        simp [Sub.dropHandle, Sub.load, Relay.load, Relay.dropHandle, Chan.dropTx]
      · rw [if_neg hi]
    simp only [load, hfr, hoff, hload, hok, Bool.toNat_false, Bool.toNat_true]
    omega

theorem load_step (h : Inv s) {i : SubId} {a : Act} (hs : s.step a = some s') :
    s'.load i + (if a.ofStream i then 1 else 0) ≤ s.load i := by
  by_cases hframe : a = .frame
  · subst hframe
    simpa [Act.ofStream] using load_frame h hs
  have hlen := (source_of_act h hs).2.2
  by_cases hreq : a = .req i
  · subst hreq
    obtain ⟨-, q, -, ⟨hold, -, rfl⟩ | ⟨hold, -, rfl⟩ | ⟨hold, rfl⟩⟩ := step_req hs
    · simp [load, Act.ofStream, hold, Sub.load, Relay.load_start]
    · have hsame : (Relay.start s.frames).dropHandle.load = (Relay.start s.frames).load := rfl
      simp [load, Act.ofStream, hold, Sub.load, hsame, Relay.load_start]
    · simp [load, Act.ofStream, hold, Sub.load]
  by_cases hrelay : ∃ b, a = .relay i b
  · obtain ⟨b, rfl⟩ := hrelay
    obtain ⟨r, r', hr, hb, rfl⟩ := step_relay hs
    have hstep := Relay.load_step (h.live hr).1 hb
    simpa [load, Act.ofStream, hr, Sub.load, Nat.add_assoc] using hstep
  · have hother : a.ofStream i = false := by
      cases a with
      | frame => exact absurd rfl hframe
      | relay j b =>
        have hj : j ≠ i := fun e => hrelay ⟨b, by rw [e]⟩
        simp [Act.ofStream, hj]
      | _ => rfl
    obtain ⟨-, hfr, hok, hmove⟩ := move_of_step h (a := .act a) hs (by simpa using hframe)
      (by simpa using hreq)
    have hload : (s'.subs i).load s.frames.length = (s.subs i).load s.frames.length := by
      generalize hsub : s.subs i = sub at hmove
      generalize hsub' : s'.subs i = sub' at hmove
      cases hmove with
      | same => rfl
      | idle hn hn' => rw [Sub.load_of_idle hn, Sub.load_of_idle hn']
      | own ha hb => exact absurd ⟨_, OpenAct.act.inj ha⟩ hrelay
    simp only [load, hfr, hok, hload, hother, Bool.false_eq_true, if_false]
    omega

end Broadcaster

/-- The send of what a forwarder has taken is one more step. -/
def FwdPc.load : FwdPc → Nat
  | .send _ _ => 1
  | _ => 0

theorem FwdPc.load_le (pc : FwdPc) : pc.load ≤ 1 := by
  cases pc with
  | send item last => exact Nat.le_refl _
  | _ => exact Nat.zero_le _

namespace Served

variable {j₀ : Job} {s s' : Served} {i : SubId} {f : Forwarder}

def fwdLoad (i : SubId) (s : Served) : Nat :=
  match s.fwds i with
  | some f => f.pc.load
  | none => 0

def load (i : SubId) (s : Served) : Nat := s.pl.bc.load i + s.fwdLoad i

/-- The receipt of the job's events and the steps of the two tasks of stream `i`. -/
def Act.ofStream (i : SubId) : Act → Bool
  | .pipe (.bcast a) => a.ofStream i
  | .fwd j a => j = i && (a = .recv || a = .send)
  | _ => false

theorem fwdLoad_setFwd (s : Served) (j : SubId) (f : Forwarder) :
    (s.setFwd j f).fwdLoad i = if i = j then f.pc.load else s.fwdLoad i := by
  by_cases hj : i = j
  · subst hj
    simp [fwdLoad, setFwd]
  · simp [fwdLoad, setFwd, hj]

theorem load_setRelay (i : SubId) {j : SubId} {r : Relay} (r' : Relay)
    (hr : s.pl.bc.subs j = .live r) :
    (s.setRelay j r').load i + (if i = j then r.load else 0) =
      s.load i + (if i = j then r'.load else 0) := by
  have hfwd : (s.setRelay j r').fwdLoad i = s.fwdLoad i := rfl
  have hbc : (s.setRelay j r').pl.bc.load i + (if i = j then r.load else 0) =
      s.pl.bc.load i + (if i = j then r'.load else 0) := by
    by_cases hj : i = j
    · subst hj
      simp only [Broadcaster.load, setRelay, Function.update_self, Sub.load, hr, if_true]
      omega
    · simp [Broadcaster.load, setRelay, hj]
  rw [load, load, hfwd]
  omega

/-- Forwarder and relay take a step together. -/
theorem load_update (i : SubId) {j : SubId} {r r' : Relay} (f' : Forwarder)
    (hr : s.pl.bc.subs j = .live r) (hf : s.fwds j = some f) {n : Nat}
    (hle : r'.load + f'.pc.load + n ≤ r.load + f.pc.load) :
    ((s.setRelay j r').setFwd j f').load i + (if i = j then n else 0) ≤ s.load i := by
  have hrelay := load_setRelay i r' hr
  have hbc : ((s.setRelay j r').setFwd j f').pl.bc = (s.setRelay j r').pl.bc := rfl
  have hold : (s.setRelay j r').fwdLoad i = s.fwdLoad i := rfl
  simp only [load, hbc, fwdLoad_setFwd, hold] at hrelay ⊢
  by_cases hj : i = j
  · subst hj
    have hfwd : s.fwdLoad i = f.pc.load := by simp [fwdLoad, hf]
    simp only [if_true, hfwd] at hrelay ⊢
    omega
  · simp only [if_neg hj] at hrelay ⊢
    omega

theorem pc_of_client {f' : Forwarder} (h : f.clientRecv = some f' ∨ f.clientDrop = some f') :
    f'.pc = f.pc := by
  rcases h with h | h
  · simp only [Forwarder.clientRecv, Option.ite_none_right_eq_some] at h
    obtain ⟨-, h⟩ := h
    split at h
    · cases h
    · cases h
      rfl
    · cases h
      rfl
  · simp only [Forwarder.clientDrop, Option.ite_none_right_eq_some, Option.some.injEq] at h
    rw [← h.2]

theorem load_fwd (hi : Inv j₀ s) {j : SubId} {a : Forwarder.Act}
    (hs : s.step (.fwd j a) = some s') :
    s'.load i + (if (Act.fwd j a).ofStream i then 1 else 0) ≤ s.load i := by
  obtain ⟨r, f, hr, hf, hs⟩ := step_fwd hs
  obtain ⟨acts, hg⟩ := hi.good
  have hrinv := (hg.inv.bc.live hr).1
  have hself := Inv.setRelay_self hr
  have hdrop := r.load_clientDrop_le
  have hclient : ∀ {f'}, f.clientRecv = some f' ∨ f.clientDrop = some f' →
      (s.setFwd j f').load i ≤ s.load i := by
    intro f' hf'
    have hle : r.load + f'.pc.load + 0 ≤ r.load + f.pc.load := by
      rw [pc_of_client hf']
      exact Nat.le_refl _
    have hstep := load_update i f' hr hf hle
    rw [hself] at hstep
    omega
  cases a with
  | recv =>
    have hcount : (if (Act.fwd j .recv).ofStream i then 1 else 0) = if i = j then 1 else 0 := by
      simp [Act.ofStream, eq_comm]
    rw [hcount]
    obtain ⟨hpc, ho, ⟨ev, q, hq, -, rfl⟩ | ⟨q, hq, rfl⟩ | ⟨-, hz, rfl⟩⟩ := stepFwd_recv hs
    · refine load_update i _ hr hf ?_
      have hsend := (Forwarder.onEvent (some ev)).load_le
      simp only [Relay.load, hq, List.length_cons, hpc, FwdPc.load] at hsend ⊢
      omega
    · refine load_update i _ hr hf ?_
      simp only [Relay.load, Relay.clientDrop, Chan.dropRx, hq, hpc, Forwarder.finish, FwdPc.load,
        List.length_cons, List.length_nil]
      omega
    · -- the relay has its sender
      rw [hrinv.clientTx, if_neg (by simp [hrinv.pc_of_open ho])] at hz
      cases hz
  | send =>
    have hcount : (if (Act.fwd j .send).ofStream i then 1 else 0) = if i = j then 1 else 0 := by
      simp [Act.ofStream, eq_comm]
    rw [hcount]
    obtain ⟨item, last, hpc, ⟨-, -, rfl⟩ | ⟨-, -, rfl⟩ | ⟨-, rfl⟩⟩ := stepFwd_send hs
    · have hle : r.load + FwdPc.recv.load + 1 ≤ r.load + f.pc.load := by
        rw [hpc]
        exact Nat.le_refl _
      have hstep := load_update i { f with pc := .recv, ch := f.ch.push item } hr hf hle
      rwa [hself] at hstep
    · refine load_update i _ hr hf ?_
      simp only [hpc, FwdPc.load, Forwarder.finish]
      omega
    · refine load_update i _ hr hf ?_
      simp only [hpc, FwdPc.load, Forwarder.finish]
      omega
  | clientRecv =>
    obtain ⟨f', hf', rfl⟩ := stepFwd_client (.inl rfl) hs
    simpa [Act.ofStream] using hclient hf'
  | clientDrop =>
    obtain ⟨f', hf', rfl⟩ := stepFwd_client (.inr rfl) hs
    simpa [Act.ofStream] using hclient hf'

theorem sent_fwd {j : SubId} {a : Forwarder.Act} (hs : s.step (.fwd j a) = some s') :
    s'.pl.bc.sent = s.pl.bc.sent := by
  obtain ⟨r, f, -, -, hs⟩ := step_fwd hs
  cases a with
  | recv =>
    obtain ⟨-, -, ⟨ev, q, -, -, rfl⟩ | ⟨q, -, rfl⟩ | ⟨-, -, rfl⟩⟩ := stepFwd_recv hs
    · rfl
    · rfl
    · rfl
  | send =>
    obtain ⟨item, last, -, ⟨-, -, rfl⟩ | ⟨-, -, rfl⟩ | ⟨-, rfl⟩⟩ := stepFwd_send hs
    · rfl
    · rfl
    · rfl
  | clientRecv =>
    obtain ⟨f', -, rfl⟩ := stepFwd_client (.inl rfl) hs
    rfl
  | clientDrop =>
    obtain ⟨f', -, rfl⟩ := stepFwd_client (.inr rfl) hs
    rfl

theorem load_step (hi : Inv j₀ s) {a : Act} (hs : s.step a = some s') :
    s'.load i + (if a.ofStream i then 1 else 0) + 5 * s.pl.bc.sent.length ≤
      s.load i + 5 * s'.pl.bc.sent.length := by
  obtain ⟨acts, hg⟩ := hi.good
  cases a with
  | pipe a =>
    obtain ⟨-, pl, hpl, rfl⟩ := step_pipe hs
    have hfwd : fwdLoad i { s with pl } = s.fwdLoad i := rfl
    simp only [load, hfwd]
    by_cases hb : ∃ b, a = .bcast b
    · obtain ⟨b, rfl⟩ := hb
      obtain ⟨bc, hbc, rfl⟩ := Pipeline.step_bcast hpl
      have hstep := Broadcaster.load_step (i := i) hg.inv.bc hbc
      have hsent := (Broadcaster.source_of_act hg.inv.bc hbc).1
      have hcount : (Act.pipe (.bcast b)).ofStream i = b.ofStream i := rfl
      rw [hcount, hsent]
      dsimp only
      omega
    · -- five steps for each new event
      have hother : (Act.pipe a).ofStream i = false := by
        cases a with
        | bcast b => exact absurd ⟨b, rfl⟩ hb
        | _ => rfl
      obtain ⟨ch, evs, hbc, hq⟩ := Pipeline.bc_of_other hpl fun b e => hb ⟨b, e⟩
      simp only [hother, hbc, Broadcaster.load, Broadcaster.sent, hq, List.length_append,
        Bool.false_eq_true, if_false]
      omega
  | openLogs j =>
    obtain ⟨r, -, hnone, -, rfl⟩ := step_openLogs hs
    have hload : (s.setFwd j Forwarder.start).fwdLoad i = s.fwdLoad i := by
      rw [fwdLoad_setFwd]
      split
      · next hj =>
        rw [← hj] at hnone
        simp [fwdLoad, hnone, Forwarder.start, FwdPc.load]
      · rfl
    have hpl : (s.setFwd j Forwarder.start).pl = s.pl := rfl
    simp [load, hload, hpl, Act.ofStream]
  | abandon j =>
    obtain ⟨r, hr, -, -, rfl⟩ := step_abandon hs
    have hrelay := load_setRelay i r.clientDrop hr
    have hdrop := r.load_clientDrop_le
    have hcount : (Act.abandon j).ofStream i = false := rfl
    have hsent : (s.setRelay j r.clientDrop).pl.bc.sent = s.pl.bc.sent := rfl
    rw [hcount, hsent]
    simp only [Bool.false_eq_true, if_false]
    split at hrelay <;> omega
  | fwd j a =>
    have hstep := load_fwd (i := i) hi hs
    rw [sent_fwd hs]
    omega

/-- What is sent stays sent. -/
theorem sent_mono (hi : Inv j₀ s) {a : Act} (hs : s.step a = some s') :
    s.pl.bc.sent.length ≤ s'.pl.bc.sent.length := by
  obtain ⟨acts, hg⟩ := hi.good
  cases a with
  | pipe a =>
    obtain ⟨-, pl, hpl, rfl⟩ := step_pipe hs
    by_cases hb : ∃ b, a = .bcast b
    · obtain ⟨b, rfl⟩ := hb
      obtain ⟨bc, hbc, rfl⟩ := Pipeline.step_bcast hpl
      exact Nat.le_of_eq (congrArg List.length (Broadcaster.source_of_act hg.inv.bc hbc).1.symm)
    · obtain ⟨ch, evs, hbc, hq⟩ := Pipeline.bc_of_other hpl fun b e => hb ⟨b, e⟩
      simp only [hbc, Broadcaster.sent, hq, List.length_append]
      omega
  | openLogs j =>
    obtain ⟨r, -, -, -, rfl⟩ := step_openLogs hs
    exact Nat.le_refl _
  | abandon j =>
    obtain ⟨r, -, -, -, rfl⟩ := step_abandon hs
    exact Nat.le_refl _
  | fwd j a => exact Nat.le_of_eq (congrArg List.length (sent_fwd hs).symm)

/-- Whatever else goes on, a log stream takes at most five steps for each event of its job: its
receipt by the broadcaster, and a receipt and a send of each of the two tasks behind it. -/
theorem delivery_work {jobId : JobId} {user : User} {pid : Pid} {now : DateTime} {acts : List Act}
    (hr : run Served.step (Served.start (Job.started jobId user pid now)) acts = some s)
    (i : SubId) : acts.countP (Act.ofStream i) ≤ 5 * s.pl.bc.sent.length + 1 := by
  have hrun := run_countP_le (I := Inv (Job.started jobId user pid now)) (Act.ofStream i) (load i)
    (fun s => 5 * s.pl.bc.sent.length) (fun s a s' hi hs => ⟨(hi.step hs).1, load_step hi hs⟩)
    (.start rfl) hr
  have hload : (Served.start (Job.started jobId user pid now)).load i = 1 := rfl
  have hsent : (Served.start (Job.started jobId user pid now)).pl.bc.sent.length = 0 := rfl
  rw [hload, hsent] at hrun
  omega

theorem delivery_work_logsRun :
    ∃ s, run Served.step (Served.start (Job.started ⟨"job"⟩ ⟨"alice"⟩ ⟨7⟩ ⟨1⟩)) (logsRun 0 104) =
        some s ∧
      (logsRun 0 104).countP (Act.ofStream 0) ≤ 5 * s.pl.bc.sent.length + 1 := by
  obtain ⟨s, hs⟩ : ∃ s, run Served.step (Served.start (Job.started ⟨"job"⟩ ⟨"alice"⟩ ⟨7⟩ ⟨1⟩))
      (logsRun 0 104) = some s := ⟨_, rfl⟩
  exact ⟨s, hs, delivery_work hs 0⟩

end Served

/-! ## Cut off -/

namespace Served

variable {j₀ : Job} {s s' : Served} {i : SubId} {f : Forwarder}

/-- The broadcaster drops the relay of `i`. -/
def CutsOff (i : SubId) (s : Served) (a : Act) : Prop :=
  a = .pipe (.bcast .frame) ∧ s.pl.bc.CutsOff i

theorem kept_setRelay {j : SubId} {r r' : Relay} (hk : s.pl.bc.Kept i)
    (hr : s.pl.bc.subs j = .live r) (hseen : r'.clientCh.rxOpen = true →
      r.clientCh.rxOpen = true ∧ r'.seen = r.seen) : (s.setRelay j r').pl.bc.Kept i := by
  refine hk.move Iff.rfl rfl rfl fun r₁ hr₁ ho => ?_
  by_cases hj : i = j
  · subst hj
    obtain rfl : r' = r₁ := by simpa [setRelay] using hr₁
    exact ⟨r, hr, hseen ho⟩
  · exact ⟨r₁, by simpa [setRelay, hj] using hr₁, ho, rfl⟩

theorem kept_fwd {j : SubId} {a : Forwarder.Act} (hk : s.pl.bc.Kept i)
    (hs : s.step (.fwd j a) = some s') : s'.pl.bc.Kept i := by
  obtain ⟨r, f, hr, -, hs⟩ := step_fwd hs
  cases a with
  | recv =>
    obtain ⟨-, ho, ⟨ev, q, hq, -, rfl⟩ | ⟨q, -, rfl⟩ | ⟨-, -, rfl⟩⟩ := stepFwd_recv hs
    · exact kept_setRelay hk hr fun _ => ⟨ho, by simp [Relay.seen, hq]⟩
    · exact kept_setRelay hk hr fun hopen => by cases hopen
    · exact kept_setRelay hk hr fun _ => ⟨ho, rfl⟩
  | send =>
    obtain ⟨item, last, -, ⟨-, -, rfl⟩ | ⟨-, -, rfl⟩ | ⟨-, rfl⟩⟩ := stepFwd_send hs
    · exact hk
    · exact kept_setRelay hk hr fun hopen => by cases hopen
    · exact kept_setRelay hk hr fun hopen => by cases hopen
  | clientRecv =>
    obtain ⟨f', -, rfl⟩ := stepFwd_client (.inl rfl) hs
    exact hk
  | clientDrop =>
    obtain ⟨f', -, rfl⟩ := stepFwd_client (.inr rfl) hs
    exact hk

theorem kept_step (hi : Inv j₀ s) (hk : s.pl.bc.Kept i) {a : Act} (hs : s.step a = some s')
    (hcut : ¬s.CutsOff i a) : s'.pl.bc.Kept i := by
  obtain ⟨acts, hg⟩ := hi.good
  cases a with
  | pipe a =>
    obtain ⟨-, pl, hpl, rfl⟩ := step_pipe hs
    by_cases hb : ∃ b, a = .bcast b
    · obtain ⟨b, rfl⟩ := hb
      obtain ⟨bc, hbc, rfl⟩ := Pipeline.step_bcast hpl
      exact hk.step hg.inv.bc hbc fun he hc => hcut ⟨by rw [he], hc⟩
    · obtain ⟨ch, evs, hbc, -⟩ := Pipeline.bc_of_other hpl fun b e => hb ⟨b, e⟩
      rw [hbc]
      exact hk.move Iff.rfl rfl rfl fun r hr ho => ⟨r, hr, ho, rfl⟩
  | openLogs j =>
    obtain ⟨r, -, -, -, rfl⟩ := step_openLogs hs
    exact hk
  | abandon j =>
    obtain ⟨r, hr, -, -, rfl⟩ := step_abandon hs
    exact kept_setRelay hk hr fun hopen => by cases hopen
  | fwd j a => exact kept_fwd hk hs

theorem kept_run {acts : List Act} (hend : j₀.endedAt = none)
    (hr : run Served.step (Served.start j₀) acts = some s)
    (hcut : ¬Met Served.step (CutsOff i) (Served.start j₀) acts) : s.pl.bc.Kept i := by
  refine run_induct (motive := fun acts s =>
    ¬Met Served.step (CutsOff i) (Served.start j₀) acts → s.pl.bc.Kept i) (fun _ => ?_) ?_ hr hcut
  · constructor <;> (intro r hr; cases hr)
  · intro as s a s' has ih hs hmet
    have hnot := mt (met_snoc has).2 hmet
    exact kept_step (Exact.reachable hend ⟨as, has⟩).1 (ih fun h => hnot (.inl h)) hs
      fun h => hnot (.inr h)

/-- There is room for the first 1024 events. -/
theorem not_cutsOff_of_short (hi : Inv j₀ s) (h : s.pl.bc.sent.length ≤ 1024) :
    ¬s.pl.bc.CutsOff i := by
  rintro ⟨hne, -, r, hr, ho, hfull⟩
  obtain ⟨acts, hg⟩ := hi.good
  have hseen := ((hg.inv.bc.live hr).2.seen ho).length_le
  have hpos := List.length_pos_iff.2 hne
  simp only [Relay.seen, Broadcaster.sent, List.length_append] at hseen h
  omega

theorem not_met_cutsOff {acts : List Act} (hend : j₀.endedAt = none)
    (hr : run Served.step (Served.start j₀) acts = some s) (h : s.pl.bc.sent.length ≤ 1024) :
    ¬Met Served.step (CutsOff i) (Served.start j₀) acts := by
  intro hmet
  obtain ⟨t, a, ht, hts, -, hcut⟩ := hmet.on_the_way hr
  obtain ⟨hi, -⟩ := Exact.reachable hend ht
  have hlen : t.pl.bc.sent.length ≤ s.pl.bc.sent.length :=
    (hts.invariant (I := fun s => Inv j₀ s ∧ t.pl.bc.sent.length ≤ s.pl.bc.sent.length)
      ⟨hi, Nat.le_refl _⟩ fun s a s' h hs =>
        ⟨(h.1.step hs).1, Nat.le_trans h.2 (sent_mono h.1 hs)⟩).2
  exact not_cutsOff_of_short hi (Nat.le_trans hlen h) hcut

/-! ## At rest -/

/-- Neither the tasks between the job and the client of `i` nor the client can take a step. -/
structure Settled (i : SubId) (s : Served) : Prop where
  frame : s.step (.pipe (.bcast .frame)) = none
  relay : ∀ a, a = .recv ∨ a = .send → s.step (.pipe (.bcast (.relay i a))) = none
  fwd : ∀ a, a = .recv ∨ a = .send → s.step (.fwd i a) = none
  client : ∀ f, s.fwds i = some f → f.ended = false → s.step (.fwd i .clientRecv) = none

/-- When nothing moves, the broadcaster has handled everything. -/
theorem Settled.sent_eq (h : s.Settled i) (hb : s.pl.bc.Inv) : s.pl.bc.sent = s.pl.bc.frames := by
  have hq : s.pl.bc.frameCh.queue = [] := by
    cases hok : s.pl.bc.frameRxOk with
    | false => exact (hb.drained hok).2.2
    | true =>
      cases hq : s.pl.bc.frameCh.queue with
      | nil => rfl
      | cons ev q =>
        have hframe := h.frame
        simp [step, ofClient, Pipeline.step, Broadcaster.step, hok, Chan.recv, hq] at hframe
  rw [Broadcaster.sent, hq, List.append_nil]

/-- A forwarder that has not ended waits for its relay, and has passed on everything. -/
theorem Settled.waiting (h : s.Settled i) (hf : s.fwds i = some f) {r : Relay}
    (hr : s.pl.bc.subs i = .live r) (hinv : f.Inv r) (hex : f.Exact r) (ho : f.ch.rxOpen = true)
    (hend : f.ended = false) : f.pc = .recv ∧ f.ch.queue = [] := by
  have hclient : f.clientRecv = none := by
    have hstep := h.client f hf hend
    simpa [step, hr, hf, stepFwd] using hstep
  have hq : f.ch.queue = [] := by
    cases hq : f.ch.queue with
    | nil => rfl
    | cons item q => simp [Forwarder.clientRecv, ho, Chan.recv, hq] at hclient
  refine ⟨?_, hq⟩
  cases hpc : f.pc with
  | recv => rfl
  | send item last =>
    have hsend := h.fwd .send (.inr rfl)
    have hroom : f.ch.send item = some (true, f.ch.push item) := by
      refine Chan.send_eq_some_iff.2 (.inl ⟨rfl, ho, ?_, rfl⟩)
      rw [hq, hex.cap]
      exact Nat.one_pos
    cases last <;> simp [step, hr, hf, stepFwd, hpc, hroom] at hsend
  | done =>
    have hz : f.ch.senders = 0 := by
      rw [hinv.senders, if_pos hpc]
    simp [Forwarder.clientRecv, ho, Chan.recv, hq, hz] at hclient

/-- The relay of such a forwarder has handed over the whole log. -/
theorem Settled.relay_got (h : s.Settled i) (hb : s.pl.bc.Inv) (hk : s.pl.bc.Kept i)
    (hf : s.fwds i = some f) {r : Relay} (hrelay : s.pl.bc.subs i = .live r)
    (hpc : f.pc = .recv) (ho : r.clientCh.rxOpen = true) : r.got = s.pl.bc.sent := by
  have hrecv : r.clientRecv = none := by
    have hstep := h.fwd .recv (.inl rfl)
    cases hrecv : r.clientRecv with
    | none => rfl
    | some p =>
      obtain ⟨ev, r'⟩ := p
      simp only [step, hrelay, hf, stepFwd, hpc, if_true, hrecv] at hstep
      split at hstep <;> cases hstep
  have hempty : r.clientCh.queue = [] := by
    cases hq : r.clientCh.queue with
    | nil => rfl
    | cons ev q => simp [Relay.clientRecv, ho, Chan.recv, hq] at hrecv
  have hquiet : ∀ a, a = .recv ∨ a = .send → r.step a = none := by
    intro a ha
    have hstep := h.relay a ha
    have hown : ofClient (.bcast (.relay i a)) = false := by
      rcases ha with rfl | rfl <;> rfl
    cases hr' : r.step a with
    | none => rfl
    | some r' => simp [step, hown, Pipeline.step, Broadcaster.step, hrelay, hr'] at hstep
  rw [h.sent_eq hb, ← hk.seen hb hrelay ho]
  exact Relay.got_of_quiet (hb.live hrelay).1 ho (hquiet _ (.inl rfl)) (hquiet _ (.inr rfl)) hempty

theorem Settled.delivered (h : s.Settled i) (hi : Inv j₀ s) (hex : s.Exact)
    (hk : s.pl.bc.Kept i) (hf : s.fwds i = some f) (ho : f.ch.rxOpen = true) :
    f.got = logFormat.items s.pl.bc.sent ∧
    (f.ended = true ↔ logFormat.complete s.pl.bc.sent = true) := by
  cases hend : f.ended with
  | true =>
    obtain ⟨hcomplete, hgot⟩ := (items_of_exact hi hex hf).2 hend
    exact ⟨hgot, fun _ => hcomplete, fun _ => rfl⟩
  | false =>
    obtain ⟨acts, hg⟩ := hi.good
    obtain ⟨r, hrelay, hinv⟩ := hi.fwd i f hf
    have hexact := hex i f r hf hrelay
    obtain ⟨hpc, hq⟩ := h.waiting hf hrelay hinv hexact ho hend
    have hgot := h.relay_got hg.inv.bc hk hf hrelay hpc (hinv.relayOpen (by simp [hpc]))
    have hitems := hexact.items_of_recv hpc ho
    have hopen := hexact.goesOn (by rw [hpc]; rfl)
    rw [hq, List.append_nil, hgot] at hitems
    rw [hgot] at hopen
    rw [hopen]
    exact ⟨hitems, Iff.rfl⟩

/-- When neither the tasks on the way nor the client can take another step, the client of a stream
that was not cut off, if it is still connected, has been handed everything the job has logged, and
its stream has ended exactly if the log is complete. -/
theorem settled_delivered {jobId : JobId} {user : User} {pid : Pid} {now : DateTime}
    {acts : List Act}
    (hr : run Served.step (Served.start (Job.started jobId user pid now)) acts = some s)
    (hcut : ¬Met Served.step (CutsOff i) (Served.start (Job.started jobId user pid now)) acts)
    (hf : s.fwds i = some f) (ho : f.ch.rxOpen = true) (h : s.Settled i) :
    f.got = logFormat.items s.pl.bc.sent ∧
    (f.ended = true ↔ logFormat.complete s.pl.bc.sent = true) := by
  obtain ⟨hi, hex⟩ := Exact.reachable rfl ⟨acts, hr⟩
  exact h.delivered hi hex (kept_run rfl hr hcut) hf ho

/-- The end of the source is the last thing the broadcaster learns. -/
def endedRun (b : UInt8) : List Act := logsRun 0 b ++ [.pipe (.bcast .frame)]

theorem settled_delivered_endedRun : ∃ s f,
    run Served.step (Served.start (Job.started ⟨"job"⟩ ⟨"alice"⟩ ⟨7⟩ ⟨1⟩)) (endedRun 104) = some s ∧
    s.fwds 0 = some f ∧ f.got = logFormat.items s.pl.bc.sent ∧
    (f.ended = true ↔ logFormat.complete s.pl.bc.sent = true) := by
  have hrun : ((run Served.step (Served.start (Job.started ⟨"job"⟩ ⟨"alice"⟩ ⟨7⟩ ⟨1⟩))
      (endedRun 104)).bind fun s => (s.fwds 0).map fun f => f.ch.rxOpen && f.ended &&
        decide (s.pl.bc.sent.length ≤ 1024) &&
        ([.pipe (.bcast .frame), .pipe (.bcast (.relay 0 .recv)), .pipe (.bcast (.relay 0 .send)),
          .fwd 0 .recv, .fwd 0 .send] : List Act).all fun a => (s.step a).isNone) = some true := by
    decide +kernel
  obtain ⟨s, hs, hf⟩ := Option.bind_eq_some_iff.1 hrun
  obtain ⟨f, hf, hall⟩ := Option.map_eq_some_iff.1 hf
  simp only [List.all_cons, List.all_nil, Bool.and_true, Bool.and_eq_true, decide_eq_true_eq,
    Option.isNone_iff_eq_none] at hall
  obtain ⟨⟨⟨ho, hend⟩, hshort⟩, hframe, hrecv, hsend, hfrecv, hfsend⟩ := hall
  have hsettled : s.Settled 0 := by
    refine ⟨hframe, fun a ha => ?_, fun a ha => ?_, fun f' hf' hne => ?_⟩
    · rcases ha with rfl | rfl
      · exact hrecv
      · exact hsend
    · rcases ha with rfl | rfl
      · exact hfrecv
      · exact hfsend
    · obtain rfl : f = f' := Option.some.inj (hf.symm.trans hf')
      rw [hend] at hne
      cases hne
  exact ⟨s, f, hs, hf, settled_delivered hs (not_met_cutsOff rfl hs hshort) hf ho hsettled⟩

end Served

end JobRunner
