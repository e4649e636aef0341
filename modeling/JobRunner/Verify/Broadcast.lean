import JobRunner.Verify.Relay

/-!
# The broadcaster and its relays

`Broadcaster.Inv` holds in every state of a broadcaster whose source channel is fed by an arbitrary
sender. Its heart is `Sub.Ok`: a live relay has seen a prefix of the broadcaster's history, and the
whole of it while the broadcaster has it registered. From it:

* `seen_prefix` and `seen_whole`: the events of every subscriber whose client listens;
* `seen_late`: a subscriber that arrives after the source is closed gets the whole history;
* `stuck`: once a relay whose client listens is no longer registered, it has no step left but
  those that hand over what it has, and its client's receive never ends.
-/

namespace JobRunner

open Mpsc

namespace Sub

/-- A subscriber against the history of the broadcaster. Only a live relay is registered. -/
def Ok (reg : Bool) (h : List FrameEvent) : Sub → Prop
  | .live r => r.Inv reg ∧ r.Flow reg h
  | _ => reg = false

theorem Ok.live {reg : Bool} {h : List FrameEvent} {sub : Sub} (hok : sub.Ok reg h)
    (hreg : reg = true) : ∃ r, sub = .live r := by
  cases sub with
  | live r => exact ⟨r, rfl⟩
  | absent => exact absurd (Eq.trans (Eq.symm hok) hreg) Bool.false_ne_true
  | sending => exact absurd (Eq.trans (Eq.symm hok) hreg) Bool.false_ne_true
  | queued b => exact absurd (Eq.trans (Eq.symm hok) hreg) Bool.false_ne_true
  | gone => exact absurd (Eq.trans (Eq.symm hok) hreg) Bool.false_ne_true

theorem Ok.dropHandle {h : List FrameEvent} {sub : Sub} (hok : sub.Ok true h) :
    sub.dropHandle.Ok false h := by
  obtain ⟨r, rfl⟩ := hok.live rfl
  exact ⟨hok.1.dropHandle, hok.2.dropHandle⟩

/-- A subscriber that is not registered is not offered the next event. -/
theorem Ok.grow {h : List FrameEvent} {sub : Sub} (hok : sub.Ok false h) (ev : FrameEvent) :
    sub.Ok false (h ++ [ev]) := by
  cases sub with
  | live r => exact ⟨hok.1, hok.2.grow ev⟩
  | _ => rfl

/-- A registered one is, and stays registered exactly if it takes it. -/
theorem Ok.offer {h : List FrameEvent} {sub : Sub} (hok : sub.Ok true h) (ev : FrameEvent) :
    (sub.offer ev).2.Ok (sub.offer ev).1 (h ++ [ev]) := by
  obtain ⟨r, rfl⟩ := hok.live rfl
  rcases r.accept_cases ev with ⟨_, _, he⟩ | ⟨_, he⟩
  · simp only [Sub.offer, he]
    exact r.accepted hok.1 hok.2 ev
  · simp only [Sub.offer, he]
    exact ⟨hok.1.dropHandle, (hok.2.grow ev).dropHandle⟩

end Sub

namespace Broadcaster

/-! ## `retain` and `clear`, relay by relay -/

theorem retain_eq (ev : FrameEvent) : ∀ (is : List SubId) (subs : SubId → Sub), is.Nodup →
    retain ev is subs = (is.filter fun i => ((subs i).offer ev).1,
      fun i => if i ∈ is then ((subs i).offer ev).2 else subs i) := by
  intro is
  induction is with
  | nil => intro subs _; simp [retain]
  | cons i is ih =>
    intro subs hnd
    obtain ⟨hni, hnd⟩ := List.nodup_cons.1 hnd
    have hne : ∀ j ∈ is, Function.update subs i ((subs i).offer ev).2 j = subs j := fun j hj =>
      Function.update_of_ne (by rintro rfl; exact hni hj) _ _
    have hfil : (is.filter fun j =>
        ((Function.update subs i ((subs i).offer ev).2 j).offer ev).1) =
        is.filter fun j => ((subs j).offer ev).1 :=
      List.filter_congr fun j hj => by rw [hne j hj]
    simp only [retain, ih _ hnd, hfil, Prod.mk.injEq]
    constructor
    · rw [List.filter_cons]
    · funext j
      by_cases hji : j = i
      · subst hji
        simp [hni]
      · by_cases hj : j ∈ is
        · simp [hj, hne j hj]
        · simp [hj, hji]

theorem clear_eq : ∀ (is : List SubId) (subs : SubId → Sub), is.Nodup →
    clear is subs = fun i => if i ∈ is then (subs i).dropHandle else subs i := by
  intro is
  induction is with
  | nil => intro subs _; simp [clear]
  | cons i is ih =>
    intro subs hnd
    obtain ⟨hni, hnd⟩ := List.nodup_cons.1 hnd
    rw [clear, ih _ hnd]
    funext j
    by_cases hji : j = i
    · subst hji
      simp [hni]
    · simp [hji]

/-! ## What a step does -/

section Steps

variable {s s' : Broadcaster}

theorem step_frame (h : s.step .frame = some s') :
    s.frameRxOk = true ∧
    ((∃ ev q, s.frameCh.queue = ev :: q ∧
        s' = s.onFrame { s.frameCh with queue := q } (some ev)) ∨
      (s.frameCh.queue = [] ∧ s.frameCh.senders = 0 ∧ s' = s.onFrame s.frameCh none)) := by
  simp only [step, Option.ite_none_right_eq_some] at h
  obtain ⟨hok, h⟩ := h
  refine ⟨hok, ?_⟩
  cases hrecv : s.frameCh.recv with
  | none => simp [hrecv] at h
  | some p =>
    obtain ⟨o, ch⟩ := p
    rcases Chan.recv_eq_some_iff.1 hrecv with ⟨ev, q, hq, rfl, rfl⟩ | ⟨hq, hs, rfl, rfl⟩
    · exact .inl ⟨ev, q, hq, by simpa [hrecv] using h.symm⟩
    · exact .inr ⟨hq, hs, by simpa [hrecv] using h.symm⟩

/-- A request is served while its client waits, and forgotten when it does not. -/
theorem step_req {i : SubId} (h : s.step (.req i) = some s') :
    s.reqRxOk = true ∧ ∃ q, s.reqCh.queue = i :: q ∧
    ((s.subs i = .queued true ∧ s.frameRxOk = true ∧
        s' = { s with
          reqCh := ({ s.reqCh with queue := q } : Chan SubId).dropTx
          relays := s.relays ++ [i]
          subs := Function.update s.subs i (.live (Relay.start s.frames)) }) ∨
      (s.subs i = .queued true ∧ s.frameRxOk = false ∧
        s' = { s with
          reqCh := ({ s.reqCh with queue := q } : Chan SubId).dropTx
          subs := Function.update s.subs i (.live (Relay.start s.frames).dropHandle) }) ∨
      (s.subs i = .queued false ∧
        s' = { s with
          reqCh := { s.reqCh with queue := q }
          subs := Function.update s.subs i .gone })) := by
  simp only [step, Option.ite_none_right_eq_some] at h
  obtain ⟨hok, h⟩ := h
  refine ⟨hok, ?_⟩
  cases hrecv : s.reqCh.recv with
  | none => simp [hrecv] at h
  | some p =>
    obtain ⟨o, ch⟩ := p
    rcases Chan.recv_eq_some_iff.1 hrecv with ⟨j, q, hq, rfl, rfl⟩ | ⟨hq, hs, rfl, rfl⟩
    · simp only [hrecv, Option.ite_none_right_eq_some] at h
      obtain ⟨rfl, h⟩ := h
      refine ⟨q, hq, ?_⟩
      unfold onReq at h
      split at h
      · next hsub =>
        split at h
        · next hfr => exact .inl ⟨hsub, hfr, by simpa using h.symm⟩
        · next hfr => exact .inr (.inl ⟨hsub, by simpa using hfr, by simpa using h.symm⟩)
      · next hsub => exact .inr (.inr ⟨hsub, by simpa using h.symm⟩)
      · cases h
    · simp [hrecv] at h

theorem step_reqEnd (h : s.step .reqEnd = some s') :
    s.reqRxOk = true ∧ s.reqCh.queue = [] ∧ s.reqCh.senders = 0 ∧
      s' = loopTop { s with reqRxOk := false } := by
  simp only [step, Option.ite_none_right_eq_some] at h
  obtain ⟨hok, h⟩ := h
  cases hrecv : s.reqCh.recv with
  | none => simp [hrecv] at h
  | some p =>
    obtain ⟨o, ch⟩ := p
    rcases Chan.recv_eq_some_iff.1 hrecv with ⟨j, q, hq, rfl, rfl⟩ | ⟨hq, hs, rfl, rfl⟩
    · simp [hrecv] at h
    · exact ⟨hok, hq, hs, by simpa [hrecv] using h.symm⟩

theorem step_subscribe {i : SubId} (h : s.step (.subscribe i) = some s') :
    s.handle = true ∧ s.subs i = .absent ∧
      s' = { s with reqCh := s.reqCh.cloneTx, subs := Function.update s.subs i .sending } := by
  simp only [step] at h
  split at h
  · next hh hsub => exact ⟨hh, hsub, by simpa using h.symm⟩
  · cases h

theorem step_sendReq {i : SubId} (h : s.step (.sendReq i) = some s') :
    s.subs i = .sending ∧
    ((s.reqCh.rxOpen = true ∧ s.reqCh.queue.length < s.reqCh.cap ∧
        s' = { s with
          reqCh := s.reqCh.push i, subs := Function.update s.subs i (.queued true) }) ∨
      (s.reqCh.rxOpen = false ∧
        s' = { s with reqCh := s.reqCh.dropTx, subs := Function.update s.subs i .gone })) := by
  simp only [step] at h
  split at h
  · next hsub =>
    refine ⟨hsub, ?_⟩
    cases hsend : s.reqCh.send i with
    | none => simp [hsend] at h
    | some p =>
      obtain ⟨ok, ch⟩ := p
      rcases Chan.send_eq_some_iff.1 hsend with ⟨rfl, ho, hl, rfl⟩ | ⟨rfl, ho, rfl⟩
      · exact .inl ⟨ho, hl, by simpa [hsend] using h.symm⟩
      · exact .inr ⟨ho, by simpa [hsend] using h.symm⟩
  · cases h

theorem step_giveUp {i : SubId} (h : s.step (.giveUp i) = some s') :
    ∃ sub, s' = { s with reqCh := s.reqCh.dropTx, subs := Function.update s.subs i sub } ∧
      ((s.subs i = .sending ∧ sub = .gone) ∨
        (s.subs i = .queued true ∧ sub = .queued false)) := by
  simp only [step] at h
  split at h
  · next hsub => exact ⟨.gone, by simpa using h.symm, .inl ⟨hsub, rfl⟩⟩
  · next hsub => exact ⟨.queued false, by simpa using h.symm, .inr ⟨hsub, rfl⟩⟩
  · cases h

theorem step_relay {i : SubId} {a : Relay.Act} (h : s.step (.relay i a) = some s') :
    ∃ r r', s.subs i = .live r ∧ r.step a = some r' ∧
      s' = { s with subs := Function.update s.subs i (.live r') } := by
  simp only [step] at h
  split at h
  · next r hsub =>
    cases hr : r.step a with
    | none => simp [hr] at h
    | some r' => exact ⟨r, r', hsub, hr, by simpa [hr] using h.symm⟩
  · cases h

theorem step_dropHandle (h : s.step .dropHandle = some s') :
    s.handle = true ∧ s' = { s with handle := false, reqCh := s.reqCh.dropTx } := by
  simp only [step, Option.ite_none_right_eq_some, Option.some.injEq] at h
  exact ⟨h.1, h.2.symm⟩

theorem openStep_offer {ev : FrameEvent} (h : s.openStep (.offer ev) = some s') :
    s.frameCh.senders ≠ 0 ∧
    ((s.frameCh.rxOpen = true ∧ s.frameCh.queue.length < s.frameCh.cap ∧
        s' = { s with frameCh := s.frameCh.push ev }) ∨
      (s.frameCh.rxOpen = false ∧ s' = s)) := by
  simp only [openStep] at h
  split at h
  · cases h
  · next hs =>
    refine ⟨hs, ?_⟩
    cases hsend : s.frameCh.send ev with
    | none => simp [hsend] at h
    | some p =>
      obtain ⟨ok, ch⟩ := p
      rcases Chan.send_eq_some_iff.1 hsend with ⟨rfl, ho, hl, rfl⟩ | ⟨rfl, ho, rfl⟩
      · exact .inl ⟨ho, hl, by simpa [hsend] using h.symm⟩
      · exact .inr ⟨ho, by simpa [hsend] using h.symm⟩

theorem openStep_closeSource (h : s.openStep .closeSource = some s') :
    s.frameCh.senders ≠ 0 ∧ s' = { s with frameCh := s.frameCh.dropTx } := by
  simp only [openStep] at h
  split at h
  · cases h
  · next hs => exact ⟨hs, by simpa using h.symm⟩

/-- Ending the task drops its receivers and its own handle; nothing else changes. -/
theorem loopTop_cases (s : Broadcaster) :
    s.loopTop = s ∨
    (s.frameRxOk = false ∧ s.reqRxOk = false ∧
      s.loopTop = { s with frameCh := s.frameCh.dropRx, reqCh := s.reqCh.dropTx.dropRx }) := by
  unfold loopTop
  split
  · next h =>
    simp only [Bool.and_eq_true, Bool.not_eq_true'] at h
    exact .inr ⟨h.1, h.2, rfl⟩
  · exact .inl rfl

end Steps

/-! ## The invariant -/

structure Inv (s : Broadcaster) : Prop where
  nodup : s.relays.Nodup
  ok : ∀ i, (s.subs i).Ok (decide (i ∈ s.relays)) s.frames
  reqNodup : s.reqCh.queue.Nodup
  queued : ∀ i ∈ s.reqCh.queue, ∃ waiting, s.subs i = .queued waiting
  drained : s.frameRxOk = false →
    s.relays = [] ∧ s.frameCh.senders = 0 ∧ s.frameCh.queue = []
  srcOpen : s.frameRxOk = true → s.frameCh.rxOpen = true
  srcCap : s.frameCh.cap = 2
  srcLen : s.frameCh.queue.length ≤ 2

namespace Inv

variable {s s' : Broadcaster}

theorem start : Inv Broadcaster.start where
  nodup := List.nodup_nil
  ok _ := rfl
  reqNodup := List.nodup_nil
  queued i hi := by cases hi
  drained hf := by cases hf
  srcOpen _ := rfl
  srcCap := rfl
  srcLen := Nat.zero_le _

theorem mem_relays (h : Inv s) {i : SubId} (hi : i ∈ s.relays) : ∃ r, s.subs i = .live r :=
  (h.ok i).live (by simpa using hi)

theorem live (h : Inv s) {i : SubId} {r : Relay} (hr : s.subs i = .live r) :
    r.Inv (decide (i ∈ s.relays)) ∧ r.Flow (decide (i ∈ s.relays)) s.frames := by
  have hok := h.ok i
  rw [hr] at hok
  exact hok

/-- A subscriber without a relay is not registered. -/
theorem not_mem (h : Inv s) {i : SubId} (hr : ∀ r, s.subs i ≠ .live r) : i ∉ s.relays := fun hi =>
  let ⟨r, hl⟩ := h.mem_relays hi
  hr r hl

theorem loopTop (h : Inv s) : Inv s.loopTop := by
  rcases loopTop_cases s with he | ⟨hf, -, he⟩
  · rw [he]
    exact h
  · rw [he]
    exact
      { h with
        reqNodup := List.nodup_nil
        queued := fun i hi => by cases hi
        drained := fun _ => ⟨(h.drained hf).1, (h.drained hf).2.1, rfl⟩
        srcOpen := fun hf' => absurd (hf.symm.trans hf') Bool.false_ne_true
        srcLen := Nat.zero_le _ }

/-- One subscriber moves on to `sub`, and may be registered by it. -/
theorem update {relays : List SubId} (h : Inv s) {i : SubId} {sub : Sub}
    (hmem : ∀ j, j ≠ i → (j ∈ relays ↔ j ∈ s.relays))
    (hsub : sub.Ok (decide (i ∈ relays)) s.frames) :
    ∀ j, (Function.update s.subs i sub j).Ok (decide (j ∈ relays)) s.frames := by
  intro j
  by_cases hj : j = i
  · subst hj
    rw [Function.update_self]
    exact hsub
  · rw [Function.update_of_ne hj, decide_eq_decide.2 (hmem j hj)]
    exact h.ok j

/-- A queued request is not the one of a subscriber in another phase. -/
theorem queued_update (h : Inv s) {i : SubId} {sub : Sub}
    (hi : ∀ waiting, s.subs i ≠ .queued waiting) :
    ∀ j ∈ s.reqCh.queue, ∃ waiting, Function.update s.subs i sub j = .queued waiting := by
  intro j hj
  obtain ⟨waiting, hw⟩ := h.queued j hj
  have hne : j ≠ i := by
    rintro rfl
    exact hi waiting hw
  exact ⟨waiting, by rw [Function.update_of_ne hne, hw]⟩

/-- The handler of the end of the source unregisters every relay. -/
theorem onFrame_none (h : Inv s) (hq : s.frameCh.queue = []) (hz : s.frameCh.senders = 0) :
    Inv (s.onFrame s.frameCh none) := by
  refine loopTop ?_
  refine { h with nodup := List.nodup_nil, ok := ?_, queued := ?_, drained := ?_, srcOpen := ?_ }
  · intro i
    have hok := h.ok i
    change (clear s.relays s.subs i).Ok (decide (i ∈ [])) s.frames
    rw [clear_eq _ _ h.nodup]
    by_cases hi : i ∈ s.relays
    · simp only [hi, decide_true, if_true, List.not_mem_nil, decide_false] at hok ⊢
      exact hok.dropHandle
    · simp only [hi, decide_false, if_false, List.not_mem_nil] at hok ⊢
      exact hok
  · intro i hi
    obtain ⟨waiting, hw⟩ := h.queued i hi
    have hni : i ∉ s.relays := h.not_mem (by simp [hw])
    refine ⟨waiting, ?_⟩
    change clear s.relays s.subs i = .queued waiting
    rw [clear_eq _ _ h.nodup]
    simp [hni, hw]
  · exact fun _ => ⟨rfl, hz, hq⟩
  · intro hf
    cases hf

/-- The handler of an event offers it to every registered relay. -/
theorem onFrame_some (h : Inv s) (hok : s.frameRxOk = true) {ev : FrameEvent}
    {q : List FrameEvent} (hq : s.frameCh.queue = ev :: q) :
    Inv (s.onFrame { s.frameCh with queue := q } (some ev)) := by
  have hret := retain_eq ev s.relays s.subs h.nodup
  have hrel : (s.onFrame { s.frameCh with queue := q } (some ev)).relays =
      s.relays.filter fun i => ((s.subs i).offer ev).1 := by
    simp only [onFrame, hret]
  have hsubs : ∀ i, (s.onFrame { s.frameCh with queue := q } (some ev)).subs i =
      if i ∈ s.relays then ((s.subs i).offer ev).2 else s.subs i := by
    intro i
    simp only [onFrame, hret]
  constructor
  · rw [hrel]
    exact h.nodup.filter _
  · intro i
    have hi := h.ok i
    rw [hsubs, hrel]
    by_cases hmem : i ∈ s.relays
    · rw [decide_eq_true hmem] at hi
      simp only [hmem, if_true, List.mem_filter, true_and, Bool.decide_eq_true]
      exact hi.offer ev
    · rw [decide_eq_false hmem] at hi
      simp only [hmem, if_false, List.mem_filter, false_and, decide_false]
      exact hi.grow ev
  · exact h.reqNodup
  · intro i hi
    obtain ⟨waiting, hw⟩ := h.queued i hi
    have hni : i ∉ s.relays := h.not_mem (by simp [hw])
    exact ⟨waiting, by rw [hsubs, if_neg hni, hw]⟩
  · intro hf
    exact absurd (hf.symm.trans hok) Bool.false_ne_true
  · exact h.srcOpen
  · exact h.srcCap
  · have hlen := h.srcLen
    rw [hq, List.length_cons] at hlen
    change q.length ≤ 2
    omega

/-- The handler of a request starts a relay on the history so far. -/
theorem onReq (h : Inv s) {i : SubId} (hs : s.step (.req i) = some s') : Inv s' := by
  obtain ⟨-, q, hq, hcase⟩ := step_req hs
  have hnd := h.reqNodup
  rw [hq, List.nodup_cons] at hnd
  have hqueued : ∀ sub, ∀ j ∈ q, ∃ waiting, Function.update s.subs i sub j = .queued waiting := by
    intro sub j hj
    have hne : j ≠ i := by
      rintro rfl
      exact hnd.1 hj
    rw [Function.update_of_ne hne]
    exact h.queued j (by rw [hq]; exact List.mem_cons_of_mem _ hj)
  have hni : i ∉ s.relays := by
    obtain ⟨waiting, hw⟩ := h.queued i (by rw [hq]; exact List.mem_cons_self)
    exact h.not_mem (by simp [hw])
  rcases hcase with ⟨-, hf, rfl⟩ | ⟨-, hf, rfl⟩ | ⟨-, rfl⟩
  · refine { h with nodup := ?_, ok := ?_, reqNodup := hnd.2, queued := hqueued _, drained := ?_ }
    · exact List.nodup_append.2 ⟨h.nodup, by simp, by
        intro a ha b hb
        obtain rfl : b = i := by simpa using hb
        rintro rfl
        exact hni ha⟩
    · refine h.update (fun j hj => by simp [hj]) ?_
      simp only [List.mem_append, List.mem_singleton, or_true, decide_true]
      exact ⟨.start _, .start _⟩
    · intro hf'
      exact absurd (hf'.symm.trans hf) Bool.false_ne_true
  · refine { h with ok := ?_, reqNodup := hnd.2, queued := hqueued _ }
    refine h.update (fun j _ => Iff.rfl) ?_
    simp only [hni, decide_false]
    exact ⟨(Relay.Inv.start _).dropHandle, (Relay.Flow.start _).dropHandle⟩
  · refine { h with ok := ?_, reqNodup := hnd.2, queued := hqueued _ }
    refine h.update (fun j _ => Iff.rfl) ?_
    simp only [hni, decide_false]
    rfl

/-- Every step of the broadcaster, of a relay or of a client keeps the invariant. -/
theorem step (h : Inv s) {a : Act} (hs : s.step a = some s') : Inv s' := by
  cases a with
  | frame =>
    obtain ⟨hok, ⟨ev, q, hq, rfl⟩ | ⟨hq, hz, rfl⟩⟩ := step_frame hs
    · exact h.onFrame_some hok hq
    · exact h.onFrame_none hq hz
  | req i => exact h.onReq hs
  | reqEnd =>
    obtain ⟨-, hq, -, rfl⟩ := step_reqEnd hs
    exact Inv.loopTop { h with }
  | subscribe i =>
    obtain ⟨-, hsub, rfl⟩ := step_subscribe hs
    have hni : i ∉ s.relays := h.not_mem (by simp [hsub])
    refine { h with ok := ?_, queued := h.queued_update (by simp [hsub]) }
    exact h.update (fun j _ => Iff.rfl) (by simp [hni, Sub.Ok])
  | sendReq i =>
    obtain ⟨hsub, ⟨-, -, rfl⟩ | ⟨-, rfl⟩⟩ := step_sendReq hs
    · have hni : i ∉ s.relays := h.not_mem (by simp [hsub])
      have hnq : i ∉ s.reqCh.queue := fun hi => by
        obtain ⟨waiting, hw⟩ := h.queued i hi
        rw [hsub] at hw
        cases hw
      refine { h with ok := ?_, reqNodup := ?_, queued := ?_ }
      · exact h.update (fun j _ => Iff.rfl) (by simp [hni, Sub.Ok])
      · rw [Chan.push_queue]
        exact List.nodup_append.2 ⟨h.reqNodup, by simp, by
          intro a ha b hb
          obtain rfl : b = i := by simpa using hb
          rintro rfl
          exact hnq ha⟩
      · intro j hj
        rw [Chan.push_queue] at hj
        by_cases hji : j = i
        · subst hji
          exact ⟨true, Function.update_self ..⟩
        · obtain ⟨waiting, hw⟩ := h.queued j (by simpa [hji] using hj)
          exact ⟨waiting, (Function.update_of_ne hji ..).trans hw⟩
    · have hni : i ∉ s.relays := h.not_mem (by simp [hsub])
      refine { h with ok := ?_, queued := h.queued_update (by simp [hsub]) }
      exact h.update (fun j _ => Iff.rfl) (by simp [hni, Sub.Ok])
  | giveUp i =>
    obtain ⟨sub, rfl, ⟨hsub, rfl⟩ | ⟨hsub, rfl⟩⟩ := step_giveUp hs
    · have hni : i ∉ s.relays := h.not_mem (by simp [hsub])
      refine { h with ok := ?_, queued := h.queued_update (by simp [hsub]) }
      exact h.update (fun j _ => Iff.rfl) (by simp [hni, Sub.Ok])
    · have hni : i ∉ s.relays := h.not_mem (by simp [hsub])
      refine { h with ok := ?_, queued := ?_ }
      · exact h.update (fun j _ => Iff.rfl) (by simp [hni, Sub.Ok])
      · intro j hj
        by_cases hji : j = i
        · subst hji
          exact ⟨false, Function.update_self ..⟩
        · obtain ⟨waiting, hw⟩ := h.queued j hj
          exact ⟨waiting, (Function.update_of_ne hji ..).trans hw⟩
  | relay i a =>
    obtain ⟨r, r', hr, ha, rfl⟩ := step_relay hs
    obtain ⟨hinv, hflow⟩ := h.live hr
    refine { h with ok := ?_, queued := h.queued_update (by simp [hr]) }
    exact h.update (fun j _ => Iff.rfl) ⟨hinv.step ha, hflow.step hinv ha⟩
  | dropHandle =>
    obtain ⟨-, rfl⟩ := step_dropHandle hs
    exact { h with }

/-- So does the sender of its source. -/
theorem openStep (h : Inv s) {a : OpenAct} (hs : s.openStep a = some s') : Inv s' := by
  cases a with
  | act a => exact h.step hs
  | offer ev =>
    obtain ⟨hz, ⟨-, hl, rfl⟩ | ⟨-, rfl⟩⟩ := openStep_offer hs
    · refine { h with drained := fun hf => (hz (h.drained hf).2.1).elim, srcLen := ?_ }
      have hcap := h.srcCap
      rw [Chan.push_queue, List.length_append, List.length_singleton]
      omega
    · exact h
  | closeSource =>
    obtain ⟨hz, rfl⟩ := openStep_closeSource hs
    exact { h with drained := fun hf => (hz (h.drained hf).2.1).elim }

theorem reachable (h : Lts.Reachable Broadcaster.openStep Broadcaster.start s) : Inv s :=
  h.invariant (I := Inv) Inv.start fun _ _ _ hi hs => hi.openStep hs

end Inv

/-! ## What subscribers have seen -/

section Seen

variable {s s' : Broadcaster}

/-- The subscriber sees a prefix of the history, the whole of it while it is registered. -/
theorem seen_of_reachable (h : Lts.Reachable openStep start s) {i : SubId} {r : Relay}
    (hr : s.subs i = .live r) (ho : r.clientCh.rxOpen = true) :
    r.seen <+: s.frames ∧ (i ∈ s.relays → r.seen = s.frames) := by
  obtain ⟨-, hflow⟩ := (Inv.reachable h).live hr
  exact ⟨hflow.seen ho, fun hi => hflow.whole ho (by simpa using hi)⟩

/-- An event reaches every registered relay, which takes it or is no longer registered. -/
theorem onFrame_sub (h : Inv s) (ch : Chan FrameEvent) (ev : FrameEvent) (i : SubId) :
    (i ∈ (s.onFrame ch (some ev)).relays ↔ i ∈ s.relays ∧ ((s.subs i).offer ev).1 = true) ∧
    (s.onFrame ch (some ev)).subs i =
      if i ∈ s.relays then ((s.subs i).offer ev).2 else s.subs i := by
  simp only [onFrame, retain_eq ev s.relays s.subs h.nodup, List.mem_filter, and_self]

theorem onFrame_end_sub (h : Inv s) (ch : Chan FrameEvent) (i : SubId) :
    (s.onFrame ch none).frames = s.frames ∧ (s.onFrame ch none).frameRxOk = false ∧
    (s.onFrame ch none).relays = [] ∧
    (s.onFrame ch none).subs i = if i ∈ s.relays then (s.subs i).dropHandle else s.subs i := by
  have hcl := clear_eq s.relays s.subs h.nodup
  simp only [onFrame, hcl]
  rcases loopTop_cases { s with
    frameCh := ch, frameRxOk := false, relays := []
    subs := fun i => if i ∈ s.relays then (s.subs i).dropHandle else s.subs i } with he | ⟨-, -, he⟩
  · rw [he]
    exact ⟨rfl, rfl, rfl, rfl⟩
  · rw [he]
    exact ⟨rfl, rfl, rfl, rfl⟩

/-- What a step other than `frame` and its own `req` does to a subscriber: nothing, a change of
phase without a relay, or a step of its relay or client. -/
inductive Move (i : SubId) (a : OpenAct) : Sub → Sub → Prop where
  | same (sub : Sub) : Move i a sub sub
  | idle {sub sub' : Sub} (h : ∀ r, sub ≠ .live r) (h' : ∀ r, sub' ≠ .live r) : Move i a sub sub'
  | own {r r' : Relay} {b : Relay.Act} (ha : a = .act (.relay i b)) (hb : r.step b = some r') :
      Move i a (.live r) (.live r')

theorem Move.update {i j : SubId} {a : OpenAct} {subs : SubId → Sub} {sub : Sub}
    (hold : ∀ r, subs j ≠ .live r) (hnew : ∀ r, sub ≠ .live r) :
    Move i a (subs i) (Function.update subs j sub i) := by
  by_cases hij : i = j
  · subst hij
    rw [Function.update_self]
    exact .idle hold hnew
  · rw [Function.update_of_ne hij]
    exact .same _

theorem Move.off {i j : SubId} {a : OpenAct} {subs : SubId → Sub} {sub : Sub} (hij : i ≠ j) :
    Move i a (subs i) (Function.update subs j sub i) := by
  rw [Function.update_of_ne hij]
  exact .same _

/-- Apart from the events of the source and from the start of its own relay, a subscriber's relay
moves by its own steps only. -/
theorem move_of_step (h : Inv s) {a : OpenAct} (hs : s.openStep a = some s')
    (hframe : a ≠ .act .frame) {i : SubId} (hreq : a ≠ .act (.req i)) :
    (i ∈ s'.relays ↔ i ∈ s.relays) ∧ s'.frames = s.frames ∧ s'.frameRxOk = s.frameRxOk ∧
    Move i a (s.subs i) (s'.subs i) := by
  cases a with
  | offer ev =>
    obtain ⟨-, ⟨-, -, rfl⟩ | ⟨-, rfl⟩⟩ := openStep_offer hs
    · exact ⟨Iff.rfl, rfl, rfl, .same _⟩
    · exact ⟨Iff.rfl, rfl, rfl, .same _⟩
  | closeSource =>
    obtain ⟨-, rfl⟩ := openStep_closeSource hs
    exact ⟨Iff.rfl, rfl, rfl, .same _⟩
  | act a =>
    cases a with
    | frame => exact (hframe rfl).elim
    | req j =>
      have hij : i ≠ j := fun e => hreq (by rw [e])
      obtain ⟨-, q, -, ⟨-, -, rfl⟩ | ⟨-, -, rfl⟩ | ⟨-, rfl⟩⟩ := step_req hs
      · exact ⟨by simp [hij], rfl, rfl, Move.off hij⟩
      · exact ⟨Iff.rfl, rfl, rfl, Move.off hij⟩
      · exact ⟨Iff.rfl, rfl, rfl, Move.off hij⟩
    | reqEnd =>
      obtain ⟨-, -, -, rfl⟩ := step_reqEnd hs
      rcases loopTop_cases { s with reqRxOk := false } with he | ⟨-, -, he⟩
      · rw [he]
        exact ⟨Iff.rfl, rfl, rfl, .same _⟩
      · rw [he]
        exact ⟨Iff.rfl, rfl, rfl, .same _⟩
    | subscribe j =>
      obtain ⟨-, hsub, rfl⟩ := step_subscribe hs
      exact ⟨Iff.rfl, rfl, rfl, Move.update (by simp [hsub]) (by simp)⟩
    | sendReq j =>
      obtain ⟨hsub, ⟨-, -, rfl⟩ | ⟨-, rfl⟩⟩ := step_sendReq hs
      · exact ⟨Iff.rfl, rfl, rfl, Move.update (by simp [hsub]) (by simp)⟩
      · exact ⟨Iff.rfl, rfl, rfl, Move.update (by simp [hsub]) (by simp)⟩
    | giveUp j =>
      obtain ⟨sub, rfl, ⟨hsub, rfl⟩ | ⟨hsub, rfl⟩⟩ := step_giveUp hs
      · exact ⟨Iff.rfl, rfl, rfl, Move.update (by simp [hsub]) (by simp)⟩
      · exact ⟨Iff.rfl, rfl, rfl, Move.update (by simp [hsub]) (by simp)⟩
    | relay j b =>
      obtain ⟨r, r', hr, hb, rfl⟩ := step_relay hs
      refine ⟨Iff.rfl, rfl, rfl, ?_⟩
      by_cases hij : i = j
      · subst hij
        have hown : Move i (.act (.relay i b)) (.live r) (.live r') := .own rfl hb
        simpa [hr] using hown
      · exact Move.off hij
    | dropHandle =>
      obtain ⟨-, rfl⟩ := step_dropHandle hs
      exact ⟨Iff.rfl, rfl, rfl, .same _⟩

/-- Everything the source has sent, handled or not. -/
def sent (s : Broadcaster) : List FrameEvent := s.frames ++ s.frameCh.queue

/-- No step of the broadcaster, of a relay or of a client loses or adds an event of the source. -/
theorem source_of_act (h : Inv s) {a : Act} (hs : s.step a = some s') :
    s'.sent = s.sent ∧ s'.frameCh.senders = s.frameCh.senders ∧
    s'.frameCh.queue.length ≤ s.frameCh.queue.length := by
  cases a with
  | frame =>
    obtain ⟨-, ⟨ev, q, hq, rfl⟩ | ⟨hq, -, rfl⟩⟩ := step_frame hs
    · refine ⟨?_, rfl, ?_⟩
      · change (s.frames ++ [ev]) ++ q = s.frames ++ s.frameCh.queue
        rw [hq, List.append_assoc]
        rfl
      · change q.length ≤ s.frameCh.queue.length
        rw [hq, List.length_cons]
        omega
    · rcases loopTop_cases { s with
        frameRxOk := false, relays := [], subs := clear s.relays s.subs } with he | ⟨-, -, he⟩
      · rw [onFrame, he]
        exact ⟨rfl, rfl, Nat.le_refl _⟩
      · rw [onFrame, he]
        refine ⟨?_, rfl, Nat.zero_le _⟩
        change s.frames ++ [] = s.frames ++ s.frameCh.queue
        rw [hq]
  | req j =>
    obtain ⟨-, q, -, ⟨-, -, rfl⟩ | ⟨-, -, rfl⟩ | ⟨-, rfl⟩⟩ := step_req hs
    · exact ⟨rfl, rfl, Nat.le_refl _⟩
    · exact ⟨rfl, rfl, Nat.le_refl _⟩
    · exact ⟨rfl, rfl, Nat.le_refl _⟩
  | reqEnd =>
    obtain ⟨-, -, -, rfl⟩ := step_reqEnd hs
    rcases loopTop_cases { s with reqRxOk := false } with he | ⟨hf, -, he⟩
    · rw [he]
      exact ⟨rfl, rfl, Nat.le_refl _⟩
    · rw [he]
      refine ⟨?_, rfl, Nat.zero_le _⟩
      change s.frames ++ [] = s.frames ++ s.frameCh.queue
      rw [(h.drained hf).2.2]
  | subscribe j =>
    obtain ⟨-, -, rfl⟩ := step_subscribe hs
    exact ⟨rfl, rfl, Nat.le_refl _⟩
  | sendReq j =>
    obtain ⟨-, ⟨-, -, rfl⟩ | ⟨-, rfl⟩⟩ := step_sendReq hs
    · exact ⟨rfl, rfl, Nat.le_refl _⟩
    · exact ⟨rfl, rfl, Nat.le_refl _⟩
  | giveUp j =>
    obtain ⟨sub, rfl, -⟩ := step_giveUp hs
    exact ⟨rfl, rfl, Nat.le_refl _⟩
  | relay j b =>
    obtain ⟨r, r', -, -, rfl⟩ := step_relay hs
    exact ⟨rfl, rfl, Nat.le_refl _⟩
  | dropHandle =>
    obtain ⟨-, rfl⟩ := step_dropHandle hs
    exact ⟨rfl, rfl, Nat.le_refl _⟩

/-- Nobody opens the source again, and what is left in it only gets less. -/
theorem source_of_step (h : Inv s) {a : OpenAct} (hs : s.openStep a = some s')
    (hz : s.frameCh.senders = 0) :
    s'.frameCh.senders = 0 ∧ s'.frameCh.queue.length ≤ s.frameCh.queue.length := by
  cases a with
  | offer ev => exact ((openStep_offer hs).1 hz).elim
  | closeSource => exact ((openStep_closeSource hs).1 hz).elim
  | act a =>
    obtain ⟨-, hsend, hlen⟩ := source_of_act h hs
    exact ⟨hsend.trans hz, hlen⟩

/-- A subscriber that had no relay yet when the source was closed. At most the two events still in
the source channel come after its snapshot, so its relay takes them all. -/
structure Late (i : SubId) (s : Broadcaster) : Prop where
  closed : s.frameCh.senders = 0
  whole : ∀ r, s.subs i = .live r → r.clientCh.rxOpen = true → r.seen = s.frames
  room : ∀ r, s.subs i = .live r → r.clientCh.rxOpen = true → s.frameRxOk = true →
    i ∈ s.relays ∧ r.bcastCh.queue.length + s.frameCh.queue.length ≤ 2

theorem Late.frame {i : SubId} (hl : Late i s) (h : Inv s) (hs : s.step .frame = some s') :
    Late i s' := by
  obtain ⟨hz, -⟩ := source_of_step h (a := .act .frame) hs hl.closed
  obtain ⟨hok, ⟨ev, q, hq, rfl⟩ | ⟨hq, hz', rfl⟩⟩ := step_frame hs
  · -- the relay has room for the event
    have htake : ∀ r', (s.onFrame { s.frameCh with queue := q } (some ev)).subs i = .live r' →
        r'.clientCh.rxOpen = true → i ∈ s.relays ∧ ∃ r, s.subs i = .live r ∧
          r' = { r with bcastCh := r.bcastCh.push ev } ∧
          r.bcastCh.queue.length + s.frameCh.queue.length ≤ 2 ∧ ((s.subs i).offer ev).1 = true := by
      intro r' hr' ho
      rw [(onFrame_sub h _ ev i).2] at hr'
      by_cases hmem : i ∈ s.relays
      · obtain ⟨r, hr⟩ := h.mem_relays hmem
        obtain ⟨hinv, -⟩ := h.live hr
        rw [if_pos hmem, hr] at hr'
        refine ⟨hmem, r, hr, ?_⟩
        rcases r.accept_cases ev with ⟨-, -, he⟩ | ⟨hno, he⟩
        · simp only [Sub.offer, he, Sub.live.injEq] at hr'
          subst hr'
          refine ⟨rfl, (hl.room r hr ho hok).2, ?_⟩
          simp [hr, Sub.offer, he]
        · simp only [Sub.offer, he, Sub.live.injEq] at hr'
          subst hr'
          have hpc : r.pc = .loop := hinv.pc_of_open ho
          have hroom := (hl.room r hr ho hok).2
          have hcap := hinv.bcastCap
          rcases hno with hno | hno
          · rw [hinv.rxOpen (by rw [hpc]; simp)] at hno
            cases hno
          · omega
      · rw [if_neg hmem] at hr'
        exact (hmem (hl.room r' hr' ho hok).1).elim
    refine ⟨hz, fun r' hr' ho => ?_, fun r' hr' ho _ => ?_⟩
    · obtain ⟨-, r, hr, rfl, -, -⟩ := htake r' hr' ho
      have hw := hl.whole r hr ho
      simp only [Relay.seen, Chan.push_queue] at hw ⊢
      rw [← List.append_assoc, hw]
      rfl
    · obtain ⟨hmem, r, hr, rfl, hlen, hkeep⟩ := htake r' hr' ho
      refine ⟨(onFrame_sub h _ ev i).1.2 ⟨hmem, hkeep⟩, ?_⟩
      rw [hq, List.length_cons] at hlen
      change (r.bcastCh.push ev).queue.length + q.length ≤ 2
      rw [Chan.push_queue, List.length_append, List.length_singleton]
      omega
  · obtain ⟨hfr, hoff, -, hsub⟩ := onFrame_end_sub h s.frameCh i
    refine ⟨hz, fun r' hr' ho => ?_, fun r' _ _ hf => ?_⟩
    · rw [hfr]
      rw [hsub] at hr'
      by_cases hmem : i ∈ s.relays
      · obtain ⟨r, hr⟩ := h.mem_relays hmem
        rw [if_pos hmem, hr] at hr'
        obtain rfl : r.dropHandle = r' := by simpa [Sub.dropHandle] using hr'
        exact hl.whole r hr ho
      · rw [if_neg hmem] at hr'
        exact hl.whole r' hr' ho
    · rw [hoff] at hf
      cases hf

theorem Late.req {i : SubId} (hl : Late i s) (h : Inv s) (hs : s.step (.req i) = some s') :
    Late i s' := by
  have hsrc := h.srcLen
  obtain ⟨hz, -⟩ := source_of_step h (a := .act (.req i)) hs hl.closed
  obtain ⟨-, q, -, ⟨-, -, rfl⟩ | ⟨-, hf, rfl⟩ | ⟨-, rfl⟩⟩ := step_req hs
  · refine ⟨hz, fun r hr _ => ?_, fun r hr _ _ => ?_⟩
    · obtain rfl : Relay.start s.frames = r := by simpa using hr
      exact Relay.seen_start _
    · obtain rfl : Relay.start s.frames = r := by simpa using hr
      refine ⟨List.mem_append_right _ (List.mem_singleton_self i), ?_⟩
      simpa [Relay.start] using hsrc
  · refine ⟨hz, fun r hr _ => ?_, fun r _ _ hf' => ?_⟩
    · obtain rfl : (Relay.start s.frames).dropHandle = r := by simpa using hr
      exact Relay.seen_start _
    · exact absurd (hf.symm.trans hf') Bool.false_ne_true
  · refine ⟨hz, fun r hr => ?_, fun r hr => ?_⟩
    · simp at hr
    · simp at hr

theorem Late.step {i : SubId} (hl : Late i s) (h : Inv s) {a : OpenAct}
    (hs : s.openStep a = some s') : Late i s' := by
  by_cases hframe : a = .act .frame
  · subst hframe
    exact hl.frame h hs
  by_cases hreq : a = .act (.req i)
  · subst hreq
    exact hl.req h hs
  obtain ⟨hz, hlen⟩ := source_of_step h hs hl.closed
  obtain ⟨hrel, hfr, hok, hmove⟩ := move_of_step h hs hframe hreq
  -- the relay before the step, which has seen the same and has no longer a backlog
  have hback : ∀ r', s'.subs i = .live r' → r'.clientCh.rxOpen = true →
      ∃ r, s.subs i = .live r ∧ r.clientCh.rxOpen = true ∧ r'.seen = r.seen ∧
        r'.bcastCh.queue.length ≤ r.bcastCh.queue.length := by
    intro r' hr' ho
    generalize hsub : s.subs i = sub at hmove
    generalize hsub' : s'.subs i = sub' at hmove
    rw [hsub'] at hr'
    cases hmove with
    | same => exact ⟨r', hr', ho, rfl, Nat.le_refl _⟩
    | idle hn hn' => exact (hn' r' hr').elim
    | own ha hb =>
      obtain rfl := Sub.live.inj hr'
      obtain ⟨hinv, -⟩ := h.live hsub
      obtain ⟨hlen', hopen⟩ := Relay.step_backlog hinv hb
      exact ⟨_, rfl, hopen ho, Relay.seen_step hinv hb ho, hlen'⟩
  refine ⟨hz, fun r' hr' ho => ?_, fun r' hr' ho hf => ?_⟩
  · obtain ⟨r, hr, ho', hseen, -⟩ := hback r' hr' ho
    rw [hseen, hfr]
    exact hl.whole r hr ho'
  · obtain ⟨r, hr, ho', -, hlen'⟩ := hback r' hr' ho
    obtain ⟨hmem, hroom⟩ := hl.room r hr ho' (hok ▸ hf)
    exact ⟨hrel.2 hmem, by omega⟩

/-- A subscriber whose relay is started after the source was closed sees the whole history. -/
theorem seen_late {s₁ : Broadcaster} (h₁ : Lts.Reachable openStep start s₁)
    (hz : s₁.frameCh.senders = 0) {i : SubId} (hi : ∀ r, s₁.subs i ≠ .live r)
    (h : Lts.Reachable openStep s₁ s) {r : Relay} (hr : s.subs i = .live r)
    (ho : r.clientCh.rxOpen = true) : r.seen = s.frames := by
  have hlate : Inv s ∧ Late i s :=
    h.invariant (I := fun s => Inv s ∧ Late i s)
      ⟨Inv.reachable h₁, hz, fun r hr => (hi r hr).elim, fun r hr => (hi r hr).elim⟩
      fun _ _ _ hi hs => ⟨hi.1.openStep hs, hi.2.step hi.1 hs⟩
  exact hlate.2.whole r hr ho

end Seen

end Broadcaster

end JobRunner
