import JobRunner.Verify.Terminal
import JobRunner.Verify.Requests

/-!
# One subscriber does not disturb the others

`Broadcaster.Without i s t` relates a broadcaster to the same one in which subscriber `i` never
called. Every step that is not a step of `i` can be taken in both, and a step of `i` leaves the
relation alone, so all steps of `i` can be deleted from a run (`Lts.run_filter`).
-/

namespace JobRunner

open Mpsc

namespace Broadcaster

/-- The steps of subscriber `i`: its request, its relay and its client. -/
def Act.of (i : SubId) : Act → Bool
  | .subscribe j => j == i
  | .sendReq j => j == i
  | .giveUp j => j == i
  | .req j => j == i
  | .relay j _ => j == i
  | _ => false

/-- The state without the subscriber `i`. -/
structure Without (i : SubId) (s t : Broadcaster) : Prop where
  frameCh : t.frameCh = s.frameCh
  frames : t.frames = s.frames
  frameRxOk : t.frameRxOk = s.frameRxOk
  reqRxOk : t.reqRxOk = s.reqRxOk
  handle : t.handle = s.handle
  relays : t.relays = s.relays.filter (· ≠ i)
  reqQueue : t.reqCh.queue = s.reqCh.queue.filter (· ≠ i)
  reqCap : t.reqCh.cap = s.reqCh.cap
  reqOpen : t.reqCh.rxOpen = s.reqCh.rxOpen
  others : ∀ j, j ≠ i → t.subs j = s.subs j
  absent : t.subs i = .absent

namespace Without

variable {i : SubId} {s s' t : Broadcaster}

theorem start (i : SubId) : Without i Broadcaster.start Broadcaster.start where
  frameCh := rfl
  frames := rfl
  frameRxOk := rfl
  reqRxOk := rfl
  handle := rfl
  relays := rfl
  reqQueue := rfl
  reqCap := rfl
  reqOpen := rfl
  others _ _ := rfl
  absent := rfl

/-- Both move subscriber `j` to the same phase. -/
theorem update_others (h : Without i s t) {j : SubId} (hj : j ≠ i) (sub : Sub) :
    (∀ k, k ≠ i → Function.update t.subs j sub k = Function.update s.subs j sub k) ∧
    Function.update t.subs j sub i = .absent := by
  refine ⟨fun k hk => ?_, ?_⟩
  · by_cases hkj : k = j
    · subst hkj
      simp
    · simp [hkj, h.others k hk]
  · rw [Function.update_of_ne (Ne.symm hj), h.absent]

/-- One moves subscriber `i`. -/
theorem update_own (h : Without i s t) (sub : Sub) :
    ∀ k, k ≠ i → t.subs k = Function.update s.subs i sub k := fun k hk => by
  rw [Function.update_of_ne hk, h.others k hk]

theorem filter_ne_cons {q : List SubId} {j : SubId} (hj : j ≠ i) :
    (j :: q).filter (· ≠ i) = j :: q.filter (· ≠ i) := by
  rw [List.filter_cons_of_pos (by simpa using hj)]

theorem filter_self_cons (q : List SubId) : (i :: q).filter (· ≠ i) = q.filter (· ≠ i) := by
  rw [List.filter_cons_of_neg (by simp)]

theorem filter_snoc_ne {q : List SubId} {j : SubId} (hj : j ≠ i) :
    (q ++ [j]).filter (· ≠ i) = q.filter (· ≠ i) ++ [j] := by
  rw [List.filter_append, filter_ne_cons hj, List.filter_nil]

theorem filter_snoc_self (q : List SubId) : (q ++ [i]).filter (· ≠ i) = q.filter (· ≠ i) := by
  rw [List.filter_append, filter_self_cons, List.filter_nil, List.append_nil]

/-! ### Steps of the others -/

theorem frame (h : Without i s t) (hi : Inv s) (hr : Requests s) (hs : s.step .frame = some s') :
    ∃ t', t.step .frame = some t' ∧ Without i s' t' := by
  have htnd : t.relays.Nodup := by
    rw [h.relays]
    exact hi.nodup.filter _
  have hrx : t.reqRxOk = true := h.reqRxOk.trans hr.rxOk
  obtain ⟨hok, ⟨ev, q, hq, rfl⟩ | ⟨hq, hz, rfl⟩⟩ := step_frame hs
  · refine ⟨t.onFrame { t.frameCh with queue := q } (some ev), ?_, ?_⟩
    · simp [step, h.frameRxOk, hok, Chan.recv, h.frameCh, hq]
    · have hsub : ∀ j, j ∈ t.relays → t.subs j = s.subs j := fun j hj =>
        h.others j (by rw [h.relays] at hj; simpa using (List.mem_filter.1 hj).2)
      have hni : i ∉ t.relays := by simp [h.relays]
      refine { h with
        frameCh := by rw [onFrame, onFrame, h.frameCh]
        frames := by rw [onFrame, onFrame, h.frames]
        relays := ?_, others := fun j hj => ?_, absent := ?_ }
      · simp only [onFrame, retain_eq ev _ _ htnd, retain_eq ev _ _ hi.nodup]
        rw [List.filter_congr fun j hj => by rw [hsub j hj], h.relays, List.filter_comm]
      · simp only [onFrame, retain_eq ev _ _ htnd, retain_eq ev _ _ hi.nodup, h.others j hj]
        have hmem : j ∈ t.relays ↔ j ∈ s.relays := by simp [h.relays, hj]
        simp only [hmem]
      · simp only [onFrame, retain_eq ev _ _ htnd, if_neg hni, h.absent]
  · refine ⟨t.onFrame t.frameCh none, ?_, ?_⟩
    · simp [step, h.frameRxOk, hok, Chan.recv, h.frameCh, hq, hz]
    · have hni : i ∉ t.relays := by simp [h.relays]
      simp only [onFrame]
      rw [Requests.loopTop_eq (by exact hr.rxOk), Requests.loopTop_eq (by exact hrx)]
      refine { h with frameRxOk := rfl, relays := rfl, others := fun j hj => ?_, absent := ?_ }
      · simp only [clear_eq _ _ htnd, clear_eq _ _ hi.nodup, h.others j hj]
        have hmem : j ∈ t.relays ↔ j ∈ s.relays := by simp [h.relays, hj]
        simp only [hmem]
      · simp only [clear_eq _ _ htnd, if_neg hni, h.absent]

theorem req (h : Without i s t) {j : SubId} (hj : j ≠ i) (hs : s.step (.req j) = some s') :
    ∃ t', t.step (.req j) = some t' ∧ Without i s' t' := by
  obtain ⟨hok, q, hq, hcase⟩ := step_req hs
  have hqt : t.reqCh.queue = j :: q.filter (· ≠ i) := by
    rw [h.reqQueue, hq, filter_ne_cons hj]
  have hsub := h.others j hj
  rcases hcase with ⟨hw, hf, rfl⟩ | ⟨hw, hf, rfl⟩ | ⟨hw, rfl⟩
  · obtain ⟨ho, ha⟩ := h.update_others hj (.live (Relay.start s.frames))
    refine ⟨{ t with
      reqCh := ({ t.reqCh with queue := q.filter (· ≠ i) } : Chan SubId).dropTx
      relays := t.relays ++ [j]
      subs := Function.update t.subs j (.live (Relay.start s.frames)) }, ?_, ?_⟩
    · simp [step, h.reqRxOk, hok, Chan.recv, hqt, onReq, hsub, hw, h.frameRxOk, hf, h.frames]
    · exact { h with
        relays := by rw [filter_snoc_ne hj, h.relays]
        reqQueue := rfl, others := ho, absent := ha }
  · obtain ⟨ho, ha⟩ := h.update_others hj (.live (Relay.start s.frames).dropHandle)
    refine ⟨{ t with
      reqCh := ({ t.reqCh with queue := q.filter (· ≠ i) } : Chan SubId).dropTx
      subs := Function.update t.subs j (.live (Relay.start s.frames).dropHandle) }, ?_, ?_⟩
    · simp [step, h.reqRxOk, hok, Chan.recv, hqt, onReq, hsub, hw, h.frameRxOk, hf, h.frames]
    · exact { h with reqQueue := rfl, others := ho, absent := ha }
  · obtain ⟨ho, ha⟩ := h.update_others hj .gone
    refine ⟨{ t with
      reqCh := { t.reqCh with queue := q.filter (· ≠ i) }
      subs := Function.update t.subs j .gone }, ?_, ?_⟩
    · simp [step, h.reqRxOk, hok, Chan.recv, hqt, onReq, hsub, hw]
    · exact { h with reqQueue := rfl, others := ho, absent := ha }

/-- A step of the task, of a caller or of a subscriber other than `i`. -/
theorem keep (h : Without i s t) (hi : Inv s) (hr : Requests s) {a : Act} (ha : a.of i = false)
    (hs : s.step a = some s') : ∃ t', t.step a = some t' ∧ Without i s' t' := by
  cases a with
  | frame => exact h.frame hi hr hs
  | req j => exact h.req (by simpa [Act.of] using ha) hs
  | reqEnd =>
    rw [hr.no_reqEnd] at hs
    cases hs
  | subscribe j =>
    have hj : j ≠ i := by simpa [Act.of] using ha
    obtain ⟨hh, hsub, rfl⟩ := step_subscribe hs
    obtain ⟨ho, hab⟩ := h.update_others hj .sending
    refine ⟨{ t with
      reqCh := t.reqCh.cloneTx, subs := Function.update t.subs j .sending }, ?_, ?_⟩
    · simp [step, h.handle, hh, h.others j hj, hsub]
    · exact { h with others := ho, absent := hab }
  | sendReq j =>
    have hj : j ≠ i := by simpa [Act.of] using ha
    obtain ⟨hsub, ⟨ho, hl, rfl⟩ | ⟨hc, -⟩⟩ := step_sendReq hs
    · obtain ⟨hoth, hab⟩ := h.update_others hj (.queued true)
      have hsend : t.reqCh.send j = some (true, t.reqCh.push j) := by
        refine Chan.send_eq_some_iff.2 (.inl ⟨rfl, by rw [h.reqOpen, ho], ?_, rfl⟩)
        rw [h.reqQueue, h.reqCap]
        exact Nat.lt_of_le_of_lt (List.length_filter_le _ _) hl
      refine ⟨{ t with
        reqCh := t.reqCh.push j, subs := Function.update t.subs j (.queued true) }, ?_, ?_⟩
      · simp [step, h.others j hj, hsub, hsend]
      · exact { h with
          reqQueue := by rw [Chan.push_queue, Chan.push_queue, filter_snoc_ne hj, h.reqQueue]
          others := hoth, absent := hab }
    · rw [hr.rxOpen] at hc
      cases hc
  | giveUp j =>
    have hj : j ≠ i := by simpa [Act.of] using ha
    obtain ⟨sub, rfl, hcase⟩ := step_giveUp hs
    obtain ⟨ho, hab⟩ := h.update_others hj sub
    refine ⟨{ t with reqCh := t.reqCh.dropTx, subs := Function.update t.subs j sub }, ?_, ?_⟩
    · rcases hcase with ⟨hsub, rfl⟩ | ⟨hsub, rfl⟩ <;> simp [step, h.others j hj, hsub]
    · exact { h with others := ho, absent := hab }
  | relay j b =>
    have hj : j ≠ i := by simpa [Act.of] using ha
    obtain ⟨r, r', hsub, hb, rfl⟩ := step_relay hs
    obtain ⟨ho, hab⟩ := h.update_others hj (.live r')
    refine ⟨{ t with subs := Function.update t.subs j (.live r') }, ?_, ?_⟩
    · simp [step, h.others j hj, hsub, hb]
    · exact { h with others := ho, absent := hab }
  | dropHandle =>
    obtain ⟨hh, rfl⟩ := step_dropHandle hs
    refine ⟨{ t with handle := false, reqCh := t.reqCh.dropTx }, ?_, ?_⟩
    · simp [step, h.handle, hh]
    · exact { h with handle := rfl }

/-! ### Steps of the subscriber itself -/

theorem drop (h : Without i s t) {a : Act} (ha : a.of i = true) (hs : s.step a = some s') :
    Without i s' t := by
  cases a with
  | frame => cases ha
  | reqEnd => cases ha
  | dropHandle => cases ha
  | req j =>
    obtain rfl : j = i := by simpa [Act.of] using ha
    obtain ⟨-, q, hq, hcase⟩ := step_req hs
    have hqt : t.reqCh.queue = q.filter (· ≠ j) := by
      rw [h.reqQueue, hq, filter_self_cons]
    rcases hcase with ⟨-, -, rfl⟩ | ⟨-, -, rfl⟩ | ⟨-, rfl⟩
    · exact { h with
        relays := by rw [filter_snoc_self, h.relays]
        reqQueue := hqt, others := h.update_own _ }
    · exact { h with reqQueue := hqt, others := h.update_own _ }
    · exact { h with reqQueue := hqt, others := h.update_own _ }
  | subscribe j =>
    obtain rfl : j = i := by simpa [Act.of] using ha
    obtain ⟨-, -, rfl⟩ := step_subscribe hs
    exact { h with others := h.update_own _ }
  | sendReq j =>
    obtain rfl : j = i := by simpa [Act.of] using ha
    obtain ⟨-, ⟨-, -, rfl⟩ | ⟨-, rfl⟩⟩ := step_sendReq hs
    · exact { h with
        reqQueue := by rw [Chan.push_queue, filter_snoc_self, h.reqQueue]
        others := h.update_own _ }
    · exact { h with others := h.update_own _ }
  | giveUp j =>
    obtain rfl : j = i := by simpa [Act.of] using ha
    obtain ⟨sub, rfl, -⟩ := step_giveUp hs
    exact { h with others := h.update_own _ }
  | relay j b =>
    obtain rfl : j = i := by simpa [Act.of] using ha
    obtain ⟨r, r', -, -, rfl⟩ := step_relay hs
    exact { h with others := h.update_own _ }

end Without

end Broadcaster

namespace Pipeline

variable {j₀ : Job} {acts : List Act} {p p' : Pipeline} {i : SubId}

/-- The steps of subscriber `i` of the job. -/
def Act.ofSub (i : SubId) : Act → Bool
  | .bcast a => a.of i
  | _ => false

/-- A reachable job, and the same one without the subscriber `i`. -/
def Without (j₀ : Job) (i : SubId) (p q : Pipeline) : Prop :=
  (∃ acts, Inv j₀ acts p) ∧ p.bc.Requests ∧ ∃ t, p.bc.Without i t ∧ q = { p with bc := t }

theorem requests_of_step (h : Inv j₀ acts p) (hr : p.bc.Requests) {a : Act}
    (hs : p.step a = some p') : p'.bc.Requests := by
  rcases bc_of_step h hs with he | ⟨b, hb⟩
  · rw [he]
    exact hr
  · exact hr.openStep h.bc hb

/-- A `kill` call has nothing to do with the broadcaster. -/
theorem stepKill_bc (p : Pipeline) (t : Broadcaster) (c : Nat) (a : KillAct) :
    stepKill { p with bc := t } c a = (p.stepKill c a).map fun p' => { p' with bc := t } := by
  cases a with
  | call user => cases hc : p.kills c <;> simp [stepKill, hc]
  | send =>
    cases hc : p.kills c with
    | sending user =>
      cases hs : p.killCh.send ⟨user, c⟩ with
      | none => simp [stepKill, hc, hs]
      | some r =>
        obtain ⟨ok, ch⟩ := r
        cases ok <;> simp [stepKill, hc, hs]
    | _ => simp [stepKill, hc]
  | recv =>
    have ho : oneshot { p with bc := t } c = p.oneshot c := rfl
    cases hc : p.kills c <;> cases hr : p.oneshot c <;> simp [stepKill, hc, ho, hr]
  | timeout => cases hc : p.kills c <;> simp [stepKill, hc]
  | drop => cases hc : p.kills c <;> simp [stepKill, hc]

/-- A step outside the broadcaster depends on it by the source channel only. -/
theorem keep_outside {t : Broadcaster} (hw : p.bc.Without i t) {a : Act}
    (ha : ∀ b, a ≠ .bcast b) (hs : p.step a = some p') :
    ∃ t', p'.bc.Without i t' ∧ step { p with bc := t } a = some { p' with bc := t' } := by
  have hch := hw.frameCh
  cases a with
  | bcast b => exact (ha b rfl).elim
  | output k a =>
    obtain ⟨o, ho, rfl⟩ := step_output hs
    exact ⟨t, hw, by simp [step, ho]⟩
  | recvOutput k =>
    obtain ⟨ev, o, trk, ho, ht, rfl⟩ := step_recvOutput hs
    exact ⟨t, hw, by simp [step, ho, ht]⟩
  | send =>
    obtain ⟨ev, ok, ch, trk, hev, hsend, ht, rfl⟩ := step_send hs
    refine ⟨{ t with frameCh := ch }, { hw with frameCh := rfl }, ?_⟩
    simp [step, hev, hch, hsend, ht]
  | recvKill =>
    obtain ⟨req, ch, trk, hrecv, ht, rfl⟩ := step_recvKill hs
    exact ⟨t, hw, by simp [step, hrecv, ht]⟩
  | killRes res now =>
    obtain ⟨req, trk, hpc, ht, rfl⟩ := step_killRes hs
    exact ⟨t, hw, by simp [step, hpc, ht]⟩
  | exit status now =>
    obtain ⟨trk, ht, rfl⟩ := step_exit hs
    exact ⟨t, hw, by simp [step, ht]⟩
  | setRes =>
    obtain ⟨trk, ht, rfl⟩ := step_setRes hs
    refine ⟨{ t with frameCh := t.frameCh.dropTx }, { hw with frameCh := by rw [hch]; rfl }, ?_⟩
    simp [step, ht, release]
  | kill c a =>
    have hk : p.stepKill c a = some p' := hs
    refine ⟨t, ?_, ?_⟩
    · obtain ⟨call, ch, rfl, -⟩ := step_kill hs
      exact hw
    · simp only [step, stepKill_bc, hk, Option.map_some]

theorem Without.keep {q : Pipeline} (h : Without j₀ i p q) {a : Act} (ha : a.ofSub i = false)
    (hs : p.step a = some p') : ∃ q', q.step a = some q' ∧ Without j₀ i p' q' := by
  obtain ⟨⟨acts, hi⟩, hr, t, hw, rfl⟩ := h
  have hinv : ∃ acts, Inv j₀ acts p' := ⟨_, hi.step hs⟩
  have hreq : p'.bc.Requests := requests_of_step hi hr hs
  by_cases hb : ∃ b, a = .bcast b
  · obtain ⟨b, rfl⟩ := hb
    obtain ⟨bc, hbc, rfl⟩ := step_bcast hs
    obtain ⟨t', ht', hw'⟩ := hw.keep hi.bc hr ha hbc
    exact ⟨{ p with bc := t' }, by simp [step, ht'], hinv, hreq, t', hw', rfl⟩
  · obtain ⟨t', hw', hs'⟩ := keep_outside hw (fun b e => hb ⟨b, e⟩) hs
    exact ⟨{ p' with bc := t' }, hs', hinv, hreq, t', hw', rfl⟩

theorem Without.drop {q : Pipeline} (h : Without j₀ i p q) {a : Act} (ha : a.ofSub i = true)
    (hs : p.step a = some p') : Without j₀ i p' q := by
  obtain ⟨⟨acts, hi⟩, hr, t, hw, rfl⟩ := h
  cases a with
  | bcast b =>
    have hinv : ∃ acts, Inv j₀ acts p' := ⟨_, hi.step hs⟩
    have hreq : p'.bc.Requests := requests_of_step hi hr hs
    obtain ⟨bc, hbc, rfl⟩ := step_bcast hs
    exact ⟨hinv, hreq, t, hw.drop ha hbc, rfl⟩
  | _ => cases ha

/-- The same job, with other relays and clients behind its subscriptions. -/
def SameButRelays (p q : Pipeline) : Prop :=
  ∃ subs, q = { p with bc := { p.bc with subs } } ∧
    ∀ i, subs i = p.bc.subs i ∨ ((∃ r, subs i = .live r) ∧ ∃ r, p.bc.subs i = .live r)

/-- The steps of relays and clients. -/
def Act.ofRelay : Act → Bool
  | .bcast (.relay _ _) => true
  | _ => false

/-- Whether a broadcaster's step is enabled does not depend on any relay. -/
theorem bcast_enabled {s : Broadcaster} {subs : SubId → Sub}
    (h : ∀ i, subs i = s.subs i ∨ ((∃ r, subs i = .live r) ∧ ∃ r, s.subs i = .live r))
    {a : Broadcaster.Act} (ha : ∀ i b, a ≠ .relay i b) :
    (s.step a).isSome = (Broadcaster.step { s with subs } a).isSome := by
  cases a with
  | frame =>
    cases hok : s.frameRxOk with
    | false => simp [Broadcaster.step, hok]
    | true => cases hrecv : s.frameCh.recv <;> simp [Broadcaster.step, hok, hrecv]
  | req i =>
    cases hok : s.reqRxOk with
    | false => simp [Broadcaster.step, hok]
    | true =>
      cases hrecv : s.reqCh.recv with
      | none => simp [Broadcaster.step, hok, hrecv]
      | some p =>
        obtain ⟨o, ch⟩ := p
        cases o with
        | none => simp [Broadcaster.step, hok, hrecv]
        | some j =>
          by_cases hj : j = i
          · subst hj
            rcases h j with he | ⟨⟨r, hr⟩, r', hr'⟩
            · simp only [Broadcaster.step, hok, hrecv, Broadcaster.onReq, he, if_true]
              cases s.subs j with
              | queued waiting => cases waiting <;> cases s.frameRxOk <;> rfl
              | _ => rfl
            · simp [Broadcaster.step, hok, hrecv, Broadcaster.onReq, hr, hr']
          · simp [Broadcaster.step, hok, hrecv, hj]
  | reqEnd =>
    cases hok : s.reqRxOk with
    | false => simp [Broadcaster.step, hok]
    | true =>
      cases hrecv : s.reqCh.recv with
      | none => simp [Broadcaster.step, hok, hrecv]
      | some p =>
        obtain ⟨o, ch⟩ := p
        cases o <;> simp [Broadcaster.step, hok, hrecv]
  | subscribe i =>
    rcases h i with he | ⟨⟨r, hr⟩, r', hr'⟩
    · simp only [Broadcaster.step, he]
      cases s.handle <;> cases s.subs i <;> rfl
    · simp [Broadcaster.step, hr, hr']
  | sendReq i =>
    rcases h i with he | ⟨⟨r, hr⟩, r', hr'⟩
    · cases hsub : s.subs i with
      | sending =>
        cases hsend : s.reqCh.send i with
        | none => simp [Broadcaster.step, he, hsub, hsend]
        | some p =>
          obtain ⟨ok, ch⟩ := p
          cases ok <;> simp [Broadcaster.step, he, hsub, hsend]
      | _ => simp [Broadcaster.step, he, hsub]
    · simp [Broadcaster.step, hr, hr']
  | giveUp i =>
    rcases h i with he | ⟨⟨r, hr⟩, r', hr'⟩
    · simp only [Broadcaster.step, he]
      cases s.subs i with
      | queued waiting => cases waiting <;> rfl
      | _ => rfl
    · simp [Broadcaster.step, hr, hr']
  | relay i b => exact (ha i b rfl).elim
  | dropHandle => cases hh : s.handle <;> simp [Broadcaster.step, hh]

/-- No step but those of relays and clients waits for a relay or a client. -/
theorem enabled_eq {q : Pipeline} (h : p.SameButRelays q) {a : Act} (ha : a.ofRelay = false) :
    (p.step a).isSome = (q.step a).isSome := by
  obtain ⟨subs, rfl, hsub⟩ := h
  cases a with
  | bcast b =>
    have hb : ∀ i c, b ≠ .relay i c := by
      rintro i c rfl
      cases ha
    have he := bcast_enabled hsub hb
    cases h₁ : p.bc.step b <;> cases h₂ : Broadcaster.step { p.bc with subs } b <;>
      simp [h₁, h₂] at he <;> simp [step, h₁, h₂]
  | kill c a => simp only [step, stepKill_bc p { p.bc with subs }, Option.isSome_map]
  | output k a => cases h₁ : (p.output k).step a <;> simp [step, h₁]
  | recvOutput k =>
    cases h₁ : (p.output k).recv with
    | none => simp [step, h₁]
    | some r => cases h₂ : p.trk.step (.output k r.1) <;> simp [step, h₁, h₂]
  | send =>
    cases h₁ : p.trk.outgoing with
    | none => simp [step, h₁]
    | some ev =>
      cases h₂ : p.bc.frameCh.send ev with
      | none => simp [step, h₁, h₂]
      | some r => cases h₃ : p.trk.step (.sent r.1) <;> simp [step, h₁, h₂, h₃]
  | recvKill =>
    cases h₁ : p.killCh.recv with
    | none => simp [step, h₁]
    | some r => cases h₂ : p.trk.step (.killReq r.1) <;> simp [step, h₁, h₂]
  | killRes res now =>
    cases hpc : p.trk.pc with
    | killing req => cases h₁ : p.trk.step (.killRes req res now) <;> simp [step, hpc, h₁]
    | _ => simp [step, hpc]
  | exit status now => cases h₁ : p.trk.step (.exit status now) <;> simp [step, h₁]
  | setRes => cases h₁ : p.trk.step .setRes <;> simp [step, h₁, release]

/-- The tracker's send waits for at most one step of the broadcaster. -/
theorem send_enabled (h : Inv j₀ acts p) {ev : FrameEvent} (hev : p.trk.outgoing = some ev) :
    (p.step .send).isSome = true ∨
    ∃ p', p.step (.bcast .frame) = some p' ∧ (p'.step .send).isSome = true := by
  have hnret : p.trk.pc ≠ .returned := by
    intro hpc
    simp [Tracker.outgoing, hpc] at hev
  obtain ⟨hok, hopen⟩ := h.frameCh_open hnret
  have hsend : ∀ {q : Pipeline}, q.trk = p.trk → q.bc.frameCh.rxOpen = true →
      q.bc.frameCh.queue.length < q.bc.frameCh.cap → (q.step .send).isSome = true := by
    intro q ht ho hl
    have hch : q.bc.frameCh.send ev = some (true, q.bc.frameCh.push ev) :=
      Chan.send_eq_some_iff.2 (.inl ⟨rfl, ho, hl, rfl⟩)
    have htrk : (p.trk.step (.sent true)).isSome = true := by
      unfold Tracker.outgoing at hev
      split at hev
      · next f hpc => simp [Tracker.step, hpc]
      · next hpc => simp [Tracker.step, hpc]
      · cases hev
    obtain ⟨trk, ht'⟩ := Option.isSome_iff_exists.1 htrk
    simp [step, ht, hev, hch, ht']
  by_cases hl : p.bc.frameCh.queue.length < p.bc.frameCh.cap
  · exact .inl (hsend rfl hopen hl)
  · cases hq : p.bc.frameCh.queue with
    | nil =>
      rw [hq, h.bc.srcCap] at hl
      simp at hl
    | cons e q =>
      refine .inr ⟨{ p with bc := p.bc.onFrame { p.bc.frameCh with queue := q } (some e) }, ?_,
        hsend rfl hopen ?_⟩
      · simp [step, Broadcaster.step, hok, Chan.recv, hq]
      · have hlen := h.bc.srcLen
        rw [hq, List.length_cons] at hlen
        change q.length < p.bc.frameCh.cap
        rw [h.bc.srcCap]
        omega

/-- All steps of a subscriber can be deleted from a run: the job's record, the broadcaster's
history and what every other subscriber has received stay as they are. No step of the tracker, of
the broadcaster or of a caller waits for what a relay or a client does, and the tracker's send
waits for no more than one step of the broadcaster. -/
theorem subscriber_deletable {jobId : JobId} {user : User} {pid : Pid} {now : DateTime}
    (hr : Lts.run Pipeline.step (Pipeline.start (Job.started jobId user pid now)) acts = some p)
    (i : SubId) :
    (∃ q, Lts.run Pipeline.step (Pipeline.start (Job.started jobId user pid now))
        (acts.filter fun a => !a.ofSub i) = some q ∧
      q.trk = p.trk ∧ q.output = p.output ∧ q.kills = p.kills ∧ q.bc.frames = p.bc.frames ∧
      ∀ j, j ≠ i → q.bc.subs j = p.bc.subs j) ∧
    (∀ q, p.SameButRelays q → ∀ a, a.ofRelay = false → (p.step a).isSome = (q.step a).isSome) ∧
    (∀ ev, p.trk.outgoing = some ev → (p.step .send).isSome = true ∨
      ∃ p', p.step (.bcast .frame) = some p' ∧ (p'.step .send).isSome = true) := by
  have h : Inv (Job.started jobId user pid now) acts p := Inv.run rfl hr
  refine ⟨?_, fun q hq a ha => enabled_eq hq ha, fun ev hev => send_enabled h hev⟩
  have h₀ : Without (Job.started jobId user pid now) i
      (Pipeline.start (Job.started jobId user pid now))
      (Pipeline.start (Job.started jobId user pid now)) :=
    ⟨⟨[], Inv.start rfl⟩, .start, Broadcaster.start, .start i, rfl⟩
  have hkeep : ∀ (s q : Pipeline) (a : Act) (s' : Pipeline),
      Without (Job.started jobId user pid now) i s q → (!a.ofSub i) = true → s.step a = some s' →
      ∃ q', q.step a = some q' ∧ Without (Job.started jobId user pid now) i s' q' :=
    fun _ _ _ _ hR ha hs => hR.keep (by simpa using ha) hs
  have hdrop : ∀ (s q : Pipeline) (a : Act) (s' : Pipeline),
      Without (Job.started jobId user pid now) i s q → (!a.ofSub i) = false → s.step a = some s' →
      Without (Job.started jobId user pid now) i s' q :=
    fun _ _ _ _ hR ha hs => hR.drop (by simpa using ha) hs
  obtain ⟨q, hq, -, -, t, hw, rfl⟩ := Lts.run_filter _ hkeep hdrop h₀ hr
  exact ⟨_, hq, rfl, rfl, rfl, hw.frames, hw.others⟩

theorem subscriber_deletable_echoRun :
    ∃ p q, Lts.run Pipeline.step (Pipeline.start (Job.started ⟨"job"⟩ ⟨"alice"⟩ ⟨7⟩ ⟨1⟩))
        (echoRun 0 104) = some p ∧
      Lts.run Pipeline.step (Pipeline.start (Job.started ⟨"job"⟩ ⟨"alice"⟩ ⟨7⟩ ⟨1⟩))
        ((echoRun 0 104).filter fun a => !a.ofSub 0) = some q ∧
      q.trk = p.trk ∧ q.bc.frames = p.bc.frames := by
  have hrun := (rfl : Lts.run Pipeline.step
    (Pipeline.start (Job.started ⟨"job"⟩ ⟨"alice"⟩ ⟨7⟩ ⟨1⟩)) (echoRun 0 104) = some _)
  obtain ⟨q, hq, ht, -, -, hf, -⟩ := (subscriber_deletable hrun 0).1
  exact ⟨_, q, hrun, hq, ht, hf⟩

end Pipeline

end JobRunner
