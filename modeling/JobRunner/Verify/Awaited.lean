import JobRunner.Verify.Calls
import JobRunner.Verify.KillAnswers
import JobRunner.Verify.Requests

/-!
# What a pending call waits for

The subscription or the kill request of a call that is not cancelled stays where it can be answered,
whatever else happens to the job (`Coord.Awaited`). The broadcaster never drops its receiver of
requests, so no request of a pending `logs` is refused.
-/

namespace JobRunner

open Lts Mpsc

theorem Relay.start_open (frames : List FrameEvent) :
    (Relay.start frames).clientCh.rxOpen = true := by
  cases frames with
  | nil => rfl
  | cons ev rest => rfl

/-- The subscription of a `logs` call that has not been answered. -/
def Sub.awaited : Sub → Bool
  | .absent => false
  | .sending => true
  | .queued waiting => waiting
  | .gone => false
  | .live r => r.clientCh.rxOpen

theorem Sub.awaited_offer (sub : Sub) (ev : FrameEvent) :
    (sub.offer ev).2.awaited = sub.awaited := by
  cases sub with
  | live r =>
    rcases r.accept_cases ev with ⟨-, -, he⟩ | ⟨-, he⟩ <;> simp only [offer, he, awaited]
    rfl
  | _ => rfl

theorem Sub.awaited_dropHandle (sub : Sub) : sub.dropHandle.awaited = sub.awaited := by
  cases sub <;> rfl

namespace Broadcaster

/-- A subscription is waited for until its caller or client gives it up. -/
theorem Inv.awaited {s s' : Broadcaster} (h : Inv s) (hreq : Requests s) {a : Act}
    (hs : s.step a = some s') {i : SubId}
    (hgive : a ≠ .giveUp i) (hclient : Served.ofClient (.bcast a) = false)
    (hi : (s.subs i).awaited = true) : (s'.subs i).awaited = true := by
  have update : ∀ {j : SubId} {sub : Sub}, (i = j → sub.awaited = true) →
      (Function.update s.subs j sub i).awaited = true := by
    intro j sub hsub
    by_cases hj : i = j
    · subst hj
      rw [Function.update_self]
      exact hsub rfl
    · rw [Function.update_of_ne hj]
      exact hi
  cases a with
  | frame =>
    obtain ⟨-, ⟨ev, q, -, rfl⟩ | ⟨-, -, rfl⟩⟩ := step_frame hs
    · rw [(onFrame_sub h _ ev i).2]
      split
      · rwa [Sub.awaited_offer]
      · exact hi
    · rw [(onFrame_end_sub h _ i).2.2.2]
      split
      · rwa [Sub.awaited_dropHandle]
      · exact hi
  | req j =>
    obtain ⟨-, q, -, ⟨-, -, rfl⟩ | ⟨-, -, rfl⟩ | ⟨hsub, rfl⟩⟩ := step_req hs
    · exact update fun _ => Relay.start_open _
    · exact update fun _ => Relay.start_open _
    · refine update fun hj => ?_
      rw [hj, hsub] at hi
      cases hi
  | reqEnd =>
    obtain ⟨-, -, -, rfl⟩ := step_reqEnd hs
    rcases loopTop_cases { s with reqRxOk := false } with he | ⟨-, -, he⟩
    · rwa [he]
    · rwa [he]
  | subscribe j =>
    obtain ⟨-, -, rfl⟩ := step_subscribe hs
    exact update fun _ => rfl
  | sendReq j =>
    obtain ⟨-, ⟨-, -, rfl⟩ | ⟨hclosed, -⟩⟩ := step_sendReq hs
    · exact update fun _ => rfl
    · rw [hreq.rxOpen] at hclosed
      cases hclosed
  | giveUp j =>
    obtain ⟨sub, rfl, -⟩ := step_giveUp hs
    refine update fun hj => ?_
    rw [hj] at hgive
    exact (hgive rfl).elim
  | relay j b =>
    obtain ⟨r, r', hr, hb, rfl⟩ := step_relay hs
    refine update fun hj => ?_
    subst hj
    rw [hr] at hi
    have hno : b ≠ .clientRecv ∧ b ≠ .clientDrop := by
      constructor
      · rintro rfl
        cases hclient
      · rintro rfl
        cases hclient
    exact (Relay.got_of_step (h.live hr).1 hb hno.1 hno.2).2.trans hi
  | dropHandle =>
    obtain ⟨-, rfl⟩ := step_dropHandle hs
    exact hi

end Broadcaster

/-- A `kill` call that its caller has not dropped. -/
def KillCall.awaited : KillCall → Bool
  | .absent => false
  | .sending _ => true
  | .waiting => true
  | .done _ => true
  | .dropped => false

theorem Pipeline.kill_awaited {p p' : Pipeline} {a : Pipeline.Act} (hs : p.step a = some p')
    {c : Nat} (hdrop : a ≠ .kill c .drop) (hc : (p.kills c).awaited = true) :
    (p'.kills c).awaited = true := by
  have update : ∀ {c' : Nat} {call : KillCall}, (c = c' → call.awaited = true) →
      (Function.update p.kills c' call c).awaited = true := by
    intro c' call hcall
    by_cases hcc : c = c'
    · subst hcc
      rw [Function.update_self]
      exact hcall rfl
    · rw [Function.update_of_ne hcc]
      exact hc
  rcases kill_or_other hs with ⟨c', b, rfl⟩ | ⟨-, hkills⟩
  · cases killStep_of hs with
    | drop _ =>
      refine update fun hcc => ?_
      rw [hcc] at hdrop
      exact (hdrop rfl).elim
    | _ => exact update fun _ => rfl
  · rwa [hkills]

namespace Served

/-- What call `c` waits for is still there. -/
def Awaits (s : Served) (c : Nat) : Op → Prop
  | .ps => False
  | .kill => (s.pl.kills c).awaited = true
  | .logs => s.fwds c = none ∧ (s.pl.bc.subs c).awaited = true

theorem Awaits.step {j₀ : Job} {s s' : Served} {c : Nat} {op : Op} (h : s.Awaits c op)
    (hi : Inv j₀ s) (hreq : s.pl.bc.Requests) {b : Act}
    (hs : s.step b = some s') (hb : b.callOf ≠ some c) :
    s'.Awaits c op := by
  cases op with
  | ps => exact h
  | kill =>
    have same : ∀ {i : SubId} {r : Relay}, (s.setRelay i r).Awaits c .kill := h
    cases b with
    | pipe a =>
      obtain ⟨-, pl, hpl, rfl⟩ := step_pipe hs
      exact Pipeline.kill_awaited hpl (fun ha => hb (by rw [ha]; rfl)) h
    | openLogs i =>
      obtain ⟨r, -, -, -, rfl⟩ := step_openLogs hs
      exact h
    | abandon i =>
      obtain ⟨r, -, -, -, rfl⟩ := step_abandon hs
      exact same
    | fwd i a =>
      obtain ⟨r, f, hr, -, hs⟩ := step_fwd hs
      obtain ⟨r', f', rfl⟩ := stepFwd_sets hr hs
      exact same
  | logs =>
    obtain ⟨hnone, hsub⟩ := h
    have other : ∀ {i : SubId} {r : Relay}, c ≠ i →
        ((s.setRelay i r).pl.bc.subs c).awaited = true := by
      intro i r hci
      have hsame : (s.setRelay i r).pl.bc.subs c = s.pl.bc.subs c := Function.update_of_ne hci ..
      rwa [hsame]
    refine ⟨?_, ?_⟩
    · cases hf : s'.fwds c with
      | none => rfl
      | some f =>
        rcases fwd_came hs hf with ⟨f, hf⟩ | rfl
        · rw [hnone] at hf
          cases hf
        · exact (hb rfl).elim
    · cases b with
      | pipe a =>
        obtain ⟨hclient, pl, hpl, rfl⟩ := step_pipe hs
        obtain ⟨acts, hg⟩ := hi.good
        by_cases hbcast : ∃ a', a = .bcast a'
        · obtain ⟨a', rfl⟩ := hbcast
          obtain ⟨bc, hbc, rfl⟩ := Pipeline.step_bcast hpl
          exact hg.inv.bc.awaited hreq hbc (fun ha => hb (by rw [ha]; rfl)) hclient hsub
        · have hsame := Pipeline.subs_of_step hpl fun b e => hbcast ⟨b, e⟩
          rwa [hsame]
      | openLogs i =>
        obtain ⟨r, -, -, -, rfl⟩ := step_openLogs hs
        exact hsub
      | abandon i =>
        obtain ⟨r, -, -, -, rfl⟩ := step_abandon hs
        refine other fun hci => ?_
        rw [hci] at hb
        exact hb rfl
      | fwd i a =>
        obtain ⟨r, f, hr, hf, hs⟩ := step_fwd hs
        have hci : c ≠ i := by
          rintro rfl
          rw [hnone] at hf
          cases hf
        obtain ⟨r', f', rfl⟩ := stepFwd_sets hr hs
        exact other hci

end Served

namespace Tracked

theorem Of.requests {t : Tracked} {j : JobId} (h : t.Of j) : t.served.pl.bc.Requests := by
  obtain ⟨user, pid, now, hi, hpl⟩ := h.inv
  obtain ⟨acts, hg⟩ := hi.good
  exact .reachable (Pipeline.reachable_bc (.start rfl) hpl)

/-- A call that has begun to wait has made its subscription or its request. -/
theorem enter_awaits {j₀ : Job} {t t' : Tracked} (hi : Served.Inv j₀ t.served) {c : Nat}
    {user : User} {j : JobId} {op : Op}
    (h : t.enter c user j op = some (t', .waiting op j)) : t'.served.Awaits c op := by
  cases op with
  | ps => cases h
  | logs =>
    obtain ⟨-, pl, hpl, hserved⟩ := Served.step_pipe (step_of_serve h)
    obtain ⟨bc, hbc, rfl⟩ := Pipeline.step_bcast hpl
    obtain ⟨-, habsent, rfl⟩ := Broadcaster.step_subscribe hbc
    rw [hserved]
    refine ⟨?_, by simp [Sub.awaited]⟩
    cases hf : t.served.fwds c with
    | none => rfl
    | some f =>
      obtain ⟨r, hr, -⟩ := hi.fwd c f hf
      rw [habsent] at hr
      cases hr
  | kill =>
    obtain ⟨-, pl, hpl, hserved⟩ := Served.step_pipe (step_of_serve h)
    rw [hserved]
    cases Pipeline.killStep_of hpl with
    | call _ => simp [Served.Awaits, KillCall.awaited]

end Tracked

namespace Coord

variable {s s' : Coord}

/-- What a pending call waits for is there. -/
def Awaited (s : Coord) : Prop :=
  ∀ c user op j, s.calls c = some { user, pc := .waiting op j } →
    ∃ t, s.tracked j = some t ∧ t.served.Awaits c op

theorem Awaited.step (h : s.Awaited) (hi : Inv s) {a : Act} (hs : Step s a s') : s'.Awaited := by
  intro c user op j hc
  rcases hs.waits hc with hold | ⟨t, t', ht, ht', he⟩
  · obtain ⟨t, ht, hawaits⟩ := h c user op j hold
    obtain ⟨_, _, _, hinv, -⟩ := (hi.jobs j t ht).inv
    have hreq := (hi.jobs j t ht).requests
    obtain ⟨t', ht', -⟩ := hs.stays ht
    refine ⟨t', ht', ?_⟩
    -- the step is one of another call
    have hother : a.callNo ≠ some c := by
      intro ha
      obtain ⟨call, hcall, hend⟩ := hs.ends ha hold
      rw [hc] at hcall
      cases hcall
      cases hend
    rcases hs.moves ht' with ⟨t₁, ht₁, hm⟩ | ⟨hnone, -⟩
    · obtain rfl := Option.some.inj (ht₁.symm.trans ht)
      cases hm with
      | stay he => rwa [he]
      | task _ hint hb =>
        refine hawaits.step hinv hreq hb ?_
        rw [Tracked.callOf_internal hint]
        simp
      | call ha hstep =>
        rcases hstep with he | ⟨b, hcall, -, -, hb⟩
        · rwa [he]
        · refine hawaits.step hinv hreq hb ?_
          rwa [hcall, ← ha]
      | stream ha _ hb =>
        refine hawaits.step hinv hreq hb fun he => hother ?_
        rw [ha]
        exact he
    · rw [ht] at hnone
      cases hnone
  · obtain ⟨_, _, _, hinv, -⟩ := (hi.jobs j t ht).inv
    exact ⟨t', ht', Tracked.enter_awaits hinv he⟩

theorem Awaited.reachable (hr : Reachable Coord.step init s) : s.Awaited := by
  refine (hr.invariant (I := fun s => Inv s ∧ s.Awaited)
    ⟨.init, fun c _ _ _ hc => by cases hc⟩ ?_).2
  exact fun s a s' ⟨hi, h⟩ hs => ⟨hi.step (step_of hs), h.step hi (step_of hs)⟩

end Coord

end JobRunner
