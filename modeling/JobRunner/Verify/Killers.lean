import JobRunner.Verify.Calls
import JobRunner.Verify.KillAnswers

/-!
# Only its owner kills a job

`get_tracker` is the one check between a `kill` request and a process. Behind it a request carries
the user of its call with it, and `wait` writes that user into the record. So on every run the
user of each request under way, and the one who is recorded as having killed a job, is its owner.
And a request under way is one that a call has made.
-/

namespace JobRunner

open Lts Mpsc

/-- The call has begun. -/
def KillCall.asked : KillCall → Bool
  | .absent => false
  | _ => true

namespace Pipeline

variable {p p' : Pipeline} {u : User}

/-- The calls that have begun. -/
def asked (p : Pipeline) (c : Nat) : Bool := (p.kills c).asked

theorem asked_update {c : Nat} {call : KillCall} (hcall : call.asked = true) :
    (fun c' => (Function.update p.kills c call c').asked) =
      Function.update p.asked c true := by
  funext c'
  by_cases hc : c' = c
  · subst hc
    simp [hcall]
  · simp [hc, asked]

/-- A step of a call that has begun. -/
theorem asked_same {c : Nat} {call : KillCall} (hc : p.asked c = true)
    (hcall : call.asked = true) :
    (fun c' => (Function.update p.kills c call c').asked) = p.asked := by
  rw [asked_update hcall, Function.update_eq_self_iff, hc]

theorem asked_of_kill {c : Nat} {a : KillAct} (hs : p.step (.kill c a) = some p') :
    p'.asked = Function.update p.asked c true ∧
      ((∀ user, a ≠ .call user) → p'.asked = p.asked) := by
  cases killStep_of hs with
  | call hc => exact ⟨asked_update rfl, fun h => (h _ rfl).elim⟩
  | sent hc _ | failed hc _ | recv hc _ | timeout hc =>
    exact ⟨asked_update rfl, fun _ => asked_same (by simp [asked, hc, KillCall.asked]) rfl⟩
  | drop hc =>
    refine ⟨asked_update rfl, fun _ => asked_same ?_ rfl⟩
    rcases hc with ⟨user, hc⟩ | hc
    · simp [asked, hc, KillCall.asked]
    · simp [asked, hc, KillCall.asked]

/-- A request that a call of `u` has made. -/
structure MadeBy (u : User) (p : Pipeline) (req : KillRequest) : Prop where
  user : req.user = u
  asked : p.asked req.tx = true

/-- Every kill request is one of `u`, wherever it is, and so is the one the record speaks of. -/
structure KilledBy (u : User) (p : Pipeline) : Prop where
  calls : ∀ c user, p.kills c = .sending user → user = u
  queued : ∀ req ∈ p.killCh.queue, p.MadeBy u req
  inHand : ∀ req ∈ Tracker.inHand p.trk.pc, p.MadeBy u req
  killed : ∀ k, p.trk.job.killed = some k → k.user = u

namespace KilledBy

theorem start {job : Job} (h : job.killed = none) : KilledBy u (Pipeline.start job) where
  calls c user hc := by cases hc
  queued req hr := by cases hr
  inHand req hr := by cases hr
  killed k hk := by
    have hnone : job.killed = some k := hk
    rw [h] at hnone
    cases hnone

/-- A step elsewhere. -/
theorem same (h : KilledBy u p) (htrk : p'.trk = p.trk) (hch : p'.killCh = p.killCh)
    (hkills : p'.kills = p.kills) : KilledBy u p' where
  calls := by rw [hkills]; exact h.calls
  queued := by rw [hch]; exact fun req hr =>
    ⟨(h.queued req hr).user, by rw [asked, hkills]; exact (h.queued req hr).asked⟩
  inHand := by rw [htrk]; exact fun req hr =>
    ⟨(h.inHand req hr).user, by rw [asked, hkills]; exact (h.inHand req hr).asked⟩
  killed := by rw [htrk]; exact h.killed

/-- The tracker steps without a request. -/
theorem plain (h : KilledBy u p) {ev : Tracker.Ev} (hev : Tracker.Plain ev)
    (ht : p.trk.step ev = some p'.trk) (hkills : p'.kills = p.kills)
    (hqueue : ∀ req ∈ p'.killCh.queue, req ∈ p.killCh.queue) : KilledBy u p' where
  calls := by rw [hkills]; exact h.calls
  queued req hr := by
    obtain ⟨huser, hasked⟩ := h.queued req (hqueue req hr)
    exact ⟨huser, by rwa [asked, hkills]⟩
  inHand req hr := by
    rw [(hev.framed ht).after] at hr
    cases hr
  killed := by rw [(hev.framed ht).job]; exact h.killed

/-- A record and a program counter that say nothing new of a kill. -/
theorem tracked (h : KilledBy u p) {trk : Tracker} (hin : Tracker.inHand trk.pc = [])
    (hkilled : ∀ k, trk.job.killed = some k → k.user = u) : KilledBy u { p with trk } where
  calls := h.calls
  queued req hr := { h.queued req hr with }
  inHand req hr := by
    have hnone : req ∈ Tracker.inHand trk.pc := hr
    rw [hin] at hnone
    cases hnone
  killed := hkilled

theorem kill (h : KilledBy u p) {c : Nat} {a : KillAct} (hs : p.step (.kill c a) = some p')
    (ha : ∀ user, a = .call user → user = u) : KilledBy u p' := by
  have update : ∀ {call : KillCall}, (∀ user, call = .sending user → user = u) →
      ∀ c' user, Function.update p.kills c call c' = .sending user → user = u := by
    intro call hcall c' user hc
    by_cases hcc : c' = c
    · subst hcc
      exact hcall user (by simpa using hc)
    · exact h.calls c' user (by simpa [hcc] using hc)
  -- a call stays asked
  have made : ∀ {req : KillRequest}, p.MadeBy u req → p'.MadeBy u req := by
    rintro req ⟨huser, hasked⟩
    refine ⟨huser, ?_⟩
    rw [(asked_of_kill hs).1]
    by_cases hc : req.tx = c
    · rw [hc, Function.update_self]
    · rwa [Function.update_of_ne hc]
  have hqueued : ∀ req ∈ p.killCh.queue, p'.MadeBy u req := fun req hr => made (h.queued req hr)
  have hinHand : ∀ req ∈ Tracker.inHand p.trk.pc, p'.MadeBy u req := fun req hr =>
    made (h.inHand req hr)
  have hself : p'.asked c = true := by rw [(asked_of_kill hs).1, Function.update_self]
  cases killStep_of hs with
  | @call user hc =>
    exact ⟨update fun user' he => ha user' (by simpa using he), hqueued, hinHand, h.killed⟩
  | @sent user hc ho =>
    refine ⟨update (by simp), fun req hr => ?_, hinHand, h.killed⟩
    rcases List.mem_append.1 hr with hr | hr
    · exact hqueued req hr
    · obtain rfl := List.mem_singleton.1 hr
      exact ⟨h.calls c user hc, hself⟩
  | failed hc ho => exact ⟨update (by simp), hqueued, hinHand, h.killed⟩
  | recv hc hone => exact ⟨update (by simp), hqueued, hinHand, h.killed⟩
  | timeout hc => exact ⟨update (by simp), hqueued, hinHand, h.killed⟩
  | drop hc => exact ⟨update (by simp), hqueued, hinHand, h.killed⟩

theorem step (h : KilledBy u p) {a : Act} (hs : p.step a = some p')
    (ha : ∀ c user, a = .kill c (.call user) → user = u) : KilledBy u p' := by
  cases a with
  | output k a =>
    obtain ⟨o, -, rfl⟩ := step_output hs
    exact h.same rfl rfl rfl
  | recvOutput k =>
    obtain ⟨ev, o, trk, -, ht, rfl⟩ := step_recvOutput hs
    have hplain : Tracker.Plain (.output k ev) := trivial
    exact h.plain hplain ht rfl fun req hr => hr
  | send =>
    obtain ⟨ev, ok, ch, trk, -, -, ht, rfl⟩ := step_send hs
    have hplain : Tracker.Plain (.sent ok) := trivial
    exact h.plain hplain ht rfl fun req hr => hr
  | recvKill =>
    obtain ⟨req, ch, trk, hch, ht, rfl⟩ := step_recvKill hs
    obtain ⟨-, -, rfl⟩ := Tracker.step_killReq ht
    rcases Chan.recv_eq_some_iff.1 hch with ⟨r, q, hq, rfl, rfl⟩ | ⟨-, -, rfl, rfl⟩
    · -- the request changes hands
      have hqueued : ∀ req ∈ r :: q, p.MadeBy u req := by
        rw [← hq]
        exact h.queued
      refine ⟨h.calls, fun req hr => { hqueued req (List.mem_cons_of_mem _ hr) with },
        fun req hr => ?_, h.killed⟩
      obtain rfl : req = r := List.mem_singleton.1 hr
      exact { hqueued req List.mem_cons_self with }
    · exact h.tracked (Tracker.inHand_loopTop _) h.killed
  | killRes res now =>
    obtain ⟨req, trk, hpc, ht, rfl⟩ := step_killRes hs
    obtain ⟨-, -, rfl⟩ := Tracker.step_killRes ht
    cases res with
    | error err => exact h.tracked (Tracker.inHand_loopTop _) h.killed
    | ok _ =>
      refine h.tracked (Tracker.inHand_loopTop _) fun k hk => ?_
      obtain rfl : { killedAt := now, user := req.user } = k := Option.some.inj hk
      exact (h.inHand req (by rw [hpc]; exact List.mem_singleton_self _)).user
  | exit status now =>
    obtain ⟨trk, ht, rfl⟩ := step_exit hs
    obtain ⟨-, -, rfl⟩ := Tracker.step_exit ht
    cases status with
    | error err => exact h.tracked rfl h.killed
    | ok status => exact h.tracked (Tracker.inHand_loopTop _) h.killed
  | setRes =>
    obtain ⟨trk, ht, rfl⟩ := step_setRes hs
    have hplain : Tracker.Plain .setRes := trivial
    refine h.plain hplain ht rfl fun req hr => ?_
    simp [release] at hr
  | kill c a => exact h.kill hs fun user he => ha c user (by rw [he])
  | bcast a =>
    obtain ⟨bc, -, rfl⟩ := step_bcast hs
    exact h.same rfl rfl rfl

end KilledBy

end Pipeline

namespace Served

/-- Log streams have nothing to do with kills. -/
theorem killedBy_step {s s' : Served} {u : User} (h : s.pl.KilledBy u) {a : Act}
    (hs : s.step a = some s') (ha : ∀ c user, a = .pipe (.kill c (.call user)) → user = u) :
    s'.pl.KilledBy u := by
  have same : ∀ {i : SubId} {r : Relay}, (s.setRelay i r).pl.KilledBy u := h.same rfl rfl rfl
  cases a with
  | pipe a =>
    obtain ⟨-, pl, hpl, rfl⟩ := step_pipe hs
    exact h.step hpl fun c user he => ha c user (by rw [he])
  | openLogs i =>
    obtain ⟨r, -, -, -, rfl⟩ := step_openLogs hs
    exact h
  | abandon i =>
    obtain ⟨r, -, -, -, rfl⟩ := step_abandon hs
    exact same
  | fwd i a =>
    obtain ⟨r, f, -, -, hs⟩ := step_fwd hs
    cases a with
    | recv =>
      obtain ⟨-, -, ⟨ev, q, -, -, rfl⟩ | ⟨q, -, rfl⟩ | ⟨-, -, rfl⟩⟩ := stepFwd_recv hs
      · exact same
      · exact same
      · exact same
    | send =>
      obtain ⟨item, last, -, ⟨-, -, rfl⟩ | ⟨-, -, rfl⟩ | ⟨-, rfl⟩⟩ := stepFwd_send hs
      · exact h
      · exact same
      · exact same
    | clientRecv =>
      obtain ⟨f', -, rfl⟩ := stepFwd_client (.inl rfl) hs
      exact h
    | clientDrop =>
      obtain ⟨f', -, rfl⟩ := stepFwd_client (.inr rfl) hs
      exact h

end Served

namespace Coord

variable {s s' : Coord}

/-- Whoever kills a job owns it. -/
def OwnerKills (s : Coord) : Prop :=
  ∀ j t, s.tracked j = some t → t.served.pl.KilledBy t.job.user

theorem OwnerKills.step (hi : Inv s) (h : s.OwnerKills) {a : Act} (hs : Step s a s') :
    s'.OwnerKills := by
  intro j t' ht'
  rcases hs.moves ht' with ⟨t, ht, hm⟩ | ⟨-, child, user, rfl⟩
  · have hu : t'.job.user = t.job.user := by
      obtain ⟨t₁, ht₁, hreach⟩ := hs.stays ht
      obtain rfl : t₁ = t' := Option.some.inj (ht₁.symm.trans ht')
      exact hi.user_eq ht hreach.reachable
    rw [hu]
    cases hm with
    | stay he => exact he ▸ h j t ht
    | task _ hint hb =>
      refine Served.killedBy_step (h j t ht) hb fun c user he => ?_
      rw [he] at hint
      cases hint
    | call _ hstep =>
      rcases hstep with he | ⟨b, -, -, hk, hb⟩
      · exact he ▸ h j t ht
      · exact Served.killedBy_step (h j t ht) hb hk
    | stream _ _ hb => exact Served.killedBy_step (h j t ht) hb (by simp)
  · exact .start rfl

theorem OwnerKills.reachable (hr : Reachable Coord.step init s) : s.OwnerKills := by
  refine (hr.invariant (I := fun s => Inv s ∧ s.OwnerKills) ⟨.init, fun j t ht => by cases ht⟩ ?_).2
  exact fun s a s' ⟨hi, h⟩ hs => ⟨hi.step (step_of hs), h.step hi (step_of hs)⟩

end Coord

end JobRunner
