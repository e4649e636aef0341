import JobRunner.Verify.Isolation
import JobRunner.Verify.Store

/-!
# Which calls can hang

A pending call waits for room in a channel, for an answer, or for a lock that nobody keeps. The
tasks of the job can always make room for its request, but for one case: `wait` takes no request
while it is in `child.kill()`, and the timeout of `JobTracker::kill` does not cover the send of the
request. So a kill behind two others hangs as long as that call takes.

A channel gives a place that becomes free to the sender that has waited longest, so a call may have
to wait for the calls in front of it. A run of this development lets the senders in in any order;
what holds of every order (`Coord.answered_in_turn`) holds of that one.
-/

namespace JobRunner

open Lts Mpsc

/-! ## Room for a kill request -/

/-- How far `wait` is from its next `select!`, or from its end. -/
def WaitPc.toSelect : WaitPc → Nat
  | .select => 0
  | .sendFrame _ => 3
  | .killing _ => 0
  | .sendLast => 2
  | .setRes => 1
  | .returned => 0

/-- A send that has succeeded brings `wait` nearer. -/
theorem Tracker.toSelect_sent {s s' : Tracker} (h : s.step (.sent true) = some s') :
    s'.pc.toSelect < s.pc.toSelect ∧ ∀ req, s'.pc ≠ .killing req := by
  rcases step_sent h with ⟨f, hpc, -, rfl⟩ | ⟨f, -, hf, -⟩ | ⟨hpc, rfl⟩
  · rcases s.loopTop_pc with htop | ⟨htop, -⟩
    · rw [htop, hpc]
      exact ⟨by simp [WaitPc.toSelect], by simp⟩
    · rw [htop, hpc]
      exact ⟨by simp [WaitPc.toSelect], by simp⟩
  · cases hf
  · rw [hpc]
    exact ⟨by simp [WaitPc.toSelect], by simp⟩

namespace Pipeline

variable {p p' : Pipeline} {jobId : JobId} {user : User} {pid : Pid} {now : DateTime}

/-- The kill channel, as `wait` sees it: `JobTrackerInner` has a sender all the time. -/
structure Listens (p : Pipeline) : Prop where
  killOk : p.trk.killOk = true
  senders : p.killCh.senders = 1
  cap : p.killCh.cap = 1
  len : p.killCh.queue.length ≤ 1

namespace Listens

theorem tracked (h : Listens p) {trk : Tracker} {ev : Tracker.Ev} (ht : p.trk.step ev = some trk)
    (hev : ev ≠ .killReq none) : trk.killOk = true :=
  ((Tracker.step_branches ht).2.resolve_right hev).trans h.killOk

theorem step (h : Listens p) {a : Act} (hs : p.step a = some p') : Listens p' := by
  cases a with
  | output k a =>
    obtain ⟨o, -, rfl⟩ := step_output hs
    exact { h with }
  | recvOutput k =>
    obtain ⟨ev, o, trk, -, ht, rfl⟩ := step_recvOutput hs
    exact { h with killOk := h.tracked ht (by simp) }
  | send =>
    obtain ⟨ev, ok, ch, trk, -, -, ht, rfl⟩ := step_send hs
    exact { h with killOk := h.tracked ht (by simp) }
  | recvKill =>
    obtain ⟨req, ch, trk, hch, ht, rfl⟩ := step_recvKill hs
    rcases Chan.recv_eq_some_iff.1 hch with ⟨r, q, hq, rfl, rfl⟩ | ⟨-, hz, -, -⟩
    · have hlen := h.len
      rw [hq, List.length_cons] at hlen
      refine ⟨h.tracked ht (by simp), h.senders, h.cap, ?_⟩
      change q.length ≤ 1
      omega
    · rw [h.senders] at hz
      cases hz
  | killRes res now =>
    obtain ⟨req, trk, -, ht, rfl⟩ := step_killRes hs
    exact { h with killOk := h.tracked ht (by simp) }
  | exit status now =>
    obtain ⟨trk, ht, rfl⟩ := step_exit hs
    exact { h with killOk := h.tracked ht (by simp) }
  | setRes =>
    obtain ⟨trk, ht, rfl⟩ := step_setRes hs
    exact ⟨h.tracked ht (by simp), h.senders, h.cap, Nat.zero_le _⟩
  | kill c a =>
    have same : ∀ {kills : Nat → KillCall}, Listens { p with kills } := { h with }
    cases a with
    | send =>
      simp only [Pipeline.step, stepKill] at hs
      split at hs
      · split at hs
        · cases hs
        · next ch hsend =>
          cases hs
          rcases Chan.send_eq_some_iff.1 hsend with ⟨-, -, hroom, rfl⟩ | ⟨hno, -, -⟩
          · rw [h.cap] at hroom
            refine ⟨h.killOk, h.senders, h.cap, ?_⟩
            rw [Chan.push_queue, List.length_append, List.length_singleton]
            omega
          · cases hno
        · cases hs
          exact same
      · cases hs
    | call user => cases killStep_of hs; exact same
    | recv => cases killStep_of hs; exact same
    | timeout => cases killStep_of hs; exact same
    | drop => cases killStep_of hs; exact same
  | bcast a =>
    obtain ⟨bc, -, rfl⟩ := step_bcast hs
    exact { h with }

theorem reachable {job : Job} (hr : Reachable Pipeline.step (Pipeline.start job) p) : Listens p :=
  hr.invariant (I := Listens) ⟨rfl, rfl, rfl, Nat.zero_le _⟩ fun _ _ _ h hs => h.step hs

end Listens

/-- The steps with which `wait` gets to its next request, and the broadcaster lets it. -/
def Act.makesRoom : Act → Bool
  | .recvKill => true
  | .send => true
  | .setRes => true
  | .bcast .frame => true
  | _ => false

/-- What is left to do before there is room for a kill request. -/
def toRoom (p : Pipeline) : Nat :=
  4 * p.trk.pc.toSelect + p.bc.frameCh.queue.length + p.killCh.queue.length

/-- While `wait` has an event to send, it or the broadcaster goes on. -/
theorem toRoom_send {j₀ : Job} {acts : List Act} (hi : Inv j₀ acts p) {ev : FrameEvent}
    (hev : p.trk.outgoing = some ev) : ∃ a p', a.makesRoom = true ∧ p.step a = some p' ∧
      p'.kills = p.kills ∧ (∀ req, p'.trk.pc ≠ .killing req) ∧ p'.toRoom < p.toRoom := by
  have hpc : p.trk.pc ≠ .returned ∧ ∀ req, p.trk.pc ≠ .killing req := by
    constructor
    · intro hpc
      simp [Tracker.outgoing, hpc] at hev
    · intro req hpc
      simp [Tracker.outgoing, hpc] at hev
  rcases send_enabled hi hev with hs | ⟨p', hf, -⟩
  · obtain ⟨p', hs⟩ := Option.isSome_iff_exists.1 hs
    obtain ⟨ev, trk, -, ht, -, -, -, rfl⟩ := hi.send_cases hs
    obtain ⟨hlt, hnot⟩ := Tracker.toSelect_sent ht
    refine ⟨.send, _, rfl, hs, rfl, hnot, ?_⟩
    simp only [toRoom, Chan.push_queue, List.length_append, List.length_singleton]
    omega
  · obtain ⟨bc, hbc, rfl⟩ := step_bcast hf
    obtain ⟨-, ⟨ev, q, hq, rfl⟩ | ⟨-, hz, -⟩⟩ := Broadcaster.step_frame hbc
    · refine ⟨.bcast .frame, _, rfl, hf, rfl, hpc.2, ?_⟩
      simp only [toRoom, hq, List.length_cons, Broadcaster.onFrame]
      omega
    · have hsrc := hi.src
      rw [if_neg hpc.1, hz] at hsrc
      cases hsrc

/-- Unless `wait` is in `child.kill()`, it gets to its next kill request or to its end with the
help of the broadcaster alone. -/
theorem settles_room (hr : Reachable step (start (Job.started jobId user pid now)) p)
    (hpc : p.killCh.Ready ∨ ∀ req, p.trk.pc ≠ .killing req) :
    ∃ acts p', (∀ a ∈ acts, a.makesRoom = true) ∧ run step p acts = some p' ∧
      p'.kills = p.kills ∧ p'.killCh.Ready := by
  suffices hprogress : ∀ q, (Reachable step (start (Job.started jobId user pid now)) q ∧
      q.kills = p.kills ∧ (q.killCh.Ready ∨ ∀ req, q.trk.pc ≠ .killing req)) → ¬q.killCh.Ready →
      ∃ a q', Act.makesRoom a = true ∧ q.step a = some q' ∧
        (Reachable step (start (Job.started jobId user pid now)) q' ∧ q'.kills = p.kills ∧
          (q'.killCh.Ready ∨ ∀ req, q'.trk.pc ≠ .killing req)) ∧ q'.toRoom < q.toRoom by
    obtain ⟨acts, p', hacts, hrun, ⟨-, hkills, -⟩, hready⟩ :=
      run_settles toRoom hprogress ⟨hr, rfl, hpc⟩
    exact ⟨acts, p', hacts, hrun, hkills, hready⟩
  rintro q ⟨hq, hkills, hpc⟩ hno
  have hnot := hpc.resolve_left hno
  have hl := Listens.reachable hq
  obtain ⟨acts, hrun⟩ := id hq
  have hi := Inv.run rfl hrun
  have send : q.trk.outgoing ≠ none → ∃ a q', Act.makesRoom a = true ∧
      q.step a = some q' ∧ (Reachable step (start (Job.started jobId user pid now)) q' ∧
        q'.kills = p.kills ∧ (q'.killCh.Ready ∨ ∀ req, q'.trk.pc ≠ .killing req)) ∧
      q'.toRoom < q.toRoom := by
    intro hsome
    obtain ⟨ev, hev⟩ := Option.ne_none_iff_exists'.1 hsome
    obtain ⟨a, q', ha, hs, hk, hnot, hlt⟩ := toRoom_send hi hev
    exact ⟨a, q', ha, hs, ⟨hq.tail hs, hk.trans hkills, .inr hnot⟩, hlt⟩
  cases hpc : q.trk.pc with
  | select =>
    cases hqueue : q.killCh.queue with
    | nil => exact (hno (.inr (by rw [hqueue, hl.cap]; exact Nat.one_pos))).elim
    | cons req rest =>
      have hs : q.step .recvKill = some { q with
          trk := q.trk.onKillReq (some req), killCh := { q.killCh with queue := rest } } := by
        simp [step, Chan.recv, hqueue, Tracker.step, hpc, hl.killOk]
      have hlen := hl.len
      rw [hqueue, List.length_cons] at hlen
      refine ⟨.recvKill, _, rfl, hs, ⟨hq.tail hs, hkills, .inl (.inr ?_)⟩, ?_⟩
      · change rest.length < q.killCh.cap
        rw [hl.cap]
        omega
      · simp only [toRoom, hpc, hqueue, Tracker.onKillReq, WaitPc.toSelect, List.length_cons]
        omega
  | sendFrame frame => exact send (by simp [Tracker.outgoing, hpc])
  | killing req => exact (hnot req hpc).elim
  | sendLast => exact send (by simp [Tracker.outgoing, hpc])
  | setRes =>
    obtain ⟨trk, ht⟩ : ∃ trk, q.trk.step .setRes = some trk := by simp [Tracker.step, hpc]
    have hs : q.step .setRes = some (q.release trk) := by simp [step, ht]
    refine ⟨.setRes, _, rfl, hs, ⟨hq.tail hs, hkills, .inl (.inl rfl)⟩, ?_⟩
    obtain ⟨-, rfl⟩ := Tracker.step_setRes ht
    simp only [toRoom, hpc, release, WaitPc.toSelect, Chan.dropTx_queue, Chan.dropRx_queue,
      List.length_nil]
    omega
  | returned =>
    have hopen : q.killCh.rxOpen = false := by
      rw [← Bool.not_eq_true, killCh_open hq, not_not]
      exact hpc
    exact (hno (.inl hopen)).elim

end Pipeline

/-! ## Calls that can be answered -/

/-- A receipt of a log request. -/
def Broadcaster.Act.isReq : Broadcaster.Act → Bool
  | .req _ => true
  | _ => false

/-- The broadcaster makes room for a log request by itself. -/
theorem Broadcaster.settles_request {s : Broadcaster} (hi : Inv s) (hreq : Requests s) {c : SubId}
    (hc : s.subs c = .sending) :
    ∃ acts s', (∀ a ∈ acts, Act.isReq a = true) ∧ run step s acts = some s' ∧
      (Requests s' ∧ s'.subs c = .sending) ∧ s'.reqCh.Ready := by
  suffices hprogress : ∀ s, (Inv s ∧ Requests s ∧ s.subs c = .sending) → ¬s.reqCh.Ready →
      ∃ a s', Act.isReq a = true ∧ s.step a = some s' ∧
        (Inv s' ∧ Requests s' ∧ s'.subs c = .sending) ∧
        s'.reqCh.queue.length < s.reqCh.queue.length by
    obtain ⟨acts, s', hacts, hrun, ⟨-, hs'⟩, hready⟩ :=
      run_settles (fun s : Broadcaster => s.reqCh.queue.length) hprogress ⟨hi, hreq, hc⟩
    exact ⟨acts, s', hacts, hrun, hs', hready⟩
  rintro s ⟨hi, hreq, hc⟩ hno
  cases hq : s.reqCh.queue with
  | nil => exact (hno (.inr (by rw [hq, hreq.cap]; exact Nat.one_pos))).elim
  | cons i rest =>
    obtain ⟨waiting, hsub⟩ := hi.queued i (by rw [hq]; exact List.mem_cons_self)
    have hci : c ≠ i := by
      rintro rfl
      rw [hc] at hsub
      cases hsub
    obtain ⟨s', hs⟩ : ∃ s', s.step (.req i) = some s' := by
      cases waiting <;> cases hf : s.frameRxOk <;>
        simp [Broadcaster.step, hreq.rxOk, Chan.recv, hq, onReq, hsub, hf]
    have hnext : s'.subs c = .sending ∧ s'.reqCh.queue = rest := by
      obtain ⟨-, q, hq', ⟨-, -, rfl⟩ | ⟨-, -, rfl⟩ | ⟨-, rfl⟩⟩ := step_req hs
      all_goals
        obtain ⟨-, rfl⟩ := List.cons.inj (hq'.symm.trans hq)
        exact ⟨(Function.update_of_ne hci ..).trans hc, rfl⟩
    have hi' : Inv s' := hi.openStep (a := .act (.req i)) hs
    refine ⟨.req i, s', rfl, hs, ⟨hi', hreq.step hi hs, hnext.1⟩, ?_⟩
    rw [hnext.2]
    exact Nat.lt_succ_self _

namespace Served

/-- The steps that call `c` takes on its job, and those of `wait` and of the broadcaster that make
room for them. -/
def Act.serves (c : Nat) : Act → Bool
  | .pipe (.kill c' .send) => c' = c
  | .pipe (.kill c' .timeout) => c' = c
  | .pipe (.bcast (.sendReq i)) => i = c
  | .pipe (.bcast (.req _)) => true
  | .pipe a => a.makesRoom
  | _ => false

end Served

namespace Pipeline

variable {p p' : Pipeline} {jobId : JobId} {user : User} {pid : Pid} {now : DateTime} {c : Nat}

/-- The request of call `c` waits for room behind another one, and `wait` is in `child.kill()`. -/
def Hung (p : Pipeline) (c : Nat) : Prop :=
  ∃ user req ahead, p.kills c = .sending user ∧ p.trk.pc = .killing req ∧ p.killCh.queue = [ahead]

theorem kill_timeout (hc : p.kills c = .waiting) :
    ∃ p', p.step (.kill c .timeout) = some p' ∧ ∃ res, p'.kills c = .done res := by
  simp only [step, stepKill, hc]
  exact ⟨_, rfl, _, Function.update_self ..⟩

theorem kill_send {u : User} (hc : p.kills c = .sending u) (hready : p.killCh.Ready) :
    ∃ p', p.step (.kill c .send) = some p' ∧
      (p'.kills c = .waiting ∨ ∃ res, p'.kills c = .done res) := by
  obtain ⟨⟨ok, ch⟩, hsend⟩ := Option.isSome_iff_exists.1
    (Chan.send_isSome (a := ({ user := u, tx := c } : KillRequest)) |>.2 hready)
  simp only [step, stepKill, hc, hsend]
  cases ok with
  | true => exact ⟨_, rfl, .inl (Function.update_self ..)⟩
  | false => exact ⟨_, rfl, .inr ⟨_, Function.update_self ..⟩⟩

/-- A kill request that has been made is answered, or times out, unless it hangs. -/
theorem kill_settles (hr : Reachable step (start (Job.started jobId user pid now)) p)
    (hc : (p.kills c).awaited = true) (hh : ¬p.Hung c) :
    ∃ acts p', (∀ a ∈ acts, (Served.Act.pipe a).serves c = true) ∧ run step p acts = some p' ∧
      ∃ res, p'.kills c = .done res := by
  cases hkill : p.kills c with
  | absent => simp [hkill, KillCall.awaited] at hc
  | dropped => simp [hkill, KillCall.awaited] at hc
  | done res => exact ⟨[], p, by simp, rfl, res, hkill⟩
  | waiting =>
    obtain ⟨p', hs, hdone⟩ := kill_timeout hkill
    exact ⟨[.kill c .timeout], p', by simp [Served.Act.serves], run_single.2 hs, hdone⟩
  | sending u =>
    have hl := Listens.reachable hr
    have hpc : p.killCh.Ready ∨ ∀ req, p.trk.pc ≠ .killing req := by
      by_contra hno
      obtain ⟨hfull, hpc⟩ := not_or.1 hno
      obtain ⟨req, hpc⟩ := not_forall_not.1 hpc
      cases hq : p.killCh.queue with
      | nil => exact hfull (.inr (by rw [hq, hl.cap]; exact Nat.one_pos))
      | cons ahead rest =>
        have hlen := hl.len
        rw [hq, List.length_cons] at hlen
        obtain rfl : rest = [] := List.eq_nil_of_length_eq_zero (by omega)
        exact hh ⟨u, req, ahead, hkill, hpc, hq⟩
    obtain ⟨acts, p₁, hacts, hrun, hkills, hready⟩ := settles_room hr hpc
    have hroom : ∀ a ∈ acts, (Served.Act.pipe a).serves c = true := by
      intro a ha
      have hmake := hacts a ha
      unfold Act.makesRoom at hmake
      split at hmake <;> first | rfl | cases hmake
    rw [← hkills] at hkill
    obtain ⟨p₂, hsend, hwait | hdone⟩ := kill_send hkill hready
    · obtain ⟨p', hs, hdone⟩ := kill_timeout hwait
      refine ⟨acts ++ [.kill c .send, .kill c .timeout], p', ?_, ?_, hdone⟩
      · simpa [or_imp, forall_and, Served.Act.serves] using hroom
      · exact run_append_of hrun (run_cons_iff.2 ⟨p₂, hsend, run_single.2 hs⟩)
    · refine ⟨acts ++ [.kill c .send], p₂, ?_, run_snoc_iff.2 ⟨p₁, hrun, hsend⟩, hdone⟩
      simpa [or_imp, forall_and, Served.Act.serves] using hroom

end Pipeline

theorem Served.Act.serves_pipe {c : Nat} {a : Pipeline.Act} (h : (Act.pipe a).serves c = true) :
    ofClient a = false := by
  unfold ofClient
  split
  · cases h
  · cases h
  · rfl

theorem Served.run_pipe {c : Nat} {s : Served} {acts : List Pipeline.Act} {pl : Pipeline}
    (hacts : ∀ a ∈ acts, (Act.pipe a).serves c = true)
    (hr : run Pipeline.step s.pl acts = some pl) :
    run Served.step s (acts.map .pipe) = some { s with pl } := by
  refine run_embed (fun pl => { s with pl }) Act.pipe (fun p a p' ha hs => ?_) hacts hr
  simp [step, Act.serves_pipe ha, hs]

namespace Tracked

variable {t : Tracked} {c : Nat} {j : JobId} {op : Op}

/-- The call can end now, with an answer or with its timeout. -/
def Answerable (t : Tracked) (c : Nat) (j : JobId) (op : Op) : Prop :=
  (t.reply c j op).isSome = true ∨ (t.timeout c op).isSome = true

theorem answerable_queued (hsub : t.served.pl.bc.subs c = .queued true) :
    t.Answerable c j .logs := by
  right
  simp [timeout, hsub, serve, Served.step, Served.ofClient, Pipeline.step, Broadcaster.step]

/-- The steps of the call and of the tasks of its job bring it there, unless it hangs. -/
theorem Of.settles (h : t.Of j) (hawaits : t.served.Awaits c op)
    (hh : op = .kill → ¬t.served.pl.Hung c) :
    ∃ bs served, (∀ b ∈ bs, Served.Act.serves c b = true) ∧
      run Served.step t.served bs = some served ∧ Answerable { t with served } c j op := by
  obtain ⟨user, pid, now, hi, hpl⟩ := h.inv
  obtain ⟨acts, hg⟩ := hi.good
  cases op with
  | ps => exact hawaits.elim
  | kill =>
    obtain ⟨acts, pl, hacts, hrun, res, hdone⟩ := Pipeline.kill_settles hpl hawaits (hh rfl)
    refine ⟨acts.map .pipe, _, by simpa using hacts, Served.run_pipe hacts hrun, .inl ?_⟩
    simp [reply, hdone]
  | logs =>
    obtain ⟨hnone, hsub⟩ := hawaits
    cases hc : t.served.pl.bc.subs c with
    | absent => simp [hc, Sub.awaited] at hsub
    | queued waiting =>
      obtain rfl : waiting = true := by simpa [hc, Sub.awaited] using hsub
      exact ⟨[], _, by simp, rfl, answerable_queued hc⟩
    | gone => simp [hc, Sub.awaited] at hsub
    | live r =>
      have hopen : r.clientCh.rxOpen = true := by simpa [hc, Sub.awaited] using hsub
      refine ⟨[], _, by simp, rfl, .inl ?_⟩
      simp [reply, hc, serve, Served.step, hnone, hopen]
    | sending =>
      obtain ⟨as, bc, has, hrun, ⟨hreq, hsend⟩, hready⟩ :=
        Broadcaster.settles_request hg.inv.bc h.requests hc
      have hroom := hready.resolve_left (by simp [hreq.rxOpen])
      have hstep : bc.step (.sendReq c) = some { bc with
          reqCh := bc.reqCh.push c, subs := Function.update bc.subs c (.queued true) } := by
        have hpush : bc.reqCh.send c = some (true, bc.reqCh.push c) :=
          Chan.send_eq_some_iff.2 (.inl ⟨rfl, hreq.rxOpen, hroom, rfl⟩)
        simp only [Broadcaster.step, hsend, hpush]
      have hserves : ∀ a ∈ as ++ [Broadcaster.Act.sendReq c],
          (Served.Act.pipe (.bcast a)).serves c = true := by
        intro a ha
        rcases List.mem_append.1 ha with ha | ha
        · have hisReq := has a ha
          cases a with
          | req i => rfl
          | _ => cases hisReq
        · obtain rfl := List.mem_singleton.1 ha
          simp [Served.Act.serves]
      have hpl : run Pipeline.step t.served.pl
          ((as ++ [Broadcaster.Act.sendReq c]).map .bcast) = some _ :=
        run_embed (fun bc => { t.served.pl with bc }) Pipeline.Act.bcast (P := fun _ => True)
          (fun p a p' _ hs => by simp [Pipeline.step, hs]) (by simp)
          (run_snoc_iff.2 ⟨bc, hrun, hstep⟩)
      have hacts : ∀ a ∈ (as ++ [Broadcaster.Act.sendReq c]).map Pipeline.Act.bcast,
          (Served.Act.pipe a).serves c = true := List.forall_mem_map.2 hserves
      refine ⟨_, _, List.forall_mem_map.2 hacts, Served.run_pipe hacts hpl, answerable_queued ?_⟩
      exact Function.update_self ..

end Tracked

/-! ## Calls that hang -/

/-- Only the completion of `child.kill()`, or its own caller, lets a call that hangs go on. -/
theorem Pipeline.Hung.step {p p' : Pipeline} {jobId : JobId} {user : User} {pid : Pid}
    {now : DateTime} {c : Nat} (h : p.Hung c)
    (hr : Reachable Pipeline.step (start (Job.started jobId user pid now)) p) {a : Act}
    (hs : p.step a = some p') (hkill : ∀ res now, a ≠ .killRes res now)
    (hdrop : a ≠ .kill c .drop) : p'.Hung c := by
  obtain ⟨u, req, ahead, hc, hpc, hq⟩ := h
  have hnsel : p.trk.pc ≠ .select := by simp [hpc]
  cases a with
  | output k a =>
    obtain ⟨o, -, rfl⟩ := step_output hs
    exact ⟨u, req, ahead, hc, hpc, hq⟩
  | recvOutput k =>
    obtain ⟨ev, o, trk, -, ht, rfl⟩ := step_recvOutput hs
    exact (hnsel (Tracker.step_output ht).1).elim
  | send =>
    obtain ⟨ev, ok, ch, trk, hev, -, -, rfl⟩ := step_send hs
    simp [Tracker.outgoing, hpc] at hev
  | recvKill =>
    obtain ⟨req, ch, trk, -, ht, rfl⟩ := step_recvKill hs
    exact (hnsel (Tracker.step_killReq ht).1).elim
  | killRes res now => exact (hkill res now rfl).elim
  | exit status now =>
    obtain ⟨trk, ht, rfl⟩ := step_exit hs
    exact (hnsel (Tracker.step_exit ht).1).elim
  | setRes =>
    obtain ⟨trk, ht, rfl⟩ := step_setRes hs
    rw [(Tracker.step_setRes ht).1] at hpc
    cases hpc
  | kill c' a =>
    have other : ∀ {call : KillCall}, c ≠ c' →
        Hung { p with kills := Function.update p.kills c' call } c := fun hne =>
      ⟨u, req, ahead, (Function.update_of_ne hne ..).trans hc, hpc, hq⟩
    -- no call sends while the channel is full
    have hfull : ¬p.killCh.Ready := by
      rintro (hclosed | hroom)
      · rw [(killCh_open hr).2 (by simp [hpc])] at hclosed
        cases hclosed
      · rw [hq, (Listens.reachable hr).cap] at hroom
        simp at hroom
    cases a with
    | send =>
      simp only [Pipeline.step, stepKill] at hs
      split at hs
      · next user' hc' =>
        have hnone : p.killCh.send { user := user', tx := c' } = none := by
          rw [← Option.not_isSome_iff_eq_none, Chan.send_isSome]
          exact hfull
        simp [hnone] at hs
      · cases hs
    | call user =>
      cases killStep_of hs with
      | call hc' => exact other fun he => by rw [he, hc'] at hc; cases hc
    | recv =>
      cases killStep_of hs with
      | recv hc' => exact other fun he => by rw [he, hc'] at hc; cases hc
    | timeout =>
      cases killStep_of hs with
      | timeout hc' => exact other fun he => by rw [he, hc'] at hc; cases hc
    | drop =>
      cases killStep_of hs with
      | drop => exact other fun he => hdrop (by rw [he])
  | bcast a =>
    obtain ⟨bc, -, rfl⟩ := step_bcast hs
    exact ⟨u, req, ahead, hc, hpc, hq⟩

theorem Served.hung_step {s s' : Served} {jobId : JobId} {user : User} {pid : Pid}
    {now : DateTime} {c : Nat} (h : s.pl.Hung c)
    (hr : Reachable Pipeline.step (Pipeline.start (Job.started jobId user pid now)) s.pl) {b : Act}
    (hs : s.step b = some s') (hkill : ∀ res now, b ≠ .pipe (.killRes res now))
    (hb : b.callOf ≠ some c) : s'.pl.Hung c := by
  have same : ∀ {i : SubId} {r : Relay}, (s.setRelay i r).pl.Hung c := h
  cases b with
  | pipe a =>
    obtain ⟨-, pl, hpl, rfl⟩ := step_pipe hs
    refine h.step hr hpl (fun res now ha => hkill res now (by rw [ha])) fun ha => hb ?_
    rw [ha]
    rfl
  | openLogs i =>
    obtain ⟨r, -, -, -, rfl⟩ := step_openLogs hs
    exact h
  | abandon i =>
    obtain ⟨r, -, -, -, rfl⟩ := step_abandon hs
    exact same
  | fwd i a =>
    obtain ⟨r, f, hr, -, hs⟩ := step_fwd hs
    obtain ⟨r', f', rfl⟩ := stepFwd_sets hr hs
    exact same

/-- The job of a pending call. -/
def CallPc.job : CallPc → Option JobId
  | .spawning job => some job.id
  | .waiting _ j => some j
  | _ => none

namespace Coord

variable {s s' : Coord} {c : Nat} {user : User} {j : JobId}

/-- The steps of call `c`, but for its cancellation, and those of the tasks of job `j` it may wait
for. -/
def Act.serves (c : Nat) (j : JobId) : Act → Bool
  | .insert c' => c' = c
  | .reply c' => c' = c
  | .timeout c' => c' = c
  | .task j' b => j' = j && b.serves c
  | _ => false

theorem internal_of_serves {t : Tracked} {b : Served.Act} (h : b.serves c = true) :
    t.internal b = true := by
  fun_cases Tracked.internal t b with
  | case8 => rfl
  | _ => cases h

/-- The tasks of a job go on as the job's own steps allow. -/
theorem run_task {t : Tracked} (ht : s.tracked j = some t) {bs : List Served.Act} {served : Served}
    (hbs : ∀ b ∈ bs, Served.Act.serves c b = true)
    (hr : run Served.step t.served bs = some served) :
    run step s (bs.map (.task j)) = some (s.setTracked j { t with served }) := by
  have hs : s.setTracked j t = s := by
    rw [setTracked, ← ht, Function.update_eq_self]
  have hrun : run step (s.setTracked j t) (bs.map (.task j)) =
      some (s.setTracked j { t with served }) := by
    refine run_embed (fun served => s.setTracked j { t with served }) (Act.task j)
      (fun served b served' hb hstep => ?_) hbs hr
    have hint := internal_of_serves (t := { t with served }) hb
    simp [step, setTracked, Tracked.serve, hstep, hint]
  rwa [hs] at hrun

/-- A call that hangs takes no step, and no other step but the return of `child.kill()` helps. -/
theorem Step.hung (hi : Inv s) {a : Act} (h : Step s a s') {t : Tracked}
    (hc : s.calls c = some { user, pc := .waiting .kill j }) (ht : s.tracked j = some t)
    (hh : t.served.pl.Hung c) (hcancel : a ≠ .cancel c)
    (hkill : ∀ res now, a ≠ .task j (.pipe (.killRes res now))) :
    s'.calls c = s.calls c ∧ ∃ t', s'.tracked j = some t' ∧ t'.served.pl.Hung c := by
  obtain ⟨u, _, _, hsending, -⟩ := id hh
  have hother : a.callNo ≠ some c := by
    intro ha
    have fresh : ∀ {c'}, some c' = some c → s.calls c' ≠ none := by
      intro c' he hnone
      rw [Option.some.inj he, hc] at hnone
      cases hnone
    cases h with
    | rejectSpawn hn | spawnFails hn | spawn hn | rejectCall hn | refuse hn | enter hn =>
      exact (fresh ha hn).elim
    | insert hc' =>
      obtain rfl := Option.some.inj ha
      rw [hc] at hc'
      cases hc'
    | release | cancel =>
      obtain rfl := Option.some.inj ha
      exact hcancel rfl
    | reply hc' ht' he =>
      obtain rfl := Option.some.inj ha
      cases hc.symm.trans hc'
      obtain rfl := Option.some.inj (ht.symm.trans ht')
      simp [Tracked.reply, hsending] at he
    | timeout hc' _ he =>
      obtain rfl := Option.some.inj ha
      cases hc.symm.trans hc'
      cases he
    | task => cases ha
  have hcall : s'.calls c = s.calls c := by
    rcases h.keeps hc with hsame | ⟨-, ha, -⟩
    · rw [hsame, hc]
    · rcases ha with rfl | rfl | rfl | rfl <;> exact (hother rfl).elim
  refine ⟨hcall, ?_⟩
  obtain ⟨_, _, _, -, hpl⟩ := (hi.jobs j t ht).inv
  obtain ⟨t', ht', -⟩ := h.stays ht
  refine ⟨t', ht', ?_⟩
  rcases h.moves ht' with ⟨t₁, ht₁, hm⟩ | ⟨hnone, -⟩
  · obtain rfl := Option.some.inj (ht₁.symm.trans ht)
    cases hm with
    | stay he => rwa [he]
    | @task b ha hint hb =>
      refine Served.hung_step hh hpl hb (fun res now he => hkill res now (by rw [ha, he])) ?_
      rw [Tracked.callOf_internal hint]
      simp
    | call ha hstep =>
      rcases hstep with he | ⟨b, hcall, -, -, hb⟩
      · rwa [he]
      · refine Served.hung_step hh hpl hb (fun res now he => ?_) ?_
        · rw [he] at hcall
          cases hcall
        · rwa [hcall, ← ha]
    | stream ha _ hb =>
      refine Served.hung_step hh hpl hb (by simp) fun he => hother ?_
      rw [ha]
      exact he
  · rw [ht] at hnone
    cases hnone

/-- So it hangs until `child.kill()` has come back. -/
theorem hung_run {t : Tracked} {acts : List Act} (hi : Inv s)
    (hc : s.calls c = some { user, pc := .waiting .kill j }) (ht : s.tracked j = some t)
    (hh : t.served.pl.Hung c) (hrun : run step s acts = some s')
    (hacts : ∀ a ∈ acts, a ≠ .cancel c ∧ ∀ res now, a ≠ .task j (.pipe (.killRes res now))) :
    s'.calls c = s.calls c := by
  induction acts generalizing s t with
  | nil =>
    obtain rfl : s = s' := by simpa using hrun
    rfl
  | cons a acts ih =>
    obtain ⟨u, hu, hrest⟩ := run_cons_iff.1 hrun
    obtain ⟨ha, hacts⟩ := List.forall_mem_cons.1 hacts
    have hstep := step_of hu
    obtain ⟨hcall, t', ht', hh'⟩ := hstep.hung hi hc ht hh ha.1 ha.2
    exact (ih (hi.step hstep) (hcall.trans hc) ht' hh' hrest hacts).trans hcall

/-- The steps that serve a call leave the other calls where they are. -/
theorem serves_calls {a : Act} (ha : a.serves c j = true) (h : Step s a s') {c' : Nat}
    (hne : c' ≠ c) : s'.calls c' = s.calls c' := by
  cases h with
  | rejectSpawn | spawnFails | spawn | rejectCall | refuse | enter | release | cancel => cases ha
  | insert | reply | timeout =>
    obtain rfl : _ = c := by simpa [Act.serves] using ha
    rw [setCall_of_ne hne]
    rfl
  | task => rfl

theorem serves_calls_run {acts : List Act} (hr : run step s acts = some s')
    (hacts : ∀ a ∈ acts, Act.serves c j a = true) {c' : Nat} (hne : c' ≠ c) :
    s'.calls c' = s.calls c' := by
  induction acts generalizing s with
  | nil =>
    obtain rfl : s = s' := by simpa using hr
    rfl
  | cons a acts ih =>
    obtain ⟨u, hu, hrest⟩ := run_cons_iff.1 hr
    obtain ⟨ha, hacts⟩ := List.forall_mem_cons.1 hacts
    exact (ih hrest hacts).trans (serves_calls ha (step_of hu) hne)

/-- The tasks of its job bring a pending call to its end, unless it hangs. -/
theorem settles_or_hung (hr : Reachable step init s) {pc : CallPc}
    (hc : s.calls c = some { user, pc }) (hj : pc.job = some j) :
    (∃ acts s' call, run step s acts = some s' ∧ (∀ a ∈ acts, Act.serves c j a = true) ∧
      s'.calls c = some call ∧ call.pc.pending = false) ∨
    ∃ t, s.tracked j = some t ∧ t.served.pl.Hung c := by
  have hi := Inv.reachable hr
  cases pc with
  | rejected st => cases hj
  | done res => cases hj
  | cancelled => cases hj
  | spawning job =>
    obtain ⟨s', hs⟩ := insert_enabled hr hc
    obtain ⟨call, hcall, hend⟩ := (step_of hs).ends rfl hc
    exact .inl ⟨[.insert c], s', call, run_single.2 hs, by simp [Act.serves], hcall, hend⟩
  | waiting op j' =>
    obtain rfl := Option.some.inj hj
    obtain ⟨t, ht, hawaits⟩ := Awaited.reachable hr c user op j' hc
    by_cases hh : op = .kill ∧ t.served.pl.Hung c
    · exact .inr ⟨t, ht, hh.2⟩
    · left
      obtain ⟨bs, served, hbs, hrun, hans⟩ :=
        (hi.jobs j' t ht).settles hawaits fun he hh' => hh ⟨he, hh'⟩
      have hrun := run_task ht hbs hrun
      have hc' : (s.setTracked j' { t with served }).calls c =
          some { user, pc := .waiting op j' } := hc
      -- the last label is an answer, or the timeout of a `logs`
      obtain ⟨a, s', ha, hno, hs⟩ : ∃ a s', Act.serves c j' a = true ∧ a.callNo = some c ∧
          step (s.setTracked j' { t with served }) a = some s' := by
        rcases hans with he | he
        · obtain ⟨⟨t', pc⟩, he⟩ := Option.isSome_iff_exists.1 he
          exact ⟨.reply c, _, by simp [Act.serves], rfl,
            step_iff.2 (.reply hc' (setTracked_self ..) he)⟩
        · obtain ⟨⟨t', pc⟩, he⟩ := Option.isSome_iff_exists.1 he
          exact ⟨.timeout c, _, by simp [Act.serves], rfl,
            step_iff.2 (.timeout hc' (setTracked_self ..) he)⟩
      obtain ⟨call, hcall, hend⟩ := (step_of hs).ends hno hc'
      refine ⟨bs.map (.task j') ++ [a], s', call, run_snoc_iff.2 ⟨_, hrun, hs⟩, ?_, hcall, hend⟩
      intro b hb
      rcases List.mem_append.1 hb with hb | hb
      · obtain ⟨b, hmem, rfl⟩ := List.mem_map.1 hb
        simp [Act.serves, hbs b hmem]
      · obtain rfl := List.mem_singleton.1 hb
        exact ha

/-- When `child.kill()` comes back the call does not hang any more. -/
theorem hung_killRes {t : Tracked} (ht : s.tracked j = some t) (hh : t.served.pl.Hung c)
    (err : IoError) (now : DateTime) :
    ∃ s', step s (.task j (.pipe (.killRes (.error err) now))) = some s' ∧ s'.calls = s.calls ∧
      ∀ t', s'.tracked j = some t' → ¬t'.served.pl.Hung c := by
  obtain ⟨u, req, ahead, -, hpc, -⟩ := hh
  refine ⟨s.setTracked j { t with served := { t.served with
    pl := { t.served.pl with trk := t.served.pl.trk.onKillRes req now (.error err) } } },
    ?_, rfl, ?_⟩
  · simp [step, ht, Tracked.internal, Tracked.serve, Served.step, Served.ofClient, Pipeline.step,
      hpc, Tracker.step, Tracker.killReturns, Except.isOk, Except.toBool]
  · rintro t' ht' ⟨_, req', _, -, hpc', -⟩
    rw [setTracked_self] at ht'
    obtain rfl := Option.some.inj ht'
    rcases Tracker.loopTop_pc { t.served.pl.trk with
      answers := t.served.pl.trk.answers ++ [(req, .error err)] } with htop | ⟨htop, -⟩
    · rw [Tracker.onKillRes, htop] at hpc'
      cases hpc'
    · rw [Tracker.onKillRes, htop] at hpc'
      cases hpc'

/-- The calls of a list are brought to their ends one after the other, each by the steps that serve
it, and `child.kill()` comes back where the next of them hangs. -/
inductive InTurn (j : JobId) : Coord → List Nat → Coord → Prop
  | nil (s : Coord) : InTurn j s [] s
  | call {s s₁ s' : Coord} {c : Nat} {cs : List Nat} {acts : List Act} {call : Call}
      (hrun : run step s acts = some s₁) (hacts : ∀ a ∈ acts, Act.serves c j a = true)
      (hcall : s₁.calls c = some call) (hend : call.pc.pending = false) (h : InTurn j s₁ cs s') :
      InTurn j s (c :: cs) s'
  | killRes {s s₁ s' : Coord} {c : Nat} {cs : List Nat} {t : Tracked} {res : Except IoError Unit}
      {now : DateTime} (ht : s.tracked j = some t) (hh : t.served.pl.Hung c)
      (hs : step s (.task j (.pipe (.killRes res now))) = some s₁) (h : InTurn j s₁ (c :: cs) s') :
      InTurn j s (c :: cs) s'

/-- The turn of some calls is none of another call. -/
theorem InTurn.calls {cs : List Nat} (h : InTurn j s cs s') (hc : c ∉ cs) :
    s'.calls c = s.calls c := by
  induction h with
  | nil s => rfl
  | call hrun hacts _ _ _ ih =>
    obtain ⟨hne, hc⟩ := not_or.1 (List.mem_cons.not.1 hc)
    exact (ih hc).trans (serves_calls_run hrun hacts hne)
  | killRes _ _ hs _ ih =>
    refine (ih hc).trans ?_
    cases step_of hs with
    | task => rfl

theorem inTurn_reachable (hr : Reachable step init s) {cs : List Nat} (hnodup : cs.Nodup)
    (hcs : ∀ c ∈ cs, ∃ call, s.calls c = some call ∧ call.pc.job = some j) :
    ∃ s', InTurn j s cs s' ∧
      ∀ c ∈ cs, ∃ call, s'.calls c = some call ∧ call.pc.pending = false := by
  induction cs generalizing s with
  | nil => exact ⟨s, .nil s, by simp⟩
  | cons c cs ih =>
    obtain ⟨hno, hnodup⟩ := List.nodup_cons.1 hnodup
    obtain ⟨⟨⟨user, pc⟩, hc, hj⟩, hcs⟩ := List.forall_mem_cons.1 hcs
    -- with `c` served the others have their turn
    have serve : ∀ {u : Coord}, Reachable step init u → u.calls = s.calls →
        (∃ acts u' call, run step u acts = some u' ∧ (∀ a ∈ acts, Act.serves c j a = true) ∧
          u'.calls c = some call ∧ call.pc.pending = false) →
        ∃ s', InTurn j u (c :: cs) s' ∧
          ∀ c' ∈ c :: cs, ∃ call, s'.calls c' = some call ∧ call.pc.pending = false := by
      rintro u hu hcalls ⟨acts, u', call, hrun, hacts, hcall, hend⟩
      have hkept : ∀ c' ∈ cs, ∃ call, u'.calls c' = some call ∧ call.pc.job = some j := by
        intro c' hmem
        have hne : c' ≠ c := by
          rintro rfl
          exact hno hmem
        rw [serves_calls_run hrun hacts hne, hcalls]
        exact hcs c' hmem
      obtain ⟨s', hturn, hends⟩ := ih (hu.trans ⟨acts, hrun⟩) hnodup hkept
      refine ⟨s', .call hrun hacts hcall hend hturn,
        List.forall_mem_cons.2 ⟨⟨call, ?_, hend⟩, hends⟩⟩
      rw [hturn.calls hno, hcall]
    rcases settles_or_hung hr hc hj with hsettles | ⟨t, ht, hh⟩
    · exact serve hr rfl hsettles
    · -- `child.kill()` may fail in any state
      obtain ⟨u, hs, hcalls, hfree⟩ := hung_killRes ht hh "" ⟨0⟩
      have hu := hr.tail hs
      have hc' : u.calls c = some { user, pc } := by rw [hcalls, hc]
      rcases settles_or_hung hu hc' hj with hsettles | ⟨t', ht', hh'⟩
      · obtain ⟨s', hturn, hends⟩ := serve hu hcalls hsettles
        exact ⟨s', .killRes ht hh hs hturn, hends⟩
      · exact (hfree t' ht' hh').elim

/-- Whatever the order in which the channels of a job let its pending calls in: in this order the
tasks of the job bring them to their ends, each without the help of the child, of any client, of a
later call or of any other job (no call keeps a mutex over an await, so that waiting for one is no
part of the model). Only a kill that hangs behind two others needs `child.kill()` to come back as
well: it stays pending until then, whatever else happens, or until its caller gives up. -/
theorem answered_in_turn (hr : Reachable step init s) {cs : List Nat} (hnodup : cs.Nodup)
    (hcs : ∀ c ∈ cs, ∃ call, s.calls c = some call ∧ call.pc.job = some j) :
    (∃ s', InTurn j s cs s' ∧
      ∀ c ∈ cs, ∃ call, s'.calls c = some call ∧ call.pc.pending = false) ∧
    ∀ c user t, s.calls c = some { user, pc := .waiting .kill j } → s.tracked j = some t →
      t.served.pl.Hung c → ∀ acts s', run step s acts = some s' →
        (∀ a ∈ acts, a ≠ .cancel c ∧ ∀ res now, a ≠ .task j (.pipe (.killRes res now))) →
        s'.calls c = s.calls c :=
  ⟨inTurn_reachable hr hnodup hcs, fun _ _ _ hc ht hh _ _ hrun hacts =>
    hung_run (.reachable hr) hc ht hh hrun hacts⟩

/-- alice kills her job three times while the first `child.kill()` is still at work. -/
def killsRun : List Act :=
  spawnRun ++
    [.call 1 ⟨"alice"⟩ .kill ⟨"job"⟩, ofJob (.kill 1 .send), ofJob .recvKill,
      .call 2 ⟨"alice"⟩ .kill ⟨"job"⟩, ofJob (.kill 2 .send), .call 3 ⟨"alice"⟩ .kill ⟨"job"⟩]

theorem answered_in_turn_killsRun : ∃ s s', run step init killsRun = some s ∧
    InTurn ⟨"job"⟩ s [3, 1, 2] s' ∧
    (∀ c ∈ [3, 1, 2], ∃ call, s'.calls c = some call ∧ call.pc.pending = false) ∧
    ∀ acts s', run step s acts = some s' → (∀ a ∈ acts, a ≠ .cancel 3 ∧
      ∀ res now, a ≠ .task ⟨"job"⟩ (.pipe (.killRes res now))) → s'.calls 3 = s.calls 3 := by
  have hrun : ∃ s t, run step init killsRun = some s ∧
      (∀ c ∈ [3, 1, 2], s.calls c = some ⟨⟨"alice"⟩, .waiting .kill ⟨"job"⟩⟩) ∧
      s.tracked ⟨"job"⟩ = some t ∧ t.served.pl.Hung 3 := by
    refine ⟨_, _, rfl, ?_, rfl, _, _, _, rfl, rfl, rfl⟩
    simp only [List.forall_mem_cons, List.not_mem_nil, false_imp_iff, implies_true, and_true]
    exact ⟨rfl, rfl, rfl⟩
  obtain ⟨s, t, hs, hcs, ht, hh⟩ := hrun
  obtain ⟨⟨s', hturn, hends⟩, hhangs⟩ := answered_in_turn ⟨killsRun, hs⟩
    (by decide : [3, 1, 2].Nodup) fun c hc => ⟨_, hcs c hc, rfl⟩
  exact ⟨s, s', hs, hturn, hends, hhangs 3 _ t (hcs 3 (by simp)) ht hh⟩

end Coord

end JobRunner
