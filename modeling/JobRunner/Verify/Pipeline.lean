import JobRunner.Pipeline
import JobRunner.Verify.TrackerRecord
import JobRunner.Verify.Broadcast
import JobRunner.Verify.Output

/-!
# The parts of a tracked job together

A run of a `Pipeline` is a run of its tracker (`reachable_trk`) and, with the tracker as the
sender of its source, a run of its broadcaster (`reachable_bc`), so what is proved of the parts
holds in the whole. `Pipeline.Inv` adds what links them: who still holds which end of a channel,
and what the two reading tasks did when the tracker believes a stream to be over or broken.
-/

namespace JobRunner

open Mpsc

namespace Tracker

/-- The events of the kill and exit branches leave the streams alone and send nothing. -/
theorem step_internal {s s' : Tracker} {ev : Ev} (hs : s.step ev = some s')
    (hout : ∀ k res, ev ≠ .output k res) (hsent : ∀ ok, ev ≠ .sent ok) (hset : ev ≠ .setRes) :
    s.pc.inLoop = true ∧ s.outgoing = none ∧ (s'.pc = .sendLast ∨ s'.outgoing = none) ∧
    s'.pc ≠ .setRes ∧ s'.pc ≠ .returned ∧ s'.streamOk = s.streamOk ∧
    (s'.loopErr = s.loopErr ∨
      ∃ err, s'.loopErr = some (.waitChild err) ∧ s'.waited = s.waited ∧ s.childOk = true) := by
  have hnone : ∀ {t : Tracker}, t.pc = .select → t.outgoing = none := fun h => by
    simp only [outgoing, h]
  have hloop : ∀ t : Tracker, (t.loopTop.pc = .sendLast ∨ t.loopTop.outgoing = none) ∧
      t.loopTop.pc ≠ .setRes ∧ t.loopTop.pc ≠ .returned := by
    intro t
    rcases loopTop_pc t with hsel | ⟨hlast, -⟩
    · exact ⟨.inr (hnone hsel), by simp [hsel], by simp [hsel]⟩
    · exact ⟨.inl hlast, by simp [hlast], by simp [hlast]⟩
  cases ev with
  | output k res => exact (hout k res rfl).elim
  | sent ok => exact (hsent ok rfl).elim
  | setRes => exact (hset rfl).elim
  | killReq req =>
    obtain ⟨hpc, -, rfl⟩ := step_killReq hs
    refine ⟨by rw [hpc]; rfl, hnone hpc, ?_⟩
    cases req with
    | none =>
      obtain ⟨h1, h2, h3⟩ := hloop { s with killOk := false }
      exact ⟨h1, h2, h3, rfl, .inl rfl⟩
    | some req => exact ⟨.inr rfl, (by simp [onKillReq]), (by simp [onKillReq]), rfl, .inl rfl⟩
  | killRes req res now =>
    obtain ⟨hpc, -, rfl⟩ := step_killRes hs
    refine ⟨by rw [hpc]; rfl, by simp only [outgoing, hpc], ?_⟩
    cases res with
    | error err =>
      obtain ⟨h1, h2, h3⟩ := hloop { s with answers := s.answers ++ [(req, .error err)] }
      exact ⟨h1, h2, h3, rfl, .inl rfl⟩
    | ok u =>
      obtain ⟨h1, h2, h3⟩ := hloop { s with
        job := { s.job with killed := some { killedAt := now, user := req.user } }
        killReqs := s.killReqs ++ [req] }
      exact ⟨h1, h2, h3, rfl, .inl rfl⟩
  | exit status now =>
    obtain ⟨hpc, hchild, rfl⟩ := step_exit hs
    refine ⟨by rw [hpc]; rfl, hnone hpc, ?_⟩
    cases status with
    | error err =>
      exact ⟨.inl rfl, (by simp [onExit, breakErr]), (by simp [onExit, breakErr]), rfl,
        .inr ⟨err, rfl, rfl, hchild⟩⟩
    | ok status =>
      obtain ⟨h1, h2, h3⟩ := hloop { s with
        childOk := false
        job := { s.job with endedAt := some now, state := .exited (.ofProc status) }
        waited := true, killReqs := []
        answers := s.answers ++ s.killReqs.map fun req =>
          (req, .ok { s.job with endedAt := some now, state := .exited (.ofProc status) }) }
      exact ⟨h1, h2, h3, rfl, .inl rfl⟩

end Tracker

namespace Pipeline

/-- The labels of one output stream in a run. -/
def outActs (k : StreamKind) (acts : List Act) : List Output.Act :=
  acts.filterMap fun a =>
    match a with
    | .output k' a => if k' = k then some a else none
    | _ => none

@[simp] theorem outActs_nil (k : StreamKind) : outActs k [] = [] := rfl

theorem outActs_output (k : StreamKind) (acts : List Act) (a : Output.Act) :
    outActs k (acts ++ [.output k a]) = outActs k acts ++ [a] := by
  simp [outActs]

theorem outActs_snoc {k : StreamKind} {a : Act} (acts : List Act)
    (h : ∀ b, a ≠ .output k b) : outActs k (acts ++ [a]) = outActs k acts := by
  simp only [outActs, List.filterMap_append, List.filterMap_cons, List.filterMap_nil]
  cases a with
  | output k' b =>
    have hk : k' ≠ k := fun e => h b (by rw [e])
    simp [hk]
  | _ => simp

theorem mem_outActs {k : StreamKind} {acts : List Act} {a : Output.Act} :
    a ∈ outActs k acts ↔ .output k a ∈ acts := by
  simp only [outActs, List.mem_filterMap]
  constructor
  · rintro ⟨b, hb, hab⟩
    cases b with
    | output k' a' =>
      by_cases hk : k' = k
      · subst hk
        obtain rfl : a' = a := by simpa using hab
        exact hb
      · simp [hk] at hab
    | _ => simp at hab
  · intro h
    exact ⟨_, h, by simp⟩

/-! ## Links between the parts -/

/-- What links the parts of the job `j₀` after the labels `acts`. -/
structure Inv (j₀ : Job) (acts : List Act) (p : Pipeline) : Prop where
  record : p.trk.RecordInv j₀
  bc : p.bc.Inv
  src : p.bc.frameCh.senders = if p.trk.pc = .returned then 0 else 1
  out : ∀ k, (p.output k).Inv k
  hist : ∀ k, (p.output k).Hist (outActs k acts)
  rx : ∀ k, (p.output k).ch.rxOpen = true ↔ p.trk.pc ≠ .returned
  ended : ∀ k, p.trk.streamOk k = false → .readEof ∈ outActs k acts
  done : ∀ k, p.trk.pc ≠ .returned → (p.output k).pc = .done → .readEof ∈ outActs k acts ∨
    (∃ e, .error e ∈ (p.output k).ch.queue) ∨ p.trk.loopErr ≠ none
  loopErr : p.trk.loopErr ≠ none →
    (∃ k err, .readErr err ∈ outActs k acts) ∨ p.trk.waited = false

namespace Inv

variable {j₀ : Job} {acts : List Act} {p p' : Pipeline}

theorem start (hend : j₀.endedAt = none) : Inv j₀ [] (Pipeline.start j₀) where
  record := .start hend
  bc := .start
  src := rfl
  out k := .start k
  hist k := .start k
  rx k := by simp [Pipeline.start, Output.start, Tracker.start]
  ended k hk := by cases hk
  done k _ hd := by cases hd
  loopErr he := (he rfl).elim

/-- The broadcaster listens for as long as the tracker can send. -/
theorem frameCh_open (h : Inv j₀ acts p) (hpc : p.trk.pc ≠ .returned) :
    p.bc.frameRxOk = true ∧ p.bc.frameCh.rxOpen = true := by
  have hsrc := h.src
  rw [if_neg hpc] at hsrc
  have hok : p.bc.frameRxOk = true := by
    cases hf : p.bc.frameRxOk with
    | true => rfl
    | false =>
      rw [(h.bc.drained hf).2.1] at hsrc
      cases hsrc
  exact ⟨hok, h.bc.srcOpen hok⟩

/-- Labels that are no step of an output stream keep its history. -/
theorem outActs_eq (acts : List Act) {a : Act} (ha : ∀ k b, a ≠ .output k b) (k : StreamKind) :
    outActs k (acts ++ [a]) = outActs k acts :=
  outActs_snoc acts (ha k)

theorem output (h : Inv j₀ acts p) {k : StreamKind} {a : Output.Act}
    (hs : p.step (.output k a) = some p') : Inv j₀ (acts ++ [.output k a]) p' := by
  obtain ⟨o, ho, rfl⟩ := step_output hs
  have hmono : ∀ k' b, b ∈ outActs k' acts → b ∈ outActs k' (acts ++ [.output k a]) := by
    intro k' b hb
    rw [mem_outActs] at hb ⊢
    exact List.mem_append_left _ hb
  refine
    { record := h.record, bc := h.bc, src := h.src, out := ?_, hist := ?_, rx := ?_
      ended := fun k' hk => hmono _ _ (h.ended k' hk), done := ?_
      loopErr := fun he => (h.loopErr he).imp_left fun ⟨k', err, hr⟩ => ⟨k', err, hmono _ _ hr⟩ }
  · apply (Function.forall_update_iff p.output fun k' o => o.Inv k').2
    exact ⟨(h.out k).step ho, fun k' _ => h.out k'⟩
  · apply (Function.forall_update_iff p.output fun k' o =>
      o.Hist (outActs k' (acts ++ [Act.output k a]))).2
    constructor
    · rw [outActs_output]
      exact (h.hist k).step ho
    · intro k' hk
      rw [outActs_snoc acts (by simp [Ne.symm hk])]
      exact h.hist k'
  · apply (Function.forall_update_iff p.output fun _ o =>
      o.ch.rxOpen = true ↔ p.trk.pc ≠ .returned).2
    refine ⟨?_, fun k' _ => h.rx k'⟩
    rw [Output.step_rxOpen ho]
    exact h.rx k
  · intro k' hpc hd
    by_cases hk : k' = k
    · subst hk
      have hd' : o.pc = .done := by simpa using hd
      have hrx : (p.output k').ch.rxOpen = true := (h.rx k').2 hpc
      rw [outActs_output]
      simp only [Function.update_self]
      rcases Output.done_of_step ho hd' hrx with hold | rfl | hq
      · rcases h.done k' hpc hold.1 with he | ⟨e, he⟩ | he
        · exact .inl (List.mem_append_left _ he)
        · exact .inr (.inl ⟨e, by rw [hold.2]; exact he⟩)
        · exact .inr (.inr he)
      · exact .inl (List.mem_append_right _ (List.mem_singleton_self _))
      · exact .inr (.inl hq)
    · rw [outActs_snoc acts (by simp [Ne.symm hk])]
      simp only [Function.update_of_ne hk] at hd ⊢
      exact h.done k' hpc hd

/-- A step that moves the tracker along one of its branches without a channel. -/
theorem internal (h : Inv j₀ acts p) {a : Act} (ha : ∀ k b, a ≠ .output k b) {trk : Tracker}
    {ev : Tracker.Ev} (ht : p.trk.step ev = some trk) (hout : ∀ k res, ev ≠ .output k res)
    (hsent : ∀ ok, ev ≠ .sent ok) (hset : ev ≠ .setRes) (ch : Chan KillRequest) :
    Inv j₀ (acts ++ [a]) { p with trk, killCh := ch } := by
  have hrec : trk.RecordInv j₀ := h.record.step ht
  obtain ⟨hin, -, -, -, hret, hok, herr⟩ := Tracker.step_internal ht hout hsent hset
  have hnret : p.trk.pc ≠ .returned := by
    intro hpc
    rw [hpc] at hin
    cases hin
  have hnone : p.trk.loopErr = none := h.record.inLoop hin
  have hsrc := h.src
  rw [if_neg hnret] at hsrc
  refine
    { record := hrec, bc := h.bc, src := by rw [if_neg hret]; exact hsrc, out := h.out
      hist := fun k => by rw [outActs_eq acts ha]; exact h.hist k
      rx := fun k => ⟨fun _ => hret, fun _ => (h.rx k).2 hnret⟩
      ended := fun k hk => by rw [outActs_eq acts ha]; exact h.ended k (by rwa [hok] at hk)
      done := fun k _ hd => ?_, loopErr := fun he => ?_ }
  · rw [outActs_eq acts ha]
    rcases h.done k hnret hd with hd | hd | hd
    · exact .inl hd
    · exact .inr (.inl hd)
    · exact (hd hnone).elim
  · rcases herr with herr | ⟨err, -, hw, hchild⟩
    · exact (he (herr.trans hnone)).elim
    · exact .inr (hw.trans (h.record.not_waited hchild))

theorem recvOutput (h : Inv j₀ acts p) {k : StreamKind} (hs : p.step (.recvOutput k) = some p') :
    Inv j₀ (acts ++ [.recvOutput k]) p' := by
  obtain ⟨ev, o, trk, ho, ht, rfl⟩ := step_recvOutput hs
  have hrec : trk.RecordInv j₀ := h.record.step ht
  have heq := outActs_eq acts (a := .recvOutput k) (by simp)
  obtain ⟨hpc, hok, rfl⟩ := Tracker.step_output ht
  have hnret : p.trk.pc ≠ .returned := by simp [hpc]
  have hnone : p.trk.loopErr = none := h.record.inLoop (by rw [hpc]; rfl)
  have hsrc := h.src
  rw [if_neg hnret] at hsrc
  have hret : (p.trk.onOutput k ev).pc ≠ .returned := by
    match ev with
    | none =>
      rcases Tracker.loopTop_pc { p.trk with streamOk := Function.update p.trk.streamOk k false }
        with hsel | ⟨hlast, -⟩
      · exact fun e => by simp [Tracker.onOutput, hsel] at e
      · exact fun e => by simp [Tracker.onOutput, hlast] at e
    | some (.ok frame) => simp [Tracker.onOutput]
    | some (.error e) => simp [Tracker.onOutput, Tracker.breakErr]
  have hout : ∀ k', (Function.update p.output k o k').Inv k' :=
    (Function.forall_update_iff p.output fun k' o => o.Inv k').2
      ⟨(h.out k).recv ho, fun k' _ => h.out k'⟩
  have hhist : ∀ k', (Function.update p.output k o k').Hist
      (outActs k' (acts ++ [.recvOutput k])) := by
    simp only [heq]
    exact (Function.forall_update_iff p.output fun k' o => o.Hist (outActs k' acts)).2
      ⟨(h.hist k).recv ho, fun k' _ => h.hist k'⟩
  have hpipe : ∀ k', (Function.update p.output k o k').ch.rxOpen = (p.output k').ch.rxOpen ∧
      (Function.update p.output k o k').pc = (p.output k').pc := by
    apply (Function.forall_update_iff p.output fun k' o =>
      o.ch.rxOpen = (p.output k').ch.rxOpen ∧ o.pc = (p.output k').pc).2
    refine ⟨?_, fun _ _ => ⟨rfl, rfl⟩⟩
    rcases Output.recv_cases ho with ⟨res, q, -, -, rfl⟩ | ⟨-, -, -, rfl⟩ <;> exact ⟨rfl, rfl⟩
  have hrx : ∀ k', (Function.update p.output k o k').ch.rxOpen = true ↔
      (p.trk.onOutput k ev).pc ≠ .returned := fun k' => by
    rw [(hpipe k').1]
    exact ⟨fun _ => hret, fun _ => (h.rx k').2 hnret⟩
  have hdone : ∀ k', (p.output k').pc = .done →
      .readEof ∈ outActs k' acts ∨ ∃ e, .error e ∈ (p.output k').ch.queue := by
    intro k' hd
    rcases h.done k' hnret hd with hd | hd | hd
    · exact .inl hd
    · exact .inr hd
    · exact (hd hnone).elim
  have hsrc' : p.bc.frameCh.senders =
      if (p.trk.onOutput k ev).pc = .returned then 0 else 1 := by
    rw [if_neg hret]
    exact hsrc
  rcases Output.recv_cases ho with ⟨res, q, hq, rfl, rfl⟩ | ⟨hq, hz, rfl, rfl⟩
  · cases res with
    | ok frame =>
      refine { record := hrec, bc := h.bc, src := hsrc', out := hout, hist := hhist, rx := hrx
               ended := fun k' hk => by rw [heq]; exact h.ended k' hk
               done := fun k' _ hd => ?_, loopErr := fun he => (he hnone).elim }
      rw [heq]
      rcases hdone k' ((hpipe k').2 ▸ hd) with hd | ⟨e, he⟩
      · exact .inl hd
      · refine .inr (.inl ⟨e, ?_⟩)
        by_cases hk : k' = k
        · subst hk
          rw [hq] at he
          simpa using he
        · simpa [hk] using he
    | error e =>
      obtain ⟨err, herr⟩ := (h.hist k).error e (by rw [hq]; exact List.mem_cons_self)
      exact { record := hrec, bc := h.bc, src := hsrc', out := hout, hist := hhist, rx := hrx
              ended := fun k' hk => by rw [heq]; exact h.ended k' hk
              done := fun k' _ _ => .inr (.inr (by simp [Tracker.onOutput, Tracker.breakErr]))
              loopErr := fun _ => .inl ⟨k, err, by rw [heq]; exact herr⟩ }
  · -- the reading task is gone and has left no error behind
    have hd : (p.output k).pc = .done := by
      have hs := (h.out k).senders
      rw [hz] at hs
      by_contra hne
      rw [if_neg hne] at hs
      cases hs
    have heof : .readEof ∈ outActs k acts := by
      rcases hdone k hd with he | ⟨e, he⟩
      · exact he
      · rw [hq] at he
        cases he
    refine { record := hrec, bc := h.bc, src := hsrc', out := hout, hist := hhist, rx := hrx
             ended := fun k' hk => ?_, done := fun k' _ hd => ?_
             loopErr := fun he => (he hnone).elim }
    · rw [heq]
      by_cases hkk : k' = k
      · subst hkk
        exact heof
      · refine h.ended k' ?_
        simpa [Tracker.onOutput, Tracker.loopTop, hkk] using hk
    · rw [heq]
      rw [Function.update_eq_self] at hd ⊢
      rcases hdone k' hd with he | he
      · exact .inl he
      · exact .inr (.inl he)

/-- A send to the broadcaster never fails. -/
theorem send_cases (h : Inv j₀ acts p) (hs : p.step .send = some p') :
    ∃ ev trk, p.trk.outgoing = some ev ∧ p.trk.step (.sent true) = some trk ∧
      p.bc.frameCh.rxOpen = true ∧ p.bc.frameCh.queue.length < 2 ∧ p.trk.pc ≠ .returned ∧
      p' = { p with trk, bc := { p.bc with frameCh := p.bc.frameCh.push ev } } := by
  obtain ⟨ev, ok, ch, trk, hev, hch, ht, rfl⟩ := step_send hs
  have hnret : p.trk.pc ≠ .returned := by
    intro hpc
    simp [Tracker.outgoing, hpc] at hev
  obtain ⟨-, hopen⟩ := h.frameCh_open hnret
  rcases Chan.send_eq_some_iff.1 hch with ⟨rfl, -, hl, rfl⟩ | ⟨-, hc, -⟩
  · rw [h.bc.srcCap] at hl
    exact ⟨ev, trk, hev, ht, hopen, hl, hnret, rfl⟩
  · rw [hopen] at hc
    cases hc

theorem send (h : Inv j₀ acts p) (hs : p.step .send = some p') : Inv j₀ (acts ++ [.send]) p' := by
  obtain ⟨ev, trk, hev, ht, hopen, hl, hnret, rfl⟩ := h.send_cases hs
  have hrec : trk.RecordInv j₀ := h.record.step ht
  have heq := outActs_eq acts (a := .send) (by simp)
  have hz : p.bc.frameCh.senders = 1 := by
    have hsrc := h.src
    rwa [if_neg hnret] at hsrc
  have hfacts : trk.pc ≠ .returned ∧ trk.streamOk = p.trk.streamOk ∧
      trk.loopErr = p.trk.loopErr ∧ trk.waited = p.trk.waited := by
    rcases Tracker.step_sent ht with ⟨f, -, -, rfl⟩ | ⟨f, -, hf, -⟩ | ⟨-, rfl⟩
    · rcases Tracker.loopTop_pc p.trk with hsel | ⟨hlast, -⟩
      · exact ⟨by simp [hsel], rfl, rfl, rfl⟩
      · exact ⟨by simp [hlast], rfl, rfl, rfl⟩
    · cases hf
    · exact ⟨by simp, rfl, rfl, rfl⟩
  obtain ⟨hret, hok, herr, hw⟩ := hfacts
  have hbc : ({ p.bc with frameCh := p.bc.frameCh.push ev } : Broadcaster).Inv := by
    refine { h.bc with drained := fun hf => ?_, srcLen := ?_ }
    · have hd := (h.bc.drained hf).2.1
      rw [hz] at hd
      cases hd
    · rw [Chan.push_queue, List.length_append, List.length_singleton]
      omega
  exact
    { record := hrec, bc := hbc
      src := by rw [if_neg hret]; exact hz
      out := h.out
      hist := fun k => by rw [heq]; exact h.hist k
      rx := fun k => ⟨fun _ => hret, fun _ => (h.rx k).2 hnret⟩
      ended := fun k hk => by rw [heq]; exact h.ended k (by rwa [hok] at hk)
      done := fun k _ hd => by rw [heq, herr]; exact h.done k hnret hd
      loopErr := fun he => by
        simp only [heq, hw]
        exact h.loopErr (by rwa [herr] at he) }

theorem setRes (h : Inv j₀ acts p) (hs : p.step .setRes = some p') :
    Inv j₀ (acts ++ [.setRes]) p' := by
  obtain ⟨trk, ht, rfl⟩ := step_setRes hs
  have hrec : trk.RecordInv j₀ := h.record.step ht
  have heq := outActs_eq acts (a := .setRes) (by simp)
  obtain ⟨hpc, rfl⟩ := Tracker.step_setRes ht
  have hz : p.bc.frameCh.senders = 1 := by
    have hsrc := h.src
    rwa [hpc, if_neg (by simp)] at hsrc
  have hbc : ({ p.bc with frameCh := p.bc.frameCh.dropTx } : Broadcaster).Inv := by
    refine { h.bc with drained := fun hf => ?_ }
    have hd := (h.bc.drained hf).2.1
    rw [hz] at hd
    cases hd
  exact
    { record := hrec, bc := hbc
      src := by simp [release, hz]
      out := fun k => (h.out k).dropRx
      hist := fun k => by rw [heq]; exact (h.hist k).dropRx
      rx := fun k => by simp [release, Output.dropRx]
      ended := fun k hk => by rw [heq]; exact h.ended k hk
      done := fun k hc => (hc rfl).elim
      loopErr := fun he => by
        simp only [heq]
        exact h.loopErr he }

/-- A step that moves neither the tracker nor an output stream. -/
theorem elsewhere (h : Inv j₀ acts p) {a : Act} (ha : ∀ k b, a ≠ .output k b) {bc : Broadcaster}
    (hbc : bc.Inv) (hz : bc.frameCh.senders = p.bc.frameCh.senders) (ch : Chan KillRequest)
    (kills : Nat → KillCall) :
    Inv j₀ (acts ++ [a]) { p with bc, killCh := ch, kills } :=
  { record := h.record, bc := hbc, src := hz.trans h.src, out := h.out
    hist := fun k => by rw [outActs_eq acts ha]; exact h.hist k
    rx := h.rx
    ended := fun k hk => by rw [outActs_eq acts ha]; exact h.ended k hk
    done := fun k => by rw [outActs_eq acts ha]; exact h.done k
    loopErr := fun he => by
      simp only [outActs_eq acts ha]
      exact h.loopErr he }

theorem step (h : Inv j₀ acts p) {a : Act} (hs : p.step a = some p') : Inv j₀ (acts ++ [a]) p' := by
  cases a with
  | output k a => exact h.output hs
  | recvOutput k => exact h.recvOutput hs
  | send => exact h.send hs
  | recvKill =>
    obtain ⟨req, ch, trk, -, ht, rfl⟩ := step_recvKill hs
    exact h.internal (by simp) ht (by simp) (by simp) (by simp) ch
  | killRes res now =>
    obtain ⟨req, trk, -, ht, rfl⟩ := step_killRes hs
    exact h.internal (by simp) ht (by simp) (by simp) (by simp) p.killCh
  | exit status now =>
    obtain ⟨trk, ht, rfl⟩ := step_exit hs
    exact h.internal (by simp) ht (by simp) (by simp) (by simp) p.killCh
  | setRes => exact h.setRes hs
  | kill c a =>
    obtain ⟨call, ch, rfl, -⟩ := step_kill hs
    exact h.elsewhere (by simp) h.bc rfl ch _
  | bcast a =>
    obtain ⟨bc, hb, rfl⟩ := step_bcast hs
    exact h.elsewhere (by simp) (h.bc.step hb) (Broadcaster.source_of_act h.bc hb).2.1 p.killCh
      p.kills

theorem run (hend : j₀.endedAt = none)
    (hr : Lts.run Pipeline.step (Pipeline.start j₀) acts = some p) : Inv j₀ acts p :=
  Lts.run_induct (motive := fun acts p => Inv j₀ acts p) (Inv.start hend)
    (fun _ _ _ _ _ h hs => h.step hs) hr

end Inv

/-! ## The parts as systems of their own -/

section Parts

variable {j₀ : Job} {acts : List Act} {p p' : Pipeline}

/-- The tracker follows a label by the one event it is for it, if any. -/
theorem events_of_step {a : Act} (hs : p.step a = some p') :
    ∃ evs, Lts.run Tracker.step p.trk evs = some p'.trk ∧
      ∀ status now, Tracker.Ev.exit (.ok status) now ∈ evs ↔ a = .exit (.ok status) now := by
  have single : ∀ {trk : Tracker} {ev : Tracker.Ev}, p.trk.step ev = some trk →
      Lts.run Tracker.step p.trk [ev] = some trk := fun ht => Lts.run_cons_iff.2 ⟨_, ht, rfl⟩
  cases a with
  | output k a =>
    obtain ⟨o, -, rfl⟩ := step_output hs
    exact ⟨[], rfl, by simp⟩
  | recvOutput k =>
    obtain ⟨ev, o, trk, -, ht, rfl⟩ := step_recvOutput hs
    exact ⟨_, single ht, by simp⟩
  | send =>
    obtain ⟨ev, ok, ch, trk, -, -, ht, rfl⟩ := step_send hs
    exact ⟨_, single ht, by simp⟩
  | recvKill =>
    obtain ⟨req, ch, trk, -, ht, rfl⟩ := step_recvKill hs
    exact ⟨_, single ht, by simp⟩
  | killRes res now =>
    obtain ⟨req, trk, -, ht, rfl⟩ := step_killRes hs
    exact ⟨_, single ht, by simp⟩
  | exit status now =>
    obtain ⟨trk, ht, rfl⟩ := step_exit hs
    exact ⟨_, single ht, by simp [eq_comm]⟩
  | setRes =>
    obtain ⟨trk, ht, rfl⟩ := step_setRes hs
    exact ⟨_, single ht, by simp⟩
  | kill c a =>
    obtain ⟨call, ch, rfl, -⟩ := step_kill hs
    exact ⟨[], rfl, by simp⟩
  | bcast a =>
    obtain ⟨bc, -, rfl⟩ := step_bcast hs
    exact ⟨[], rfl, by simp⟩

theorem reachable_trk (hr : Lts.Reachable Pipeline.step p p') :
    Lts.Reachable Tracker.step p.trk p'.trk := by
  refine hr.project (I := fun _ => True) Pipeline.trk (fun _ _ _ _ _ => trivial) ?_ trivial
  intro s a s' _ hs
  obtain ⟨evs, hevs, -⟩ := events_of_step hs
  exact ⟨evs, hevs⟩

theorem bc_of_step (h : Inv j₀ acts p) {a : Act} (hs : p.step a = some p') :
    p'.bc = p.bc ∨ ∃ b, p.bc.openStep b = some p'.bc := by
  cases a with
  | output k a =>
    obtain ⟨o, -, rfl⟩ := step_output hs
    exact .inl rfl
  | recvOutput k =>
    obtain ⟨ev, o, trk, -, -, rfl⟩ := step_recvOutput hs
    exact .inl rfl
  | send =>
    obtain ⟨ev, trk, -, -, hopen, hl, hnret, rfl⟩ := h.send_cases hs
    have hsrc := h.src
    rw [if_neg hnret] at hsrc
    refine .inr ⟨.offer ev, ?_⟩
    have hl' : p.bc.frameCh.queue.length < p.bc.frameCh.cap := by rw [h.bc.srcCap]; exact hl
    have hsend : p.bc.frameCh.send ev = some (true, p.bc.frameCh.push ev) :=
      Chan.send_eq_some_iff.2 (.inl ⟨rfl, hopen, hl', rfl⟩)
    simp only [Broadcaster.openStep, hsrc, hsend, Nat.one_ne_zero, if_false]
  | recvKill =>
    obtain ⟨req, ch, trk, -, -, rfl⟩ := step_recvKill hs
    exact .inl rfl
  | killRes res now =>
    obtain ⟨req, trk, -, -, rfl⟩ := step_killRes hs
    exact .inl rfl
  | exit status now =>
    obtain ⟨trk, -, rfl⟩ := step_exit hs
    exact .inl rfl
  | setRes =>
    obtain ⟨trk, ht, rfl⟩ := step_setRes hs
    have hsrc := h.src
    rw [(Tracker.step_setRes ht).1, if_neg (by simp)] at hsrc
    refine .inr ⟨.closeSource, ?_⟩
    simp only [Broadcaster.openStep, hsrc, Nat.one_ne_zero, if_false, release]
  | kill c a =>
    obtain ⟨call, ch, rfl, -⟩ := step_kill hs
    exact .inl rfl
  | bcast a =>
    obtain ⟨bc, hb, rfl⟩ := step_bcast hs
    exact .inr ⟨.act a, hb⟩

theorem reachable_bc (h : Inv j₀ acts p) (hr : Lts.Reachable Pipeline.step p p') :
    Lts.Reachable Broadcaster.openStep p.bc p'.bc := by
  refine hr.project (I := fun p => ∃ acts, Inv j₀ acts p) Pipeline.bc
    (fun _ _ _ ⟨_, h⟩ hs => ⟨_, h.step hs⟩) ?_ ⟨acts, h⟩
  intro s a s' ⟨_, hi⟩ hs
  rcases bc_of_step hi hs with he | ⟨b, hb⟩
  · rw [he]
    exact .refl _
  · exact .single hb

end Parts

end Pipeline

end JobRunner
