import JobRunner.Verify.Terminal

/-!
# What subscribers of one job receive

Every subscriber reads a prefix of one history, so two that have both come to a terminal event
have read the same events up to it. In a tracked job nothing follows the terminal event, so they
have read the same.
-/

namespace JobRunner

open Mpsc

namespace FrameEvent

/-- The events up to the first terminal one, this included. -/
def uptoTerminal : List FrameEvent → List FrameEvent
  | [] => []
  | ev :: evs => if ev.isTerminal then [ev] else ev :: uptoTerminal evs

/-- Later events do not matter once there is a terminal one. -/
theorem uptoTerminal_of_prefix {evs h : List FrameEvent} (hp : evs <+: h)
    (ht : ∃ ev ∈ evs, ev.isTerminal = true) : uptoTerminal evs = uptoTerminal h := by
  induction evs generalizing h with
  | nil =>
    obtain ⟨ev, hev, -⟩ := ht
    cases hev
  | cons ev evs ih =>
    obtain ⟨rest, rfl⟩ := hp
    cases hev : ev.isTerminal with
    | true => simp [uptoTerminal, hev]
    | false =>
      have ht' : ∃ ev' ∈ evs, ev'.isTerminal = true := by
        obtain ⟨ev', hmem, hev'⟩ := ht
        rcases List.mem_cons.1 hmem with rfl | hmem
        · rw [hev] at hev'
          cases hev'
        · exact ⟨ev', hmem, hev'⟩
      simp only [uptoTerminal, hev, List.cons_append, ih (List.prefix_append evs rest) ht']

end FrameEvent

/-- The client of the relay has received a terminal event. -/
def Relay.ReachedTerminal (r : Relay) : Prop := ∃ ev ∈ r.got, ev.isTerminal = true

namespace Broadcaster

variable {s : Broadcaster}

theorem uptoTerminal_eq (h : Inv s) {i j : SubId} {r r' : Relay} (hr : s.subs i = .live r)
    (hr' : s.subs j = .live r') (ht : r.ReachedTerminal) (ht' : r'.ReachedTerminal) :
    FrameEvent.uptoTerminal r.got = FrameEvent.uptoTerminal r'.got := by
  obtain ⟨-, hflow⟩ := h.live hr
  obtain ⟨-, hflow'⟩ := h.live hr'
  rw [FrameEvent.uptoTerminal_of_prefix hflow.got ht,
    FrameEvent.uptoTerminal_of_prefix hflow'.got ht']

end Broadcaster

namespace Pipeline

variable {p : Pipeline}

/-- In a tracked job a client that has received a terminal event has received all there is. -/
theorem got_eq_frames {j₀ : Job} {acts : List Act} (h : Inv j₀ acts p) (ht : p.Terminal)
    {i : SubId} {r : Relay} (hr : p.bc.subs i = .live r) (hend : r.ReachedTerminal) :
    r.got = p.bc.frames := by
  obtain ⟨fs, hfs, hsent⟩ := ht
  obtain ⟨ev, hev, hterm⟩ := hend
  have hgot : r.got <+: p.bc.frames := (h.bc.live hr).2.got
  have hframes : p.bc.frames <+: fs ++ p.trk.ending := hsent ▸ List.prefix_append _ _
  rcases p.trk.ending_cases with he | ⟨-, he⟩
  · rw [he, List.append_nil] at hframes
    rw [hfs.of_prefix (hgot.trans hframes) ev hev] at hterm
    cases hterm
  · rw [he] at hframes
    rcases hfs.prefix_snoc (hgot.trans hframes) with hf | hf
    · rw [hf ev hev] at hterm
      cases hterm
    · exact hgot.eq_of_length_le (by rw [hf]; exact hframes.length_le)

end Pipeline

open Broadcaster in
/-- For every broadcaster, whatever its source sends: a subscriber whose client listens has seen a
prefix of the history, and all of it while its relay is registered or if it had no relay yet when
the source was closed; and two clients that have come to a terminal event agree up to it. In a
tracked job two such clients have received the same events. -/
theorem subscribers_consistent :
    (∀ s₁ s, Lts.Reachable openStep Broadcaster.start s₁ → Lts.Reachable openStep s₁ s →
      (∀ i r, s.subs i = .live r → r.clientCh.rxOpen = true →
        r.got ++ r.clientCh.queue ++ r.toSend.toList ++ r.frames ++ r.bcastCh.queue <+: s.frames ∧
        ((i ∈ s.relays ∨ (s₁.frameCh.senders = 0 ∧ ∀ r₁, s₁.subs i ≠ .live r₁)) →
          r.got ++ r.clientCh.queue ++ r.toSend.toList ++ r.frames ++ r.bcastCh.queue
            = s.frames)) ∧
      (∀ i j r r', s.subs i = .live r → s.subs j = .live r' →
        r.ReachedTerminal → r'.ReachedTerminal →
        FrameEvent.uptoTerminal r.got = FrameEvent.uptoTerminal r'.got)) ∧
    (∀ jobId user pid now p,
      Lts.Reachable Pipeline.step (Pipeline.start (Job.started jobId user pid now)) p →
      ∀ i j r r', p.bc.subs i = .live r → p.bc.subs j = .live r' →
        r.ReachedTerminal → r'.ReachedTerminal → r.got = r'.got) := by
  constructor
  · intro s₁ s h₁ h
    refine ⟨fun i r hr ho => ?_, fun i j r r' hr hr' ht ht' => ?_⟩
    · obtain ⟨hpre, hwhole⟩ := seen_of_reachable (h₁.trans h) hr ho
      refine ⟨hpre, fun hcase => ?_⟩
      rcases hcase with hmem | ⟨hz, hnew⟩
      · exact hwhole hmem
      · exact seen_late h₁ hz hnew h hr ho
    · exact uptoTerminal_eq (Inv.reachable (h₁.trans h)) hr hr' ht ht'
  · intro jobId user pid now p ⟨acts, hr⟩ i j r r' hi hj ht ht'
    have h : Pipeline.Inv (Job.started jobId user pid now) acts p := Pipeline.Inv.run rfl hr
    have hterm : p.Terminal := Pipeline.Terminal.run rfl hr
    rw [Pipeline.got_eq_frames h hterm hi ht, Pipeline.got_eq_frames h hterm hj ht']

namespace Pipeline

/-- After the output has ended a second subscriber reads it all again. -/
def rereadRun (i j : SubId) (b : UInt8) : List Act :=
  echoRun i b ++
    [.bcast (.subscribe j), .bcast (.sendReq j), .bcast (.req j),
      .bcast (.relay j .send), .bcast (.relay j .clientRecv),
      .bcast (.relay j .send), .bcast (.relay j .clientRecv)]

/-- A source that sends `EOF` and is closed. -/
def closedSource : List Broadcaster.OpenAct := [.offer .eof, .closeSource]

/-- A subscriber that comes after that, with `EOF` still in the source channel. -/
def lateRun (i : SubId) : List Broadcaster.OpenAct :=
  [.act (.subscribe i), .act (.sendReq i), .act (.req i), .act .frame, .act .frame,
    .act (.relay i .recv)]

theorem subscribers_consistent_runs :
    (∃ s₁ s r, Lts.run Broadcaster.openStep Broadcaster.start closedSource = some s₁ ∧
      Lts.run Broadcaster.openStep s₁ (lateRun 0) = some s ∧ s.subs 0 = .live r ∧
      r.got ++ r.clientCh.queue ++ r.toSend.toList ++ r.frames ++ r.bcastCh.queue = s.frames) ∧
    ∃ p r r', Lts.run Pipeline.step (Pipeline.start (Job.started ⟨"job"⟩ ⟨"alice"⟩ ⟨7⟩ ⟨1⟩))
        (rereadRun 0 1 104) = some p ∧
      p.bc.subs 0 = .live r ∧ p.bc.subs 1 = .live r' ∧
      r.got = [.frame ⟨.stdout, [104]⟩, .eof] ∧ r.got = r'.got := by
  have heof : FrameEvent.eof ∈ [FrameEvent.frame ⟨.stdout, [104]⟩, FrameEvent.eof] := by simp
  constructor
  · refine ⟨_, _, _, rfl, rfl, rfl, ?_⟩
    exact ((subscribers_consistent.1 _ _ ⟨closedSource, rfl⟩ ⟨lateRun 0, rfl⟩).1 0 _ rfl rfl).2
      (.inr ⟨rfl, fun _ h => by cases h⟩)
  · refine ⟨_, _, _, rfl, rfl, rfl, rfl, ?_⟩
    exact subscribers_consistent.2 ⟨"job"⟩ ⟨"alice"⟩ ⟨7⟩ ⟨1⟩ _ ⟨rereadRun 0 1 104, rfl⟩ 0 1 _ _
      rfl rfl ⟨.eof, heof, rfl⟩ ⟨.eof, heof, rfl⟩

end Pipeline

end JobRunner
