import JobRunner.Client
import JobRunner.Verify.Delivery

/-!
# What `logs` prints

From the pipes of the child to the output streams of the client: what the client has written to a
stream is at each moment a beginning of what the child has written to it, apart from the report of
the error it exits with, and with exit code 0 it is all of it (`ServedClient.logs_output`). The
client does come to an end when the log has, unless it is cut off (`ServedClient.logs_ends`).
-/

namespace JobRunner

open Lts Mpsc

/-! ## The loop -/

namespace Client

/-- What is left of the frame that is being written. -/
def LogsPc.pending : LogsPc → Pb.LogFrameKind → List UInt8
  | .write kind' rest, kind => if kind' = kind then rest else []
  | _, _ => []

namespace Logs

section Steps

variable {c c' : Logs}

theorem step_message {res : Except Status (Option Pb.LogFrame)}
    (h : c.step (.message res) = some c') :
    c.pc = .message ∧
    ((∃ st, res = .error st ∧ c' = { c with pc := .exited (.status st) }) ∨
      (res = .ok none ∧ c' = { c with pc := .exited .done }) ∨
      ∃ frame, res = .ok (some frame) ∧
        c' = { c with pc := .write frame.getKind frame.bs, read := c.read + 1 }) := by
  simp only [step] at h
  split at h
  · next hpc =>
    refine ⟨hpc, ?_⟩
    cases res with
    | error st => exact .inl ⟨st, rfl, (Option.some.inj h).symm⟩
    | ok frame =>
      cases frame with
      | none => exact .inr (.inl ⟨rfl, (Option.some.inj h).symm⟩)
      | some frame => exact .inr (.inr ⟨frame, rfl, (Option.some.inj h).symm⟩)
  · cases h

theorem step_write {n : Nat} (h : c.step (.write n) = some c') :
    ∃ kind rest, c.pc = .write kind rest ∧ c' = { c with
      pc := .write kind (rest.drop n)
      out := Function.update c.out kind (c.out kind ++ rest.take n) } := by
  simp only [step] at h
  split at h
  · next kind rest hpc =>
    simp only [Option.ite_none_right_eq_some, Option.some.injEq] at h
    exact ⟨kind, rest, hpc, h.2.symm⟩
  · cases h

theorem step_flushed (h : c.step .flushed = some c') :
    ∃ kind, c.pc = .write kind [] ∧ c' = { c with pc := .message } := by
  simp only [step] at h
  split at h
  · next kind hpc => exact ⟨kind, hpc, (Option.some.inj h).symm⟩
  · cases h

theorem step_fail (h : c.step .fail = some c') :
    ∃ kind rest, c.pc = .write kind rest ∧ c' = { c with pc := .exited .failed } := by
  simp only [step] at h
  split at h
  · next kind rest hpc => exact ⟨kind, rest, hpc, (Option.some.inj h).symm⟩
  · cases h

end Steps

def exit (c : Logs) : Option Exit :=
  match c.pc with
  | .exited exit => some exit
  | _ => none

theorem pc_of_exit {c : Logs} {exit : Exit} (h : c.exit = some exit) : c.pc = .exited exit := by
  unfold Logs.exit at h
  split at h
  · next hpc =>
    rw [hpc, Option.some.inj h]
  · cases h

/-- The bytes of some frames that go to one of the streams. -/
def bytes (kind : Pb.LogFrameKind) (frames : List Pb.LogFrame) : List UInt8 :=
  frames.flatMap fun frame => if frame.getKind = kind then frame.bs else []

theorem bytes_snoc (kind : Pb.LogFrameKind) (frames : List Pb.LogFrame) (frame : Pb.LogFrame) :
    bytes kind (frames ++ [frame]) =
      bytes kind frames ++ if frame.getKind = kind then frame.bs else [] := by
  simp [bytes]

/-- The loop has taken these frames and written them, up to the one it is at. -/
structure Wrote (c : Logs) (frames : List Pb.LogFrame) : Prop where
  read : c.read = frames.length
  part : ∀ kind, c.out kind <+: bytes kind frames
  whole : c.pc ≠ .exited .failed → ∀ kind, c.out kind ++ c.pc.pending kind = bytes kind frames

namespace Wrote

variable {c c' : Logs} {frames : List Pb.LogFrame}

theorem start : Wrote Logs.start [] where
  read := rfl
  part _ := List.nil_prefix
  whole _ _ := rfl

/-- Between two frames nothing is pending. -/
theorem out_eq (h : Wrote c frames) (hpc : c.pc = .message) (kind : Pb.LogFrameKind) :
    c.out kind = bytes kind frames := by
  rw [← h.whole (by simp [hpc]) kind, hpc]
  exact (List.append_nil _).symm

theorem frame (h : Wrote c frames) (hpc : c.pc = .message) (frame : Pb.LogFrame) :
    Wrote { c with pc := .write frame.getKind frame.bs, read := c.read + 1 }
      (frames ++ [frame]) where
  read := by simp [h.read]
  part kind := by
    rw [bytes_snoc, ← h.out_eq hpc kind]
    exact List.prefix_append _ _
  whole _ kind := by
    rw [bytes_snoc, ← h.out_eq hpc kind]
    rfl

theorem exit (h : Wrote c frames) (hpc : c.pc = .message) (exit : Exit) :
    Wrote { c with pc := .exited exit } frames where
  read := h.read
  part := h.part
  whole _ kind := by
    rw [← h.out_eq hpc kind]
    exact List.append_nil _

theorem step (h : Wrote c frames) {a : Act} (hs : c.step a = some c')
    (ha : ∀ res, a ≠ .message res) : Wrote c' frames := by
  cases a with
  | message res => exact absurd rfl (ha res)
  | write n =>
    obtain ⟨kind, rest, hpc, rfl⟩ := step_write hs
    have hwhole : ∀ kind', Function.update c.out kind (c.out kind ++ rest.take n) kind' ++
        (LogsPc.write kind (rest.drop n)).pending kind' = bytes kind' frames := by
      intro kind'
      rw [← h.whole (by simp [hpc]) kind', hpc]
      by_cases hk : kind' = kind
      · subst hk
        simp [LogsPc.pending]
      · have hk' : kind ≠ kind' := fun e => hk e.symm
        simp [LogsPc.pending, hk, hk']
    exact ⟨h.read, fun kind' => ⟨_, hwhole kind'⟩, fun _ => hwhole⟩
  | flushed =>
    obtain ⟨kind, hpc, rfl⟩ := step_flushed hs
    refine ⟨h.read, h.part, fun _ kind' => ?_⟩
    rw [← h.whole (by simp [hpc]) kind', hpc]
    simp [LogsPc.pending]
  | fail =>
    obtain ⟨kind, rest, hpc, rfl⟩ := step_fail hs
    exact ⟨h.read, h.part, fun hne => absurd rfl hne⟩

end Wrote

end Logs

end Client

/-! ## The stream -/

namespace Served

variable {j₀ : Job} {s s' : Served} {i : SubId} {f : Forwarder}

/-- What the stream of `i` has handed over. -/
def handed (i : SubId) (s : Served) : List FrameResult :=
  match s.fwds i with
  | some f => f.got
  | none => []

theorem handed_of (hf : s.fwds i = some f) : s.handed i = f.got := by
  rw [handed, hf]

/-- A stream hands over more, until it has ended. -/
structure Goes (f f' : Forwarder) : Prop where
  got : f.got <+: f'.got
  ended : f.ended = true → f'.ended = true ∧ f'.got = f.got

theorem Goes.refl (f : Forwarder) : Goes f f := ⟨List.prefix_refl _, fun h => ⟨h, rfl⟩⟩

theorem goes_clientRecv {r : Relay} {f' : Forwarder} (hinv : f.Inv r)
    (hs : f.clientRecv = some f') : Goes f f' := by
  simp only [Forwarder.clientRecv, Option.ite_none_right_eq_some] at hs
  obtain ⟨-, hs⟩ := hs
  split at hs
  · cases hs
  · next item ch hrecv =>
    cases hs
    refine ⟨List.prefix_append _ _, fun hend => ?_⟩
    have hq := (hinv.final hend).2.1
    rcases Chan.recv_eq_some_iff.1 hrecv with ⟨item', q, hq', -, -⟩ | ⟨-, -, hne, -⟩
    · rw [hq] at hq'
      cases hq'
    · cases hne
  · cases hs
    exact ⟨List.prefix_refl _, fun _ => ⟨rfl, rfl⟩⟩

theorem goes_update {j : SubId} {f f' g : Forwarder} (hfwds : s'.fwds = Function.update s.fwds j f')
    (hf : s.fwds j = some f) (h : Goes f f') (hg : s.fwds i = some g) :
    ∃ g', s'.fwds i = some g' ∧ Goes g g' := by
  rw [hfwds]
  by_cases hj : i = j
  · subst hj
    obtain rfl : f = g := Option.some.inj (hf.symm.trans hg)
    exact ⟨f', by simp, h⟩
  · exact ⟨g, by simpa [hj] using hg, .refl g⟩

/-- What the forwarder does by itself hands over nothing. -/
theorem goes_task {j : SubId} {f f' g : Forwarder} (hfwds : s'.fwds = Function.update s.fwds j f')
    (hf : s.fwds j = some f) (hgot : f'.got = f.got) (hend : f'.ended = f.ended)
    (hg : s.fwds i = some g) : ∃ g', s'.fwds i = some g' ∧ Goes g g' :=
  goes_update hfwds hf ⟨⟨[], by rw [List.append_nil, hgot]⟩, fun h => ⟨hend.trans h, hgot⟩⟩ hg

theorem goes_step (hi : Inv j₀ s) {a : Act} (hs : s.step a = some s') {g : Forwarder}
    (hg : s.fwds i = some g) : ∃ g', s'.fwds i = some g' ∧ Goes g g' := by
  cases a with
  | pipe a =>
    obtain ⟨-, pl, -, rfl⟩ := step_pipe hs
    exact ⟨g, hg, .refl g⟩
  | openLogs j =>
    obtain ⟨r, -, hnone, -, rfl⟩ := step_openLogs hs
    have hj : i ≠ j := by
      rintro rfl
      rw [hnone] at hg
      cases hg
    exact ⟨g, by simpa [setFwd, hj] using hg, .refl g⟩
  | abandon j =>
    obtain ⟨r, -, -, -, rfl⟩ := step_abandon hs
    exact ⟨g, hg, .refl g⟩
  | fwd j a =>
    obtain ⟨r, f, hr, hf, hs⟩ := step_fwd hs
    obtain ⟨r₀, hr₀, hinv⟩ := hi.fwd j f hf
    cases a with
    | recv =>
      obtain ⟨-, -, ⟨ev, q, -, -, rfl⟩ | ⟨q, -, rfl⟩ | ⟨-, -, rfl⟩⟩ := stepFwd_recv hs
      · exact goes_task rfl hf rfl rfl hg
      · exact goes_task rfl hf rfl rfl hg
      · exact goes_task rfl hf rfl rfl hg
    | send =>
      obtain ⟨item, last, -, ⟨-, -, rfl⟩ | ⟨-, -, rfl⟩ | ⟨-, rfl⟩⟩ := stepFwd_send hs
      · exact goes_task rfl hf rfl rfl hg
      · exact goes_task rfl hf rfl rfl hg
      · exact goes_task rfl hf rfl rfl hg
    | clientRecv =>
      obtain ⟨f', hf', rfl⟩ := Option.map_eq_some_iff.1 hs
      exact goes_update rfl hf (goes_clientRecv hinv hf') hg
    | clientDrop =>
      obtain ⟨f', hf', rfl⟩ := Option.map_eq_some_iff.1 hs
      simp only [Forwarder.clientDrop, Option.ite_none_right_eq_some, Option.some.injEq] at hf'
      obtain ⟨-, rfl⟩ := hf'
      exact goes_task rfl hf rfl rfl hg

theorem handed_mono (hi : Inv j₀ s) {a : Act} (hs : s.step a = some s') :
    s.handed i <+: s'.handed i := by
  cases hf : s.fwds i with
  | none =>
    rw [handed, hf]
    exact List.nil_prefix
  | some f =>
    obtain ⟨f', hf', hgoes⟩ := goes_step hi hs hf
    rw [handed_of hf, handed_of hf']
    exact hgoes.got

/-- The bytes of the items of a log are those of its events. -/
theorem logBytes_items (k : StreamKind) (evs : List FrameEvent) :
    logBytes k (logFormat.items evs) = FrameEvent.streamBytes k evs := by
  rw [← logBytes_frameItems]
  induction evs with
  | nil => rfl
  | cons ev evs ih =>
    have hone : logBytes k (logFormat.items [ev]) = logBytes k (frameItems [ev]) := by
      cases ev <;> rfl
    have hsplit : logFormat.items (ev :: evs) = logFormat.items [ev] ++ logFormat.items evs :=
      List.filterMap_append (l := [ev])
    rw [hsplit, logBytes_append, hone, ih, ← logBytes_append, ← frameItems_append]
    rfl

end Served

/-! ## The system -/

namespace ServedClient

variable {j₀ : Job} {i : SubId} {s s' : ServedClient}

theorem next_cases {f : Forwarder} {n : Nat} {res : Except Status (Option Pb.LogFrame)}
    (h : next f n = some res) :
    (∃ frame, f.got[n]? = some (.ok frame) ∧ res = .ok (some frame)) ∨
    (∃ st, f.got[n]? = some (.error st) ∧ res = .error st) ∨
    (f.got[n]? = none ∧ f.ended = true ∧ res = .ok none) := by
  unfold next at h
  split at h
  · next frame hget => exact .inl ⟨frame, hget, (Option.some.inj h).symm⟩
  · next st hget => exact .inr (.inl ⟨st, hget, (Option.some.inj h).symm⟩)
  · next hget =>
    simp only [Option.ite_none_right_eq_some, Option.some.injEq] at h
    exact .inr (.inr ⟨hget, h.1, h.2.symm⟩)

theorem next_none {f : Forwarder} {n : Nat} (h : next f n = none) :
    f.got[n]? = none ∧ f.ended = false := by
  unfold next at h
  split at h
  · cases h
  · cases h
  · next hget => exact ⟨hget, by simpa using h⟩

theorem step_message (h : s.step i .message = some s') :
    ∃ f res client, s.served.fwds i = some f ∧ next f s.client.read = some res ∧
      s.client.step (.message res) = some client ∧ s' = { s with client } := by
  simp only [step] at h
  split at h
  · cases h
  · next f hf =>
    split at h
    · cases h
    · next res hres =>
      obtain ⟨client, hclient, rfl⟩ := Option.map_eq_some_iff.1 h
      exact ⟨f, res, client, hf, hres, hclient, rfl⟩

theorem step_client {a : Client.Logs.Act} (h : s.step i (.client a) = some s') :
    (∀ res, a ≠ .message res) ∧ ∃ client, s.client.step a = some client ∧
      s' = { s with client } := by
  cases a with
  | message res => cases h
  | write n =>
    obtain ⟨client, hclient, rfl⟩ := Option.map_eq_some_iff.1 h
    exact ⟨by simp, client, hclient, rfl⟩
  | flushed =>
    obtain ⟨client, hclient, rfl⟩ := Option.map_eq_some_iff.1 h
    exact ⟨by simp, client, hclient, rfl⟩
  | fail =>
    obtain ⟨client, hclient, rfl⟩ := Option.map_eq_some_iff.1 h
    exact ⟨by simp, client, hclient, rfl⟩

/-- The job goes its way. -/
theorem served_of_step {a : Act} (h : s.step i a = some s') :
    s'.served = s.served ∨ ∃ b, s.served.step b = some s'.served := by
  cases a with
  | served a =>
    obtain ⟨served, hserved, rfl⟩ := Option.map_eq_some_iff.1 h
    exact .inr ⟨a, hserved⟩
  | message =>
    obtain ⟨f, res, client, -, -, -, rfl⟩ := step_message h
    exact .inl rfl
  | lost st =>
    obtain ⟨client, -, rfl⟩ := Option.map_eq_some_iff.1 h
    exact .inl rfl
  | client a =>
    obtain ⟨-, client, -, rfl⟩ := step_client h
    exact .inl rfl

/-- The frames that the client has taken are the first items of its stream; it exits for a
reason. -/
structure Reads (i : SubId) (acts : List Act) (s : ServedClient) (frames : List Pb.LogFrame) :
    Prop where
  wrote : s.client.Wrote frames
  taken : frames.map .ok <+: s.served.handed i
  done : s.client.pc = .exited .done →
    ∃ f, s.served.fwds i = some f ∧ f.ended = true ∧ f.got = frames.map .ok
  status : ∀ st, s.client.pc = .exited (.status st) →
    .lost st ∈ acts ∨ frames.map .ok ++ [.error st] <+: s.served.handed i
  failed : s.client.pc = .exited .failed → .client .fail ∈ acts

namespace Reads

variable {acts : List Act} {frames : List Pb.LogFrame}

theorem start (i : SubId) (job : Job) : Reads i [] (ServedClient.start job) [] where
  wrote := .start
  taken := List.nil_prefix
  done h := by cases h
  status st h := by cases h
  failed h := by cases h

/-- Before it exits there is nothing else to say. -/
theorem going (hwrote : s.client.Wrote frames) (htaken : frames.map .ok <+: s.served.handed i)
    (hpc : ∀ exit, s.client.pc ≠ .exited exit) : Reads i acts s frames where
  wrote := hwrote
  taken := htaken
  done h := absurd h (hpc _)
  status _ h := absurd h (hpc _)
  failed h := absurd h (hpc _)

theorem served (h : Reads i acts s frames) (hi : Served.Inv j₀ s.served) {a : Served.Act}
    {served : Served} (hs : s.served.step a = some served) :
    Reads i (acts ++ [.served a]) { s with served } frames := by
  have hmono := Served.handed_mono (i := i) hi hs
  refine ⟨h.wrote, h.taken.trans hmono, fun hpc => ?_, fun st hpc => ?_, fun hpc => ?_⟩
  · obtain ⟨f, hf, hend, hgot⟩ := h.done hpc
    obtain ⟨f', hf', hgoes⟩ := Served.goes_step hi hs hf
    obtain ⟨hend', hgot'⟩ := hgoes.ended hend
    exact ⟨f', hf', hend', hgot'.trans hgot⟩
  · rcases h.status st hpc with hlost | hstatus
    · exact .inl (List.mem_append_left _ hlost)
    · exact .inr (hstatus.trans hmono)
  · exact List.mem_append_left _ (h.failed hpc)

/-- The item at the place of the client is the next one. -/
theorem next_item (h : Reads i acts s frames) {f : Forwarder} (hf : s.served.fwds i = some f)
    {item : FrameResult} (hget : f.got[s.client.read]? = some item) :
    frames.map .ok ++ [item] <+: s.served.handed i := by
  have htaken := h.taken
  rw [Served.handed_of hf] at htaken ⊢
  obtain ⟨rest, hrest⟩ := htaken
  rw [h.wrote.read, ← hrest, List.getElem?_append_right (by simp)] at hget
  cases rest with
  | nil => simp at hget
  | cons item' rest =>
    obtain rfl : item' = item := by simpa using hget
    exact ⟨rest, by rw [← hrest, List.append_assoc, List.singleton_append]⟩

/-- Without a next item the client has taken everything there is. -/
theorem taken_all (h : Reads i acts s frames) {f : Forwarder} (hf : s.served.fwds i = some f)
    (hget : f.got[s.client.read]? = none) : frames.map .ok = f.got := by
  have htaken := h.taken
  rw [Served.handed_of hf] at htaken
  refine htaken.eq_of_length_le ?_
  rw [List.length_map, ← h.wrote.read]
  exact List.getElem?_eq_none_iff.1 hget

theorem message (h : Reads i acts s frames) (hs : s.step i .message = some s') :
    ∃ frames', Reads i (acts ++ [.message]) s' frames' := by
  obtain ⟨f, res, client, hf, hres, hclient, rfl⟩ := step_message hs
  obtain ⟨hpc, ⟨st, rfl, rfl⟩ | ⟨rfl, rfl⟩ | ⟨frame, rfl, rfl⟩⟩ := Client.Logs.step_message hclient
  · rcases next_cases hres with ⟨_, -, he⟩ | ⟨st', hget, he⟩ | ⟨-, -, he⟩
    · cases he
    · cases he
      refine ⟨frames, h.wrote.exit hpc _, h.taken, (fun hd => by cases hd), fun st' hst => ?_,
        (fun hf => by cases hf)⟩
      cases hst
      exact .inr (h.next_item hf hget)
    · cases he
  · rcases next_cases hres with ⟨_, -, he⟩ | ⟨_, -, he⟩ | ⟨hget, hend, -⟩
    · cases he
    · cases he
    · exact ⟨frames, h.wrote.exit hpc _, h.taken,
        fun _ => ⟨f, hf, hend, (h.taken_all hf hget).symm⟩, (fun st hst => by cases hst),
        (fun hf => by cases hf)⟩
  · rcases next_cases hres with ⟨frame', hget, he⟩ | ⟨_, -, he⟩ | ⟨-, -, he⟩
    · cases he
      refine ⟨frames ++ [frame], .going (h.wrote.frame hpc frame) ?_ (by simp)⟩
      rw [List.map_append]
      exact h.next_item hf hget
    · cases he
    · cases he

theorem lost (h : Reads i acts s frames) {st : Status} (hs : s.step i (.lost st) = some s') :
    Reads i (acts ++ [.lost st]) s' frames := by
  obtain ⟨client, hclient, rfl⟩ := Option.map_eq_some_iff.1 hs
  obtain ⟨hpc, ⟨st', he, rfl⟩ | ⟨he, -⟩ | ⟨_, he, -⟩⟩ := Client.Logs.step_message hclient
  · cases he
    refine ⟨h.wrote.exit hpc _, h.taken, (fun hd => by cases hd), fun st' hst => ?_,
      (fun hf => by cases hf)⟩
    cases hst
    exact .inl (List.mem_append_right _ (List.mem_singleton_self _))
  · cases he
  · cases he

theorem client (h : Reads i acts s frames) {a : Client.Logs.Act}
    (hs : s.step i (.client a) = some s') : Reads i (acts ++ [.client a]) s' frames := by
  obtain ⟨ha, client, hclient, rfl⟩ := step_client hs
  have hwrote := h.wrote.step hclient ha
  cases a with
  | message res => exact absurd rfl (ha res)
  | write n =>
    obtain ⟨kind, rest, -, rfl⟩ := Client.Logs.step_write hclient
    exact .going hwrote h.taken (by simp)
  | flushed =>
    obtain ⟨kind, -, rfl⟩ := Client.Logs.step_flushed hclient
    exact .going hwrote h.taken (by simp)
  | fail =>
    obtain ⟨kind, rest, -, rfl⟩ := Client.Logs.step_fail hclient
    exact ⟨hwrote, h.taken, (fun hd => by cases hd), (fun st hst => by cases hst),
      fun _ => List.mem_append_right _ (List.mem_singleton_self _)⟩

theorem run (hend : j₀.endedAt = none) {acts : List Act}
    (hr : Lts.run (step i) (ServedClient.start j₀) acts = some s) :
    Served.Inv j₀ s.served ∧ s.served.Exact ∧ ∃ frames, Reads i acts s frames := by
  refine run_induct (motive := fun acts s =>
    Served.Inv j₀ s.served ∧ s.served.Exact ∧ ∃ frames, Reads i acts s frames) ?_ ?_ hr
  · refine ⟨.start hend, ?_, [], .start i j₀⟩
    intro j f r hf
    cases hf
  · rintro as s a s' - ⟨hi, hex, frames, h⟩ hs
    cases a with
    | served a =>
      obtain ⟨served, hserved, rfl⟩ := Option.map_eq_some_iff.1 hs
      exact ⟨(hi.step hserved).1, hex.step hi hserved, frames, h.served hi hserved⟩
    | message =>
      obtain ⟨frames', h'⟩ := h.message hs
      obtain ⟨f, res, client, -, -, -, rfl⟩ := step_message hs
      exact ⟨hi, hex, frames', h'⟩
    | lost st =>
      have h' := h.lost hs
      obtain ⟨client, -, rfl⟩ := Option.map_eq_some_iff.1 hs
      exact ⟨hi, hex, frames, h'⟩
    | client a =>
      have h' := h.client hs
      obtain ⟨-, client, -, rfl⟩ := step_client hs
      exact ⟨hi, hex, frames, h'⟩

end Reads

/-! ## What is printed -/

theorem handed_items {s : Served} (hi : Served.Inv j₀ s) (hex : s.Exact) (i : SubId) :
    s.handed i <+: logFormat.items s.pl.bc.sent := by
  cases hf : s.fwds i with
  | none =>
    rw [Served.handed, hf]
    exact List.nil_prefix
  | some f =>
    rw [Served.handed_of hf]
    exact (Served.items_of_exact hi hex hf).1

/-- The client sorts the frames as the server has marked them. -/
theorem bytes_eq {frames : List Pb.LogFrame} {evs : List FrameEvent}
    (h : frames.map .ok <+: logFormat.items evs) (k : StreamKind) :
    Client.Logs.bytes k.toPb frames = logBytes k (frames.map .ok) := by
  rw [Client.Logs.bytes, logBytes, List.flatMap_map]
  apply List.flatMap_congr
  intro frame hframe
  obtain ⟨ev, -, hitem⟩ := List.mem_filterMap.1 (h.subset (List.mem_map_of_mem hframe))
  cases ev with
  | frame fr =>
    cases hitem
    cases hk : fr.kind <;> cases k <;> simp [Frame.toLogFrame, Pb.LogFrame.getKind, hk,
      StreamKind.toPb, StreamKind.toLogFrameKind]
  | error err => cases hitem
  | eof => cases hitem

/-- A complete log without an error ends with `EOF`. -/
theorem eof_of_items {evs : List FrameEvent} {frames : List Pb.LogFrame}
    (hc : logFormat.complete evs = true) (h : logFormat.items evs = frames.map .ok) :
    .eof ∈ evs := by
  obtain ⟨ev, hev, hlast⟩ := JournalFormat.complete_iff.1 hc
  cases ev with
  | frame fr => cases hlast
  | eof => exact hev
  | error err =>
    have hitem : .error (.internal ("log stream failed: " ++ err.display)) ∈
        logFormat.items evs := List.mem_filterMap.2 ⟨_, hev, rfl⟩
    rw [h] at hitem
    obtain ⟨frame, -, he⟩ := List.mem_map.1 hitem
    cases he

/-- What the client has printed of the frames is a beginning of what the child has written. -/
theorem out_part {j₀ : Job} {acts : List Act} (hend : j₀.endedAt = none)
    (hr : Lts.run (step i) (ServedClient.start j₀) acts = some s) (k : StreamKind) :
    s.client.out k.toPb <+: (s.served.pl.output k).pipe.written := by
  obtain ⟨hi, hex, frames, h⟩ := Reads.run hend hr
  obtain ⟨acts', hg⟩ := hi.good
  have hitems := h.taken.trans (handed_items hi hex i)
  have hlog : Client.Logs.bytes k.toPb frames <+:
      FrameEvent.streamBytes k s.served.pl.bc.sent := by
    rw [bytes_eq hitems, ← Served.logBytes_items]
    exact logBytes_mono hitems
  exact ((h.wrote.part k.toPb).trans hlog).trans (hg.bytes.part k)

/-- A client that has exited with 0 has printed all that the child has written. -/
theorem out_whole {j₀ : Job} {acts : List Act} (hend : j₀.endedAt = none)
    (hr : Lts.run (step i) (ServedClient.start j₀) acts = some s)
    (hpc : s.client.pc = .exited .done) (k : StreamKind) :
    s.client.out k.toPb = (s.served.pl.output k).pipe.written ∧
      (s.served.pl.output k).pipe.closed = true := by
  obtain ⟨hi, hex, frames, h⟩ := Reads.run hend hr
  obtain ⟨acts', hg⟩ := hi.good
  have hitems := h.taken.trans (handed_items hi hex i)
  obtain ⟨f, hf, hended, hgot⟩ := h.done hpc
  obtain ⟨hcomplete, hwhole⟩ := (Served.items_of_exact hi hex hf).2 hended
  have heof : .eof ∈ s.served.pl.bc.sent := eof_of_items hcomplete (hwhole.symm.trans hgot)
  obtain ⟨hbytes, hclosed⟩ := hg.bytes.complete heof k
  refine ⟨?_, hclosed⟩
  have hout := h.wrote.whole (by simp [hpc]) k.toPb
  rw [hpc, bytes_eq hitems, ← hgot, hwhole, Served.logBytes_items, hbytes] at hout
  rw [← hout]
  exact (List.append_nil _).symm

/-- What the client of a log stream has written to its stdout is at each moment a beginning of what
the child has written to its own. The same holds of stderr, but for the report of the error that a
client which exits with another code than 0 puts behind it. When it has exited with 0 it has written
all that the child has, and the child has closed both. -/
theorem logs_output {jobId : JobId} {user : User} {pid : Pid} {now : DateTime} {acts : List Act}
    (hr : Lts.run (step i) (ServedClient.start (Job.started jobId user pid now)) acts = some s)
    (report : Client.Exit → List UInt8) :
    s.client.written report .stdout <+: (s.served.pl.output .stdout).pipe.written ∧
    (∃ bs own, s.client.written report .stderr = bs ++ own ∧
      bs <+: (s.served.pl.output .stderr).pipe.written ∧
      (own = [] ∨ ∃ exit, s.client.pc = .exited exit ∧ exit.code ≠ 0 ∧ own = report exit)) ∧
    ∀ exit, s.client.pc = .exited exit → exit.code = 0 → ∀ k,
      s.client.written report k.toPb = (s.served.pl.output k).pipe.written ∧
        (s.served.pl.output k).pipe.closed = true := by
  refine ⟨out_part rfl hr .stdout, ?_, fun exit hpc hcode k => ?_⟩
  · refine ⟨_, _, rfl, out_part rfl hr .stderr, ?_⟩
    unfold Client.Logs.errorReport
    split
    · exact .inl rfl
    · next exit hdone hpc =>
      refine .inr ⟨exit, hpc, ?_, rfl⟩
      cases exit with
      | done => exact absurd rfl hdone
      | status st => exact Nat.one_ne_zero
      | failed => exact Nat.one_ne_zero
    · exact .inl rfl
  · cases exit with
    | status st => cases hcode
    | failed => cases hcode
    | done =>
      have hout := out_whole rfl hr hpc k
      cases k with
      | stdout => exact hout
      | stderr =>
        have hreport : s.client.errorReport report = [] := by
          rw [Client.Logs.errorReport, hpc]
        simpa [StreamKind.toPb, Client.Logs.written, hreport] using hout

/-- The stream of `endedRun`, read and written to the end. -/
def printRun (b : UInt8) : List Act :=
  (Served.endedRun b).map .served ++
    [.message, .client (.write 1), .client .flushed, .message]

theorem logs_output_printRun :
    ∃ s, Lts.run (step 0) (ServedClient.start (Job.started ⟨"job"⟩ ⟨"alice"⟩ ⟨7⟩ ⟨1⟩))
        (printRun 104) = some s ∧
      ∀ k, s.client.written (fun _ => [101]) k.toPb = (s.served.pl.output k).pipe.written ∧
        (s.served.pl.output k).pipe.closed = true := by
  have hrun : ((Lts.run (step 0) (ServedClient.start (Job.started ⟨"job"⟩ ⟨"alice"⟩ ⟨7⟩ ⟨1⟩))
      (printRun 104)).map fun s => s.client.exit) = some (some .done) := by decide +kernel
  obtain ⟨s, hs, hexit⟩ := Option.map_eq_some_iff.1 hrun
  exact ⟨s, hs, (logs_output hs _).2.2 .done (Client.Logs.pc_of_exit hexit) rfl⟩

/-! ## At rest -/

/-- The broadcaster drops the relay of the client. -/
def CutsOff (i : SubId) (s : ServedClient) (a : Act) : Prop :=
  ∃ b, a = .served b ∧ s.served.CutsOff i b

/-- Neither the tasks between the job and the client nor the client can take a step. -/
structure Rests (i : SubId) (s : ServedClient) : Prop where
  served : s.served.Settled i
  message : s.step i .message = none
  write : ∀ n, 0 < n → s.step i (.client (.write n)) = none
  flushed : s.step i (.client .flushed) = none

theorem kept_run (hend : j₀.endedAt = none) {acts : List Act}
    (hr : Lts.run (step i) (ServedClient.start j₀) acts = some s)
    (hcut : ¬Met (step i) (CutsOff i) (ServedClient.start j₀) acts) : s.served.pl.bc.Kept i := by
  refine run_induct (motive := fun acts s =>
    ¬Met (step i) (CutsOff i) (ServedClient.start j₀) acts → s.served.pl.bc.Kept i)
    (fun _ => ?_) ?_ hr hcut
  · constructor <;> (intro r hr; cases hr)
  · intro as s a s' has ih hs hmet
    have hnot := mt (met_snoc has).2 hmet
    have hk := ih fun h => hnot (.inl h)
    obtain ⟨hi, -, -⟩ := Reads.run hend has
    cases a with
    | served a =>
      obtain ⟨served, hserved, rfl⟩ := Option.map_eq_some_iff.1 hs
      exact Served.kept_step hi hk hserved fun h => hnot (.inr ⟨a, rfl, h⟩)
    | message =>
      obtain ⟨f, res, client, -, -, -, rfl⟩ := step_message hs
      exact hk
    | lost st =>
      obtain ⟨client, -, rfl⟩ := Option.map_eq_some_iff.1 hs
      exact hk
    | client a =>
      obtain ⟨-, client, -, rfl⟩ := step_client hs
      exact hk

theorem not_met_cutsOff (hend : j₀.endedAt = none) {acts : List Act}
    (hr : Lts.run (step i) (ServedClient.start j₀) acts = some s)
    (h : s.served.pl.bc.sent.length ≤ 1024) :
    ¬Met (step i) (CutsOff i) (ServedClient.start j₀) acts := by
  intro hmet
  obtain ⟨t, a, ⟨as, ht⟩, hts, b, -, -, hcut⟩ := hmet.on_the_way hr
  obtain ⟨hi, -⟩ := Reads.run hend ht
  have hlen : Served.Inv j₀ s.served ∧
      t.served.pl.bc.sent.length ≤ s.served.pl.bc.sent.length := by
    refine hts.invariant (I := fun s => Served.Inv j₀ s.served ∧
      t.served.pl.bc.sent.length ≤ s.served.pl.bc.sent.length) ⟨hi, Nat.le_refl _⟩ ?_
    rintro s a s' ⟨hi, hle⟩ hs
    rcases served_of_step hs with he | ⟨b, hb⟩
    · rw [he]
      exact ⟨hi, hle⟩
    · exact ⟨(hi.step hb).1, Nat.le_trans hle (Served.sent_mono hi hb)⟩
  exact Served.not_cutsOff_of_short hi (Nat.le_trans hlen.2 h) hcut

/-- An error is the last item of its log. -/
theorem error_last {fs tail : List FrameEvent} (hfs : FramesOnly fs)
    (htail : tail = [] ∨ ∃ t, tail = [t]) {items : List FrameResult} {st : Status}
    (h : items ++ [.error st] <+: logFormat.items (fs ++ tail)) :
    logFormat.items (fs ++ tail) = items ++ [.error st] ∧ .eof ∉ fs ++ tail := by
  have hok : .error st ∉ logFormat.items fs := by
    intro hmem
    obtain ⟨ev, hev, hitem⟩ := List.mem_filterMap.1 hmem
    have hframe := hfs ev hev
    cases ev with
    | frame fr => cases hitem
    | error err => cases hframe
    | eof => cases hframe
  have herr : ∀ {ms}, items ++ [.error st] <+: ms → .error st ∈ ms := fun hp =>
    hp.subset (List.mem_append_right _ (List.mem_singleton_self _))
  rcases htail with rfl | ⟨t, rfl⟩
  · rw [List.append_nil] at h
    exact absurd (herr h) hok
  · rw [Forwarder.items_snoc] at h ⊢
    cases t with
    | frame fr =>
      rcases List.mem_append.1 (herr h) with hmem | hmem
      · exact absurd hmem hok
      · cases List.mem_singleton.1 hmem
    | eof => exact absurd (by simpa [logFormat] using herr h) hok
    | error err =>
      have hitem : (logFormat.item (.error err)).toList =
          [.error (.internal ("log stream failed: " ++ err.display))] := rfl
      rw [hitem] at h ⊢
      rcases List.prefix_concat_iff.1 h with he | hp
      · refine ⟨he.symm, fun heof => ?_⟩
        rcases List.mem_append.1 heof with heof | heof
        · cases hfs _ heof
        · cases List.mem_singleton.1 heof
      · exact absurd (herr hp) hok

/-- When nothing can take a step, the client has printed everything the job has logged, unless it
was cut off from it; and if the log is complete it has exited, with 0 if the log ends with `EOF`. -/
theorem logs_ends {jobId : JobId} {user : User} {pid : Pid} {now : DateTime} {acts : List Act}
    (hr : Lts.run (step i) (ServedClient.start (Job.started jobId user pid now)) acts = some s)
    (hcut : ¬Met (step i) (CutsOff i) (ServedClient.start (Job.started jobId user pid now)) acts)
    (hlost : ∀ st, .lost st ∉ acts) (hfail : .client .fail ∉ acts) {f : Forwarder}
    (hf : s.served.fwds i = some f) (ho : f.ch.rxOpen = true) (h : s.Rests i) :
    (∀ k, s.client.out k.toPb = FrameEvent.streamBytes k s.served.pl.bc.sent) ∧
    (logFormat.complete s.served.pl.bc.sent = true →
      ∃ exit, s.client.pc = .exited exit ∧ (exit.code = 0 ↔ .eof ∈ s.served.pl.bc.sent)) := by
  obtain ⟨hi, hex, frames, hreads⟩ := Reads.run rfl hr
  obtain ⟨acts', hg⟩ := hi.good
  obtain ⟨hgot, hended⟩ := h.served.delivered hi hex (kept_run rfl hr hcut) hf ho
  have hhanded := Served.handed_of hf
  have hitems := hreads.taken.trans (handed_items hi hex i)
  -- the client has printed what it has taken
  have hprinted : s.client.pc ≠ .exited .failed → (∀ kind, s.client.pc.pending kind = []) →
      (∀ k, logBytes k (frames.map .ok) = logBytes k (logFormat.items s.served.pl.bc.sent)) →
      ∀ k, s.client.out k.toPb = FrameEvent.streamBytes k s.served.pl.bc.sent := by
    intro hpc hpending hall k
    have hout := hreads.wrote.whole hpc k.toPb
    rwa [hpending, List.append_nil, bytes_eq hitems, hall, Served.logBytes_items] at hout
  cases hpc : s.client.pc with
  | message =>
    have hnext : next f s.client.read = none := by
      have hmessage := h.message
      cases hres : next f s.client.read with
      | none => rfl
      | some res =>
        cases res with
        | error st => simp [step, hf, hres, Client.Logs.step, hpc] at hmessage
        | ok frame => cases frame <;> simp [step, hf, hres, Client.Logs.step, hpc] at hmessage
    obtain ⟨hget, hend⟩ := next_none hnext
    have hall := (hreads.taken_all hf hget).trans hgot
    refine ⟨hprinted (by simp [hpc]) (fun _ => by rw [hpc]; rfl) fun k => by rw [hall], ?_⟩
    intro hcomplete
    rw [hended.2 hcomplete] at hend
    cases hend
  | write kind rest =>
    cases rest with
    | nil =>
      have hflushed := h.flushed
      simp [step, Client.Logs.step, hpc] at hflushed
    | cons b rest =>
      have hwrite := h.write 1 Nat.one_pos
      simp [step, Client.Logs.step, hpc] at hwrite
  | exited exit =>
    cases exit with
    | done =>
      obtain ⟨f', hf', hend, hgot'⟩ := hreads.done hpc
      obtain rfl : f = f' := Option.some.inj (hf.symm.trans hf')
      have hall := hgot'.symm.trans hgot
      refine ⟨hprinted (by simp [hpc]) (fun _ => by rw [hpc]; rfl) fun k => by rw [hall], ?_⟩
      exact fun hcomplete => ⟨.done, rfl, fun _ => eof_of_items hcomplete hall.symm, fun _ => rfl⟩
    | status st =>
      have herror := (hreads.status st hpc).resolve_left (hlost st)
      obtain ⟨fs, hfs, hsent⟩ := hg.terminal
      have htail : s.served.pl.trk.ending = [] ∨ ∃ t, s.served.pl.trk.ending = [t] :=
        s.served.pl.trk.ending_cases.imp_right fun h => ⟨_, h.2⟩
      rw [hhanded, hgot, hsent] at herror
      obtain ⟨hall, hno⟩ := error_last hfs htail herror
      rw [← hsent] at hall hno
      refine ⟨hprinted (by simp [hpc]) (fun _ => by rw [hpc]; rfl) fun k => ?_, fun _ => ?_⟩
      · rw [hall, logBytes_append]
        exact (List.append_nil _).symm
      · exact ⟨.status st, rfl, (fun hcode => by cases hcode), fun heof => absurd heof hno⟩
    | failed => exact absurd (hreads.failed hpc) hfail

theorem logs_ends_printRun :
    ∃ s, Lts.run (step 0) (ServedClient.start (Job.started ⟨"job"⟩ ⟨"alice"⟩ ⟨7⟩ ⟨1⟩))
        (printRun 104) = some s ∧
      ∀ k, s.client.out k.toPb = FrameEvent.streamBytes k s.served.pl.bc.sent := by
  have hrun : ((Lts.run (step 0) (ServedClient.start (Job.started ⟨"job"⟩ ⟨"alice"⟩ ⟨7⟩ ⟨1⟩))
      (printRun 104)).bind fun s => (s.served.fwds 0).map fun f => f.ch.rxOpen && f.ended &&
        decide (s.served.pl.bc.sent.length ≤ 1024) && decide (s.client.exit = some .done) &&
        ([.pipe (.bcast .frame), .pipe (.bcast (.relay 0 .recv)), .pipe (.bcast (.relay 0 .send)),
          .fwd 0 .recv, .fwd 0 .send] : List Served.Act).all fun a =>
            (s.served.step a).isNone) = some true := by
    decide +kernel
  obtain ⟨s, hs, hf⟩ := Option.bind_eq_some_iff.1 hrun
  obtain ⟨f, hf, hall⟩ := Option.map_eq_some_iff.1 hf
  simp only [List.all_cons, List.all_nil, Bool.and_true, Bool.and_eq_true, decide_eq_true_eq,
    Option.isNone_iff_eq_none] at hall
  obtain ⟨⟨⟨⟨ho, hend⟩, hshort⟩, hexit⟩, hframe, hrecv, hsend, hfrecv, hfsend⟩ := hall
  have hsettled : s.served.Settled 0 := by
    refine ⟨hframe, fun a ha => ?_, fun a ha => ?_, fun f' hf' hne => ?_⟩
    · rcases ha with rfl | rfl
      · exact hrecv
      · exact hsend
    · rcases ha with rfl | rfl
      · exact hfrecv
      · exact hfsend
    · obtain rfl : f = f' := Option.some.inj (hf.symm.trans hf')
      rw [hend] at hne
      cases hne
  have hpc := Client.Logs.pc_of_exit hexit
  have hrests : s.Rests 0 := by
    refine ⟨hsettled, ?_, fun n _ => ?_, ?_⟩
    · simp only [step, hf]
      cases next f s.client.read with
      | none => rfl
      | some res => simp [Client.Logs.step, hpc]
    · simp [step, Client.Logs.step, hpc]
    · simp [step, Client.Logs.step, hpc]
  exact ⟨s, hs, (logs_ends hs (not_met_cutsOff rfl hs hshort) (by simp [printRun])
    (by simp [printRun]) hf ho hrests).1⟩

end ServedClient

end JobRunner
