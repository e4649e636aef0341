import JobRunner.Verify.Calls
import JobRunner.Verify.Client
import JobRunner.Verify.Server

/-!
# Who gets a log

A forwarder comes into being when a waiting `logs` call is answered, and at no other step of the
coordinator. Such a call has passed the owner check of its job, as the user of its request. So what
a job writes to its output goes only to streams that its owner has asked for
(`Server.streams_owned`).
-/

namespace JobRunner

open Lts

/-! ## Where forwarders come from -/

namespace Coord

variable {s s' : Coord}

/-- A stream is an old one, or that of a waiting `logs` of its job. -/
theorem Step.stream_came {a : Act} (h : Step s a s') {j : JobId} {t' : Tracked}
    (ht' : s'.tracked j = some t') {i : SubId} {f' : Forwarder}
    (hf' : t'.served.fwds i = some f') :
    (∃ t f, s.tracked j = some t ∧ t.served.fwds i = some f) ∨
      ∃ user, s.calls i = some { user, pc := .waiting .logs j } := by
  rcases h.moves ht' with ⟨t, ht, hm⟩ | ⟨-, child, user, rfl⟩
  · cases hm with
    | stay he => exact .inl ⟨t, f', ht, he ▸ hf'⟩
    | task _ hint hs =>
      rcases Served.fwd_came hs hf' with ⟨f, hf⟩ | rfl
      · exact .inl ⟨t, f, ht, hf⟩
      · cases hint
    | call _ hstep =>
      obtain ⟨f, hf⟩ := hstep.came hf'
      exact .inl ⟨t, f, ht, hf⟩
    | @stream c user _ hc hs =>
      rcases Served.fwd_came hs hf' with ⟨f, hf⟩ | he
      · exact .inl ⟨t, f, ht, hf⟩
      · cases he
        exact .inr ⟨user, hc⟩
  · cases hf'

end Coord

/-! ## Streams and requests -/

namespace Server

variable {CertificateDer : Type} {x509 : X509Parser CertificateDer} {s s' : Server}

/-- The streams of the jobs, with the requests they answer. -/
def Streams (x509 : X509Parser CertificateDer) (acts : List (Act CertificateDer)) (s : Server) :
    Prop :=
  ∀ j t i f, s.coord.tracked j = some t → t.served.fwds i = some f →
    ∃ req res ctx, .request i req (.job .logs j.val) res ∈ acts ∧ context x509 req = .ok ctx ∧
      t.job.user = ctx.user

/-- A waiting `logs` answers a request of the owner of its job. -/
theorem Asked.logs {acts : List (Act CertificateDer)} (h : Asked x509 acts s)
    (hi : s.coord.Inv) {i : SubId} {user : User} {j : JobId} {t : Tracked}
    (hc : s.coord.calls i = some { user, pc := .waiting .logs j })
    (ht : s.coord.tracked j = some t) :
    ∃ req res ctx, .request i req (.job .logs j.val) res ∈ acts ∧ context x509 req = .ok ctx ∧
      t.job.user = ctx.user := by
  obtain ⟨req, msg, res, hmem⟩ := h.call i _ hc
  rcases h.request i req msg res hmem with ⟨st, -, -, hnone⟩ | ⟨ctx, call, hctx, -, hc', hu, ha⟩
  · rw [hnone] at hc
    cases hc
  · obtain rfl := Option.some.inj (hc.symm.trans hc')
    obtain rfl : msg = .job .logs j.val := ha
    exact ⟨req, res, ctx, hmem, hctx, (hi.waiting_user hc ht).trans hu⟩

theorem Streams.step {acts : List (Act CertificateDer)} (h : Streams x509 acts s)
    (hasked : Asked x509 acts s) (hi : s.coord.Inv) {a : Act CertificateDer}
    (hs : s.step x509 a = some s') : Streams x509 (acts ++ [a]) s' := by
  have goOn : ∀ {b : Coord.Act} {coord : Coord}, s.coord.step b = some coord → ∀ j t' i f',
      coord.tracked j = some t' → t'.served.fwds i = some f' →
      ∃ req res ctx, .request i req (.job .logs j.val) res ∈ acts ∧ context x509 req = .ok ctx ∧
        t'.job.user = ctx.user := by
    intro b coord hcoord j t' i f' ht' hf'
    have hstep := Coord.step_of hcoord
    -- the owner of the job stays the same
    have owner : ∀ t, s.coord.tracked j = some t → t'.job.user = t.job.user := by
      intro t ht
      obtain ⟨t₁, ht₁, hm⟩ := hstep.stays ht
      obtain rfl : t' = t₁ := Option.some.inj (ht'.symm.trans ht₁)
      exact hi.user_eq ht hm.reachable
    rcases hstep.stream_came ht' hf' with ⟨t, f, ht, hf⟩ | ⟨user, hc⟩
    · obtain ⟨req, res, ctx, hmem, hctx, hu⟩ := h j t i f ht hf
      exact ⟨req, res, ctx, hmem, hctx, (owner t ht).trans hu⟩
    · obtain ⟨t, ht, -⟩ := hi.known i _ hc
      obtain ⟨req, res, ctx, hmem, hctx, hu⟩ := hasked.logs hi hc ht
      exact ⟨req, res, ctx, hmem, hctx, (owner t ht).trans hu⟩
  have later : ∀ {coord : Coord}, (∀ j t' i f', coord.tracked j = some t' →
      t'.served.fwds i = some f' → ∃ req res ctx, .request i req (.job .logs j.val) res ∈ acts ∧
        context x509 req = .ok ctx ∧ t'.job.user = ctx.user) →
      Streams x509 (acts ++ [a]) { s with coord } := by
    intro coord hgo j t' i f' ht' hf'
    obtain ⟨req, res, ctx, hmem, hrest⟩ := hgo j t' i f' ht' hf'
    exact ⟨req, res, ctx, List.mem_append_left _ hmem, hrest⟩
  cases a with
  | request c req msg res =>
    obtain ⟨-, ⟨st, -, -, rfl⟩ | ⟨ctx, coord, -, hcoord, rfl⟩⟩ := step_request hs
    · exact later h
    · exact later (goOn hcoord)
  | coord b =>
    obtain ⟨-, coord, hcoord, rfl⟩ := step_coord hs
    exact later (goOn hcoord)

/-- Every log stream of a job answers a `logs` request for this job, whose only certificate has the
owner of the job as its displayed subject. What the stream has handed over is at each moment, for
stdout and for stderr, a beginning of what the child of the job has written there. -/
theorem streams_owned {acts : List (Act CertificateDer)}
    (hr : Lts.run (step x509) init acts = some s) {j : JobId} {t : Tracked} {i : SubId}
    {f : Forwarder} (ht : s.coord.tracked j = some t) (hf : t.served.fwds i = some f) :
    (∃ req res cert n, .request i req (.job .logs j.val) res ∈ acts ∧
      req.peerCerts = some [cert] ∧ x509.subject cert = .ok n ∧
      t.job.user.id = x509.toString n) ∧
    ∀ k, logBytes k f.got <+: (t.served.pl.output k).pipe.written := by
  obtain ⟨hreach, -⟩ := Asked.run hr
  have hstreams : Streams x509 acts s := by
    refine run_induct (motive := Streams x509) (fun j t i f ht => by cases ht) ?_ hr
    intro as s a s' has h hs
    obtain ⟨hreach, hasked⟩ := Asked.run has
    exact h.step hasked (.reachable hreach) hs
  refine ⟨?_, fun k => ?_⟩
  · obtain ⟨req, res, ctx, hmem, hctx, hu⟩ := hstreams j t i f ht hf
    obtain ⟨cert, n, hone, hn, hid⟩ := context_ok hctx
    exact ⟨req, res, cert, n, hmem, hone, hn, by rw [hu, hid]⟩
  · obtain ⟨user, pid, now, acts', hi, hex, hg, -⟩ :=
      ((Coord.Inv.reachable hreach).jobs j t ht).parts
    have hlog := logBytes_mono (k := k) (Served.items_of_exact hi hex hf).1
    rw [Served.logBytes_items] at hlog
    exact hlog.trans (hg.bytes.part k)

/-- A call of alice by its request. -/
def ofAlice : Coord.Act → Act X509Name
  | .call c _ op j => .request c ⟨some [alice], none⟩ (.job op j.val) (.error .noPid)
  | a => .coord a

/-- alice starts a job, and reads the one byte that it writes. -/
def readRun : List (Act X509Name) :=
  [.request 0 ⟨some [alice], none⟩ (.spawn "sleep") (.ok ⟨⟨"job"⟩, ⟨7⟩, ⟨1⟩⟩),
      .coord (.insert 0)] ++
    ((Served.logsRun 1 104).map (Coord.ofServed ⟨"job"⟩)).map ofAlice

theorem streams_owned_readRun : ∃ s t f, Lts.run (step unescaped) init readRun = some s ∧
    s.coord.tracked ⟨"job"⟩ = some t ∧ t.served.fwds 1 = some f ∧ f.got ≠ [] ∧
    ∃ req res cert n, .request 1 req (.job .logs "job") res ∈ readRun ∧
      req.peerCerts = some [cert] ∧ unescaped.subject cert = .ok n ∧
      t.job.user.id = unescaped.toString n := by
  have hrun : ((Lts.run (step unescaped) init readRun).bind fun s =>
      (s.coord.tracked ⟨"job"⟩).bind fun t => (t.served.fwds 1).map fun f => f.got.isEmpty) =
      some false := by decide +kernel
  obtain ⟨s, hs, hrun⟩ := Option.bind_eq_some_iff.1 hrun
  obtain ⟨t, ht, hrun⟩ := Option.bind_eq_some_iff.1 hrun
  obtain ⟨f, hf, hgot⟩ := Option.map_eq_some_iff.1 hrun
  exact ⟨s, t, f, hs, ht, hf, by simpa using hgot, (streams_owned hs ht hf).1⟩

end Server

end JobRunner
