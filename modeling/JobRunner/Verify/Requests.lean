import JobRunner.Verify.Broadcast

/-!
# The request channel of a broadcaster

The sender handles of `req_tx`, by owner: the task itself, the tracker, and every `stream` call
that has not ended. The task gives its own up only when it returns, and returns only after both
its receivers have ended, so it never sees the end of its requests (`Requests.no_reqEnd`).
-/

namespace JobRunner

open Mpsc

/-- A `stream` call that is still going on. It owns a clone of the broadcaster. -/
def Sub.calling : Sub → Bool
  | .sending => true
  | .queued waiting => waiting
  | _ => false

theorem Sub.calling_offer (sub : Sub) (ev : FrameEvent) :
    (sub.offer ev).2.calling = sub.calling := by
  cases sub with
  | live r => rcases r.accept_cases ev with ⟨-, -, he⟩ | ⟨-, he⟩ <;> simp only [offer, he, calling]
  | _ => rfl

theorem Sub.calling_dropHandle (sub : Sub) : sub.dropHandle.calling = sub.calling := by
  cases sub <;> rfl

namespace Broadcaster

/-- The owners of the handles on `req_tx`. -/
structure Requests (s : Broadcaster) : Prop where
  rxOk : s.reqRxOk = true
  rxOpen : s.reqCh.rxOpen = true
  cap : s.reqCh.cap = 1
  senders : ∃ calls : List SubId, calls.Nodup ∧ (∀ i, i ∈ calls ↔ (s.subs i).calling = true) ∧
    s.reqCh.senders = 1 + s.handle.toNat + calls.length

namespace Requests

variable {s s' : Broadcaster}

theorem start : Requests Broadcaster.start where
  rxOk := rfl
  rxOpen := rfl
  cap := rfl
  senders := ⟨[], List.nodup_nil, (fun i => by simp [Broadcaster.start, Sub.calling]), rfl⟩

/-- The task's receiver of requests never ends. -/
theorem no_reqEnd (h : Requests s) : s.step .reqEnd = none := by
  cases hs : s.step .reqEnd with
  | none => rfl
  | some s' =>
    obtain ⟨-, -, hz, -⟩ := step_reqEnd hs
    obtain ⟨calls, -, -, hn⟩ := h.senders
    omega

theorem loopTop_eq (h : s.reqRxOk = true) : s.loopTop = s := by
  rcases loopTop_cases s with he | ⟨-, hr, -⟩
  · exact he
  · rw [h] at hr
    cases hr

/-- A step that leaves `req_tx` and the `stream` calls alone. -/
theorem of_same (h : Requests s) (hrx : s'.reqRxOk = s.reqRxOk) (hch : s'.reqCh = s.reqCh)
    (hh : s'.handle = s.handle) (hsub : ∀ i, (s'.subs i).calling = (s.subs i).calling) :
    Requests s' := by
  obtain ⟨calls, hnd, hmem, hn⟩ := h.senders
  refine ⟨by rw [hrx]; exact h.rxOk, by rw [hch]; exact h.rxOpen, by rw [hch]; exact h.cap,
    calls, hnd, fun i => ?_, by rw [hch, hh]; exact hn⟩
  rw [hsub i]
  exact hmem i

/-- The call of `i` begins. -/
theorem begin_call {calls : List SubId} {subs : SubId → Sub} {i : SubId} (sub : Sub)
    (hnd : calls.Nodup) (hmem : ∀ j, j ∈ calls ↔ (subs j).calling = true)
    (hold : (subs i).calling = false) (hnew : sub.calling = true) :
    (i :: calls).Nodup ∧
    ∀ j, j ∈ i :: calls ↔ (Function.update subs i sub j).calling = true := by
  have hni : i ∉ calls := fun hi => by
    rw [hmem, hold] at hi
    cases hi
  refine ⟨List.nodup_cons.2 ⟨hni, hnd⟩, fun j => ?_⟩
  by_cases hj : j = i
  · subst hj
    simp [hnew]
  · simp [hj, hmem]

/-- The call of `i` ends. -/
theorem end_call {calls : List SubId} {subs : SubId → Sub} {i : SubId} (sub : Sub)
    (hnd : calls.Nodup) (hmem : ∀ j, j ∈ calls ↔ (subs j).calling = true)
    (hold : (subs i).calling = true) (hnew : sub.calling = false) :
    (calls.erase i).Nodup ∧
    (∀ j, j ∈ calls.erase i ↔ (Function.update subs i sub j).calling = true) ∧
    (calls.erase i).length + 1 = calls.length := by
  have hi : i ∈ calls := (hmem i).2 hold
  refine ⟨hnd.erase i, fun j => ?_, ?_⟩
  · rw [hnd.mem_erase_iff]
    by_cases hj : j = i
    · subst hj
      simp [hnew]
    · simp [hj, hmem]
  · have hpos : 0 < calls.length := List.length_pos_of_mem hi
    rw [List.length_erase_of_mem hi]
    omega

/-- Another phase of the same call, or of none. -/
theorem calling_update {subs : SubId → Sub} {i : SubId} {sub : Sub}
    (h : sub.calling = (subs i).calling) (j : SubId) :
    (Function.update subs i sub j).calling = (subs j).calling := by
  by_cases hj : j = i
  · subst hj
    simpa using h
  · simp [hj]

theorem step (h : Requests s) (hi : Inv s) {a : Act} (hs : s.step a = some s') : Requests s' := by
  obtain ⟨calls, hnd, hmem, hn⟩ := h.senders
  cases a with
  | frame =>
    obtain ⟨-, ⟨ev, q, -, rfl⟩ | ⟨-, -, rfl⟩⟩ := step_frame hs
    · refine h.of_same rfl rfl rfl fun i => ?_
      rw [(onFrame_sub hi _ ev i).2]
      split
      · exact Sub.calling_offer _ _
      · rfl
    · refine h.of_same ?_ ?_ ?_ fun i => ?_
      · rw [onFrame, loopTop_eq (by exact h.rxOk)]
      · rw [onFrame, loopTop_eq (by exact h.rxOk)]
      · rw [onFrame, loopTop_eq (by exact h.rxOk)]
      · rw [(onFrame_end_sub hi _ i).2.2.2]
        split
        · exact Sub.calling_dropHandle _
        · rfl
  | req i =>
    obtain ⟨-, q, hq, ⟨hsub, -, rfl⟩ | ⟨hsub, -, rfl⟩ | ⟨hsub, rfl⟩⟩ := step_req hs
    · obtain ⟨hnd', hmem', hlen⟩ := end_call (.live (Relay.start s.frames)) hnd hmem
        (by rw [hsub]; rfl) rfl
      refine ⟨h.rxOk, h.rxOpen, h.cap, _, hnd', hmem', ?_⟩
      change s.reqCh.senders - 1 = 1 + s.handle.toNat + _
      omega
    · obtain ⟨hnd', hmem', hlen⟩ := end_call (.live (Relay.start s.frames).dropHandle) hnd
        hmem (by rw [hsub]; rfl) rfl
      refine ⟨h.rxOk, h.rxOpen, h.cap, _, hnd', hmem', ?_⟩
      change s.reqCh.senders - 1 = 1 + s.handle.toNat + _
      omega
    · refine ⟨h.rxOk, h.rxOpen, h.cap, calls, hnd, fun j => ?_, hn⟩
      rw [hmem, calling_update (by rw [hsub]; rfl)]
  | reqEnd =>
    rw [h.no_reqEnd] at hs
    cases hs
  | subscribe i =>
    obtain ⟨-, hsub, rfl⟩ := step_subscribe hs
    obtain ⟨hnd', hmem'⟩ := begin_call .sending hnd hmem (by rw [hsub]; rfl) rfl
    refine ⟨h.rxOk, h.rxOpen, h.cap, _, hnd', hmem', ?_⟩
    change s.reqCh.senders + 1 = 1 + s.handle.toNat + (i :: calls).length
    rw [hn, List.length_cons]
    omega
  | sendReq i =>
    obtain ⟨hsub, ⟨-, -, rfl⟩ | ⟨hc, -⟩⟩ := step_sendReq hs
    · refine ⟨h.rxOk, h.rxOpen, h.cap, calls, hnd, fun j => ?_, hn⟩
      rw [hmem, calling_update (by rw [hsub]; rfl)]
    · rw [h.rxOpen] at hc
      cases hc
  | giveUp i =>
    obtain ⟨sub, rfl, hcase⟩ := step_giveUp hs
    have hold : (s.subs i).calling = true := by
      rcases hcase with ⟨hsub, -⟩ | ⟨hsub, -⟩ <;> rw [hsub] <;> rfl
    have hnew : sub.calling = false := by
      rcases hcase with ⟨-, rfl⟩ | ⟨-, rfl⟩ <;> rfl
    obtain ⟨hnd', hmem', hlen⟩ := end_call sub hnd hmem hold hnew
    refine ⟨h.rxOk, h.rxOpen, h.cap, _, hnd', hmem', ?_⟩
    change s.reqCh.senders - 1 = 1 + s.handle.toNat + _
    omega
  | relay i a =>
    obtain ⟨r, r', hr, -, rfl⟩ := step_relay hs
    exact h.of_same rfl rfl rfl (calling_update (by rw [hr]; rfl))
  | dropHandle =>
    obtain ⟨hh, rfl⟩ := step_dropHandle hs
    refine ⟨h.rxOk, h.rxOpen, h.cap, calls, hnd, hmem, ?_⟩
    rw [hh] at hn
    rw [Chan.dropTx_senders, hn]
    simp only [Bool.toNat_true, Bool.toNat_false]
    omega

theorem openStep (h : Requests s) (hi : Inv s) {a : OpenAct} (hs : s.openStep a = some s') :
    Requests s' := by
  cases a with
  | act a => exact h.step hi hs
  | offer ev =>
    obtain ⟨-, ⟨-, -, rfl⟩ | ⟨-, rfl⟩⟩ := openStep_offer hs
    · exact h.of_same rfl rfl rfl fun _ => rfl
    · exact h
  | closeSource =>
    obtain ⟨-, rfl⟩ := openStep_closeSource hs
    exact h.of_same rfl rfl rfl fun _ => rfl

theorem reachable (h : Lts.Reachable Broadcaster.openStep Broadcaster.start s) : Requests s :=
  (h.invariant (I := fun s => Inv s ∧ Requests s) ⟨.start, .start⟩
    fun _ _ _ hi hs => ⟨hi.1.openStep hs, hi.2.openStep hi.1 hs⟩).2

end Requests

end Broadcaster

end JobRunner
