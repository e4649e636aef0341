import Mathlib.Data.List.Induction

/-!
# Labelled transition systems given by a step function

A system is a partial step function `step : σ → α → Option σ`: `step s a = none` says that the
label `a` is not enabled in `s`. Nondeterminism (the scheduler, the environment) is the choice of
the label, so a run is determined by its list of labels (`run`). The file collects the rules the
rest of a development needs:

* induction along a run, with the labels seen so far (`run_induct`), and the invariant rule
  (`Reachable.invariant`);
* progress along a measure (`run_settles`), and runs bounded by one (`run_length_le`);
* the potential method, for the number of some labels in a run (`run_countP_le`);
* labels met in given states (`met_snoc`);
* projection onto a component (`run_project`), and the runs of one (`run_embed`);
* refinement: the labels of another system that a run stands for (`trace`, `run_refine`);
* weak simulation, where two systems show some of their labels (`run_simulate`);
* deletion of the labels of one party (`run_filter`);
* unwinding: two runs that show one observer the same labels leave it with the same view
  (`run_unwind`).
-/

namespace Lts

universe u v w

variable {σ : Type u} {α : Type v} {τ : Type w}

/-- The state after the labels `as`, if each is enabled where it is taken. -/
def run (step : σ → α → Option σ) : σ → List α → Option σ
  | s, [] => some s
  | s, a :: as => (step s a).bind fun s' => run step s' as

/-- `s` is reached from `s₀` by some run. -/
def Reachable (step : σ → α → Option σ) (s₀ s : σ) : Prop :=
  ∃ as, run step s₀ as = some s

section Run

variable {step : σ → α → Option σ}

@[simp] theorem run_nil (s : σ) : run step s [] = some s := rfl

theorem run_cons_iff {s s' : σ} {a : α} {as : List α} :
    run step s (a :: as) = some s' ↔ ∃ t, step s a = some t ∧ run step t as = some s' := by
  simp only [run, Option.bind_eq_some_iff]

@[simp] theorem run_single {s s' : σ} {a : α} : run step s [a] = some s' ↔ step s a = some s' := by
  simp [run]

theorem run_append_iff {s s' : σ} {as bs : List α} :
    run step s (as ++ bs) = some s' ↔ ∃ t, run step s as = some t ∧ run step t bs = some s' := by
  induction as generalizing s with
  | nil => simp
  | cons a as ih =>
    simp only [List.cons_append, run_cons_iff, ih]
    constructor
    · rintro ⟨t, ht, t', h1, h2⟩
      exact ⟨t', ⟨t, ht, h1⟩, h2⟩
    · rintro ⟨t', ⟨t, ht, h1⟩, h2⟩
      exact ⟨t, ht, t', h1, h2⟩

theorem run_snoc_iff {s s' : σ} {as : List α} {a : α} :
    run step s (as ++ [a]) = some s' ↔ ∃ t, run step s as = some t ∧ step t a = some s' := by
  rw [run_append_iff]
  simp only [run_cons_iff, run_nil, Option.some.injEq, exists_eq_right]

theorem run_append_of {s t s' : σ} {as bs : List α} (h1 : run step s as = some t)
    (h2 : run step t bs = some s') : run step s (as ++ bs) = some s' :=
  run_append_iff.2 ⟨t, h1, h2⟩

/-- Induction along a run, the labels taken so far kept in the motive. -/
theorem run_induct {s₀ : σ} {motive : List α → σ → Prop} (init : motive [] s₀)
    (next : ∀ as s a s', run step s₀ as = some s → motive as s → step s a = some s' →
      motive (as ++ [a]) s') :
    ∀ {as : List α} {s : σ}, run step s₀ as = some s → motive as s := by
  intro as
  induction as using List.reverseRecOn with
  | nil =>
    intro s h
    obtain rfl : s₀ = s := by simpa using h
    exact init
  | append_singleton as a ih =>
    intro s h
    obtain ⟨t, ht, hstep⟩ := run_snoc_iff.1 h
    exact next as t a s ht (ih ht) hstep

/-- If from every state of `I` outside `Q` some step among the labels of `P` stays in `I` and lowers
a measure, then some run of such labels leads to `Q`. -/
theorem run_settles {I Q : σ → Prop} {P : α → Prop} (μ : σ → Nat)
    (progress : ∀ s, I s → ¬Q s → ∃ a s', P a ∧ step s a = some s' ∧ I s' ∧ μ s' < μ s) {s : σ}
    (hs : I s) : ∃ as s', (∀ a ∈ as, P a) ∧ run step s as = some s' ∧ I s' ∧ Q s' := by
  generalize hn : μ s = n
  induction n using Nat.strongRecOn generalizing s with
  | ind n ih =>
    by_cases hq : Q s
    · exact ⟨[], s, by simp, rfl, hs, hq⟩
    · obtain ⟨a, t, ha, hstep, ht, hlt⟩ := progress s hs hq
      obtain ⟨as, s', has, hr, hs', hq'⟩ := ih (μ t) (hn ▸ hlt) ht rfl
      exact ⟨a :: as, s', List.forall_mem_cons.2 ⟨ha, has⟩, run_cons_iff.2 ⟨t, hstep, hr⟩, hs', hq'⟩

namespace Reachable

theorem refl (s : σ) : Reachable step s s := ⟨[], rfl⟩

theorem single {s s' : σ} {a : α} (h : step s a = some s') : Reachable step s s' :=
  ⟨[a], run_cons_iff.2 ⟨s', h, rfl⟩⟩

theorem tail {s₀ s s' : σ} {a : α} (h : Reachable step s₀ s) (hs : step s a = some s') :
    Reachable step s₀ s' :=
  let ⟨as, has⟩ := h
  ⟨as ++ [a], run_snoc_iff.2 ⟨s, has, hs⟩⟩

theorem trans {s₀ s s' : σ} (h : Reachable step s₀ s) (h' : Reachable step s s') :
    Reachable step s₀ s' :=
  let ⟨as, has⟩ := h
  let ⟨bs, hbs⟩ := h'
  ⟨as ++ bs, run_append_of has hbs⟩

/-- What holds initially and is kept by every step holds in every reachable state. -/
theorem invariant {I : σ → Prop} {s₀ s : σ} (h : Reachable step s₀ s) (init : I s₀)
    (next : ∀ s a s', I s → step s a = some s' → I s') : I s := by
  obtain ⟨as, has⟩ := h
  exact run_induct (motive := fun _ s => I s) init (fun _ s a s' _ hs ha => next s a s' hs ha) has

/-- If from every state of `I` outside `Q` some step stays in `I` and lowers a measure, then some
run leads to `Q`. -/
theorem settles {I Q : σ → Prop} (μ : σ → Nat)
    (progress : ∀ s, I s → ¬Q s → ∃ a s', step s a = some s' ∧ I s' ∧ μ s' < μ s) {s : σ}
    (hs : I s) : ∃ s', Reachable step s s' ∧ I s' ∧ Q s' := by
  obtain ⟨as, s', -, hr, hs', hq⟩ := run_settles (P := fun _ => True) μ
    (fun s hs hq => let ⟨a, s', h⟩ := progress s hs hq; ⟨a, s', trivial, h⟩) hs
  exact ⟨s', ⟨as, hr⟩, hs', hq⟩

end Reachable

/-- If every step among the labels of `P` stays in `I` and lowers a measure, a run of such labels is
no longer than the measure. -/
theorem run_length_le {I : σ → Prop} {P : α → Prop} (μ : σ → Nat)
    (next : ∀ s a s', I s → P a → step s a = some s' → I s' ∧ μ s' < μ s) :
    ∀ {as : List α} {s s' : σ}, I s → (∀ a ∈ as, P a) → run step s as = some s' →
      as.length + μ s' ≤ μ s := by
  intro as
  induction as with
  | nil =>
    intro s s' _ _ hr
    obtain rfl : s = s' := by simpa using hr
    simp
  | cons a as ih =>
    intro s s' hs hP hr
    obtain ⟨t, ht, hr⟩ := run_cons_iff.1 hr
    obtain ⟨hI, hlt⟩ := next s a t hs (hP a List.mem_cons_self) ht
    have hle := ih hI (fun b hb => hP b (List.mem_cons_of_mem _ hb)) hr
    rw [List.length_cons]
    omega

/-- The potential method. If every step pays for itself out of a potential `μ`, where a label of
`P` costs one and `credit` tells what the environment has added so far, then the labels of `P` in a
run are bounded by the potential it starts with and the credit it has been given. -/
theorem run_countP_le {I : σ → Prop} (P : α → Bool) (μ credit : σ → Nat)
    (next : ∀ s a s', I s → step s a = some s' → I s' ∧
      μ s' + (if P a then 1 else 0) + credit s ≤ μ s + credit s') :
    ∀ {as : List α} {s s' : σ}, I s → run step s as = some s' →
      μ s' + as.countP P + credit s ≤ μ s + credit s' := by
  intro as
  induction as with
  | nil =>
    intro s s' _ hr
    obtain rfl : s = s' := by simpa using hr
    simp
  | cons a as ih =>
    intro s s' hs hr
    obtain ⟨t, ht, hr⟩ := run_cons_iff.1 hr
    obtain ⟨hI, hpay⟩ := next s a t hs ht
    have hrest := ih hI hr
    rw [List.countP_cons]
    omega

end Run

/-! ## Labels met on the way -/

section Met

variable {step : σ → α → Option σ}

/-- Some label of the run is taken in a state of which `P` holds with it. -/
def Met (step : σ → α → Option σ) (P : σ → α → Prop) (s₀ : σ) (as : List α) : Prop :=
  ∃ bs a cs s, as = bs ++ a :: cs ∧ run step s₀ bs = some s ∧ P s a

theorem not_met_nil {P : σ → α → Prop} {s₀ : σ} : ¬Met step P s₀ [] := by
  rintro ⟨bs, a, cs, s, he, -⟩
  simp at he

/-- It is a label met before, or the last one. -/
theorem met_snoc {P : σ → α → Prop} {s₀ s : σ} {as : List α} {a : α}
    (hr : run step s₀ as = some s) : Met step P s₀ (as ++ [a]) ↔ Met step P s₀ as ∨ P s a := by
  constructor
  · rintro ⟨bs, b, cs, t, he, ht, hP⟩
    rcases List.eq_nil_or_concat cs with rfl | ⟨cs, c, rfl⟩
    · obtain ⟨rfl, hab⟩ := List.append_inj' he rfl
      obtain rfl : s = t := Option.some.inj (hr.symm.trans ht)
      rw [List.singleton_inj.1 hab]
      exact .inr hP
    · rw [List.concat_eq_append, ← List.cons_append, ← List.append_assoc] at he
      obtain ⟨rfl, -⟩ := List.append_inj' he rfl
      exact .inl ⟨bs, b, cs, t, rfl, ht, hP⟩
  · rintro (⟨bs, b, cs, t, rfl, ht, hP⟩ | hP)
    · exact ⟨bs, b, cs ++ [a], t, by simp, ht, hP⟩
    · exact ⟨as, a, [], s, rfl, hr, hP⟩

theorem Met.append {P : σ → α → Prop} {s₀ : σ} {as : List α} (h : Met step P s₀ as)
    (bs : List α) : Met step P s₀ (as ++ bs) := by
  obtain ⟨ds, a, cs, s, rfl, hr, hP⟩ := h
  exact ⟨ds, a, cs ++ bs, s, by simp, hr, hP⟩

/-- The state it is taken in lies on the way. -/
theorem Met.on_the_way {P : σ → α → Prop} {s₀ s : σ} {as : List α} (h : Met step P s₀ as)
    (hr : run step s₀ as = some s) :
    ∃ t a, Reachable step s₀ t ∧ Reachable step t s ∧ P t a := by
  obtain ⟨bs, a, cs, t, rfl, ht, hP⟩ := h
  obtain ⟨t', ht', hrest⟩ := run_append_iff.1 hr
  obtain rfl : t = t' := Option.some.inj (ht.symm.trans ht')
  exact ⟨t, a, ⟨bs, ht⟩, ⟨a :: cs, hrest⟩, hP⟩

/-- Labels of which `P` never holds do not matter. -/
theorem met_of_append {P : σ → α → Prop} {s₀ s : σ} {as bs : List α}
    (hr : run step s₀ (as ++ bs) = some s) (hbs : ∀ b ∈ bs, ∀ t, ¬P t b)
    (h : Met step P s₀ (as ++ bs)) : Met step P s₀ as := by
  induction bs using List.reverseRecOn generalizing s with
  | nil => rwa [List.append_nil] at h
  | append_singleton bs b ih =>
    rw [← List.append_assoc] at hr h
    obtain ⟨t, ht, -⟩ := run_snoc_iff.1 hr
    apply ih ht fun c hc => hbs c (List.mem_append_left _ hc)
    rcases (met_snoc ht).1 h with h | hP
    · exact h
    · exact absurd hP (hbs b (by simp) t)

end Met

/-! ## Components -/

section Project

variable {β : Type*} {step : σ → α → Option σ} {step' : τ → β → Option τ}

/-- If the component follows every step of a system by a run of its own, it follows every run of the
system. `I` is an invariant the condition may use. -/
theorem run_project {I : σ → Prop} (f : σ → τ)
    (hI : ∀ s a s', I s → step s a = some s' → I s')
    (h : ∀ s a s', I s → step s a = some s' → Reachable step' (f s) (f s')) :
    ∀ {as : List α} {s s' : σ}, I s → run step s as = some s' → Reachable step' (f s) (f s') := by
  intro as
  induction as with
  | nil =>
    intro s s' _ hr
    obtain rfl : s = s' := by simpa using hr
    exact Reachable.refl _
  | cons a as ih =>
    intro s s' hs hr
    obtain ⟨t, ht, hr⟩ := run_cons_iff.1 hr
    have hfirst : Reachable step' (f s) (f t) := h s a t hs ht
    have hrest : Reachable step' (f t) (f s') := ih (hI s a t hs ht) hr
    exact hfirst.trans hrest

theorem Reachable.project {I : σ → Prop} (f : σ → τ)
    (hI : ∀ s a s', I s → step s a = some s' → I s')
    (h : ∀ s a s', I s → step s a = some s' → Reachable step' (f s) (f s'))
    {s s' : σ} (hs : I s) (hr : Reachable step s s') : Reachable step' (f s) (f s') :=
  let ⟨_, has⟩ := hr
  run_project f hI h hs has

/-- If the system takes the labels of `P` as its component does, it takes a run of them as the
component does. -/
theorem run_embed {P : α → Prop} (f : σ → τ) (g : α → β)
    (h : ∀ s a s', P a → step s a = some s' → step' (f s) (g a) = some (f s')) :
    ∀ {as : List α} {s s' : σ}, (∀ a ∈ as, P a) → run step s as = some s' →
      run step' (f s) (as.map g) = some (f s') := by
  intro as
  induction as with
  | nil =>
    intro s s' _ hr
    obtain rfl : s = s' := by simpa using hr
    rfl
  | cons a as ih =>
    intro s s' hP hr
    obtain ⟨t, ht, hr⟩ := run_cons_iff.1 hr
    have hfirst := h s a t (hP a List.mem_cons_self) ht
    have hrest := ih (fun b hb => hP b (List.mem_cons_of_mem _ hb)) hr
    exact run_cons_iff.2 ⟨f t, hfirst, hrest⟩

end Project

/-! ## Refinement -/

section Refine

variable {β : Type*} {step : σ → α → Option σ} {step' : τ → β → Option τ}

/-- The labels of another system that a run stands for, where `lab` tells those of one step. -/
def trace (step : σ → α → Option σ) (lab : σ → α → σ → List β) : σ → List α → List β
  | _, [] => []
  | s, a :: as =>
    match step s a with
    | none => []
    | some s' => lab s a s' ++ trace step lab s' as

theorem trace_cons {lab : σ → α → σ → List β} {s s' : σ} {a : α} {as : List α}
    (h : step s a = some s') :
    trace step lab s (a :: as) = lab s a s' ++ trace step lab s' as := by
  simp only [trace, h]

/-- If the image of every step is a run of the other system with the labels the step stands for,
the image of every run is one. `I` is an invariant the condition may use. -/
theorem run_refine {I : σ → Prop} (f : σ → τ) (lab : σ → α → σ → List β)
    (hI : ∀ s a s', I s → step s a = some s' → I s')
    (h : ∀ s a s', I s → step s a = some s' → run step' (f s) (lab s a s') = some (f s')) :
    ∀ {as : List α} {s s' : σ}, I s → run step s as = some s' →
      run step' (f s) (trace step lab s as) = some (f s') := by
  intro as
  induction as with
  | nil =>
    intro s s' _ hr
    obtain rfl : s = s' := by simpa using hr
    rfl
  | cons a as ih =>
    intro s s' hs hr
    obtain ⟨t, ht, hr⟩ := run_cons_iff.1 hr
    rw [trace_cons ht]
    exact run_append_of (h s a t hs ht) (ih (hI s a t hs ht) hr)

end Refine

/-! ## Simulation -/

section Simulate

variable {β γ : Type*} {step : σ → α → Option σ} {step' : τ → β → Option τ}

/-- If in related states the second system can follow each label of `P` by a run that shows the same
and ends in a related state, it can follow a run of such labels. -/
theorem run_simulate {R : σ → τ → Prop} {P : α → Prop} (shown : α → Option γ)
    (shown' : β → Option γ)
    (h : ∀ s t a s', R s t → P a → step s a = some s' →
      ∃ bs t', run step' t bs = some t' ∧ bs.filterMap shown' = (shown a).toList ∧ R s' t') :
    ∀ {as : List α} {s s' : σ} {t : τ}, R s t → (∀ a ∈ as, P a) → run step s as = some s' →
      ∃ bs t', run step' t bs = some t' ∧ bs.filterMap shown' = as.filterMap shown ∧ R s' t' := by
  intro as
  induction as with
  | nil =>
    intro s s' t hR _ hr
    obtain rfl : s = s' := by simpa using hr
    exact ⟨[], t, rfl, rfl, hR⟩
  | cons a as ih =>
    intro s s' t hR hP hr
    obtain ⟨s₁, hs, hr⟩ := run_cons_iff.1 hr
    obtain ⟨bs, t₁, hbs, hshow, hR⟩ := h s t a s₁ hR (hP a List.mem_cons_self) hs
    obtain ⟨bs', t', hbs', hshow', hR⟩ := ih hR (fun b hb => hP b (List.mem_cons_of_mem _ hb)) hr
    refine ⟨bs ++ bs', t', run_append_of hbs hbs', ?_, hR⟩
    rw [List.filterMap_append, hshow, hshow', ← List.singleton_append, List.filterMap_append]
    cases hv : shown a <;> simp [hv]

end Simulate

/-! ## Deleting labels -/

section Filter

variable {step : σ → α → Option σ}

/-- If `R` lets the second system follow every kept label and stay put at every other one, it
follows the whole run with the other labels deleted. -/
theorem run_filter {R : σ → σ → Prop} (keep : α → Bool)
    (hkeep : ∀ s t a s', R s t → keep a = true → step s a = some s' →
      ∃ t', step t a = some t' ∧ R s' t')
    (hdrop : ∀ s t a s', R s t → keep a = false → step s a = some s' → R s' t) :
    ∀ {as : List α} {s t s' : σ}, R s t → run step s as = some s' →
      ∃ t', run step t (as.filter keep) = some t' ∧ R s' t' := by
  intro as
  induction as with
  | nil =>
    intro s t s' hR hr
    obtain rfl : s = s' := by simpa using hr
    exact ⟨t, rfl, hR⟩
  | cons a as ih =>
    intro s t s' hR hr
    obtain ⟨s₁, h1, hr⟩ := run_cons_iff.1 hr
    cases hk : keep a with
    | true =>
      obtain ⟨t₁, ht₁, hR₁⟩ := hkeep s t a s₁ hR hk h1
      obtain ⟨t', ht', hR'⟩ := ih hR₁ hr
      refine ⟨t', ?_, hR'⟩
      rw [List.filter_cons_of_pos hk]
      exact run_cons_iff.2 ⟨t₁, ht₁, ht'⟩
    | false =>
      rw [List.filter_cons_of_neg (by simp [hk])]
      exact ih (hdrop s t a s₁ hR hk h1) hr

end Filter

/-! ## Unwinding -/

section Unwind

variable {step : σ → α → Option σ} {V : Type*}

/-- The labels of a run that an observer takes part in, where whether it does may depend on the
state the label is taken in. -/
def observed (step : σ → α → Option σ) (sees : σ → α → Bool) : σ → List α → List α
  | _, [] => []
  | s, a :: as =>
    match step s a with
    | none => []
    | some s' => if sees s a then a :: observed step sees s' as else observed step sees s' as

theorem observed_cons {sees : σ → α → Bool} {s s' : σ} {a : α} {as : List α}
    (h : step s a = some s') :
    observed step sees s (a :: as) =
      if sees s a then a :: observed step sees s' as else observed step sees s' as := by
  simp only [observed, h]

/-- The unwinding theorem: a label the observer does not see leaves its view alone (`hlocal`), and
a label it sees changes equal views equally (`hview`). Then two runs with the same observed labels
end in the same view. `I` is an invariant both conditions may use. -/
theorem run_unwind {I : σ → Prop} (view : σ → V) (sees : σ → α → Bool)
    (hI : ∀ s a s', I s → step s a = some s' → I s')
    (hlocal : ∀ s a s', I s → sees s a = false → step s a = some s' → view s' = view s)
    (hview : ∀ s t a s' t', I s → I t → view s = view t → sees s a = true → sees t a = true →
      step s a = some s' → step t a = some t' → view s' = view t') :
    ∀ {as bs : List α} {s t s' t' : σ}, I s → I t → view s = view t →
      run step s as = some s' → run step t bs = some t' →
      observed step sees s as = observed step sees t bs → view s' = view t' := by
  intro as
  induction as with
  | nil =>
    intro bs
    induction bs with
    | nil =>
      intro s t s' t' _ _ hv hs ht _
      obtain rfl : s = s' := by simpa using hs
      obtain rfl : t = t' := by simpa using ht
      exact hv
    | cons b bs ihb =>
      intro s t s' t' his hit hv hs ht ho
      obtain ⟨t₁, h1, ht⟩ := run_cons_iff.1 ht
      rw [observed_cons h1] at ho
      cases hsee : sees t b with
      | true => simp [observed, hsee] at ho
      | false =>
        simp only [hsee, Bool.false_eq_true, if_false] at ho
        exact ihb his (hI _ _ _ hit h1) (hv.trans (hlocal _ _ _ hit hsee h1).symm) hs ht ho
  | cons a as iha =>
    intro bs
    induction bs with
    | nil =>
      intro s t s' t' his hit hv hs ht ho
      obtain ⟨s₁, h1, hs⟩ := run_cons_iff.1 hs
      rw [observed_cons h1] at ho
      cases hsee : sees s a with
      | true => simp [observed, hsee] at ho
      | false =>
        simp only [hsee, Bool.false_eq_true, if_false] at ho
        exact iha (hI _ _ _ his h1) hit ((hlocal _ _ _ his hsee h1).trans hv) hs ht ho
    | cons b bs ihb =>
      intro s t s' t' his hit hv hs ht ho
      obtain ⟨s₁, h1, hs'⟩ := run_cons_iff.1 hs
      obtain ⟨t₁, h2, ht'⟩ := run_cons_iff.1 ht
      cases hsa : sees s a with
      | false =>
        rw [observed_cons h1] at ho
        simp only [hsa, Bool.false_eq_true, if_false] at ho
        exact iha (hI _ _ _ his h1) hit ((hlocal _ _ _ his hsa h1).trans hv) hs' ht ho
      | true =>
        cases hsb : sees t b with
        | false =>
          rw [observed_cons h2] at ho
          simp only [hsb, Bool.false_eq_true, if_false] at ho
          exact ihb his (hI _ _ _ hit h2) (hv.trans (hlocal _ _ _ hit hsb h2).symm) hs ht' ho
        | true =>
          -- both observe a label here, so it is one label
          rw [observed_cons h1, observed_cons h2] at ho
          simp only [hsa, hsb, if_true, List.cons.injEq] at ho
          obtain ⟨rfl, ho⟩ := ho
          exact iha (hI _ _ _ his h1) (hI _ _ _ hit h2)
            (hview _ _ _ _ _ his hit hv hsa hsb h1 h2) hs' ht' ho

end Unwind

end Lts
