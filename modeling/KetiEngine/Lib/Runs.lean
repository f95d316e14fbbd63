import Mathlib.Data.List.Basic

/-!
# Runs — executions of a partial step function

A system is a step function `step s e` that gives the next state, or `none`
where event `e` cannot happen in `s`. A run is a list of events that can
happen one after the other. The rules here take what single steps do to what
runs do.
-/

namespace Runs

variable {σ τ ε α : Type*} {step : σ → ε → Option σ}

/-- The state after the events, if each of them can happen in turn. -/
def run (step : σ → ε → Option σ) (s : σ) (es : List ε) : Option σ :=
  es.foldlM step s

@[simp] theorem run_nil (s : σ) : run step s [] = some s := rfl

theorem run_cons (s : σ) (e : ε) (es : List ε) :
    run step s (e :: es) = (step s e).bind fun s' => run step s' es := rfl

theorem run_append (s : σ) (es es' : List ε) :
    run step s (es ++ es') = (run step s es).bind fun s' => run step s' es' :=
  List.foldlM_append

theorem run_cons_some {s t : σ} {e : ε} {es : List ε}
    (h : run step s (e :: es) = some t) :
    ∃ s', step s e = some s' ∧ run step s' es = some t := by
  rw [run_cons] at h
  exact Option.bind_eq_some_iff.mp h

/-- **Invariant rule**: what every permitted event keeps, every run of
permitted events keeps. -/
theorem run_invariant {I : σ → Prop} {ok : ε → Prop}
    (hstep : ∀ s e s', ok e → I s → step s e = some s' → I s') {s t : σ} {es : List ε}
    (hok : ∀ e ∈ es, ok e) (hs : I s) (hrun : run step s es = some t) : I t := by
  induction es generalizing s with
  | nil =>
    cases hrun
    exact hs
  | cons e es ih =>
    obtain ⟨s', hs', hrest⟩ := run_cons_some hrun
    exact ih (fun e' he' => hok e' (by simp [he'])) (hstep s e s' (hok e (by simp)) hs hs')
      hrest

/-- The invariant rule where every event is permitted. -/
theorem run_keeps {I : σ → Prop} (hstep : ∀ s e s', I s → step s e = some s' → I s')
    {s t : σ} {es : List ε} (hs : I s) (hrun : run step s es = some t) : I t :=
  run_invariant (fun s e s' (_ : True) => hstep s e s') (fun _ _ => trivial) hs hrun

/-- `P` holds of each event of the run and the state it happens in. -/
def Along (step : σ → ε → Option σ) (P : σ → ε → Prop) (s : σ) (es : List ε) : Prop :=
  ∀ es₁ e es₂ s₁, es = es₁ ++ e :: es₂ → run step s es₁ = some s₁ → P s₁ e

theorem along_cons {P : σ → ε → Prop} {s : σ} {e : ε} {es : List ε} :
    Along step P s (e :: es) ↔ P s e ∧ ∀ s', step s e = some s' → Along step P s' es := by
  constructor
  · intro h
    refine ⟨h [] e es s rfl rfl, ?_⟩
    rintro s' hs' es₁ f es₂ s₁ rfl hrun
    exact h (e :: es₁) f es₂ s₁ rfl (by rw [run_cons, hs']; exact hrun)
  · rintro ⟨hfirst, hrest⟩ es₁ f es₂ s₁ heq hrun
    cases es₁ with
    | nil =>
      obtain ⟨rfl, rfl⟩ := List.cons.inj heq
      cases hrun
      exact hfirst
    | cons g es₁ =>
      obtain ⟨rfl, rfl⟩ := List.cons.inj heq
      obtain ⟨s', hs', hrun⟩ := run_cons_some hrun
      exact hrest s' hs' es₁ f es₂ s₁ rfl hrun

instance decidableAlong {P : σ → ε → Prop} [∀ s e, Decidable (P s e)] :
    ∀ (es : List ε) (s : σ), Decidable (Along step P s es)
  | [], _ => isTrue (by simp [Along])
  | e :: es, s =>
      have : Decidable (∀ s', step s e = some s' → Along step P s' es) :=
        match step s e with
        | none => isTrue (by simp)
        | some s' =>
            have : Decidable (Along step P s' es) := decidableAlong es s'
            decidable_of_iff (Along step P s' es) (by simp)
      decidable_of_iff _ along_cons.symm

theorem Along.of_append {P : σ → ε → Prop} {s : σ} {es es' : List ε}
    (h : Along step P s (es ++ es')) : Along step P s es := by
  rintro es₁ e es₂ s₁ rfl hrun
  exact h es₁ e (es₂ ++ es') s₁ (by simp) hrun

/-- **First time rule**: what is not so at the beginning and is so at the end
becomes so with one of the events. -/
theorem exists_first {P : σ → Prop} {s t : σ} {es : List ε} (hrun : run step s es = some t)
    (hs : ¬ P s) (ht : P t) :
    ∃ es₁ e es₂ s₁ s₂, es = es₁ ++ e :: es₂ ∧ run step s es₁ = some s₁ ∧
      step s₁ e = some s₂ ∧ ¬ P s₁ ∧ P s₂ := by
  induction es generalizing s with
  | nil =>
    cases hrun
    exact absurd ht hs
  | cons e es ih =>
    obtain ⟨s', hs', hrest⟩ := run_cons_some hrun
    by_cases hP : P s'
    · exact ⟨[], e, es, s, s', rfl, rfl, hs', hs, hP⟩
    · obtain ⟨es₁, f, es₂, s₁, s₂, rfl, hrun₁, hstep, hnot, hyes⟩ := ih hrest hP
      refine ⟨e :: es₁, f, es₂, s₁, s₂, rfl, ?_, hstep, hnot, hyes⟩
      rw [run_cons, hs']
      exact hrun₁

/-- A run that goes through an event takes its step there. -/
theorem run_through {s t : σ} {es₁ es₂ : List ε} {e : ε}
    (hrun : run step s (es₁ ++ e :: es₂) = some t) :
    ∃ s₁ s₂, run step s es₁ = some s₁ ∧ step s₁ e = some s₂ ∧ run step s₂ es₂ = some t := by
  rw [run_append] at hrun
  obtain ⟨s₁, h₁, hrest⟩ := Option.bind_eq_some_iff.mp hrun
  obtain ⟨s₂, h₂, hrest⟩ := run_cons_some hrest
  exact ⟨s₁, s₂, h₁, h₂, hrest⟩

/-- **History rule**: what every step appends to a history, a run appends in
the order of its events. -/
theorem run_history {H : σ → List α} {adds : ε → List α}
    (hstep : ∀ s e s', step s e = some s' → H s' = H s ++ adds e) {s t : σ} {es : List ε}
    (hrun : run step s es = some t) : H t = H s ++ es.flatMap adds := by
  induction es generalizing s with
  | nil =>
    cases hrun
    simp
  | cons e es ih =>
    obtain ⟨s', hs', hrest⟩ := run_cons_some hrun
    rw [ih hrest, hstep s e s' hs', List.flatMap_cons, List.append_assoc]

/-- **Simulation rule**: when every step is matched by the abstract run of
its actions, every run is. -/
theorem run_simulation {astep : τ → α → Option τ} {R : σ → τ → Prop} {ok : ε → Prop}
    (acts : ε → List α)
    (hsim : ∀ s a e s', ok e → R s a → step s e = some s' →
      ∃ a', run astep a (acts e) = some a' ∧ R s' a')
    {s t : σ} {a : τ} {es : List ε} (hok : ∀ e ∈ es, ok e) (hR : R s a)
    (hrun : run step s es = some t) :
    ∃ b, run astep a (es.flatMap acts) = some b ∧ R t b := by
  induction es generalizing s a with
  | nil =>
    cases hrun
    exact ⟨a, rfl, hR⟩
  | cons e es ih =>
    obtain ⟨s', hs', hrest⟩ := run_cons_some hrun
    obtain ⟨a', ha', hR'⟩ := hsim s a e s' (hok e (by simp)) hR hs'
    obtain ⟨b, hb, hRb⟩ := ih (fun e' he' => hok e' (by simp [he'])) hR' hrest
    exact ⟨b, by rw [List.flatMap_cons, run_append, ha']; exact hb, hRb⟩

/-! ## Runs that come to an end -/

section
variable {I done : σ → Prop} {P : σ → ε → Prop} {left : σ → Nat}

/-- **Termination rule**: where every permitted event leaves fewer steps, a run
of permitted events is no longer than the steps that were left. -/
theorem run_length_le
    (hstep : ∀ s e s', P s e → I s → step s e = some s' → I s' ∧ left s' < left s) {s t : σ}
    {es : List ε} (halong : Along step P s es) (hs : I s) (hrun : run step s es = some t) :
    I t ∧ es.length + left t ≤ left s := by
  induction es generalizing s with
  | nil =>
    cases hrun
    exact ⟨hs, by simp⟩
  | cons e es ih =>
    obtain ⟨s', hs', hrest⟩ := run_cons_some hrun
    obtain ⟨hfirst, hlater⟩ := along_cons.mp halong
    obtain ⟨hI, hlt⟩ := hstep s e s' hfirst hs hs'
    obtain ⟨ht, hle⟩ := ih (hlater s' hs') hI hrest
    refine ⟨ht, ?_⟩
    rw [List.length_cons]
    omega

/-- **Progress rule**: where some permitted event can happen as long as it is
not done, a run of them gets it done. -/
theorem exists_run_done
    (hstep : ∀ s e s', P s e → I s → step s e = some s' → I s' ∧ left s' < left s)
    (hprogress : ∀ s, I s → ¬ done s → ∃ e s', P s e ∧ step s e = some s') {s : σ} (hs : I s) :
    ∃ es t, Along step P s es ∧ run step s es = some t ∧ I t ∧ done t := by
  induction hn : left s using Nat.strongRecOn generalizing s with
  | _ n ih =>
    by_cases hdone : done s
    · exact ⟨[], s, by simp [Along], rfl, hs, hdone⟩
    · obtain ⟨e, s', he, hs'⟩ := hprogress s hs hdone
      obtain ⟨hI, hlt⟩ := hstep s e s' he hs hs'
      obtain ⟨es, t, halong, hrun, ht⟩ := ih _ (hn ▸ hlt) hI rfl
      refine ⟨e :: es, t, along_cons.mpr ⟨he, ?_⟩, ?_, ht⟩
      · rintro a ha
        obtain rfl := Option.some.inj (hs'.symm.trans ha)
        exact halong
      · rw [run_cons, hs']
        exact hrun

end

end Runs
