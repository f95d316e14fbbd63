import KetiEngine.Lib.Runs
import Mathlib.Logic.Function.Basic

/-!
# Monitor — calls that wait once

Any number of calls share a state behind a mutex with other threads. A call
locks the mutex, tests whether it can go on, and where it cannot, waits on a
condition variable. After the wait it goes on without a second test. A wait
may end at any time, notified or not. The rules say which calls leave the
defined behaviour, what the others return, and when a notification stands for
the test.
-/

namespace Monitor

open Runs Function

/-- The code of a call with argument `a : A` and result `r : R`, and of the
threads around it, on a shared state `σ`. -/
structure Protocol (σ W A R : Type*) where
  /-- A step of another thread. -/
  act : σ → W → Option σ
  /-- The step notifies the calls that wait with this argument. -/
  notifies : σ → W → A → Bool
  /-- What a call does before it comes to the mutex. -/
  enter : σ → A → σ
  /-- The call can lock the mutex. -/
  reaches : σ → A → Bool
  /-- The test: the call need not wait. -/
  ready : σ → A → Bool
  /-- What follows the wait, `none` outside the defined behaviour. -/
  body : σ → A → Option (R × σ)

inductive Call (A R : Type*) where
  | absent
  | entered (a : A)
  | waiting (a : A) (notified : Bool)
  | returned (a : A) (r : R)
  | failed (a : A)

/-- The shared state, the calls, and the history of their results. -/
structure State (C σ A R : Type*) where
  shared : σ
  calls : C → Call A R := fun _ => .absent
  results : List (C × A × R) := []

inductive Event (C W A : Type*) where
  | act (w : W)
  | call (c : C) (a : A)
  | lock (c : C)
  /-- The wait of `c` ends. -/
  | wake (c : C)

variable {C σ W A R : Type*}

/-- `notify_all()` for the calls whose argument is in `who`. -/
def Call.notify (who : A → Bool) : Call A R → Call A R
  | .waiting a notified => .waiting a (notified || who a)
  | c => c

namespace Protocol

variable [DecidableEq C]

/-- Call `c` goes on to its end. -/
def finish (p : Protocol σ W A R) (s : State C σ A R) (c : C) (a : A) : State C σ A R :=
  match p.body s.shared a with
  | none => { s with calls := update s.calls c (.failed a) }
  | some (r, shared) =>
      { shared := shared
        calls := update s.calls c (.returned a r)
        results := s.results ++ [(c, a, r)] }

/-- The step function of the calls and the threads around them. -/
def step (p : Protocol σ W A R) (s : State C σ A R) : Event C W A → Option (State C σ A R)
  | .act w =>
      match p.act s.shared w with
      | some shared => some { s with
          shared := shared
          calls := fun c => (s.calls c).notify (p.notifies s.shared w) }
      | none => none
  | .call c a =>
      match s.calls c with
      | .absent => some { s with
          shared := p.enter s.shared a
          calls := update s.calls c (.entered a) }
      | _ => none
  | .lock c =>
      match s.calls c with
      | .entered a =>
          if p.reaches s.shared a then
            if p.ready s.shared a then some (p.finish s c a)
            else some { s with calls := update s.calls c (.waiting a false) }
          else none
      | _ => none
  | .wake c =>
      match s.calls c with
      | .waiting a _ => some (p.finish s c a)
      | _ => none

/-- With event `e`, call `c` goes on to its end. -/
inductive Finishes (p : Protocol σ W A R) (s : State C σ A R) (c : C) (a : A) :
    Event C W A → Prop
  | lock (hcall : s.calls c = .entered a) (hreaches : p.reaches s.shared a)
      (hready : p.ready s.shared a) : Finishes p s c a (.lock c)
  | wake {notified : Bool} (hcall : s.calls c = .waiting a notified) : Finishes p s c a (.wake c)

/-- What one step can do: another thread acts, a call enters or begins to
wait, or a call goes on to its end. -/
theorem step_cases {p : Protocol σ W A R} {s s' : State C σ A R} {e : Event C W A}
    (h : p.step s e = some s') :
    (∃ w shared, e = .act w ∧ p.act s.shared w = some shared ∧
      s' = { s with
        shared := shared
        calls := fun c => (s.calls c).notify (p.notifies s.shared w) }) ∨
    (∃ c a, e = .call c a ∧ s.calls c = .absent ∧
      s' = { s with
        shared := p.enter s.shared a
        calls := update s.calls c (.entered a) }) ∨
    (∃ c a, e = .lock c ∧ s.calls c = .entered a ∧ p.reaches s.shared a = true ∧
      p.ready s.shared a = false ∧ s' = { s with calls := update s.calls c (.waiting a false) }) ∨
    (∃ c a, p.Finishes s c a e ∧ s' = p.finish s c a) := by
  cases e with
  | act w =>
    simp only [step] at h
    split at h <;> cases h
    exact .inl ⟨w, _, rfl, ‹_›, rfl⟩
  | call c a =>
    simp only [step] at h
    split at h <;> cases h
    exact .inr (.inl ⟨c, a, rfl, ‹_›, rfl⟩)
  | lock c =>
    simp only [step] at h
    split at h
    · rename_i a hcall
      split at h
      · rename_i hreaches
        split at h <;> cases h
        · exact .inr (.inr (.inr ⟨c, a, .lock hcall hreaches ‹_›, rfl⟩))
        · rename_i hready
          exact .inr (.inr (.inl ⟨c, a, rfl, hcall, hreaches, Bool.eq_false_iff.mpr hready, rfl⟩))
      · cases h
    · cases h
  | wake c =>
    simp only [step] at h
    split at h <;> cases h
    exact .inr (.inr (.inr ⟨c, _, .wake ‹_›, rfl⟩))

theorem step_of_finishes {p : Protocol σ W A R} {s : State C σ A R} {c : C} {a : A}
    {e : Event C W A} (h : p.Finishes s c a e) : p.step s e = some (p.finish s c a) := by
  cases h with
  | lock hcall hreaches hready => simp [step, hcall, hreaches, hready]
  | wake hcall => simp [step, hcall]

section
variable {p : Protocol σ W A R} {s : State C σ A R} {c : C} {a : A}

theorem finish_of_none (h : p.body s.shared a = none) :
    p.finish s c a = { s with calls := update s.calls c (.failed a) } := by
  rw [finish, h]

theorem finish_of_some {r : R} {shared : σ} (h : p.body s.shared a = some (r, shared)) :
    p.finish s c a =
      { shared := shared
        calls := update s.calls c (.returned a r)
        results := s.results ++ [(c, a, r)] } := by
  rw [finish, h]

omit [DecidableEq C] in
/-- A call that goes on to its end has neither returned nor failed. -/
theorem Finishes.pending {e : Event C W A} (h : p.Finishes s c a e) :
    (∀ b r, s.calls c ≠ .returned b r) ∧ ∀ b, s.calls c ≠ .failed b := by
  cases h with
  | lock hcall => simp [hcall]
  | wake hcall => simp [hcall]

end

/-! ## Calls that returned -/

section
variable {who : A → Bool} {call : Call A R} {a : A} {r : R}

@[simp] theorem notify_eq_returned : call.notify who = .returned a r ↔ call = .returned a r := by
  cases call <;> simp [Call.notify]

@[simp] theorem notify_eq_failed : call.notify who = .failed a ↔ call = .failed a := by
  cases call <;> simp [Call.notify]

end

/-- The history has each call that returned once, with its result. -/
structure Recorded (s : State C σ A R) : Prop where
  once : (s.results.map Prod.fst).Nodup
  results : ∀ c a r, (c, a, r) ∈ s.results ↔ s.calls c = .returned a r

theorem Recorded.update {s : State C σ A R} (h : Recorded s) {c : C} {call : Call A R}
    (hold : ∀ a r, s.calls c ≠ .returned a r) (hnew : ∀ a r, call ≠ .returned a r)
    (shared : σ) :
    Recorded { s with shared := shared, calls := Function.update s.calls c call } := by
  refine ⟨h.once, fun c' a r => (h.results c' a r).trans ?_⟩
  by_cases hc : c' = c
  · subst hc
    simp [hold, hnew]
  · simp [hc]

theorem Recorded.step {p : Protocol σ W A R} {s s' : State C σ A R} {e : Event C W A}
    (h : Recorded s) (hstep : p.step s e = some s') : Recorded s' := by
  rcases step_cases hstep with ⟨w, shared, -, -, rfl⟩ | ⟨c, a, -, hcall, rfl⟩ |
    ⟨c, a, -, hcall, -, -, rfl⟩ | ⟨c, a, hfin, rfl⟩
  · exact ⟨h.once, fun c a r => by simpa using h.results c a r⟩
  · exact h.update (by simp [hcall]) (by simp) _
  · exact h.update (by simp [hcall]) (by simp) _
  · have hpending := hfin.pending.1
    cases hbody : p.body s.shared a with
    | none =>
      rw [finish_of_none hbody]
      exact h.update hpending (by simp) _
    | some x =>
      obtain ⟨r, shared⟩ := x
      rw [finish_of_some hbody]
      -- the call was pending, so the history has no result of it
      have hnew : ∀ x, (c, x) ∉ s.results := fun x hx => hpending _ _ ((h.results c x.1 x.2).mp hx)
      constructor
      · rw [List.map_append, List.nodup_append]
        refine ⟨h.once, by simp, fun c' hc' => ?_⟩
        obtain ⟨⟨d, x⟩, hx, rfl⟩ := List.mem_map.mp hc'
        rintro _ hmem rfl
        obtain rfl : d = c := by simpa using hmem
        exact hnew x hx
      · intro c' a' r'
        by_cases hc : c' = c
        · subst hc
          have := hnew (a', r')
          simp [this, eq_comm]
        · simp [h.results, hc]

theorem recorded_of_run {p : Protocol σ W A R} {shared : σ} {t : State C σ A R}
    {es : List (Event C W A)} (hrun : run p.step { shared := shared } es = some t) :
    Recorded t :=
  run_keeps (fun _ _ _ h hstep => h.step hstep) ⟨by simp, by simp⟩ hrun

/-- Where a result comes from: its call went on to its end in a state of the
run. -/
theorem finishes_of_result {p : Protocol σ W A R} {s t : State C σ A R}
    {es : List (Event C W A)} {c : C} {a : A} {r : R} (hrun : run p.step s es = some t)
    (hs : s.results = []) (hmem : (c, a, r) ∈ t.results) :
    ∃ es₁ e es₂ s₁ shared, es = es₁ ++ e :: es₂ ∧ run p.step s es₁ = some s₁ ∧
      p.Finishes s₁ c a e ∧ p.body s₁.shared a = some (r, shared) := by
  obtain ⟨es₁, e, es₂, s₁, s₂, hes, hrun₁, hstep, hnot, hyes⟩ :=
    exists_first (P := fun s => (c, a, r) ∈ s.results) hrun (by simp [hs]) hmem
  rcases step_cases hstep with ⟨w, shared, -, -, rfl⟩ | ⟨c', a', -, -, rfl⟩ |
    ⟨c', a', -, -, -, -, rfl⟩ | ⟨c', a', hfin, rfl⟩
  · exact absurd hyes hnot
  · exact absurd hyes hnot
  · exact absurd hyes hnot
  · cases hbody : p.body s₁.shared a' with
    | none =>
      rw [finish_of_none hbody] at hyes
      exact absurd hyes hnot
    | some x =>
      rw [finish_of_some hbody] at hyes
      have hlast := (List.mem_append.mp hyes).resolve_left hnot
      obtain ⟨rfl, rfl, rfl⟩ : c = c' ∧ a = a' ∧ r = x.1 := by simpa using hlast
      exact ⟨es₁, e, es₂, s₁, x.2, hes, hrun₁, hfin, hbody⟩

/-- A result stays in the history. -/
theorem results_of_run {p : Protocol σ W A R} {s t : State C σ A R} {es : List (Event C W A)}
    (hrun : run p.step s es = some t) {x : C × A × R} (hx : x ∈ s.results) : x ∈ t.results := by
  refine run_keeps (I := fun s => x ∈ s.results) ?_ hx hrun
  intro s e s' hmem hstep
  rcases step_cases hstep with ⟨w, shared, -, -, rfl⟩ | ⟨c, a, -, -, rfl⟩ |
    ⟨c, a, -, -, -, -, rfl⟩ | ⟨c, a, -, rfl⟩
  · exact hmem
  · exact hmem
  · exact hmem
  · cases hbody : p.body s.shared a with
    | none => rwa [finish_of_none hbody]
    | some x =>
      rw [finish_of_some hbody]
      exact List.mem_append_left _ hmem

/-- Every wait that ends has its result in the end, where there is one. -/
theorem result_of_wake {p : Protocol σ W A R} {s s₁ t : State C σ A R}
    {es₁ es₂ : List (Event C W A)} {c : C} {a : A} {notified : Bool} {r : R} {shared : σ}
    (hrun : run p.step s (es₁ ++ .wake c :: es₂) = some t) (hrun₁ : run p.step s es₁ = some s₁)
    (hcall : s₁.calls c = .waiting a notified)
    (hbody : p.body s₁.shared a = some (r, shared)) : (c, a, r) ∈ t.results := by
  obtain ⟨s₁', s₂, h₁, hstep, hrest⟩ := run_through hrun
  obtain rfl : s₁' = s₁ := Option.some.inj (h₁.symm.trans hrun₁)
  have hfin : p.Finishes s₁' c a (.wake c) := .wake hcall
  obtain rfl := Option.some.inj (hstep.symm.trans (step_of_finishes hfin))
  refine results_of_run hrest ?_
  rw [finish_of_some hbody]
  simp

/-! ## Calls that failed -/

theorem failed_of_run {p : Protocol σ W A R} {s t : State C σ A R} {es : List (Event C W A)}
    (hrun : run p.step s es = some t) {c : C} {a : A} (hc : s.calls c = .failed a) :
    t.calls c = .failed a := by
  refine run_keeps (I := fun s => s.calls c = .failed a) ?_ hc hrun
  intro s e s' hfailed hstep
  rcases step_cases hstep with ⟨w, shared, -, -, rfl⟩ | ⟨c', a', -, hcall, rfl⟩ |
    ⟨c', a', -, hcall, -, -, rfl⟩ | ⟨c', a', hfin, rfl⟩
  · simpa using hfailed
  · have hne : c ≠ c' := fun heq => by simp [← heq, hfailed] at hcall
    simpa [hne] using hfailed
  · have hne : c ≠ c' := fun heq => by simp [← heq, hfailed] at hcall
    simpa [hne] using hfailed
  · have hne : c ≠ c' := fun heq => hfin.pending.2 a (heq ▸ hfailed)
    unfold finish
    split <;> simpa [hne] using hfailed

/-- Where a failure comes from: the call went on to its end in a state of the
run, outside the defined behaviour. -/
theorem finishes_of_failed {p : Protocol σ W A R} {s t : State C σ A R}
    {es : List (Event C W A)} {c : C} {a : A} (hrun : run p.step s es = some t)
    (hs : s.calls c ≠ .failed a) (hfailed : t.calls c = .failed a) :
    ∃ es₁ e es₂ s₁, es = es₁ ++ e :: es₂ ∧ run p.step s es₁ = some s₁ ∧
      p.Finishes s₁ c a e ∧ p.body s₁.shared a = none := by
  obtain ⟨es₁, e, es₂, s₁, s₂, hes, hrun₁, hstep, hnot, hyes⟩ :=
    exists_first (P := fun s => s.calls c = .failed a) hrun hs hfailed
  rcases step_cases hstep with ⟨w, shared, -, -, rfl⟩ | ⟨c', a', -, hcall, rfl⟩ |
    ⟨c', a', -, hcall, -, -, rfl⟩ | ⟨c', a', hfin, rfl⟩
  · exact absurd (by simpa using hyes) hnot
  · by_cases hc : c = c'
    · simp [hc] at hyes
    · exact absurd (by simpa [hc] using hyes) hnot
  · by_cases hc : c = c'
    · simp [hc] at hyes
    · exact absurd (by simpa [hc] using hyes) hnot
  · cases hbody : p.body s₁.shared a' with
    | none =>
      rw [finish_of_none hbody] at hyes
      by_cases hc : c = c'
      · subst hc
        obtain rfl : a' = a := by simpa using hyes
        exact ⟨es₁, e, es₂, s₁, hes, hrun₁, hfin, hbody⟩
      · exact absurd (by simpa [hc] using hyes) hnot
    | some x =>
      rw [finish_of_some hbody] at hyes
      by_cases hc : c = c'
      · simp [hc] at hyes
      · exact absurd (by simpa [hc] using hyes) hnot

/-- Every wait with argument `a` ends in a state where its test holds. -/
def WakesReady (p : Protocol σ W A R) (a : A) (s : State C σ A R) (e : Event C W A) : Prop :=
  ∀ c notified, e = .wake c → s.calls c = .waiting a notified → p.ready s.shared a

/-- **No second test**: where the test says exactly when the rest of a call
is defined, no call fails exactly when no wait ends too early. -/
theorem never_fails_iff {p : Protocol σ W A R} {a : A}
    (hbody : ∀ shared, (p.body shared a).isSome = p.ready shared a) {shared : σ}
    {t : State C σ A R} {es : List (Event C W A)}
    (hrun : run p.step { shared := shared } es = some t) :
    (∀ c, t.calls c ≠ .failed a) ↔
      Along p.step (WakesReady p a) ({ shared := shared } : State C σ A R) es := by
  constructor
  · -- a wait that ends too early fails there, and stays failed
    rintro hnever es₁ e es₂ s₁ rfl hrun₁ c notified rfl hcall
    by_contra hready
    have hnone : p.body s₁.shared a = none := by
      rw [← Option.not_isSome_iff_eq_none, hbody]
      exact hready
    obtain ⟨s₁', s₂, h₁, hstep, hrest⟩ := run_through hrun
    obtain rfl : s₁' = s₁ := Option.some.inj (h₁.symm.trans hrun₁)
    have hfin : p.Finishes s₁' c a (.wake c) := .wake hcall
    obtain rfl := Option.some.inj (hstep.symm.trans (step_of_finishes hfin))
    refine hnever c (failed_of_run hrest ?_)
    rw [finish_of_none hnone]
    simp
  · -- a call without a wait has just made the test
    intro halong c hfailed
    obtain ⟨es₁, e, es₂, s₁, rfl, hrun₁, hfin, hnone⟩ :=
      finishes_of_failed hrun (by simp) hfailed
    have hready : p.ready s₁.shared a = true := by
      cases hfin with
      | lock _ _ hready => exact hready
      | wake hcall => exact halong es₁ _ es₂ s₁ rfl hrun₁ c _ rfl hcall
    rw [← hbody, hnone] at hready
    cases hready

/-! ## Notifications -/

/-- The notifications say exactly when the test begins to hold, and it holds
from then on. -/
structure Signals (p : Protocol σ W A R) : Prop where
  act : ∀ s w s' a, p.act s w = some s' → p.ready s' a = (p.ready s a || p.notifies s w a)
  enter : ∀ s a b, p.ready (p.enter s a) b = p.ready s b
  body : ∀ s a r s' b, p.body s a = some (r, s') → p.ready s' b = p.ready s b

/-- A call that waits is notified exactly when its test holds. -/
def NotifiedReady (p : Protocol σ W A R) (s : State C σ A R) : Prop :=
  ∀ c a notified, s.calls c = .waiting a notified → notified = p.ready s.shared a

theorem NotifiedReady.update {p : Protocol σ W A R} {s : State C σ A R} (h : NotifiedReady p s)
    {c : C} {call : Call A R} {shared : σ} (hready : ∀ b, p.ready shared b = p.ready s.shared b)
    (hcall : ∀ a notified, call = .waiting a notified → notified = p.ready s.shared a)
    (results : List (C × A × R)) :
    NotifiedReady p ⟨shared, Function.update s.calls c call, results⟩ := by
  intro c' a notified hwait
  rw [hready]
  by_cases hc : c' = c
  · subst hc
    exact hcall a notified (by simpa using hwait)
  · exact h c' a notified (by simpa [hc] using hwait)

theorem NotifiedReady.step {p : Protocol σ W A R} (hp : Signals p) {s s' : State C σ A R}
    {e : Event C W A} (h : NotifiedReady p s) (hstep : p.step s e = some s') :
    NotifiedReady p s' := by
  rcases step_cases hstep with ⟨w, shared, -, hact, rfl⟩ | ⟨c, a, -, hcall, rfl⟩ |
    ⟨c, a, -, hcall, -, hready, rfl⟩ | ⟨c, a, hfin, rfl⟩
  · -- what the step makes ready it notifies
    intro c a notified hwait
    cases hcall : s.calls c with
    | waiting b n =>
      simp only [hcall, Call.notify, Call.waiting.injEq] at hwait
      obtain ⟨rfl, rfl⟩ := hwait
      rw [hp.act _ _ _ _ hact, h c b n hcall]
    | _ => simp [hcall, Call.notify] at hwait
  · exact h.update (hp.enter _ a) (by simp) _
  · -- the wait begins where the test fails
    refine h.update (fun _ => rfl) ?_ _
    rintro b notified hb
    cases hb
    exact hready.symm
  · cases hbody : p.body s.shared a with
    | none =>
      rw [finish_of_none hbody]
      exact h.update (fun _ => rfl) (by simp) _
    | some x =>
      rw [finish_of_some hbody]
      exact h.update (fun b => hp.body _ _ _ _ b hbody) (by simp) _

theorem notifiedReady_of_run {p : Protocol σ W A R} (hp : Signals p) {shared : σ}
    {t : State C σ A R} {es : List (Event C W A)}
    (hrun : run p.step { shared := shared } es = some t) : NotifiedReady p t :=
  run_keeps (fun _ _ _ h hstep => h.step hp hstep) (by simp [NotifiedReady]) hrun

/-! ## The other threads -/

/-- What the calls and the other threads do to the shared state, where
entering a call is a step `enters` too. -/
def sharedActs (enters : A → W) : Event C W A → List W
  | .act w => [w]
  | .call _ a => [enters a]
  | .lock _ | .wake _ => []

/-- Calls that only read leave a run of the other threads. -/
theorem shared_run {p : Protocol σ W A R} {enters : A → W}
    (henter : ∀ s a, p.act s (enters a) = some (p.enter s a))
    (hbody : ∀ s a r s', p.body s a = some (r, s') → s' = s) {s t : State C σ A R}
    {es : List (Event C W A)} (hrun : run p.step s es = some t) :
    run p.act s.shared (es.flatMap (sharedActs enters)) = some t.shared := by
  have hsim : ∀ (s : State C σ A R) (shared : σ) (e : Event C W A) (s' : State C σ A R), True →
      s.shared = shared → p.step s e = some s' →
      ∃ shared', run p.act shared (sharedActs enters e) = some shared' ∧
        s'.shared = shared' := by
    rintro s _ e s' - rfl hstep
    rcases step_cases hstep with ⟨w, shared, rfl, hact, rfl⟩ | ⟨c, a, rfl, -, rfl⟩ |
      ⟨c, a, rfl, -, -, -, rfl⟩ | ⟨c, a, hfin, rfl⟩
    · exact ⟨shared, by simp [sharedActs, run_cons, hact], rfl⟩
    · exact ⟨_, by simp [sharedActs, run_cons, henter], rfl⟩
    · exact ⟨_, rfl, rfl⟩
    · have hsame : (p.finish s c a).shared = s.shared := by
        cases hb : p.body s.shared a with
        | none => rw [finish_of_none hb]
        | some x =>
          rw [finish_of_some hb]
          exact hbody _ _ _ _ hb
      refine ⟨_, ?_, hsame⟩
      cases hfin <;> rfl
  obtain ⟨_, hshared, rfl⟩ := run_simulation (sharedActs enters) hsim (by simp) rfl hrun
  exact hshared

end Protocol

end Monitor
