import KetiEngine.Lib.Runs
import Mathlib.Algebra.Order.BigOperators.Group.List
import Mathlib.Algebra.Order.Ring.Nat
import Mathlib.Logic.Function.Basic

/-!
# Waits — threads that sleep until they are notified

The steps of a system, as its threads take them when nothing keeps them
waiting, and what their waits are: a thread that comes to a wait makes a test
and sleeps where it fails, a step of another thread may notify it, and it may
wake without that. A wait in a loop makes the test again, another does not.
The rules say when a run of such threads is a run of the steps, and that where
none of the threads can go on no step can be taken.
-/

namespace Waits

open Runs Function

/-- Steps `W` on a shared state `σ`, and the waits `C` before some of them. -/
structure Threads (σ W C : Type*) where
  /-- A step, where the test of its wait holds. -/
  step : σ → W → Option σ
  /-- The wait before a step. -/
  wait : W → Option C
  /-- The test, where a thread has come to the wait. -/
  test : σ → C → Option Bool
  /-- The wait is in a loop with its test. -/
  loops : σ → C → Bool
  /-- What follows the wait, without the test. -/
  resume : σ → C → Option (W × σ)
  /-- The step notifies the threads at this wait. -/
  notifies : σ → W → C → Bool

/-- The shared state, the waits in which threads sleep, each with whether they
have been notified, and the history of the steps taken. -/
structure State (σ W C : Type*) where
  shared : σ
  asleep : C → Option Bool := fun _ => none
  history : List W := []

inductive Event (W C : Type*) where
  /-- A step without a wait, or whose test holds at once. -/
  | act (w : W)
  | sleep (c : C)
  /-- The wait ends, notified or not. -/
  | wake (c : C)

namespace Threads

variable {σ W C : Type*} {p : Threads σ W C}

/-- Step `w` has been taken and those that wait for it are notified. -/
def take (p : Threads σ W C) (s : State σ W C) (w : W) (shared : σ) : State σ W C where
  shared := shared
  asleep := fun c => (s.asleep c).map (· || p.notifies s.shared w c)
  history := s.history ++ [w]

section
variable [DecidableEq C]

/-- A thread sleeps in its wait, not notified. -/
def lieDown (s : State σ W C) (c : C) : State σ W C :=
  { s with asleep := update s.asleep c (some false) }

def getUp (s : State σ W C) (c : C) : State σ W C :=
  { s with asleep := update s.asleep c none }

/-- The step function of the threads with their waits. -/
def waitStep (p : Threads σ W C) (s : State σ W C) : Event W C → Option (State σ W C)
  | .act w =>
      if (p.wait w).all (s.asleep · = none) then (p.step s.shared w).map (p.take s w) else none
  | .sleep c =>
      if s.asleep c = none ∧ p.test s.shared c = some false then some (lieDown s c) else none
  | .wake c =>
      if s.asleep c = none then none
      else if p.loops s.shared c = true ∧ p.test s.shared c = some false then some (lieDown s c)
      else (p.resume s.shared c).map fun (w, shared) => getUp (p.take s w shared) c

variable {s s' t : State σ W C} {e : Event W C} {w : W} {c : C}

/-- What one step can do: a thread that does not sleep takes a step, one lies
down, or one wakes and lies down again or goes on. -/
theorem waitStep_cases (h : p.waitStep s e = some s') :
    (∃ w shared, e = .act w ∧ (∀ c, p.wait w = some c → s.asleep c = none) ∧
      p.step s.shared w = some shared ∧ s' = p.take s w shared) ∨
    (∃ c, (e = .sleep c ∧ s.asleep c = none ∨ e = .wake c ∧ s.asleep c ≠ none ∧
        p.loops s.shared c = true) ∧ p.test s.shared c = some false ∧ s' = lieDown s c) ∨
    (∃ c w shared, e = .wake c ∧ s.asleep c ≠ none ∧
      (p.loops s.shared c = true → p.test s.shared c ≠ some false) ∧
      p.resume s.shared c = some (w, shared) ∧ s' = getUp (p.take s w shared) c) := by
  cases e with
  | act w =>
    simp only [waitStep, Option.ite_none_right_eq_some] at h
    obtain ⟨hawake, h⟩ := h
    obtain ⟨shared, hstep, rfl⟩ := Option.map_eq_some_iff.mp h
    refine .inl ⟨w, shared, rfl, fun c hc => ?_, hstep, rfl⟩
    simpa [hc] using hawake
  | sleep c =>
    simp only [waitStep, Option.ite_none_right_eq_some] at h
    obtain ⟨⟨hawake, htest⟩, h⟩ := h
    cases h
    exact .inr (.inl ⟨c, .inl ⟨rfl, hawake⟩, htest, rfl⟩)
  | wake c =>
    simp only [waitStep, Option.ite_none_left_eq_some] at h
    obtain ⟨hasleep, h⟩ := h
    split at h
    · rename_i hagain
      cases h
      exact .inr (.inl ⟨c, .inr ⟨rfl, hasleep, hagain.1⟩, hagain.2, rfl⟩)
    · rename_i hgo
      obtain ⟨⟨w, shared⟩, hresume, rfl⟩ := Option.map_eq_some_iff.mp h
      exact .inr (.inr ⟨c, w, shared, rfl, hasleep, fun hl ht => hgo ⟨hl, ht⟩, hresume, rfl⟩)

end

/-! ## What the waits stand for -/

/-- The steps taken make up an allowed run from `s₀`. -/
structure Reaches (p : Threads σ W C) (ok : List W → Prop) (s₀ : σ) (es : List W) (s : σ) :
    Prop where
  allowed : ok es
  run : run p.step s₀ es = some s

/-- What a step does to the wait of another thread, whose test was `b`: the test
begins to hold only where the step notifies the thread; without a loop, it
holds from such a step on. -/
def Informs (p : Threads σ W C) (s : σ) (w : W) (s' : σ) (c : C) (b : Bool) : Prop :=
  p.loops s' c = p.loops s c ∧ ∃ b', p.test s' c = some b' ∧
    (b' = true → b = true ∨ p.notifies s w c = true) ∧
    (p.loops s c = false → b = true ∨ p.notifies s w c = true → b' = true)

/-- How the waits and the steps belong together in every allowed run: where a
test fails the step cannot be taken, where it holds the thread goes on with its
step, and a step informs the threads that wait elsewhere. -/
structure Faithful (p : Threads σ W C) (ok : List W → Prop) (s₀ : σ) : Prop where
  closed : ∀ {es es'}, ok (es ++ es') → ok es
  blocked : ∀ {es s c w}, p.Reaches ok s₀ es s → p.test s c = some false → p.wait w = some c →
    p.step s w = none
  resumes : ∀ {es s c w s'}, p.Reaches ok s₀ es s → p.test s c = some true →
    (p.resume s c = some (w, s') ↔ p.wait w = some c ∧ p.step s w = some s')
  others : ∀ {es s w s' c b}, p.Reaches ok s₀ es s → p.Reaches ok s₀ (es ++ [w]) s' →
    p.step s w = some s' → p.wait w ≠ some c → p.test s c = some b → p.Informs s w s' c b

/-- A thread that sleeps is notified when its test holds; without a loop, only
then. -/
def Sleepers (p : Threads σ W C) (s : State σ W C) : Prop :=
  ∀ c notified, s.asleep c = some notified → ∃ b, p.test s.shared c = some b ∧
    (b = true → notified = true) ∧ (p.loops s.shared c = false → notified = true → b = true)

/-- No wait without a loop ends without a notification. -/
def Patient (p : Threads σ W C) (s : State σ W C) (e : Event W C) : Prop :=
  ∀ c, e = .wake c → s.asleep c = some false → p.loops s.shared c = true

instance (s : State σ W C) (e : Event W C) : Decidable (p.Patient s e) :=
  match e with
  | .act w => isTrue (by simp [Patient])
  | .sleep c => isTrue (by simp [Patient])
  | .wake c =>
      decidable_of_iff (s.asleep c = some false → p.loops s.shared c = true) (by simp [Patient])

/-- No wait ends without a notification. -/
def Notified (s : State σ W C) (e : Event W C) : Prop :=
  ∀ c, e = .wake c → s.asleep c ≠ some false

/-- The history is a run of the steps, and no notification is lost. -/
structure Kept (p : Threads σ W C) (s₀ : σ) (s : State σ W C) : Prop where
  steps : run p.step s₀ s.history = some s.shared
  sleepers : p.Sleepers s

theorem Notified.patient {s : State σ W C} {e : Event W C} (h : Notified s e) : p.Patient s e :=
  fun c he hasleep => absurd hasleep (h c he)

section
variable {ok : List W → Prop} {s₀ shared : σ} {s : State σ W C} {w : W} {c : C}

theorem Kept.reaches (h : p.Kept s₀ s) (hok : ok s.history) :
    p.Reaches ok s₀ s.history s.shared :=
  ⟨hok, h.steps⟩

/-- A step that is taken goes on with the run of the steps. -/
theorem Reaches.concat {es : List W} {a a' : σ} (h : p.Reaches ok s₀ es a)
    (hok : ok (es ++ [w])) (hstep : p.step a w = some a') : p.Reaches ok s₀ (es ++ [w]) a' := by
  refine ⟨hok, ?_⟩
  rw [run_append, h.run, Option.bind_some, run_cons, hstep]
  rfl

/-- Those who sleep elsewhere, after a step. -/
theorem Sleepers.take (hp : p.Faithful ok s₀) (h : p.Kept s₀ s) (hok : ok (s.history ++ [w]))
    (hstep : p.step s.shared w = some shared) {notified : Bool} (hc : p.wait w ≠ some c)
    (hasleep : (p.take s w shared).asleep c = some notified) :
    ∃ b, p.test shared c = some b ∧ (b = true → notified = true) ∧
      (p.loops shared c = false → notified = true → b = true) := by
  have hreaches := h.reaches (hp.closed hok)
  obtain ⟨before, hbefore, rfl⟩ := Option.map_eq_some_iff.mp hasleep
  obtain ⟨b, htest, hnotified, honly⟩ := h.sleepers c before hbefore
  obtain ⟨hloops, b', htest', hbegins, hfrom⟩ :=
    hp.others hreaches (hreaches.concat hok hstep) hstep hc htest
  refine ⟨b', htest', fun hb' => ?_, fun hloop hn => ?_⟩
  · rw [Bool.or_eq_true]
    exact (hbegins hb').imp_left hnotified
  · rw [hloops] at hloop
    rw [Bool.or_eq_true] at hn
    exact hfrom hloop (hn.imp_left (honly hloop))

/-- A thread that goes on after its wait has its test hold. -/
theorem Kept.test_of_wake (h : p.Kept s₀ s) (hpatient : p.Patient s (.wake c))
    (hasleep : s.asleep c ≠ none)
    (hgo : p.loops s.shared c = true → p.test s.shared c ≠ some false) :
    p.test s.shared c = some true := by
  obtain ⟨notified, hnotified⟩ := Option.ne_none_iff_exists'.mp hasleep
  obtain ⟨b, htest, -, honly⟩ := h.sleepers c notified hnotified
  rw [htest]
  cases b with
  | true => rfl
  | false =>
    cases hloops : p.loops s.shared c with
    | true => exact absurd htest (hgo hloops)
    | false =>
      cases notified with
      | true => exact absurd (honly hloops rfl) Bool.false_ne_true
      | false => exact absurd (hpatient c rfl hnotified) (by simp [hloops])

end

section
variable [DecidableEq C] {ok : List W → Prop} {s₀ shared : σ} {s s' t : State σ W C}
  {e : Event W C} {w : W} {c : C}

theorem Sleepers.lieDown (h : p.Sleepers s) (htest : p.test s.shared c = some false) :
    p.Sleepers (Threads.lieDown s c) := by
  intro c' notified hasleep
  by_cases hc : c' = c
  · subst hc
    have hn : false = notified := by simpa [Threads.lieDown] using hasleep
    subst hn
    exact ⟨false, htest, id, fun _ => id⟩
  · exact h c' notified (by simpa [Threads.lieDown, hc] using hasleep)

/-- **One step** of the threads is a step of the system or none: a thread that
wakes takes the step behind its wait. -/
theorem Kept.shared_step (hp : p.Faithful ok s₀) (h : p.Kept s₀ s) (hok : ok s.history)
    (hpatient : p.Patient s e) (hstep : p.waitStep s e = some s') :
    s'.shared = s.shared ∧ s'.history = s.history ∨
      ∃ w, (e = .act w ∨ ∃ c, e = .wake c ∧ p.wait w = some c) ∧
        p.step s.shared w = some s'.shared ∧ s'.history = s.history ++ [w] := by
  rcases waitStep_cases hstep with ⟨w, shared, rfl, -, hact, rfl⟩ | ⟨c, -, -, rfl⟩ |
    ⟨c, w, shared, rfl, hasleep, hgo, hresume, rfl⟩
  · exact .inr ⟨w, .inl rfl, hact, rfl⟩
  · exact .inl ⟨rfl, rfl⟩
  · have htest := h.test_of_wake hpatient hasleep hgo
    obtain ⟨hwait, hact⟩ := (hp.resumes (h.reaches hok) htest).mp hresume
    exact .inr ⟨w, .inr ⟨c, rfl, hwait⟩, hact, rfl⟩

theorem Kept.step (hp : p.Faithful ok s₀) (h : p.Kept s₀ s) (hpatient : p.Patient s e)
    (hstep : p.waitStep s e = some s') (hok : ok s'.history) : p.Kept s₀ s' := by
  rcases waitStep_cases hstep with ⟨w, shared, rfl, hawake, hact, rfl⟩ | ⟨c, -, htest, rfl⟩ |
    ⟨c, w, shared, rfl, hasleep, hgo, hresume, rfl⟩
  · have hreaches := h.reaches (hp.closed hok)
    refine ⟨(hreaches.concat hok hact).run, fun c notified hsleeps => ?_⟩
    refine Sleepers.take hp h hok hact (fun hc => ?_) hsleeps
    simp [Threads.take, hawake c hc] at hsleeps
  · exact ⟨h.steps, h.sleepers.lieDown htest⟩
  · have hok : ok (s.history ++ [w]) := hok
    have hreaches := h.reaches (hp.closed hok)
    have htest := h.test_of_wake hpatient hasleep hgo
    obtain ⟨hwait, hact⟩ := (hp.resumes hreaches htest).mp hresume
    refine ⟨(hreaches.concat hok hact).run, fun c' notified hsleeps => ?_⟩
    by_cases hc : c' = c
    · subst hc
      simp [getUp] at hsleeps
    · refine Sleepers.take hp h hok hact (fun hc' => hc ?_) (by simpa [getUp, hc] using hsleeps)
      exact Option.some.inj (hc'.symm.trans hwait)

/-- The history only grows. -/
theorem history_of_waitStep (h : p.waitStep s e = some s') :
    ∃ ws, s'.history = s.history ++ ws := by
  rcases waitStep_cases h with ⟨w, shared, -, -, -, rfl⟩ | ⟨c, -, -, rfl⟩ |
    ⟨c, w, shared, -, -, -, -, rfl⟩
  · exact ⟨[w], rfl⟩
  · exact ⟨[], (List.append_nil _).symm⟩
  · exact ⟨[w], rfl⟩

theorem history_of_run {es : List (Event W C)} (h : run p.waitStep s es = some t) :
    ∃ ws, t.history = s.history ++ ws := by
  refine run_keeps (I := fun t => ∃ ws, t.history = s.history ++ ws) ?_
    ⟨[], (List.append_nil _).symm⟩ h
  rintro a e b ⟨ws, hws⟩ hstep
  obtain ⟨ws', hws'⟩ := history_of_waitStep hstep
  exact ⟨ws ++ ws', by rw [hws', hws, List.append_assoc]⟩

/-- **Every run** of the threads in which no wait without a loop ends without a
notification is a run of the steps. -/
theorem Kept.of_run (hp : p.Faithful ok s₀) (h : p.Kept s₀ s) {es : List (Event W C)}
    (hrun : run p.waitStep s es = some t) (hpatient : Along p.waitStep p.Patient s es)
    (hok : ok t.history) : p.Kept s₀ t := by
  induction es generalizing s with
  | nil =>
    cases hrun
    exact h
  | cons e es ih =>
    obtain ⟨s', hs', hrest⟩ := run_cons_some hrun
    obtain ⟨hfirst, hlater⟩ := along_cons.mp hpatient
    obtain ⟨ws, hws⟩ := history_of_run hrest
    exact ih (h.step hp hfirst hs' (hp.closed (hws ▸ hok))) hrest (hlater s' hs')

theorem kept_of_run (hp : p.Faithful ok s₀) {es : List (Event W C)}
    (hrun : run p.waitStep { shared := s₀ } es = some t)
    (hpatient : Along p.waitStep p.Patient { shared := s₀ } es) (hok : ok t.history) :
    p.Kept s₀ t := by
  have hstart : p.Kept s₀ ({ shared := s₀ } : State σ W C) := ⟨rfl, by simp [Sleepers]⟩
  exact hstart.of_run hp hrun hpatient hok

/-! ## No notification is lost -/

/-- **Some thread can go on** where a step can be taken: the thread that is to
take it is awake, or it has been notified. -/
theorem Kept.exists_waitStep (hp : p.Faithful ok s₀) (h : p.Kept s₀ s) (hok : ok s.history)
    (hstep : p.step s.shared w = some shared) :
    p.waitStep s (.act w) = some (p.take s w shared) ∨
    ∃ c, p.wait w = some c ∧ s.asleep c = some true ∧
      p.waitStep s (.wake c) = some (getUp (p.take s w shared) c) := by
  by_cases hawake : (p.wait w).all (s.asleep · = none)
  · refine .inl ?_
    simp only [waitStep, if_pos hawake, hstep, Option.map_some]
  · obtain ⟨c, hc⟩ : ∃ c, p.wait w = some c := by
      cases hw : p.wait w with
      | none => simp [hw] at hawake
      | some c => exact ⟨c, rfl⟩
    have hasleep : s.asleep c ≠ none := by simpa [hc] using hawake
    obtain ⟨notified, hnotified⟩ := Option.ne_none_iff_exists'.mp hasleep
    obtain ⟨b, htest, htold, -⟩ := h.sleepers c notified hnotified
    have hreaches := h.reaches hok
    cases b with
    | false =>
      rw [hp.blocked hreaches htest hc] at hstep
      cases hstep
    | true =>
      obtain rfl := htold rfl
      refine .inr ⟨c, hc, hnotified, ?_⟩
      have hresume := (hp.resumes hreaches htest).mpr ⟨hc, hstep⟩
      simp [waitStep, hasleep, htest, hresume]

end

/-! ## Bounded runs -/

/-- What a wait counts for, while a thread can still lie down in it. -/
def rank (asleep : Option Bool) : Nat := if asleep = some false then 0 else 1

/-- The steps that are left, with those of lying down: between two steps each
of the waits `cs` is lain down in at most once. -/
def left (steps : σ → Nat) (cs : List C) (s : State σ W C) : Nat :=
  (cs.length + 1) * steps s.shared + (cs.map fun c => rank (s.asleep c)).sum

theorem rank_le (asleep : Option Bool) : rank asleep ≤ 1 := by
  unfold rank
  split <;> omega

theorem sum_rank_le (cs : List C) (asleep : C → Option Bool) :
    (cs.map fun c => rank (asleep c)).sum ≤ cs.length := by
  have h := List.sum_le_card_nsmul (cs.map fun c => rank (asleep c)) 1
    (by simpa using fun c _ => rank_le (asleep c))
  simpa using h

/-- A step of the system leaves fewer steps, whoever it wakes. -/
theorem left_lt_of_steps {steps : σ → Nat} {s s' : State σ W C} (cs : List C)
    (h : steps s'.shared < steps s.shared) : left steps cs s' < left steps cs s := by
  have hsum := sum_rank_le cs s'.asleep
  have hmul := Nat.mul_le_mul_left (cs.length + 1) (Nat.succ_le_of_lt h)
  unfold left
  rw [Nat.mul_succ] at hmul
  omega

section
variable [DecidableEq C] {s s' : State σ W C} {e : Event W C} {c : C}

/-- Lying down leaves fewer steps, for a thread that is awake or notified. -/
theorem left_lieDown_lt (steps : σ → Nat) {cs : List C} (hc : c ∈ cs)
    (hs : s.asleep c ≠ some false) : left steps cs (lieDown s c) < left steps cs s := by
  refine Nat.add_lt_add_left (List.sum_lt_sum _ _ (fun d _ => ?_) ⟨c, hc, ?_⟩) _
  · by_cases hd : d = c
    · subst hd
      simp [lieDown, rank]
    · simp [lieDown, hd]
  · simp [lieDown, rank, hs]

/-- **Every step leaves fewer steps**, where no wait ends without a
notification. -/
theorem left_lt {steps : σ → Nat} {cs : List C} (hstep : p.waitStep s e = some s')
    (hnotified : Notified s e) (hcs : ∀ c, e = .sleep c ∨ e = .wake c → c ∈ cs)
    (hsteps : ∀ w, s'.history = s.history ++ [w] → steps s'.shared < steps s.shared) :
    left steps cs s' < left steps cs s := by
  rcases waitStep_cases hstep with ⟨w, shared, -, -, -, rfl⟩ | ⟨c, hlies, -, rfl⟩ |
    ⟨c, w, shared, -, -, -, -, rfl⟩
  · exact left_lt_of_steps cs (hsteps w rfl)
  · rcases hlies with ⟨rfl, hawake⟩ | ⟨rfl, -, -⟩
    · exact left_lieDown_lt steps (hcs c (.inl rfl)) (by simp [hawake])
    · exact left_lieDown_lt steps (hcs c (.inr rfl)) (hnotified c rfl)
  · exact left_lt_of_steps cs (hsteps w rfl)

end

end Threads

end Waits
