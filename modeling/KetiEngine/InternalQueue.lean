import KetiEngine.Lib.Runs
import Mathlib.Data.List.Infix
import Mathlib.Logic.Function.Basic

/-!
# InternalQueue — the queue between threads

`kQueue` of `internal_queue.h`: any number of producers call `push_work`, one
consumer calls `wait_and_pop`. Each of their steps on the mutex, the queue and
the condition variable is a step of the system, and the steps of different
threads interleave freely. A wait may end without a notification.
-/

namespace KetiEngine.KQueue

open Runs

/-- Where a producer is in `push_work`. -/
inductive ProducerPc (T : Type) where
  | idle
  | locking (item : T)
  | locked (item : T)
  | unlocking (wasEmpty : Bool)
  | notifying (wasEmpty : Bool)

/-- Where the consumer is in `wait_and_pop`. After a wait it locks the mutex
and tests the queue as at the beginning. -/
inductive ConsumerPc where
  | idle
  | locking
  | testing
  | waiting (notified : Bool)
  | unlocking
  deriving DecidableEq

inductive Owner (P : Type) where
  | producer (p : P)
  | consumer

/-- `work`, `work_mutex` and the threads. The three histories are the items in
the order in which their producers got the mutex, with the producers, the
items pushed and the items popped. -/
structure State (P T : Type) where
  work : List T := []
  workMutex : Option (Owner P) := none
  producers : P → ProducerPc T := fun _ => .idle
  consumer : ConsumerPc := .idle
  lockOrder : List (P × T) := []
  pushed : List T := []
  popped : List T := []

inductive Event (P T : Type) where
  /-- Producer `p` calls `push_work(item)`. -/
  | call (p : P) (item : T)
  | lock (p : P)
  /-- `was_empty = work.empty(); work.push(item)`. -/
  | push (p : P)
  | unlock (p : P)
  /-- `if (was_empty) work_available.notify_one()`. -/
  | notify (p : P)
  /-- The consumer calls `wait_and_pop()`. -/
  | callPop
  | lockPop
  /-- The queue is empty: the consumer waits. -/
  | wait
  /-- The wait ends, notified or not. -/
  | wake
  /-- The queue is not empty: the consumer takes its front. -/
  | pop
  | unlockPop

/-- `notify_one()`: the consumer is the only thread that can be waiting. -/
def ConsumerPc.notifyOne : ConsumerPc → ConsumerPc
  | .waiting _ => .waiting true
  | c => c

variable {P T : Type}

section
variable [DecidableEq P]

/-- Producer `p` goes on to `pc`. -/
def State.goTo (s : State P T) (p : P) (pc : ProducerPc T) : State P T :=
  { s with producers := Function.update s.producers p pc }

/-- The step function of the threads. -/
def step (s : State P T) : Event P T → Option (State P T)
  | .call p item =>
      match s.producers p with
      | .idle => some (s.goTo p (.locking item))
      | _ => none
  | .lock p =>
      match s.producers p, s.workMutex with
      | .locking item, none => some { s.goTo p (.locked item) with
          workMutex := some (.producer p)
          lockOrder := s.lockOrder ++ [(p, item)] }
      | _, _ => none
  | .push p =>
      match s.producers p with
      | .locked item => some { s.goTo p (.unlocking s.work.isEmpty) with
          work := s.work ++ [item]
          pushed := s.pushed ++ [item] }
      | _ => none
  | .unlock p =>
      match s.producers p with
      | .unlocking wasEmpty => some { s.goTo p (.notifying wasEmpty) with workMutex := none }
      | _ => none
  | .notify p =>
      match s.producers p with
      | .notifying wasEmpty => some { s.goTo p .idle with
          consumer := if wasEmpty then s.consumer.notifyOne else s.consumer }
      | _ => none
  | .callPop =>
      match s.consumer with
      | .idle => some { s with consumer := .locking }
      | _ => none
  | .lockPop =>
      match s.consumer, s.workMutex with
      | .locking, none => some { s with consumer := .testing, workMutex := some .consumer }
      | _, _ => none
  | .wait =>
      match s.consumer, s.work with
      | .testing, [] => some { s with consumer := .waiting false, workMutex := none }
      | _, _ => none
  | .wake =>
      match s.consumer with
      | .waiting _ => some { s with consumer := .locking }
      | _ => none
  | .pop =>
      match s.consumer, s.work with
      | .testing, item :: rest => some { s with
          consumer := .unlocking
          work := rest
          popped := s.popped ++ [item] }
      | _, _ => none
  | .unlockPop =>
      match s.consumer with
      | .unlocking => some { s with consumer := .idle, workMutex := none }
      | _ => none

end

/-! ## What the threads hold and owe -/

/-- The producer has locked the mutex and not unlocked it. -/
def ProducerPc.Holds : ProducerPc T → Prop
  | .locked _ | .unlocking _ => True
  | .idle | .locking _ | .notifying _ => False

def ConsumerPc.Holds : ConsumerPc → Prop
  | .testing | .unlocking => True
  | .idle | .locking | .waiting _ => False

/-- The producer found the queue empty and has not notified yet. -/
def ProducerPc.OwesNotify : ProducerPc T → Prop
  | .unlocking wasEmpty | .notifying wasEmpty => wasEmpty = true
  | .idle | .locking _ | .locked _ => False

/-- The item of a producer between its lock and its push. -/
def ProducerPc.inHand : ProducerPc T → List T
  | .locked item => [item]
  | .idle | .locking _ | .unlocking _ | .notifying _ => []

/-- The item of the producer that holds the mutex, if it is not pushed yet. -/
def State.inHand (s : State P T) : List T :=
  match s.workMutex with
  | some (.producer p) => (s.producers p).inHand
  | _ => []

/-- Who holds the mutex, what is in the queue, and who has to wake the
consumer. -/
structure Invariant (s : State P T) : Prop where
  producerOwns : ∀ p, (s.producers p).Holds ↔ s.workMutex = some (.producer p)
  consumerOwns : s.consumer.Holds ↔ s.workMutex = some .consumer
  fifo : s.pushed = s.popped ++ s.work
  order : s.lockOrder.map Prod.snd = s.pushed ++ s.inHand
  woken : s.consumer = .waiting false → s.work ≠ [] → ∃ p, (s.producers p).OwesNotify

theorem invariant_init : Invariant ({} : State P T) := by
  constructor <;> simp [ProducerPc.Holds, ConsumerPc.Holds, State.inHand]

/-- While the consumer holds the mutex or nobody does, no producer has an
item in hand. -/
theorem inHand_eq_nil {s : State P T} (h : ∀ p, s.workMutex ≠ some (.producer p)) :
    s.inHand = [] := by
  unfold State.inHand
  split
  · rename_i p hp
    exact absurd hp (h p)
  · rfl

theorem inHand_of_owner {s : State P T} {p : P} (h : s.workMutex = some (.producer p)) :
    s.inHand = (s.producers p).inHand := by
  simp [State.inHand, h]

/-! ## The steps of a producer -/

section
variable [DecidableEq P] {s : State P T} {p : P} {item : T} {pc : ProducerPc T}

@[simp] theorem goTo_self (s : State P T) (p : P) (pc : ProducerPc T) :
    (s.goTo p pc).producers p = pc :=
  Function.update_self ..

theorem goTo_ne (s : State P T) {p q : P} (pc : ProducerPc T) (h : q ≠ p) :
    (s.goTo p pc).producers q = s.producers q :=
  Function.update_of_ne h ..

/-- A producer without the mutex has nothing in hand. -/
theorem inHand_goTo (h : s.workMutex ≠ some (.producer p)) :
    (s.goTo p pc).inHand = s.inHand := by
  by_cases howner : ∃ q, s.workMutex = some (.producer q)
  · obtain ⟨q, hq⟩ := howner
    have hne : q ≠ p := fun heq => h (heq ▸ hq)
    rw [inHand_of_owner (s := s) hq, inHand_of_owner (s := s.goTo p pc) hq, goTo_ne s pc hne]
  · rw [not_exists] at howner
    rw [inHand_eq_nil (s := s) howner, inHand_eq_nil (s := s.goTo p pc) howner]

/-- The debt of a producer that goes on is its own or another's. -/
theorem owed_goTo (howed : ∃ q, (s.producers q).OwesNotify)
    (hp : (s.producers p).OwesNotify → pc.OwesNotify) :
    ∃ q, ((s.goTo p pc).producers q).OwesNotify := by
  obtain ⟨q, hq⟩ := howed
  by_cases hqp : q = p
  · subst hqp
    exact ⟨q, by rw [goTo_self]; exact hp hq⟩
  · exact ⟨q, by rwa [goTo_ne s pc hqp]⟩

/-- Who owns the mutex when `p` goes on. -/
theorem producerOwns_goTo {workMutex : Option (Owner P)}
    (hp : pc.Holds ↔ workMutex = some (.producer p))
    (hother : ∀ q ≠ p, (s.producers q).Holds ↔ workMutex = some (.producer q)) (q : P) :
    ((s.goTo p pc).producers q).Holds ↔ workMutex = some (.producer q) := by
  by_cases hq : q = p
  · rw [hq, goTo_self]
    exact hp
  · rw [goTo_ne s pc hq]
    exact hother q hq

omit [DecidableEq P] in
theorem Invariant.not_owner (h : Invariant s) (hp : ¬ (s.producers p).Holds) :
    s.workMutex ≠ some (.producer p) :=
  fun howner => hp ((h.producerOwns p).mpr howner)

omit [DecidableEq P] in
/-- A producer takes or gives back the mutex: nobody else has it. -/
theorem Invariant.others_hold_nothing (h : Invariant s)
    (hfree : s.workMutex = none ∨ s.workMutex = some (.producer p)) :
    ∀ q ≠ p, ¬ (s.producers q).Holds := by
  intro q hq hholds
  have hq' := (h.producerOwns q).mp hholds
  rcases hfree with hnone | hmine
  · rw [hnone] at hq'
    cases hq'
  · rw [hmine] at hq'
    cases hq'
    exact hq rfl

theorem Invariant.call (h : Invariant s) (hp : s.producers p = .idle) :
    Invariant (s.goTo p (.locking item)) := by
  have hout : s.workMutex ≠ some (.producer p) := h.not_owner (by simp [hp, ProducerPc.Holds])
  constructor
  case producerOwns =>
    exact producerOwns_goTo ⟨False.elim, hout⟩ fun q _ => h.producerOwns q
  case consumerOwns => exact h.consumerOwns
  case fifo => exact h.fifo
  case order =>
    rw [inHand_goTo hout]
    exact h.order
  case woken =>
    intro hc hw
    exact owed_goTo (h.woken hc hw) (by simp [hp, ProducerPc.OwesNotify])

theorem Invariant.lock (h : Invariant s) (hp : s.producers p = .locking item)
    (hfree : s.workMutex = none) :
    Invariant { s.goTo p (.locked item) with
      workMutex := some (.producer p)
      lockOrder := s.lockOrder ++ [(p, item)] } := by
  have hidle : s.inHand = [] := inHand_eq_nil (by simp [hfree])
  have hconsumer : ¬ s.consumer.Holds := by simp [h.consumerOwns, hfree]
  have hothers := h.others_hold_nothing (p := p) (.inl hfree)
  constructor
  case producerOwns =>
    refine producerOwns_goTo (by simp [ProducerPc.Holds]) fun q hq => ?_
    exact ⟨fun hholds => absurd hholds (hothers q hq), fun howner => by
      cases howner
      exact absurd rfl hq⟩
  case consumerOwns => exact ⟨fun hholds => absurd hholds hconsumer, fun howner => by cases howner⟩
  case fifo => exact h.fifo
  case order =>
    have horder := h.order
    rw [hidle, List.append_nil] at horder
    simp [State.inHand, horder, ProducerPc.inHand, State.goTo]
  case woken =>
    intro hc hw
    exact owed_goTo (h.woken hc hw) (by simp [hp, ProducerPc.OwesNotify])

/-- The producer that finds the queue empty is the one that owes the
notification from here on. -/
theorem Invariant.push (h : Invariant s) (hp : s.producers p = .locked item) :
    Invariant { s.goTo p (.unlocking s.work.isEmpty) with
      work := s.work ++ [item]
      pushed := s.pushed ++ [item] } := by
  have howner : s.workMutex = some (.producer p) :=
    (h.producerOwns p).mp (by simp [hp, ProducerPc.Holds])
  constructor
  case producerOwns =>
    exact producerOwns_goTo ⟨fun _ => howner, fun _ => trivial⟩ fun q _ => h.producerOwns q
  case consumerOwns => exact h.consumerOwns
  case fifo => simp [h.fifo, State.goTo]
  case order =>
    have horder := h.order
    rw [inHand_of_owner howner, hp] at horder
    simp [State.inHand, howner, State.goTo, horder, ProducerPc.inHand]
  case woken =>
    intro hc _
    by_cases hempty : s.work = []
    · -- `was_empty` is true here
      exact ⟨p, by
        show ((s.goTo p _).producers p).OwesNotify
        simp [hempty, ProducerPc.OwesNotify]⟩
    · -- whoever found it empty before still owes
      exact owed_goTo (h.woken hc hempty) (by simp [hp, ProducerPc.OwesNotify])

theorem Invariant.unlock {wasEmpty : Bool} (h : Invariant s)
    (hp : s.producers p = .unlocking wasEmpty) :
    Invariant { s.goTo p (.notifying wasEmpty) with workMutex := none } := by
  have howner : s.workMutex = some (.producer p) :=
    (h.producerOwns p).mp (by simp [hp, ProducerPc.Holds])
  have hconsumer : ¬ s.consumer.Holds := by simp [h.consumerOwns, howner]
  have hothers := h.others_hold_nothing (p := p) (.inr howner)
  constructor
  case producerOwns =>
    exact producerOwns_goTo (by simp [ProducerPc.Holds]) fun q hq => by simp [hothers q hq]
  case consumerOwns => simp [State.goTo, hconsumer]
  case fifo => exact h.fifo
  case order =>
    have horder := h.order
    rw [inHand_of_owner howner, hp] at horder
    simpa [State.inHand, State.goTo, ProducerPc.inHand] using horder
  case woken =>
    intro hc hw
    exact owed_goTo (h.woken hc hw) (by simp [hp, ProducerPc.OwesNotify])

theorem notifyOne_ne_waiting (c : ConsumerPc) : c.notifyOne ≠ .waiting false := by
  cases c <;> simp [ConsumerPc.notifyOne]

theorem holds_notifyOne (c : ConsumerPc) : c.notifyOne.Holds ↔ c.Holds := by
  cases c <;> simp [ConsumerPc.notifyOne, ConsumerPc.Holds]

theorem Invariant.notify {wasEmpty : Bool} (h : Invariant s)
    (hp : s.producers p = .notifying wasEmpty) :
    Invariant { s.goTo p .idle with
      consumer := if wasEmpty then s.consumer.notifyOne else s.consumer } := by
  have hout : s.workMutex ≠ some (.producer p) := h.not_owner (by simp [hp, ProducerPc.Holds])
  constructor
  case producerOwns =>
    exact producerOwns_goTo ⟨False.elim, hout⟩ fun q _ => h.producerOwns q
  case consumerOwns =>
    cases wasEmpty
    · exact h.consumerOwns
    · exact (holds_notifyOne _).trans h.consumerOwns
  case fifo => exact h.fifo
  case order => exact h.order.trans (congrArg (s.pushed ++ ·) (inHand_goTo hout).symm)
  case woken =>
    intro hc hw
    cases wasEmpty with
    | true =>
      -- the consumer, if it was asleep, is not so any more
      exact absurd hc (notifyOne_ne_waiting _)
    | false => exact owed_goTo (h.woken hc hw) (by simp [hp, ProducerPc.OwesNotify])

end

/-! ## The steps of the consumer -/

section
variable {s : State P T}

/-- The consumer goes on with the same queue and the same mutex, and does
not go to sleep. -/
theorem Invariant.consumer_goesOn {pc : ConsumerPc} (h : Invariant s)
    (hholds : pc.Holds ↔ s.consumer.Holds) (hawake : pc ≠ .waiting false) :
    Invariant { s with consumer := pc } where
  producerOwns := h.producerOwns
  consumerOwns := hholds.trans h.consumerOwns
  fifo := h.fifo
  order := h.order
  woken hc := absurd hc hawake

theorem Invariant.lockPop (h : Invariant s) (hfree : s.workMutex = none) :
    Invariant { s with consumer := .testing, workMutex := some .consumer } := by
  have hidle : s.inHand = [] := inHand_eq_nil (by simp [hfree])
  constructor
  case producerOwns =>
    intro p
    simp [h.producerOwns, hfree]
  case consumerOwns => simp [ConsumerPc.Holds]
  case fifo => exact h.fifo
  case order =>
    have horder := h.order
    rw [hidle] at horder
    exact horder
  case woken => exact fun hc => absurd hc (by simp)

/-- The consumer gives the mutex back. It may sleep only when there is no
work. -/
theorem Invariant.unlockPop {pc : ConsumerPc} (h : Invariant s) (hholds : s.consumer.Holds)
    (hpc : ¬ pc.Holds) (hsleep : pc = .waiting false → s.work = []) :
    Invariant { s with consumer := pc, workMutex := none } := by
  have howner : s.workMutex = some .consumer := h.consumerOwns.mp hholds
  have hidle : s.inHand = [] := inHand_eq_nil (by simp [howner])
  constructor
  case producerOwns =>
    intro p
    simp [h.producerOwns, howner]
  case consumerOwns => simp [hpc]
  case fifo => exact h.fifo
  case order =>
    have horder := h.order
    rw [hidle] at horder
    exact horder
  case woken => exact fun hc hw => absurd (hsleep hc) hw

theorem Invariant.pop {item : T} {rest : List T} (h : Invariant s)
    (hc : s.consumer = .testing) (hw : s.work = item :: rest) :
    Invariant { s with
      consumer := .unlocking
      work := rest
      popped := s.popped ++ [item] } where
  producerOwns := h.producerOwns
  consumerOwns := by
    have := h.consumerOwns
    rw [hc] at this
    exact this
  fifo := by simp [h.fifo, hw]
  order := h.order
  woken hc := by cases hc

end

/-! ## Every run -/

/-- **Step lemma**: every step of every thread keeps the invariant. -/
theorem Invariant.step [DecidableEq P] {s s' : State P T} {e : Event P T} (h : Invariant s)
    (hstep : KQueue.step s e = some s') : Invariant s' := by
  cases e with
  | call p item =>
    simp only [KQueue.step] at hstep
    split at hstep <;> cases hstep
    exact h.call ‹_›
  | lock p =>
    simp only [KQueue.step] at hstep
    split at hstep <;> cases hstep
    exact h.lock ‹_› ‹_›
  | push p =>
    simp only [KQueue.step] at hstep
    split at hstep <;> cases hstep
    exact h.push ‹_›
  | unlock p =>
    simp only [KQueue.step] at hstep
    split at hstep <;> cases hstep
    exact h.unlock ‹_›
  | notify p =>
    simp only [KQueue.step] at hstep
    split at hstep <;> cases hstep
    exact h.notify ‹_›
  | callPop =>
    simp only [KQueue.step] at hstep
    split at hstep <;> cases hstep
    rename_i hc
    exact h.consumer_goesOn (by simp [hc, ConsumerPc.Holds]) (by simp)
  | lockPop =>
    simp only [KQueue.step] at hstep
    split at hstep <;> cases hstep
    exact h.lockPop ‹_›
  | wait =>
    simp only [KQueue.step] at hstep
    split at hstep <;> cases hstep
    rename_i hc hw
    exact h.unlockPop (by simp [hc, ConsumerPc.Holds]) (by simp [ConsumerPc.Holds])
      fun _ => hw
  | wake =>
    simp only [KQueue.step] at hstep
    split at hstep <;> cases hstep
    rename_i hc
    exact h.consumer_goesOn (by simp [hc, ConsumerPc.Holds]) (by simp)
  | pop =>
    simp only [KQueue.step] at hstep
    split at hstep <;> cases hstep
    exact h.pop ‹_› ‹_›
  | unlockPop =>
    simp only [KQueue.step] at hstep
    split at hstep <;> cases hstep
    rename_i hc
    exact h.unlockPop (by simp [hc, ConsumerPc.Holds]) (by simp [ConsumerPc.Holds]) (by simp)

theorem invariant_of_run [DecidableEq P] {s : State P T} {es : List (Event P T)}
    (hrun : run KQueue.step {} es = some s) : Invariant s :=
  run_keeps (fun _ _ _ h hstep => h.step hstep) invariant_init hrun

/-! ## What the producers ask for -/

/-- The item of a producer that has called and waits for the mutex. -/
def ProducerPc.atLock : ProducerPc T → List T
  | .locking item => [item]
  | .idle | .locked _ | .unlocking _ | .notifying _ => []

section
variable [DecidableEq P]

/-- The items of the calls of `push_work` by `p`. -/
def Event.asks (p : P) : Event P T → List T
  | .call q item => if q = p then [item] else []
  | _ => []

/-- What `p` had the mutex for and what it waits for it with. -/
def State.asked (s : State P T) (p : P) : List T :=
  ((s.lockOrder.filter fun x => x.1 = p).map Prod.snd) ++ (s.producers p).atLock

theorem asked_step {s s' : State P T} {e : Event P T} (p : P)
    (hstep : KQueue.step s e = some s') : s'.asked p = s.asked p ++ e.asks p := by
  cases e with
  | call q item =>
    simp only [KQueue.step] at hstep
    split at hstep <;> cases hstep
    rename_i hq
    by_cases hp : p = q
    · subst hp
      simp [State.asked, hq, State.goTo, Event.asks, ProducerPc.atLock]
    · simp [State.asked, State.goTo, Event.asks, hp, Ne.symm hp]
  | lock q =>
    simp only [KQueue.step] at hstep
    split at hstep <;> cases hstep
    rename_i hq _
    by_cases hp : p = q
    · subst hp
      simp [State.asked, hq, State.goTo, Event.asks, ProducerPc.atLock]
    · simp [State.asked, State.goTo, Event.asks, hp, Ne.symm hp]
  | push q | unlock q | notify q =>
    simp only [KQueue.step] at hstep
    split at hstep <;> cases hstep
    rename_i hq
    by_cases hp : p = q
    · subst hp
      simp [State.asked, hq, State.goTo, Event.asks, ProducerPc.atLock]
    · simp [State.asked, State.goTo, Event.asks, hp]
  | callPop | lockPop | wait | wake | pop | unlockPop =>
    simp only [KQueue.step] at hstep
    split at hstep <;> cases hstep
    exact (List.append_nil _).symm

/-- Every item that a producer called `push_work` with is in the lock order
once for each call, in the order of the calls, or waits for the mutex. -/
theorem asked_of_run {s : State P T} {es : List (Event P T)} (p : P)
    (hrun : run KQueue.step {} es = some s) : s.asked p = es.flatMap (Event.asks p) :=
  run_history (H := fun s => s.asked p) (fun _ _ _ => asked_step p) hrun

end

/-- **The queue is a lossless FIFO without lost wake-ups.** In every state
that the threads can reach, what was popped is a prefix of what was pushed, in
the order in which the producers got the mutex; the rest is in the queue or in
the hand of the producer that has the mutex; each producer's items are there
in the order of its calls. When the consumer sleeps without a notification
over a queue that is not empty, a producer that found it empty has still to
notify. -/
theorem kQueue_lossless [DecidableEq P] {s : State P T} {es : List (Event P T)}
    (hrun : run KQueue.step {} es = some s) :
    s.popped <+: s.lockOrder.map Prod.snd ∧
      s.pushed = s.popped ++ s.work ∧
      s.lockOrder.map Prod.snd = s.pushed ++ s.inHand ∧
      (∀ p, s.asked p = es.flatMap (Event.asks p)) ∧
      (s.consumer = .waiting false → s.work ≠ [] →
        ∃ p, s.producers p = .unlocking true ∨ s.producers p = .notifying true) := by
  have h := invariant_of_run hrun
  have horder := h.order
  rw [h.fifo, List.append_assoc] at horder
  refine ⟨⟨s.work ++ s.inHand, horder.symm⟩, h.fifo, h.order, fun p => asked_of_run p hrun,
    fun hc hw => ?_⟩
  obtain ⟨p, hp⟩ := h.woken hc hw
  refine ⟨p, ?_⟩
  cases hpc : s.producers p <;> rw [hpc] at hp <;> simp [ProducerPc.OwesNotify] at hp
  case unlocking => simp [hp]
  case notifying => simp [hp]

/-- The consumer sleeps, one producer has pushed and not yet notified, and a
second producer pushes behind it. -/
def twoProducers : List (Event Bool Nat) :=
  [.callPop, .lockPop, .wait, .call true 7, .lock true, .push true, .unlock true,
    .call false 8, .lock false, .push false]

theorem kQueue_lossless_twoProducers :
    ∃ s, run KQueue.step {} twoProducers = some s ∧ s.work = [7, 8] ∧
      s.consumer = .waiting false ∧
      ∃ p, s.producers p = .unlocking true ∨ s.producers p = .notifying true := by
  refine ⟨_, rfl, rfl, rfl, ?_⟩
  exact (@kQueue_lossless _ _ _ _ twoProducers rfl).2.2.2.2 rfl (by simp)

end KetiEngine.KQueue
