import KetiEngine.Lib.Runs
import Mathlib.Algebra.Order.BigOperators.Group.List
import Mathlib.Algebra.Ring.Int.Defs
import Mathlib.Data.List.Perm.Basic

/-!
# Feed — one worker behind a queue

Items are put into a queue in some order. A single worker, who comes with
the first item, takes the oldest item, absorbs it, and leaves as soon as the
weights absorbed add up to a known total. Putting, taking and absorbing
interleave freely.
-/

namespace Feed

open Runs

variable {α : Type*}

/-- Where the worker is. -/
inductive Worker (α : Type*) where
  | absent
  | waiting
  | holding (a : α)
  | gone

/-- The item the worker has taken but not absorbed. -/
def Worker.held : Worker α → List α
  | .holding a => [a]
  | _ => []

/-- The worker comes with the first item. -/
def Worker.come : Worker α → Worker α
  | .absent => .waiting
  | w => w

theorem Worker.come_of_ne {w : Worker α} (h : w ≠ .absent) : w.come = w := by
  cases w with
  | absent => exact absurd rfl h
  | waiting | holding | gone => rfl

structure State (α : Type*) where
  queue : List α := []
  worker : Worker α := .absent
  absorbed : List α := []

/-- The steps left for the worker: two for each item in the queue and one
for the item in hand. -/
def State.pending (s : State α) : Nat :=
  2 * s.queue.length + s.worker.held.length

inductive Action (α : Type*) where
  | put (a : α)
  | take (a : α)
  | absorb (a : α)

/-- The items put by some actions, in order. -/
def puts (as : List (Action α)) : List α :=
  as.filterMap fun
    | .put a => some a
    | _ => none

/-- The items absorbed by some actions, in order. -/
def absorbs (as : List (Action α)) : List α :=
  as.filterMap fun
    | .absorb a => some a
    | _ => none

section Step

variable (weight : α → Int) (total : Int)

def step [DecidableEq α] (s : State α) : Action α → Option (State α)
  | .put a =>
      some { s with queue := s.queue ++ [a], worker := s.worker.come }
  | .take a =>
      match s.worker, s.queue with
      | .waiting, head :: rest =>
          if head = a then some { s with queue := rest, worker := .holding a } else none
      | _, _ => none
  | .absorb a =>
      match s.worker with
      | .holding held =>
          if held = a then
            some { s with
              absorbed := s.absorbed ++ [a]
              worker :=
                if ((s.absorbed ++ [a]).map weight).sum = total then .gone else .waiting }
          else none
      | _ => none

/-- What holds after the actions `as`. -/
structure Inv (as : List (Action α)) (s : State α) : Prop where
  fifo : puts as = absorbs as ++ s.worker.held ++ s.queue
  absorbed : s.absorbed = absorbs as
  absent : s.worker = .absent ↔ puts as = []
  gone : s.worker = .gone ↔
    absorbs as ≠ [] ∧ ((absorbs as).map weight).sum = total

theorem Inv.initial : Inv weight total [] ({} : State α) :=
  ⟨rfl, rfl, by simp [puts], by simp [absorbs]⟩

/-- One action keeps the invariant: an item that is put goes to the end of
the queue, the one taken was its head, the one absorbed was taken. A worker
who has left absorbs nothing more. -/
theorem Inv.step [DecidableEq α] {as : List (Action α)} {s s' : State α} {e : Action α}
    (h : Inv weight total as s) (hs : Feed.step weight total s e = some s') :
    Inv weight total (as ++ [e]) s' := by
  obtain ⟨hfifo, habs, habsent, hgone⟩ := h
  cases e with
  | put a =>
    cases hs
    have hput : puts (as ++ [.put a]) = puts as ++ [a] := by simp [puts]
    have hkeep : absorbs (as ++ [.put a]) = absorbs as := by simp [absorbs]
    refine ⟨?_, by rw [hkeep, habs], ?_, ?_⟩
    · rw [hput, hkeep, hfifo]
      cases s.worker <;> simp [Worker.held, Worker.come]
    · rw [hput]
      cases s.worker <;> simp [Worker.come]
    · rw [hkeep, ← hgone]
      cases s.worker <;> simp [Worker.come]
  | take a =>
    have hput : puts (as ++ [.take a]) = puts as := by simp [puts]
    have hkeep : absorbs (as ++ [.take a]) = absorbs as := by simp [absorbs]
    cases hw : s.worker with
    | waiting =>
      cases hq : s.queue with
      | nil => simp [Feed.step, hw, hq] at hs
      | cons head rest =>
        simp only [Feed.step, hw, hq, Option.ite_none_right_eq_some, Option.some.injEq] at hs
        obtain ⟨rfl, rfl⟩ := hs
        rw [hw] at hfifo habsent hgone
        refine ⟨?_, by rw [hkeep, ← habs], ?_, ?_⟩
        · rw [hput, hkeep, hfifo, hq]
          simp [Worker.held]
        · rw [hput, ← habsent]
          simp
        · rw [hkeep, ← hgone]
          simp
    | absent | holding | gone => simp [Feed.step, hw] at hs
  | absorb a =>
    have hput : puts (as ++ [.absorb a]) = puts as := by simp [puts]
    have hnew : absorbs (as ++ [.absorb a]) = absorbs as ++ [a] := by simp [absorbs]
    cases hw : s.worker with
    | holding held =>
      simp only [Feed.step, hw, Option.ite_none_right_eq_some, Option.some.injEq] at hs
      obtain ⟨rfl, rfl⟩ := hs
      rw [hw] at hfifo habsent hgone
      refine ⟨?_, by rw [hnew, ← habs], ?_, ?_⟩
      · rw [hput, hnew, hfifo]
        split <;> simp [Worker.held]
      · rw [hput, ← habsent]
        split <;> simp
      · rw [hnew, ← habs]
        split <;> simp_all
    | absent | waiting | gone => simp [Feed.step, hw] at hs

/-- The invariant holds after every run from an empty feed. -/
theorem inv_of_run [DecidableEq α] {as : List (Action α)} {s : State α}
    (hrun : run (Feed.step weight total) {} as = some s) : Inv weight total as s := by
  have key : ∀ rest past t, Inv weight total past t →
      run (Feed.step weight total) t rest = some s → Inv weight total (past ++ rest) s := by
    intro rest
    induction rest with
    | nil =>
      intro past t ht hr
      cases hr
      simpa using ht
    | cons e rest ih =>
      intro past t ht hr
      obtain ⟨t', ht', hrest⟩ := run_cons_some hr
      simpa using ih (past ++ [e]) t' (ht.step weight total ht') hrest
  simpa using key as [] {} (Inv.initial weight total) hrun

end Step

/-! ## The steps left -/

theorem pending_take [DecidableEq α] {weight : α → Int} {total : Int} {s s' : State α}
    {a : α} (h : step weight total s (.take a) = some s') :
    s'.pending < s.pending := by
  cases hw : s.worker with
  | waiting =>
    cases hq : s.queue with
    | nil => simp [step, hw, hq] at h
    | cons head rest =>
      simp only [step, hw, hq, Option.ite_none_right_eq_some, Option.some.injEq] at h
      obtain ⟨rfl, rfl⟩ := h
      simp only [State.pending, hw, hq, Worker.held, List.length_cons, List.length_nil]
      omega
  | absent | holding | gone => simp [step, hw] at h

theorem pending_absorb [DecidableEq α] {weight : α → Int} {total : Int} {s s' : State α}
    {a : α} (h : step weight total s (.absorb a) = some s') :
    s'.pending < s.pending := by
  cases hw : s.worker with
  | holding held =>
    simp only [step, hw, Option.ite_none_right_eq_some, Option.some.injEq] at h
    obtain ⟨rfl, rfl⟩ := h
    have hheld : (if ((s.absorbed ++ [held]).map weight).sum = total then Worker.gone
        else Worker.waiting).held = ([] : List α) := by
      split <;> rfl
    simp only [State.pending, hheld, hw]
    simp [Worker.held]
  | absent | waiting | gone => simp [step, hw] at h

/-! ## A complete delivery -/

private theorem eq_nil_of_weight {weight : α → Int} {l : List α}
    (hpos : ∀ a ∈ l, 1 ≤ weight a) (hsum : (l.map weight).sum ≤ 0) : l = [] := by
  cases l with
  | nil => rfl
  | cons a l =>
    have hrest : ∀ m : List α, (∀ a ∈ m, 1 ≤ weight a) → 0 ≤ (m.map weight).sum := by
      intro m hm
      apply List.sum_nonneg
      intro n hn
      obtain ⟨b, hb, rfl⟩ := List.mem_map.mp hn
      exact Int.le_trans (by decide) (hm b hb)
    have h := hrest l fun b hb => hpos b (by simp [hb])
    have ha := hpos a (by simp)
    simp only [List.map_cons, List.sum_cons] at hsum
    omega

/-- **The worker leaves with the last item**: when the items put belong to a
collection of positive weights that add up to the total, the worker has left
if and only if everything in the collection has been absorbed. -/
theorem gone_iff {weight : α → Int} {total : Int} {items rest : List α}
    (hpos : ∀ a ∈ items, 1 ≤ weight a) (htotal : (items.map weight).sum = total)
    {as : List (Action α)} {s : State α} (h : Inv weight total as s)
    (hitems : (puts as ++ rest).Perm items) :
    s.worker = .gone ↔ items ≠ [] ∧ (absorbs as).Perm items := by
  rw [h.gone]
  have hsplit : (absorbs as ++ (s.worker.held ++ s.queue ++ rest)).Perm items := by
    rw [h.fifo] at hitems
    simpa using hitems
  constructor
  · rintro ⟨hne, hsum⟩
    have hall := (hsplit.map weight).sum_eq
    have hzero : ((s.worker.held ++ s.queue ++ rest).map weight).sum ≤ 0 := by
      simp only [List.map_append, List.sum_append] at hall ⊢
      omega
    have hnil := eq_nil_of_weight
      (fun a ha => hpos a (hsplit.mem_iff.mp (List.mem_append_right _ ha))) hzero
    rw [hnil, List.append_nil] at hsplit
    refine ⟨?_, hsplit⟩
    rintro rfl
    exact hne hsplit.eq_nil
  · rintro ⟨hne, hperm⟩
    refine ⟨?_, (hperm.map weight).sum_eq.trans htotal⟩
    intro hnil
    rw [hnil] at hperm
    exact hne hperm.symm.eq_nil

/-- A worker with nothing left to do has left, once everything in the
collection has been put. -/
theorem gone_of_idle {weight : α → Int} {total : Int} {items : List α}
    (hpos : ∀ a ∈ items, 1 ≤ weight a) (htotal : (items.map weight).sum = total)
    {as : List (Action α)} {s : State α} (h : Inv weight total as s)
    (hput : (puts as).Perm items) (hne : items ≠ []) (hheld : s.worker.held = [])
    (hidle : s.worker = .waiting → s.queue = []) : s.worker = .gone := by
  cases hw : s.worker with
  | gone => rfl
  | holding a => simp [hw, Worker.held] at hheld
  | absent =>
    rw [h.absent.mp hw] at hput
    exact absurd hput.symm.eq_nil hne
  | waiting =>
    have hall : puts as = absorbs as := by
      rw [h.fifo, hheld, hidle hw, List.append_nil, List.append_nil]
    have hgone := (gone_iff hpos htotal h ((List.append_nil (puts as)).symm ▸ hput)).mpr
      ⟨hne, hall ▸ hput⟩
    exact absurd (hw.symm.trans hgone) (by simp)

end Feed
