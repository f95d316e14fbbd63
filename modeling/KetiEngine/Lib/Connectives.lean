import KetiEngine.Lib.Loops

/-!
# Connectives — chains of AND and OR

A chain is a sequence of atoms joined by AND and OR. Read with precedence, it
is an OR of AND groups. An evaluator that goes from left to right and stops at
the first answer that settles a pair of atoms is another reading: it stops at
a false atom before an AND, also where another group follows. The two agree
exactly when no true group is cut off this way.
-/

namespace Connectives

variable {α : Type*}

inductive Connective where
  | and | or
  deriving DecidableEq

/-- A sequence of atoms joined by connectives. -/
structure Chain (α : Type*) where
  first : α
  rest : List (Connective × α)

def atomsFrom (a : α) (rest : List (Connective × α)) : List α := a :: rest.map Prod.snd

def Chain.atoms (c : Chain α) : List α := atomsFrom c.first c.rest

/-- The AND groups between the ORs. -/
def groupsFrom (a : α) : List (Connective × α) → List (List α)
  | [] => [[a]]
  | (.or, b) :: rest => [a] :: groupsFrom b rest
  | (.and, b) :: rest =>
      match groupsFrom b rest with
      | [] => [[a]]
      | g :: groups => (a :: g) :: groups

def Chain.groups (c : Chain α) : List (List α) := groupsFrom c.first c.rest

/-- AND binds tighter than OR: some group is true. -/
def Chain.holds (p : α → Bool) (c : Chain α) : Bool := c.groups.any fun g => g.all p

/-- From left to right: a false atom before an AND and a true one before an
OR end the evaluation. -/
def leftToRight (p : α → Bool) (a : α) : List (Connective × α) → Bool
  | [] => p a
  | (.and, b) :: rest => if p a then leftToRight p b rest else false
  | (.or, b) :: rest => if p a then true else leftToRight p b rest

/-- Some group is true, and every group before it is true up to its last
atom. -/
def Chain.Noticed (p : α → Bool) (c : Chain α) : Prop :=
  ∃ before g after, c.groups = before ++ g :: after ∧ g.all p ∧
    ∀ h ∈ before, h.dropLast.all p

theorem groupsFrom_ne_nil (a : α) (rest : List (Connective × α)) : groupsFrom a rest ≠ [] := by
  cases rest with
  | nil => simp [groupsFrom]
  | cons e rest =>
    obtain ⟨conn, b⟩ := e
    cases conn with
    | or => simp [groupsFrom]
    | and =>
      simp only [groupsFrom]
      split <;> simp

theorem nil_notMem_groupsFrom (a : α) (rest : List (Connective × α)) :
    [] ∉ groupsFrom a rest := by
  induction rest generalizing a with
  | nil => simp [groupsFrom]
  | cons e rest ih =>
    obtain ⟨conn, b⟩ := e
    cases conn with
    | or => simp [groupsFrom, ih b]
    | and =>
      have hb := ih b
      simp only [groupsFrom]
      split
      · simp
      · rename_i g groups hgroups
        rw [hgroups, List.mem_cons, not_or] at hb
        simp [hb.2]

/-- **The evaluation from left to right** is a search through the groups that
goes on from those true up to their last atom. -/
theorem leftToRight_eq_reached (p : α → Bool) (a : α) (rest : List (Connective × α)) :
    leftToRight p a rest =
      Loops.reached (fun g => g.dropLast.all p) (fun g => g.all p) (groupsFrom a rest) := by
  induction rest generalizing a with
  | nil => simp [leftToRight, groupsFrom, Loops.reached]
  | cons e rest ih =>
    obtain ⟨conn, b⟩ := e
    cases conn with
    | or =>
      rw [leftToRight, groupsFrom, Loops.reached, ih b]
      cases hp : p a <;> simp [hp]
    | and =>
      have hb := ih b
      obtain ⟨g, groups, hgroups⟩ := List.exists_cons_of_ne_nil (groupsFrom_ne_nil b rest)
      have hg : g ≠ [] := fun hnil => nil_notMem_groupsFrom b rest (by simp [hgroups, hnil])
      rw [hgroups, Loops.reached] at hb
      rw [leftToRight, hb]
      simp only [groupsFrom, hgroups, Loops.reached, List.all_cons,
        List.dropLast_cons_of_ne_nil hg]
      cases p a <;> simp

theorem leftToRight_iff_noticed (p : α → Bool) (c : Chain α) :
    leftToRight p c.first c.rest = true ↔ c.Noticed p := by
  rw [leftToRight_eq_reached, ← Bool.not_eq_false, Loops.reached_eq_false_iff]
  unfold Chain.Noticed Chain.groups
  push Not
  simp only [Bool.not_eq_false]
  exact exists₃_congr fun before g after => and_congr_right fun _ => and_comm

instance (p : α → Bool) (c : Chain α) : Decidable (c.Noticed p) :=
  decidable_of_iff _ (leftToRight_iff_noticed p c)

end Connectives
