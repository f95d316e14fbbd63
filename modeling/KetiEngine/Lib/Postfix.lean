import Mathlib.Data.List.Basic
import Mathlib.Data.List.Induction

/-!
# Postfix — expressions and the stack that evaluates them

Binary expression trees over arbitrary leaves and operators, their postfix
token lists, and a stack machine over arbitrary values. On the tokens of a
tree the machine computes the value of the tree, whatever is on the stack.
-/

namespace PostfixExpr

/-- A token of a postfix expression. -/
inductive Token (L O : Type*) where
  | leaf (l : L)
  | op (o : O)

/-- A binary expression. -/
inductive Expr (L O : Type*) where
  | leaf (l : L)
  | node (o : O) (a b : Expr L O)

variable {L O V W : Type*}

namespace Expr

/-- The tree in postfix order. -/
def tokens : Expr L O → List (Token L O)
  | leaf l => [.leaf l]
  | node o a b => a.tokens ++ (b.tokens ++ [.op o])

/-- The leaves from left to right. -/
def leaves : Expr L O → List L
  | leaf l => [l]
  | node _ a b => a.leaves ++ b.leaves

/-- The value of a tree, where leaves and operators have one. -/
def eval (leafValue : L → Option V) (opValue : O → V → V → Option V) : Expr L O → Option V
  | leaf l => leafValue l
  | node o a b =>
      (a.eval leafValue opValue).bind fun x =>
        (b.eval leafValue opValue).bind fun y => opValue o x y

/-- The tree and the trees below it. -/
def subtrees : Expr L O → List (Expr L O)
  | leaf l => [leaf l]
  | node o a b => node o a b :: (a.subtrees ++ b.subtrees)

/-- Every leaf of a tree is fit, and every operator for the values of its
operands. -/
def Fits (leafValue : L → Option V) (opValue : O → V → V → Option V) (leafFits : L → Prop)
    (opFits : O → V → V → Prop) : Expr L O → Prop
  | leaf l => leafFits l
  | node o a b =>
      a.Fits leafValue opValue leafFits opFits ∧ b.Fits leafValue opValue leafFits opFits ∧
        ∀ x ∈ a.eval leafValue opValue, ∀ y ∈ b.eval leafValue opValue, opFits o x y

theorem eval_node_eq_some {leafValue : L → Option V} {opValue : O → V → V → Option V} {o : O}
    {a b : Expr L O} {z : V} :
    (node o a b).eval leafValue opValue = some z ↔ ∃ x y, a.eval leafValue opValue = some x ∧
      b.eval leafValue opValue = some y ∧ opValue o x y = some z := by
  simp only [eval, Option.bind_eq_some_iff]
  constructor
  · rintro ⟨x, hx, y, hy, hz⟩
    exact ⟨x, y, hx, hy, hz⟩
  · rintro ⟨x, y, hx, hy, hz⟩
    exact ⟨x, hx, y, hy, hz⟩

/-- **Two meanings of a tree agree** up to `R` where all of it fits. -/
theorem eval_refines (leafValue : L → Option V) (opValue : O → V → V → Option V)
    (R : V → W → Prop) {leafValue' : L → Option W} {opValue' : O → W → W → Option W}
    {leafFits : L → Prop} {opFits : O → W → W → Prop}
    (hleaf : ∀ l w, leafFits l → leafValue' l = some w → ∃ v, leafValue l = some v ∧ R v w)
    (hop : ∀ o x y u v w, opFits o u v → R x u → R y v → opValue' o u v = some w →
      ∃ z, opValue o x y = some z ∧ R z w)
    {e : Expr L O} (hfits : e.Fits leafValue' opValue' leafFits opFits) {w : W}
    (hw : e.eval leafValue' opValue' = some w) :
    ∃ v, e.eval leafValue opValue = some v ∧ R v w := by
  induction e generalizing w with
  | leaf l => exact hleaf l w hfits hw
  | node o a b iha ihb =>
    obtain ⟨ha, hb, hnode⟩ := hfits
    obtain ⟨u, v, hu, hv, hw⟩ := eval_node_eq_some.mp hw
    obtain ⟨x, hx, hxu⟩ := iha ha hu
    obtain ⟨y, hy, hyv⟩ := ihb hb hv
    obtain ⟨z, hz, hzw⟩ := hop o x y u v w (hnode u hu v hv) hxu hyv hw
    exact ⟨z, eval_node_eq_some.mpr ⟨x, y, hx, hy, hz⟩, hzw⟩

theorem leaf_mem_tokens {l : L} {e : Expr L O} : .leaf l ∈ e.tokens ↔ l ∈ e.leaves := by
  induction e with
  | leaf l' => simp [tokens, leaves]
  | node o a b iha ihb => simp [tokens, leaves, iha, ihb]

/-- A postfix expression begins with its first leaf. -/
theorem tokens_eq_cons (e : Expr L O) : ∃ l ts, e.tokens = .leaf l :: ts ∧ l ∈ e.leaves := by
  induction e with
  | leaf l => exact ⟨l, [], rfl, by simp [leaves]⟩
  | node o a b iha _ =>
    obtain ⟨l, ts, hts, hl⟩ := iha
    exact ⟨l, ts ++ (b.tokens ++ [.op o]), by simp [tokens, hts], by simp [leaves, hl]⟩

/-- With an operator there is more than the first leaf. -/
theorem tokens_node_eq_cons (o : O) (a b : Expr L O) :
    ∃ l ts, (node o a b).tokens = .leaf l :: ts ∧ ts ≠ [] ∧ l ∈ (node o a b).leaves := by
  obtain ⟨l, ts, hts, hl⟩ := a.tokens_eq_cons
  exact ⟨l, ts ++ (b.tokens ++ [.op o]), by simp [tokens, hts], by simp, by simp [leaves, hl]⟩

end Expr

section Machine

variable (leafValue : L → Option V) (opValue : O → V → V → Option V)

/-- A leaf pushes its value; an operator replaces the two values on top,
the upper one being its right operand. -/
def step (stack : List V) : Token L O → Option (List V)
  | .leaf l => (leafValue l).map (· :: stack)
  | .op o =>
      match stack with
      | y :: x :: rest => (opValue o x y).map (· :: rest)
      | _ => none

def run (stack : List V) (ts : List (Token L O)) : Option (List V) :=
  ts.foldlM (step leafValue opValue) stack

end Machine

/-! ## Parts of a postfix expression -/

def Token.isOp : Token L O → Bool
  | .leaf _ => false
  | .op _ => true

namespace Expr

/-- There is one leaf more than there are operators. -/
theorem length_tokens (e : Expr L O) :
    e.tokens.length = 2 * e.tokens.countP Token.isOp + 1 := by
  induction e with
  | leaf l => rfl
  | node o a b iha ihb =>
    simp only [tokens, List.length_append, List.countP_append, iha, ihb]
    simp [Token.isOp]
    omega

/-- **Every part at the beginning** has more leaves than operators. -/
theorem countP_isOp_lt {e : Expr L O} {done rest : List (Token L O)}
    (h : e.tokens = done ++ rest) (hne : done ≠ []) :
    2 * done.countP Token.isOp < done.length := by
  induction e generalizing done rest with
  | leaf l =>
    obtain ⟨t, ts, rfl⟩ := List.exists_cons_of_ne_nil hne
    obtain ⟨rfl, hts⟩ := List.cons.inj h
    obtain ⟨rfl, -⟩ := List.append_eq_nil_iff.mp hts.symm
    simp [Token.isOp]
  | node o a b iha ihb =>
    have ha := a.length_tokens
    have hb := b.length_tokens
    rcases List.append_eq_append_iff.mp h with ⟨mid, rfl, hmid⟩ | ⟨mid, hmid, -⟩
    · -- the left operand is complete
      rw [List.countP_append, List.length_append]
      rcases List.append_eq_append_iff.mp hmid with ⟨last, rfl, hlast⟩ | ⟨left, hleft, -⟩
      · have hlen := congrArg List.length hlast
        have hcount := congrArg (List.countP Token.isOp) hlast
        simp only [List.length_append, List.length_singleton, List.countP_append,
          List.countP_singleton, Token.isOp, if_true] at hlen hcount
        rw [List.countP_append, List.length_append]
        rcases last with _ | ⟨t, last⟩
        · simp
          omega
        · simp only [List.length_cons] at hlen ⊢
          omega
      · by_cases hmidne : mid = []
        · subst hmidne
          simp
          omega
        · have hpart := ihb hleft hmidne
          omega
    · exact iha hmid hne

/-- A part behind a leaf that is not the first, without the last token, has no
more leaves than operators. -/
theorem length_le_of_between {e : Expr L O} {before middle : List (Token L O)}
    {t last : Token L O} (h : e.tokens = before ++ t :: (middle ++ [last])) (hne : before ≠ [])
    (ht : t.isOp = false) : middle.length ≤ 2 * middle.countP Token.isOp := by
  have hlength := e.length_tokens
  have hbefore := countP_isOp_lt h hne
  have hlast : last.isOp = true := by
    cases e with
    | leaf l =>
      have htokens := congrArg List.length h
      simp only [tokens, List.length_cons, List.length_nil, List.length_append] at htokens
      omega
    | node o a b =>
      have hends : (a.tokens ++ b.tokens) ++ [.op o] = (before ++ t :: middle) ++ [last] := by
        simpa [tokens] using h
      obtain ⟨-, hop⟩ := List.append_inj' hends rfl
      rw [← List.singleton_inj.mp hop]
      rfl
  rw [h] at hlength
  simp only [List.length_append, List.length_cons, List.length_nil, List.countP_append,
    List.countP_cons, List.countP_nil, ht, hlast, if_true, Bool.false_eq_true,
    if_false] at hlength
  omega

end Expr

/-! ## Machines that lose a leaf -/

section Height

variable {σ : Type*} {f : σ → Token L O → Option σ} (height : σ → Nat) (cost : Token L O → Nat)

/-- Where a token leaves at most one value more than it costs, and an operator
costs two, a run leaves no more than its leaves exceed its operators. -/
theorem height_run_le (hop : ∀ o, 2 ≤ cost (.op o)) {ts : List (Token L O)}
    (hstep : ∀ t ∈ ts, ∀ st st', f st t = some st' → height st' + cost t ≤ height st + 1)
    {st st' : σ} (h : ts.foldlM f st = some st') :
    height st' + 2 * ts.countP Token.isOp ≤ height st + ts.length := by
  induction ts generalizing st with
  | nil =>
    cases h
    exact Nat.le_refl _
  | cons t ts ih =>
    obtain ⟨mid, hmid, hrest⟩ := Option.bind_eq_some_iff.mp h
    have hfirst := hstep t (by simp) st mid hmid
    have hthen := ih (fun u hu => hstep u (by simp [hu])) hrest
    rw [List.countP_cons, List.length_cons]
    cases t with
    | leaf l =>
      simp only [Token.isOp, Bool.false_eq_true, if_false]
      omega
    | op o =>
      have hcost := hop o
      simp only [Token.isOp, if_true]
      omega

/-- **A leaf that costs** a value is missing in the end. -/
theorem height_tokens_le (hop : ∀ o, 2 ≤ cost (.op o)) {e : Expr L O}
    (hstep : ∀ t ∈ e.tokens, ∀ st st', f st t = some st' → height st' + cost t ≤ height st + 1)
    {l : L} (hl : l ∈ e.leaves) {st st' : σ} (h : e.tokens.foldlM f st = some st') :
    height st' + cost (.leaf l) ≤ height st + 1 := by
  obtain ⟨left, right, hsplit⟩ := List.append_of_mem (Expr.leaf_mem_tokens.mpr hl)
  have hlength := e.length_tokens
  rw [hsplit] at hstep hlength h
  rw [List.foldlM_append] at h
  obtain ⟨mid, hleft, hrest⟩ := Option.bind_eq_some_iff.mp h
  obtain ⟨next, hleaf, hright⟩ := Option.bind_eq_some_iff.mp hrest
  have hleft := height_run_le height cost hop (fun t ht => hstep t (by simp [ht])) hleft
  have hleaf := hstep (.leaf l) (by simp) mid next hleaf
  have hright := height_run_le height cost hop (fun t ht => hstep t (by simp [ht])) hright
  rw [List.countP_append, List.countP_cons, List.length_append, List.length_cons] at hlength
  simp only [Token.isOp, Bool.false_eq_true, if_false] at hlength
  omega

/-- **One leaf too few**: on an empty stack an expression does not run when a
leaf of it is taken for an operator. -/
theorem run_eq_none_of_seen (seen : Token L O → Bool)
    (hstep : ∀ st t st', f st t = some st' → height st' + 2 * (seen t).toNat = height st + 1)
    {e : Expr L O} (hop : ∀ o, seen (.op o)) {l : L} (hl : l ∈ e.leaves) (hseen : seen (.leaf l))
    {st : σ} (hempty : height st = 0) : e.tokens.foldlM f st = none := by
  rw [Option.eq_none_iff_forall_ne_some]
  intro st' hrun
  have hheight := height_tokens_le height (fun t => 2 * (seen t).toNat)
    (fun o => by simp [hop o]) (fun t _ st st' h => Nat.le_of_eq (hstep st t st' h)) hl hrun
  simp only [hseen, Bool.toNat_true] at hheight
  omega

end Height

/-! ## Machines that are right about some operands -/

section Follows

variable {σ : Type*} {rep : List V → σ} {f : σ → Token L O → Option σ}
  {leafValue : L → Option V} {opValue : O → V → V → Option V} {fits : L → Prop} {good : V → Prop}

/-- `f` does on a stack what the machine does, for the leaves that fit and as
long as the operands are good; and what it pushes then is good. -/
structure Follows (rep : List V → σ) (f : σ → Token L O → Option σ) (leafValue : L → Option V)
    (opValue : O → V → V → Option V) (fits : L → Prop) (good : V → Prop) : Prop where
  leaf : ∀ l stack, fits l →
    f (rep stack) (.leaf l) = (leafValue l).map fun v => rep (v :: stack)
  leafGood : ∀ l v, fits l → leafValue l = some v → good v
  op : ∀ o x y stack, good x → good y →
    f (rep (y :: x :: stack)) (.op o) = (opValue o x y).map fun z => rep (z :: stack)
  opGood : ∀ o x y z, good x → good y → opValue o x y = some z → good z

/-- Before an operator the leaves exceed the operators by two at least. -/
theorem exists_operands {e : Expr L O} {done rest : List (Token L O)} {o : O}
    (hsplit : e.tokens = done ++ .op o :: rest) {vs : List V}
    (hcount : vs.length + 2 * done.countP Token.isOp = done.length) :
    ∃ x y below, vs = y :: x :: below := by
  have hpart : e.tokens = done ++ [.op o] ++ rest := by simp [hsplit]
  have hmore := Expr.countP_isOp_lt hpart (by simp)
  simp only [List.countP_append, List.length_append, List.countP_singleton, Token.isOp,
    if_true, List.length_singleton] at hmore
  match vs, hcount with
  | y :: x :: below, _ => exact ⟨x, y, below, rfl⟩
  | [_], hcount | [], hcount =>
    simp at hcount
    omega

/-- **The stack in between**: in the middle of an expression there are good
values on top of what was there, as many as the leaves exceed the operators. -/
theorem Follows.stack (h : Follows rep f leafValue opValue fits good) {e : Expr L O}
    (hfits : ∀ l ∈ e.leaves, fits l) {done rest : List (Token L O)}
    (hsplit : e.tokens = done ++ rest) {stack : List V} {st : σ}
    (hrun : done.foldlM f (rep stack) = some st) :
    ∃ vs, st = rep (vs ++ stack) ∧ (∀ v ∈ vs, good v) ∧
      vs.length + 2 * done.countP Token.isOp = done.length := by
  induction done using List.reverseRecOn generalizing rest st with
  | nil =>
    cases hrun
    exact ⟨[], rfl, by simp, rfl⟩
  | append_singleton done t ih =>
    rw [List.foldlM_append] at hrun
    obtain ⟨mid, hmid, hlast⟩ := Option.bind_eq_some_iff.mp hrun
    have hsplit' : e.tokens = done ++ t :: rest := by rw [hsplit, List.append_assoc]; rfl
    obtain ⟨vs, rfl, hgood, hcount⟩ := ih hsplit' hmid
    rw [List.foldlM_cons] at hlast
    obtain ⟨st', hstep, hnil⟩ := Option.bind_eq_some_iff.mp hlast
    cases hnil
    rw [List.countP_append, List.length_append]
    cases t with
    | leaf l =>
      have hl : fits l := hfits l (Expr.leaf_mem_tokens.mp (by simp [hsplit']))
      rw [h.leaf l _ hl] at hstep
      obtain ⟨v, hv, rfl⟩ := Option.map_eq_some_iff.mp hstep
      refine ⟨v :: vs, rfl, List.forall_mem_cons.mpr ⟨h.leafGood l v hl hv, hgood⟩, ?_⟩
      simp [Token.isOp]
      omega
    | op o =>
      obtain ⟨x, y, below, rfl⟩ := exists_operands hsplit' hcount
      obtain ⟨hy, hx, hbelow⟩ : good y ∧ good x ∧ ∀ v ∈ below, good v := by simpa using hgood
      rw [List.cons_append, List.cons_append, h.op o x y _ hx hy] at hstep
      obtain ⟨z, hz, rfl⟩ := Option.map_eq_some_iff.mp hstep
      refine ⟨z :: below, rfl, List.forall_mem_cons.mpr ⟨h.opGood o x y z hx hy hz, hbelow⟩, ?_⟩
      simp only [List.length_cons, List.length_nil, List.countP_singleton, Token.isOp,
        if_true] at hcount ⊢
      omega

/-- **An operator finds its operands.** -/
theorem Follows.operands (h : Follows rep f leafValue opValue fits good) {e : Expr L O}
    (hfits : ∀ l ∈ e.leaves, fits l) {done rest : List (Token L O)} {o : O}
    (hsplit : e.tokens = done ++ .op o :: rest) {stack : List V} {st : σ}
    (hrun : done.foldlM f (rep stack) = some st) :
    ∃ x y vs, st = rep (y :: x :: (vs ++ stack)) ∧ good x ∧ good y := by
  obtain ⟨vs, rfl, hgood, hcount⟩ := h.stack hfits hsplit hrun
  obtain ⟨x, y, below, rfl⟩ := exists_operands hsplit hcount
  exact ⟨x, y, below, rfl, hgood x (by simp), hgood y (by simp)⟩

/-- **A whole expression** leaves its value, a good one, on what was there. -/
theorem Follows.tokens (h : Follows rep f leafValue opValue fits good) {e : Expr L O}
    (hfits : ∀ l ∈ e.leaves, fits l) (stack : List V) :
    (∀ v ∈ e.eval leafValue opValue, good v) ∧
      e.tokens.foldlM f (rep stack) =
        (e.eval leafValue opValue).map fun v => rep (v :: stack) := by
  induction e generalizing stack with
  | leaf l =>
    have hl := hfits l (by simp [Expr.leaves])
    refine ⟨fun v hv => h.leafGood l v hl hv, ?_⟩
    rw [Expr.tokens, List.foldlM_cons, h.leaf l stack hl]
    simp only [Expr.eval]
    cases leafValue l <;> rfl
  | node o a b iha ihb =>
    have hleft := iha fun l hl => hfits l (by simp [Expr.leaves, hl])
    have hright := ihb fun l hl => hfits l (by simp [Expr.leaves, hl])
    constructor
    · intro z hz
      obtain ⟨x, y, hx, hy, hz⟩ := Expr.eval_node_eq_some.mp hz
      exact h.opGood o x y z ((hleft stack).1 x hx) ((hright stack).1 y hy) hz
    · rw [Expr.tokens, List.foldlM_append, (hleft stack).2, Expr.eval]
      cases hx : a.eval leafValue opValue with
      | none => rfl
      | some x =>
        simp only [Option.map_some, Option.bind_eq_bind, Option.bind_some]
        rw [List.foldlM_append, (hright (x :: stack)).2]
        cases hy : b.eval leafValue opValue with
        | none => rfl
        | some y =>
          simp only [Option.map_some, Option.bind_eq_bind, Option.bind_some, List.foldlM_cons]
          rw [h.op o x y stack ((hleft stack).1 x hx) ((hright stack).1 y hy)]
          cases opValue o x y <;> rfl

end Follows

/-! ## The stack machine itself -/

section
variable (leafValue : L → Option V) (opValue : O → V → V → Option V)

theorem step_follows :
    Follows id (step leafValue opValue) leafValue opValue (fun _ => True) (fun _ => True) where
  leaf _ _ _ := rfl
  leafGood _ _ _ _ := trivial
  op _ _ _ _ _ _ := rfl
  opGood _ _ _ _ _ _ _ := trivial

/-- **The stack machine computes the tree.** -/
theorem run_tokens (e : Expr L O) (stack : List V) (rest : List (Token L O)) :
    run leafValue opValue stack (e.tokens ++ rest) =
      (e.eval leafValue opValue).bind fun v => run leafValue opValue (v :: stack) rest := by
  have htokens : e.tokens.foldlM (step leafValue opValue) stack =
      (e.eval leafValue opValue).map (· :: stack) :=
    ((step_follows leafValue opValue).tokens (fun _ _ => trivial) stack).2
  unfold run
  rw [List.foldlM_append, htokens]
  cases e.eval leafValue opValue <;> rfl

end

/-- A machine with another representation of its stack follows the stack
machine as long as every token does. -/
theorem foldlM_of_step {σ : Type*} {leafValue : L → Option V}
    {opValue : O → V → V → Option V} (rep : List V → σ) (f : σ → Token L O → Option σ)
    {stack stack' : List V} {ts : List (Token L O)}
    (hstep : ∀ t ∈ ts, ∀ stack stack', step leafValue opValue stack t = some stack' →
      f (rep stack) t = some (rep stack'))
    (h : run leafValue opValue stack ts = some stack') :
    ts.foldlM f (rep stack) = some (rep stack') := by
  induction ts generalizing stack with
  | nil =>
    cases h
    rfl
  | cons t ts ih =>
    obtain ⟨mid, hmid, hrest⟩ := Option.bind_eq_some_iff.mp h
    rw [List.foldlM_cons, hstep t (by simp) stack mid hmid]
    exact ih (fun u hu => hstep u (by simp [hu])) hrest

end PostfixExpr
