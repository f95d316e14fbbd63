import KetiEngine.Merging.Arithmetic
import KetiEngine.Merging.CaseBranches

/-!
# PostfixStack — the operand stack of `Postfix`

An operator pops its operands before it looks at their types, and pushes
nothing for types it does not know. Over INT and FLOAT operands every operator
finds two operands and pushes one, so the tokens of an expression leave one
operand on top of what was there. A literal that `stoi` or `stod` does not
accept ends the evaluation.
-/

namespace KetiEngine.Merging

open KetiEngine PostfixExpr

/-! ## The loop -/

/-- The tokens of an expression. -/
def exprWords (e : Expr NumLeaf NumOp) : List Word := e.tokens.map numToken

/-- The loop over the first tokens of an expression among others. -/
theorem postfixLoop_part {t : ColMap} {r : Nat} {e : Expr NumLeaf NumOp}
    {done rest : List (Token NumLeaf NumOp)} (hsplit : e.tokens = done ++ rest)
    (selectType : SelectType) (before after : List Word) (operStack : List T) :
    postfixLoop (rowEnv t r) (wordsProjection selectType (before ++ exprWords e ++ after))
        before.length (before.length + done.length) operStack =
      done.foldlM (numStep t r) operStack := by
  have hloop := postfixLoop_segment (rowEnv t r) selectType before (done.map numToken)
    (rest.map numToken ++ after) operStack
  have hwords : before ++ exprWords e ++ after =
      before ++ done.map numToken ++ (rest.map numToken ++ after) := by
    simp [exprWords, hsplit]
  rw [List.length_map, List.foldlM_map] at hloop
  rw [hwords]
  exact hloop

/-! ## Operands -/

/-- A leaf of a numeric expression on row `r`: an INT or FLOAT column that has
the row, an integer literal or a literal with a fraction. -/
def NumLeaf.Numeric (t : ColMap) (r : Nat) : NumLeaf → Prop
  | .column name =>
      (t.get name).type = .int ∧ r < (t.get name).intvec.length ∨
        (t.get name).type = .float ∧ r < (t.get name).floatvec.length
  | .integer type text => type ∈ [ValueType.int16, .int32, .int64] ∧ (integerText text).isSome
  | .decimal type _ => type ∈ [ValueType.float32, .double, .decimal]

/-- A literal that `stoi` or `stod` accepts. -/
def NumLeaf.Accepted : NumLeaf → Prop
  | .column _ => True
  | .integer _ text => ∀ n ∈ integerText text, -2 ^ 31 ≤ n ∧ n < 2 ^ 31
  | .decimal _ text => (stod text).isSome

instance (l : NumLeaf) : Decidable l.Accepted := by
  cases l <;> unfold NumLeaf.Accepted <;> infer_instance

/-- **A leaf** pushes one number, or throws. -/
theorem leaf_cases {t : ColMap} {r : Nat} {l : NumLeaf} (h : l.Numeric t r) :
    (l.Accepted ∧ ∃ x : T, x.Numeric ∧
      ∀ operStack, numStep t r operStack (.leaf l) = some (x :: operStack)) ∨
    (¬ l.Accepted ∧ ∀ operStack, numStep t r operStack (.leaf l) = none) := by
  cases l with
  | column name =>
    refine .inl ⟨trivial, ?_⟩
    rcases h with ⟨htype, hr⟩ | ⟨htype, hr⟩
    · refine ⟨{ varInt := (t.get name).intvec[r], type := .int }, .inl rfl, fun operStack => ?_⟩
      simp [numStep, numToken, postfixStep, columnOperand, rowEnv, htype, hr]
    · refine ⟨{ varFloat := (t.get name).floatvec[r], realSize := (t.get name).realSize,
                type := .float }, .inr rfl, fun operStack => ?_⟩
      simp [numStep, numToken, postfixStep, columnOperand, rowEnv, htype, hr]
  | integer type text =>
    obtain ⟨htype, htext⟩ := h
    obtain ⟨n, hn⟩ := Option.isSome_iff_exists.mp htext
    have hread := stoi_eq hn
    have hstep : ∀ operStack, numStep t r operStack (.leaf (.integer type text)) =
        (stoi text).map fun n => { varInt := n, type := .int } :: operStack := by
      simp only [List.mem_cons, List.not_mem_nil, or_false] at htype
      rcases htype with rfl | rfl | rfl <;> exact fun _ => rfl
    simp only [NumLeaf.Accepted, hn, Option.mem_def, Option.some.injEq, forall_eq']
    by_cases hrange : -2 ^ 31 ≤ n ∧ n < 2 ^ 31
    · refine .inl ⟨hrange, { varInt := n, type := .int }, .inl rfl, fun operStack => ?_⟩
      rw [hstep, hread, if_pos hrange]
      rfl
    · refine .inr ⟨hrange, fun operStack => ?_⟩
      rw [hstep, hread, if_neg hrange]
      rfl
  | decimal type text =>
    have hstep : ∃ size, ∀ operStack, numStep t r operStack (.leaf (.decimal type text)) =
        (stod text).map fun x =>
          { varFloat := x, type := .float, realSize := size } :: operStack := by
      simp only [NumLeaf.Numeric, List.mem_cons, List.not_mem_nil, or_false] at h
      rcases h with rfl | rfl | rfl
      · exact ⟨_, fun _ => rfl⟩
      · exact ⟨_, fun _ => rfl⟩
      · exact ⟨_, fun _ => rfl⟩
    obtain ⟨size, hstep⟩ := hstep
    simp only [NumLeaf.Accepted, hstep]
    cases hread : stod text with
    | none => exact .inr ⟨by simp, fun _ => rfl⟩
    | some x =>
      exact .inl ⟨rfl, { varFloat := x, type := .float, realSize := size }, .inr rfl, fun _ => rfl⟩

theorem arithmetic_cases (onInt : Int → Int → Option Int) (onFloat : Double → Double → Double)
    (size : Int → Int → Int) {x y : T} (hx : x.Numeric) (hy : y.Numeric) :
    (∃ z : T, z.Numeric ∧ arithmetic onInt onFloat size x y = some [z]) ∨
    (x.type = .int ∧ y.type = .int ∧ onInt x.varInt y.varInt = none ∧
      arithmetic onInt onFloat size x y = none) := by
  rcases hx with hx | hx <;> rcases hy with hy | hy
  · cases hn : onInt x.varInt y.varInt with
    | none => exact .inr ⟨hx, hy, rfl, by simp [arithmetic, hx, hy, hn]⟩
    | some n =>
      exact .inl ⟨{ varInt := n, type := .int }, .inl rfl, by simp [arithmetic, hx, hy, hn]⟩
  · refine .inl ⟨_, ?_, by simp only [arithmetic, hx, hy]; rfl⟩
    exact .inr rfl
  · refine .inl ⟨_, ?_, by simp only [arithmetic, hx, hy]; rfl⟩
    exact .inr rfl
  · refine .inl ⟨_, ?_, by simp only [arithmetic, hx, hy]; rfl⟩
    exact .inr rfl

/-- A division of an INT by the INT 0. -/
def NumOp.ZeroDivisor (o : NumOp) (x y : T) : Prop :=
  o = .divided ∧ x.type = .int ∧ y.type = .int ∧ y.varInt = 0

/-- A division of an INT by an INT whose quotient is no `int64_t`. -/
def NumOp.Overflow (o : NumOp) (x y : T) : Prop :=
  o = .divided ∧ x.type = .int ∧ y.type = .int ∧ x.varInt = -2 ^ 63 ∧ y.varInt = -1

/-- **An operator** on two numbers pushes one, or traps in a division of
integers. -/
theorem oper_cases (o : NumOp) {x y : T} (hx : x.Numeric) (hy : y.Numeric) :
    (∃ z : T, z.Numeric ∧ o.oper x y = some [z]) ∨
      ((o.ZeroDivisor x y ∨ o.Overflow x y) ∧ o.oper x y = none) := by
  cases o with
  | plus =>
    left
    rcases hx with hx | hx
    · refine ⟨_, ?_, by simp only [NumOp.oper, plus, hx]; rfl⟩
      exact .inl rfl
    · refine ⟨_, ?_, by simp only [NumOp.oper, plus, hx]; rfl⟩
      exact .inr rfl
  | minus =>
    refine (arithmetic_cases (fun m n => some (toInt64 (m - n))) Double.sub (fun size1 _ => size1)
      hx hy).imp id ?_
    rintro ⟨-, -, hnone, -⟩
    cases hnone
  | times =>
    refine (arithmetic_cases (fun m n => some (toInt64 (m * n))) Double.mul
      (fun size1 size2 => size1 + size2) hx hy).imp id ?_
    rintro ⟨-, -, hnone, -⟩
    cases hnone
  | divided =>
    refine (arithmetic_cases quotient Double.div (fun size1 size2 => size1 + size2) hx hy).imp
      id ?_
    rintro ⟨hxt, hyt, hnone, hrun⟩
    refine ⟨?_, hrun⟩
    unfold quotient at hnone
    split at hnone
    case isTrue htrap =>
      exact htrap.imp (fun hzero => ⟨rfl, hxt, hyt, hzero⟩) fun hlarge => ⟨rfl, hxt, hyt, hlarge⟩
    case isFalse => cases hnone

theorem NumOp.Overflow.oper_eq_none {o : NumOp} {x y : T} (h : o.Overflow x y) :
    o.oper x y = none := by
  obtain ⟨rfl, hxt, hyt, hx, hy⟩ := h
  simp [NumOp.oper, Merging.divided, arithmetic, hxt, hyt, quotient, hx, hy]

/-- The evaluation of the expression divides no integer by zero. -/
def NoZeroDivisor (t : ColMap) (r : Nat) (e : Expr NumLeaf NumOp) : Prop :=
  e.Fits (leafOperand t r) NumOp.operand (fun _ => True) fun o x y => ¬ o.ZeroDivisor x y

/-- The evaluation of the expression has no quotient that is no `int64_t`. -/
def NoOverflow (t : ColMap) (r : Nat) (e : Expr NumLeaf NumOp) : Prop :=
  e.Fits (leafOperand t r) NumOp.operand (fun _ => True) fun o x y => ¬ o.Overflow x y

section
variable {t : ColMap} {r : Nat}

theorem leafOperand_eq {l : NumLeaf} {x : Option T}
    (h : ∀ operStack, numStep t r operStack (.leaf l) = x.map (· :: operStack)) :
    leafOperand t r l = x := by
  rw [leafOperand, h]
  cases x <;> rfl

theorem operand_eq {o : NumOp} {x y z : T} (h : o.oper x y = some [z]) :
    o.operand x y = some z := by
  rw [NumOp.operand, h]
  rfl

/-- **`Postfix` follows the stack machine** of the operands on numeric leaves,
with numbers on the stack. -/
theorem numStep_machine :
    Follows id (numStep t r) (leafOperand t r) NumOp.operand (NumLeaf.Numeric t r) T.Numeric := by
  constructor
  case leaf =>
    intro l stack hl
    rcases leaf_cases hl with ⟨-, x, -, hpush⟩ | ⟨-, hthrow⟩
    · rw [leafOperand_eq (x := some x) hpush]
      exact hpush stack
    · rw [leafOperand_eq (x := none) hthrow]
      exact hthrow stack
  case leafGood =>
    intro l v hl hv
    rcases leaf_cases hl with ⟨-, x, hx, hpush⟩ | ⟨-, hthrow⟩
    · rw [leafOperand_eq (x := some x) hpush] at hv
      exact Option.some.inj hv ▸ hx
    · rw [leafOperand_eq (x := none) hthrow] at hv
      cases hv
  case op =>
    intro o x y stack hx hy
    simp only [id_eq, numStep, numToken, postfixStep, operator?_text]
    rcases oper_cases o hx hy with ⟨z, -, hz⟩ | ⟨-, hnone⟩
    · rw [hz, operand_eq hz]
      rfl
    · rw [NumOp.operand, hnone]
      rfl
  case opGood =>
    intro o x y z hx hy hz
    rcases oper_cases o hx hy with ⟨z', hnumeric, hz'⟩ | ⟨-, hnone⟩
    · rw [operand_eq hz'] at hz
      exact Option.some.inj hz ▸ hnumeric
    · rw [NumOp.operand, hnone] at hz
      cases hz

/-- With accepted literals and no division that traps an expression has a
value. -/
theorem eval_isSome {e : Expr NumLeaf NumOp} (hleaves : ∀ l ∈ e.leaves, l.Numeric t r)
    (haccepted : ∀ l ∈ e.leaves, l.Accepted) (hdivisors : NoZeroDivisor t r e)
    (hquotients : NoOverflow t r e) : ∃ x, e.eval (leafOperand t r) NumOp.operand = some x := by
  induction e with
  | leaf l =>
    rcases leaf_cases (hleaves l (by simp [Expr.leaves])) with ⟨-, x, -, hpush⟩ | ⟨hnot, -⟩
    · exact ⟨x, leafOperand_eq (x := some x) hpush⟩
    · exact absurd (haccepted l (by simp [Expr.leaves])) hnot
  | node o a b iha ihb =>
    obtain ⟨ha, hb, hop⟩ := hdivisors
    obtain ⟨ha', hb', hop'⟩ := hquotients
    have hleavesa : ∀ l ∈ a.leaves, l.Numeric t r := fun l hl =>
      hleaves l (by simp [Expr.leaves, hl])
    have hleavesb : ∀ l ∈ b.leaves, l.Numeric t r := fun l hl =>
      hleaves l (by simp [Expr.leaves, hl])
    obtain ⟨x, hx⟩ := iha hleavesa (fun l hl => haccepted l (by simp [Expr.leaves, hl])) ha ha'
    obtain ⟨y, hy⟩ := ihb hleavesb (fun l hl => haccepted l (by simp [Expr.leaves, hl])) hb hb'
    have hxnum := (numStep_machine.tokens hleavesa []).1 x hx
    have hynum := (numStep_machine.tokens hleavesb []).1 y hy
    rcases oper_cases o hxnum hynum with ⟨z, -, hz⟩ | ⟨hzero | hlarge, -⟩
    · exact ⟨z, Expr.eval_node_eq_some.mpr ⟨x, y, hx, hy, operand_eq hz⟩⟩
    · exact absurd hzero (hop x hx y hy)
    · exact absurd hlarge (hop' x hx y hy)

/-- Where an expression has a value, all its quotients are `int64_t`. -/
theorem noOverflow_of_eval {e : Expr NumLeaf NumOp} {v : T}
    (h : e.eval (leafOperand t r) NumOp.operand = some v) : NoOverflow t r e := by
  induction e generalizing v with
  | leaf l => exact trivial
  | node o a b iha ihb =>
    obtain ⟨x, y, hx, hy, hz⟩ := Expr.eval_node_eq_some.mp h
    refine ⟨iha hx, ihb hy, fun x' hx' y' hy' hlarge => ?_⟩
    obtain rfl := Option.some.inj (hx.symm.trans hx')
    obtain rfl := Option.some.inj (hy.symm.trans hy')
    rw [NumOp.operand, hlarge.oper_eq_none] at hz
    cases hz

/-! ## The stack of an expression -/

/-- `Postfix` keeps its stack over the tokens of an expression, wherever they
stand and whatever is on the stack: every operator finds two operands above
what was there, and in the end there is one number more. On its own the
expression leaves one element. -/
structure KeepsStack (t : ColMap) (r : Nat) (e : Expr NumLeaf NumOp) : Prop where
  operands : ∀ selectType before after operStack k st value,
    postfixLoop (rowEnv t r) (wordsProjection selectType (before ++ exprWords e ++ after))
      before.length (before.length + k) operStack = some st →
    (exprWords e)[k]? = some (value, .operator) → operStack.length + 2 ≤ st.length
  pushesOne : ∀ selectType before after operStack, ∃ x : T, x.Numeric ∧
    postfixLoop (rowEnv t r) (wordsProjection selectType (before ++ exprWords e ++ after))
      before.length (before.length + (exprWords e).length) operStack = some (x :: operStack)
  leavesOne : ∀ selectType, ∃ x : T,
    postfixLoop (rowEnv t r) (wordsProjection selectType (exprWords e)) 0 (exprWords e).length [] =
      some [x]

/-- **Every operator finds its operands**, also when a literal is not accepted
or a division traps later on. -/
theorem postfixLoop_operands {e : Expr NumLeaf NumOp} (hleaves : ∀ l ∈ e.leaves, l.Numeric t r)
    {selectType : SelectType} {before after : List Word} {operStack st : List T} {k : Nat}
    {value : String}
    (hrun : postfixLoop (rowEnv t r) (wordsProjection selectType (before ++ exprWords e ++ after))
      before.length (before.length + k) operStack = some st)
    (hk : (exprWords e)[k]? = some (value, .operator)) : operStack.length + 2 ≤ st.length := by
  obtain ⟨tok, htok, hword⟩ :
      ∃ tok, e.tokens[k]? = some tok ∧ numToken tok = (value, .operator) := by
    simpa [exprWords] using hk
  obtain ⟨hlt, hget⟩ := List.getElem?_eq_some_iff.mp htok
  have hsplit : e.tokens = e.tokens.take k ++ tok :: e.tokens.drop (k + 1) := by
    rw [← hget, ← List.drop_eq_getElem_cons hlt, List.take_append_drop]
  have hpart := postfixLoop_part (t := t) (r := r) hsplit selectType before after operStack
  rw [List.length_take_of_le hlt.le, hrun] at hpart
  cases tok with
  | op o =>
    obtain ⟨x, y, below, rfl, -, -⟩ := numStep_machine.operands hleaves hsplit hpart.symm
    simp
  | leaf l =>
    -- no leaf has the type of an operator
    exfalso
    have hl := hleaves l (Expr.leaf_mem_tokens.mp (List.mem_of_getElem? htok))
    cases l with
    | column name => cases hword
    | integer type text =>
      obtain ⟨-, rfl⟩ := Prod.mk.inj hword
      exact absurd hl.1 (by decide)
    | decimal type text =>
      obtain ⟨-, rfl⟩ := Prod.mk.inj hword
      exact absurd hl (by simp [NumLeaf.Numeric])

/-- **`Postfix` keeps its stack** over the tokens of an expression that divides
no integer by zero exactly when it accepts every literal and no quotient of
integers is too large. -/
theorem postfix_keepsStack_iff {e : Expr NumLeaf NumOp}
    (hleaves : ∀ l ∈ e.leaves, l.Numeric t r) (hdivisors : NoZeroDivisor t r e) :
    KeepsStack t r e ↔ (∀ l ∈ e.leaves, l.Accepted) ∧ NoOverflow t r e := by
  have hwhole := fun selectType before after operStack =>
    postfixLoop_part (t := t) (r := r) (e.tokens.append_nil).symm selectType before after operStack
  have hlength : (exprWords e).length = e.tokens.length := List.length_map _
  constructor
  · intro h
    obtain ⟨x, -, hrun⟩ := h.pushesOne .columnName [] [] []
    rw [hlength, hwhole] at hrun
    constructor
    · intro l hl
      by_contra hnot
      obtain ⟨-, hthrow⟩ := (leaf_cases (hleaves l hl)).resolve_left fun hleaf => hnot hleaf.1
      rw [Loops.foldlM_eq_none (Expr.leaf_mem_tokens.mpr hl) hthrow] at hrun
      cases hrun
    · have hvalue := (numStep_machine.tokens hleaves []).2.symm.trans hrun
      obtain ⟨v, hv, -⟩ := Option.map_eq_some_iff.mp hvalue
      exact noOverflow_of_eval hv
  · rintro ⟨haccepted, hquotients⟩
    obtain ⟨x, hx⟩ := eval_isSome hleaves haccepted hdivisors hquotients
    have hpush : ∀ operStack, e.tokens.foldlM (numStep t r) operStack = some (x :: operStack) := by
      intro operStack
      have htokens := (numStep_machine.tokens hleaves operStack).2
      rw [hx] at htokens
      exact htokens
    constructor
    case operands =>
      intro selectType before after operStack k st value hrun hk
      exact postfixLoop_operands hleaves hrun hk
    case pushesOne =>
      intro selectType before after operStack
      refine ⟨x, (numStep_machine.tokens hleaves []).1 x hx, ?_⟩
      rw [hlength, hwhole, hpush]
    case leavesOne =>
      intro selectType
      refine ⟨x, ?_⟩
      have halone := hwhole selectType [] [] []
      rw [hpush, List.nil_append, List.append_nil, List.length_nil, Nat.zero_add] at halone
      rw [hlength, halone]

end

/-- `n / 2 - 1.5` on the rows 1 and 4. -/
theorem postfix_keepsStack_half :
    KeepsStack (numberTable "n" [1, 4] .workDone).tableData 1 (.node .minus
        (.node .divided (.leaf (.column "n")) (.leaf (.integer .int32 "2")))
        (.leaf (.decimal .double "1.5"))) := by
  have htwo : leafOperand (numberTable "n" [1, 4] .workDone).tableData 1
      (.integer .int32 "2") = some { varInt := 2, type := .int } := by decide +kernel
  refine (@postfix_keepsStack_iff (numberTable "n" [1, 4] .workDone).tableData 1 _ ?_ ?_).mpr
    ⟨?_, ?_⟩
  · simp only [Expr.leaves, List.cons_append, List.nil_append, List.forall_mem_cons,
      List.not_mem_nil, false_imp_iff, implies_true, and_true]
    exact ⟨.inl ⟨rfl, by decide⟩, ⟨by decide, rfl⟩, by simp [NumLeaf.Numeric]⟩
  · refine ⟨⟨trivial, trivial, fun x _ y hy => ?_⟩, trivial, fun x _ y _ hzero => ?_⟩
    · rintro ⟨-, -, -, hzero⟩
      obtain rfl := Option.some.inj (htwo.symm.trans hy)
      cases hzero
    · cases hzero.1
  · simp only [Expr.leaves, List.cons_append, List.nil_append, List.forall_mem_cons,
      List.not_mem_nil, false_imp_iff, implies_true, and_true]
    exact ⟨trivial, by decide, by decide +kernel⟩
  · refine ⟨⟨trivial, trivial, fun x _ y hy => ?_⟩, trivial, fun x _ y _ hlarge => ?_⟩
    · rintro ⟨-, -, -, -, hone⟩
      obtain rfl := Option.some.inj (htwo.symm.trans hy)
      cases hone
    · cases hlarge.1

/-- `n + 2147483648` with an INT64 literal: `stoi` throws. -/
theorem postfix_throws_on_int64 :
    (∀ l ∈ [NumLeaf.column "n", .integer .int64 "2147483648"],
      l.Numeric (numberTable "n" [1] .workDone).tableData 0) ∧
    NoZeroDivisor (numberTable "n" [1] .workDone).tableData 0
      (.node .plus (.leaf (.column "n")) (.leaf (.integer .int64 "2147483648"))) ∧
    exprPostfix (numberTable "n" [1] .workDone).tableData 0
      (.node .plus (.leaf (.column "n")) (.leaf (.integer .int64 "2147483648"))) = none ∧
    ¬ KeepsStack (numberTable "n" [1] .workDone).tableData 0
      (.node .plus (.leaf (.column "n")) (.leaf (.integer .int64 "2147483648"))) := by
  refine ⟨?_, ⟨trivial, trivial, fun x _ y _ hzero => ?_⟩, by decide +kernel, fun h => ?_⟩
  · simp only [List.forall_mem_cons, List.not_mem_nil, false_imp_iff, implies_true, and_true]
    exact ⟨.inl ⟨rfl, by decide⟩, by decide, rfl⟩
  · cases hzero.1
  · obtain ⟨x, hrun⟩ := h.leavesOne .columnName
    have hthrow : postfixLoop (rowEnv (numberTable "n" [1] .workDone).tableData 0)
        (wordsProjection .columnName (exprWords (.node .plus (.leaf (.column "n"))
          (.leaf (.integer .int64 "2147483648"))))) 0 3 [] = none := by
      decide +kernel
    cases hthrow.symm.trans hrun

end KetiEngine.Merging
