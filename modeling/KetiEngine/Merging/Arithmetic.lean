import KetiEngine.Lib.Loops
import KetiEngine.Lib.Postfix
import KetiEngine.Merging.Projection

/-!
# Arithmetic — what `Postfix` computes of an expression

Expressions of `+`, `-`, `*` and `/` over INT and FLOAT columns and number
literals, their values by the types of their leaves, and where `Postfix` finds
them: a FLOAT with an INT operand is stored in the field of the other type,
and `+` looks at the type of its left operand only.
-/

namespace KetiEngine.Merging

open KetiEngine PostfixExpr

/-! ## Numbers -/

/-- A number of the type INT or FLOAT. -/
inductive Number where
  | int (n : Int)
  | float (q : ℚ)
  deriving DecidableEq

def Number.type : Number → VectorType
  | .int _ => .int
  | .float _ => .float

def Number.toRat : Number → ℚ
  | .int n => n
  | .float q => q

inductive NumOp where
  | plus | minus | times | divided
  deriving DecidableEq

def NumOp.text : NumOp → String
  | .plus => "+"
  | .minus => "-"
  | .times => "*"
  | .divided => "/"

/-- The branch of `Postfix` for an operator. -/
def NumOp.oper : NumOp → T → T → Option (List T)
  | .plus => Merging.plus
  | .minus => Merging.minus
  | .times => Merging.times
  | .divided => Merging.divided

def NumOp.onInt : NumOp → Int → Int → Int
  | .plus => (· + ·)
  | .minus => (· - ·)
  | .times => (· * ·)
  | .divided => Int.tdiv

def NumOp.onRat : NumOp → ℚ → ℚ → ℚ
  | .plus => (· + ·)
  | .minus => (· - ·)
  | .times => (· * ·)
  | .divided => (· / ·)

/-- Two INT operands give an INT, any others a FLOAT; a quotient of INT is
truncated. There is no quotient by zero, and no INT that is no `int64_t`. -/
def NumOp.apply (o : NumOp) (x y : Number) : Option Number :=
  if o = .divided ∧ y.toRat = 0 then none
  else
    match x, y with
    | .int m, .int n =>
        if FitsInt64 (o.onInt m n) then some (.int (o.onInt m n)) else none
    | x, y => some (.float (o.onRat x.toRat y.toRat))

/-! ## Expressions -/

inductive NumLeaf where
  | column (name : String)
  | integer (type : ValueType) (text : String)
  | decimal (type : ValueType) (text : String)
  deriving DecidableEq

/-- A token as `value` and `value_type` have it. -/
def numToken : Token NumLeaf NumOp → String × ValueType
  | .leaf (.column name) => (name, .column)
  | .leaf (.integer type text) => (text, type)
  | .leaf (.decimal type text) => (text, type)
  | .op o => (o.text, .operator)

/-- The integer a literal denotes: an optional sign and digits. -/
def integerText (text : String) : Option Int :=
  let signed := splitSign text.toList
  if signed.2 ≠ [] ∧ signed.2.all Char.isDigit then
    some (if signed.1 then -(digitsVal signed.2 : Int) else digitsVal signed.2)
  else none

/-- The rational a `double` denotes. -/
def rational? : Double → Option ℚ
  | .fin q => some q
  | _ => none

/-- The number in row `r` of an INT or FLOAT column. -/
def columnNumber (c : ColData) (r : Nat) : Option Number :=
  match c.type with
  | .int => c.intvec[r]?.map .int
  | .float => (c.floatvec[r]?.bind rational?).map .float
  | _ => none

/-- The value of a leaf on row `r`. -/
def leafNumber (t : ColMap) (r : Nat) : NumLeaf → Option Number
  | .column name => columnNumber (t.get name) r
  | .integer type text =>
      if type ∈ [.int8, .int16, .int32, .int64] then (integerText text).map .int else none
  | .decimal type text =>
      if type ∈ [.float32, .double, .decimal] then ((stod text).bind rational?).map .float
      else none

/-- The value of an expression on row `r`. It has one when its leaves are
numbers, no divisor is zero and no integer overflows. -/
def exprNumber (t : ColMap) (r : Nat) (e : Expr NumLeaf NumOp) : Option Number :=
  e.eval (leafNumber t r) NumOp.apply

/-- The type of a leaf. -/
def NumLeaf.type (t : ColMap) : NumLeaf → VectorType
  | .column name => (t.get name).type
  | .integer _ _ => .int
  | .decimal _ _ => .float

/-- An expression is a FLOAT exactly when one of its leaves is. -/
def exprType (t : ColMap) (e : Expr NumLeaf NumOp) : VectorType :=
  if ∃ l ∈ e.leaves, l.type t = .float then .float else .int

/-- The field of a result that its type tag selects. -/
def T.number? (t : T) : Option Number :=
  match t.type with
  | .int => some (.int t.varInt)
  | .float => (rational? t.varFloat).map .float
  | _ => none

/-- `Postfix` on the tokens of an expression. -/
def exprPostfix (t : ColMap) (r : Nat) (e : Expr NumLeaf NumOp) : Option T :=
  postfixValue (rowEnv t r)
    { value := e.tokens.map fun tok => (numToken tok).1
      valueType := e.tokens.map fun tok => (numToken tok).2 } 0 e.tokens.length

/-- `Postfix` is right about an expression: the type tag, and the value in
the field it selects. -/
def PostfixRight (t : ColMap) (r : Nat) (e : Expr NumLeaf NumOp) : Prop :=
  ∃ res, exprPostfix t r e = some res ∧ res.type = exprType t e ∧
    res.number? = exprNumber t r e

/-! ## Where it is -/

/-- A literal is one that `Postfix` reads: not an `INT8`, and an `int`. -/
def NumLeaf.Readable : NumLeaf → Prop
  | .integer type text =>
      type ≠ .int8 ∧ ∀ n ∈ integerText text, -2 ^ 31 ≤ n ∧ n < 2 ^ 31
  | _ => True

/-- The operands an operator gets right: two of one type; an INT and a FLOAT
unless they are added; a FLOAT and an INT where what is lost is zero. -/
def NumOp.Fits : NumOp → Number → Number → Prop
  | _, .int _, .int _ | _, .float _, .float _ => True
  | o, .int _, .float _ => o ≠ .plus
  | .plus, .float _, .int n => n = 0
  | o, .float p, .int n => o.onRat p n = 0

/-- The condition on a whole expression. -/
def ExprFits (t : ColMap) (r : Nat) (e : Expr NumLeaf NumOp) : Prop :=
  e.Fits (leafNumber t r) NumOp.apply NumLeaf.Readable NumOp.Fits

/-! ## Values and types -/

/-- The three cases of an operator that has a value. -/
theorem NumOp.apply_cases {o : NumOp} {x y z : Number} (h : o.apply x y = some z) :
    ¬ (o = .divided ∧ y.toRat = 0) ∧
      ((∃ m n, x = .int m ∧ y = .int n ∧ FitsInt64 (o.onInt m n) ∧ z = .int (o.onInt m n)) ∨
        (x.type = .float ∨ y.type = .float) ∧ z = .float (o.onRat x.toRat y.toRat)) := by
  unfold NumOp.apply at h
  split at h
  case isTrue => cases h
  case isFalse hdivisor =>
    refine ⟨hdivisor, ?_⟩
    cases x with
    | int m =>
      cases y with
      | int n =>
        obtain ⟨hfits, hz⟩ := Option.ite_none_right_eq_some.mp h
        exact .inl ⟨m, n, rfl, rfl, hfits, (Option.some.inj hz).symm⟩
      | float q => exact .inr ⟨.inr rfl, (Option.some.inj h).symm⟩
    | float p => exact .inr ⟨.inl rfl, (Option.some.inj h).symm⟩

theorem NumOp.apply_type {o : NumOp} {x y z : Number} (h : o.apply x y = some z) :
    z.type = .float ↔ x.type = .float ∨ y.type = .float := by
  obtain ⟨-, ⟨m, n, rfl, rfl, -, rfl⟩ | ⟨hfloat, rfl⟩⟩ := NumOp.apply_cases h
  · simp [Number.type]
  · simpa [Number.type] using hfloat

theorem leafNumber_type {t : ColMap} {r : Nat} {l : NumLeaf} {v : Number}
    (h : leafNumber t r l = some v) : l.type t = v.type := by
  cases l with
  | column name =>
    have hcolumn : columnNumber (t.get name) r = some v := h
    unfold columnNumber at hcolumn
    unfold NumLeaf.type
    cases ht : (t.get name).type <;>
      simp only [ht, Option.map_eq_some_iff, reduceCtorEq] at hcolumn
    all_goals
      obtain ⟨a, -, rfl⟩ := hcolumn
      exact ht
  | integer type text | decimal type text =>
    simp only [leafNumber] at h
    split at h
    · obtain ⟨a, -, rfl⟩ := Option.map_eq_some_iff.mp h
      rfl
    · cases h

/-- **The type of an expression** is that of its value. -/
theorem exprType_eq {t : ColMap} {r : Nat} {e : Expr NumLeaf NumOp} {v : Number}
    (h : exprNumber t r e = some v) : exprType t e = v.type := by
  have hfloat : (∃ l ∈ e.leaves, l.type t = .float) ↔ v.type = .float := by
    induction e generalizing v with
    | leaf l => simp [Expr.leaves, leafNumber_type h]
    | node o a b iha ihb =>
      obtain ⟨x, y, hx, hy, hz⟩ := Expr.eval_node_eq_some.mp h
      rw [NumOp.apply_type hz, ← iha hx, ← ihb hy]
      simp only [Expr.leaves, List.mem_append]
      constructor
      · rintro ⟨l, hl | hl, ht⟩
        · exact .inl ⟨l, hl, ht⟩
        · exact .inr ⟨l, hl, ht⟩
      · rintro (⟨l, hl, ht⟩ | ⟨l, hl, ht⟩)
        · exact ⟨l, .inl hl, ht⟩
        · exact ⟨l, .inr hl, ht⟩
  unfold exprType
  simp only [hfloat]
  cases v <;> rfl

theorem T.number?_type {x : T} {v : Number} (h : x.number? = some v) : x.type = v.type := by
  unfold T.number? at h
  cases ht : x.type <;> simp only [ht, reduceCtorEq, Option.some.injEq, Option.map_eq_some_iff] at h
  · obtain rfl := h
    rfl
  · obtain ⟨q, -, rfl⟩ := h
    rfl

theorem postfixRight_iff {t : ColMap} {r : Nat} {e : Expr NumLeaf NumOp} {v : Number}
    (h : exprNumber t r e = some v) :
    PostfixRight t r e ↔ ∃ res, exprPostfix t r e = some res ∧ res.number? = some v := by
  unfold PostfixRight
  rw [h]
  refine exists_congr fun res => and_congr_right fun _ => and_iff_right_of_imp fun hres => ?_
  rw [exprType_eq h, T.number?_type hres]

/-! ## The stack -/

/-- The operand is the number; the field of the other type is unset. -/
structure Shows (x : T) (v : Number) : Prop where
  number : x.number? = some v
  unset : x.type = .int → x.varFloat = .fin 0

/-- A sign or a digit is no blank. -/
theorem dropWhile_isBlank_of_splitSign {cs : List Char} (hne : (splitSign cs).2 ≠ [])
    (hdigits : (splitSign cs).2.all Char.isDigit) : cs.dropWhile isBlank = cs := by
  cases cs with
  | nil => rfl
  | cons c rest =>
    have hblank : isBlank c = false := by
      by_contra hc
      have hc : isBlank c = true := by simpa using hc
      unfold isBlank at hc
      simp only [Bool.or_eq_true, decide_eq_true_eq] at hc
      rcases hc with ((((rfl | rfl) | rfl) | rfl) | rfl) | rfl <;>
        simp [splitSign] at hdigits
    rw [List.dropWhile_cons_of_neg (by simp [hblank])]

/-- `stoi` on a literal: it throws when the number is no `int`. -/
theorem stoi_eq {text : String} {n : Int} (h : integerText text = some n) :
    stoi text = if -2 ^ 31 ≤ n ∧ n < 2 ^ 31 then some n else none := by
  simp only [integerText] at h
  split at h
  case isTrue hds =>
    obtain ⟨hne, hdigits⟩ := hds
    have hall : (splitSign text.toList).2.takeWhile Char.isDigit = (splitSign text.toList).2 :=
      List.takeWhile_eq_self_iff.mpr fun c hc => List.all_eq_true.mp hdigits c hc
    unfold stoi
    simp only [dropWhile_isBlank_of_splitSign hne hdigits, hall, if_neg hne, Option.some.inj h]
  case isFalse => cases h

/-- One token of an expression. -/
def numStep (t : ColMap) (r : Nat) (operStack : List T) (tok : Token NumLeaf NumOp) :
    Option (List T) :=
  postfixStep (rowEnv t r) operStack (numToken tok).1 (numToken tok).2

theorem exprPostfix_eq (t : ColMap) (r : Nat) (e : Expr NumLeaf NumOp) :
    exprPostfix t r e = (e.tokens.foldlM (numStep t r) []).bind List.head? := by
  have hloop := Loops.foldlM_positions (postfixStep (rowEnv t r))
    (fun tok => (numToken tok).1) (fun tok => (numToken tok).2) e.tokens []
  unfold exprPostfix postfixValue
  rw [Nat.sub_zero]
  exact congrArg (·.bind List.head?) hloop

/-- **A leaf** pushes its number. A literal is lost when it is an `INT8` or
no `int`. -/
theorem leaf_spec {t : ColMap} {r : Nat} {l : NumLeaf} {v : Number}
    (h : leafNumber t r l = some v) :
    (l.Readable → ∃ x, Shows x v ∧
      ∀ operStack, numStep t r operStack (.leaf l) = some (x :: operStack)) ∧
    (¬ l.Readable → ∀ operStack, numStep t r operStack (.leaf l) = some operStack ∨
      numStep t r operStack (.leaf l) = none) := by
  cases l with
  | column name =>
    refine ⟨fun _ => ?_, fun hnot => absurd trivial hnot⟩
    have hcolumn : columnNumber (t.get name) r = some v := h
    unfold columnNumber at hcolumn
    cases ht : (t.get name).type <;>
      simp only [ht, Option.map_eq_some_iff, Option.bind_eq_some_iff, reduceCtorEq] at hcolumn
    · obtain ⟨n, hn, rfl⟩ := hcolumn
      refine ⟨{ varInt := n, type := .int }, ⟨rfl, fun _ => rfl⟩, fun operStack => ?_⟩
      simp [numStep, numToken, postfixStep, columnOperand, rowEnv, ht, hn]
    · obtain ⟨q, ⟨x, hx, hq⟩, rfl⟩ := hcolumn
      refine ⟨{ varFloat := x, realSize := (t.get name).realSize, type := .float },
        ⟨by simp [T.number?, hq], fun hint => by cases hint⟩, fun operStack => ?_⟩
      simp [numStep, numToken, postfixStep, columnOperand, rowEnv, ht, hx]
  | decimal type text =>
    refine ⟨fun _ => ?_, fun hnot => absurd trivial hnot⟩
    simp only [leafNumber] at h
    split at h
    case isTrue htype =>
      obtain ⟨q, hq, rfl⟩ := Option.map_eq_some_iff.mp h
      obtain ⟨x, hx, hxq⟩ := Option.bind_eq_some_iff.mp hq
      simp only [List.mem_cons, List.not_mem_nil, or_false] at htype
      rcases htype with rfl | rfl | rfl
      · refine ⟨{ varFloat := x, type := .float, realSize := countDecimalPlaces text },
          ⟨by simp [T.number?, hxq], fun hint => by cases hint⟩, fun operStack => ?_⟩
        simp [numStep, numToken, postfixStep, hx]
      · refine ⟨{ varFloat := x, type := .float, realSize := countDecimalPlaces text },
          ⟨by simp [T.number?, hxq], fun hint => by cases hint⟩, fun operStack => ?_⟩
        simp [numStep, numToken, postfixStep, hx]
      · refine ⟨{ varFloat := x, type := .float, realSize := 2 },
          ⟨by simp [T.number?, hxq], fun hint => by cases hint⟩, fun operStack => ?_⟩
        simp [numStep, numToken, postfixStep, hx]
    case isFalse => cases h
  | integer type text =>
    simp only [leafNumber] at h
    split at h
    case isTrue htype =>
      obtain ⟨n, hn, rfl⟩ := Option.map_eq_some_iff.mp h
      have hread := stoi_eq hn
      simp only [NumLeaf.Readable, hn, Option.mem_def, Option.some.injEq, forall_eq']
      simp only [List.mem_cons, List.not_mem_nil, or_false] at htype
      constructor
      · rintro ⟨hne, hrange⟩
        rw [if_pos hrange] at hread
        refine ⟨{ varInt := n, type := .int }, ⟨rfl, fun _ => rfl⟩, fun operStack => ?_⟩
        rcases htype with rfl | rfl | rfl | rfl
        · exact absurd rfl hne
        all_goals simp [numStep, numToken, postfixStep, hread]
      · intro hnot operStack
        rcases htype with rfl | rfl | rfl | rfl
        · exact .inl rfl
        all_goals
          have hrange : ¬ (-2 ^ 31 ≤ n ∧ n < 2 ^ 31) := fun hr => hnot ⟨by decide, hr⟩
          rw [if_neg hrange] at hread
          exact .inr (by simp [numStep, numToken, postfixStep, hread])
    case isFalse => cases h

theorem Shows.int {x : T} {m : Int} (h : Shows x (.int m)) :
    x.type = .int ∧ x.varInt = m ∧ x.varFloat = .fin 0 := by
  have htype : x.type = .int := T.number?_type h.number
  have hnumber := h.number
  simp only [T.number?, htype, Option.some.injEq, Number.int.injEq] at hnumber
  exact ⟨htype, hnumber, h.unset htype⟩

theorem Shows.float {x : T} {p : ℚ} (h : Shows x (.float p)) :
    x.type = .float ∧ x.varFloat = .fin p := by
  have htype : x.type = .float := T.number?_type h.number
  have hnumber := h.number
  simp only [T.number?, htype, Option.map_eq_some_iff, Number.float.injEq,
    exists_eq_right] at hnumber
  refine ⟨htype, ?_⟩
  cases hx : x.varFloat with
  | fin q => simpa [hx, rational?] using hnumber
  | nan | inf s => simp [hx, rational?] at hnumber

/-- What `+` leaves, `lost` being the integer field of a FLOAT on its right. -/
def plusNumber (lost : Int) : Number → Number → Number
  | .int m, .int n => .int (toInt64 (m + n))
  | .int m, .float _ => .int (toInt64 (m + lost))
  | .float p, .int _ => .float p
  | .float p, .float q => .float (p + q)

/-- What the other operators leave: a FLOAT with an INT operand has its own
field unset. -/
def NumOp.number (o : NumOp) : Number → Number → Number
  | .int m, .int n => .int (o.onInt m n)
  | .float _, .int _ => .float 0
  | u, v => .float (o.onRat u.toRat v.toRat)

theorem plus_spec {x y : T} {u v : Number} (hx : Shows x u) (hy : Shows y v) :
    ∃ z, plus x y = some [z] ∧ (z.type = .int → z.varFloat = .fin 0) ∧
      z.number? = some (plusNumber y.varInt u v) := by
  cases u with
  | int m =>
    obtain ⟨hxt, rfl, -⟩ := hx.int
    refine ⟨_, by rw [plus, hxt], fun _ => rfl, ?_⟩
    cases v with
    | int n => simp [T.number?, hy.int.2.1, plusNumber]
    | float q => simp [T.number?, plusNumber]
  | float p =>
    obtain ⟨hxt, hxv⟩ := hx.float
    refine ⟨{ varFloat := x.varFloat.add y.varFloat, type := .float, realSize := x.realSize },
      by rw [plus, hxt], nofun, ?_⟩
    cases v with
    | int n => simp [T.number?, hxv, hy.int.2.2, rational?, plusNumber]
    | float q => simp [T.number?, hxv, hy.float.2, rational?, plusNumber]

theorem arithmetic_spec {onInt : Int → Int → Option Int} {onFloat : Double → Double → Double}
    {size : Int → Int → Int} (o : NumOp) {x y : T} {u v : Number} (hx : Shows x u) (hy : Shows y v)
    (hint : ∀ m n, u = .int m → v = .int n → onInt m n = some (o.onInt m n))
    (hfloat : onFloat (.fin u.toRat) (.fin v.toRat) = .fin (o.onRat u.toRat v.toRat)) :
    ∃ z, arithmetic onInt onFloat size x y = some [z] ∧
      (z.type = .int → z.varFloat = .fin 0) ∧ z.number? = some (o.number u v) := by
  cases u with
  | int m =>
    obtain ⟨hxt, hxv, -⟩ := hx.int
    cases v with
    | int n =>
      obtain ⟨hyt, hyv, -⟩ := hy.int
      refine ⟨{ varInt := o.onInt m n, type := .int }, ?_, fun _ => rfl, rfl⟩
      simp [arithmetic, hxt, hyt, hxv, hyv, hint m n rfl rfl]
    | float q =>
      obtain ⟨hyt, hyv⟩ := hy.float
      have hvalue : onFloat (.ofInt m) (.fin q) = .fin (o.onRat m q) := hfloat
      refine ⟨{ varFloat := .fin (o.onRat m q), realSize := y.realSize, type := .float }, ?_,
        nofun, rfl⟩
      simp [arithmetic, hxt, hyt, hxv, hyv, hvalue]
  | float p =>
    obtain ⟨hxt, hxv⟩ := hx.float
    cases v with
    | int n =>
      obtain ⟨hyt, -, -⟩ := hy.int
      exact ⟨_, by simp only [arithmetic, hxt, hyt]; rfl, fun hint => (by cases hint), rfl⟩
    | float q =>
      obtain ⟨hyt, hyv⟩ := hy.float
      have hvalue : onFloat (.fin p) (.fin q) = .fin (o.onRat p q) := hfloat
      refine ⟨{ varFloat := .fin (o.onRat p q), realSize := size x.realSize y.realSize,
                type := .float }, ?_, nofun, rfl⟩
      simp [arithmetic, hxt, hyt, hxv, hyv, hvalue]

theorem number_eq_iff {o : NumOp} {u v w : Number} (ho : o ≠ .plus)
    (h : o.apply u v = some w) : o.number u v = w ↔ o.Fits u v := by
  obtain ⟨-, ⟨m, n, rfl, rfl, -, rfl⟩ | ⟨hfloat, rfl⟩⟩ := NumOp.apply_cases h
  · simp [NumOp.number, NumOp.Fits]
  · cases u <;> cases v <;> cases o <;>
      simp_all [NumOp.number, NumOp.Fits, Number.toRat, Number.type, eq_comm]

theorem plusNumber_eq_iff {u v w : Number} (lost : Int) (h : NumOp.plus.apply u v = some w) :
    plusNumber lost u v = w ↔ NumOp.plus.Fits u v := by
  obtain ⟨-, ⟨m, n, rfl, rfl, hfits, rfl⟩ | ⟨hfloat, rfl⟩⟩ := NumOp.apply_cases h
  · have hsum : toInt64 (m + n) = m + n := hfits.toInt64_eq
    simp [plusNumber, NumOp.Fits, NumOp.onInt, hsum]
  · cases u <;> cases v <;>
      simp_all [plusNumber, NumOp.Fits, NumOp.onRat, Number.toRat, Number.type]

/-- **An operator** on two numbers pushes a number, the right one for the
operands it gets right. -/
theorem oper_spec {o : NumOp} {x y : T} {u v w : Number} (hx : Shows x u) (hy : Shows y v)
    (h : o.apply u v = some w) :
    ∃ z, o.oper x y = some [z] ∧ (z.type = .int → z.varFloat = .fin 0) ∧
      (z.number? = some w ↔ o.Fits u v) := by
  have hfits : ∀ m n, u = .int m → v = .int n → FitsInt64 (o.onInt m n) := by
    rintro m n rfl rfl
    obtain ⟨-, ⟨m', n', hm, hn, hfits, -⟩ | ⟨hfloat, -⟩⟩ := NumOp.apply_cases h
    · cases hm
      cases hn
      exact hfits
    · simp [Number.type] at hfloat
  have hspec : o ≠ .plus → (∃ z, o.oper x y = some [z] ∧
      (z.type = .int → z.varFloat = .fin 0) ∧ z.number? = some (o.number u v)) →
      ∃ z, o.oper x y = some [z] ∧ (z.type = .int → z.varFloat = .fin 0) ∧
        (z.number? = some w ↔ o.Fits u v) := by
    rintro ho ⟨z, hz, hunset, hnumber⟩
    exact ⟨z, hz, hunset, by rw [hnumber, Option.some.injEq, number_eq_iff ho h]⟩
  cases o with
  | plus =>
    obtain ⟨z, hz, hunset, hnumber⟩ := plus_spec hx hy
    exact ⟨z, hz, hunset, by rw [hnumber, Option.some.injEq, plusNumber_eq_iff _ h]⟩
  | minus =>
    refine hspec nofun ?_
    simp only [NumOp.oper, minus]
    refine arithmetic_spec .minus hx hy
      (fun m n hm hn => congrArg some (hfits m n hm hn).toInt64_eq) ?_
    simp [Double.sub, Double.neg, NumOp.onRat, sub_eq_add_neg]
  | times =>
    exact hspec nofun (arithmetic_spec .times hx hy
      (fun m n hm hn => congrArg some (hfits m n hm hn).toInt64_eq) rfl)
  | divided =>
    have hdivisor : v.toRat ≠ 0 := by
      intro hzero
      simp [NumOp.apply, hzero] at h
    refine hspec nofun ?_
    simp only [NumOp.oper, divided]
    refine arithmetic_spec .divided hx hy (fun m n hu hv => ?_) (if_neg hdivisor)
    have hquotient : FitsInt64 (m.tdiv n) := hfits m n hu hv
    subst hv
    refine if_neg ?_
    rintro (rfl | ⟨rfl, rfl⟩)
    · exact hdivisor rfl
    · exact absurd hquotient (by decide)

/-! ## Whole expressions -/

/-- The number a leaf pushes. -/
def leafOperand (t : ColMap) (r : Nat) (l : NumLeaf) : Option T :=
  (numStep t r [] (.leaf l)).bind List.head?

/-- What an operator pushes. -/
def NumOp.operand (o : NumOp) (x y : T) : Option T := (o.oper x y).bind List.head?

/-- What is pushed on an empty stack is pushed on any. -/
theorem postfixStep_push {env : RowEnv} {value : String} {valueType : ValueType} {x : T}
    (h : (postfixStep env [] value valueType).bind List.head? = some x) (operStack : List T) :
    postfixStep env operStack value valueType = some (x :: operStack) := by
  cases valueType with
  | operator =>
    simp only [postfixStep] at h
    cases ho : operator? value <;> simp [ho] at h
  | int8 | date | timestamp | boolean => cases h
  | string =>
    cases h
    rfl
  | column | float32 | double | decimal | int16 | int32 | int64 =>
    obtain ⟨l, hl, hx⟩ := Option.bind_eq_some_iff.mp h
    obtain ⟨y, hy, rfl⟩ := Option.map_eq_some_iff.mp hl
    cases hx
    simp [postfixStep, hy]

/-- An operator pushes at most one operand. -/
theorem oper_eq_of_operand {o : NumOp} {x y z : T} (h : o.operand x y = some z) :
    o.oper x y = some [z] := by
  have hone : ∀ zs, o.oper x y = some zs → zs.length ≤ 1 := by
    intro zs hzs
    cases o with
    | plus =>
      simp only [NumOp.oper, plus] at hzs
      split at hzs <;> cases hzs <;> simp
    | minus | times | divided =>
      simp only [NumOp.oper, minus, times, divided, arithmetic] at hzs
      split at hzs <;> first
        | (obtain ⟨n, -, rfl⟩ := Option.map_eq_some_iff.mp hzs; simp)
        | (cases hzs; simp)
  obtain ⟨zs, hzs, hhead⟩ := Option.bind_eq_some_iff.mp h
  obtain ⟨rest, rfl⟩ := List.head?_eq_some_iff.mp hhead
  have hrest : rest = [] := by simpa using hone _ hzs
  rw [hzs, hrest]

theorem operator?_text (o : NumOp) : operator? o.text = some o.oper := by
  cases o <;> rfl

/-- `Postfix` follows the stack machine of the operands. -/
theorem numStep_follows {t : ColMap} {r : Nat} {tok : Token NumLeaf NumOp} {stack stack' : List T}
    (h : step (leafOperand t r) NumOp.operand stack tok = some stack') :
    numStep t r stack tok = some stack' := by
  cases tok with
  | leaf l =>
    obtain ⟨x, hx, rfl⟩ := Option.map_eq_some_iff.mp h
    exact postfixStep_push hx stack
  | op o =>
    match stack, h with
    | y :: x :: rest, h =>
      obtain ⟨z, hz, rfl⟩ := Option.map_eq_some_iff.mp h
      simp [numStep, numToken, postfixStep, operator?_text, oper_eq_of_operand hz]

section
variable {t : ColMap} {r : Nat}

/-- **The stack** after the tokens of an expression that fits: its value is on
top of what was there. -/
theorem run_expr {e : Expr NumLeaf NumOp} {v : Number} (hfits : ExprFits t r e)
    (h : exprNumber t r e = some v) :
    ∃ x, Shows x v ∧
      ∀ operStack, e.tokens.foldlM (numStep t r) operStack = some (x :: operStack) := by
  obtain ⟨x, hx, hshows⟩ := Expr.eval_refines (leafOperand t r) NumOp.operand Shows
    (fun l w hl hw => by
      obtain ⟨x, hshows, hpush⟩ := (leaf_spec hw).1 hl
      exact ⟨x, by simp [leafOperand, hpush], hshows⟩)
    (fun o x y u v w hop hx hy hw => by
      obtain ⟨z, hz, hunset, hright⟩ := oper_spec hx hy hw
      exact ⟨z, by simp [NumOp.operand, hz], hright.mpr hop, hunset⟩) hfits h
  refine ⟨x, hshows, fun operStack => ?_⟩
  have hmachine := run_tokens (leafOperand t r) NumOp.operand e operStack []
  rw [List.append_nil, hx, Option.bind_some] at hmachine
  exact foldlM_of_step id (numStep t r) (fun _ _ _ _ => numStep_follows) hmachine

/-- `Postfix` on a leaf. -/
theorem postfixRight_leaf {l : NumLeaf} {v : Number} (h : leafNumber t r l = some v) :
    PostfixRight t r (.leaf l) ↔ l.Readable := by
  have hrun : exprPostfix t r (.leaf l) = (numStep t r [] (.leaf l)).bind List.head? := by
    rw [exprPostfix_eq, Expr.tokens, List.foldlM_cons, Option.bind_eq_bind]
    simp
  rw [postfixRight_iff (e := .leaf l) h, hrun]
  constructor
  · rintro ⟨res, hres, -⟩
    by_contra hl
    rcases (leaf_spec h).2 hl [] with hlost | hlost <;> simp [hlost] at hres
  · intro hl
    obtain ⟨x, hshows, hpush⟩ := (leaf_spec h).1 hl
    exact ⟨x, by simp [hpush], hshows.number⟩

/-- `Postfix` on an operator whose operands fit. -/
theorem postfixRight_node {o : NumOp} {a b : Expr NumLeaf NumOp} {u v w : Number}
    (ha : ExprFits t r a) (hb : ExprFits t r b) (hu : exprNumber t r a = some u)
    (hv : exprNumber t r b = some v) (hw : o.apply u v = some w) :
    PostfixRight t r (.node o a b) ↔ o.Fits u v := by
  have hnode : exprNumber t r (.node o a b) = some w :=
    Expr.eval_node_eq_some.mpr ⟨u, v, hu, hv, hw⟩
  obtain ⟨x, hx, hrunx⟩ := run_expr ha hu
  obtain ⟨y, hy, hruny⟩ := run_expr hb hv
  obtain ⟨z, hz, -, hright⟩ := oper_spec hx hy hw
  have hrun : exprPostfix t r (.node o a b) = some z := by
    rw [exprPostfix_eq, Expr.tokens, List.foldlM_append, hrunx, Option.bind_eq_bind,
      Option.bind_some, List.foldlM_append, hruny]
    simp [numStep, numToken, postfixStep, operator?_text, hz]
  rw [postfixRight_iff hnode, hrun, ← hright]
  simp

/-- **`Postfix` evaluates arithmetic** of an expression and of all its parts
exactly when every literal is an `int` and every operator has operands it gets
right. -/
theorem postfixRight_iff_fits {e : Expr NumLeaf NumOp} (h : (exprNumber t r e).isSome) :
    (∀ s ∈ e.subtrees, PostfixRight t r s) ↔ ExprFits t r e := by
  obtain ⟨v, hv⟩ := Option.isSome_iff_exists.mp h
  clear h
  induction e generalizing v with
  | leaf l => simpa [Expr.subtrees, ExprFits, Expr.Fits] using postfixRight_leaf hv
  | node o a b iha ihb =>
    obtain ⟨x, y, hx, hy, hz⟩ := Expr.eval_node_eq_some.mp hv
    have hsubtrees : (∀ s ∈ (Expr.node o a b).subtrees, PostfixRight t r s) ↔
        PostfixRight t r (.node o a b) ∧ ExprFits t r a ∧ ExprFits t r b := by
      rw [← iha x hx, ← ihb y hy, Expr.subtrees, List.forall_mem_cons, List.forall_mem_append]
    have hfits : ExprFits t r (.node o a b) ↔ ExprFits t r a ∧ ExprFits t r b ∧ o.Fits x y := by
      simp [ExprFits, Expr.Fits, hx, hy]
    rw [hsubtrees, hfits]
    constructor
    · rintro ⟨hright, ha, hb⟩
      exact ⟨ha, hb, (postfixRight_node ha hb hx hy hz).mp hright⟩
    · rintro ⟨ha, hb, hop⟩
      exact ⟨(postfixRight_node ha hb hx hy hz).mpr hop, ha, hb⟩

end

/-- `n * 2 - 1.5` on the rows 1 and 4: an INT and a FLOAT are subtracted. -/
theorem postfixRight_iff_fits_numbers :
    (∀ s ∈ Expr.subtrees (.node .minus
        (.node .times (.leaf (.column "n")) (.leaf (.integer .int64 "2")))
        (.leaf (.decimal .double "1.5"))),
      PostfixRight (numberTable "n" [1, 4] .workDone).tableData 1 s) ↔
    ExprFits (numberTable "n" [1, 4] .workDone).tableData 1 (.node .minus
      (.node .times (.leaf (.column "n")) (.leaf (.integer .int64 "2")))
      (.leaf (.decimal .double "1.5"))) :=
  postfixRight_iff_fits (by decide +kernel)

/-- `n + 2.5` on the row 1 is 3.5, and `Postfix` returns the INT 1. -/
theorem postfix_plus_loses_float :
    exprNumber (numberTable "n" [1] .workDone).tableData 0
      (.node .plus (.leaf (.column "n")) (.leaf (.decimal .double "2.5"))) =
        some (.float (7 / 2)) ∧
    exprPostfix (numberTable "n" [1] .workDone).tableData 0
      (.node .plus (.leaf (.column "n")) (.leaf (.decimal .double "2.5"))) =
        some { varInt := 1, type := .int } ∧
    ¬ PostfixRight (numberTable "n" [1] .workDone).tableData 0
      (.node .plus (.leaf (.column "n")) (.leaf (.decimal .double "2.5"))) := by
  have hvalue : exprNumber (numberTable "n" [1] .workDone).tableData 0
      (.node .plus (.leaf (.column "n")) (.leaf (.decimal .double "2.5"))) =
        some (.float (7 / 2)) := by decide +kernel
  have hrun : exprPostfix (numberTable "n" [1] .workDone).tableData 0
      (.node .plus (.leaf (.column "n")) (.leaf (.decimal .double "2.5"))) =
        some { varInt := 1, type := .int } := by decide +kernel
  refine ⟨hvalue, hrun, ?_⟩
  rintro ⟨res, hres, -, hnumber⟩
  rw [hrun] at hres
  cases hres
  rw [hvalue] at hnumber
  cases hnumber

end KetiEngine.Merging
