import KetiEngine.Offloading.ReturnType

/-!
# DecimalWidth — how wide an expression over decimals is declared

A product of two decimals needs the fraction bytes of both, a sum those of the
wider one. `calcul_return_column_type` computes the larger of the two sizes for
a sum, and pushes their sum all the same.
-/

namespace KetiEngine.Offloading

open KetiEngine PostfixExpr

/-! ## The width of an expression -/

/-- The fraction bytes of a result, from those of the operands. -/
def Op.width : Op → Nat → Nat → Nat
  | .add | .sub => max
  | .mul | .div => (· + ·)

/-- The fraction bytes an expression needs. An expression without decimals has
none, so beside it an operand keeps its own. -/
def width (columns : List SchemaColumn) : Expr Leaf Op → Nat
  | .leaf l => if l.isDecimal columns then 1 else 0
  | .node o a b => o.width (width columns a) (width columns b)

/-- No sum or difference has decimals in both operands. -/
def NoDecimalSum (columns : List SchemaColumn) (e : Expr Leaf Op) : Prop :=
  ∀ o a b, Expr.node o a b ∈ e.subtrees → o = .add ∨ o = .sub →
    decimals columns a = 0 ∨ decimals columns b = 0

section
variable {columns : List SchemaColumn}

theorem decimals_node (o : Op) (a b : Expr Leaf Op) :
    decimals columns (.node o a b) = decimals columns a + decimals columns b := by
  simp [decimals, Expr.leaves]

theorem Op.width_le (o : Op) (m n : Nat) : o.width m n ≤ m + n := by
  cases o <;> simp [Op.width]

theorem Op.max_le_width (o : Op) (m n : Nat) : max m n ≤ o.width m n := by
  cases o <;> simp [Op.width]

/-- An operator adds the widths of its operands up, unless it is a sum of two
decimals. -/
theorem Op.width_eq_add_iff (o : Op) (m n : Nat) :
    o.width m n = m + n ↔ (o = .add ∨ o = .sub → m = 0 ∨ n = 0) := by
  cases o <;> simp [Op.width] <;> omega

theorem width_le_decimals (e : Expr Leaf Op) : width columns e ≤ decimals columns e := by
  induction e with
  | leaf l => cases hl : l.isDecimal columns <;> simp [width, decimals, Expr.leaves, hl]
  | node o a b iha ihb =>
    rw [decimals_node, width]
    exact le_trans (o.width_le _ _) (Nat.add_le_add iha ihb)

/-- Only an expression without decimals has width 0. -/
theorem width_eq_zero_iff (e : Expr Leaf Op) : width columns e = 0 ↔ decimals columns e = 0 := by
  refine ⟨fun h => ?_, fun h => Nat.le_zero.mp (h ▸ width_le_decimals e)⟩
  induction e with
  | leaf l => cases hl : l.isDecimal columns <;> simp_all [width, decimals, Expr.leaves]
  | node o a b iha ihb =>
    have hmax := o.max_le_width (width columns a) (width columns b)
    rw [width] at h
    rw [decimals_node, iha (by omega), ihb (by omega)]

theorem noDecimalSum_node (o : Op) (a b : Expr Leaf Op) :
    NoDecimalSum columns (.node o a b) ↔ NoDecimalSum columns a ∧ NoDecimalSum columns b ∧
      (o = .add ∨ o = .sub → decimals columns a = 0 ∨ decimals columns b = 0) := by
  constructor
  · intro h
    refine ⟨fun o' x y hxy => h o' x y ?_, fun o' x y hxy => h o' x y ?_, h o a b ?_⟩
    · simp [Expr.subtrees, hxy]
    · simp [Expr.subtrees, hxy]
    · simp [Expr.subtrees]
  · rintro ⟨ha, hb, hroot⟩ o' x y hxy
    simp only [Expr.subtrees, List.mem_cons, Expr.node.injEq, List.mem_append] at hxy
    rcases hxy with ⟨rfl, rfl, rfl⟩ | hxy | hxy
    · exact hroot
    · exact ha o' x y hxy
    · exact hb o' x y hxy

/-- **The width counts every decimal leaf** exactly when no sum has decimals in
both operands. -/
theorem width_eq_decimals_iff (e : Expr Leaf Op) :
    width columns e = decimals columns e ↔ NoDecimalSum columns e := by
  induction e with
  | leaf l =>
    refine ⟨fun _ o a b hab => ?_, fun _ => ?_⟩
    · simp [Expr.subtrees] at hab
    · cases hl : l.isDecimal columns <;> simp [width, decimals, Expr.leaves, hl]
  | node o a b iha ihb =>
    have ha := @width_le_decimals columns a
    have hb := @width_le_decimals columns b
    have hle := o.width_le (width columns a) (width columns b)
    have hnode : width columns (.node o a b) = decimals columns (.node o a b) ↔
        width columns a = decimals columns a ∧ width columns b = decimals columns b ∧
          o.width (width columns a) (width columns b) =
            width columns a + width columns b := by
      rw [decimals_node, width]
      omega
    rw [hnode, iha, ihb, Op.width_eq_add_iff, width_eq_zero_iff, width_eq_zero_iff,
      noDecimalSum_node]

/-! ## What the source declares -/

/-- An operand of a decimal expression: an INT or NEWDECIMAL column or an
integer literal. -/
def Leaf.Operand (columns : List SchemaColumn) : Leaf → Prop
  | .column name => name ∉ reserved ∧ ∃ c, schemaColumn? columns name = some c ∧
      c.type ∈ [1, 2, 3, 8, 246]
  | .literal type text => text ∉ reserved ∧
      type ∈ [ValueType.int8, .int16, .int32, .int64]

theorem Leaf.Operand.typed {l : Leaf} (h : l.Operand columns) : l.Typed columns := by
  cases l with
  | column name =>
    obtain ⟨hres, c, hc, -⟩ := h
    exact ⟨hres, by rw [hc]; rfl⟩
  | literal type text =>
    refine ⟨h.1, ?_⟩
    rintro rfl
    exact absurd h.2 (by decide)

end

/-- A projection adds its pair to the layout of the projections before it. -/
theorem calculReturnColumnType_concat {snippet : SnippetRequest} {before : List Projection}
    {lengths types : List Int}
    (hbefore : calculReturnColumnType { snippet with projection := before } =
      some (lengths, types))
    {p : Projection} {pair : Int × Int}
    (hp : ∀ m : ColumnMaps, m.Agrees snippet.columnList →
      projectionReturn m p = some (m, [pair])) :
    calculReturnColumnType { snippet with projection := before ++ [p] } =
      some (lengths ++ [pair.2], types ++ [pair.1]) := by
  rw [calculReturnColumnType_eq] at hbefore ⊢
  obtain ⟨⟨m, pairs⟩, hrun, hpairs⟩ := Option.map_eq_some_iff.mp hbefore
  cases hpairs
  have hm := hp m (returnLoop_agrees (columnMaps_agrees snippet.columnList) hrun)
  rw [returnLoop_concat, hrun, Option.bind_some, hm]
  simp

/-- **Declared decimal widths**: after any projections that have a layout, an
expression with an operator and a decimal is declared as a NEWDECIMAL of its
width exactly when no sum or difference in it has decimals in both operands. -/
theorem declares_width_iff {snippet : SnippetRequest} {before : List Projection}
    {lengths types : List Int}
    (hbefore : calculReturnColumnType { snippet with projection := before } =
      some (lengths, types))
    {o : Op} {a b : Expr Leaf Op} {p : Projection}
    (hp : (Form.expr (.node o a b)).Describes p)
    (hleaves : ∀ l ∈ (Expr.node o a b).leaves, l.Operand snippet.columnList)
    (hdecimal : ∃ l ∈ (Expr.node o a b).leaves, l.isDecimal snippet.columnList) :
    calculReturnColumnType { snippet with projection := before ++ [p] } =
        some (lengths ++ [6 + (width snippet.columnList (.node o a b) : Int)],
          types ++ [246]) ↔
      NoDecimalSum snippet.columnList (.node o a b) := by
  have hpos : decimals snippet.columnList (.node o a b) ≠ 0 := by
    have hcount : 0 < decimals snippet.columnList (.node o a b) :=
      List.countP_pos_iff.mpr hdecimal
    omega
  have hpair : (Form.expr (.node o a b)).pair snippet.columnList =
      (246, 6 + (decimals snippet.columnList (.node o a b) : Int)) := by
    simp [Form.pair, hpos]
  have hdeclared := calculReturnColumnType_concat hbefore (p := p) fun m hm =>
    projectionReturn_node hm (fun l hl => (hleaves l hl).typed) hp
  rw [hdeclared, hpair, ← width_eq_decimals_iff]
  simp only [Option.some.injEq, Prod.mk.injEq, List.append_cancel_left_eq, List.cons.injEq,
    and_true]
  omega

/-- `price * 2`. -/
def doubled : Expr Leaf Op :=
  .node .mul (.leaf (.column "price")) (.leaf (.literal .int32 "2"))

theorem doubled_declares_width :
    calculReturnColumnType { columnList := lineColumns, projection :=
        [] ++ [{ value := ["price", "2", "*"], valueType := [.column, .int32, .operator] }] } =
      some ([] ++ [6 + (width lineColumns doubled : Int)], [] ++ [246]) := by
  refine (@declares_width_iff { columnList := lineColumns } [] [] [] rfl .mul
    (.leaf (.column "price")) (.leaf (.literal .int32 "2")) _ ⟨rfl, rfl⟩ ?_ ?_).mpr ?_
  · intro l hl
    have hl : l = .column "price" ∨ l = .literal .int32 "2" := by
      simpa [Expr.leaves] using hl
    rcases hl with rfl | rfl
    · exact ⟨by decide, ⟨"price", 246, 7⟩, rfl, by decide⟩
    · exact ⟨by decide, by decide⟩
  · exact ⟨.column "price", by simp [Expr.leaves], by decide⟩
  · rintro o a b hab (rfl | rfl) <;> simp [Expr.subtrees] at hab

/-- `price + price * 2` as a snippet has it. -/
def discountedProjection : Projection where
  value := ["price", "price", "2", "*", "+"]
  valueType := [.column, .column, .int32, .operator, .operator]

/-- `price + price * 2` has one fraction byte and is declared with two. -/
theorem discounted_declared_wider :
    (Form.expr discounted).Describes discountedProjection ∧
    (∀ l ∈ discounted.leaves, l.Operand lineColumns) ∧
    (∃ l ∈ discounted.leaves, l.isDecimal lineColumns) ∧
    width lineColumns discounted = 1 ∧
    calculReturnColumnType
        { columnList := lineColumns, projection := [discountedProjection] } =
      some ([8], [246]) := by
  refine ⟨⟨rfl, rfl⟩, fun l hl => ?_, ⟨.column "price", ?_, by decide⟩, by decide, by decide⟩
  · have hl : l = .column "price" ∨ l = .literal .int32 "2" := by
      simpa [discounted, Expr.leaves] using hl
    rcases hl with rfl | rfl
    · exact ⟨by decide, ⟨"price", 246, 7⟩, rfl, by decide⟩
    · exact ⟨by decide, by decide⟩
  · simp [discounted, Expr.leaves]

end KetiEngine.Offloading
