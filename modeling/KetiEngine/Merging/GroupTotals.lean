import KetiEngine.Merging.Arithmetic
import KetiEngine.Merging.GroupBy

/-!
# GroupTotals — what GROUP BY adds up to

The grouping path of `RunSnippetWork` on group columns, sums of integer
expressions and counts, where `Postfix` reads every literal and no expression
begins with a word of `Projection`: one row for each key, and over the keys the
sums and counts add up to those of the whole table.
-/

namespace KetiEngine.Merging

open KetiEngine PostfixExpr

/-! ## Integer expressions -/

inductive IntLeaf where
  | column (name : String)
  | literal (type : ValueType) (text : String)
  deriving DecidableEq

inductive IntOp where
  | plus | minus | times
  deriving DecidableEq

def IntOp.text : IntOp → String
  | .plus => "+"
  | .minus => "-"
  | .times => "*"

def IntOp.apply : IntOp → Int → Int → Int
  | .plus, m, n => toInt64 (m + n)
  | .minus, m, n => toInt64 (m - n)
  | .times, m, n => toInt64 (m * n)

/-- A token as `value` and `value_type` have it. -/
def intToken : Token IntLeaf IntOp → String × ValueType
  | .leaf (.column name) => (name, .column)
  | .leaf (.literal type text) => (text, type)
  | .op o => (o.text, .operator)

/-- An INT column of the table, or an integer literal. -/
def IntLeaf.WellFormed (t : ColMap) : IntLeaf → Prop
  | .column name => name ∈ t ∧ (t.get name).type = .int
  | .literal type text =>
      type ∈ [ValueType.int8, .int16, .int32, .int64] ∧ (integerText text).isSome

/-- A literal is one that `Postfix` reads: not an `INT8`, and an `int`. -/
def IntLeaf.Readable : IntLeaf → Prop
  | .column _ => True
  | .literal type text => type ≠ .int8 ∧ ∀ n ∈ integerText text, FitsInt32 n

/-- The value of a leaf on row `r`. -/
def leafInt (t : ColMap) (r : Nat) : IntLeaf → Option Int
  | .column name => (t.get name).intvec[r]?
  | .literal _ text => integerText text

/-- The value of an expression on row `r`. -/
def exprInt (t : ColMap) (r : Nat) (e : Expr IntLeaf IntOp) : Option Int :=
  e.eval (leafInt t r) fun o x y => some (o.apply x y)

/-- A number on the stack of `Postfix`. -/
def intT (n : Int) : T := { varInt := n, type := .int }

theorem exprInt_isSome {t : ColMap} {n r : Nat} (hr : r < n)
    (hlength : ∀ name ∈ t, (t.get name).HasLength n) {e : Expr IntLeaf IntOp}
    (hwf : ∀ l ∈ e.leaves, l.WellFormed t) : ∃ v, exprInt t r e = some v := by
  induction e with
  | leaf l =>
    cases l with
    | column name =>
      obtain ⟨hname, htype⟩ := hwf (.column name) (by simp [Expr.leaves])
      have hvec : (t.get name).intvec.length = n := by
        simpa [ColData.vecLength, htype] using (hlength name hname).vec
      exact ⟨_, List.getElem?_eq_getElem (hvec.symm ▸ hr)⟩
    | literal type text =>
      obtain ⟨-, hsome⟩ := hwf (.literal type text) (by simp [Expr.leaves])
      exact Option.isSome_iff_exists.mp hsome
  | node o a b iha ihb =>
    obtain ⟨x, hx⟩ := iha fun l hl => hwf l (by simp [Expr.leaves, hl])
    obtain ⟨y, hy⟩ := ihb fun l hl => hwf l (by simp [Expr.leaves, hl])
    unfold exprInt at hx hy ⊢
    exact ⟨o.apply x y, by rw [Expr.eval, hx, Option.bind_some, hy, Option.bind_some]⟩

/-- `stoi` reads the literal. -/
theorem stoi_of_readable {type : ValueType} {text : String}
    (h : (IntLeaf.literal type text).Readable) (hsome : (integerText text).isSome) :
    stoi text = integerText text := by
  obtain ⟨n, hn⟩ := Option.isSome_iff_exists.mp hsome
  have hfits : -2 ^ 31 ≤ n ∧ n < 2 ^ 31 := h.2 n hn
  rw [stoi_eq hn, if_pos hfits, hn]

/-- `Postfix` on row `k` of `g` follows the stack machine of the integers on
row `r` of `t`, where the columns hold the same. -/
theorem postfixStep_follows {t g : ColMap} {k r : Nat} :
    Follows (List.map intT)
      (fun st tok => postfixStep (rowEnv g k) st (intToken tok).1 (intToken tok).2)
      (leafInt t r) (fun o x y => some (o.apply x y))
      (fun l => l.WellFormed t ∧ l.Readable ∧ ∀ name, l = .column name →
        (g.get name).type = .int ∧ (g.get name).intvec[k]? = (t.get name).intvec[r]?)
      (fun _ => True) := by
  constructor
  case leafGood => exact fun _ _ _ _ => trivial
  case opGood => exact fun _ _ _ _ _ _ _ => trivial
  case leaf =>
    intro l stack hl
    cases l with
    | column name =>
      obtain ⟨htype, hvec⟩ := hl.2.2 name rfl
      simp only [postfixStep, intToken, columnOperand, rowEnv, htype, hvec, leafInt]
      cases (t.get name).intvec[r]? <;> rfl
    | literal type text =>
      obtain ⟨⟨htype, hsome⟩, hread, -⟩ := hl
      have hstoi := stoi_of_readable hread hsome
      simp only [List.mem_cons, List.not_mem_nil, or_false] at htype
      rcases htype with rfl | rfl | rfl | rfl
      · exact absurd rfl hread.1
      all_goals
        simp only [postfixStep, intToken, leafInt, hstoi]
        cases integerText text <;> rfl
  case op =>
    intro o x y stack _ _
    cases o <;>
      simp [postfixStep, intToken, IntOp.text, operator?, plus, minus, times, arithmetic, intT,
        IntOp.apply]

/-- `p` is the expression `e`. -/
structure IsExpr (e : Expr IntLeaf IntOp) (p : Projection) : Prop where
  value : p.value = e.tokens.map fun tok => (intToken tok).1
  valueType : p.valueType = e.tokens.map fun tok => (intToken tok).2

/-- `Projection` and `Postfix` read the expression: its literals, and no word
of `Projection` at the beginning. -/
structure ReadableExpr (e : Expr IntLeaf IntOp) : Prop where
  leaves : ∀ l ∈ e.leaves, l.Readable
  first : ∀ word ∈ (e.tokens.map fun tok => (intToken tok).1).head?, word ∉ keywords

/-- **An integer expression** has its value on every row. -/
theorem projection_expr {t g : ColMap} {k r : Nat} {e : Expr IntLeaf IntOp} {p : Projection}
    (hp : IsExpr e p) (hwf : ∀ l ∈ e.leaves, l.WellFormed t) (hread : ReadableExpr e)
    (hcolumn : ∀ name, .column name ∈ e.leaves →
      (g.get name).type = .int ∧ (g.get name).intvec[k]? = (t.get name).intvec[r]?)
    {v : Int} (hv : exprInt t r e = some v) : projection g p k = some (intT v) := by
  have hfits : ∀ l ∈ e.leaves, l.WellFormed t ∧ l.Readable ∧ ∀ name, l = .column name →
      (g.get name).type = .int ∧ (g.get name).intvec[k]? = (t.get name).intvec[r]? :=
    fun l hl => ⟨hwf l hl, hread.leaves l hl, fun name hname => hcolumn name (hname ▸ hl)⟩
  have hloop := (postfixStep_follows.tokens hfits []).2
  unfold exprInt at hv
  rw [hv, List.map_nil] at hloop
  obtain ⟨l, ts, hts, -⟩ := Expr.tokens_eq_cons e
  obtain ⟨word, hword⟩ : ∃ word, p.value[0]? = some word := ⟨_, by rw [hp.value, hts]; rfl⟩
  have hfirst := hread.first word (by rw [List.head?_eq_getElem?, ← hp.value]; exact hword)
  simp only [keywords, List.mem_cons, List.not_mem_nil, or_false, not_or] at hfirst
  have hpostfix : postfixValue (rowEnv g k) p 0 p.value.length = some (intT v) := by
    have hpositions := Loops.foldlM_positions (postfixStep (rowEnv g k))
      (fun tok => (intToken tok).1) (fun tok => (intToken tok).2) e.tokens []
    rw [hloop, ← hp.value, ← hp.valueType] at hpositions
    have hlength : p.value.length = e.tokens.length := by simp [hp.value]
    unfold postfixValue
    rw [Nat.sub_zero, hlength, hpositions]
    rfl
  unfold projection projectionValue
  simp [hword, hfirst, hpostfix]

/-! ## Rows of a table in another table -/

/-- The rows of `g` are these rows of `t`, as far as sums and counts read
them. -/
structure HasRows (t : TableData) (rows : List Nat) (g : TableData) : Prop where
  count : g.rowCount = rows.length
  int : ∀ name ∈ t.tableData, (t.tableData.get name).type = .int →
    (g.tableData.get name).type = .int ∧ ∀ k : Nat, (g.tableData.get name).intvec[k]? =
      rows[k]?.bind fun r => (t.tableData.get name).intvec[r]?
  null : ∀ name, (g.tableData.get name).isnull.count false =
    rows.countP fun r => (t.tableData.get name).isnull[r]? = some false

/-- Counting a list is counting its positions. -/
theorem count_eq_countP_range {l : List Bool} {n : Nat} (h : l.length = n) (b : Bool) :
    l.count b = (List.range n).countP fun r => l[r]? = some b := by
  have hread : (List.range n).map (l[·]?) = l.map some := by
    apply List.ext_getElem
    · simp [h]
    · intro i hi hi'
      have hi : i < l.length := by simpa using hi'
      simp [hi]
  have hcount := congrArg (List.countP fun o => o = some b) hread
  rw [List.countP_map, List.countP_map] at hcount
  rw [List.count_eq_countP]
  simpa [Function.comp_def, Bool.beq_eq_decide_eq] using hcount.symm

/-- A column the table lacks has no flags to count. -/
theorem null_of_notMem {t : ColMap} {name : String} (h : name ∉ t) (rows : List Nat) :
    (rows.countP fun r => (t.get name).isnull[r]? = some false) = 0 := by
  rw [ColMap.get_of_notMem h]
  simp

theorem hasRows_self {t : TableData} {n : Nat} (hw : t.WellFormed n) :
    HasRows t (List.range n) t := by
  constructor
  case count => simp [hw.count]
  case int =>
    intro name hname htype
    have hvec : (t.tableData.get name).intvec.length = n := by
      simpa [ColData.vecLength, htype] using (hw.column name hname).vec
    refine ⟨htype, fun k => ?_⟩
    by_cases hk : k < n
    · simp [hk]
    · rw [List.getElem?_eq_none (by omega), List.getElem?_eq_none (by simp; omega)]
      rfl
  case null =>
    intro name
    by_cases hname : name ∈ t.tableData
    · exact count_eq_countP_range (hw.column name hname).null false
    · rw [null_of_notMem hname, ColMap.get_of_notMem hname]
      rfl

/-- The parts of a cell of an INT column. -/
theorem int_of_cell? {c : ColData} {i : Nat} {x : Cell} (hc : c.type = .int)
    (hx : c.cell? i = some x) : ∃ m, x.value = .int m ∧ c.intvec[i]? = some m := by
  unfold ColData.cell? ColData.value? at hx
  rw [hc] at hx
  cases hm : c.intvec[i]? with
  | none => simp [hm] at hx
  | some m =>
    cases hb : c.isnull[i]? with
    | none => simp [hm, hb] at hx
    | some b =>
      simp only [hm, hb, Option.map_some, Option.some.injEq] at hx
      exact ⟨m, by rw [← hx], rfl⟩

theorem count_isnull_cellsOf {c : ColData} {n : Nat} (hc : c.HasLength n) {rows : List Nat}
    (hrows : ∀ r ∈ rows, r < n) (b : Bool) :
    ((cellsOf c rows).map Cell.isnull).count b = rows.countP fun r => c.isnull[r]? = some b := by
  induction rows with
  | nil => rfl
  | cons r rows ih =>
    obtain ⟨v, hv⟩ := ColData.value?_isSome hc (hrows r (by simp))
    have hlt : r < c.isnull.length := hc.null.symm ▸ hrows r (by simp)
    have hcell : c.cell? r = some ⟨v, c.isnull[r]⟩ := by simp [ColData.cell?, hv, hlt]
    have hrest := ih fun i hi => hrows i (by simp [hi])
    have hcons : cellsOf c (r :: rows) = ⟨v, c.isnull[r]⟩ :: cellsOf c rows := by
      simp [cellsOf, hcell]
    rw [hcons, List.map_cons, List.count_cons, hrest, List.countP_cons]
    simp [hlt]

theorem GroupTable.hasRows {t : TableData} {n : Nat} (hw : t.WellFormed n) {groups : List String}
    (hgroups : ∀ name ∈ groups, name ∈ t.tableData) {rows : List Nat} {g : TableData}
    (h : GroupTable (trimmed t groups) rows g) (hrows : ∀ r ∈ rows, r < n) :
    HasRows t rows g := by
  have hmem : ∀ name, name ∈ trimmed t groups ↔ name ∈ t.tableData := fun name =>
    mem_trimColumns hgroups
  constructor
  case count => exact h.count
  case int =>
    intro name hname htype
    have hget : (trimmed t groups).get name = t.tableData.get name := get_trimmed (by simp [htype])
    have hlength := hasLength_trimmed hw groups hname
    obtain ⟨hgl, hcells⟩ := h.copies.cell? h.typed ((hmem name).mpr hname) hlength hrows
    have hgtype : (g.tableData.get name).type = .int := by
      rw [h.typed name ((hmem name).mpr hname), hget, htype]
    refine ⟨hgtype, fun k => ?_⟩
    by_cases hk : k < rows.length
    · -- the two cells are one
      obtain ⟨x, hx⟩ := ColData.cell?_isSome hgl hk
      have hsource := hcells k
      rw [hx, List.getElem?_eq_getElem hk, Option.bind_some, hget] at hsource
      obtain ⟨m, hm, hgm⟩ := int_of_cell? hgtype hx
      obtain ⟨m', hm', htm⟩ := int_of_cell? htype hsource.symm
      rw [hm] at hm'
      rw [hgm, List.getElem?_eq_getElem hk, Option.bind_some, htm, Value.int.inj hm']
    · have hvec : (g.tableData.get name).intvec.length = rows.length := by
        simpa [ColData.vecLength, hgtype] using hgl.vec
      rw [List.getElem?_eq_none (by omega), List.getElem?_eq_none (by omega)]
      rfl
  case null =>
    intro name
    by_cases hname : name ∈ t.tableData
    · rw [(h.copies name ((hmem name).mpr hname)).null,
        count_isnull_cellsOf (hasLength_trimmed hw groups hname) hrows, isnull_trimmed]
    · have hg : name ∉ g.tableData := fun hin => hname ((hmem name).mp ((h.names name).mp hin).2)
      rw [null_of_notMem hname, ColMap.get_of_notMem hg]
      rfl

/-! ## The projections -/

/-- What a projection of the list says. -/
inductive Item where
  | groupColumn (name : String)
  | sum (e : Expr IntLeaf IntOp)
  | count (name : String)
  | countStar

/-- `p` is the projection that says so, on this table and these group
columns. -/
def Item.Describes (t : TableData) (groups : List String) : Item → Projection → Prop
  | .groupColumn name, p => p.selectType = .columnName ∧ name ∈ groups ∧
      p.value = [name] ∧ p.valueType = [.column]
  | .sum e, p => p.selectType = .sum ∧ IsExpr e p ∧ ∀ l ∈ e.leaves, l.WellFormed t.tableData
  | .count name, p => p.selectType = .count ∧ p.value[0]? = some name
  | .countStar, p => p.selectType = .countStar

/-- `Projection` reads the item as a column or an expression. -/
def Item.Readable : Item → Prop
  | .groupColumn name => name ∉ keywords
  | .sum e => ReadableExpr e
  | .count _ | .countStar => True

/-- What row `r` adds to a sum or a count. -/
def Item.weight (t : TableData) : Item → Nat → Int
  | .groupColumn _, _ => 0
  | .sum e, r => (exprInt t.tableData r e).getD 0
  | .count name, r => if (t.tableData.get name).isnull[r]? = some false then 1 else 0
  | .countStar, _ => 1

/-- The type of the result column. -/
def Item.type (t : TableData) : Item → VectorType
  | .groupColumn name => (t.tableData.get name).type
  | _ => .int

/-- What a result holds for a total: a sum is an `int64_t`. -/
def Item.held : Item → Int → Int
  | .sum _, n => toInt64 n
  | _, n => n

/-- The value for a group: the trimmed value of its first row, or the total of
what its rows add. -/
def Item.value (t : TableData) (groups : List String) (item : Item) (rows : List Nat) : Value :=
  match item with
  | .groupColumn name =>
      (((trimmed t groups).get name).value? (rows.headD 0)).getD (.int 0)
  | _ => .int (item.held (rows.map (item.weight t)).sum)

/-- `SUM` of integers. -/
theorem sumColumn_ints {vs : List Int} (hne : vs ≠ []) :
    sumColumn (vs.map intT) = countColumn (toInt64 vs.sum) := by
  rw [sumColumn_of_int (by simpa using hne) fun t ht => ?_, List.map_map]
  · simp [Function.comp_def, intT]
  · obtain ⟨v, -, rfl⟩ := List.mem_map.mp ht
    rfl

theorem countP_eq_sum (p : Nat → Bool) (rows : List Nat) :
    (rows.countP p : Int) = (rows.map fun r => if p r then (1 : Int) else 0).sum := by
  induction rows with
  | nil => rfl
  | cons r rows ih =>
    rw [List.countP_cons, List.map_cons, List.sum_cons, ← ih]
    by_cases hr : p r = true
    · simp [hr]
      omega
    · simp [hr]

/-- The column of a sum or a count over these rows. -/
theorem projectionColumn_total {t g : TableData} {groups : List String} {rows : List Nat}
    (h : HasRows t rows g) {n : Nat} (hw : t.WellFormed n) (hrows : ∀ r ∈ rows, r < n)
    (hne : rows ≠ []) {item : Item} {p : Projection} (hp : item.Describes t groups p)
    (hread : item.Readable) (hitem : ∀ name, item ≠ .groupColumn name) (isGroupby : Bool) :
    projectionColumn isGroupby g p =
      some (countColumn (item.held (rows.map (item.weight t)).sum)) := by
  cases item with
  | groupColumn name => exact absurd rfl (hitem name)
  | sum e =>
    obtain ⟨hselect, hexpr, hwf⟩ := hp
    have hvalue : ∀ r < n, exprInt t.tableData r e = some (Item.weight t (.sum e) r) := by
      intro r hr
      obtain ⟨v, hv⟩ := exprInt_isSome hr hw.column hwf
      simp [Item.weight, hv]
    have hall : projectRows g p 0 = some ((rows.map (Item.weight t (.sum e))).map intT) := by
      rw [List.map_map]
      refine projectRows_of_rows h.count fun k r hk => ?_
      have hcolumn : ∀ name, IntLeaf.column name ∈ e.leaves →
          (g.tableData.get name).type = .int ∧
            (g.tableData.get name).intvec[k]? = (t.tableData.get name).intvec[r]? := by
        intro name hname
        obtain ⟨hmem, htype⟩ := hwf _ hname
        obtain ⟨hgtype, hint⟩ := h.int name hmem htype
        exact ⟨hgtype, by rw [hint, hk, Option.bind_some]⟩
      exact projection_expr hexpr hwf hread hcolumn (hvalue r (hrows r (List.mem_of_getElem? hk)))
    unfold projectionColumn
    simp only [hselect]
    rw [hall, Option.map_some, sumColumn_ints (by simpa using hne)]
    rfl
  | count name =>
    obtain ⟨hselect, hname⟩ := hp
    unfold projectionColumn
    simp only [hselect]
    rw [hname, Option.map_some, h.null name, countP_eq_sum]
    simp only [decide_eq_true_eq]
    rfl
  | countStar =>
    unfold projectionColumn
    simp only [show p.selectType = .countStar from hp]
    have hone : Item.weight t .countStar = fun _ => 1 := rfl
    rw [h.count, hone]
    simp [Item.held]

/-- A column's value pushed as an operand. -/
theorem pushT_valueOperand {c : ColData} (hc : c.Stored) {i : Nat} {v : Value}
    (hv : c.value? i = some v) :
    (valueOperand c v).type = c.type ∧
      HoldsCells (pushT {} (valueOperand c v)) c.type [⟨v, false⟩] := by
  unfold ColData.value? at hv
  rcases hc with h | h | h | h <;> simp only [h, Option.map_eq_some_iff] at hv
  all_goals
    obtain ⟨a, -, rfl⟩ := hv
    refine ⟨by simp [valueOperand, h], ?_⟩
    constructor
    case kind =>
      rw [h]
      simp [VectorType.Accepts]
    all_goals
      simp [valueOperand, pushT, h, ColData.pushValue, ColData.pushNull, Value.string?, Value.int?,
        Value.float?]

/-- The column of a group column: the trimmed value of the group's first
row. -/
theorem projectionColumn_groupColumn {t g : TableData} {n : Nat} (hw : t.WellFormed n)
    {groups : List String} (hgroups : ∀ name ∈ groups, name ∈ t.tableData) {rows : List Nat}
    (h : GroupTable (trimmed t groups) rows g) (hrows : ∀ r ∈ rows, r < n) (hne : rows ≠ [])
    {name : String} {p : Projection} (hp : (Item.groupColumn name).Describes t groups p)
    (hword : name ∉ keywords) :
    ∃ c, projectionColumn true g p = some c ∧ c.type = (t.tableData.get name).type ∧
      HoldsCells c (t.tableData.get name).type
        [⟨(Item.groupColumn name).value t groups rows, false⟩] := by
  obtain ⟨hselect, hname, hvalue, htype⟩ := hp
  have hin := hgroups name hname
  have hwhole : name ∈ trimmed t groups := (mem_trimColumns hgroups).mpr hin
  have hlength := hasLength_trimmed hw groups hin
  have hwholetype : ((trimmed t groups).get name).type = (t.tableData.get name).type := by
    rw [trimmed, get_trimColumns, if_pos hname, type_trimColumn]
  have hgtype : (g.tableData.get name).type = (t.tableData.get name).type :=
    (h.typed name hwhole).trans hwholetype
  have hstored : (g.tableData.get name).Stored := by
    unfold ColData.Stored
    rw [hgtype]
    exact hw.stored name hin
  -- the first cell of the group is that of its first row
  obtain ⟨r, rest, rfl⟩ := List.exists_cons_of_ne_nil hne
  obtain ⟨x, hx⟩ := ColData.cell?_isSome hlength (hrows r (by simp))
  have hcell : (g.tableData.get name).cell? 0 = some x := by
    rw [(h.copies.cell? h.typed hwhole hlength hrows).2 0]
    exact hx
  have hgv := ColData.value?_of_cell? hcell
  have hitem : (Item.groupColumn name).value t groups (r :: rest) = x.value := by
    simp [Item.value, ColData.value?_of_cell? hx]
  have hrun : projection g.tableData p 0 =
      some (valueOperand (g.tableData.get name) x.value) := by
    have hoperand := columnOperand_eq hstored 0
    rw [hgv, Option.map_some] at hoperand
    simp only [keywords, List.mem_cons, List.not_mem_nil, or_false, not_or] at hword
    simp [projection, projectionValue, hvalue, hword, postfixValue, htype, postfixStep, hoperand]
  rw [hitem]
  obtain ⟨hoperand, hcells⟩ := pushT_valueOperand hstored hgv
  rw [hgtype] at hoperand hcells
  refine ⟨{ pushT {} (valueOperand (g.tableData.get name) x.value) with
    type := (valueOperand (g.tableData.get name) x.value).type
    realSize := max 0 (valueOperand (g.tableData.get name) x.value).realSize }, ?_, hoperand, ?_⟩
  · simp only [projectionColumn, hselect, if_true, hrun, Option.map_some]
  · exact ⟨hcells.str, hcells.int, hcells.float, hcells.null, hcells.count, hcells.kind⟩

/-- One projection on a group: a column with one value. -/
theorem projectionColumn_item {t g : TableData} {n : Nat} (hw : t.WellFormed n)
    {groups : List String} (hgroups : ∀ name ∈ groups, name ∈ t.tableData) {rows : List Nat}
    (h : GroupTable (trimmed t groups) rows g) (hrows : ∀ r ∈ rows, r < n) (hne : rows ≠ [])
    {item : Item} {p : Projection} (hp : item.Describes t groups p) (hread : item.Readable) :
    ∃ c, projectionColumn true g p = some c ∧ c.type = item.type t ∧
      HoldsCells c (item.type t) [⟨item.value t groups rows, false⟩] := by
  cases item with
  | groupColumn name => exact projectionColumn_groupColumn hw hgroups h hrows hne hp hread
  | sum e | count name | countStar =>
    have hrun := projectionColumn_total (h.hasRows hw hgroups hrows) hw hrows hne hp hread
      (fun _ hitem => by cases hitem) true
    refine ⟨_, hrun, rfl, ?_⟩
    constructor
    case kind => simp [VectorType.Accepts, Item.type, Item.value]
    all_goals
      simp [countColumn, Item.value, Value.string?, Value.int?, Value.float?]

/-! ## One row for each group -/

/-- Appending a column of the same kind. -/
theorem HoldsCells.append {c d : ColData} {type : VectorType} {xs ys : List Cell}
    (hd : HoldsCells d type xs) (hc : HoldsCells c type ys) (htype : c.type = type) :
    HoldsCells (appendColumn c d) type (xs ++ ys) := by
  obtain ⟨hstr, hint, hfloat⟩ := vectors_appendColumn c d
  -- the vectors of the other kinds are empty
  have hother : ∀ {β : Type} {f : Value → Option β}, (∀ v, type.Accepts v → f v = none) →
      (ys.map Cell.value).filterMap f = [] := fun hf =>
    List.filterMap_eq_nil_iff.mpr fun v hv => hf v (hc.kind v hv)
  constructor
  case kind =>
    intro v hv
    rw [List.map_append, List.mem_append] at hv
    exact hv.elim (hd.kind v) (hc.kind v)
  case null =>
    rw [List.map_append, ← hd.null, ← hc.null]
    unfold appendColumn
    cases c.type <;> rfl
  case count =>
    rw [List.length_append, Int.natCast_add, ← hd.count, ← hc.count]
    unfold appendColumn
    cases c.type <;> rfl
  case str =>
    rw [List.map_append, List.filterMap_append, ← hd.str, hstr, htype]
    by_cases hs : type = .string
    · rw [if_pos hs, hc.str]
    · rw [if_neg hs, hother fun v hv => Value.string?_eq_none hv hs]
  case int =>
    rw [List.map_append, List.filterMap_append, ← hd.int, hint, htype]
    by_cases hi : type = .int ∨ type = .date
    · rw [if_pos hi, hc.int]
    · rw [if_neg hi, hother fun v hv =>
        Value.int?_eq_none hv (fun h => hi (.inl h)) fun h => hi (.inr h)]
  case float =>
    rw [List.map_append, List.filterMap_append, ← hd.float, hfloat, htype]
    by_cases hf : type = .float
    · rw [if_pos hf, hc.float]
    · rw [if_neg hf, hother fun v hv => Value.float?_eq_none hv hf]

/-- The result after the groups `done`: one row for each. -/
structure ResultOf (t : TableData) (groups : List String) (items : List Item)
    (columnAlias : List String) (done : List (List Nat)) (d : TableData) : Prop where
  count : d.rowCount = done.length
  names : ∀ name, name ∈ d.tableData ↔
    done ≠ [] ∧ ∃ i < items.length, columnAlias[i]? = some name
  type : ∀ (i : Nat) (item : Item) (name : String), items[i]? = some item →
    columnAlias[i]? = some name → done ≠ [] → (d.tableData.get name).type = item.type t
  cells : ∀ (i : Nat) (item : Item) (name : String), items[i]? = some item →
    columnAlias[i]? = some name → HoldsCells (d.tableData.get name) (item.type t)
      (done.map fun rows => ⟨item.value t groups rows, false⟩)

theorem resultOf_nil (t : TableData) (groups : List String) (items : List Item)
    (columnAlias : List String) : ResultOf t groups items columnAlias [] {} := by
  constructor
  case count => rfl
  case names => simp
  case type => exact fun _ _ _ _ _ h => absurd rfl h
  case cells =>
    intro i item name _ _
    have hget : ColMap.get ∅ name = {} := ColMap.get_of_notMem (by simp)
    exact hget ▸ holdsCells_nil _ _

/-- The columns of one group: each is the column of its item, with one row. -/
theorem projectionColumns_group {t g : TableData} {n : Nat} (hw : t.WellFormed n)
    {groups : List String} (hgroups : ∀ name ∈ groups, name ∈ t.tableData) {items : List Item}
    {projections : List Projection}
    (hitems : List.Forall₂ (Item.Describes t groups) items projections)
    (hread : ∀ item ∈ items, item.Readable) (hne : projections ≠ []) {rows : List Nat} (h : GroupTable (trimmed t groups) rows g) (hrows : ∀ r ∈ rows, r < n)
    (hsome : rows ≠ []) :
    ∃ column : Projection → ColData,
      projections.mapM (projectionColumn true g) = some (projections.map column) ∧
      resultRowNum (projections.map column) = 1 ∧
      ∀ (i : Nat) (item : Item) (p : Projection), items[i]? = some item →
        projections[i]? = some p → (column p).type = item.type t ∧
          HoldsCells (column p) (item.type t) [⟨item.value t groups rows, false⟩] := by
  have hlength : items.length = projections.length := hitems.length_eq
  let column : Projection → ColData := fun p => (projectionColumn true g p).getD {}
  have hcolumn : ∀ (i : Nat) (item : Item) (p : Projection), items[i]? = some item →
      projections[i]? = some p → projectionColumn true g p = some (column p) ∧
        (column p).type = item.type t ∧
        HoldsCells (column p) (item.type t) [⟨item.value t groups rows, false⟩] := by
    intro i item p hitem hp
    obtain ⟨hi, rfl⟩ := List.getElem?_eq_some_iff.mp hitem
    obtain ⟨hi', rfl⟩ := List.getElem?_eq_some_iff.mp hp
    have hone := (List.forall₂_iff_get.mp hitems).2 i hi hi'
    obtain ⟨c, hrun, hc⟩ := projectionColumn_item hw hgroups h hrows hsome hone
      (hread _ (List.getElem_mem hi))
    have heq : column projections[i] = c := by
      show (projectionColumn true g (projections.get ⟨i, hi'⟩)).getD {} = c
      rw [hrun]
      rfl
    rw [heq]
    exact ⟨hrun, hc⟩
  have hof : ∀ p ∈ projections, ∃ (i : Nat) (item : Item),
      items[i]? = some item ∧ projections[i]? = some p := by
    intro p hp
    obtain ⟨i, hi, rfl⟩ := List.getElem_of_mem hp
    exact ⟨i, _, List.getElem?_eq_getElem (hlength ▸ hi), List.getElem?_eq_getElem hi⟩
  refine ⟨column, ?_, ?_, fun i item p hitem hp => (hcolumn i item p hitem hp).2⟩
  · refine Loops.mapM_of_forall fun p hp => ?_
    obtain ⟨i, item, hitem, hpi⟩ := hof p hp
    exact (hcolumn i item p hitem hpi).1
  · rw [resultRowNum_of_forall one_ne_zero fun c hc => ?_, if_neg (by simpa using hne)]
    obtain ⟨p, hp, rfl⟩ := List.mem_map.mp hc
    obtain ⟨i, item, hitem, hpi⟩ := hof p hp
    simpa using (hcolumn i item p hitem hpi).2.2.count

/-- `Aggregation` on one more group. -/
theorem aggregation_group {t g : TableData} {n : Nat} (hw : t.WellFormed n)
    {groups : List String} (hgroups : ∀ name ∈ groups, name ∈ t.tableData) {items : List Item}
    {projections : List Projection} {columnAlias : List String}
    (hitems : List.Forall₂ (Item.Describes t groups) items projections)
    (hread : ∀ item ∈ items, item.Readable) (hne : projections ≠ []) (hnodup : columnAlias.Nodup)
    (halias : projections.length ≤ columnAlias.length)
    {rows : List Nat} (h : GroupTable (trimmed t groups) rows g) (hrows : ∀ r ∈ rows, r < n)
    (hsome : rows ≠ []) {done : List (List Nat)} {d : TableData}
    (hd : ResultOf t groups items columnAlias done d) :
    ∃ d', aggregation true g projections columnAlias d = some d' ∧
      ResultOf t groups items columnAlias (done ++ [rows]) d' := by
  have hlength : items.length = projections.length := hitems.length_eq
  obtain ⟨column, hrun, hnum, hcolumn⟩ :=
    projectionColumns_group hw hgroups hitems hread hne h hrows hsome
  have hrowCount : g.rowCount ≠ 0 := by
    rw [h.count]
    simpa using hsome
  refine ⟨_, aggregation_eq hrowCount hrun halias d, ?_⟩
  -- an alias gets the column of its own projection, for no alias comes twice
  have happend : ∀ (i : Nat) (item : Item) (name : String), items[i]? = some item →
      columnAlias[i]? = some name → ∃ p, projections[i]? = some p ∧
        ((columnAlias.zip (projections.map column)).foldl
          (fun m e => m.modify e.1 (appendColumn e.2)) d.tableData).get name =
            appendColumn (column p) (d.tableData.get name) := by
    intro i item name hitem hname
    have hi : i < projections.length := hlength ▸ (List.getElem?_eq_some_iff.mp hitem).1
    refine ⟨projections[i], List.getElem?_eq_getElem hi, ?_⟩
    exact get_appended hnodup d.tableData hname (by simp [hi])
  constructor
  case count => simp [hd.count, hnum]
  case names =>
    intro name
    rw [mem_appended (by simpa using halias), hd.names, List.length_map, hlength]
    simp
  case type =>
    intro i item name hitem hname _
    obtain ⟨p, hp, hget⟩ := happend i item name hitem hname
    rw [hget, type_appendColumn, (hcolumn i item p hitem hp).1]
  case cells =>
    intro i item name hitem hname
    obtain ⟨p, hp, hget⟩ := happend i item name hitem hname
    obtain ⟨htype, hone⟩ := hcolumn i item p hitem hp
    rw [hget, List.map_append]
    exact (hd.cells i item name hitem hname).append hone htype

/-- `Aggregation` on all the groups. -/
theorem foldlM_aggregation {t : TableData} {n : Nat} (hw : t.WellFormed n)
    {groups : List String} (hgroups : ∀ name ∈ groups, name ∈ t.tableData) {items : List Item}
    {projections : List Projection} {columnAlias : List String}
    (hitems : List.Forall₂ (Item.Describes t groups) items projections)
    (hread : ∀ item ∈ items, item.Readable) (hne : projections ≠ []) (hnodup : columnAlias.Nodup)
    (halias : projections.length ≤ columnAlias.length)
    {keys : List String} {rowsOf : String → List Nat} {tables : List TableData}
    (h : List.Forall₂ (fun key g => GroupTable (trimmed t groups) (rowsOf key) g) keys tables)
    (hrows : ∀ key ∈ keys, rowsOf key ≠ [] ∧ ∀ r ∈ rowsOf key, r < n) {done : List (List Nat)}
    {d : TableData} (hd : ResultOf t groups items columnAlias done d) :
    ∃ d', tables.foldlM (fun result g => aggregation true g projections columnAlias result) d =
        some d' ∧ ResultOf t groups items columnAlias (done ++ keys.map rowsOf) d' := by
  induction h generalizing done d with
  | nil => exact ⟨d, rfl, by simpa using hd⟩
  | @cons key g keys tables hg htables ih =>
    obtain ⟨hsome, hlt⟩ := hrows key (by simp)
    obtain ⟨mid, hrun, hmid⟩ :=
      aggregation_group hw hgroups hitems hread hne hnodup halias hg hlt hsome hd
    obtain ⟨d', hrun', hd'⟩ := ih (fun k hk => hrows k (by simp [hk])) hmid
    refine ⟨d', by rw [List.foldlM_cons, hrun]; exact hrun', ?_⟩
    rwa [List.map_cons, List.append_cons]

/-- `Aggregation` of one sum or count on the ungrouped table. -/
theorem aggregation_total {t : TableData} {n : Nat} (hw : t.WellFormed n) (hn : 0 < n)
    {groups : List String} {item : Item} {p : Projection} (hp : item.Describes t groups p)
    (hread : item.Readable) (hitem : ∀ column, item ≠ .groupColumn column) (name : String) :
    ∃ whole, aggregation false t [p] [name] {} = some whole ∧
      whole.tableData.get name =
        countColumn (item.held ((List.range n).map (item.weight t)).sum) := by
  have hrange : List.range n ≠ [] := by
    rw [ne_eq, List.range_eq_nil]
    omega
  have hcolumn := projectionColumn_total (hasRows_self hw) hw
    (fun r hr => List.mem_range.mp hr) hrange hp hread hitem false
  generalize item.held ((List.range n).map (item.weight t)).sum = total at hcolumn ⊢
  have hcolumns : [p].mapM (projectionColumn false t) = some [countColumn total] := by
    simp [hcolumn]
  refine ⟨_, aggregation_eq (by rw [hw.count]; omega) hcolumns (by simp) {}, ?_⟩
  have hget : ColMap.get (([name].zip [countColumn total]).foldl
      (fun m e => m.modify e.1 (appendColumn e.2)) ∅) name =
        appendColumn (countColumn total) (ColMap.get ∅ name) :=
    get_appended (List.nodup_singleton name) ∅ (i := 0) rfl rfl
  exact hget.trans rfl

/-- The sum of a result column of sums or counts. -/
theorem sum_intvec {t : TableData} {groups : List String} {item : Item}
    (hitem : ∀ column, item ≠ .groupColumn column) {c : ColData} {parts : List (List Nat)}
    (h : HoldsCells c (item.type t)
      (parts.map fun rows => ⟨item.value t groups rows, false⟩)) :
    c.intvec.sum = (parts.map fun rows => item.held (rows.map (item.weight t)).sum).sum := by
  have hvalue : ∀ rows, (item.value t groups rows).int? =
      some (item.held (rows.map (item.weight t)).sum) := by
    intro rows
    cases item with
    | groupColumn name => exact absurd rfl (hitem name)
    | sum e | count name | countStar => rfl
  rw [h.int, List.map_map, List.filterMap_map]
  congr 1
  rw [← List.filterMap_eq_map]
  exact List.filterMap_congr fun rows _ => hvalue rows

/-- A total of totals can be held once at the end. -/
theorem Item.held_sum (item : Item) (totals : List Int) :
    item.held (totals.map item.held).sum = item.held totals.sum := by
  cases item with
  | sum e => exact toInt64_sum_map totals
  | groupColumn name | count name | countStar => exact congrArg List.sum (List.map_id totals)

/-- What the grouping path leaves for these groups of rows: one row for each,
columns as long as the table says, and sums and counts that add up to those of
the ungrouped table. -/
structure GroupedResult (t : TableData) (groups : List String) (parts : List (List Nat))
    (items : List Item) (projections : List Projection) (columnAlias : List String)
    (d : TableData) : Prop where
  rowCount : d.rowCount = parts.length
  length : ∀ name ∈ d.tableData, (d.tableData.get name).HasLength parts.length
  column : ∀ (i : Nat) (item : Item) (name : String), items[i]? = some item →
    columnAlias[i]? = some name → name ∈ d.tableData ∧
      ∀ (k : Nat) (rows : List Nat), parts[k]? = some rows →
        (d.tableData.get name).cell? k = some ⟨item.value t groups rows, false⟩
  total : ∀ (i : Nat) (item : Item) (p : Projection) (name : String), items[i]? = some item →
    projections[i]? = some p → columnAlias[i]? = some name →
    (∀ column, item ≠ .groupColumn column) → ∃ whole,
      aggregation false t [p] [name] {} = some whole ∧
        whole.tableData.get name = countColumn (item.held (d.tableData.get name).intvec.sum)

/-- The rows of the keys, in the order of the keys' first appearance. -/
def keyParts (t : TableData) (groups : List String) (n : Nat) : List (List Nat) :=
  (groupKeys t groups n).map (groupRows t groups n)

/-- **GROUP BY by key** neither loses a row nor counts one twice. -/
theorem groupBy_totals {t : TableData} {n : Nat} (hw : t.WellFormed n) (hn : 0 < n)
    {groups : List String} (hne : groups ≠ []) (hgroups : ∀ name ∈ groups, name ∈ t.tableData)
    {items : List Item} {projections : List Projection} {columnAlias : List String}
    (hitems : List.Forall₂ (Item.Describes t groups) items projections)
    (hread : ∀ item ∈ items, item.Readable) (hprojections : projections ≠ [])
    (hnodup : columnAlias.Nodup) (halias : projections.length ≤ columnAlias.length) :
    ∃ d, columnProjection t groups projections columnAlias = some d ∧
      GroupedResult t groups (keyParts t groups n) items projections columnAlias d := by
  obtain ⟨tables, hgroupBy, htables⟩ := groupBy_spec hw hn hgroups
  obtain ⟨d, hrun, hd⟩ := foldlM_aggregation hw hgroups hitems hread hprojections hnodup halias
    htables (fun key hkey => groupRows_of_mem hkey) (resultOf_nil t groups items columnAlias)
  rw [List.nil_append] at hd
  have hdone : keyParts t groups n ≠ [] := by simpa [keyParts] using groupKeys_ne_nil hn
  have hholds : ∀ (i : Nat) (item : Item) (name : String), items[i]? = some item →
      columnAlias[i]? = some name → (d.tableData.get name).type = item.type t ∧
        HoldsCells (d.tableData.get name) (item.type t)
          ((keyParts t groups n).map fun rows => ⟨item.value t groups rows, false⟩) :=
    fun i item name hitem hname =>
      ⟨hd.type i item name hitem hname hdone, hd.cells i item name hitem hname⟩
  refine ⟨d, ?_, ?_⟩
  · unfold columnProjection
    rw [if_neg hne, hgroupBy]
    exact hrun
  constructor
  case rowCount => exact hd.count
  case length =>
    intro name hname
    obtain ⟨-, i, hi, hname⟩ := (hd.names name).mp hname
    obtain ⟨htype, hcells⟩ := hholds i _ name (List.getElem?_eq_getElem hi) hname
    simpa using hcells.hasLength htype
  case column =>
    intro i item name hitem hname
    obtain ⟨htype, hcells⟩ := hholds i item name hitem hname
    refine ⟨(hd.names name).mpr ⟨hdone, i, (List.getElem?_eq_some_iff.mp hitem).1, hname⟩,
      fun k rows hrows => ?_⟩
    rw [hcells.cell? htype, List.getElem?_map, hrows]
    rfl
  case total =>
    -- the groups hold every row once
    intro i item p name hitem hp hname htotal
    obtain ⟨hi, rfl⟩ := List.getElem?_eq_some_iff.mp hitem
    obtain ⟨hi', rfl⟩ := List.getElem?_eq_some_iff.mp hp
    have hdescribes := (List.forall₂_iff_get.mp hitems).2 i hi hi'
    obtain ⟨whole, hwhole, hget⟩ := aggregation_total hw hn hdescribes
      (hread _ (List.getElem_mem hi)) htotal name
    obtain ⟨-, hcells⟩ := hholds i items[i] name hitem hname
    have hwholeSum := Groups.sum_group (groupKey t groups) (items[i].weight t) (List.range n)
    have hheld := items[i].held_sum
      ((keyParts t groups n).map fun rows => (rows.map (items[i].weight t)).sum)
    refine ⟨whole, hwhole, hget.trans (congrArg countColumn ?_)⟩
    simp only [keyParts, groupKeys, groupRows, List.map_map, Function.comp_def] at hheld
    rw [sum_intvec htotal hcells]
    simp only [List.get_eq_getElem, keyParts, groupKeys, groupRows, List.map_map,
      Function.comp_def]
    rw [← hwholeSum, hheld]

end KetiEngine.Merging
