import KetiEngine.Offloading.ReturnType
import KetiEngine.Merging.Arithmetic

/-!
# TypeStacks — the stacks of the type inference

`calcul_return_column_type` keeps the types of an expression on one stack and
a size for each decimal among them on another. It tells the forms of a
projection, and the operators of an expression, by their words alone. When no
other word is spelled like one of them, every operator finds its operands and
the sizes of the decimal ones, and every projection gets one type and one
length.
-/

namespace KetiEngine.Offloading

open KetiEngine PostfixExpr

/-! ## Projections -/

/-- A leaf of an expression: a column of the schema or a numeric literal. -/
def Leaf.Known (columns : List SchemaColumn) : Leaf → Prop
  | .column name => (schemaColumn? columns name).isSome
  | .literal type text =>
      type ∈ [ValueType.int8, .int16, .int32, .int64, .float32, .double, .decimal] ∧
        ∃ c ∈ text.toList, c.isDigit

/-- A projection as a query has it; an expression has an operator. -/
def Form.Proper (columns : List SchemaColumn) : Form → Prop
  | .column name => (schemaColumn? columns name).isSome
  | .expr (.leaf _) => False
  | .expr (.node o a b) => ∀ l ∈ (Expr.node o a b).leaves, l.Known columns
  | .caseWhen _ _ _ _ => True
  | .extract _ => True
  | .substring name first last _ => (schemaColumn? columns name).isSome ∧
      (Merging.integerText first).isSome ∧ (Merging.integerText last).isSome

/-- The projection is a proper one of some form. -/
def ProperProjection (columns : List SchemaColumn) (p : Projection) : Prop :=
  ∃ f : Form, f.Proper columns ∧ f.Describes p

/-- After SUBSTRING come a column of the schema and two bounds that are `int`s. -/
def SubstringReads (columns : List SchemaColumn) (value : List String) : Prop :=
  (value[1]?.bind (schemaColumn? columns)).isSome ∧ (value[2]?.bind stoi).isSome ∧
    (value[3]?.bind stoi).isSome

/-- The first word decides what is looked for: a THEN, nothing more, a column
with two bounds, or else an expression, in which only the operators may be
spelled like one. -/
def Recognised (columns : List SchemaColumn) (p : Projection) : Prop :=
  if p.value.head? = some "CASE" then "THEN" ∈ p.value
  else if p.value.head? = some "EXTRACT" then True
  else if p.value.head? = some "SUBSTRING" then SubstringReads columns p.value
  else p.value.length = 1 ∨
    ∀ word ∈ p.value.zip p.valueType, word.1 ∈ operators → word.2 = .operator

instance (columns : List SchemaColumn) (p : Projection) : Decidable (Recognised columns p) := by
  unfold Recognised SubstringReads
  infer_instance

/-! ## The loops -/

/-- The projection is read as a postfix expression. -/
def IsPostfix (p : Projection) : Prop :=
  1 < p.value.length ∧ p.value.head? ≠ some "CASE" ∧ p.value.head? ≠ some "EXTRACT" ∧
    p.value.head? ≠ some "SUBSTRING"

/-- The two stacks after the first `k` tokens of a postfix expression. -/
def typeLoop (m : ColumnMaps) (p : Projection) (k : Nat) : Option TypeStacks :=
  (p.value.take k).zipIdx.foldlM (fun st q => typeStep m st q.1 p.valueType[q.2]?) {}

theorem projectionReturn_isPostfix {p : Projection} (h : IsPostfix p) (m : ColumnMaps) :
    projectionReturn m p = (postfixReturn m p.value p.valueType).map (m, ·) := by
  obtain ⟨hlength, hcase, hextract, hsubstring⟩ := h
  unfold projectionReturn
  cases hvalue : p.value with
  | nil => simp [hvalue] at hlength
  | cons first rest =>
    have hrest : rest ≠ [] := by
      rintro rfl
      simp [hvalue] at hlength
    simp only [hvalue, List.head?_cons, ne_eq, Option.some.injEq] at hcase hextract hsubstring
    simp only [if_neg hcase, if_neg hextract, if_neg hsubstring, if_neg hrest]

/-- The types and the lengths stay in step with the projections, and the two
stacks with each other. A `top` or `pop` of an empty stack, a column that is
not found and a bound that is no `int` all end the run with `none`. -/
structure InStep (snippet : SnippetRequest) : Prop where
  balanced : ∀ before p after st, snippet.projection = before ++ p :: after →
    returnLoop (columnMaps snippet.columnList, []) before = some st → IsPostfix p →
    ∀ k ≤ p.value.length, ∃ st', typeLoop st.1 p k = some st' ∧
      st'.decimalSizeStack.length = st'.postfixStack.count 246
  appends : ∃ lengths types : List Int,
    lengths.length = snippet.projection.length ∧ types.length = snippet.projection.length ∧
      ∀ k ≤ snippet.projection.length,
        calculReturnColumnType { snippet with projection := snippet.projection.take k } =
          some (lengths.take k, types.take k)

/-! ## One projection -/

section
variable {columns : List SchemaColumn} {p : Projection}

/-- A column of the schema is in the maps already. -/
theorem bareReturn_known {name : String} (h : (schemaColumn? columns name).isSome) :
    bareReturn (columnMaps columns) name = (columnMaps columns, [columnPair columns name]) := by
  obtain ⟨htype, hlength⟩ := lookup_columnMaps columns name
  have hmem : name ∈ (columnMaps columns).columnType ∧
      name ∈ (columnMaps columns).columnLength := by
    rw [← AList.lookup_isSome, ← AList.lookup_isSome, htype, hlength]
    simpa using h
  refine Prod.ext ?_ ((columnMaps_agrees columns).bare name).2
  simp only [bareReturn, insertNew, if_pos hmem.1, if_pos hmem.2]

/-- The word after the first THEN is there, with its type. -/
def Followed (p : Projection) : Prop :=
  ∀ j, p.value.findIdx? (· = "THEN") = some j → j + 1 < p.value.length ∧ j + 1 < p.valueType.length

theorem caseReturn_of_then (hfollowed : Followed p) (hthen : "THEN" ∈ p.value) :
    ∃ pair, caseReturn p.value p.valueType = some [pair] := by
  obtain ⟨j, hj⟩ : ∃ j, p.value.findIdx? (· = "THEN") = some j := by
    rw [← Option.isSome_iff_exists, List.findIdx?_isSome]
    exact List.any_eq_true.mpr ⟨"THEN", hthen, by simp⟩
  obtain ⟨hvalue, htype⟩ := hfollowed j hj
  unfold caseReturn
  simp only [hj, List.getElem?_eq_getElem htype, List.getElem?_eq_getElem hvalue,
    Option.bind_eq_bind, Option.bind_some]
  split <;> exact ⟨_, rfl⟩

theorem caseReturn_of_not_then (hthen : "THEN" ∉ p.value) :
    caseReturn p.value p.valueType = some [] := by
  have hnone : p.value.findIdx? (· = "THEN") = none := by
    rw [List.findIdx?_eq_none_iff]
    intro word hword
    simp only [decide_eq_false_iff_not]
    rintro rfl
    exact hthen hword
  unfold caseReturn
  rw [hnone]

theorem substringReturn_cases (columns : List SchemaColumn) (value : List String) :
    (SubstringReads columns value ∧
      ∃ pair, substringReturn (columnMaps columns) value = some [pair]) ∨
    (¬ SubstringReads columns value ∧ substringReturn (columnMaps columns) value = none) := by
  have hcolumn : ∀ name, (columnMaps columns).columnType.lookup name =
      (schemaColumn? columns name).map (·.type) := fun name => (lookup_columnMaps columns name).1
  unfold substringReturn SubstringReads
  simp only [Option.bind_eq_bind]
  cases value[3]?.bind stoi with
  | none => simp
  | some last =>
    cases value[2]?.bind stoi with
    | none => simp
    | some first =>
      cases value[1]? with
      | none => simp
      | some name => cases hname : schemaColumn? columns name <;> simp [hcolumn, hname]

/-! ## One expression -/

/-- The loop over a part at the beginning of an expression. -/
theorem typeLoop_part {m : ColumnMaps} {e : Expr Leaf Op} (hp : (Form.expr e).Describes p)
    {done rest : List (Token Leaf Op)} (hsplit : e.tokens = done ++ rest) :
    typeLoop m p done.length =
      done.foldlM (fun st t => typeStep m st (tokenPair t).1 (some (tokenPair t).2)) {} := by
  have hzip := Loops.foldlM_zipIdx_map (typeStep m) (fun t => (tokenPair t).1)
    (fun t => (tokenPair t).2) done rest {}
  obtain ⟨hvalue, htype⟩ := hp
  rw [← hsplit, ← htype] at hzip
  have htake : p.value.take done.length = done.map fun t => (tokenPair t).1 := by
    rw [hvalue, hsplit, List.map_append, List.take_left' (List.length_map _)]
  unfold typeLoop
  rw [htake]
  exact hzip

theorem Form.Describes.length_expr {e : Expr Leaf Op} (hp : (Form.expr e).Describes p) :
    p.value.length = e.tokens.length := by
  rw [hp.1, List.length_map]

/-- Every decimal entry has a size. -/
theorem toStacks_balanced (vs : List (Int × Int)) :
    (toStacks vs).decimalSizeStack.length = (toStacks vs).postfixStack.count 246 := by
  simp only [toStacks, List.length_map, ← List.countP_eq_length_filter, List.count,
    List.countP_map]
  rfl

/-- **The stacks of an expression** whose leaves can be read. -/
theorem typeLoop_balanced {m : ColumnMaps} (h : m.Agrees columns) {e : Expr Leaf Op}
    (hp : (Form.expr e).Describes p) (hleaves : ∀ l ∈ e.leaves, l.Readable columns) {k : Nat}
    (hk : k ≤ p.value.length) :
    ∃ st', typeLoop m p k = some st' ∧
      st'.decimalSizeStack.length = st'.postfixStack.count 246 := by
  have hsplit : e.tokens = e.tokens.take k ++ e.tokens.drop k :=
    (List.take_append_drop k e.tokens).symm
  have hlength : (e.tokens.take k).length = k := by
    rw [List.length_take, ← hp.length_expr]
    omega
  have hpart := typeLoop_part (m := m) hp hsplit
  rw [hlength] at hpart
  -- the whole expression runs, and with it every part at its beginning
  obtain ⟨entry, heval, -⟩ := eval_entry e hleaves
  have hwhole := ((typeStep_follows h).tokens hleaves []).2
  rw [heval, hsplit, List.foldlM_append] at hwhole
  obtain ⟨st', hrun, -⟩ := Option.bind_eq_some_iff.mp hwhole
  obtain ⟨vs, rfl, -⟩ := (typeStep_follows h).stack hleaves hsplit hrun
  refine ⟨_, hpart.trans hrun, toStacks_balanced _⟩

/-- A word that is no operator pushes a type, and an operator leaves one fewer. -/
theorem typeStep_height {m : ColumnMaps} {st st' : TypeStacks} {token : String}
    {valueType : Option ValueType} (h : typeStep m st token valueType = some st') :
    st'.postfixStack.length + 2 * (decide (token ∈ operators)).toNat =
      st.postfixStack.length + 1 := by
  unfold typeStep at h
  by_cases hword : token = "+" ∨ token = "-" ∨ token = "*" ∨ token = "/"
  · have hmem : token ∈ operators := by simpa [operators] using hword
    rw [if_pos hword] at h
    rcases hstack : st.postfixStack with _ | ⟨op2, _ | ⟨op1, rest⟩⟩
    case nil | cons.nil =>
      rw [hstack] at h
      cases h
    case cons.cons =>
      rw [hstack] at h
      obtain ⟨⟨tokenType, sizes⟩, -, hpure⟩ := Option.bind_eq_some_iff.mp h
      cases hpure
      simp [hmem]
  · have hmem : token ∉ operators := by simpa [operators] using hword
    rw [if_neg hword] at h
    obtain ⟨type, -, hpush⟩ := Option.bind_eq_some_iff.mp h
    split at hpush
    · obtain ⟨tokenType, -, hpure⟩ := Option.bind_eq_some_iff.mp hpush
      cases hpure
      simp [hmem]
    · obtain ⟨type', -, hpure⟩ := Option.bind_eq_some_iff.mp hpush
      cases hpure
      simp [hmem]

/-- **An operand spelled like an operator** ends the run. -/
theorem postfixReturn_misread (m : ColumnMaps) {e : Expr Leaf Op}
    (hp : (Form.expr e).Describes p) {l : Leaf} (hl : l ∈ e.leaves)
    (hword : (tokenPair (.leaf l : Token Leaf Op)).1 ∈ operators) :
    postfixReturn m p.value p.valueType = none := by
  have hrun : e.tokens.foldlM
      (fun st t => typeStep m st (tokenPair t).1 (some (tokenPair t).2)) {} = none :=
    run_eq_none_of_seen (fun st => st.postfixStack.length)
      (fun t => decide ((tokenPair t).1 ∈ operators))
      (fun _ _ _ hstep => typeStep_height hstep)
      (fun o => by cases o <;> decide) hl (decide_eq_true hword) rfl
  have hloop := typeLoop_part (m := m) hp (List.append_nil e.tokens).symm
  rw [← hp.length_expr] at hloop
  unfold typeLoop at hloop
  rw [List.take_length] at hloop
  unfold postfixReturn
  rw [hloop, hrun]
  rfl

theorem Leaf.Known.readable_iff {l : Leaf} (h : l.Known columns) :
    l.Readable columns ↔ (tokenPair (.leaf l : Token Leaf Op)).1 ∉ operators := by
  cases l with
  | column name => exact and_iff_left h
  | literal type text =>
    refine and_iff_left ?_
    rintro rfl
    exact absurd h.1 (by decide)

theorem Leaf.Known.type_ne {l : Leaf} (h : l.Known columns) :
    (tokenPair (.leaf l : Token Leaf Op)).2 ≠ .operator := by
  cases l with
  | column name => nofun
  | literal type text =>
    rintro hop
    obtain rfl : type = .operator := hop
    exact absurd h.1 (by decide)

section
variable {o : Op} {a b : Expr Leaf Op}

theorem Form.Describes.one_lt_length (hp : (Form.expr (.node o a b)).Describes p) :
    1 < p.value.length := by
  obtain ⟨l, ts, hts, hne, -⟩ := Expr.tokens_node_eq_cons o a b
  have hpos := List.length_pos_of_ne_nil hne
  rw [hp.length_expr, hts, List.length_cons]
  omega

/-- Only an operator is the last token of an expression. -/
theorem Form.Describes.followed_expr (hp : (Form.expr (.node o a b)).Describes p) :
    Followed p := by
  intro j hj
  obtain ⟨hlt, hthen, -⟩ := List.findIdx?_eq_some_iff_getElem.mp hj
  have hthen : p.value[j] = "THEN" := by simpa using hthen
  have htypes : p.valueType.length = p.value.length := by
    rw [hp.1, hp.2, List.length_map, List.length_map]
  have hlast : p.value.getLast? = some o.text := by
    rw [hp.1, Expr.tokens, ← List.append_assoc, List.map_append]
    simp [tokenPair]
  suffices hne : j + 1 ≠ p.value.length by omega
  intro heq
  rw [List.getLast?_eq_getElem?, show p.value.length - 1 = j by omega,
    List.getElem?_eq_getElem hlt, hthen, Option.some.injEq] at hlast
  revert hlast
  cases o <;> decide

/-- The words of an expression are recognised when no operand is spelled like
an operator. -/
theorem forall_mem_zip_iff (hp : (Form.expr (.node o a b)).Describes p)
    (hleaves : ∀ l ∈ (Expr.node o a b).leaves, l.Known columns) :
    (∀ word ∈ p.value.zip p.valueType, word.1 ∈ operators → word.2 = .operator) ↔
      ∀ l ∈ (Expr.node o a b).leaves, l.Readable columns := by
  have hzip : p.value.zip p.valueType = (Expr.node o a b).tokens.map tokenPair := by
    rw [hp.1, hp.2, List.zip_map']
  rw [hzip, List.forall_mem_map]
  constructor
  · intro h l hl
    have hword := h (.leaf l) (Expr.leaf_mem_tokens.mpr hl)
    rw [(hleaves l hl).readable_iff]
    exact fun hmem => (hleaves l hl).type_ne (hword hmem)
  · intro h t ht hmem
    cases t with
    | leaf l =>
      have hl := Expr.leaf_mem_tokens.mp ht
      exact absurd hmem ((hleaves l hl).readable_iff.mp (h l hl))
    | op o => rfl

end

/-! ## Every projection -/

/-- The projection gets one pair, and the maps stay as they are. -/
def AddsPair (columns : List SchemaColumn) (p : Projection) : Prop :=
  ∃ pair, projectionReturn (columnMaps columns) p = some (columnMaps columns, [pair])

/-- The projection gets no pair: the run ends, or goes on without one. -/
def AddsNone (columns : List SchemaColumn) (p : Projection) : Prop :=
  ∀ st, projectionReturn (columnMaps columns) p = some st → st = (columnMaps columns, [])

theorem recognised_case (hfirst : p.value.head? = some "CASE") (hfollowed : Followed p) :
    Recognised columns p ∧ AddsPair columns p ∨ ¬ Recognised columns p ∧ AddsNone columns p := by
  have hreturn : projectionReturn (columnMaps columns) p =
      (caseReturn p.value p.valueType).map (columnMaps columns, ·) := by
    obtain ⟨rest, hvalue⟩ := List.head?_eq_some_iff.mp hfirst
    simp [projectionReturn, hvalue]
  unfold Recognised AddsPair AddsNone
  rw [if_pos hfirst, hreturn]
  by_cases hthen : "THEN" ∈ p.value
  · obtain ⟨pair, hpair⟩ := caseReturn_of_then hfollowed hthen
    exact .inl ⟨hthen, pair, by rw [hpair]; rfl⟩
  · refine .inr ⟨hthen, fun st hst => ?_⟩
    rw [caseReturn_of_not_then hthen] at hst
    exact (Option.some.inj hst).symm

theorem recognised_extract (hfirst : p.value.head? = some "EXTRACT") :
    Recognised columns p ∧ AddsPair columns p := by
  have hcase : ¬ p.value.head? = some "CASE" := by simp [hfirst]
  obtain ⟨rest, hvalue⟩ := List.head?_eq_some_iff.mp hfirst
  unfold Recognised
  rw [if_neg hcase, if_pos hfirst]
  exact ⟨trivial, (3, 4), by simp [projectionReturn, hvalue]⟩

theorem recognised_substring (hfirst : p.value.head? = some "SUBSTRING") :
    Recognised columns p ∧ AddsPair columns p ∨ ¬ Recognised columns p ∧ AddsNone columns p := by
  have hcase : ¬ p.value.head? = some "CASE" := by simp [hfirst]
  have hextract : ¬ p.value.head? = some "EXTRACT" := by simp [hfirst]
  have hreturn : projectionReturn (columnMaps columns) p =
      (substringReturn (columnMaps columns) p.value).map (columnMaps columns, ·) := by
    obtain ⟨rest, hvalue⟩ := List.head?_eq_some_iff.mp hfirst
    simp [projectionReturn, hvalue]
  unfold Recognised AddsPair AddsNone
  rw [if_neg hcase, if_neg hextract, if_pos hfirst, hreturn]
  refine (substringReturn_cases columns p.value).imp ?_ ?_
  · rintro ⟨hreads, pair, hpair⟩
    exact ⟨hreads, pair, by rw [hpair]; rfl⟩
  · rintro ⟨hreads, hnone⟩
    refine ⟨hreads, fun st hst => ?_⟩
    rw [hnone] at hst
    cases hst

theorem recognised_bare {name : String} (hvalue : p.value = [name])
    (hname : (schemaColumn? columns name).isSome) (hcase : p.value.head? ≠ some "CASE")
    (hextract : p.value.head? ≠ some "EXTRACT") (hsubstring : p.value.head? ≠ some "SUBSTRING") :
    Recognised columns p ∧ AddsPair columns p := by
  unfold Recognised
  rw [if_neg hcase, if_neg hextract, if_neg hsubstring]
  refine ⟨.inl (by rw [hvalue]; rfl), columnPair columns name, ?_⟩
  rw [← bareReturn_known hname]
  simp only [hvalue, List.head?_cons, ne_eq, Option.some.injEq] at hcase hextract hsubstring
  simp [projectionReturn, hvalue, hcase, hextract, hsubstring]

/-- Only an expression is read as one. -/
theorem ProperProjection.exists_expr (h : ProperProjection columns p) (hpost : IsPostfix p) :
    ∃ (o : Op) (a b : Expr Leaf Op), (Form.expr (.node o a b)).Describes p ∧
      ∀ l ∈ (Expr.node o a b).leaves, l.Known columns := by
  obtain ⟨hlength, hcase, hextract, hsubstring⟩ := hpost
  obtain ⟨f, hf, hp⟩ := h
  cases f with
  | column name => simp [show p.value = [name] from hp] at hlength
  | expr e =>
    cases e with
    | leaf l => exact hf.elim
    | node o a b => exact ⟨o, a, b, hp, hf⟩
  | caseWhen before type literal after => simp [hp.1] at hcase
  | extract rest => simp [show p.value = _ from hp] at hextract
  | substring name first last rest => simp [show p.value = _ from hp] at hsubstring

theorem recognised_iff_readable {o : Op} {a b : Expr Leaf Op} (hpost : IsPostfix p)
    (hp : (Form.expr (.node o a b)).Describes p)
    (hleaves : ∀ l ∈ (Expr.node o a b).leaves, l.Known columns) :
    Recognised columns p ↔ ∀ l ∈ (Expr.node o a b).leaves, l.Readable columns := by
  obtain ⟨hlength, hcase, hextract, hsubstring⟩ := hpost
  unfold Recognised
  rw [if_neg hcase, if_neg hextract, if_neg hsubstring, forall_mem_zip_iff hp hleaves]
  exact or_iff_right (by omega)

theorem recognised_expr {o : Op} {a b : Expr Leaf Op} (hpost : IsPostfix p)
    (hp : (Form.expr (.node o a b)).Describes p)
    (hleaves : ∀ l ∈ (Expr.node o a b).leaves, l.Known columns) :
    Recognised columns p ∧ AddsPair columns p ∨ ¬ Recognised columns p ∧ AddsNone columns p := by
  rw [recognised_iff_readable hpost hp hleaves]
  unfold AddsPair AddsNone
  rw [projectionReturn_isPostfix hpost]
  by_cases hreadable : ∀ l ∈ (Expr.node o a b).leaves, l.Readable columns
  · refine .inl ⟨hreadable, (Form.expr (.node o a b)).pair columns, ?_⟩
    rw [hp.1, hp.2, postfixReturn_node (columnMaps_agrees columns) o a b hreadable]
    rfl
  · refine .inr ⟨hreadable, fun st hst => ?_⟩
    obtain ⟨l, hl, hnot⟩ : ∃ l ∈ (Expr.node o a b).leaves, ¬ l.Readable columns := by
      simpa using hreadable
    rw [(hleaves l hl).readable_iff, not_not] at hnot
    rw [postfixReturn_misread _ hp hl hnot] at hst
    cases hst

/-- **A proper projection** gets one pair when its words are recognised, and
none otherwise. -/
theorem recognised_cases {f : Form} (hf : f.Proper columns) (hp : f.Describes p) :
    Recognised columns p ∧ AddsPair columns p ∨ ¬ Recognised columns p ∧ AddsNone columns p := by
  -- the keywords decide, whatever the projection is meant to be
  by_cases hcase : p.value.head? = some "CASE"
  · refine recognised_case hcase ?_
    cases f with
    | column name =>
      intro j hj
      obtain ⟨hlt, hthen, -⟩ := List.findIdx?_eq_some_iff_getElem.mp hj
      obtain rfl : name = "CASE" := by simpa [show p.value = [name] from hp] using hcase
      simp [show p.value = ["CASE"] from hp] at hthen
    | expr e =>
      cases e with
      | leaf l => exact hf.elim
      | node o a b => exact hp.followed_expr
    | caseWhen before type literal after =>
      intro j hj
      rw [hp.findIdx?_then, Option.some.injEq] at hj
      subst hj
      refine ⟨?_, (List.getElem?_eq_some_iff.mp hp.2.2).1⟩
      rw [hp.1]
      simp
    | extract rest => simp [show p.value = _ from hp] at hcase
    | substring name first last rest => simp [show p.value = _ from hp] at hcase
  by_cases hextract : p.value.head? = some "EXTRACT"
  · exact .inl (recognised_extract hextract)
  by_cases hsubstring : p.value.head? = some "SUBSTRING"
  · exact recognised_substring hsubstring
  cases f with
  | column name => exact .inl (recognised_bare hp hf hcase hextract hsubstring)
  | expr e =>
    cases e with
    | leaf l => exact hf.elim
    | node o a b =>
      exact recognised_expr ⟨hp.one_lt_length, hcase, hextract, hsubstring⟩ hp hf
  | caseWhen before type literal after => simp [hp.1] at hcase
  | extract rest => simp [show p.value = _ from hp] at hextract
  | substring name first last rest => simp [show p.value = _ from hp] at hsubstring

/-! ## The whole snippet -/

/-- The maps stay as they are over all projections. -/
theorem returnLoop_maps {projections : List Projection}
    (h : ∀ p ∈ projections, AddsPair columns p ∨ AddsNone columns p)
    {st : ColumnMaps × List (Int × Int)}
    (hrun : returnLoop (columnMaps columns, []) projections = some st) :
    st.1 = columnMaps columns := by
  refine Loops.foldlM_induction (P := fun _ st => st.1 = columnMaps columns) rfl ?_ hrun
  intro done p rest st st' hsplit hmaps hstep
  obtain ⟨new, hnew, hpure⟩ := Option.bind_eq_some_iff.mp hstep
  cases hpure
  rw [hmaps] at hnew
  rcases h p (by simp [hsplit]) with ⟨pair, hpair⟩ | hnone
  · rw [hpair] at hnew
    cases hnew
    rfl
  · rw [hnone new hnew]

/-- **One pair after the other**, as long as every projection gets one. -/
theorem returnLoop_of_addsPair {projections : List Projection}
    (h : ∀ p ∈ projections, AddsPair columns p) (added : List (Int × Int)) :
    ∃ pairs : List (Int × Int), pairs.length = projections.length ∧ ∀ k,
      returnLoop (columnMaps columns, added) (projections.take k) =
        some (columnMaps columns, added ++ pairs.take k) := by
  induction projections generalizing added with
  | nil => exact ⟨[], rfl, fun k => by simp [returnLoop]⟩
  | cons p projections ih =>
    obtain ⟨pair, hpair⟩ := h p (by simp)
    obtain ⟨pairs, hlength, hrest⟩ := ih (fun q hq => h q (by simp [hq])) (added ++ [pair])
    refine ⟨pair :: pairs, by simp [hlength], fun k => ?_⟩
    cases k with
    | zero => simp [returnLoop]
    | succ k =>
      rw [List.take_succ_cons, returnLoop_cons hpair, hrest k]
      simp

/-- The first `k` projections have got `k` pairs. -/
theorem InStep.length_eq {snippet : SnippetRequest} (h : InStep snippet) {k : Nat}
    (hk : k ≤ snippet.projection.length) :
    ∃ st, returnLoop (columnMaps snippet.columnList, []) (snippet.projection.take k) = some st ∧
      st.2.length = k := by
  obtain ⟨lengths, types, hlengths, -, happends⟩ := h.appends
  have hrun := happends k hk
  rw [calculReturnColumnType_eq] at hrun
  obtain ⟨st, hst, hpairs⟩ := Option.map_eq_some_iff.mp hrun
  refine ⟨st, hst, ?_⟩
  have hlen := congrArg List.length (Prod.mk.inj hpairs).1
  rw [List.length_map, List.length_take] at hlen
  omega

end

/-- **The stacks stay in step** over every snippet of proper projections,
exactly when the words of every projection are recognised. -/
theorem calculReturnColumnType_inStep_iff {snippet : SnippetRequest}
    (hproper : ∀ p ∈ snippet.projection, ProperProjection snippet.columnList p) :
    InStep snippet ↔ ∀ p ∈ snippet.projection, Recognised snippet.columnList p := by
  have hcases : ∀ p ∈ snippet.projection,
      Recognised snippet.columnList p ∧ AddsPair snippet.columnList p ∨
        ¬ Recognised snippet.columnList p ∧ AddsNone snippet.columnList p := by
    intro p hp
    obtain ⟨f, hf, hdescribes⟩ := hproper p hp
    exact recognised_cases hf hdescribes
  have hmaps : ∀ before p after st, snippet.projection = before ++ p :: after →
      returnLoop (columnMaps snippet.columnList, []) before = some st →
      st.1 = columnMaps snippet.columnList := by
    intro before p after st hsplit
    refine returnLoop_maps fun q hq => ?_
    exact (hcases q (by simp [hsplit, hq])).imp And.right And.right
  constructor
  · intro h p hp
    by_contra hnot
    obtain ⟨-, hnone⟩ := (hcases p hp).resolve_left fun hyes => hnot hyes.1
    -- there is one pair more after `p` than before it
    obtain ⟨before, after, hsplit⟩ := List.append_of_mem hp
    have hlength : before.length + 1 ≤ snippet.projection.length := by simp [hsplit]
    obtain ⟨st, hst, hpairs⟩ := h.length_eq (k := before.length) (by omega)
    obtain ⟨st', hst', hpairs'⟩ := h.length_eq hlength
    have htake : snippet.projection.take (before.length + 1) = before ++ [p] := by
      simp [hsplit, List.take_append]
    rw [hsplit, List.take_left' rfl] at hst
    rw [htake, returnLoop_concat, hst, Option.bind_some,
      hmaps before p after st hsplit hst] at hst'
    obtain ⟨new, hnew, rfl⟩ := Option.map_eq_some_iff.mp hst'
    have hsame : (st.2 ++ new.2).length = before.length + 1 := hpairs'
    rw [hnone new hnew, List.append_nil] at hsame
    omega
  · intro hall
    have hadds : ∀ p ∈ snippet.projection, AddsPair snippet.columnList p := fun p hp =>
      ((hcases p hp).resolve_right fun hno => hno.1 (hall p hp)).2
    constructor
    case balanced =>
      intro before p after st hsplit hbefore hpost k hk
      have hp : p ∈ snippet.projection := by simp [hsplit]
      rw [hmaps before p after st hsplit hbefore]
      obtain ⟨o, a, b, hdescribes, hleaves⟩ := (hproper p hp).exists_expr hpost
      have hreadable := (recognised_iff_readable hpost hdescribes hleaves).mp (hall p hp)
      exact typeLoop_balanced (columnMaps_agrees snippet.columnList) hdescribes hreadable hk
    case appends =>
      obtain ⟨pairs, hlength, hpairs⟩ := returnLoop_of_addsPair hadds []
      refine ⟨pairs.map Prod.snd, pairs.map Prod.fst, by simp [hlength], by simp [hlength],
        fun k _ => ?_⟩
      rw [calculReturnColumnType_eq, hpairs k]
      simp

/-- A bare column, an expression, a CASE, an EXTRACT and a SUBSTRING. -/
theorem lineSnippet_inStep : InStep lineSnippet := by
  refine (@calculReturnColumnType_inStep_iff lineSnippet ?_).mpr ?_
  · simp only [lineSnippet, List.forall_mem_cons, List.not_mem_nil, false_imp_iff, implies_true,
      and_true]
    refine ⟨⟨.column "shipped", rfl, rfl⟩, ⟨.expr discounted, ?_, rfl, rfl⟩,
      ⟨.caseWhen ["WHEN", "comment", "x", "="] .int32 "1" ["ELSE", "0", "END"], trivial, rfl,
        by decide, rfl⟩, ⟨.extract ["YEAR", "shipped"], trivial, rfl⟩,
      ⟨.substring "comment" "1" "2" [], ⟨rfl, by decide, by decide⟩, rfl⟩⟩
    intro l hl
    have hl : l = .column "price" ∨ l = .literal .int32 "2" := by
      simpa [discounted, Expr.leaves] using hl
    rcases hl with rfl | rfl
    · exact (rfl : (schemaColumn? lineColumns "price").isSome = true)
    · exact ⟨by decide, '2', by decide, by decide⟩
  · decide

/-- A column named CASE. -/
def caseColumnSnippet : SnippetRequest where
  columnList := [⟨"CASE", 3, 4⟩]
  projection := [{ value := ["CASE"], valueType := [.column] }]

/-- A column named `+`, times 1. -/
def plusColumnSnippet : SnippetRequest where
  columnList := [⟨"+", 3, 4⟩]
  projection := [{ value := ["+", "1", "*"], valueType := [.column, .int32, .operator] }]

/-- A SUBSTRING with the bound `2147483648`. -/
def longSubstringSnippet : SnippetRequest where
  columnList := lineColumns
  projection :=
    [{ value := ["SUBSTRING", "comment", "1", "2147483648"],
       valueType := [.string, .column, .int32, .int64] }]

/-- The column named CASE gets no type, the one named `+` makes an operator
pop an empty stack, and `stoi` throws on the bound. -/
theorem typeStacks_limits :
    ((∀ p ∈ caseColumnSnippet.projection, ProperProjection [⟨"CASE", 3, 4⟩] p) ∧
      ¬ InStep caseColumnSnippet) ∧
    ((∀ p ∈ plusColumnSnippet.projection, ProperProjection [⟨"+", 3, 4⟩] p) ∧
      ¬ InStep plusColumnSnippet) ∧
    (∀ p ∈ longSubstringSnippet.projection, ProperProjection lineColumns p) ∧
      ¬ InStep longSubstringSnippet := by
  have hout : ∀ snippet : SnippetRequest, snippet.projection.length = 1 →
      (calculReturnColumnType snippet = none ∨ calculReturnColumnType snippet = some ([], [])) →
      ¬ InStep snippet := by
    intro snippet hone hrun h
    obtain ⟨lengths, types, hlengths, -, happends⟩ := h.appends
    have hall := happends _ le_rfl
    rw [List.take_length, ← hlengths, List.take_length] at hall
    rcases hrun with hrun | hrun <;> rw [hrun] at hall <;> cases hall
    simp [hone] at hlengths
  refine ⟨⟨?_, hout _ rfl (.inr (by decide))⟩, ⟨?_, hout _ rfl (.inl (by decide))⟩,
    ⟨?_, hout _ rfl (.inl (by decide +kernel))⟩⟩
  · simp only [caseColumnSnippet, List.forall_mem_singleton]
    exact ⟨.column "CASE", rfl, rfl⟩
  · simp only [plusColumnSnippet, List.forall_mem_singleton]
    refine ⟨.expr (.node .mul (.leaf (.column "+")) (.leaf (.literal .int32 "1"))), ?_, rfl, rfl⟩
    simp only [Form.Proper, Expr.leaves, List.cons_append, List.nil_append,
      List.forall_mem_cons, List.not_mem_nil, false_imp_iff, implies_true, and_true]
    exact ⟨rfl, by decide, '1', by decide, by decide⟩
  · simp only [longSubstringSnippet, List.forall_mem_singleton]
    exact ⟨.substring "comment" "1" "2147483648" [], ⟨rfl, by decide, by decide⟩, rfl⟩

end KetiEngine.Offloading
