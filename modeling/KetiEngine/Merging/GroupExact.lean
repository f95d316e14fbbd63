import KetiEngine.Merging.BareColumn
import KetiEngine.Merging.CaseBranches
import KetiEngine.Merging.GroupPartition
import KetiEngine.Merging.GroupTotals

/-!
# GroupExact — where GROUP BY is exact

A group of a query is the rows with equal values in the group columns. The
grouping path leaves one row for each exactly when it has a projection,
`Projection` reads every item, and no two groups have one key. An expression
with a literal that `Postfix` does not read leaves no value, and so does one
that begins with a word of `Projection`.
-/

namespace KetiEngine.Merging

open KetiEngine PostfixExpr

/-! ## Expressions that are not read -/

/-- One token of an integer expression. -/
def intStep (env : RowEnv) (operStack : List T) (tok : Token IntLeaf IntOp) : Option (List T) :=
  postfixStep env operStack (intToken tok).1 (intToken tok).2

/-- What a token takes from the stack, if a leaf adds one: an operator two, and
a literal that is not read the one it should add. -/
def intCost : Token IntLeaf IntOp → Nat
  | .op _ => 2
  | .leaf (.literal .int8 _) => 1
  | .leaf _ => 0

instance (l : IntLeaf) : Decidable l.Readable := by
  cases l <;> unfold IntLeaf.Readable <;> infer_instance

section
variable {env : RowEnv} {t : ColMap}

/-- No operand of an integer expression is a truth value. -/
theorem columnOperand_boolean {name : String} {x : T} (h : columnOperand env name = some x) :
    x.boolean = false := by
  unfold columnOperand at h
  split at h
  case h_5 | h_6 =>
    cases h
    rfl
  all_goals
    obtain ⟨a, -, rfl⟩ := Option.map_eq_some_iff.mp h
    rfl

/-- An operator of integers pushes at most one operand, and no truth value. -/
theorem intOper_spec (o : IntOp) : ∃ oper, operator? o.text = some oper ∧
    ∀ x y zs, oper x y = some zs → zs.length ≤ 1 ∧ ∀ z ∈ zs, z.boolean = false := by
  cases o with
  | plus =>
    refine ⟨plus, rfl, fun x y zs h => ?_⟩
    unfold plus at h
    split at h <;> cases h <;> simp
  | minus =>
    refine ⟨minus, rfl, fun x y zs h => ?_⟩
    unfold minus arithmetic at h
    split at h <;> cases h <;> simp
  | times =>
    refine ⟨times, rfl, fun x y zs h => ?_⟩
    unfold times arithmetic at h
    split at h <;> cases h <;> simp

/-- **One token** leaves no more than it should, and no truth value. -/
theorem intStep_spec {tok : Token IntLeaf IntOp} (hwf : ∀ l, tok = .leaf l → l.WellFormed t)
    {st st' : List T} (h : intStep env st tok = some st') :
    st'.length + intCost tok ≤ st.length + 1 ∧
      ((∀ x ∈ st, x.boolean = false) → ∀ x ∈ st', x.boolean = false) := by
  cases tok with
  | op o =>
    obtain ⟨oper, hoper, hspec⟩ := intOper_spec o
    simp only [intStep, intToken, postfixStep, hoper] at h
    split at h
    case h_2 => cases h
    case h_1 oper2 oper1 rest =>
      obtain ⟨zs, hzs, rfl⟩ := Option.map_eq_some_iff.mp h
      obtain ⟨hlength, hboolean⟩ := hspec _ _ _ hzs
      simp only [List.length_append, List.length_cons, intCost, List.mem_append]
      refine ⟨by omega, fun hst x hx => hx.elim (hboolean x) fun hx => hst x (by simp [hx])⟩
  | leaf l =>
    cases l with
    | column name =>
      obtain ⟨x, hx, rfl⟩ := Option.map_eq_some_iff.mp h
      have hboolean := columnOperand_boolean hx
      exact ⟨by simp [intCost], fun hst => List.forall_mem_cons.mpr ⟨hboolean, hst⟩⟩
    | literal type text =>
      have htype := (hwf _ rfl).1
      simp only [List.mem_cons, List.not_mem_nil, or_false] at htype
      rcases htype with rfl | rfl | rfl | rfl
      · cases h
        exact ⟨Nat.le_refl _, id⟩
      all_goals
        obtain ⟨n, -, rfl⟩ := Option.map_eq_some_iff.mp h
        exact ⟨by simp [intCost], fun hst => List.forall_mem_cons.mpr ⟨rfl, hst⟩⟩

/-- A literal that is not read costs an operand or ends the run. -/
theorem intStep_unreadable {l : IntLeaf} (hl : l.WellFormed t) (hread : ¬ l.Readable) :
    intCost (.leaf l) = 1 ∨ ∀ st, intStep env st (.leaf l) = none := by
  cases l with
  | column name => exact absurd trivial hread
  | literal type text =>
    obtain ⟨htype, hsome⟩ := hl
    obtain ⟨n, hn⟩ := Option.isSome_iff_exists.mp hsome
    simp only [List.mem_cons, List.not_mem_nil, or_false] at htype
    rcases htype with rfl | rfl | rfl | rfl
    · exact .inl rfl
    all_goals
      right
      intro st
      have hrange : ¬ (-2 ^ 31 ≤ n ∧ n < 2 ^ 31) := by
        intro hrange
        refine hread ⟨by decide, fun m hm => ?_⟩
        obtain rfl := Option.some.inj (hn.symm.trans hm)
        exact hrange
      have hread := stoi_eq hn
      rw [if_neg hrange] at hread
      simp [intStep, intToken, postfixStep, hread]

/-- The tokens of an expression from `start` to before `stop`. -/
theorem postfixValue_tokens {e : Expr IntLeaf IntOp} {p : Projection} (hp : IsExpr e p)
    {start stop : Nat} (hstop : stop ≤ e.tokens.length) :
    postfixValue env p start stop =
      (((e.tokens.drop start).take (stop - start)).foldlM (intStep env) []).bind List.head? := by
  obtain ⟨select, value, valueType⟩ := p
  obtain ⟨rfl, rfl⟩ : value = _ ∧ valueType = _ := ⟨hp.value, hp.valueType⟩
  by_cases hle : start ≤ stop
  · let part := (e.tokens.drop start).take (stop - start)
    have hsplit : e.tokens = e.tokens.take start ++ part ++ e.tokens.drop stop := by
      have hrest : (e.tokens.drop start).drop (stop - start) = e.tokens.drop stop := by
        rw [List.drop_drop, Nat.add_sub_cancel' hle]
      rw [List.append_assoc, ← hrest, List.take_append_drop, List.take_append_drop]
    have hbefore : (e.tokens.take start).length = start := List.length_take_of_le (by omega)
    have hpart : part.length = stop - start := by simp [part]; omega
    have hsegment := Loops.foldlM_segment (postfixStep env) (fun tok => (intToken tok).1)
      (fun tok => (intToken tok).2) (e.tokens.take start) part (e.tokens.drop stop) []
    rw [← hsplit, hbefore, hpart] at hsegment
    unfold postfixValue
    exact congrArg (·.bind List.head?) hsegment
  · have hnone : stop - start = 0 := by omega
    simp [postfixValue, hnone]

/-- **No part of an integer expression** is a condition that holds. -/
theorem postfixValue_boolean {e : Expr IntLeaf IntOp} {p : Projection} (hp : IsExpr e p)
    (hwf : ∀ l ∈ e.leaves, l.WellFormed t) {start stop : Nat} (hstop : stop ≤ e.tokens.length)
    {x : T} (h : postfixValue env p start stop = some x) : x.boolean = false := by
  rw [postfixValue_tokens hp hstop] at h
  obtain ⟨st, hrun, hhead⟩ := Option.bind_eq_some_iff.mp h
  have hboolean : ∀ x ∈ st, x.boolean = false := by
    refine Loops.foldlM_induction (P := fun _ st => ∀ x ∈ st, x.boolean = false) nofun ?_ hrun
    intro done tok rest s s' hsplit hs hstep
    refine (intStep_spec (t := t) (fun l hl => hwf l ?_) hstep).2 hs
    have hin : tok ∈ (e.tokens.drop start).take (stop - start) := by simp [hsplit]
    exact Expr.leaf_mem_tokens.mp (hl ▸ List.mem_of_mem_drop (List.mem_of_mem_take hin))
  exact hboolean x (List.mem_of_mem_head? hhead)

theorem casePassed_expr {e : Expr IntLeaf IntOp} {p : Projection} (hp : IsExpr e p)
    (hwf : ∀ l ∈ e.leaves, l.WellFormed t) (start : Nat) (offsets : List Nat) :
    casePassed env p start offsets ≠ some true := by
  induction offsets generalizing start with
  | nil => exact nofun
  | cons offset rest ih =>
    intro h
    obtain ⟨value, hvalue, h⟩ := Option.bind_eq_some_iff.mp h
    have hoffset : offset ≤ e.tokens.length := by
      have hlt := (List.getElem?_eq_some_iff.mp hvalue).1
      rw [hp.value, List.length_map] at hlt
      exact hlt.le
    have hfalse : ∀ x, postfixValue env p start offset = some x → x.boolean = false :=
      fun x hx => postfixValue_boolean hp hwf hoffset hx
    split at h
    case isTrue =>
      obtain ⟨x, hx, h⟩ := Option.bind_eq_some_iff.mp h
      simp [hfalse x hx] at h
    case isFalse =>
      split at h
      case isTrue =>
        obtain ⟨x, hx, h⟩ := Option.bind_eq_some_iff.mp h
        rw [hfalse x hx] at h
        exact ih _ h
      case isFalse =>
        split at h
        case isTrue =>
          obtain ⟨x, hx, h⟩ := Option.bind_eq_some_iff.mp h
          rw [hfalse x hx] at h
          exact ih _ h
        case isFalse => exact ih _ h

theorem caseWhenThen_expr {e : Expr IntLeaf IntOp} {p : Projection} (hp : IsExpr e p)
    (hwf : ∀ l ∈ e.leaves, l.WellFormed t) {pairs : List (Option Nat × Nat)} {branch : Option T}
    (h : caseWhenThen env p pairs = some branch) : branch = none := by
  induction pairs with
  | nil => exact (Option.some.inj h).symm
  | cons pair rest ih =>
    obtain ⟨whenOffset, -, h⟩ := Option.bind_eq_some_iff.mp h
    obtain ⟨passed, hpassed, h⟩ := Option.bind_eq_some_iff.mp h
    cases passed with
    | true => exact absurd hpassed (casePassed_expr hp hwf _ _)
    | false => exact ih h

/-- The offset of `ELSE` is behind the first word. -/
theorem caseOffsets_else {value : List String} {j : Nat}
    (h : (caseOffsets value).elseOffset = some j) : 0 < j ∧ value[j]? = some "ELSE" := by
  have hloop : ∀ (l : List (String × Nat)) (st : CaseOffsets),
      (∀ k, st.elseOffset = some k → 0 < k ∧ value[k]? = some "ELSE") →
      (∀ e ∈ l, 0 < e.2 ∧ value[e.2]? = some e.1) →
      ∀ k, (l.foldl offsetStep st).elseOffset = some k → 0 < k ∧ value[k]? = some "ELSE" := by
    intro l
    induction l with
    | nil => exact fun st hst _ => hst
    | cons e l ih =>
      intro st hst hl
      refine ih _ (fun k hk => ?_) fun e' he' => hl e' (by simp [he'])
      unfold offsetStep at hk
      split_ifs at hk with hwhen hthen helse
      · exact hst k hk
      · exact hst k hk
      · obtain rfl := Option.some.inj hk
        exact helse ▸ hl e (by simp)
      · exact hst k hk
  refine hloop (value.zipIdx.drop 1) {} nofun (fun e he => ?_) j h
  obtain ⟨i, hi, rfl⟩ := List.getElem_of_mem he
  simp [Nat.add_comm 1 i]

/-- **`CASE` has no value** of an integer expression: no condition holds, and
what follows `ELSE` lacks the operand below it. -/
theorem caseValue_expr {e : Expr IntLeaf IntOp} {p : Projection} (hp : IsExpr e p)
    (hwf : ∀ l ∈ e.leaves, l.WellFormed t) : caseValue env p = none := by
  rw [Option.eq_none_iff_forall_ne_some]
  intro x h
  obtain ⟨branch, hbranch, h⟩ := Option.bind_eq_some_iff.mp h
  obtain rfl := caseWhenThen_expr hp hwf hbranch
  obtain ⟨j, hj, h⟩ := Option.bind_eq_some_iff.mp h
  obtain ⟨value, hvalue, -⟩ := Option.bind_eq_some_iff.mp h
  obtain ⟨hpos, helse⟩ := caseOffsets_else hj
  have hlength : p.value.length = e.tokens.length := by rw [hp.value, List.length_map]
  rw [hlength, postfixValue_tokens hp (Nat.sub_le _ _)] at hvalue
  obtain ⟨st, hrun, hhead⟩ := Option.bind_eq_some_iff.mp hvalue
  have hread : e.tokens[j]?.map (fun tok => (intToken tok).1) = some "ELSE" := by
    rw [← helse, hp.value, List.getElem?_map]
  obtain ⟨tok, htok, hword⟩ := Option.map_eq_some_iff.mp hread
  have hleaf : tok.isOp = false := by
    cases tok with
    | leaf l => rfl
    | op o => cases o <;> simp [intToken, IntOp.text] at hword
  have hheight := height_run_le List.length intCost (fun _ => Nat.le_refl _)
    (fun tok hin st st' hstep => (intStep_spec (t := t) (fun l hl => hwf l
      (Expr.leaf_mem_tokens.mp
        (hl ▸ List.mem_of_mem_drop (List.mem_of_mem_take hin)))) hstep).1) hrun
  have hempty : st = [] := by
    have hlt := (List.getElem?_eq_some_iff.mp htok).1
    by_cases hend : j + 1 = e.tokens.length
    · -- the `ELSE` is the last word
      simpa [hend] using hrun.symm
    · obtain ⟨middle, last, hrest⟩ : ∃ middle last, e.tokens.drop (j + 1) = middle ++ [last] := by
        refine ⟨_, _, (List.dropLast_append_getLast ?_).symm⟩
        simp
        omega
      have hmiddle : (e.tokens.drop (j + 1)).take (e.tokens.length - 1 - (j + 1)) = middle := by
        have hlen := congrArg List.length hrest
        simp only [List.length_drop, List.length_append, List.length_singleton] at hlen
        rw [hrest, List.take_left' (by omega)]
      have hsplit : e.tokens = e.tokens.take j ++ tok :: (middle ++ [last]) := by
        obtain ⟨_, rfl⟩ := List.getElem?_eq_some_iff.mp htok
        rw [← hrest, ← List.drop_eq_getElem_cons hlt, List.take_append_drop]
      have hne : e.tokens.take j ≠ [] := by
        rw [ne_eq, List.take_eq_nil_iff]
        rintro (rfl | hnil)
        · omega
        · simp [hnil] at hlt
      have hbetween := Expr.length_le_of_between hsplit hne hleaf
      rw [hmiddle] at hheight
      simp only [List.length_nil, Nat.zero_add] at hheight
      exact List.length_eq_zero_iff.mp (by omega)
  rw [hempty] at hhead
  cases hhead

/-! ## What `Projection` gives -/

/-- **An expression that is not read** has no INT value. -/
theorem projection_unread {e : Expr IntLeaf IntOp} {p : Projection} (hp : IsExpr e p)
    (hwf : ∀ l ∈ e.leaves, l.WellFormed t) (hread : ¬ ReadableExpr e) {x : T}
    (h : projectionValue env p = some x) : x.type ≠ .int := by
  obtain ⟨word, hword, h⟩ := Option.bind_eq_some_iff.mp h
  split_ifs at h with hcase hsubstring hextract
  · rw [caseValue_expr hp hwf] at h
    cases h
  · rw [substringValue_type h]
    decide
  · rw [extractValue_type h]
    decide
  · -- some literal is not read, so an operand is missing in the end
    have hkeyword : word ∉ keywords := by
      simp [keywords, hcase, hsubstring, hextract]
    have hleaf : ∃ l ∈ e.leaves, ¬ l.Readable := by
      by_contra hall
      refine hread ⟨fun l hl => by_contra fun hl' => hall ⟨l, hl, hl'⟩, fun w hw => ?_⟩
      rw [List.head?_eq_getElem?, ← hp.value] at hw
      exact Option.some.inj (hword.symm.trans hw) ▸ hkeyword
    obtain ⟨l, hl, hunread⟩ := hleaf
    have hlength : p.value.length = e.tokens.length := by rw [hp.value, List.length_map]
    rw [hlength, postfixValue_tokens hp (Nat.le_refl _)] at h
    obtain ⟨st, hrun, hhead⟩ := Option.bind_eq_some_iff.mp h
    rw [List.drop_zero, Nat.sub_zero, List.take_length] at hrun
    rcases intStep_unreadable (hwf l hl) hunread with hcost | hnone
    · have hheight := height_tokens_le List.length intCost (fun _ => Nat.le_refl _)
        (fun tok hin st st' hstep => (intStep_spec (t := t)
          (fun l hl => hwf l (Expr.leaf_mem_tokens.mp (hl ▸ hin))) hstep).1) hl hrun
      rw [hcost, List.length_nil, Nat.add_le_add_iff_right, Nat.le_zero,
        List.length_eq_zero_iff] at hheight
      rw [hheight] at hhead
      cases hhead
    · rw [Loops.foldlM_eq_none (Expr.leaf_mem_tokens.mpr hl) hnone] at hrun
      cases hrun

end

/-! ## Groups of equal values -/

/-- The values of a row in the group columns, strings without their padding. -/
def groupValues (t : ColMap) (groups : List String) (r : Nat) : List (Option Value) :=
  groups.map fun name => ((t.get name).value? r).map trimValue

/-- The groups of a query: the rows with equal values in the group columns, in
the order of their first rows. -/
def valueParts (t : TableData) (groups : List String) (n : Nat) : List (List Nat) :=
  (Groups.keysOf (groupValues t.tableData groups) (List.range n)).map
    (Groups.group (groupValues t.tableData groups) (List.range n))

/-- Rows with the same texts, cut at every `|`, have equal values in the group
columns. -/
def KeysFaithful (t : TableData) (groups : List String) (n : Nat) : Prop :=
  ∀ r < n, ∀ r' < n,
    cutTexts (trimmed t groups) groups r = cutTexts (trimmed t groups) groups r' →
      EqualTrimmed t.tableData groups r r'

/-- The key of these values. -/
def keyOfValues (values : List (Option Value)) : String :=
  String.ofList (Separated.joined '|' (values.map fun v => (v.map fun v => v.text.toList).getD []))

theorem groupValues_eq_iff {t : ColMap} {groups : List String} {r r' : Nat} :
    groupValues t groups r = groupValues t groups r' ↔ EqualTrimmed t groups r r' :=
  List.map_inj_left

section
variable {t : TableData} {n : Nat} {groups : List String}

/-- **A key is a text of the values.** -/
theorem groupKey_eq (hw : t.WellFormed n) (hgroups : ∀ name ∈ groups, name ∈ t.tableData) {r : Nat}
    (hr : r < n) : groupKey t groups r = keyOfValues (groupValues t.tableData groups r) := by
  have htexts : groups.map (textAt (trimmed t groups) r) =
      (groupValues t.tableData groups r).map fun v => (v.map fun v => v.text.toList).getD [] := by
    rw [groupValues, List.map_map]
    refine List.map_congr_left fun name hname => ?_
    obtain ⟨v, hv⟩ := ColData.value?_isSome (hw.column name (hgroups name hname)) hr
    rw [textAt_trimmed hw hname (hgroups name hname) hr hv, Function.comp_apply, hv]
    rfl
  rw [groupKey, keyOfValues, htexts]

/-- Where the keys tell the values, a group of a query is the rows with one
key. -/
theorem valueParts_eq (hw : t.WellFormed n) (hgroups : ∀ name ∈ groups, name ∈ t.tableData)
    (hkeys : KeysFaithful t groups n) : valueParts t groups n = keyParts t groups n := by
  refine (Groups.map_group_eq (f := keyOfValues) (fun r hr => ?_) fun r hr r' hr' he => ?_).symm
  · exact groupKey_eq hw hgroups (List.mem_range.mp hr)
  · exact groupValues_eq_iff.mpr (hkeys r (List.mem_range.mp hr) r' (List.mem_range.mp hr')
      (groupKey_eq_iff.mp he))

/-- As many keys as groups tell the values. -/
theorem keysFaithful_of_length (hw : t.WellFormed n) (hgroups : ∀ name ∈ groups, name ∈ t.tableData)
    (hlength : (keyParts t groups n).length = (valueParts t groups n).length) :
    KeysFaithful t groups n := by
  intro r hr r' hr' he
  rw [keyParts, valueParts, List.length_map, List.length_map] at hlength
  exact groupValues_eq_iff.mp (Groups.key_eq_of_length_eq
    (fun a ha => groupKey_eq hw hgroups (List.mem_range.mp ha)) hlength (List.mem_range.mpr hr)
    (List.mem_range.mpr hr') (groupKey_eq_iff.mpr he))

/-! ## What a result tells of its projections -/

/-- Without a projection no row is counted. -/
theorem rowCount_of_nil {columnAlias : List String} {tables : List TableData}
    (htables : ∀ g ∈ tables, g.rowCount ≠ 0) {d d' : TableData}
    (h : tables.foldlM (fun result g => aggregation true g [] columnAlias result) d = some d') :
    d'.rowCount = d.rowCount := by
  induction tables generalizing d with
  | nil =>
    cases h
    rfl
  | cons g tables ih =>
    rw [List.foldlM_cons, aggregation_eq (htables g (by simp)) (List.mapM_nil) (Nat.zero_le _)] at h
    have hrest := ih (fun g' hg' => htables g' (by simp [hg'])) h
    simpa [resultRowNum] using hrest

/-- A projection that adds no INT leaves none in its result column. -/
theorem intvec_of_projection {projections : List Projection} {columnAlias : List String}
    (hnodup : columnAlias.Nodup) {i : Nat} {p : Projection} {name : String}
    (hp : projections[i]? = some p) (hname : columnAlias[i]? = some name) {tables : List TableData}
    (htables : ∀ g ∈ tables, g.rowCount ≠ 0 ∧
      ∀ c, projectionColumn true g p = some c → c.intvec = []) {d d' : TableData}
    (hd : (d.tableData.get name).intvec = [])
    (h : tables.foldlM (fun result g => aggregation true g projections columnAlias result) d =
      some d') : (d'.tableData.get name).intvec = [] := by
  induction tables generalizing d with
  | nil =>
    cases h
    exact hd
  | cons g tables ih =>
    rw [List.foldlM_cons] at h
    obtain ⟨mid, hmid, hrest⟩ := Option.bind_eq_some_iff.mp h
    obtain ⟨hrows, hcolumn⟩ := htables g (by simp)
    obtain ⟨columns, hcolumns, halias⟩ := columns_of_aggregation hrows hmid
    rw [aggregation_eq hrows hcolumns halias] at hmid
    obtain rfl := Option.some.inj hmid
    refine ih (fun g' hg' => htables g' (by simp [hg'])) ?_ hrest
    have hi : i < columns.length := by
      rw [Loops.length_of_mapM hcolumns]
      exact (List.getElem?_eq_some_iff.mp hp).1
    have hci : columns[i]? = some columns[i] := List.getElem?_eq_getElem hi
    have hrun := (Loops.getElem?_of_mapM hcolumns hp).trans hci
    rw [get_appended hnodup d.tableData hname hci, (vectors_appendColumn _ _).2.1, hd,
      hcolumn _ hrun, ite_self]
    rfl

/-- A sum that is not read adds no INT. -/
theorem sumColumn_unread {ts : List T} (h : ∀ x ∈ ts, x.type ≠ .int) :
    (sumColumn ts).intvec = [] := by
  have hlast : (ts.getLast?.getD {}).type ≠ .int := by
    cases hts : ts.getLast? with
    | none => simp
    | some x => exact h x (List.mem_of_getLast? hts)
  unfold sumColumn
  split
  · contradiction
  · rfl
  · rfl

theorem valueParts_ne_nil (hn : 0 < n) : valueParts t groups n ≠ [] := by
  have hzero : groupValues t.tableData groups 0 ∈
      Groups.keysOf (groupValues t.tableData groups) (List.range n) :=
    (Groups.mem_keysOf _).mpr ⟨0, List.mem_range.mpr hn, rfl⟩
  simpa [valueParts] using List.ne_nil_of_mem hzero

/-- The tables the grouping path goes through, one at least and none without
rows. -/
theorem tables_of_columnProjection (hw : t.WellFormed n) (hn : 0 < n) (hne : groups ≠ [])
    (hgroups : ∀ name ∈ groups, name ∈ t.tableData) {projections : List Projection}
    {columnAlias : List String} {d : TableData}
    (hrun : columnProjection t groups projections columnAlias = some d) :
    ∃ tables : List TableData, tables ≠ [] ∧ (∀ g ∈ tables, g.rowCount ≠ 0) ∧
      tables.foldlM (fun result g => aggregation true g projections columnAlias result) {} =
        some d := by
  obtain ⟨tables, hgroupBy, htables⟩ := groupBy_spec hw hn hgroups
  rw [columnProjection, if_neg hne, hgroupBy] at hrun
  refine ⟨tables, fun hnil => ?_, fun g hg => ?_, hrun⟩
  · rw [hnil, List.forall₂_nil_right_iff] at htables
    exact groupKeys_ne_nil hn htables
  · obtain ⟨k, hk, rfl⟩ := List.getElem_of_mem hg
    have hk' : k < (groupKeys t groups n).length := htables.length_eq.symm ▸ hk
    have htable := (List.forall₂_iff_get.mp htables).2 k hk' hk
    have hsome := (groupRows_of_mem (List.get_mem (groupKeys t groups n) ⟨k, hk'⟩)).1
    have hcount : tables[k].rowCount = _ := htable.count
    rw [hcount]
    simpa using hsome

/-- **A result has every item read.** -/
theorem readable_of_result (hw : t.WellFormed n) (hn : 0 < n) (hne : groups ≠ [])
    (hgroups : ∀ name ∈ groups, name ∈ t.tableData) {items : List Item}
    {projections : List Projection} {columnAlias : List String}
    (hitems : List.Forall₂ (Item.Describes t groups) items projections)
    (hnodup : columnAlias.Nodup) (halias : projections.length ≤ columnAlias.length)
    {parts : List (List Nat)} (hparts : parts ≠ []) {d : TableData}
    (hrun : columnProjection t groups projections columnAlias = some d)
    (hd : GroupedResult t groups parts items projections columnAlias d) :
    ∀ item ∈ items, item.Readable := by
  obtain ⟨tables, hsome, hrows, hrun⟩ := tables_of_columnProjection hw hn hne hgroups hrun
  intro item hitem
  obtain ⟨i, hi, rfl⟩ := List.getElem_of_mem hitem
  have hi' : i < projections.length := hitems.length_eq ▸ hi
  have hdescribes := (List.forall₂_iff_get.mp hitems).2 i hi hi'
  simp only [List.get_eq_getElem] at hdescribes
  have hp : projections[i]? = some projections[i] := List.getElem?_eq_getElem hi'
  have hname : columnAlias[i]? = some columnAlias[i] := List.getElem?_eq_getElem (by omega)
  cases hitemAt : items[i] with
  | count name | countStar => trivial
  | groupColumn name =>
    -- the first group has a column for it
    rw [hitemAt] at hdescribes
    intro hword
    obtain ⟨g, rest, rfl⟩ := List.exists_cons_of_ne_nil hsome
    rw [List.foldlM_cons] at hrun
    obtain ⟨mid, hmid, -⟩ := Option.bind_eq_some_iff.mp hrun
    obtain ⟨columns, hcolumns, -⟩ := columns_of_aggregation (hrows g (by simp)) hmid
    have hone := Loops.getElem?_of_mapM hcolumns hp
    obtain ⟨hselect, -, hvalue, -⟩ := hdescribes
    have hlength := Loops.length_of_mapM hcolumns
    simp [projectionColumn, hselect, projection_keyword hvalue hword, hlength, hi'] at hone
  | sum e =>
    rw [hitemAt] at hdescribes
    obtain ⟨hselect, hexpr, hwf⟩ := hdescribes
    by_contra hread
    -- no group adds an INT, but the result has one
    have hnone : (d.tableData.get columnAlias[i]).intvec = [] := by
      refine intvec_of_projection hnodup hp hname (fun g hg => ⟨hrows g hg, fun c hc => ?_⟩)
        (by rw [ColMap.get_of_notMem (by simp)]) hrun
      simp only [projectionColumn, hselect] at hc
      obtain ⟨ts, hts, rfl⟩ := Option.map_eq_some_iff.mp hc
      refine sumColumn_unread fun x hx => ?_
      obtain ⟨k, -, hk⟩ := Loops.exists_of_mapM hts hx
      exact projection_unread hexpr hwf hread hk
    obtain ⟨rows, rest, rfl⟩ := List.exists_cons_of_ne_nil hparts
    have hcell := (hd.column i _ _ (List.getElem?_eq_getElem hi) hname).2 0 rows rfl
    have hvalue := ColData.value?_of_cell? hcell
    rw [hitemAt] at hvalue
    unfold ColData.value? at hvalue
    split at hvalue <;> simp [Item.value, hnone] at hvalue

end

/-! ## Sales by region -/

def salesTable (regions stores : List String) (units : List Int) : TableData where
  tableData := ((∅ : ColMap).insert "region"
    { type := .string, strvec := regions, isnull := units.map fun _ => false,
      rowCount := units.length }).insert "store"
    { type := .string, strvec := stores, isnull := units.map fun _ => false,
      rowCount := units.length } |>.insert "units"
    { type := .int, intvec := units, isnull := units.map fun _ => false,
      rowCount := units.length }
  rowCount := units.length

theorem mem_salesTable {regions stores : List String} {units : List Int} {name : String} :
    name ∈ (salesTable regions stores units).tableData ↔
      name = "units" ∨ name = "store" ∨ name = "region" := by
  simp [salesTable, -AList.insert_empty]

theorem salesTable_wellFormed {regions stores : List String} {units : List Int}
    (hregions : regions.length = units.length) (hstores : stores.length = units.length) :
    (salesTable regions stores units).WellFormed units.length := by
  constructor
  case count => rfl
  case column =>
    intro name hname
    rcases mem_salesTable.mp hname with rfl | rfl | rfl
    · exact ⟨rfl, List.length_map _, rfl⟩
    · exact ⟨hstores, List.length_map _, rfl⟩
    · exact ⟨hregions, List.length_map _, rfl⟩
  case stored =>
    intro name hname
    rcases mem_salesTable.mp hname with rfl | rfl | rfl
    · exact .inr (.inl rfl)
    · exact .inl rfl
    · exact .inl rfl

/-- Two regions, one of them written with a blank. -/
def regionSales : TableData := salesTable ["east ", "west", "east"] ["s1", "s1", "s2"] [1, 2, 3]

/-- `units * (units - 2)`. -/
def unitsExpr : Expr IntLeaf IntOp :=
  .node .times (.leaf (.column "units"))
    (.node .minus (.leaf (.column "units")) (.leaf (.literal .int64 "2")))

def salesItems : List Item := [.groupColumn "region", .sum unitsExpr, .count "units", .countStar]

def salesProjections : List Projection :=
  [{ selectType := .columnName, value := ["region"], valueType := [.column] },
    { selectType := .sum, value := ["units", "units", "2", "-", "*"],
      valueType := [.column, .column, .int64, .operator, .operator] },
    { selectType := .count, value := ["units"], valueType := [.column] },
    { selectType := .countStar, value := ["*"], valueType := [.string] }]

theorem salesItems_describe :
    List.Forall₂ (Item.Describes regionSales ["region"]) salesItems salesProjections := by
  refine .cons ⟨rfl, by simp, rfl, rfl⟩ (.cons ⟨rfl, ⟨rfl, rfl⟩, fun l hl => ?_⟩
    (.cons ⟨rfl, rfl⟩ (.cons rfl .nil)))
  simp only [unitsExpr, Expr.leaves, List.cons_append, List.nil_append, List.mem_cons,
    List.not_mem_nil, or_false] at hl
  rcases hl with rfl | rfl | rfl
  · exact ⟨mem_salesTable.mpr (.inl rfl), rfl⟩
  · exact ⟨mem_salesTable.mpr (.inl rfl), rfl⟩
  · exact ⟨by decide, rfl⟩

theorem salesItems_readable : ∀ item ∈ salesItems, item.Readable := by
  simp only [salesItems, List.forall_mem_cons, List.not_mem_nil, false_imp_iff, implies_true,
    and_true, Item.Readable]
  refine ⟨by decide, ⟨fun l hl => ?_, fun word hword => ?_⟩⟩
  · simp only [unitsExpr, Expr.leaves, List.cons_append, List.nil_append, List.mem_cons,
      List.not_mem_nil, or_false] at hl
    rcases hl with rfl | rfl | rfl
    · trivial
    · trivial
    · decide
  · obtain rfl : word = "units" := (Option.some.inj hword).symm
    decide

end KetiEngine.Merging
