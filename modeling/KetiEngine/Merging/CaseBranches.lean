import KetiEngine.Lib.Connectives
import KetiEngine.Merging.Projection

/-!
# CaseBranches — which branch `CASE` takes

A `CASE` projection as a tree of branches, each with a chain of atomic
conditions, and its list of words. The branch that `Projection` takes is the
first whose condition is noticed from left to right; that is the first whose
condition holds unless a false condition before an AND ends the evaluation
with a true group still to come.
-/

namespace KetiEngine.Merging

open KetiEngine Connectives

/-! ## `CASE` as a tree -/

/-- An entry of `value` with its `value_type`. -/
abbrev Word := String × ValueType

structure CaseBranch where
  condition : Chain (List Word)
  result : List Word

/-- `keyword` is the type the keywords are sent with. -/
structure CaseExpr where
  keyword : ValueType
  branches : List CaseBranch
  otherwise : List Word

def connectiveText : Connective → String
  | .and => "AND"
  | .or => "OR"

def conditionWords (keyword : ValueType) (a : List Word) :
    List (Connective × List Word) → List Word
  | [] => a
  | (conn, b) :: rest => a ++ (connectiveText conn, keyword) :: conditionWords keyword b rest

def CaseBranch.words (keyword : ValueType) (b : CaseBranch) : List Word :=
  ("WHEN", keyword) :: (conditionWords keyword b.condition.first b.condition.rest ++
    ("THEN", keyword) :: b.result)

def branchWords (keyword : ValueType) (branches : List CaseBranch) : List Word :=
  branches.flatMap (CaseBranch.words keyword)

def CaseExpr.words (c : CaseExpr) : List Word :=
  ("CASE", c.keyword) :: (branchWords c.keyword c.branches ++
    ("ELSE", c.keyword) :: (c.otherwise ++ [("END", c.keyword)]))

/-- The projection with these words. -/
def wordsProjection (selectType : SelectType) (words : List Word) : Projection where
  selectType := selectType
  value := words.map Prod.fst
  valueType := words.map Prod.snd

/-- The words `CASE` looks for. -/
def caseKeywords : List String := ["WHEN", "THEN", "ELSE", "END", "AND", "OR"]

/-- No literal and no column is called as a keyword. -/
def Plain (words : List Word) : Prop := ∀ w ∈ words, w.1 ∉ caseKeywords

instance (words : List Word) : Decidable (Plain words) := by
  unfold Plain; infer_instance

structure CaseBranch.Plain (b : CaseBranch) : Prop where
  atoms : ∀ atom ∈ b.condition.atoms, Merging.Plain atom
  result : Merging.Plain b.result

structure CaseExpr.Plain (c : CaseExpr) : Prop where
  branches : ∀ b ∈ c.branches, b.Plain
  otherwise : Merging.Plain c.otherwise

/-- `Postfix` on a part of a projection. -/
def postfixOf (env : RowEnv) (words : List Word) : Option T :=
  (words.foldlM (fun operStack w => postfixStep env operStack w.1 w.2) []).bind List.head?

/-- The boolean `Postfix` gives an atomic condition. -/
def truth (env : RowEnv) (atom : List Word) : Bool :=
  ((postfixOf env atom).map T.boolean).getD false

/-- The expression of the first branch whose condition has `q`, or that of
`ELSE`. -/
def CaseExpr.select (q : Chain (List Word) → Bool) (c : CaseExpr) : List Word :=
  ((c.branches.find? fun b => q b.condition).map CaseBranch.result).getD c.otherwise

/-! ## Positions -/

section
variable (env : RowEnv) (selectType : SelectType) (keyword : ValueType)

/-- The loop of `Postfix` over a part of a projection sees the words of that
part only. -/
theorem postfixLoop_segment (before words after : List Word) (operStack : List T) :
    postfixLoop env (wordsProjection selectType (before ++ words ++ after)) before.length
        (before.length + words.length) operStack =
      words.foldlM (fun operStack w => postfixStep env operStack w.1 w.2) operStack := by
  have hloop := Loops.foldlM_segment (postfixStep env) Prod.fst Prod.snd before words after
    operStack
  unfold postfixLoop
  rw [Nat.add_sub_cancel_left]
  exact hloop

theorem postfixValue_segment (before words after : List Word) :
    postfixValue env (wordsProjection selectType (before ++ words ++ after)) before.length
      (before.length + words.length) = postfixOf env words := by
  rw [postfixValue_eq, postfixLoop_segment]
  rfl

/-! ## The scan of a condition -/

/-- `passed` after the loop over the condition of a `WHEN`. -/
def pairPassed (env : RowEnv) (p : Projection) (pair : Option Nat × Nat) : Option Bool :=
  pair.1.bind fun whenOffset =>
    casePassed env p (whenOffset + 1) (List.range' (whenOffset + 1) (pair.2 - whenOffset))

/-- The scan by words instead of offsets; `part` has the words since the last
connective. -/
def scanWords (env : RowEnv) : List Word → List Word → Option Bool
  | _, [] => some false
  | part, w :: words =>
      if w.1 = "AND" then
        (postfixOf env part).bind fun t => if t.boolean then scanWords env [] words else some false
      else if w.1 = "OR" then
        (postfixOf env part).bind fun t => if t.boolean then some true else scanWords env [] words
      else if w.1 = "THEN" then
        (postfixOf env part).bind fun t =>
          if t.boolean then some true else scanWords env (part ++ [w]) words
      else scanWords env (part ++ [w]) words

theorem casePassed_words (before part words after : List Word) :
    casePassed env (wordsProjection selectType (before ++ part ++ words ++ after)) before.length
      (List.range' (before ++ part).length words.length) = scanWords env part words := by
  induction words generalizing before part with
  | nil => rfl
  | cons w words ih =>
    have hread : (wordsProjection selectType
        (before ++ part ++ w :: words ++ after)).value[(before ++ part).length]? = some w.1 := by
      simp [wordsProjection]
    have hvalue := postfixValue_segment env selectType before part (w :: words ++ after)
    have hnext := ih (before ++ part ++ [w]) []
    have hsame := ih before (part ++ [w])
    simp only [List.append_assoc, List.cons_append, List.nil_append, List.append_nil,
      List.length_append, List.length_cons, List.length_nil, Nat.zero_add]
      at hread hvalue hnext hsame ⊢
    rw [List.range'_succ, casePassed, hread]
    rw [← Nat.add_assoc] at hnext hsame
    simp only [Option.bind_eq_bind, Option.bind_some, hvalue, hnext, hsame, Option.pure_def,
      scanWords]

/-- The condition between a `WHEN` and a `THEN`. -/
theorem pairPassed_words (before : List Word) (w : Word) (words after : List Word) :
    pairPassed env (wordsProjection selectType (before ++ w :: words ++ after))
      (some before.length, before.length + words.length) = scanWords env [] words := by
  have hscan := casePassed_words env selectType (before ++ [w]) [] words after
  unfold pairPassed
  rw [Option.bind_some, Nat.add_sub_cancel_left]
  simpa using hscan

/-- The scan passes over words that are no keywords. -/
theorem scanWords_skip {words : List Word} (hplain : Plain words) (part rest : List Word) :
    scanWords env part (words ++ rest) = scanWords env (part ++ words) rest := by
  induction words generalizing part with
  | nil => simp
  | cons w words ih =>
    have hw : w.1 ∉ caseKeywords := hplain w (by simp)
    simp only [caseKeywords, List.mem_cons, List.not_mem_nil, or_false, not_or] at hw
    rw [List.cons_append, scanWords, if_neg hw.2.2.2.2.1, if_neg hw.2.2.2.2.2, if_neg hw.2.1,
      ih fun v hv => hplain v (by simp [hv])]
    simp

/-- **The scan of a condition** is its evaluation from left to right. -/
theorem scanWords_condition (a : List Word) (rest : List (Connective × List Word))
    (hplain : ∀ atom ∈ atomsFrom a rest, Plain atom)
    (hatoms : ∀ atom ∈ atomsFrom a rest, (postfixOf env atom).isSome) :
    scanWords env [] (conditionWords keyword a rest ++ [("THEN", keyword)]) =
      some (leftToRight (truth env) a rest) := by
  induction rest generalizing a with
  | nil =>
    obtain ⟨t, ht⟩ := Option.isSome_iff_exists.mp (hatoms a (by simp [atomsFrom]))
    have htruth : truth env a = t.boolean := by simp [truth, ht]
    rw [conditionWords, scanWords_skip env (hplain a (by simp [atomsFrom])), List.nil_append]
    cases hboolean : t.boolean <;> simp [scanWords, ht, hboolean, leftToRight, htruth]
  | cons e rest ih =>
    obtain ⟨conn, b⟩ := e
    obtain ⟨t, ht⟩ := Option.isSome_iff_exists.mp (hatoms a (by simp [atomsFrom]))
    have htruth : truth env a = t.boolean := by simp [truth, ht]
    have hrest := ih b (fun atom hmem => hplain atom (by simp_all [atomsFrom]))
      (fun atom hmem => hatoms atom (by simp_all [atomsFrom]))
    rw [conditionWords, List.append_assoc, scanWords_skip env (hplain a (by simp [atomsFrom])),
      List.nil_append, List.cons_append]
    cases conn <;> cases hboolean : t.boolean <;>
      simp [scanWords, connectiveText, ht, hboolean, hrest, leftToRight, htruth]

/-! ## The offsets -/

/-- One position of the first loop. -/
def offsetStep (st : CaseOffsets) (e : String × Nat) : CaseOffsets :=
  if e.1 = "WHEN" then { st with whenOffset := some e.2 }
  else if e.1 = "THEN" then
    { st with whenThenOffset := st.whenThenOffset ++ [(st.whenOffset, e.2)] }
  else if e.1 = "ELSE" then { st with elseOffset := some e.2 }
  else st

theorem offsetStep_whenOffset (st : CaseOffsets) (value : String) (k : Nat) :
    (offsetStep st (value, k)).whenOffset =
      if value = "WHEN" then some k else st.whenOffset := by
  unfold offsetStep
  split_ifs <;> simp_all

theorem offsetStep_whenThenOffset (st : CaseOffsets) (value : String) (k : Nat) :
    (offsetStep st (value, k)).whenThenOffset =
      st.whenThenOffset ++ if value = "THEN" then [(st.whenOffset, k)] else [] := by
  unfold offsetStep
  split_ifs <;> simp_all

/-- The first loop on words that begin at position `k`. -/
def offsetsFrom (k : Nat) (words : List Word) (st : CaseOffsets) : CaseOffsets :=
  ((words.map Prod.fst).zipIdx k).foldl offsetStep st

theorem offsetsFrom_append (k : Nat) (ws vs : List Word) (st : CaseOffsets) :
    offsetsFrom k (ws ++ vs) st = offsetsFrom (k + ws.length) vs (offsetsFrom k ws st) := by
  simp [offsetsFrom, List.zipIdx_append]

theorem offsetsFrom_cons (k : Nat) (w : Word) (ws : List Word) (st : CaseOffsets) :
    offsetsFrom k (w :: ws) st = offsetsFrom (k + 1) ws (offsetStep st (w.1, k)) := rfl

theorem offsetsFrom_skip {ws : List Word}
    (h : ∀ w ∈ ws, w.1 ≠ "WHEN" ∧ w.1 ≠ "THEN" ∧ w.1 ≠ "ELSE") (k : Nat) (st : CaseOffsets) :
    offsetsFrom k ws st = st := by
  induction ws generalizing k with
  | nil => rfl
  | cons w ws ih =>
    obtain ⟨hwhen, hthen, helse⟩ := h w (by simp)
    have hstep : offsetStep st (w.1, k) = st := by simp [offsetStep, hwhen, hthen, helse]
    rw [offsetsFrom_cons, hstep, ih fun v hv => h v (by simp [hv])]

theorem plain_words {ws : List Word} (h : Plain ws) :
    ∀ w ∈ ws, w.1 ≠ "WHEN" ∧ w.1 ≠ "THEN" ∧ w.1 ≠ "ELSE" := by
  intro w hw
  have hkeyword := h w hw
  simp only [caseKeywords, List.mem_cons, List.not_mem_nil, or_false, not_or] at hkeyword
  exact ⟨hkeyword.1, hkeyword.2.1, hkeyword.2.2.1⟩

theorem condition_words (a : List Word) (rest : List (Connective × List Word))
    (hplain : ∀ atom ∈ atomsFrom a rest, Plain atom) :
    ∀ w ∈ conditionWords keyword a rest, w.1 ≠ "WHEN" ∧ w.1 ≠ "THEN" ∧ w.1 ≠ "ELSE" := by
  induction rest generalizing a with
  | nil => exact plain_words (hplain a (by simp [atomsFrom]))
  | cons e rest ih =>
    obtain ⟨conn, b⟩ := e
    intro w hw
    rcases List.mem_append.mp hw with hw | hw
    · exact plain_words (hplain a (by simp [atomsFrom])) w hw
    rcases List.mem_cons.mp hw with rfl | hw
    · cases conn <;> simp [connectiveText]
    · exact ih b (fun atom hmem => hplain atom (by simp_all [atomsFrom])) w hw

/-- The offsets of `WHEN` and `THEN` of a branch at position `k`. -/
def CaseBranch.offsets (k : Nat) (b : CaseBranch) : Option Nat × Nat :=
  (some k, k + 1 + (conditionWords keyword b.condition.first b.condition.rest).length)

def branchOffsets (k : Nat) : List CaseBranch → List (Option Nat × Nat)
  | [] => []
  | b :: branches =>
      b.offsets keyword k :: branchOffsets (k + (b.words keyword).length) branches

theorem offsetsFrom_branch {b : CaseBranch} (hplain : b.Plain) (k : Nat) (st : CaseOffsets) :
    offsetsFrom k (b.words keyword) st = { st with
      whenOffset := some k
      whenThenOffset := st.whenThenOffset ++ [b.offsets keyword k] } := by
  have hcondition := condition_words keyword b.condition.first b.condition.rest hplain.atoms
  unfold CaseBranch.words
  rw [offsetsFrom_cons, offsetsFrom_append, offsetsFrom_skip hcondition, offsetsFrom_cons,
    offsetsFrom_skip (plain_words hplain.result)]
  simp [offsetStep, CaseBranch.offsets]

theorem offsetsFrom_branches {branches : List CaseBranch} (hplain : ∀ b ∈ branches, b.Plain)
    (k : Nat) (st : CaseOffsets) :
    (offsetsFrom k (branchWords keyword branches) st).whenThenOffset =
      st.whenThenOffset ++ branchOffsets keyword k branches := by
  induction branches generalizing k st with
  | nil => simp [branchWords, offsetsFrom, branchOffsets]
  | cons b branches ih =>
    have hrest := ih fun c hc => hplain c (by simp [hc])
    unfold branchWords at hrest ⊢
    rw [List.flatMap_cons, offsetsFrom_append, hrest,
      offsetsFrom_branch keyword (hplain b (by simp)), branchOffsets, List.append_assoc,
      List.singleton_append]

/-- **The first loop** finds every `WHEN`, `THEN` and the `ELSE`. -/
theorem caseOffsets_words {c : CaseExpr} (hplain : c.Plain) :
    (caseOffsets (wordsProjection selectType c.words).value).whenThenOffset =
      branchOffsets c.keyword 1 c.branches ∧
    (caseOffsets (wordsProjection selectType c.words).value).elseOffset =
      some (1 + (branchWords c.keyword c.branches).length) := by
  have hloop : caseOffsets (wordsProjection selectType c.words).value =
      offsetsFrom 1 (branchWords c.keyword c.branches ++
        ("ELSE", c.keyword) :: (c.otherwise ++ [("END", c.keyword)])) {} := rfl
  have hend : ∀ w ∈ c.otherwise ++ [("END", c.keyword)],
      w.1 ≠ "WHEN" ∧ w.1 ≠ "THEN" ∧ w.1 ≠ "ELSE" := by
    intro w hw
    rcases List.mem_append.mp hw with hw | hw
    · exact plain_words hplain.otherwise w hw
    · obtain rfl := List.mem_singleton.mp hw
      simp
  rw [hloop, offsetsFrom_append, offsetsFrom_cons, offsetsFrom_skip hend]
  refine ⟨?_, rfl⟩
  have hbranches := offsetsFrom_branches c.keyword hplain.branches 1 {}
  simpa [offsetStep] using hbranches

/-! ## The branches -/

/-- The condition of a branch. -/
theorem pairPassed_branch {b : CaseBranch} (hplain : b.Plain)
    (hatoms : ∀ atom ∈ b.condition.atoms, (postfixOf env atom).isSome) (before after : List Word) :
    pairPassed env (wordsProjection selectType (before ++ b.words keyword ++ after))
        (b.offsets keyword before.length) =
      some (leftToRight (truth env) b.condition.first b.condition.rest) := by
  have hscan := scanWords_condition env keyword b.condition.first b.condition.rest hplain.atoms
    hatoms
  have hpassed := pairPassed_words env selectType before ("WHEN", keyword)
    (conditionWords keyword b.condition.first b.condition.rest ++ [("THEN", keyword)])
    (b.result ++ after)
  rw [hscan] at hpassed
  rw [← hpassed]
  simp [CaseBranch.words, CaseBranch.offsets, Nat.add_assoc, Nat.add_comm 1]

theorem caseWhenThen_cons (env : RowEnv) (p : Projection) (pair : Option Nat × Nat)
    (pairs : List (Option Nat × Nat)) :
    caseWhenThen env p (pair :: pairs) = (pairPassed env p pair).bind fun passed =>
      if passed then (thenBranch env p pair.2).map some else caseWhenThen env p pairs := by
  obtain ⟨whenOffset, thenOffset⟩ := pair
  cases whenOffset <;> rfl

/-- The words after a `THEN`, up to the keyword that ends them. -/
theorem thenBranch_words {words : List Word} (hplain : Plain words) {stop : Word}
    (hstop : stop.1 = "WHEN" ∨ stop.1 = "ELSE" ∨ stop.1 = "END") (before after : List Word)
    (thenOffset : Nat) (hoffset : before.length = thenOffset + 1) :
    thenBranch env (wordsProjection selectType (before ++ words ++ stop :: after)) thenOffset =
      (postfixOf env words).map branchResult := by
  have hfind : ((words ++ stop :: after).map Prod.fst).findIdx? (fun value =>
      value = "WHEN" || value = "ELSE" || value = "END") = some words.length := by
    rw [List.findIdx?_eq_some_iff_getElem]
    refine ⟨by simp, by simpa [or_assoc] using hstop, fun i hi => ?_⟩
    have hword := hplain _ (List.getElem_mem hi)
    simp only [caseKeywords, List.mem_cons, List.not_mem_nil, or_false, not_or] at hword
    simp only [List.map_append, List.getElem_append_left (show i < (words.map Prod.fst).length by
      simpa using hi), List.getElem_map]
    simp [hword]
  have hdrop : (wordsProjection selectType
      (before ++ words ++ stop :: after)).value.drop (thenOffset + 1) =
        (words ++ stop :: after).map Prod.fst := by
    simp [wordsProjection, ← hoffset]
  unfold thenBranch
  rw [hdrop, hfind, Option.bind_eq_bind, Option.bind_some, ← hoffset, postfixValue_segment]
  cases postfixOf env words <;> rfl

/-- A branch ends at the next `WHEN` or at the `ELSE`. -/
theorem branchWords_stop (branches : List CaseBranch) (after : List Word) :
    ∃ stop rest, branchWords keyword branches ++ ("ELSE", keyword) :: after = stop :: rest ∧
      (stop.1 = "WHEN" ∨ stop.1 = "ELSE" ∨ stop.1 = "END") := by
  cases branches with
  | nil => exact ⟨("ELSE", keyword), after, rfl, .inr (.inl rfl)⟩
  | cons b branches => exact ⟨("WHEN", keyword), _, rfl, .inl rfl⟩

/-- The expression of a branch. -/
theorem thenBranch_branch {b : CaseBranch} (hplain : b.Plain) (before : List Word)
    (branches : List CaseBranch) (after : List Word) :
    thenBranch env (wordsProjection selectType (before ++ b.words keyword ++
        (branchWords keyword branches ++ ("ELSE", keyword) :: after)))
        (b.offsets keyword before.length).2 =
      (postfixOf env b.result).map branchResult := by
  obtain ⟨stop, rest, hstop, hword⟩ := branchWords_stop keyword branches after
  have hbranch := thenBranch_words env selectType hplain.result hword
    (before ++ ("WHEN", keyword) ::
      (conditionWords keyword b.condition.first b.condition.rest ++ [("THEN", keyword)])) rest
    (b.offsets keyword before.length).2 (by simp [CaseBranch.offsets]; omega)
  rw [hstop, ← hbranch]
  simp [CaseBranch.words]

/-- **The loop over the branches** takes the first whose condition is true from
left to right. -/
theorem caseWhenThen_branches {branches : List CaseBranch} (hplain : ∀ b ∈ branches, b.Plain)
    (hatoms : ∀ b ∈ branches, ∀ atom ∈ b.condition.atoms, (postfixOf env atom).isSome)
    (before after : List Word) :
    caseWhenThen env
        (wordsProjection selectType
          (before ++ branchWords keyword branches ++ ("ELSE", keyword) :: after))
        (branchOffsets keyword before.length branches) =
      match branches.find? fun b =>
          leftToRight (truth env) b.condition.first b.condition.rest with
      | none => some none
      | some b => (postfixOf env b.result).map fun t => some (branchResult t) := by
  induction branches generalizing before with
  | nil => rfl
  | cons b branches ih =>
    have hb := hplain b (by simp)
    have hrest := ih (fun c hc => hplain c (by simp [hc])) (fun c hc => hatoms c (by simp [hc]))
      (before ++ b.words keyword)
    have hpassed := pairPassed_branch env selectType keyword hb (hatoms b (by simp)) before
      (branchWords keyword branches ++ ("ELSE", keyword) :: after)
    have hthen := thenBranch_branch env selectType keyword hb before branches after
    have hwords : before ++ branchWords keyword (b :: branches) ++ ("ELSE", keyword) :: after =
        before ++ b.words keyword ++
          (branchWords keyword branches ++ ("ELSE", keyword) :: after) := by
      simp [branchWords]
    rw [List.append_assoc _ _ (_ :: _), List.length_append] at hrest
    rw [hwords, branchOffsets, caseWhenThen_cons, hpassed, hthen, hrest, List.find?_cons,
      Option.bind_some]
    cases leftToRight (truth env) b.condition.first b.condition.rest with
    | true => simp [Function.comp_def]
    | false => simp

/-- **`CASE`** is the expression of the first branch whose condition is true
from left to right, or that of `ELSE`. -/
theorem caseValue_words {c : CaseExpr} (hplain : c.Plain)
    (hatoms : ∀ b ∈ c.branches, ∀ atom ∈ b.condition.atoms, (postfixOf env atom).isSome) :
    caseValue env (wordsProjection selectType c.words) =
      (postfixOf env (c.select fun d => leftToRight (truth env) d.first d.rest)).map
        branchResult := by
  obtain ⟨hpairs, helse⟩ := caseOffsets_words selectType hplain
  have hloop := caseWhenThen_branches env selectType c.keyword hplain.branches hatoms
    [("CASE", c.keyword)] (c.otherwise ++ [("END", c.keyword)])
  have hwords : [("CASE", c.keyword)] ++ branchWords c.keyword c.branches ++
      ("ELSE", c.keyword) :: (c.otherwise ++ [("END", c.keyword)]) = c.words := by
    simp [CaseExpr.words]
  have hotherwise := postfixValue_segment env selectType
    (("CASE", c.keyword) :: (branchWords c.keyword c.branches ++ [("ELSE", c.keyword)]))
    c.otherwise [("END", c.keyword)]
  have hwords' : ("CASE", c.keyword) :: (branchWords c.keyword c.branches ++
      [("ELSE", c.keyword)]) ++ c.otherwise ++ [("END", c.keyword)] = c.words := by
    simp [CaseExpr.words]
  rw [hwords] at hloop
  rw [hwords'] at hotherwise
  unfold caseValue CaseExpr.select
  have hlength : (wordsProjection selectType c.words).value.length - 1 =
      (("CASE", c.keyword) :: (branchWords c.keyword c.branches ++
        [("ELSE", c.keyword)])).length + c.otherwise.length := by
    simp [wordsProjection, CaseExpr.words]
    omega
  simp only [hpairs, helse, List.length_singleton] at hloop ⊢
  rw [hloop, hlength]
  cases hfind : c.branches.find? (fun b =>
      leftToRight (truth env) b.condition.first b.condition.rest) with
  | some b => cases hresult : postfixOf env b.result <;> simp [hresult]
  | none =>
    have hstart : 1 + (branchWords c.keyword c.branches).length + 1 =
        (("CASE", c.keyword) :: (branchWords c.keyword c.branches ++
          [("ELSE", c.keyword)])).length := by
      simp
      omega
    simp only [Option.bind_eq_bind, Option.bind_some, Option.map_none, Option.getD_none, hstart,
      hotherwise]
    cases postfixOf env c.otherwise <;> rfl

end

/-! ## The value of a `CASE` projection -/

theorem projectionValue_case (env : RowEnv) (selectType : SelectType) (c : CaseExpr) :
    projectionValue env (wordsProjection selectType c.words) =
      caseValue env (wordsProjection selectType c.words) := by
  have hfirst : (wordsProjection selectType c.words).value[0]? = some "CASE" := rfl
  unfold projectionValue
  rw [hfirst, Option.bind_eq_bind, Option.bind_some, if_pos rfl]

@[simp] theorem branchResult_type (t : T) : (branchResult t).type = t.type := by
  unfold branchResult
  cases ht : t.type <;> rfl

/-- A branch keeps its value unless that is a DATE. -/
theorem branchResult_value (t : T) :
    (branchResult t).value? = if t.type = .date then some (.int 0) else t.value? := by
  unfold branchResult T.value?
  cases ht : t.type <;> rfl

/-- `CASE` is right on a row: the value of the expression of the first branch
whose condition holds, or of `ELSE`. -/
def CaseRight (t : ColMap) (r : Nat) (selectType : SelectType) (c : CaseExpr) : Prop :=
  ∃ res expected,
    postfixOf (rowEnv t r) (c.select (Chain.holds (truth (rowEnv t r)))) = some expected ∧
    projection t (wordsProjection selectType c.words) r = some res ∧
    res.type = expected.type ∧ res.value? = expected.value?

/-- The first condition that is noticed leads to the same value as the first
that holds, and that is no DATE other than 0. -/
def NoticedInTime (t : ColMap) (r : Nat) (c : CaseExpr) : Prop :=
  ∃ u expected,
    postfixOf (rowEnv t r) (c.select (Chain.holds (truth (rowEnv t r)))) = some expected ∧
    postfixOf (rowEnv t r) (c.select fun d => d.Noticed (truth (rowEnv t r))) = some u ∧
    u.type = expected.type ∧
    if expected.type = .date then expected.varInt = 0 else u.value? = expected.value?

section
variable {t : ColMap} {r : Nat} {c : CaseExpr}

/-- **`Projection`** on a `CASE` takes the first condition that is noticed. -/
theorem projection_case (selectType : SelectType) (hplain : c.Plain)
    (hatoms : ∀ b ∈ c.branches, ∀ atom ∈ b.condition.atoms,
      (postfixOf (rowEnv t r) atom).isSome) :
    projection t (wordsProjection selectType c.words) r = (postfixOf (rowEnv t r)
      (c.select fun d => d.Noticed (truth (rowEnv t r)))).map branchResult := by
  have hselect : (c.select fun d => leftToRight (truth (rowEnv t r)) d.first d.rest) =
      c.select fun d => d.Noticed (truth (rowEnv t r)) := by
    congr 1
    funext d
    rw [Bool.eq_iff_iff, leftToRight_iff_noticed, decide_eq_true_iff]
  rw [← hselect, ← caseValue_words (rowEnv t r) selectType hplain hatoms]
  exact projectionValue_case _ selectType c

/-- What is left of a value in a branch. -/
theorem branchResult_eq_iff {u expected : T} :
    ((branchResult u).type = expected.type ∧ (branchResult u).value? = expected.value?) ↔
      u.type = expected.type ∧
        if expected.type = .date then expected.varInt = 0 else u.value? = expected.value? := by
  rw [branchResult_type, branchResult_value]
  refine and_congr_right fun htype => ?_
  rw [htype]
  by_cases hdate : expected.type = .date
  · simp [hdate, T.value?, eq_comm]
  · rw [if_neg hdate, if_neg hdate]

/-- **`CASE` selects the right branch** exactly when the first condition that
is noticed leads to the value of the first that holds. -/
theorem caseRight_iff (selectType : SelectType) (hplain : c.Plain)
    (hatoms : ∀ b ∈ c.branches, ∀ atom ∈ b.condition.atoms,
      (postfixOf (rowEnv t r) atom).isSome) :
    CaseRight t r selectType c ↔ NoticedInTime t r c := by
  unfold CaseRight NoticedInTime
  rw [projection_case selectType hplain hatoms]
  constructor
  · rintro ⟨res, expected, hexpected, hres, hright⟩
    obtain ⟨u, hu, rfl⟩ := Option.map_eq_some_iff.mp hres
    exact ⟨u, expected, hexpected, hu, branchResult_eq_iff.mp hright⟩
  · rintro ⟨u, expected, hexpected, hu, hright⟩
    exact ⟨branchResult u, expected, hexpected, by rw [hu, Option.map_some],
      branchResult_eq_iff.mpr hright⟩

end

/-! ## Two conditions -/

/-- `a op b` on two literals. -/
def literalTest (a b op : String) : List Word := [(a, .string), (b, .string), (op, .operator)]

/-- `CASE WHEN condition THEN 1 ELSE 0 END`. -/
def oneOrZero (condition : Chain (List Word)) : CaseExpr where
  keyword := .string
  branches := [{ condition, result := [("1", .int64)] }]
  otherwise := [("0", .int64)]

theorem plain_oneOrZero {condition : Chain (List Word)}
    (h : ∀ atom ∈ condition.atoms, Plain atom) : (oneOrZero condition).Plain where
  branches b hb := by
    obtain rfl := List.mem_singleton.mp hb
    have hone : Plain [("1", .int64)] := by decide
    exact ⟨h, hone⟩
  otherwise := by
    have hzero : Plain [("0", .int64)] := by decide
    exact hzero

/-- `x = x AND y = y`. -/
theorem caseRight_iff_and :
    CaseRight ∅ 0 .columnName
        (oneOrZero ⟨literalTest "x" "x" "=", [(.and, literalTest "y" "y" "=")]⟩) ↔
      NoticedInTime ∅ 0
        (oneOrZero ⟨literalTest "x" "x" "=", [(.and, literalTest "y" "y" "=")]⟩) :=
  caseRight_iff .columnName
    (plain_oneOrZero (by decide))
    (by decide +kernel)

/-- `x <> x AND y = y OR z = z` holds by its second group; the false condition
before the AND ends the scan, and the value is that of `ELSE`. -/
theorem case_and_or_misses :
    (oneOrZero ⟨literalTest "x" "x" "<>",
        [(.and, literalTest "y" "y" "="), (.or, literalTest "z" "z" "=")]⟩).Plain ∧
    (postfixOf (rowEnv ∅ 0) ((oneOrZero ⟨literalTest "x" "x" "<>",
        [(.and, literalTest "y" "y" "="), (.or, literalTest "z" "z" "=")]⟩).select
          (Chain.holds (truth (rowEnv ∅ 0))))).map T.value? = some (some (.int 1)) ∧
    (projection ∅ (wordsProjection .columnName (oneOrZero ⟨literalTest "x" "x" "<>",
        [(.and, literalTest "y" "y" "="), (.or, literalTest "z" "z" "=")]⟩).words) 0).map T.value? =
          some (some (.int 0)) ∧
    ¬ CaseRight ∅ 0 .columnName (oneOrZero ⟨literalTest "x" "x" "<>",
        [(.and, literalTest "y" "y" "="), (.or, literalTest "z" "z" "=")]⟩) := by
  have hexpected : (postfixOf (rowEnv ∅ 0) ((oneOrZero ⟨literalTest "x" "x" "<>",
      [(.and, literalTest "y" "y" "="), (.or, literalTest "z" "z" "=")]⟩).select
        (Chain.holds (truth (rowEnv ∅ 0))))).map T.value? = some (some (.int 1)) := by
    decide +kernel
  have hrun : (projection ∅ (wordsProjection .columnName (oneOrZero ⟨literalTest "x" "x" "<>",
      [(.and, literalTest "y" "y" "="), (.or, literalTest "z" "z" "=")]⟩).words) 0).map T.value? =
        some (some (.int 0)) := by
    decide +kernel
  refine ⟨plain_oneOrZero (by decide),
    hexpected, hrun, ?_⟩
  rintro ⟨res, expected, he, hr, -, hvalue⟩
  rw [he, Option.map_some] at hexpected
  rw [hr, Option.map_some, hvalue, hexpected] at hrun
  exact absurd hrun (by decide)

end KetiEngine.Merging
