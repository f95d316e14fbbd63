import KetiEngine.Merging.CaseBranches

/-!
# StringConditions — `=`, `<>` and `LIKE` on strings

The tests of two strings in a condition. `=` and `<>` compare the types of
their operands, which are the same, so `=` is always true and `<>` never.
`LIKE` cuts both ends of its pattern and of the value with `substr`, which
throws where a string is too short.
-/

namespace KetiEngine.Merging

open KetiEngine Connectives

/-! ## The branch of a condition -/

/-- Whether the loop over the branches takes the one after the `THEN` at
`thenOffset`. -/
def branchTaken (env : RowEnv) (p : Projection) (thenOffset : Nat) :
    List (Option Nat × Nat) → Option Bool
  | [] => some false
  | pair :: pairs => (pairPassed env p pair).bind fun passed =>
      if pair.2 = thenOffset then some passed
      else if passed then some false
      else branchTaken env p thenOffset pairs

def takesBranch (env : RowEnv) (p : Projection) (thenOffset : Nat) : Option Bool :=
  branchTaken env p thenOffset (caseOffsets p.value).whenThenOffset

/-- Every branch that ends before this offset has failed. -/
def EarlierFailed (env : RowEnv) (p : Projection) (offset : Nat) : Prop :=
  ∀ pair ∈ (caseOffsets p.value).whenThenOffset, pair.2 < offset →
    pairPassed env p pair = some false

section
variable {env : RowEnv} {p : Projection} {thenOffset : Nat}

/-- A branch that is taken ends the loop, and one that is not may as well be
absent. -/
theorem branchTaken_spec {pairs : List (Option Nat × Nat)} {passed : Bool}
    (h : branchTaken env p thenOffset pairs = some passed) :
    caseWhenThen env p pairs =
      if passed then (thenBranch env p thenOffset).map some
      else caseWhenThen env p (pairs.eraseP fun pair => pair.2 = thenOffset) := by
  induction pairs with
  | nil =>
    obtain rfl : false = passed := by simpa [branchTaken] using h
    rfl
  | cons pair pairs ih =>
    obtain ⟨first, hfirst, hrest⟩ := Option.bind_eq_some_iff.mp h
    rw [caseWhenThen_cons, hfirst, Option.bind_some]
    by_cases hoffset : pair.2 = thenOffset
    · obtain rfl : first = passed := by simpa [hoffset] using hrest
      rw [List.eraseP_cons_of_pos (by simpa using hoffset), hoffset]
    · rw [if_neg hoffset] at hrest
      rw [List.eraseP_cons_of_neg (by simpa using hoffset), caseWhenThen_cons, hfirst,
        Option.bind_some]
      cases first with
      | true =>
        obtain rfl : false = passed := by simpa using hrest
        simp
      | false => simpa using ih (by simpa using hrest)

/-- **A branch that is taken** gives the value of a `CASE`. -/
theorem projectionValue_of_takesBranch (hcase : p.value[0]? = some "CASE")
    (h : takesBranch env p thenOffset = some true) :
    projectionValue env p = thenBranch env p thenOffset := by
  have hloop := branchTaken_spec h
  unfold projectionValue caseValue
  rw [hcase, Option.bind_eq_bind, Option.bind_some, if_pos rfl]
  simp only [hloop, if_true]
  cases thenBranch env p thenOffset <;> rfl

theorem branchTaken_append {done : List (Option Nat × Nat)}
    (hdone : ∀ pair ∈ done, pair.2 ≠ thenOffset ∧ pairPassed env p pair = some false)
    (pairs : List (Option Nat × Nat)) :
    branchTaken env p thenOffset (done ++ pairs) = branchTaken env p thenOffset pairs := by
  induction done with
  | nil => rfl
  | cons pair done ih =>
    obtain ⟨hoffset, hpassed⟩ := hdone pair (by simp)
    rw [List.cons_append, branchTaken, hpassed, Option.bind_some, if_neg hoffset,
      if_neg Bool.false_ne_true, ih fun other hother => hdone other (by simp [hother])]

end

/-- The first loop appends to the offsets it has, and finds a `THEN` among its
words. -/
theorem offsetsFrom_pairs (k : Nat) (words : List Word) (st : CaseOffsets) :
    ∃ pairs, (offsetsFrom k words st).whenThenOffset = st.whenThenOffset ++ pairs ∧
      ∀ pair ∈ pairs, k ≤ pair.2 ∧ pair.2 < k + words.length := by
  induction words generalizing k st with
  | nil => exact ⟨[], by simp [offsetsFrom], by simp⟩
  | cons w words ih =>
    obtain ⟨pairs, hpairs, hbounds⟩ := ih (k + 1) (offsetStep st (w.1, k))
    rw [offsetStep_whenThenOffset] at hpairs
    refine ⟨(if w.1 = "THEN" then [(st.whenOffset, k)] else []) ++ pairs,
      by rw [offsetsFrom_cons, hpairs, List.append_assoc], fun pair hpair => ?_⟩
    rw [List.length_cons]
    rcases List.mem_append.mp hpair with hpair | hpair
    · have hk : pair.2 = k := by
        split_ifs at hpair <;> simp_all
      omega
    · have := hbounds pair hpair
      omega

/-! ## `=` and `<>` -/

inductive StringTest where
  | equal | differ
  deriving DecidableEq

def StringTest.text : StringTest → String
  | .equal => "="
  | .differ => "<>"

/-- What the test asks of two strings. -/
def StringTest.Holds : StringTest → String → String → Prop
  | .equal, a, b => a = b
  | .differ, a, b => a ≠ b

section
variable (env : RowEnv) (selectType : SelectType) (keyword : ValueType)

/-- A word is a STRING column or a literal, with this value. -/
def StringOperand (w : Word) (s : String) : Prop :=
  (w.2 = .column ∧ env.type w.1 = .string ∧ env.strvec w.1 = some s) ∨
    (w.2 = .string ∧ w.1 = s)

/-- A `CASE` with the test as the condition of a `WHEN` among any words. -/
def testWords (before : List Word) (test : StringTest) (x y : Word) (after : List Word) :
    List Word :=
  ("CASE", keyword) :: (before ++ ("WHEN", keyword) :: x :: y :: (test.text, .operator) ::
    ("THEN", keyword) :: after)

/-- The branch of the test is taken as its strings ask. -/
def TestRight (before : List Word) (test : StringTest) (x y : Word) (after : List Word)
    (a b : String) : Prop :=
  ∃ taken, takesBranch env (wordsProjection selectType (testWords keyword before test x y after))
      (before.length + 5) = some taken ∧ (taken = true ↔ test.Holds a b)

/-- An operand is spelled as a keyword, and its condition is cut before the
test has both operands. -/
def Misread (x y : Word) : Prop :=
  x.1 ∈ ["WHEN", "THEN", "AND", "OR"] ∨ y.1 ∈ ["WHEN", "OR"]

instance (x y : Word) : Decidable (Misread x y) := by
  unfold Misread; infer_instance

theorem postfixStep_string {w : Word} {s : String} (h : StringOperand env w s)
    (operStack : List T) : postfixStep env operStack w.1 w.2 =
      some ({ varString := s, type := .string } :: operStack) := by
  rcases h with ⟨hw, htype, hs⟩ | ⟨hw, rfl⟩
  · simp [postfixStep, hw, columnOperand, htype, hs]
  · simp [postfixStep, hw]

section
variable {env} {x y : Word} {a b : String} (test : StringTest)

theorem postfixOf_operand (hx : StringOperand env x a) :
    postfixOf env [x] = some { varString := a, type := .string } := by
  simp [postfixOf, postfixStep_string env hx]

/-- The verdict of a test does not depend on the strings. -/
theorem postfixOf_test (hx : StringOperand env x a) (hy : StringOperand env y b) :
    postfixOf env [x, y, (test.text, .operator)] = some { boolean := test = .equal } := by
  unfold postfixOf
  simp only [List.foldlM_cons, postfixStep_string env hx, postfixStep_string env hy,
    Option.bind_eq_bind, Option.bind_some, List.foldlM_nil]
  cases test <;> rfl

/-- A test pops two operands. -/
theorem postfixOf_cut (hy : StringOperand env y b) :
    postfixOf env [(test.text, .operator)] = none ∧
      postfixOf env [y, (test.text, .operator)] = none := by
  constructor
  · cases test <;> rfl
  · unfold postfixOf
    simp only [List.foldlM_cons, postfixStep_string env hy, Option.bind_eq_bind, Option.bind_some]
    cases test <;> rfl

theorem text_ne : test.text ≠ "AND" ∧ test.text ≠ "OR" ∧ test.text ≠ "THEN" ∧
    test.text ≠ "WHEN" := by
  cases test <;> decide

/-- The scan from behind the first operand or the second. -/
theorem scanWords_cut (hy : StringOperand env y b) (hthen : y.1 ≠ "THEN") :
    scanWords env [] [(test.text, .operator), ("THEN", keyword)] = none ∧
      scanWords env [] [y, (test.text, .operator), ("THEN", keyword)] = none := by
  obtain ⟨hand, hor, hthen', -⟩ := text_ne test
  obtain ⟨hcut, hcut'⟩ := postfixOf_cut test hy
  constructor
  · simp [scanWords, hand, hor, hthen', hcut]
  · have hempty : postfixOf env [] = none := rfl
    simp [scanWords, hand, hor, hthen, hthen', hcut', hempty]

/-- The scan of both operands and the test. -/
theorem scanWords_test (hx : StringOperand env x a) (hy : StringOperand env y b)
    (hthen : x.1 ≠ "THEN") :
    scanWords env [] [x, y, (test.text, .operator), ("THEN", keyword)] =
      if x.1 ∈ ["AND", "OR"] ∨ y.1 = "OR" then none
      else some (decide (y.1 ≠ "AND" ∧ test = .equal)) := by
  obtain ⟨hand, hor, hthen', -⟩ := text_ne test
  have hempty : postfixOf env [] = none := rfl
  by_cases hxand : x.1 = "AND"
  · simp [scanWords, hxand, hempty]
  by_cases hxor : x.1 = "OR"
  · simp [scanWords, hxor, hempty]
  -- the first operand alone is a STRING, with `boolean` not set
  have hstring := postfixOf_operand hx
  have htest := postfixOf_test test hx hy
  have hcut := (postfixOf_cut test hy).1
  by_cases hyand : y.1 = "AND"
  · simp [scanWords, hxand, hxor, hthen, hyand, hstring]
  by_cases hyor : y.1 = "OR"
  · simp [scanWords, hxand, hxor, hthen, hyor, hstring, hand, hor, hthen', hcut]
  by_cases hythen : y.1 = "THEN"
  · cases test <;>
      simp [scanWords, hxand, hxor, hthen, hythen, hstring, hand, hor, hthen', htest]
  · cases test <;>
      simp [scanWords, hxand, hxor, hthen, hyand, hyor, hythen, hand, hor, hthen', htest]

end

/-- The offsets that the first loop finds in the condition of the test, the
`WHEN` being at `k`. -/
def testOffsets (k : Nat) (x y : Word) : List (Option Nat × Nat) :=
  let whenOffset := if x.1 = "WHEN" then some (k + 1) else some k
  (if x.1 = "THEN" then [(some k, k + 1)] else []) ++
    (if y.1 = "THEN" then [(whenOffset, k + 2)] else []) ++
    [(if y.1 = "WHEN" then some (k + 2) else whenOffset, k + 4)]

theorem caseOffsets_test (before : List Word) (test : StringTest) (x y : Word)
    (after : List Word) :
    ∃ done rest, (caseOffsets (wordsProjection selectType
        (testWords keyword before test x y after)).value).whenThenOffset =
          done ++ (testOffsets (before.length + 1) x y ++ rest) ∧
      ∀ pair ∈ done, pair.2 < before.length + 1 := by
  have hloop : caseOffsets (wordsProjection selectType
      (testWords keyword before test x y after)).value =
        offsetsFrom 1 (before ++ ("WHEN", keyword) :: x :: y :: (test.text, .operator) ::
          ("THEN", keyword) :: after) {} := rfl
  obtain ⟨done, hdone, hbounds⟩ := offsetsFrom_pairs 1 before {}
  generalize hst : offsetsFrom 1 before {} = st at hdone
  obtain ⟨-, -, hthen, hwhen⟩ := text_ne test
  rw [hloop, offsetsFrom_append, hst, Nat.add_comm 1]
  simp only [offsetsFrom_cons]
  obtain ⟨rest, hrest, -⟩ := offsetsFrom_pairs (before.length + 1 + 1 + 1 + 1 + 1 + 1) after
    (offsetStep (offsetStep (offsetStep (offsetStep (offsetStep st ("WHEN", before.length + 1))
      (x.1, before.length + 1 + 1)) (y.1, before.length + 1 + 1 + 1))
      (test.text, before.length + 1 + 1 + 1 + 1)) ("THEN", before.length + 1 + 1 + 1 + 1 + 1))
  refine ⟨done, rest, ?_, fun pair hpair => by have := hbounds pair hpair; omega⟩
  rw [hrest, ← List.append_assoc]
  congr 1
  simp only [offsetStep_whenOffset, offsetStep_whenThenOffset, hdone, hthen, hwhen, if_true,
    if_false, testOffsets, List.append_assoc, List.nil_append]
  simp

section
variable {env selectType keyword} {before after : List Word} {test : StringTest} {x y : Word}
  {a b : String}

/-- **The verdict of a test** is that of the types, unless the spelling of an
operand stops the scan. -/
theorem takesBranch_test (hx : StringOperand env x a) (hy : StringOperand env y b)
    (hearlier : EarlierFailed env
      (wordsProjection selectType (testWords keyword before test x y after))
      (before.length + 1)) :
    takesBranch env (wordsProjection selectType (testWords keyword before test x y after))
        (before.length + 5) =
      if Misread x y then none else some (decide (y.1 ≠ "AND" ∧ test = .equal)) := by
  obtain ⟨done, rest, hpairs, hdone⟩ :=
    caseOffsets_test selectType keyword before test x y after
  have hpassed : ∀ (first : List Word) (w : Word) (words last : List Word) (k n : Nat),
      first ++ w :: words ++ last = testWords keyword before test x y after →
      first.length = k → k + words.length = n →
      pairPassed env (wordsProjection selectType (testWords keyword before test x y after))
        (some k, n) = scanWords env [] words := by
    rintro first w words last k n hwords rfl rfl
    rw [← hwords]
    exact pairPassed_words env selectType first w words last
  unfold EarlierFailed at hearlier
  unfold takesBranch
  rw [hpairs] at hearlier ⊢
  rw [branchTaken_append fun pair hpair =>
    ⟨by have := hdone pair hpair; omega, hearlier pair (by simp [hpair]) (hdone pair hpair)⟩]
  have hempty : postfixOf env [] = none := rfl
  by_cases hxthen : x.1 = "THEN"
  · -- the condition ends before its first operand
    have hfirst := hpassed (("CASE", keyword) :: before) ("WHEN", keyword) [x]
      (y :: (test.text, .operator) :: ("THEN", keyword) :: after) (before.length + 1)
      (before.length + 1 + 1) (by simp [testWords]) rfl rfl
    simp [testOffsets, branchTaken, hfirst, scanWords, hxthen, hempty, Misread]
  by_cases hywhen : y.1 = "WHEN"
  · -- it begins behind its second operand
    have hlast := hpassed (("CASE", keyword) :: before ++ [("WHEN", keyword), x]) y
      [(test.text, .operator), ("THEN", keyword)] after (before.length + 1 + 2)
      (before.length + 1 + 4) (by simp [testWords]) (by simp) (by simp)
    have hythen : y.1 ≠ "THEN" := by simp [hywhen]
    rw [(scanWords_cut keyword test hy hythen).1] at hlast
    simp [testOffsets, branchTaken, hlast, hxthen, hywhen, Misread]
  by_cases hxwhen : x.1 = "WHEN"
  · -- it begins behind its first operand
    by_cases hythen : y.1 = "THEN"
    · have hfirst := hpassed (("CASE", keyword) :: before ++ [("WHEN", keyword)]) x [y]
        ((test.text, .operator) :: ("THEN", keyword) :: after) (before.length + 1 + 1)
        (before.length + 1 + 2) (by simp [testWords]) (by simp) (by simp)
      simp [testOffsets, branchTaken, hfirst, scanWords, hxwhen, hythen, hempty, Misread]
    · have hlast := hpassed (("CASE", keyword) :: before ++ [("WHEN", keyword)]) x
        [y, (test.text, .operator), ("THEN", keyword)] after (before.length + 1 + 1)
        (before.length + 1 + 4) (by simp [testWords]) (by simp) (by simp)
      rw [(scanWords_cut keyword test hy hythen).2] at hlast
      simp [testOffsets, branchTaken, hlast, hxwhen, hywhen, hythen, Misread]
  -- the condition as a whole
  have hwhole := hpassed (("CASE", keyword) :: before) ("WHEN", keyword)
    [x, y, (test.text, .operator), ("THEN", keyword)] after (before.length + 1)
    (before.length + 1 + 4) (by simp [testWords]) rfl rfl
  rw [scanWords_test keyword test hx hy hxthen] at hwhole
  by_cases hythen : y.1 = "THEN"
  · -- its first operand is read as a condition first, which fails
    have hfirst := hpassed (("CASE", keyword) :: before) ("WHEN", keyword) [x, y]
      ((test.text, .operator) :: ("THEN", keyword) :: after) (before.length + 1)
      (before.length + 1 + 2) (by simp [testWords]) rfl rfl
    by_cases hkeyword : x.1 = "AND" ∨ x.1 = "OR"
    · have hscan : scanWords env [] [x, y] = none := by
        rcases hkeyword with h | h <;> simp [scanWords, h, hempty]
      rw [hscan] at hfirst
      rcases hkeyword with h | h <;>
        simp [testOffsets, branchTaken, hfirst, h, hythen, Misread]
    · rw [not_or] at hkeyword
      have hscan : scanWords env [] [x, y] = some false := by
        simp [scanWords, hkeyword, hxthen, hythen, postfixOf_operand hx]
      rw [hscan] at hfirst
      simp [testOffsets, branchTaken, hfirst, hwhole, hxwhen, hxthen, hythen, hkeyword, Misread]
  · simp [testOffsets, branchTaken, hwhole, hxwhen, hxthen, hywhen, hythen, Misread]

/-- **A string test** decides its branch by the contents exactly when its
operands are not misread and the strings are equal; a second operand spelled
AND makes the condition fail, whatever the test asks. -/
theorem stringTest_iff (hx : StringOperand env x a) (hy : StringOperand env y b)
    (hearlier : EarlierFailed env
      (wordsProjection selectType (testWords keyword before test x y after))
      (before.length + 1)) :
    TestRight env selectType keyword before test x y after a b ↔
      ¬ Misread x y ∧ if y.1 = "AND" then ¬ test.Holds a b else a = b := by
  unfold TestRight
  rw [takesBranch_test hx hy hearlier]
  by_cases hmisread : Misread x y
  · simp [hmisread]
  by_cases hand : y.1 = "AND"
  · simp [hmisread, hand]
  · cases test <;> simp [hmisread, hand, StringTest.Holds]

end

end

/-- `THEN 1 ELSE 0 END`. -/
def oneElseZero : List Word :=
  [("1", .int64), ("ELSE", .string), ("0", .int64), ("END", .string)]

/-- `CASE WHEN x = y THEN 1 ELSE 0 END` is 1 for two different strings, and 0
with `<>`. -/
theorem stringTest_ignores_contents :
    (projection ∅ (wordsProjection .columnName (testWords .string [] .equal
      ("x", .string) ("y", .string) oneElseZero)) 0).map T.value? = some (some (.int 1)) ∧
    ¬ TestRight (rowEnv ∅ 0) .columnName .string [] .equal ("x", .string) ("y", .string)
      oneElseZero "x" "y" ∧
    (projection ∅ (wordsProjection .columnName (testWords .string [] .differ
      ("x", .string) ("y", .string) oneElseZero)) 0).map T.value? = some (some (.int 0)) ∧
    ¬ TestRight (rowEnv ∅ 0) .columnName .string [] .differ ("x", .string) ("y", .string)
      oneElseZero "x" "y" := by
  refine ⟨by decide +kernel, ?_, by decide +kernel, ?_⟩
  · rintro ⟨taken, htaken, hright⟩
    have hrun : takesBranch (rowEnv ∅ 0) (wordsProjection .columnName
        (testWords .string [] .equal ("x", .string) ("y", .string) oneElseZero)) 5 =
          some true := by decide +kernel
    obtain rfl := Option.some.inj (hrun.symm.trans htaken)
    exact absurd (hright.mp rfl) (by simp [StringTest.Holds])
  · rintro ⟨taken, htaken, hright⟩
    have hrun : takesBranch (rowEnv ∅ 0) (wordsProjection .columnName
        (testWords .string [] .differ ("x", .string) ("y", .string) oneElseZero)) 5 =
          some false := by decide +kernel
    obtain rfl := Option.some.inj (hrun.symm.trans htaken)
    exact absurd (hright.mpr (by simp [StringTest.Holds])) Bool.false_ne_true

/-- `x = y` in the only condition. -/
theorem stringTest_iff_literals :
    TestRight (rowEnv ∅ 0) .columnName .string [] .equal ("x", .string) ("y", .string)
        oneElseZero "x" "y" ↔
      ¬ Misread ("x", .string) ("y", .string) ∧
        if "y" = "AND" then ¬ StringTest.equal.Holds "x" "y" else "x" = "y" :=
  stringTest_iff (.inr ⟨rfl, rfl⟩) (.inr ⟨rfl, rfl⟩) (by unfold EarlierFailed; decide +kernel)

/-! ## `LIKE` -/

def leadingWildcard (pattern : String) : Bool := pattern.toList.head? = some '%'

def trailingWildcard (pattern : String) : Bool := pattern.toList.getLast? = some '%'

/-- The value contains, ends with, begins with or is the rest of the pattern,
by the ends of the pattern that are `%`. -/
def LikeHolds (col pattern : String) : Prop :=
  if leadingWildcard pattern ∧ trailingWildcard pattern then
    pattern.toList.tail.dropLast <:+: col.toList
  else if leadingWildcard pattern then pattern.toList.tail <:+ col.toList
  else if trailingWildcard pattern then pattern.toList.dropLast <+: col.toList
  else col = pattern

instance (col pattern : String) : Decidable (LikeHolds col pattern) := by
  unfold LikeHolds; infer_instance

/-- The pattern is not empty, and a value that it is to end is long enough. -/
def LongEnough (col pattern : String) : Prop :=
  pattern ≠ "" ∧ (leadingWildcard pattern → ¬ trailingWildcard pattern →
    pattern.length ≤ col.length + 1)

instance (col pattern : String) : Decidable (LongEnough col pattern) := by
  unfold LongEnough; infer_instance

theorem substr_of_le {s : String} {pos : Int} (hpos : 0 ≤ pos) (hlength : pos ≤ s.length)
    (n : Int) :
    substr s pos n = some (String.ofList (if n < 0 then s.toList.drop pos.toNat
      else (s.toList.drop pos.toNat).take n.toNat)) := by
  simp only [substr, if_neg (show ¬ (pos < 0 ∨ (s.length : Int) < pos) by omega)]

theorem substr_eq_none {s : String} {pos : Int} (h : pos < 0 ∨ (s.length : Int) < pos) (n : Int) :
    substr s pos n = none := if_pos h

theorem ofList_eq_percent {cs : List Char} : String.ofList cs = "%" ↔ cs = ['%'] := by
  rw [← String.toList_inj]
  simp

/-- The first character. -/
theorem substr_first (s : String) :
    ∃ first, substr s 0 1 = some first ∧ (first = "%" ↔ leadingWildcard s = true) := by
  refine ⟨_, substr_of_le (by omega) (by omega) 1, ?_⟩
  rw [ofList_eq_percent]
  unfold leadingWildcard
  cases hs : s.toList <;> simp

/-- The last character. -/
theorem substr_last {s : String} (hne : s ≠ "") :
    ∃ last, substr s ((s.length : Int) - 1) (-1) = some last ∧
      (last = "%" ↔ trailingWildcard s = true) := by
  have hlist : s.toList ≠ [] := by simpa using hne
  have hlength : s.length = s.toList.dropLast.length + 1 := by
    have hpos := List.length_pos_iff.mpr hlist
    rw [List.length_dropLast, ← String.length_toList]
    omega
  refine ⟨_, substr_of_le (by omega) (by omega) (-1), ?_⟩
  rw [ofList_eq_percent]
  unfold trailingWildcard
  have hdrop : s.toList.drop (((s.length : Int) - 1).toNat) = [s.toList.getLast hlist] := by
    conv_lhs => rw [← List.dropLast_append_getLast hlist]
    rw [hlength]
    simp
  rw [if_pos (by omega), hdrop, List.getLast?_eq_some_getLast hlist]
  simp

/-- The pattern without its first character. -/
theorem substr_tail {s : String} (hne : s ≠ "") :
    substr s 1 (-1) = some (String.ofList s.toList.tail) := by
  have hpos := List.length_pos_iff.mpr (show s.toList ≠ [] by simpa using hne)
  rw [String.length_toList] at hpos
  rw [substr_of_le (by omega) (by omega), if_pos (by omega)]
  simp

/-- The pattern without its last character. -/
theorem substr_dropLast {s : String} (hne : s ≠ "") :
    substr s 0 ((s.length : Int) - 1) = some (String.ofList s.toList.dropLast) := by
  have hpos := List.length_pos_iff.mpr (show s.toList ≠ [] by simpa using hne)
  rw [String.length_toList] at hpos
  rw [substr_of_le (by omega) (by omega), if_neg (by omega), List.dropLast_eq_take,
    String.length_toList]
  congr 3
  omega

/-- The pattern without both; a `%` alone is both. -/
theorem substr_middle {s : String} (hne : s ≠ "") :
    substr s 1 ((s.length : Int) - 2) = some (String.ofList s.toList.tail.dropLast) := by
  have hpos := List.length_pos_iff.mpr (show s.toList ≠ [] by simpa using hne)
  rw [String.length_toList] at hpos
  rw [substr_of_le (by omega) (by omega)]
  simp only [Int.toNat_one, List.drop_one]
  congr 2
  split
  · -- a pattern of one character
    have htail : s.toList.tail = [] := List.eq_nil_of_length_eq_zero (by
      rw [List.length_tail, String.length_toList]
      omega)
    simp [htail]
  · rw [List.dropLast_eq_take, List.length_tail, String.length_toList]
    congr 1
    omega

/-- The end of a value against the rest of the pattern. -/
theorem compare_suffix (col : String) (part : List Char) :
    ((substr col ((col.length : Int) - (String.ofList part).length) (-1)).bind fun comp =>
        pure (decide (String.ofList part = comp))) =
      if part.length ≤ col.length then some (decide (part <:+ col.toList)) else none := by
  rw [String.length_ofList]
  by_cases h : part.length ≤ col.length
  · have hpos : ((col.length : Int) - part.length).toNat = col.toList.length - part.length := by
      rw [String.length_toList]
      omega
    rw [substr_of_le (by omega) (by omega), if_pos (by omega), if_pos h, Option.bind_some, hpos]
    simp only [String.ofList_inj, ← List.suffix_iff_eq_drop]
    rfl
  · rw [substr_eq_none (by omega), if_neg h]
    rfl

/-- The beginning of a value against the rest of the pattern. -/
theorem compare_prefix (col : String) (part : List Char) :
    ((substr col 0 (String.ofList part).length).bind fun comp =>
        pure (decide (String.ofList part = comp))) = some (decide (part <+: col.toList)) := by
  rw [String.length_ofList, substr_of_le (by omega) (by omega), if_neg (by omega), Option.bind_some]
  simp only [Int.toNat_natCast, Int.toNat_zero, List.drop_zero, String.ofList_inj,
    ← List.prefix_iff_eq_take]
  rfl

/-- **`LIKE` on trimmed strings.** -/
theorem likeMatches_eq (col str : String) :
    likeMatches col str =
      if LongEnough col str then some (decide (LikeHolds col str)) else none := by
  obtain ⟨first, hfirst, hleading⟩ := substr_first str
  by_cases hne : str = ""
  · subst hne
    rfl
  · obtain ⟨last, hlast, htrailing⟩ := substr_last hne
    have hpos := List.length_pos_iff.mpr (show str.toList ≠ [] by simpa using hne)
    rw [String.length_toList] at hpos
    unfold likeMatches LongEnough LikeHolds
    simp only [hfirst, hlast, Option.bind_eq_bind, Option.bind_some, Option.some.injEq, hleading,
      htrailing, ne_eq, hne, not_false_eq_true, true_and]
    by_cases hl : leadingWildcard str = true
    · by_cases ht : trailingWildcard str = true
      · simp [hl, ht, substr_middle hne, contains]
      · simp only [hl, ht, true_and, if_true, if_false, forall_const, not_false_eq_true,
          substr_tail hne, Option.bind_some, Bool.false_eq_true]
        rw [compare_suffix]
        congr 1
        rw [List.length_tail, String.length_toList]
        exact propext (by omega)
    · by_cases ht : trailingWildcard str = true
      · simp only [hl, ht, if_true, if_false, false_and, Bool.false_eq_true, forall_false,
          substr_dropLast hne, Option.bind_some]
        exact compare_prefix col _
      · simp [hl, ht]

theorem operator?_like : operator? "LIKE" = some like := by simp [operator?]

/-- **`LIKE` matches its pattern** exactly when the trimmed pattern is not
empty and the trimmed value is not shorter than an end it is to have; `substr`
throws otherwise. -/
theorem like_iff_longEnough (env : RowEnv) (selectType : SelectType) {x y : Word}
    {col pattern : String} (hx : StringOperand env x col) (hy : StringOperand env y pattern) :
    postfixValue env (wordsProjection selectType [x, y, ("LIKE", .operator)]) 0 3 =
        some { boolean := decide (LikeHolds (trim col) (trim pattern)) } ↔
      LongEnough (trim col) (trim pattern) := by
  have hsegment := postfixValue_segment env selectType [] [x, y, ("LIKE", .operator)] []
  have hvalue : postfixOf env [x, y, ("LIKE", .operator)] =
      (likeMatches (trim col) (trim pattern)).map fun b => { boolean := b } := by
    unfold postfixOf
    simp only [List.foldlM_cons, postfixStep_string env hx, postfixStep_string env hy,
      Option.bind_eq_bind, Option.bind_some, List.foldlM_nil]
    simp only [postfixStep, operator?_like, like]
    generalize likeMatches (trim col) (trim pattern) = matched
    cases matched <;> rfl
  rw [List.nil_append, List.append_nil, hvalue, likeMatches_eq] at hsegment
  have hrun : postfixValue env (wordsProjection selectType [x, y, ("LIKE", .operator)]) 0 3 =
      (if LongEnough (trim col) (trim pattern) then
        some (decide (LikeHolds (trim col) (trim pattern))) else none).map
          fun b => { boolean := b } := hsegment
  rw [hrun]
  by_cases h : LongEnough (trim col) (trim pattern)
  · simp [h]
  · simp [h]

/-- `PROMO BRUSHED` begins with `PROMO`. -/
theorem like_iff_longEnough_promo :
    postfixValue (rowEnv ∅ 0) (wordsProjection .columnName
        [("PROMO BRUSHED", .string), ("PROMO% ", .string), ("LIKE", .operator)]) 0 3 =
      some { boolean := decide (LikeHolds (trim "PROMO BRUSHED") (trim "PROMO% ")) } ↔
    LongEnough (trim "PROMO BRUSHED") (trim "PROMO% ") :=
  like_iff_longEnough (rowEnv ∅ 0) .columnName (.inr ⟨rfl, rfl⟩) (.inr ⟨rfl, rfl⟩)

/-- The empty pattern, and a value shorter than the end it is to have, throw. -/
theorem like_throws :
    postfixValue (rowEnv ∅ 0) (wordsProjection .columnName
      [("abc", .string), ("", .string), ("LIKE", .operator)]) 0 3 = none ∧
    ¬ LikeHolds (trim "abc") (trim "") ∧
    postfixValue (rowEnv ∅ 0) (wordsProjection .columnName
      [("c", .string), ("%abc", .string), ("LIKE", .operator)]) 0 3 = none ∧
    ¬ LikeHolds (trim "c") (trim "%abc") := by
  decide +kernel

end KetiEngine.Merging
