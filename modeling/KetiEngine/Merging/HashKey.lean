import Mathlib.Data.List.Flatten
import KetiEngine.Lib.Loops
import KetiEngine.Lib.Separated
import KetiEngine.Snippet
import KetiEngine.Table

/-!
# HashKey — the text keys of the hash operators

The keys `createHashTable` files the rows of one table under, and the keys
the probe loops look the rows of the other table up by. A column that the
table lacks reads as an empty one.
-/

namespace KetiEngine.Merging

open KetiEngine Separated

/-! ## The source functions -/

/-- The `switch` of a key loop: what column `c` adds for row `i`. The loops
differ in whether they have a case for `TYPE_DATE`. -/
def keyText (dates : Bool) (c : ColData) (i : Nat) : Option String :=
  match c.type with
  | .string => c.strvec[i]?.map ("|" ++ ·)
  | .int => c.intvec[i]?.map fun n => "|" ++ toString n
  | .date => if dates then c.intvec[i]?.map fun n => "|" ++ toString n else some ""
  | .float => c.floatvec[i]?.map fun x => "|" ++ x.toText
  | .empty | .boolean => some ""

def hashKey (dates : Bool) (t : ColMap) (columns : List String) (i : Nat) : Option String :=
  columns.foldlM (fun key name => (keyText dates (t.get name) i).map (key ++ ·)) ""

/-- The key of row `i` in `createHashTable`. -/
def buildKey (t : ColMap) (columns : List String) (i : Nat) : Option String :=
  hashKey true t columns i

/-- The key of row `r` in the probe loop of `InnerJoin_hash`, which has no
case for `TYPE_DATE`. -/
def innerJoinProbeKey (t : ColMap) (columns : List String) (r : Nat) : Option String :=
  hashKey false t columns r

/-- The probe loop of `LeftOuterJoin_hash` has none either. -/
def leftOuterJoinProbeKey (t : ColMap) (columns : List String) (r : Nat) : Option String :=
  hashKey false t columns r

/-- `hash_table_`: the rows of every key, in their order. -/
abbrev HashTable := AList (fun _ : String => List Nat)

/-- `hash_table_[key]`, read. -/
def HashTable.bucket (h : HashTable) (key : String) : List Nat := (h.lookup key).getD []

def createHashTable (t : TableData) (equalJoinColumn : List String) (h : HashTable) :
    Option HashTable :=
  (List.range t.rowCount.toNat).foldlM (fun h i => do
    let key ← buildKey t.tableData equalJoinColumn i
    pure (h.insert key (h.bucket key ++ [i]))) h

/-! ## What a key says -/

/-- The text of row `i` in a column. -/
def textAt (t : ColMap) (i : Nat) (name : String) : List Char :=
  match (t.get name).value? i with
  | some v => v.text.toList
  | none => []

/-- The columns a key loop has a case for. -/
def keyed (dates : Bool) (t : ColMap) (name : String) : Bool :=
  dates || (t.get name).type ≠ .date

theorem keyText_spec {dates : Bool} {c : ColData} {i : Nat} {v : Value} (hc : c.Stored)
    (hv : c.value? i = some v) :
    keyText dates c i =
      some (if dates || c.type ≠ .date then "|" ++ v.text else "") := by
  unfold ColData.value? at hv
  unfold keyText
  rcases hc with ht | ht | ht | ht <;> simp only [ht, Option.map_eq_some_iff] at hv ⊢
  case inr.inr.inr =>
    obtain ⟨n, hn, rfl⟩ := hv
    cases dates <;> simp [hn, Value.text]
  all_goals
    obtain ⟨a, ha, rfl⟩ := hv
    simp [ha, Value.text]

/-- **A key** is the texts of the columns with a case, each behind a `|`. -/
theorem hashKey_spec (dates : Bool) {t : ColMap} {names : List String} {i : Nat}
    (hstored : ∀ name ∈ names, (t.get name).Stored)
    (hrow : ∀ name ∈ names, ∃ v, (t.get name).value? i = some v) :
    ∃ key, hashKey dates t names i = some key ∧
      key.toList = joined '|' ((names.filter (keyed dates t)).map (textAt t i)) := by
  suffices hfrom : ∀ key₀ : String, ∃ key,
      names.foldlM (fun key name => (keyText dates (t.get name) i).map (key ++ ·)) key₀ =
        some key ∧
      key.toList = key₀.toList ++
        joined '|' ((names.filter (keyed dates t)).map (textAt t i)) from hfrom ""
  induction names with
  | nil => exact fun key₀ => ⟨key₀, rfl, by simp⟩
  | cons name names ih =>
    intro key₀
    obtain ⟨v, hv⟩ := hrow name (by simp)
    have htext : textAt t i name = v.text.toList := by simp [textAt, hv]
    obtain ⟨key, hrun, hkey⟩ := ih (fun n hn => hstored n (by simp [hn]))
      (fun n hn => hrow n (by simp [hn]))
      (key₀ ++ if keyed dates t name then "|" ++ v.text else "")
    refine ⟨key, ?_, ?_⟩
    · rw [List.foldlM_cons, keyText_spec (hstored name (by simp)) hv]
      exact hrun
    · rw [hkey, String.toList_append, List.append_assoc]
      congr 1
      cases hk : keyed dates t name with
      | true => simp [hk, htext]
      | false => simp [hk]

/-! ## The hash table -/

theorem HashTable.bucket_insert (h : HashTable) (key key' : String) (rows : List Nat) :
    HashTable.bucket (h.insert key rows) key' = if key = key' then rows else h.bucket key' := by
  unfold HashTable.bucket
  by_cases hk : key = key'
  · simp [hk]
  · rw [AList.lookup_insert_ne (Ne.symm hk), if_neg hk]

/-- **The bucket invariant**: under a key lie the rows with that key, in
their order. -/
theorem createHashTable_spec {t : TableData} {n : Nat} (hcount : t.rowCount = n)
    {columns : List String} {keys : Nat → String}
    (hkeys : ∀ i < n, buildKey t.tableData columns i = some (keys i)) :
    ∃ h, createHashTable t columns ∅ = some h ∧
      ∀ key, h.bucket key = (List.range n).filter fun i => keys i = key := by
  have hbucket : ∀ (rows : List Nat) (h : HashTable) (key : String),
      HashTable.bucket (rows.foldl (fun h i => h.insert (keys i) (h.bucket (keys i) ++ [i])) h)
        key = h.bucket key ++ rows.filter fun i => keys i = key := by
    intro rows
    induction rows with
    | nil => simp
    | cons i rows ih =>
      intro h key
      rw [List.foldl_cons, ih, HashTable.bucket_insert]
      by_cases hk : keys i = key
      · simp [hk]
      · simp [hk]
  refine ⟨_, ?_, fun key => (hbucket (List.range n) ∅ key).trans (List.nil_append _)⟩
  unfold createHashTable
  rw [hcount]
  refine Loops.foldlM_of_forall (fun h i hi => ?_) _
  rw [hkeys i (List.mem_range.mp hi)]
  rfl

/-- A key is in the hash table when some row has it. -/
theorem createHashTable_mem {t : TableData} {n : Nat} (hcount : t.rowCount = n)
    {columns : List String} {keys : Nat → String}
    (hkeys : ∀ i < n, buildKey t.tableData columns i = some (keys i)) {h : HashTable}
    (hrun : createHashTable t columns ∅ = some h) (key : String) :
    key ∈ h ↔ ∃ i < n, keys i = key := by
  have hn : t.rowCount.toNat = n := by simp [hcount]
  rw [createHashTable, hn] at hrun
  have hloop := Loops.foldlM_induction
    (P := fun done (h : HashTable) => ∀ key, key ∈ h ↔ ∃ i ∈ done, keys i = key)
    (fun key => by simp)
    (fun done i rest h h' hsplit hmem hstep key => by
      obtain ⟨-, hi⟩ := Loops.range_eq_append_cons hsplit
      rw [hkeys i hi] at hstep
      cases hstep
      rw [AList.mem_insert, hmem]
      constructor
      · rintro (rfl | ⟨j, hj, rfl⟩)
        · exact ⟨i, by simp, rfl⟩
        · exact ⟨j, by simp [hj], rfl⟩
      · rintro ⟨j, hj, rfl⟩
        rcases List.mem_append.mp hj with hj | hj
        · exact .inr ⟨j, hj, rfl⟩
        · exact .inl (by rw [List.mem_singleton.mp hj]))
    hrun
  rw [hloop]
  simp

/-! ## Equality columns -/

/-- The columns compared, each a name of the table built and one of the table
probed. The two have the same type, one whose values the keys keep apart. -/
def Comparable (built probed : ColMap) (columns : List (String × String)) : Prop :=
  ∀ p ∈ columns, p.1 ∈ built ∧ p.2 ∈ probed ∧ (built.get p.1).type = (probed.get p.2).type ∧
    ((built.get p.1).type = .int ∨ (built.get p.1).type = .date ∨ (built.get p.1).type = .string)

/-- Row `i` of the table built and row `r` of the table probed have equal
values in every equality column. -/
def EqualOn (built probed : ColMap) (columns : List (String × String)) (i r : Nat) : Prop :=
  ∀ p ∈ columns, (built.get p.1).value? i = (probed.get p.2).value? r

/-- The texts of a row, cut at every `|`: all a key can tell. -/
def cutTexts (t : ColMap) (names : List String) (i : Nat) : List (List Char) :=
  names.flatMap fun name => (textAt t i name).splitOn '|'

/-- The columns of a list that are no DATE columns. -/
def noDates (t : ColMap) (names : List String) : List String :=
  names.filter fun name => (t.get name).type ≠ .date

theorem filter_keyed_true (t : ColMap) (names : List String) :
    names.filter (keyed true t) = names :=
  List.filter_eq_self.mpr fun _ _ => rfl

theorem filter_keyed_false (t : ColMap) (names : List String) :
    names.filter (keyed false t) = noDates t names :=
  List.filter_congr fun _ _ => by simp [keyed]

/-- Leaving out a column shortens the list of pieces. -/
theorem length_cutTexts_noDates {t : ColMap} {names : List String} {i : Nat} {name : String}
    (hname : name ∈ names) (hdate : (t.get name).type = .date) :
    (cutTexts t (noDates t names) i).length < (cutTexts t names i).length := by
  have hle : ∀ ns : List String,
      (cutTexts t (noDates t ns) i).length ≤ (cutTexts t ns i).length := fun ns =>
    (List.filter_sublist.flatMap _).length_le
  obtain ⟨before, after, rfl⟩ := List.append_of_mem hname
  have hpos : 0 < ((textAt t i name).splitOn '|').length :=
    List.length_pos_iff.mpr (List.splitOn_ne_nil _ _)
  have hbefore := hle before
  have hafter := hle after
  simp only [cutTexts, noDates, List.filter_append, List.filter_cons, hdate, ne_eq,
    not_true_eq_false, decide_false, Bool.false_eq_true, if_false, List.flatMap_append,
    List.flatMap_cons, List.length_append] at hbefore hafter ⊢
  omega

/-- The keys of a row exist, and are equal to the keys of another row when
the pieces are. -/
theorem keys_eq_iff (dates dates' : Bool) {t t' : ColMap} {names names' : List String}
    {i i' : Nat} (hstored : ∀ name ∈ names, (t.get name).Stored)
    (hrow : ∀ name ∈ names, ∃ v, (t.get name).value? i = some v)
    (hstored' : ∀ name ∈ names', (t'.get name).Stored)
    (hrow' : ∀ name ∈ names', ∃ v, (t'.get name).value? i' = some v) :
    ∃ key key', hashKey dates t names i = some key ∧ hashKey dates' t' names' i' = some key' ∧
      (key = key' ↔ cutTexts t (names.filter (keyed dates t)) i =
        cutTexts t' (names'.filter (keyed dates' t')) i') := by
  obtain ⟨key, hkey, htext⟩ := hashKey_spec dates hstored hrow
  obtain ⟨key', hkey', htext'⟩ := hashKey_spec dates' hstored' hrow'
  refine ⟨key, key', hkey, hkey', ?_⟩
  rw [← String.toList_inj, htext, htext', joined_eq_iff]
  simp [cutTexts, List.flatMap_map]

theorem cutTexts_congr {t t' : ColMap} {columns : List (String × String)} {i i' : Nat}
    (h : ∀ p ∈ columns, (t.get p.1).value? i = (t'.get p.2).value? i') :
    cutTexts t (columns.map Prod.fst) i = cutTexts t' (columns.map Prod.snd) i' := by
  unfold cutTexts
  rw [List.flatMap_map, List.flatMap_map]
  exact List.flatMap_congr fun p hp => by simp [textAt, h p hp]

/-- The keys of the two rows tell whether the rows are equal: where the
values are equal no column is a DATE, and where they differ, so do the texts
cut at `|`, with the DATE columns of the probed row left out. -/
def KeysTell (built probed : ColMap) (columns : List (String × String)) (i r : Nat) : Prop :=
  (EqualOn built probed columns i r → ∀ p ∈ columns, (built.get p.1).type ≠ .date) ∧
  (¬ EqualOn built probed columns i r → cutTexts built (columns.map Prod.fst) i ≠
    cutTexts probed (noDates probed (columns.map Prod.snd)) r)

theorem keysTell_iff {built probed : ColMap} {columns : List (String × String)} {i r : Nat}
    (hcolumns : Comparable built probed columns) :
    ((cutTexts built (columns.map Prod.fst) i =
      cutTexts probed (noDates probed (columns.map Prod.snd)) r) ↔
        EqualOn built probed columns i r) ↔ KeysTell built probed columns i r := by
  unfold KeysTell
  by_cases heq : EqualOn built probed columns i r
  · simp only [heq, iff_true, true_implies, not_true_eq_false, false_implies, and_true]
    rw [cutTexts_congr heq]
    constructor
    · intro hcut p hp hdate
      have hshort := length_cutTexts_noDates (i := r) (List.mem_map_of_mem hp)
        ((hcolumns p hp).2.2.1.symm.trans hdate)
      rw [← hcut] at hshort
      exact Nat.lt_irrefl _ hshort
    · intro hnone
      have hall : noDates probed (columns.map Prod.snd) = columns.map Prod.snd := by
        refine List.filter_eq_self.mpr fun name hname => ?_
        obtain ⟨p, hp, rfl⟩ := List.mem_map.mp hname
        exact decide_eq_true fun hdate => hnone p hp ((hcolumns p hp).2.2.1.trans hdate)
      rw [hall]
  · simp only [heq, iff_false, false_implies, not_false_eq_true, true_implies, true_and, ne_eq]

/-- Integers, dates and strings have different texts when they differ. -/
theorem text_injective {c d : ColData} {i r : Nat} {v w : Value} (hsame : c.type = d.type)
    (hcase : c.type = .int ∨ c.type = .date ∨ c.type = .string) (hv : c.value? i = some v)
    (hw : d.value? r = some w) (h : v.text = w.text) : v = w := by
  unfold ColData.value? at hv hw
  rw [← hsame] at hw
  rcases hcase with ht | ht | ht <;> simp only [ht, Option.map_eq_some_iff] at hv hw
  case inr.inr =>
    obtain ⟨s, -, rfl⟩ := hv
    obtain ⟨t, -, rfl⟩ := hw
    exact congrArg Value.string h
  all_goals
    obtain ⟨m, -, rfl⟩ := hv
    obtain ⟨n, -, rfl⟩ := hw
    exact congrArg Value.int (intText_injective h)

/-- No DATE among the columns and no `|` in the strings compared: then the
keys tell. -/
theorem cutTexts_eq_iff {built probed : ColMap} {columns : List (String × String)} {i r : Nat}
    (htype : ∀ p ∈ columns, (built.get p.1).type = (probed.get p.2).type ∧
      ((built.get p.1).type = .int ∨ (built.get p.1).type = .string))
    (hvalues : ∀ p ∈ columns, ∃ v w, (built.get p.1).value? i = some v ∧
      (probed.get p.2).value? r = some w ∧ '|' ∉ v.text.toList ∧ '|' ∉ w.text.toList) :
    cutTexts built (columns.map Prod.fst) i =
      cutTexts probed (noDates probed (columns.map Prod.snd)) r ↔
        EqualOn built probed columns i r := by
  have hall : noDates probed (columns.map Prod.snd) = columns.map Prod.snd := by
    refine List.filter_eq_self.mpr fun name hname => ?_
    obtain ⟨p, hp, rfl⟩ := List.mem_map.mp hname
    refine decide_eq_true fun hdate => ?_
    obtain ⟨hsame, hcase⟩ := htype p hp
    rw [hsame, hdate] at hcase
    simp at hcase
  have hbuilt : cutTexts built (columns.map Prod.fst) i =
      columns.map fun p => textAt built i p.1 := by
    unfold cutTexts
    rw [List.flatMap_map]
    refine flatMap_splitOn fun p hp => ?_
    obtain ⟨v, w, hv, -, hbar, -⟩ := hvalues p hp
    simpa [textAt, hv] using hbar
  have hprobed : cutTexts probed (columns.map Prod.snd) r =
      columns.map fun p => textAt probed r p.2 := by
    unfold cutTexts
    rw [List.flatMap_map]
    refine flatMap_splitOn fun p hp => ?_
    obtain ⟨v, w, -, hw, -, hbar⟩ := hvalues p hp
    simpa [textAt, hw] using hbar
  rw [hall, hbuilt, hprobed, List.map_inj_left]
  refine forall_congr' fun p => forall_congr' fun hp => ?_
  obtain ⟨v, w, hv, hw, -, -⟩ := hvalues p hp
  obtain ⟨hsame, hcase⟩ := htype p hp
  rw [hv, hw, Option.some.injEq]
  simp only [textAt, hv, hw]
  refine ⟨fun htext => ?_, fun h => by rw [h]⟩
  exact text_injective hsame (hcase.imp_right .inr) hv hw (String.toList_inj.mp htext)

theorem Comparable.built_columns {built probed : ColMap} {columns : List (String × String)}
    (h : Comparable built probed columns) :
    ∀ name ∈ columns.map Prod.fst, name ∈ built ∧ (built.get name).Stored := by
  intro name hname
  obtain ⟨p, hp, rfl⟩ := List.mem_map.mp hname
  obtain ⟨hmem, -, -, hcase⟩ := h p hp
  refine ⟨hmem, ?_⟩
  unfold ColData.Stored
  tauto

theorem Comparable.probed_columns {built probed : ColMap} {columns : List (String × String)}
    (h : Comparable built probed columns) :
    ∀ name ∈ columns.map Prod.snd, name ∈ probed ∧ (probed.get name).Stored := by
  intro name hname
  obtain ⟨p, hp, rfl⟩ := List.mem_map.mp hname
  obtain ⟨-, hmem, htype, hcase⟩ := h p hp
  refine ⟨hmem, ?_⟩
  unfold ColData.Stored
  rw [← htype]
  tauto

/-- Both probe loops, against the keys of `createHashTable`. -/
theorem probe_keys_eq_iff {built probed : TableData} {n m : Nat} (hbuilt : built.WellFormed n)
    (hprobed : probed.WellFormed m) {columns : List (String × String)}
    (hcolumns : Comparable built.tableData probed.tableData columns) {i r : Nat} (hi : i < n)
    (hr : r < m) :
    ∃ key probe, buildKey built.tableData (columns.map Prod.fst) i = some key ∧
      hashKey false probed.tableData (columns.map Prod.snd) r = some probe ∧
      (key = probe ↔ cutTexts built.tableData (columns.map Prod.fst) i =
        cutTexts probed.tableData (noDates probed.tableData (columns.map Prod.snd)) r) := by
  obtain ⟨key, probe, hkey, hprobe, hiff⟩ := keys_eq_iff true false
    (fun name hname => (hcolumns.built_columns name hname).2)
    (fun name hname => ColData.value?_isSome
      (hbuilt.column name (hcolumns.built_columns name hname).1) hi)
    (fun name hname => (hcolumns.probed_columns name hname).2)
    (fun name hname => ColData.value?_isSome
      (hprobed.column name (hcolumns.probed_columns name hname).1) hr)
  rw [filter_keyed_true, filter_keyed_false] at hiff
  exact ⟨key, probe, hkey, hprobe, hiff⟩

/-- **Build and probe keys** agree if and only if the rows have equal values
in the equality columns, exactly where `KeysTell` holds. `InnerJoin_hash`
builds on the left table and probes with the right one, `LeftOuterJoin_hash`
the other way round. -/
theorem hash_keys_agree_iff {built probed : TableData} {n m : Nat} (hbuilt : built.WellFormed n)
    (hprobed : probed.WellFormed m) {columns : List (String × String)}
    (hcolumns : Comparable built.tableData probed.tableData columns) {i r : Nat} (hi : i < n)
    (hr : r < m) :
    ∃ key inner outer, buildKey built.tableData (columns.map Prod.fst) i = some key ∧
      innerJoinProbeKey probed.tableData (columns.map Prod.snd) r = some inner ∧
      leftOuterJoinProbeKey probed.tableData (columns.map Prod.snd) r = some outer ∧
      ((key = inner ↔ EqualOn built.tableData probed.tableData columns i r) ↔
        KeysTell built.tableData probed.tableData columns i r) ∧
      ((key = outer ↔ EqualOn built.tableData probed.tableData columns i r) ↔
        KeysTell built.tableData probed.tableData columns i r) := by
  obtain ⟨key, probe, hkey, hprobe, hiff⟩ :=
    probe_keys_eq_iff hbuilt hprobed hcolumns hi hr
  have htell := keysTell_iff (i := i) (r := r) hcolumns
  rw [← hiff] at htell
  exact ⟨key, probe, probe, hkey, hprobe, hprobe, htell, htell⟩

/-- A table with a STRING, a DATE and another STRING column, and one row. -/
def orderTable (comment : String) (shipped : Int) (priority : String) : TableData where
  tableData := ((∅ : ColMap).insert "comment"
    { type := .string, strvec := [comment], isnull := [false], rowCount := 1 }).insert "shipped"
    { type := .date, intvec := [shipped], isnull := [false], rowCount := 1 } |>.insert "priority"
    { type := .string, strvec := [priority], isnull := [false], rowCount := 1 }
  rowCount := 1
  status := .workDone

theorem orderTable_wellFormed (comment : String) (shipped : Int) (priority : String) :
    (orderTable comment shipped priority).WellFormed 1 := by
  have hcolumns : ∀ name ∈ (orderTable comment shipped priority).tableData,
      name = "priority" ∨ name = "shipped" ∨ name = "comment" := by
    intro name hname
    simpa [orderTable, ← AList.insert_empty] using hname
  constructor
  case count => rfl
  case column =>
    intro name hname
    rcases hcolumns name hname with rfl | rfl | rfl <;> exact ⟨rfl, rfl, rfl⟩
  case stored =>
    intro name hname
    rcases hcolumns name hname with rfl | rfl | rfl
    · exact .inl rfl
    · exact .inr (.inr (.inr rfl))
    · exact .inl rfl

theorem orderTable_comparable (a b a' b' : String) (d d' : Int) :
    Comparable (orderTable a d b).tableData (orderTable a' d' b').tableData
      [("comment", "comment"), ("priority", "priority")] := by
  intro p hp
  rcases List.mem_cons.mp hp with rfl | hp
  · exact ⟨by simp [orderTable, -AList.insert_empty], by simp [orderTable, -AList.insert_empty],
      rfl, .inr (.inr rfl)⟩
  · obtain rfl := List.mem_singleton.mp hp
    exact ⟨by simp [orderTable], by simp [orderTable], rfl, .inr (.inr rfl)⟩

theorem orderTable_keys_agree :
    ∃ key inner outer, buildKey (orderTable "a" 5 "b").tableData ["comment", "priority"] 0 =
        some key ∧
      innerJoinProbeKey (orderTable "a" 6 "b").tableData ["comment", "priority"] 0 =
        some inner ∧
      leftOuterJoinProbeKey (orderTable "a" 6 "b").tableData ["comment", "priority"] 0 =
        some outer ∧
      ((key = inner ↔ EqualOn (orderTable "a" 5 "b").tableData (orderTable "a" 6 "b").tableData
        [("comment", "comment"), ("priority", "priority")] 0 0) ↔
        KeysTell (orderTable "a" 5 "b").tableData (orderTable "a" 6 "b").tableData
          [("comment", "comment"), ("priority", "priority")] 0 0) ∧
      ((key = outer ↔ EqualOn (orderTable "a" 5 "b").tableData (orderTable "a" 6 "b").tableData
        [("comment", "comment"), ("priority", "priority")] 0 0) ↔
        KeysTell (orderTable "a" 5 "b").tableData (orderTable "a" 6 "b").tableData
          [("comment", "comment"), ("priority", "priority")] 0 0) :=
  hash_keys_agree_iff (orderTable_wellFormed "a" 5 "b") (orderTable_wellFormed "a" 6 "b")
    (orderTable_comparable "a" "b" "a" "b" 5 6) (by decide) (by decide)

/-- Equal dates are filed under `|5` and looked up under the empty key; the
strings `x|y`, `z` and `x`, `y|z` have one key. -/
theorem orderTable_keys_disagree :
    (EqualOn (orderTable "a" 5 "b").tableData (orderTable "a" 5 "b").tableData
        [("shipped", "shipped")] 0 0 ∧
      buildKey (orderTable "a" 5 "b").tableData ["shipped"] 0 = some "|5" ∧
      innerJoinProbeKey (orderTable "a" 5 "b").tableData ["shipped"] 0 = some "" ∧
      leftOuterJoinProbeKey (orderTable "a" 5 "b").tableData ["shipped"] 0 = some "") ∧
    (¬ EqualOn (orderTable "x|y" 5 "z").tableData (orderTable "x" 5 "y|z").tableData
        [("comment", "comment"), ("priority", "priority")] 0 0 ∧
      buildKey (orderTable "x|y" 5 "z").tableData ["comment", "priority"] 0 = some "|x|y|z" ∧
      innerJoinProbeKey (orderTable "x" 5 "y|z").tableData ["comment", "priority"] 0 =
        some "|x|y|z") := by
  unfold EqualOn
  decide

end KetiEngine.Merging
