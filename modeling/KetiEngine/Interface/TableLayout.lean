import KetiEngine.Interface.FormatTable
import KetiEngine.Lib.Ruled

/-!
# TableLayout — the lines of the table and what can be read off them

`formatTable` computes the width of each column from its texts, and of a DATE
column from nothing: it is 12, or the width of the name. A date that is wider
breaks the layout; without one the table is rectangular and is read back.
-/

namespace KetiEngine.Interface

open KetiEngine Merging Ruled

/-! ## The table as lines of cells -/

def tableStyle : Style Char where
  blank := ' '
  dash := '-'
  corner := '+'
  bar := '|'
  newline := '\n'
  corner_ne := by decide
  newline_ne := by decide

section
variable (result : QueryResult)

def columnWidths : List Nat := result.queryResult.entries.map fun e => maxColWidth e.1 e.2

def headerTexts : List (List Char) := result.queryResult.entries.map fun e => e.1.toList

/-- The texts of row `i`. -/
def rowTexts (i : Nat) : List (List Char) :=
  result.queryResult.entries.map fun e => (cellText e.2 i).toList

def bodyTexts : List (List (List Char)) :=
  (List.range result.rowCount.toNat).map (rowTexts result)

end

theorem toList_join (l : List String) : (String.join l).toList = l.flatMap String.toList := by
  induction l with
  | nil => rfl
  | cons s l ih => rw [String.join_cons, String.toList_append, ih, List.flatMap_cons]

theorem toList_setwLeft (width : Nat) (s : String) :
    (" " ++ setwLeft width s ++ " |").toList = tableStyle.cell width s.toList := by
  simp [setwLeft, Style.cell, tableStyle, String.length_toList]

theorem toList_cellLine (columns : List ((_ : String) × QueryResultColumn))
    (cell : (_ : String) × QueryResultColumn → String) :
    (cellLine columns cell).toList =
      tableStyle.line (columns.map fun e => maxColWidth e.1 e.2)
        (columns.map fun e => (cell e).toList) ++ ['\n'] := by
  rw [cellLine, String.toList_append, String.toList_append, toList_join, List.flatMap_map]
  have hcells : (columns.flatMap fun e =>
      (" " ++ setwLeft (maxColWidth e.1 e.2) (cell e) ++ " |").toList) =
        (List.zipWith tableStyle.cell (columns.map fun e => maxColWidth e.1 e.2)
          (columns.map fun e => (cell e).toList)).flatten := by
    rw [List.zipWith_map, List.zipWith_self, List.flatMap_def]
    exact congrArg List.flatten (List.map_congr_left fun e _ => toList_setwLeft _ _)
  rw [hcells]
  rfl

theorem toList_borderLine (columns : List ((_ : String) × QueryResultColumn)) :
    (borderLine columns).toList =
      tableStyle.rule (columns.map fun e => maxColWidth e.1 e.2) ++ ['\n'] := by
  rw [borderLine, String.toList_append, String.toList_append, toList_join, List.flatMap_map]
  simp [Style.rule, tableStyle, List.flatMap_map]

/-- **The text of a result is its table.** -/
theorem toList_formatTable (result : QueryResult) :
    (formatTable result).toList =
      tableStyle.table (columnWidths result) (headerTexts result) (bodyTexts result) := by
  have hrows : (String.join ((List.range result.rowCount.toNat).map fun i =>
      cellLine result.queryResult.entries fun e => cellText e.2 i)).toList =
        (bodyTexts result).flatMap fun row =>
          tableStyle.line (columnWidths result) row ++ ['\n'] := by
    rw [toList_join, List.flatMap_map, bodyTexts, List.flatMap_map]
    exact List.flatMap_congr fun i _ => toList_cellLine _ _
  simp only [formatTable, String.toList_append, hrows, toList_borderLine, toList_cellLine]
  simp [Style.table, Style.lines, columnWidths, headerTexts, tableStyle, List.flatMap_map]

/-! ## Texts and widths -/

theorem foldl_max_ge (l : List Nat) (a : Nat) : a ≤ l.foldl max a ∧ ∀ x ∈ l, x ≤ l.foldl max a := by
  induction l generalizing a with
  | nil => simp
  | cons b l ih =>
    obtain ⟨hstart, hall⟩ := ih (max a b)
    rw [List.foldl_cons]
    refine ⟨by omega, fun x hx => ?_⟩
    rcases List.mem_cons.mp hx with rfl | hx
    · omega
    · exact hall x hx

/-- A column is at least as wide as its name. -/
theorem length_le_maxColWidth (name : String) (col : QueryResultColumn) :
    name.length ≤ maxColWidth name col := by
  unfold maxColWidth
  cases col.colType with
  | string => exact (foldl_max_ge _ _).1
  | int => exact (foldl_max_ge _ _).1
  | float => exact (foldl_max_ge _ _).1
  | date => exact Nat.le_max_left _ _
  | empty => exact Nat.le_refl _

/-- The date of a row is not wider than its column. -/
def DateFits (name : String) (col : QueryResultColumn) (i : Nat) : Prop :=
  col.colType = .date → ∀ n, col.intCol[i]? = some n → (dateText n).length ≤ max name.length 12

/-- **Only dates can be too wide.** -/
theorem cellText_fits_iff (name : String) (col : QueryResultColumn) (i : Nat) :
    (cellText col i).length ≤ maxColWidth name col ↔ DateFits name col i := by
  unfold DateFits cellText maxColWidth
  cases col.colType with
  | string =>
    refine iff_of_true ?_ fun h => by cases h
    show (col.stringCol.getD i "").length ≤ _
    cases hi : col.stringCol[i]? with
    | none => simp [List.getD, hi]
    | some s =>
      rw [List.getD, hi]
      exact (foldl_max_ge _ _).2 _ (List.mem_map_of_mem (List.mem_of_getElem? hi))
  | int =>
    refine iff_of_true ?_ fun h => by cases h
    show ((col.intCol[i]?.map toString).getD "").length ≤ _
    cases hi : col.intCol[i]? with
    | none => exact Nat.zero_le _
    | some n =>
      exact (foldl_max_ge _ _).2 _ (List.mem_map.mpr ⟨n, List.mem_of_getElem? hi, rfl⟩)
  | float =>
    refine iff_of_true ?_ fun h => by cases h
    show ((col.doubleCol[i]?.map (fixedText col.realSize)).getD "").length ≤ _
    cases hi : col.doubleCol[i]? with
    | none => exact Nat.zero_le _
    | some x =>
      exact (foldl_max_ge _ _).2 _ (List.mem_map.mpr ⟨x, List.mem_of_getElem? hi, rfl⟩)
  | date =>
    show ((col.intCol[i]?.map dateText).getD "").length ≤ max name.length 12 ↔ _
    cases hi : col.intCol[i]? with
    | none => simp
    | some n => simp
  | empty => exact iff_of_true (Nat.zero_le _) fun h => by cases h

theorem length_twoDigits {n : Nat} (h : n < 100) : (twoDigits n).length = 2 := by
  have hpos := Nat.length_repr_pos (n := n)
  have hone := Nat.length_repr_le_iff (n := n) (k := 1) (by decide)
  have htwo := Nat.length_repr_le_iff (n := n) (k := 2) (by decide)
  have htext : (toString (n : Int)).length = n.repr.length := rfl
  unfold twoDigits
  rw [String.length_append, htext]
  by_cases hlt : n < 10
  · rw [if_pos (by omega)]
    have hlength : ("0" : String).length = 1 := rfl
    omega
  · rw [if_neg (by omega)]
    have hlength : ("" : String).length = 0 := rfl
    omega

/-- A packed date is too wide from the year 1000000 on. -/
theorem dateText_fits_iff (date : PackedDate) :
    (dateText date.packed).length ≤ 12 ↔ date.year < 1000000 := by
  have hmonth := date.month_lt
  have hday := date.day_lt
  have hyear : date.packed.tdiv 512 = date.year := Option.some.inj (datePart_packed .year date)
  have hmonths : (date.packed.tmod 512).tdiv 32 = date.month :=
    Option.some.inj (datePart_packed .month date)
  have hdays : (date.packed.tmod 512).tmod 32 = date.day :=
    Option.some.inj (datePart_packed .day date)
  have htext : (toString (date.year : Int)).length = date.year.repr.length := rfl
  have hdash : ("-" : String).length = 1 := rfl
  have hdigits := Nat.length_repr_le_iff (n := date.year) (k := 6) (by decide)
  rw [dateText, hyear, hmonths, hdays]
  simp only [String.length_append, htext, hdash, length_twoDigits (show date.month < 100 by omega),
    length_twoDigits (show date.day < 100 by omega)]
  omega

/-! ## Texts that can be read back -/

/-- A text without line breaks. -/
def NoBreak (s : String) : Prop := '\n' ∉ s.toList

/-- A text without blanks and line breaks. -/
def Plain (l : List Char) : Prop := ∀ c ∈ l, c ≠ ' ' ∧ c ≠ '\n'

theorem Plain.append {l m : List Char} (hl : Plain l) (hm : Plain m) : Plain (l ++ m) := by
  intro c hc
  rcases List.mem_append.mp hc with hc | hc
  · exact hl c hc
  · exact hm c hc

theorem Plain.trimmed {l : List Char} (h : Plain l) : tableStyle.Trimmed l := by
  unfold Style.Trimmed
  rw [List.rdropWhile_eq_self_iff]
  intro hne
  rw [decide_eq_true_eq]
  exact (h _ (List.getLast_mem hne)).1

theorem plain_intText (n : Int) : Plain (toString n).toList := by
  intro c hc
  rcases mem_intText hc with rfl | hdigit
  · decide
  · constructor
    · rintro rfl
      revert hdigit
      decide
    · rintro rfl
      revert hdigit
      decide

theorem plain_natText (n : Nat) : Plain (toString n).toList := plain_intText n

/-- The words that stand between numbers. -/
theorem plain_words : ∀ word ∈ ["", "0", "-", ".", "nan", "inf", "-inf"], Plain word.toList := by
  have hwords : ∀ word ∈ ["", "0", "-", ".", "nan", "inf", "-inf"],
      ' ' ∉ word.toList ∧ '\n' ∉ word.toList := by decide
  intro word hword c hc
  obtain ⟨hblank, hnewline⟩ := hwords word hword
  exact ⟨fun h => hblank (h ▸ hc), fun h => hnewline (h ▸ hc)⟩

theorem plain_twoDigits (n : Int) : Plain (twoDigits n).toList := by
  unfold twoDigits
  rw [String.toList_append]
  refine Plain.append ?_ (plain_intText n)
  split
  · exact plain_words "0" (by simp)
  · exact plain_words "" (by simp)

theorem plain_dateText (n : Int) : Plain (dateText n).toList := by
  have hdash := plain_words "-" (by simp)
  unfold dateText
  simp only [String.toList_append]
  exact ((((plain_intText _).append hdash).append (plain_twoDigits _)).append hdash).append
    (plain_twoDigits _)

theorem plain_fraction (digits zeros n : Nat) :
    Plain (if digits = 0 then ""
      else "." ++ String.ofList (List.replicate zeros '0') ++ toString n).toList := by
  split
  · exact plain_words "" (by simp)
  · rw [String.toList_append, String.toList_append]
    refine ((plain_words "." (by simp)).append ?_).append (plain_natText n)
    intro c hc
    rw [String.toList_ofList] at hc
    obtain rfl := List.eq_of_mem_replicate hc
    decide

theorem plain_fixedText (precision : Int) (x : Double) : Plain (fixedText precision x).toList := by
  cases x with
  | nan => exact plain_words "nan" (by simp)
  | inf s =>
    rw [fixedText]
    split
    · exact plain_words "-inf" (by simp)
    · exact plain_words "inf" (by simp)
  | fin q =>
    rw [fixedText, String.toList_append, String.toList_append]
    refine Plain.append (Plain.append ?_ (plain_natText _)) (plain_fraction _ _ _)
    split
    · exact plain_words "-" (by simp)
    · exact plain_words "" (by simp)

/-- What a row prints in a column that is not of strings has no blank. -/
theorem plain_cellText {col : QueryResultColumn} (h : col.colType ≠ .string) (i : Nat) :
    Plain (cellText col i).toList := by
  have hnone := plain_words "" (by simp)
  unfold cellText
  cases htype : col.colType with
  | string => exact absurd htype h
  | int =>
    show Plain ((col.intCol[i]?.map toString).getD "").toList
    cases col.intCol[i]? with
    | none => exact hnone
    | some n => exact plain_intText n
  | float =>
    show Plain ((col.doubleCol[i]?.map (fixedText col.realSize)).getD "").toList
    cases col.doubleCol[i]? with
    | none => exact hnone
    | some x => exact plain_fixedText _ x
  | date =>
    show Plain ((col.intCol[i]?.map dateText).getD "").toList
    cases col.intCol[i]? with
    | none => exact hnone
    | some n => exact plain_dateText n
  | empty => exact hnone

/-- A property of the names and of the strings of a result. -/
def AllTexts (P : String → Prop) (result : QueryResult) : Prop :=
  ∀ e ∈ result.queryResult.entries, P e.1 ∧
    (e.2.colType = .string → ∀ s ∈ e.2.stringCol, P s)

theorem AllTexts.cellText {P : String → Prop} {result : QueryResult} (h : AllTexts P result)
    (hnone : P "") (hplain : ∀ s : String, Plain s.toList → P s)
    {e : (_ : String) × QueryResultColumn} (he : e ∈ result.queryResult.entries) (i : Nat) :
    P (Interface.cellText e.2 i) := by
  by_cases htype : e.2.colType = .string
  · unfold Interface.cellText
    rw [htype]
    show P (e.2.stringCol.getD i "")
    cases hi : e.2.stringCol[i]? with
    | none =>
      rw [List.getD, hi]
      exact hnone
    | some s =>
      rw [List.getD, hi]
      exact (h e he).2 htype s (List.mem_of_getElem? hi)
  · exact hplain _ (plain_cellText htype i)

/-- No date that is printed is wider than its column. -/
def DatesFit (result : QueryResult) : Prop :=
  ∀ e ∈ result.queryResult.entries, ∀ i < result.rowCount.toNat, DateFits e.1 e.2 i

theorem fits_iff_datesFit (result : QueryResult) :
    (∀ texts ∈ headerTexts result :: bodyTexts result,
      Style.Fits (columnWidths result) texts) ↔ DatesFit result := by
  have hrow : ∀ i, Style.Fits (columnWidths result) (rowTexts result i) ↔
      ∀ e ∈ result.queryResult.entries, DateFits e.1 e.2 i := by
    intro i
    unfold Style.Fits columnWidths rowTexts
    rw [List.forall₂_map_left_iff, List.forall₂_map_right_iff, List.forall₂_same]
    refine forall₂_congr fun e _ => ?_
    rw [String.length_toList, cellText_fits_iff]
  have hheader : Style.Fits (columnWidths result) (headerTexts result) := by
    unfold Style.Fits columnWidths headerTexts
    rw [List.forall₂_map_left_iff, List.forall₂_map_right_iff, List.forall₂_same]
    intro e _
    rw [String.length_toList]
    exact length_le_maxColWidth e.1 e.2
  unfold DatesFit bodyTexts
  constructor
  · intro h e he i hi
    exact (hrow i).mp (h _ (List.mem_cons_of_mem _
      (List.mem_map_of_mem (List.mem_range.mpr hi)))) e he
  · intro h texts htexts
    rcases List.mem_cons.mp htexts with rfl | hmem
    · exact hheader
    · obtain ⟨i, hi, rfl⟩ := List.mem_map.mp hmem
      exact (hrow i).mpr fun e he => h e he i (List.mem_range.mp hi)

/-- Dates before the year 1000000 are printed within their columns. -/
theorem datesFit_of_packed {result : QueryResult}
    (h : ∀ e ∈ result.queryResult.entries, e.2.colType = .date → ∀ n ∈ e.2.intCol,
      ∃ date : PackedDate, n = date.packed ∧ date.year < 1000000) : DatesFit result := by
  intro e he i _ htype n hn
  obtain ⟨date, rfl, hyear⟩ := h e he htype n (List.mem_of_getElem? hn)
  have hwidth := (dateText_fits_iff date).mpr hyear
  omega

/-- **The table of a result** whose names and strings have no line breaks is
rectangular exactly when no date is wider than its column. Then, if no name or
string ends in a blank, its header and its rows are read off the text again,
whatever else the strings contain. -/
theorem formatTable_layout {result : QueryResult} (hbreak : AllTexts NoBreak result) :
    (tableStyle.Rectangular (formatTable result).toList ↔ DatesFit result) ∧
    (DatesFit result → AllTexts (fun s => tableStyle.Trimmed s.toList) result →
      tableStyle.read (formatTable result).toList = (headerTexts result, bodyTexts result)) := by
  have hall : ∀ P : String → Prop, AllTexts P result → P "" →
      (∀ s : String, Plain s.toList → P s) →
        ∀ texts ∈ headerTexts result :: bodyTexts result, ∀ text ∈ texts,
          ∃ s : String, text = s.toList ∧ P s := by
    intro P hP hnone hplain texts htexts text htext
    rcases List.mem_cons.mp htexts with rfl | hmem
    · obtain ⟨e, he, rfl⟩ := List.mem_map.mp htext
      exact ⟨e.1, rfl, (hP e he).1⟩
    · obtain ⟨i, -, rfl⟩ := List.mem_map.mp hmem
      obtain ⟨e, he, rfl⟩ := List.mem_map.mp htext
      exact ⟨_, rfl, hP.cellText hnone hplain he i⟩
  have hline : ∀ texts ∈ headerTexts result :: bodyTexts result, tableStyle.OneLine texts := by
    intro texts htexts text htext
    obtain ⟨s, rfl, hs⟩ := hall NoBreak hbreak (by unfold NoBreak; decide)
      (fun s hs hmem => (hs _ hmem).2 rfl) texts htexts text htext
    exact hs
  have hlength : ∀ texts ∈ headerTexts result :: bodyTexts result,
      texts.length = (columnWidths result).length := by
    intro texts htexts
    rcases List.mem_cons.mp htexts with rfl | hmem
    · simp [headerTexts, columnWidths]
    · obtain ⟨i, -, rfl⟩ := List.mem_map.mp hmem
      simp [rowTexts, columnWidths]
  rw [toList_formatTable]
  constructor
  · rw [Style.rectangular_table_iff hline hlength, fits_iff_datesFit]
  · intro hdates htrimmed
    refine Style.read_table hline ((fits_iff_datesFit result).mpr hdates) ?_
    intro texts htexts text htext
    obtain ⟨s, rfl, hs⟩ := hall (fun s => tableStyle.Trimmed s.toList) htrimmed rfl
      (fun s hs => hs.trimmed) texts htexts text htext
    exact hs

/-- Two orders, of different dates. -/
def orders : QueryResult where
  queryResult :=
    ((AList.singleton "shipped"
      { colType := .date, intCol := [shipDate.packed, 9] }).insert "price"
      { colType := .int, intCol := [-173665, 46929] }).insert "mode"
      { colType := .string, stringCol := ["REG AIR", "| + |"] }
  rowCount := 2

theorem entries_orders : orders.queryResult.entries = [
    ⟨"mode", { colType := .string, stringCol := ["REG AIR", "| + |"] }⟩,
    ⟨"price", { colType := .int, intCol := [-173665, 46929] }⟩,
    ⟨"shipped", { colType := .date, intCol := [shipDate.packed, 9] }⟩] := rfl

theorem allTexts_orders {P : String → Prop}
    (h : ∀ s ∈ ["mode", "REG AIR", "| + |", "price", "shipped"], P s) : AllTexts P orders := by
  simp only [List.forall_mem_cons, List.not_mem_nil, false_implies, implies_true] at h
  obtain ⟨hmode, hair, hbar, hprice, hshipped, -⟩ := h
  unfold AllTexts
  rw [entries_orders]
  simp [hmode, hair, hbar, hprice, hshipped]

theorem datesFit_orders : DatesFit orders := by
  refine datesFit_of_packed ?_
  rw [entries_orders]
  have hdates : ∀ n ∈ [shipDate.packed, 9],
      ∃ date : PackedDate, n = date.packed ∧ date.year < 1000000 := by
    simp only [List.forall_mem_cons, List.not_mem_nil, false_implies, implies_true, and_true]
    refine ⟨⟨shipDate, rfl, by simp [shipDate]⟩, ⟨0, 0, 9, by decide, by decide⟩, ?_, ?_⟩
    · simp [PackedDate.packed]
    · exact Nat.zero_lt_succ _
  simpa using hdates

theorem formatTable_layout_orders :
    tableStyle.Rectangular (formatTable orders).toList ∧
      tableStyle.read (formatTable orders).toList = (headerTexts orders, bodyTexts orders) := by
  obtain ⟨hrectangular, hread⟩ :=
    formatTable_layout (allTexts_orders (P := NoBreak) (by unfold NoBreak; decide))
  exact ⟨hrectangular.mpr datesFit_orders,
    hread datesFit_orders (allTexts_orders (by unfold Style.Trimmed; decide))⟩

end KetiEngine.Interface
