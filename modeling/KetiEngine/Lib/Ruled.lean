import Mathlib.Data.List.Basic
import Mathlib.Data.List.DropRight
import Mathlib.Data.List.Forall2

/-!
# Ruled — tables in columns of fixed width

A table is a header and rows between rules; a cell is its text between a blank
and a blank with a bar, filled up to the width of its column. A text that is
too wide is not cut: its line gets longer than the rules. When all texts fit,
the rules tell the widths, and the widths where the texts are.
-/

namespace Ruled

variable {α : Type*}

/-- The symbols of a table. -/
structure Style (α : Type*) where
  blank : α
  dash : α
  corner : α
  bar : α
  newline : α
  corner_ne : corner ≠ dash
  newline_ne : newline ≠ blank ∧ newline ≠ dash ∧ newline ≠ corner ∧ newline ≠ bar

namespace Style

variable (st : Style α)

/-! ## Writing -/

def cell (width : ℕ) (text : List α) : List α :=
  st.blank :: (text ++ List.replicate (width - text.length) st.blank ++ [st.blank, st.bar])

def line (widths : List ℕ) (texts : List (List α)) : List α :=
  st.bar :: (List.zipWith st.cell widths texts).flatten

def rule (widths : List ℕ) : List α :=
  st.corner :: widths.flatMap fun w => List.replicate (w + 2) st.dash ++ [st.corner]

def lines (widths : List ℕ) (header : List (List α)) (rows : List (List (List α))) :
    List (List α) :=
  st.rule widths :: st.line widths header :: st.rule widths ::
    (rows.map (st.line widths) ++ [st.rule widths])

def table (widths : List ℕ) (header : List (List α)) (rows : List (List (List α))) : List α :=
  (st.lines widths header rows).flatMap (· ++ [st.newline])

/-! ## How long the lines are -/

/-- All texts are within the widths. -/
def Fits : List ℕ → List (List α) → Prop := List.Forall₂ fun w text => text.length ≤ w

theorem length_cell (w : ℕ) (text : List α) : (st.cell w text).length = max w text.length + 3 := by
  simp only [cell, List.length_cons, List.length_append, List.length_replicate, List.length_nil]
  omega

/-- A line is as long as a rule, or longer when a text does not fit. -/
theorem length_line {widths : List ℕ} {texts : List (List α)}
    (h : texts.length = widths.length) :
    (st.rule widths).length ≤ (st.line widths texts).length ∧
      ((st.line widths texts).length = (st.rule widths).length ↔ Fits widths texts) := by
  induction widths generalizing texts with
  | nil =>
    obtain rfl := List.eq_nil_of_length_eq_zero h
    exact ⟨Nat.le_refl _, fun _ => .nil, fun _ => rfl⟩
  | cons w widths ih =>
    cases texts with
    | nil => cases h
    | cons text texts =>
      obtain ⟨hle, heq⟩ := ih (Nat.succ.inj h)
      have hfits : Fits (w :: widths) (text :: texts) ↔ text.length ≤ w ∧ Fits widths texts :=
        List.forall₂_cons
      have hcell := st.length_cell w text
      have hline : (st.line (w :: widths) (text :: texts)).length =
          (st.cell w text).length + (st.line widths texts).length := by
        simp only [line, List.zipWith_cons_cons, List.flatten_cons, List.length_cons,
          List.length_append]
        omega
      have hrule : (st.rule (w :: widths)).length = w + 3 + (st.rule widths).length := by
        simp only [rule, List.flatMap_cons, List.length_cons, List.length_append,
          List.length_replicate, List.length_nil]
        omega
      rw [hfits, ← heq, hline, hrule, hcell]
      omega

/-! ## Reading -/

section
variable [DecidableEq α]

/-- The widths a rule shows. -/
def widths (rule : List α) : List ℕ :=
  ((rule.splitOn st.corner).drop 1).dropLast.map fun dashes => dashes.length - 2

/-- The texts of a line behind its first bar, without the blanks at their
ends. -/
def cut : List ℕ → List α → List (List α)
  | [], _ => []
  | w :: ws, line =>
      ((line.drop 1).take w).rdropWhile (· = st.blank) :: cut ws (line.drop (w + 3))

/-- The header and the rows of a table. -/
def read (table : List α) : List (List α) × List (List (List α)) :=
  let lines := (table.splitOn st.newline).dropLast
  let widths := st.widths (lines.headD [])
  let texts := fun line => st.cut widths (line.drop 1)
  (texts (lines.getD 1 []), ((lines.drop 3).dropLast).map texts)

/-- All lines of the table are equally long. -/
def Rectangular (table : List α) : Prop :=
  ∀ l ∈ (table.splitOn st.newline).dropLast, ∀ l' ∈ (table.splitOn st.newline).dropLast,
    l.length = l'.length

/-- Pieces that are each ended by a separator are split again. -/
theorem splitOn_ended {sep : α} {pieces : List (List α)} (h : ∀ piece ∈ pieces, sep ∉ piece) :
    (pieces.flatMap (· ++ [sep])).splitOn sep = pieces ++ [[]] := by
  induction pieces with
  | nil => simp
  | cons piece pieces ih =>
    rw [List.flatMap_cons, List.append_assoc, List.singleton_append,
      List.splitOn_append_cons_self, ih fun p hp => h p (by simp [hp]),
      List.splitOn_eq_singleton (h piece (by simp))]
    rfl

theorem widths_rule (widths : List ℕ) : st.widths (st.rule widths) = widths := by
  have hsplit : (st.rule widths).splitOn st.corner =
      [] :: ((widths.map fun w => List.replicate (w + 2) st.dash) ++ [[]]) := by
    have hended : ((widths.map fun w => List.replicate (w + 2) st.dash).flatMap
        (· ++ [st.corner])).splitOn st.corner =
          (widths.map fun w => List.replicate (w + 2) st.dash) ++ [[]] := by
      refine splitOn_ended fun piece hp => ?_
      obtain ⟨w, -, rfl⟩ := List.mem_map.mp hp
      exact fun hmem => st.corner_ne (List.eq_of_mem_replicate hmem)
    rw [List.flatMap_map] at hended
    show ([] ++ st.corner :: widths.flatMap fun w =>
      List.replicate (w + 2) st.dash ++ [st.corner]).splitOn st.corner = _
    rw [List.splitOn_append_cons_self, hended]
    rfl
  rw [Style.widths, hsplit]
  simp [List.map_map, Function.comp_def]

/-- A text that does not end in a blank. -/
def Trimmed (text : List α) : Prop := text.rdropWhile (· = st.blank) = text

theorem rdropWhile_append_replicate (text : List α) (n : ℕ) :
    (text ++ List.replicate n st.blank).rdropWhile (· = st.blank) =
      text.rdropWhile (· = st.blank) := by
  induction n with
  | zero => simp
  | succ n ih =>
    rw [List.replicate_succ', ← List.append_assoc, List.rdropWhile_concat_pos _ _ _ (by simp), ih]

/-- A line of texts that fit is cut into them. -/
theorem cut_line {widths : List ℕ} {texts : List (List α)} (hfits : Fits widths texts)
    (htrimmed : ∀ text ∈ texts, st.Trimmed text) :
    st.cut widths ((st.line widths texts).drop 1) = texts := by
  show st.cut widths (List.zipWith st.cell widths texts).flatten = texts
  induction hfits with
  | nil => rfl
  | @cons w text widths texts hw _ ih =>
    have hpadded : (text ++ List.replicate (w - text.length) st.blank).length = w := by
      rw [List.length_append, List.length_replicate]
      omega
    have hcell := st.length_cell w text
    rw [max_eq_left hw] at hcell
    rw [List.zipWith_cons_cons, List.flatten_cons, cut, List.drop_left' hcell,
      ih fun t ht => htrimmed t (List.mem_cons_of_mem _ ht)]
    congr 1
    rw [cell, List.cons_append, List.drop_succ_cons, List.drop_zero, List.append_assoc,
      List.take_left' hpadded, rdropWhile_append_replicate]
    exact htrimmed text List.mem_cons_self

end

/-! ## The whole table -/

/-- No text has a newline in it. -/
def OneLine (texts : List (List α)) : Prop := ∀ text ∈ texts, st.newline ∉ text

theorem newline_notMem_rule (widths : List ℕ) : st.newline ∉ st.rule widths := by
  obtain ⟨-, hdash, hcorner, -⟩ := st.newline_ne
  simp only [rule, List.mem_cons, List.mem_flatMap, List.mem_append, List.mem_replicate, not_or,
    not_exists, not_and, List.not_mem_nil]
  exact ⟨hcorner, fun w _ => ⟨fun _ => hdash, hcorner, not_false⟩⟩

theorem newline_notMem_cell (w : ℕ) {text : List α} (h : st.newline ∉ text) :
    st.newline ∉ st.cell w text := by
  obtain ⟨hblank, -, -, hbar⟩ := st.newline_ne
  simp only [cell, List.mem_cons, List.mem_append, List.mem_replicate, not_or, not_and,
    List.not_mem_nil]
  exact ⟨hblank, ⟨h, fun _ => hblank⟩, hblank, hbar, not_false⟩

theorem newline_notMem_line (widths : List ℕ) {texts : List (List α)} (h : st.OneLine texts) :
    st.newline ∉ st.line widths texts := by
  obtain ⟨-, -, -, hbar⟩ := st.newline_ne
  have hcells : st.newline ∉ (List.zipWith st.cell widths texts).flatten := by
    induction widths generalizing texts with
    | nil => simp
    | cons w widths ih =>
      cases texts with
      | nil => simp
      | cons text texts =>
        rw [List.zipWith_cons_cons, List.flatten_cons, List.mem_append, not_or]
        exact ⟨st.newline_notMem_cell w (h text List.mem_cons_self),
          ih fun t ht => h t (List.mem_cons_of_mem _ ht)⟩
  simp only [line, List.mem_cons, not_or]
  exact ⟨hbar, hcells⟩

section
variable [DecidableEq α] {st} {widths : List ℕ} {header : List (List α)}
  {rows : List (List (List α))} (hline : ∀ texts ∈ header :: rows, st.OneLine texts)
include hline

theorem splitOn_table :
    ((st.table widths header rows).splitOn st.newline).dropLast =
      st.lines widths header rows := by
  have hall : ∀ l ∈ st.lines widths header rows, st.newline ∉ l := by
    intro l hl
    simp only [lines, List.mem_cons, List.mem_append, List.mem_map, List.not_mem_nil,
      or_false] at hl
    rcases hl with rfl | rfl | rfl | ⟨row, hrow, rfl⟩ | rfl
    · exact st.newline_notMem_rule widths
    · exact st.newline_notMem_line widths (hline header List.mem_cons_self)
    · exact st.newline_notMem_rule widths
    · exact st.newline_notMem_line widths (hline row (List.mem_cons_of_mem _ hrow))
    · exact st.newline_notMem_rule widths
  rw [table, splitOn_ended hall, List.dropLast_concat]

/-- **A table is rectangular** exactly when all of its texts fit. -/
theorem rectangular_table_iff
    (hlength : ∀ texts ∈ header :: rows, texts.length = widths.length) :
    st.Rectangular (st.table widths header rows) ↔
      ∀ texts ∈ header :: rows, Fits widths texts := by
  have hmem : ∀ texts ∈ header :: rows, st.line widths texts ∈ st.lines widths header rows := by
    intro texts htexts
    rcases List.mem_cons.mp htexts with rfl | hrow
    · simp [lines]
    · simp only [lines, List.mem_cons, List.mem_append, List.mem_map]
      exact .inr (.inr (.inr (.inl ⟨texts, hrow, rfl⟩)))
  unfold Rectangular
  rw [splitOn_table hline]
  constructor
  · intro h texts htexts
    have hrule : st.rule widths ∈ st.lines widths header rows := List.mem_cons_self
    exact (st.length_line (hlength texts htexts)).2.mp (h _ (hmem texts htexts) _ hrule)
  · intro hfits
    -- each line is as long as the rules
    have hall : ∀ l ∈ st.lines widths header rows, l.length = (st.rule widths).length := by
      intro l hl
      simp only [lines, List.mem_cons, List.mem_append, List.mem_map, List.not_mem_nil,
        or_false] at hl
      rcases hl with rfl | rfl | rfl | ⟨row, hrow, rfl⟩ | rfl
      · rfl
      · exact (st.length_line (hlength header List.mem_cons_self)).2.mpr
          (hfits header List.mem_cons_self)
      · rfl
      · have htexts := List.mem_cons_of_mem header hrow
        exact (st.length_line (hlength row htexts)).2.mpr (hfits row htexts)
      · rfl
    exact fun l hl l' hl' => (hall l hl).trans (hall l' hl').symm

/-- **A table is read back** when its texts fit and do not end in blanks. -/
theorem read_table (hfits : ∀ texts ∈ header :: rows, Fits widths texts)
    (htrimmed : ∀ texts ∈ header :: rows, ∀ text ∈ texts, st.Trimmed text) :
    st.read (st.table widths header rows) = (header, rows) := by
  have hcut : ∀ texts ∈ header :: rows,
      st.cut widths ((st.line widths texts).drop 1) = texts := fun texts htexts =>
    st.cut_line (hfits texts htexts) (htrimmed texts htexts)
  have hrows : ((st.lines widths header rows).drop 3).dropLast = rows.map (st.line widths) := by
    simp [lines]
  unfold read
  simp only [splitOn_table hline, hrows]
  simp only [lines, List.headD_cons, List.getD_cons_succ, List.getD_cons_zero, widths_rule]
  rw [hcut header List.mem_cons_self, List.map_map]
  have hback : rows.map ((fun line => st.cut widths (line.drop 1)) ∘ st.line widths) = rows := by
    conv_rhs => rw [← List.map_id rows]
    exact List.map_congr_left fun row hrow => hcut row (List.mem_cons_of_mem _ hrow)
  rw [hback]

end

end Style

end Ruled
