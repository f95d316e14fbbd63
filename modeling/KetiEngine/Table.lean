import KetiEngine.Types
import KetiEngine.Text
import Mathlib.Data.List.AList

/-!
# Table — column-wise tables

`ColData` and `TableData` of `buffer_manager.h`: a table is a map from
column names to columns, a column keeps three value vectors of which its
type names one, a null list and its own row count. Nothing in these types
forces the vectors to agree; that they do is `ColData.HasLength`, and
`row`/`rows` read a table the way a query does.
-/

namespace KetiEngine

/-- One entry of the value vector a column's type names. -/
inductive Value where
  | string (s : String)
  | int (n : Int)
  | float (x : Double)
  deriving DecidableEq

def Value.string? : Value → Option String
  | .string s => some s
  | _ => none

def Value.int? : Value → Option Int
  | .int n => some n
  | _ => none

def Value.float? : Value → Option Double
  | .float x => some x
  | _ => none

/-- The text of a value in a key. -/
def Value.text : Value → String
  | .string s => s
  | .int n => toString n
  | .float x => x.toText

/-- The values the vector of a column type can hold. -/
def VectorType.Accepts : VectorType → Value → Prop
  | .string, .string _ | .int, .int _ | .date, .int _ | .float, .float _ => True
  | _, _ => False

theorem Value.map_string? {v : Value} (h : VectorType.string.Accepts v) :
    v.string?.map .string = some v := by
  cases v with
  | string s => rfl
  | int n => exact h.elim
  | float x => exact h.elim

theorem Value.map_int? {v : Value} (h : VectorType.int.Accepts v) :
    v.int?.map .int = some v := by
  cases v with
  | int n => rfl
  | string s => exact h.elim
  | float x => exact h.elim

theorem Value.map_int?_date {v : Value} (h : VectorType.date.Accepts v) :
    v.int?.map .int = some v := by
  cases v with
  | int n => rfl
  | string s => exact h.elim
  | float x => exact h.elim

theorem Value.map_float? {v : Value} (h : VectorType.float.Accepts v) :
    v.float?.map .float = some v := by
  cases v with
  | float x => rfl
  | string s => exact h.elim
  | int n => exact h.elim

theorem Value.string?_eq_none {type : VectorType} {v : Value} (h : type.Accepts v)
    (hne : type ≠ .string) : v.string? = none := by
  cases v with
  | string s => cases type <;> first | exact absurd rfl hne | exact h.elim
  | int n => rfl
  | float x => rfl

theorem Value.int?_eq_none {type : VectorType} {v : Value} (h : type.Accepts v)
    (hint : type ≠ .int) (hdate : type ≠ .date) : v.int? = none := by
  cases v with
  | int n => cases type <;> first | exact absurd rfl hint | exact absurd rfl hdate | exact h.elim
  | string s => rfl
  | float x => rfl

theorem Value.float?_eq_none {type : VectorType} {v : Value} (h : type.Accepts v)
    (hne : type ≠ .float) : v.float? = none := by
  cases v with
  | float x => cases type <;> first | exact absurd rfl hne | exact h.elim
  | string s => rfl
  | int n => rfl

/-- A list of values of one kind, taken out of its vector again. -/
theorem Value.map_filterMap {β : Type} {f : Value → Option β} {g : β → Value} {vs : List Value}
    (h : ∀ v ∈ vs, (f v).map g = some v) : (vs.filterMap f).map g = vs := by
  rw [List.map_filterMap, List.filterMap_congr h, List.filterMap_some]

theorem Value.length_filterMap {β : Type} {f : Value → Option β} {g : β → Value}
    {vs : List Value} (h : ∀ v ∈ vs, (f v).map g = some v) :
    (vs.filterMap f).length = vs.length := by
  rw [← List.length_map, Value.map_filterMap h]

/-- One cell of a table as a query sees it. -/
structure Cell where
  value : Value
  isnull : Bool
  deriving DecidableEq

structure ColData where
  strvec : List String := []
  intvec : List Int := []
  floatvec : List Double := []
  isnull : List Bool := []
  type : VectorType := .empty
  rowCount : Int := 0
  realSize : Int := 0
  deriving DecidableEq

instance : Inhabited ColData := ⟨{}⟩

/-- `unordered_map<string, ColData>`; the order of the entries is the
unspecified iteration order. -/
abbrev ColMap := AList (fun _ : String => ColData)

namespace ColMap

/-- `m[name]`, read: a missing column reads as a new one. -/
def get (m : ColMap) (name : String) : ColData := (m.lookup name).getD {}

/-- `m[name]`, written through. -/
def modify (m : ColMap) (name : String) (f : ColData → ColData) : ColMap :=
  m.insert name (f (m.get name))

/-- `m.insert({name, c})`: an existing column stays. -/
def insertNew (m : ColMap) (name : String) (c : ColData) : ColMap :=
  if name ∈ m then m else m.insert name c

@[simp] theorem get_insert (m : ColMap) (name : String) (c : ColData) :
    get (m.insert name c) name = c := by
  simp [get]

theorem get_insert_ne (m : ColMap) {name other : String} (c : ColData)
    (h : other ≠ name) : get (m.insert name c) other = get m other := by
  simp [get, AList.lookup_insert_ne h]

@[simp] theorem get_modify (m : ColMap) (name : String) (f : ColData → ColData) :
    get (modify m name f) name = f (get m name) := by
  simp [modify]

theorem get_modify_ne (m : ColMap) {name other : String}
    (f : ColData → ColData) (h : other ≠ name) :
    get (modify m name f) other = get m other := by
  simp [modify, get_insert_ne m _ h]

theorem mem_modify {m : ColMap} {name other : String}
    {f : ColData → ColData} :
    other ∈ modify m name f ↔ other = name ∨ other ∈ m := by
  simp [modify]

theorem lookup_eq_get {m : ColMap} {name : String} (h : name ∈ m) :
    m.lookup name = some (get m name) := by
  obtain ⟨c, hc⟩ := Option.isSome_iff_exists.mp (AList.lookup_isSome.mpr h)
  simp [get, hc]

theorem get_of_lookup {m : ColMap} {name : String} {c : ColData}
    (h : m.lookup name = some c) : get m name = c := by
  simp [get, h]

theorem get_of_notMem {m : ColMap} {name : String} (h : name ∉ m) :
    get m name = {} := by
  simp [get, AList.lookup_eq_none.mpr h]

theorem mem_insertNew {m : ColMap} {name other : String} {c : ColData} :
    other ∈ insertNew m name c ↔ other = name ∨ other ∈ m := by
  unfold insertNew
  split
  · rename_i hmem
    exact ⟨.inr, fun h => h.elim (fun he => he ▸ hmem) id⟩
  · simp

theorem get_insertNew_ne (m : ColMap) {name other : String} (c : ColData)
    (h : other ≠ name) : get (insertNew m name c) other = get m other := by
  unfold insertNew
  split
  · rfl
  · exact get_insert_ne m c h

/-- A new default column reads as the missing one did. -/
theorem get_insertNew_default (m : ColMap) (name other : String) :
    get (insertNew m name {}) other = get m other := by
  by_cases h : other = name
  · subst h
    unfold insertNew
    split
    · rfl
    · rename_i hmem
      rw [get_insert, get_of_notMem hmem]
  · exact get_insertNew_ne m {} h

/-- A loop that updates the columns of a list leaves the others alone. -/
theorem get_foldl_modify_notMem {β : Type} (f : β → ColData → ColData)
    (ps : List (String × β)) (m : ColMap) {name : String}
    (h : name ∉ ps.map Prod.fst) :
    get (ps.foldl (fun m p => modify m p.1 (f p.2)) m) name = get m name := by
  induction ps generalizing m with
  | nil => rfl
  | cons p ps ih =>
    simp only [List.map_cons, List.mem_cons, not_or] at h
    rw [List.foldl_cons, ih _ h.2, get_modify_ne m _ h.1]

theorem mem_foldl_modify {β : Type} (f : β → ColData → ColData)
    (ps : List (String × β)) (m : ColMap) {name : String} :
    name ∈ ps.foldl (fun m p => modify m p.1 (f p.2)) m ↔
      name ∈ ps.map Prod.fst ∨ name ∈ m := by
  induction ps generalizing m with
  | nil => simp
  | cons p ps ih =>
    rw [List.foldl_cons, ih, mem_modify, List.map_cons, List.mem_cons]
    tauto

/-- A loop that updates each column of a list once: what becomes of one of
them. -/
theorem get_foldl_modify {β : Type} (f : β → ColData → ColData)
    (ps : List (String × β)) (m : ColMap) (hnodup : (ps.map Prod.fst).Nodup)
    {name : String} {b : β} (hmem : (name, b) ∈ ps) :
    get (ps.foldl (fun m p => modify m p.1 (f p.2)) m) name = f b (get m name) := by
  induction ps generalizing m with
  | nil => simp at hmem
  | cons p ps ih =>
    obtain ⟨hfirst, hnodup⟩ := List.nodup_cons.mp hnodup
    rw [List.foldl_cons]
    rcases List.mem_cons.mp hmem with rfl | hmem
    · rw [get_foldl_modify_notMem f ps _ hfirst, get_modify]
    · have hne : name ≠ p.1 := fun he => hfirst (he ▸ List.mem_map_of_mem hmem)
      rw [ih _ hnodup hmem, get_modify_ne m _ hne]

/-- A loop over the columns of `source` that updates each column of the same
name in `target`. -/
theorem foldl_entries (f : ColData → ColData → ColData) (source target : ColMap) {t : ColMap}
    (ht : t = source.entries.foldl (fun m e => modify m e.1 (f e.2)) target) :
    (∀ name, name ∈ t ↔ name ∈ source ∨ name ∈ target) ∧
    (∀ name, name ∉ source → get t name = get target name) ∧
    ∀ name ∈ source, get t name = f (get source name) (get target name) := by
  have hfold : t = (source.entries.map fun e => (e.1, e.2)).foldl
      (fun m p => modify m p.1 (f p.2)) target := by rw [ht, List.foldl_map]
  have hkeys : (source.entries.map fun e => (e.1, e.2)).map Prod.fst = source.keys := by
    rw [List.map_map]
    rfl
  rw [hfold]
  refine ⟨fun name => ?_, fun name hname => ?_, fun name hname => ?_⟩
  · rw [mem_foldl_modify, hkeys, ← AList.mem_keys]
  · exact get_foldl_modify_notMem f _ target fun h => hname (AList.mem_keys.mpr (hkeys ▸ h))
  · refine get_foldl_modify f _ target (hkeys ▸ source.keys_nodup) (List.mem_map.mpr ?_)
    exact ⟨⟨name, get source name⟩, AList.mem_lookup_iff.mp (lookup_eq_get hname), rfl⟩

theorem mem_of_entry {m : ColMap} {e : (_ : String) × ColData}
    (h : e ∈ m.entries) : m.lookup e.1 = some e.2 :=
  AList.mem_lookup_iff.mpr h

/-- A loop over the columns of `source` whose rounds succeed: `g` gives what
becomes of each column of `target`. -/
theorem foldlM_entries {f : ColData → ColData → Option ColData} {g : String → ColData}
    {source target : ColMap}
    (h : ∀ name ∈ source, f (get source name) (get target name) = some (g name)) :
    ∃ t, source.entries.foldlM (fun t e => (f e.2 (get t e.1)).map (t.insert e.1 ·)) target =
        some t ∧
      (∀ name, name ∈ t ↔ name ∈ source ∨ name ∈ target) ∧
      (∀ name, name ∉ source → get t name = get target name) ∧
      ∀ name ∈ source, get t name = g name := by
  have hloop : ∀ (es : List ((_ : String) × ColData)) (t : ColMap), (es.map Sigma.fst).Nodup →
      (∀ e ∈ es, f e.2 (get t e.1) = some (g e.1)) →
      es.foldlM (fun t e => (f e.2 (get t e.1)).map (t.insert e.1 ·)) t =
        some ((es.map fun e => (e.1, g e.1)).foldl (fun m p => modify m p.1 fun _ => p.2) t) := by
    intro es
    induction es with
    | nil => exact fun _ _ _ => rfl
    | cons e es ih =>
      intro t hnodup he
      obtain ⟨hfirst, hnodup⟩ := List.nodup_cons.mp hnodup
      rw [List.foldlM_cons, he e (by simp)]
      refine ih _ hnodup fun e' he' => ?_
      -- the round before was about another column
      have hne : e'.1 ≠ e.1 := fun heq => hfirst (heq ▸ List.mem_map_of_mem he')
      rw [get_insert_ne t _ hne]
      exact he e' (by simp [he'])
  have hkeys : (source.entries.map fun e => (e.1, g e.1)).map Prod.fst = source.keys := by
    rw [List.map_map]
    rfl
  refine ⟨_, hloop source.entries target source.keys_nodup fun e he => ?_, fun name => ?_,
    fun name hname => ?_, fun name hname => ?_⟩
  · rw [← h e.1 (AList.mem_keys.mp (List.mem_map_of_mem he)), get_of_lookup (mem_of_entry he)]
  · rw [mem_foldl_modify (fun b _ => b), hkeys, ← AList.mem_keys]
  · exact get_foldl_modify_notMem (fun b _ => b) _ target
      fun hmem => hname (AList.mem_keys.mpr (hkeys ▸ hmem))
  · refine get_foldl_modify (fun b _ => b) _ target (hkeys ▸ source.keys_nodup) ?_
    exact List.mem_map.mpr ⟨⟨name, get source name⟩,
      AList.mem_lookup_iff.mp (lookup_eq_get hname), rfl⟩

end ColMap

namespace ColData

/-- `c` after the values `vs`, none of them null, have been appended, each
to the vector for its kind. -/
def appendValues (c : ColData) (vs : List Value) : ColData :=
  { c with
    strvec := c.strvec ++ vs.filterMap Value.string?
    intvec := c.intvec ++ vs.filterMap Value.int?
    floatvec := c.floatvec ++ vs.filterMap Value.float?
    isnull := c.isnull ++ List.replicate vs.length false
    rowCount := c.rowCount + vs.length }

/-- The length of the value vector the type names. -/
def vecLength (c : ColData) : Nat :=
  match c.type with
  | .string => c.strvec.length
  | .int | .date => c.intvec.length
  | .float => c.floatvec.length
  | .empty | .boolean => 0

/-- The value vector, the null list and the row count agree on `n` rows. -/
structure HasLength (c : ColData) (n : Nat) : Prop where
  vec : c.vecLength = n
  null : c.isnull.length = n
  count : c.rowCount = n

/-- The types a stored column can have. -/
def Stored (c : ColData) : Prop :=
  c.type = .string ∨ c.type = .int ∨ c.type = .float ∨ c.type = .date

instance (c : ColData) : Decidable c.Stored := by
  unfold Stored; infer_instance

/-- Only the value vector the type names is in use. -/
structure OneVector (c : ColData) : Prop where
  str : c.type ≠ .string → c.strvec = []
  int : c.type ≠ .int → c.type ≠ .date → c.intvec = []
  float : c.type ≠ .float → c.floatvec = []

/-- Entry `i` of the value vector the type names. -/
def value? (c : ColData) (i : Nat) : Option Value :=
  match c.type with
  | .string => c.strvec[i]?.map .string
  | .int | .date => c.intvec[i]?.map .int
  | .float => c.floatvec[i]?.map .float
  | .empty | .boolean => none

def cell? (c : ColData) (i : Nat) : Option Cell :=
  match c.value? i, c.isnull[i]? with
  | some v, some b => some ⟨v, b⟩
  | _, _ => none

/-- `vec.push_back(v)` into the vector for values of this kind. -/
def pushValue (c : ColData) : Value → ColData
  | .string s => { c with strvec := c.strvec ++ [s] }
  | .int n => { c with intvec := c.intvec ++ [n] }
  | .float x => { c with floatvec := c.floatvec ++ [x] }

/-- `isnull.push_back(b); row_count++`. -/
def pushNull (c : ColData) (b : Bool) : ColData :=
  { c with isnull := c.isnull ++ [b], rowCount := c.rowCount + 1 }

theorem getElem?_of_initial {α : Type} {l l' : List α} (h : l <+: l') {i : Nat} {a : α}
    (ha : l[i]? = some a) : l'[i]? = some a := by
  obtain ⟨t, rfl⟩ := h
  rw [List.getElem?_append_left (List.getElem?_eq_some_iff.mp ha).1, ha]

/-- Every vector of `c` is an initial part of the same vector of `d`. -/
structure Extends (c d : ColData) : Prop where
  str : c.strvec <+: d.strvec
  int : c.intvec <+: d.intvec
  float : c.floatvec <+: d.floatvec
  null : c.isnull <+: d.isnull
  type : c.type = d.type
  size : c.realSize = d.realSize
  count : c.rowCount ≤ d.rowCount

theorem Extends.refl (c : ColData) : Extends c c :=
  ⟨List.prefix_rfl, List.prefix_rfl, List.prefix_rfl, List.prefix_rfl, rfl, rfl,
    Int.le_refl _⟩

theorem Extends.trans {c d e : ColData} (h : Extends c d) (h' : Extends d e) :
    Extends c e :=
  ⟨h.str.trans h'.str, h.int.trans h'.int, h.float.trans h'.float,
    h.null.trans h'.null, h.type.trans h'.type, h.size.trans h'.size,
    Int.le_trans h.count h'.count⟩

theorem Extends.pushValue (c : ColData) (v : Value) : Extends c (c.pushValue v) := by
  cases v <;> exact ⟨by simp [ColData.pushValue], by simp [ColData.pushValue],
    by simp [ColData.pushValue], List.prefix_rfl, rfl, rfl, Int.le_refl _⟩

theorem Extends.pushNull (c : ColData) (b : Bool) : Extends c (c.pushNull b) := by
  refine ⟨List.prefix_rfl, List.prefix_rfl, List.prefix_rfl, ?_, rfl, rfl, ?_⟩
  · simp [ColData.pushNull]
  · simp only [ColData.pushNull]
    omega

@[simp] theorem appendValues_nil (c : ColData) : c.appendValues [] = c := by
  simp [appendValues]

theorem appendValues_append (c : ColData) (vs ws : List Value) :
    c.appendValues (vs ++ ws) = (c.appendValues vs).appendValues ws := by
  simp [appendValues, ← List.replicate_append_replicate, Int.add_assoc]

/-- Appending one value is the pair of pushes every writer makes. -/
theorem appendValues_singleton (c : ColData) (v : Value) :
    c.appendValues [v] = (c.pushValue v).pushNull false := by
  cases v <;> simp [appendValues, ColData.pushValue, ColData.pushNull, Value.string?,
    Value.int?, Value.float?]

theorem Extends.appendValues (c : ColData) (vs : List Value) :
    Extends c (c.appendValues vs) := by
  refine ⟨?_, ?_, ?_, ?_, rfl, rfl, ?_⟩
  all_goals simp [ColData.appendValues]

/-- Appending values of the column's kind keeps the column rectangular. -/
theorem HasLength.appendValues {c : ColData} {n : Nat} (h : c.HasLength n)
    {vs : List Value} (hvs : ∀ v ∈ vs, c.type.Accepts v) :
    (c.appendValues vs).HasLength (n + vs.length) := by
  refine ⟨?_, by simp [ColData.appendValues, h.null], by
    simp [ColData.appendValues, h.count]⟩
  have hvec := h.vec
  unfold vecLength at hvec ⊢
  simp only [ColData.appendValues, List.length_append]
  cases ht : c.type <;> simp only [ht] at hvec hvs ⊢
  case empty | boolean =>
    have hnil : vs = [] := List.eq_nil_iff_forall_not_mem.mpr fun v hv => hvs v hv
    simp [hnil, hvec]
  case string => rw [Value.length_filterMap fun v hv => Value.map_string? (hvs v hv), hvec]
  case int => rw [Value.length_filterMap fun v hv => Value.map_int? (hvs v hv), hvec]
  case date => rw [Value.length_filterMap fun v hv => Value.map_int?_date (hvs v hv), hvec]
  case float => rw [Value.length_filterMap fun v hv => Value.map_float? (hvs v hv), hvec]

/-- The cells of a column that was empty before its values came. -/
theorem cell?_appendValues_new {type : VectorType} {realSize : Int} {vs : List Value}
    (hvs : ∀ v ∈ vs, type.Accepts v) (i : Nat) :
    (appendValues { type, realSize } vs).cell? i = vs[i]?.map fun v => ⟨v, false⟩ := by
  have hvalue : (appendValues { type, realSize } vs).value? i = vs[i]? := by
    unfold value? appendValues
    cases type with
    | string =>
      simp only [List.nil_append, ← List.getElem?_map]
      rw [Value.map_filterMap fun v hv => Value.map_string? (hvs v hv)]
    | int =>
      simp only [List.nil_append, ← List.getElem?_map]
      rw [Value.map_filterMap fun v hv => Value.map_int? (hvs v hv)]
    | date =>
      simp only [List.nil_append, ← List.getElem?_map]
      rw [Value.map_filterMap fun v hv => Value.map_int?_date (hvs v hv)]
    | float =>
      simp only [List.nil_append, ← List.getElem?_map]
      rw [Value.map_filterMap fun v hv => Value.map_float? (hvs v hv)]
    | empty | boolean =>
      have hnil : vs = [] := List.eq_nil_iff_forall_not_mem.mpr fun v hv => hvs v hv
      simp [hnil]
  unfold cell?
  rw [hvalue]
  cases hv : vs[i]? with
  | none => rfl
  | some v =>
    have hi : i < vs.length := (List.getElem?_eq_some_iff.mp hv).1
    simp [appendValues, hi]

theorem oneVector_appendValues_new {type : VectorType} {realSize : Int} {vs : List Value}
    (hvs : ∀ v ∈ vs, type.Accepts v) : (appendValues { type, realSize } vs).OneVector := by
  constructor
  case str =>
    intro hne
    simpa [appendValues] using fun v hv => Value.string?_eq_none (hvs v hv) hne
  case int =>
    intro hint hdate
    simpa [appendValues] using fun v hv => Value.int?_eq_none (hvs v hv) hint hdate
  case float =>
    intro hne
    simpa [appendValues] using fun v hv => Value.float?_eq_none (hvs v hv) hne

theorem value?_isSome {c : ColData} {n i : Nat} (h : c.HasLength n) (hi : i < n) :
    ∃ v, c.value? i = some v := by
  have hv := h.vec
  unfold vecLength at hv
  unfold value?
  cases ht : c.type <;> simp only [ht] at hv ⊢
  case empty | boolean => omega
  all_goals
    rw [List.getElem?_eq_getElem (by omega)]
    exact ⟨_, rfl⟩

theorem cell?_isSome {c : ColData} {n i : Nat} (h : c.HasLength n) (hi : i < n) :
    ∃ x, c.cell? i = some x := by
  obtain ⟨v, hv⟩ := value?_isSome h hi
  have hn : i < c.isnull.length := h.null.symm ▸ hi
  exact ⟨⟨v, c.isnull[i]⟩, by simp [cell?, hv, List.getElem?_eq_getElem hn]⟩

theorem cell?_eq_some_iff {c : ColData} {i : Nat} {x : Cell} :
    c.cell? i = some x ↔ c.value? i = some x.value ∧ c.isnull[i]? = some x.isnull := by
  obtain ⟨v, b⟩ := x
  unfold cell?
  cases c.value? i with
  | none => simp
  | some w =>
    cases c.isnull[i]? with
    | none => simp
    | some b' => simp

theorem value?_of_cell? {c : ColData} {i : Nat} {x : Cell} (h : c.cell? i = some x) :
    c.value? i = some x.value :=
  (cell?_eq_some_iff.mp h).1

theorem isnull_of_cell? {c : ColData} {i : Nat} {x : Cell} (h : c.cell? i = some x) :
    c.isnull[i]? = some x.isnull :=
  (cell?_eq_some_iff.mp h).2

/-- Equal cells have equal null flags. -/
theorem isnull_eq_of_cell?_eq {c d : ColData} {i j n : Nat} (hd : d.HasLength n) (hj : j < n)
    (h : c.cell? i = d.cell? j) : c.isnull[i]? = d.isnull[j]? := by
  obtain ⟨x, hx⟩ := cell?_isSome hd hj
  rw [isnull_of_cell? (h.trans hx), isnull_of_cell? hx]

theorem Extends.oneVector {c d : ColData} (h : Extends c d) (hd : d.OneVector) :
    c.OneVector := by
  constructor
  case str => exact fun hne => List.prefix_nil.mp (hd.str (h.type ▸ hne) ▸ h.str)
  case int =>
    exact fun hne hne' => List.prefix_nil.mp (hd.int (h.type ▸ hne) (h.type ▸ hne') ▸ h.int)
  case float => exact fun hne => List.prefix_nil.mp (hd.float (h.type ▸ hne) ▸ h.float)

/-- A value a column already has is the same in every extension of it. -/
theorem Extends.value? {c d : ColData} (h : Extends c d) {i : Nat} {v : Value}
    (hv : c.value? i = some v) : d.value? i = some v := by
  unfold ColData.value? at hv ⊢
  rw [← h.type]
  cases ht : c.type <;> simp only [ht, Option.map_eq_some_iff, reduceCtorEq] at hv ⊢
  case string => exact hv.imp fun a ha => ⟨getElem?_of_initial h.str ha.1, ha.2⟩
  case int | date => exact hv.imp fun a ha => ⟨getElem?_of_initial h.int ha.1, ha.2⟩
  case float => exact hv.imp fun a ha => ⟨getElem?_of_initial h.float ha.1, ha.2⟩

theorem Extends.cell? {c d : ColData} (h : Extends c d) {i : Nat} {x : Cell}
    (hx : c.cell? i = some x) : d.cell? i = some x := by
  unfold ColData.cell? at hx ⊢
  cases hv : c.value? i with
  | none => simp [hv] at hx
  | some v =>
    cases hn : c.isnull[i]? with
    | none => simp [hv, hn] at hx
    | some b =>
      rw [hv, hn] at hx
      rw [h.value? hv, getElem?_of_initial h.null hn]
      exact hx

end ColData

structure TableData where
  scannedRowCount : Int := 0
  filteredRowCount : Int := 0
  tableData : ColMap := ∅
  rowCount : Int := 0
  status : WorkStatus := .initialized

namespace TableData

/-- Row `i` in the columns `names`. -/
def row (t : TableData) (names : List String) (i : Nat) : List (Option Cell) :=
  names.map fun name => (t.tableData.get name).cell? i

/-- All rows in the columns `names`. -/
def rows (t : TableData) (names : List String) : List (List (Option Cell)) :=
  (List.range t.rowCount.toNat).map (t.row names)

/-- `u` has every column of `t`, each with the entries of `t` first. -/
structure Extends (t u : TableData) : Prop where
  names : ∀ name ∈ t.tableData, name ∈ u.tableData
  columns : ∀ name ∈ t.tableData, (t.tableData.get name).Extends (u.tableData.get name)
  count : t.rowCount ≤ u.rowCount

theorem Extends.refl (t : TableData) : t.Extends t :=
  ⟨fun _ h => h, fun _ _ => .refl _, Int.le_refl _⟩

theorem Extends.trans {t u v : TableData} (h : t.Extends u) (h' : u.Extends v) :
    t.Extends v :=
  ⟨fun name hn => h'.names name (h.names name hn),
    fun name hn => (h.columns name hn).trans (h'.columns name (h.names name hn)),
    Int.le_trans h.count h'.count⟩

/-- A rectangular table of storable columns with `n` rows. -/
structure WellFormed (t : TableData) (n : Nat) : Prop where
  count : t.rowCount = n
  column : ∀ name ∈ t.tableData, (t.tableData.get name).HasLength n
  stored : ∀ name ∈ t.tableData, (t.tableData.get name).Stored

theorem WellFormed.toNat_rowCount {t : TableData} {n : Nat} (h : t.WellFormed n) :
    t.rowCount.toNat = n := by
  simp [h.count]

theorem WellFormed.rowCount_pos {t : TableData} {n : Nat} (h : t.WellFormed n) (hn : 0 < n) :
    0 < t.rowCount := by
  rw [h.count]
  omega

@[simp] theorem row_length (t : TableData) (names : List String) (i : Nat) :
    (t.row names i).length = names.length := by
  simp [row]

end TableData

/-! ## Tables of numbers -/

namespace Merging

/-- A table with one INT column. -/
def numberTable (name : String) (ns : List Int) (status : WorkStatus) : TableData where
  tableData := AList.singleton name
    { type := .int, intvec := ns, isnull := ns.map fun _ => false, rowCount := ns.length }
  rowCount := ns.length
  status := status

theorem mem_numberTable {name name' : String} {ns : List Int} {status : WorkStatus} :
    name' ∈ (numberTable name ns status).tableData ↔ name' = name := by
  rw [numberTable, ← AList.insert_empty, AList.mem_insert]
  simp

theorem get_numberTable (name : String) (ns : List Int) (status : WorkStatus) :
    (numberTable name ns status).tableData.get name =
      { type := .int, intvec := ns, isnull := ns.map fun _ => false, rowCount := ns.length } := by
  rw [numberTable, ← AList.insert_empty, ColMap.get_insert]

theorem numberTable_wellFormed (name : String) (ns : List Int) (status : WorkStatus) :
    (numberTable name ns status).WellFormed ns.length := by
  constructor
  case count => rfl
  case column =>
    intro name' hname
    obtain rfl := mem_numberTable.mp hname
    rw [get_numberTable]
    exact ⟨rfl, by simp, rfl⟩
  case stored =>
    intro name' hname
    obtain rfl := mem_numberTable.mp hname
    rw [get_numberTable]
    exact .inr (.inl rfl)

theorem numberTable_extends (name : String) (ns ms : List Int) (status status' : WorkStatus) :
    (numberTable name ns status).Extends (numberTable name (ns ++ ms) status') := by
  refine ⟨fun name' hname => mem_numberTable.mpr (mem_numberTable.mp hname), ?_, by
    simp [numberTable]⟩
  intro name' hname
  obtain rfl := mem_numberTable.mp hname
  rw [get_numberTable, get_numberTable]
  exact ⟨List.prefix_rfl, List.prefix_append _ _, List.prefix_rfl,
    (List.prefix_append _ _).map _, rfl, rfl, by simp⟩

end Merging

end KetiEngine
