import KetiEngine.Lib.Packing
import KetiEngine.TmaxLib.Filter

/-!
# Chunks — `serialize_rpcols_to_chunk`

The rows that pass the filter are written into chunks. A row goes into the
last chunk where it has room, and into a new one otherwise. The pieces of
chained rows go into chunks of their own, each column at the beginning of the
chunk.
-/

namespace KetiEngine.TmaxLib

open KetiEngine

def resChunkSize : Nat := 65536 - 3

/-- A chunk, with the bytes up to the last one ever written. -/
structure Chunk where
  buf : List (Option UInt8) := []
  used : Nat := 0
deriving DecidableEq

structure ChunkList where
  resChunk : List Chunk := []
  chainedChunk : List Chunk := []
deriving DecidableEq

/-- `memcpy` of the `len` bytes at `src` to `buf + off`. Bytes that are skipped
stay as they come from `malloc`. -/
def copyTo (buf : List (Option UInt8)) (off : Nat) (src : Pointer) (len : Nat) :
    Option (List (Option UInt8)) :=
  if len ≤ src.length ∧ off + len ≤ resChunkSize then
    some (buf.take off ++ List.replicate (off - buf.length) none ++ (src.take len).map some ++
      buf.drop (off + len))
  else none

/-- The chunks before the one that is written to, and that one. -/
def openChunk (chunks : List Chunk) (totalLen : Nat) : List Chunk × Chunk :=
  match chunks.getLast? with
  | none => ([], {})
  | some chunk => if chunk.used + totalLen > resChunkSize then (chunks, {})
    else (chunks.dropLast, chunk)

/-- A round of the loop of `serialize_rpcols_to_chunk`. -/
def appendColumn (expCtx : ExpCtx) (chunk : Chunk) (i : Nat) : Option Chunk := do
  let val ← expCtx.val i
  let colLen ← rpcolGetLen val
  let buf ← copyTo chunk.buf chunk.used val colLen
  some { buf, used := chunk.used + colLen }

def serializeRpcolsToChunk (expCtx : ExpCtx) (colCnt : Int) (chunkList : ChunkList)
    (totalLen : Nat) : Option ChunkList := do
  let (before, chunk) := openChunk chunkList.resChunk totalLen
  let chunk ← (List.range colCnt.toNat).foldlM (appendColumn expCtx) chunk
  some { chunkList with resChunk := before ++ [chunk] }

/-- A round of the loop of `serialize_rpcols_to_chained_chunk`: the column goes
to `buf`, not to `buf + used`. -/
def overwriteColumn (expCtx : ExpCtx) (chunk : Chunk) (i : Nat) : Option Chunk := do
  let val ← expCtx.val i
  let colLen ← (expCtx.columnValLens[i]?).join
  let buf ← copyTo chunk.buf 0 val colLen.toNat
  some { buf, used := chunk.used + colLen.toNat }

def serializeRpcolsToChainedChunk (expCtx : ExpCtx) (colCnt : Int) (chunkList : ChunkList)
    (totalLen : Nat) : Option ChunkList := do
  let (before, chunk) := openChunk chunkList.chainedChunk totalLen
  let chunk ← (List.range colCnt.toNat).foldlM (overwriteColumn expCtx) chunk
  some { chunkList with chainedChunk := before ++ [chunk] }

/-- A relation with a list that has a last element. -/
theorem forall₂_concat_right {α β : Type} {R : α → β → Prop} {as : List α} {bs : List β} {b : β}
    (h : List.Forall₂ R as (bs ++ [b])) :
    ∃ before a, as = before ++ [a] ∧ List.Forall₂ R before bs ∧ R a b := by
  have hbefore := List.forall₂_take_append as bs [b] h
  have hlast := List.forall₂_drop_append as bs [b] h
  obtain ⟨a, _, ha, hnil, hdrop⟩ := List.forall₂_cons_right_iff.mp hlast
  obtain rfl := List.forall₂_nil_right_iff.mp hnil
  exact ⟨as.take bs.length, a, by rw [← hdrop, List.take_append_drop], hbefore, ha⟩

/-! ## What a chunk holds -/

/-- The chunk is the bytes, up to its last one. -/
def Chunk.Is (chunk : Chunk) (bytes : List UInt8) : Prop :=
  chunk.buf = bytes.map some ∧ chunk.used = bytes.length ∧ bytes.length ≤ resChunkSize

theorem copyTo_is {chunk : Chunk} {bytes : List UInt8} (h : chunk.Is bytes) (src : List UInt8)
    (rest : Pointer) :
    copyTo chunk.buf chunk.used (src ++ rest) src.length =
      if bytes.length + src.length ≤ resChunkSize then some ((bytes ++ src).map some)
      else none := by
  obtain ⟨hbuf, hused, -⟩ := h
  unfold copyTo
  rw [hused, hbuf]
  by_cases hroom : bytes.length + src.length ≤ resChunkSize
  · rw [if_pos ⟨by simp, hroom⟩, if_pos hroom, List.take_of_length_le (by simp),
      List.drop_eq_nil_of_le (by simp), List.take_left]
    simp
  · rw [if_neg (fun h => hroom h.2), if_neg hroom]

/-- Writing columns one by one writes them all, where they have room. -/
theorem foldlM_appendColumn {ctx : ExpCtx} {cols : Nat → Column} {is : List Nat}
    (hcols : ∀ i ∈ is, ∃ rest, ctx.val i = some ((cols i).bytes ++ rest))
    {chunk : Chunk} {bytes : List UInt8} (h : chunk.Is bytes) :
    if bytes.length + (is.flatMap fun i => (cols i).bytes).length ≤ resChunkSize then
      ∃ chunk', is.foldlM (appendColumn ctx) chunk = some chunk' ∧
        chunk'.Is (bytes ++ is.flatMap fun i => (cols i).bytes)
    else is.foldlM (appendColumn ctx) chunk = none := by
  induction is generalizing chunk bytes with
  | nil => simpa [h.2.2] using h
  | cons i is ih =>
    obtain ⟨rest, hval⟩ := hcols i (by simp)
    have hlen := (cols i).rpcolGetLen rest
    have hcopy := copyTo_is h (cols i).bytes rest
    by_cases hroom : bytes.length + (cols i).bytes.length ≤ resChunkSize
    · rw [if_pos hroom] at hcopy
      have hround : appendColumn ctx chunk i =
          some ⟨(bytes ++ (cols i).bytes).map some, chunk.used + (cols i).bytes.length⟩ := by
        simp [appendColumn, hval, hlen, hcopy]
      have hchunk : Chunk.Is
          ⟨(bytes ++ (cols i).bytes).map some, chunk.used + (cols i).bytes.length⟩
          (bytes ++ (cols i).bytes) := ⟨rfl, by simp [h.2.1], by simpa using hroom⟩
      have hrest := ih (fun j hj => hcols j (by simp [hj])) hchunk
      rw [List.length_append, Nat.add_assoc, ← List.length_append, List.append_assoc] at hrest
      rw [List.foldlM_cons, hround, List.flatMap_cons]
      exact hrest
    · rw [if_neg hroom] at hcopy
      have hround : appendColumn ctx chunk i = none := by
        simp [appendColumn, hval, hlen, hcopy]
      rw [if_neg (by simp; omega), List.foldlM_cons, hround]
      rfl

/-! ## The rows in the chunks -/

/-- The first byte of `NULL_COLUMN`, which is a column of no data. -/
def nullCell : Column := ⟨[0], rfl⟩

/-- Column `i` in the output: the column, or null where it is not asked for or
the row has none. -/
def FilterInfo.outCell (f : FilterInfo) (row : Row) (i : Nat) : Column :=
  if Uses f.useCols i then row.columns.getD i nullCell else nullCell

/-- The bytes a row has in the output. -/
def FilterInfo.output (f : FilterInfo) (row : Row) : List UInt8 :=
  (List.range f.colCnt.toNat).flatMap fun i => (f.outCell row i).bytes

/-- The chunks hold the rows of the bins. -/
def HoldRows (f : FilterInfo) (chunks : List Chunk) (bins : List (List Row)) : Prop :=
  List.Forall₂ (fun chunk bin => chunk.Is (bin.flatMap f.output)) chunks bins

/-- The bins the rows go into. -/
def FilterInfo.packRows (f : FilterInfo) (rows : List Row) : List (List Row) :=
  Packing.pack resChunkSize (fun row => (f.output row).length) rows

/-- The columns of the evaluation are those of the row's output. -/
def ExpCtx.Outputs (ctx : ExpCtx) (f : FilterInfo) (row : Row) : Prop :=
  ∀ i < f.colCnt.toNat, ∃ rest, ctx.val i = some ((f.outCell row i).bytes ++ rest)

theorem load_output (f : FilterInfo) (bin : List Row) :
    Packing.load (fun row => (f.output row).length) bin = (bin.flatMap f.output).length := by
  rw [List.length_flatMap]
  rfl

theorem length_outCell_le {f : FilterInfo} (row : Row) {i : Nat} (hi : i < f.colCnt.toNat) :
    (f.outCell row i).bytes.length ≤ (f.output row).length := by
  rw [FilterInfo.output, List.length_flatMap]
  exact List.single_le_sum (by simp) _
    (List.mem_map.mpr ⟨i, List.mem_range.mpr hi, rfl⟩)

theorem chunk_is_empty : Chunk.Is {} [] := ⟨rfl, rfl, Nat.zero_le _⟩

theorem openChunk_concat (before : List Chunk) (chunk : Chunk) (totalLen : Nat) :
    openChunk (before ++ [chunk]) totalLen =
      if chunk.used + totalLen > resChunkSize then (before ++ [chunk], {})
      else (before, chunk) := by
  simp [openChunk]

theorem HoldRows.concat {f : FilterInfo} {chunks : List Chunk} {bins : List (List Row)}
    (h : HoldRows f chunks bins) {chunk : Chunk} {bin : List Row}
    (his : chunk.Is (bin.flatMap f.output)) : HoldRows f (chunks ++ [chunk]) (bins ++ [bin]) :=
  List.rel_append h (.cons his .nil)

/-- A row that fits into a chunk goes where packing puts it, and the others
write beyond the chunk. -/
theorem serializeRpcolsToChunk_row {f : FilterInfo} {ctx : ExpCtx} {row : Row}
    (hctx : ctx.Outputs f row) {chunkList : ChunkList} {bins : List (List Row)}
    (hbins : HoldRows f chunkList.resChunk bins) {totalLen : Nat}
    (htotal : (f.output row).length ≤ resChunkSize → totalLen = (f.output row).length) :
    if (f.output row).length ≤ resChunkSize then
      ∃ chunkList', serializeRpcolsToChunk ctx f.colCnt chunkList totalLen = some chunkList' ∧
        chunkList'.chainedChunk = chunkList.chainedChunk ∧
        HoldRows f chunkList'.resChunk
          (Packing.place resChunkSize (fun row => (f.output row).length) bins row)
    else serializeRpcolsToChunk ctx f.colCnt chunkList totalLen = none := by
  have hcols : ∀ i ∈ List.range f.colCnt.toNat, ∃ rest,
      ctx.val i = some ((f.outCell row i).bytes ++ rest) :=
    fun i hi => hctx i (List.mem_range.mp hi)
  -- writing the row behind what the open chunk holds
  have hwrite : ∀ {before : List Chunk} {chunk : Chunk} {bytes : List UInt8},
      openChunk chunkList.resChunk totalLen = (before, chunk) → chunk.Is bytes →
      if bytes.length + (f.output row).length ≤ resChunkSize then
        ∃ chunk', serializeRpcolsToChunk ctx f.colCnt chunkList totalLen =
            some { chunkList with resChunk := before ++ [chunk'] } ∧
          chunk'.Is (bytes ++ f.output row)
      else serializeRpcolsToChunk ctx f.colCnt chunkList totalLen = none := by
    intro before chunk bytes hopen his
    have hloop := foldlM_appendColumn hcols his
    rw [serializeRpcolsToChunk, hopen]
    change if bytes.length + (f.output row).length ≤ resChunkSize then _ else _ at hloop
    split at hloop
    · rename_i hroom
      obtain ⟨chunk', hrun, his'⟩ := hloop
      rw [if_pos hroom]
      exact ⟨chunk', by simp [hrun], his'⟩
    · rename_i hroom
      rw [if_neg hroom]
      simp [hloop]
  rcases List.eq_nil_or_concat bins with rfl | ⟨bins, bin, rfl⟩
  · -- the first chunk
    have hnil : chunkList.resChunk = [] := List.forall₂_nil_right_iff.mp hbins
    have hwrite := hwrite (by rw [openChunk, hnil]; rfl) chunk_is_empty
    rw [List.length_nil, Nat.zero_add] at hwrite
    split at hwrite
    · obtain ⟨chunk', hrun, his⟩ := hwrite
      rw [if_pos ‹_›, Packing.place_nil]
      refine ⟨_, hrun, rfl, .cons ?_ .nil⟩
      simpa using his
    · rwa [if_neg ‹_›]
  · rw [List.concat_eq_append] at hbins ⊢
    obtain ⟨before, chunk, hchunks, hbefore, his⟩ := forall₂_concat_right hbins
    have hused : chunk.used = (bin.flatMap f.output).length := his.2.1
    by_cases hfits : (f.output row).length ≤ resChunkSize
    · rw [if_pos hfits, Packing.place_concat, load_output]
      obtain rfl := htotal hfits
      by_cases hroom : (bin.flatMap f.output).length + (f.output row).length ≤ resChunkSize
      · -- the row stays in the last chunk
        have hwrite := hwrite (by rw [hchunks, openChunk_concat, if_neg (by omega)]) his
        rw [if_pos hroom] at hwrite ⊢
        obtain ⟨chunk', hrun, his'⟩ := hwrite
        exact ⟨_, hrun, rfl, HoldRows.concat hbefore (by simpa using his')⟩
      · have hwrite := hwrite (by rw [hchunks, openChunk_concat, if_pos (by omega)]) chunk_is_empty
        rw [List.length_nil, Nat.zero_add, if_pos hfits] at hwrite
        rw [if_neg hroom]
        obtain ⟨chunk', hrun, his'⟩ := hwrite
        exact ⟨_, hrun, rfl, hchunks ▸ hbins.concat (by simpa using his')⟩
    · rw [if_neg hfits]
      -- whichever chunk is open, the row goes beyond its end
      by_cases hfull : chunk.used + totalLen > resChunkSize
      · have hwrite := hwrite (by rw [hchunks, openChunk_concat, if_pos hfull]) chunk_is_empty
        rwa [List.length_nil, Nat.zero_add, if_neg hfits] at hwrite
      · have hwrite := hwrite (by rw [hchunks, openChunk_concat, if_neg hfull]) his
        rwa [if_neg (by omega)] at hwrite

/-- The output of the first `colCnt` columns, where the row has those that are
used. Each length is taken modulo `2 ^ 16`. -/
theorem setColOut_columns {f : FilterInfo} (hf : f.WellFormed) {ctx : ExpCtx} {row : Row}
    {rest : Pointer} (hctx : ctx.Shows f row rest) (hholds : ctx.Holds f.colCnt.toNat)
    {colCnt : Int} (hle : colCnt.toNat ≤ f.colCnt.toNat)
    (hrow : ∀ i < colCnt.toNat, Uses f.useCols i → i < row.columns.length) :
    ∃ ctx', setColOut ctx colCnt (some f.useCols) f.useColCnt = some (ctx',
        ((List.range colCnt.toNat).map fun i =>
          (UInt16.ofNat (f.outCell row i).bytes.length).toNat).sum) ∧
      ctx'.Holds f.colCnt.toNat ∧ ∀ i < colCnt.toNat,
        (∃ behind, ctx'.val i = some ((f.outCell row i).bytes ++ behind)) ∧
        ctx'.columnValLens[i]? = some (some (UInt16.ofNat (f.outCell row i).bytes.length)) := by
  have hflags : f.colCnt.toNat ≤ f.useCols.length := by
    have := hf.useCols
    omega
  let out := fun i => if Uses f.useCols i then row.pointer rest i else nullColumn
  have hcell : ∀ i < colCnt.toNat, ∃ behind, out i = (f.outCell row i).bytes ++ behind := by
    intro i hi
    by_cases hused : Uses f.useCols i
    · have hget : row.columns[i]? = some (row.columns.getD i nullCell) := by
        simp [hrow i hi hused]
      simp only [out, FilterInfo.outCell, if_pos hused]
      exact row.pointer_of_column hget rest
    · exact ⟨[0, 0, 0], by simp [out, FilterInfo.outCell, hused, nullCell, nullColumn]⟩
  obtain ⟨ctx', hrun, hholds', hout⟩ := setColOut_spec f.useColCnt out
    (fun i => (f.outCell row i).bytes.length) (hle.trans hflags) hholds hle (fun i hi => by
      obtain ⟨behind, hbehind⟩ := hcell i hi
      by_cases hused : Uses f.useCols i
      · rw [if_pos hused, hctx i (by omega) (hrow i hi hused) hused]
        exact ⟨by simp [out, hused], by rw [hbehind, Column.rpcolGetLen]⟩
      · simp [out, hused, FilterInfo.outCell, nullCell])
  refine ⟨ctx', hrun, hholds', fun i hi => ?_⟩
  obtain ⟨behind, hbehind⟩ := hcell i hi
  exact ⟨⟨behind, by rw [(hout i hi).1, hbehind]⟩, (hout i hi).2⟩

/-- The row has every column the filter uses, and the macros agree on the
headers of its columns. -/
structure FilterInfo.Reads (f : FilterInfo) (row : Row) : Prop where
  plain : ∀ c ∈ row.columns, c.Plain
  columns : ∀ i < f.colCnt.toNat, Uses f.useCols i → i < row.columns.length

instance (f : FilterInfo) (row : Row) : Decidable (f.Reads row) :=
  decidable_of_iff ((∀ c ∈ row.columns, c.Plain) ∧
      ∀ i < f.colCnt.toNat, Uses f.useCols i → i < row.columns.length)
    ⟨fun h => ⟨h.1, h.2⟩, fun h => ⟨h.plain, h.columns⟩⟩

/-- The output of a row. The lengths modulo `2 ^ 16` only matter for rows that
do not fit. -/
theorem setColOut_row {f : FilterInfo} (hf : f.WellFormed) {ctx : ExpCtx} {row : Row}
    {rest : Pointer} (hctx : ctx.Shows f row rest) (hholds : ctx.Holds f.colCnt.toNat)
    (hrow : f.Reads row) :
    ∃ ctx' totalLen, setColOut ctx f.colCnt (some f.useCols) f.useColCnt = some (ctx', totalLen) ∧
      ctx'.Holds f.colCnt.toNat ∧ ctx'.Outputs f row ∧
      ((f.output row).length ≤ resChunkSize → totalLen = (f.output row).length) := by
  obtain ⟨ctx', hrun, hholds', hout⟩ := setColOut_columns hf hctx hholds le_rfl hrow.columns
  refine ⟨ctx', _, hrun, hholds', fun i hi => (hout i hi).1, fun hfits => ?_⟩
  rw [FilterInfo.output, List.length_flatMap]
  refine congrArg _ (List.map_congr_left fun i hi => ?_)
  have hle := length_outCell_le row (List.mem_range.mp hi)
  simp only [UInt16.toNat_ofNat']
  exact Nat.mod_eq_of_lt (by unfold resChunkSize at hfits; omega)

end KetiEngine.TmaxLib
