import KetiEngine.TmaxLib.Chained
import Mathlib.Data.List.ReduceOption

/-!
# Block — `csd_filter_and_eval_out`

A data block is read as it stands in memory: a header, a directory of its row
pieces, and the pieces. The live pieces are filtered, and what is left of them
is written into chunks.
-/

namespace KetiEngine.TmaxLib

open KetiEngine

/-! ## The layout -/

def headRowPiece : UInt8 := 0x20
def deletedRowPiece : UInt8 := 0x10
def firstpieceRowPiece : UInt8 := 0x08
def lastpieceRowPiece : UInt8 := 0x04
def lastcolContRowPiece : UInt8 := 0x01

/-- A block, byte for byte. -/
abbrev Blk := List UInt8

/-- The little-endian number in the `n` bytes at `off`. -/
def Blk.number (blk : Blk) (off n : Nat) : Option Nat :=
  if off + n ≤ blk.length then some (LittleEndian.toNat ((blk.drop off).take n)) else none

/-- `dblk_get_dl`: behind `itls[itlcnt - 1]`. The entries are of 24 bytes, and
the first of them is the 36th byte of the block. -/
def dblkGetDl (blk : Blk) : Option Nat := do
  let itlcnt ← blk[16]?
  some (36 + 24 * itlcnt.toNat)

/-- The row piece of a directory entry, or null where there is none or it is
not the head of a row. -/
def tableBlockGetRowPiece (blk : Blk) (rowno : Nat) : Option (Option Pointer) := do
  let dl ← dblkGetDl blk
  let rowdir ← blk.number (dl + 8 + 2 * rowno) 2
  if rowdir = 0 then
    some none
  else do
    let flags ← (blk.drop rowdir)[0]?
    if flags &&& headRowPiece = 0 ∨ flags &&& deletedRowPiece ≠ 0 then
      some none
    else some (some (blk.drop rowdir))

/-- The data of a piece, behind its header. -/
def rpGetData (rp : Pointer) : Option Pointer := do
  let flags ← rp[0]?
  some (rp.drop (if flags &&& lastpieceRowPiece ≠ 0 then 3 else 9))

/-! ## The scan -/

/-- The test of a row; without conditions every row passes. -/
def passes (filterInfo : FilterInfo) (tested : Bool) (expCtx : ExpCtx) : Option Bool :=
  if filterInfo.expCnt > 0 ∧ tested then expEvalAndCheckTrue filterInfo expCtx else some true

/-- The columns that end in the piece. -/
def normalColCnt (flags : UInt8) (rpColCnt : Int) : Int :=
  if flags &&& lastcolContRowPiece ≠ 0 then rpColCnt - 1 else rpColCnt

/-- The part of `process_chained_row` for a piece of `rpColCnt` columns that
is dealt with. -/
def filterChained (expCtx : ExpCtx) (rp : Pointer) (chunkList : ChunkList)
    (filterInfo : FilterInfo) (flags : UInt8) (rpColCnt : Int) :
    Option (ExpCtx × ChunkList) := do
  let data ← rpGetData rp
  let expCtx ← buildData expCtx data rpColCnt rpColCnt (some filterInfo.useCols)
    (if rpColCnt > filterInfo.useColCnt then filterInfo.useColCnt else rpColCnt)
  let pass ← passes filterInfo (filterInfo.whereMaxColno < normalColCnt flags rpColCnt) expCtx
  if !pass then
    some (expCtx, chunkList)
  else do
    let (expCtx, totalLen) ← setColOut expCtx rpColCnt (some filterInfo.useCols)
      filterInfo.useColCnt
    let chunkList ← serializeRpcolsToChainedChunk expCtx rpColCnt chunkList totalLen
    some (expCtx, chunkList)

/-- `process_chained_row`: whether the piece has been dealt with. -/
def processChainedRow (expCtx : ExpCtx) (rp : Pointer) (chunkList : ChunkList)
    (filterInfo : FilterInfo) : Option (Bool × ExpCtx × ChunkList) := do
  let flags ← rp[0]?
  let colcnt ← rp[2]?
  -- the piece in this block is all that is needed
  if filterInfo.allMaxColno < normalColCnt flags colcnt.toNat then
    some (false, expCtx, chunkList)
  else (filterChained expCtx rp chunkList filterInfo flags colcnt.toNat).map (true, ·)

/-- The part of the loop for a piece that is a row. -/
def filterPiece (filterInfo : FilterInfo) (expCtx : ExpCtx) (chunkList : ChunkList)
    (rp : Pointer) : Option (ExpCtx × ChunkList) := do
  let data ← rpGetData rp
  let colcnt ← rp[2]?
  let expCtx ← buildData expCtx data filterInfo.colCnt colcnt.toNat (some filterInfo.useCols)
    filterInfo.useColCnt
  let pass ← passes filterInfo true expCtx
  if !pass then
    some (expCtx, chunkList)
  else do
    let (expCtx, totalLen) ← setColOut expCtx filterInfo.colCnt (some filterInfo.useCols)
      filterInfo.useColCnt
    let chunkList ← serializeRpcolsToChunk expCtx filterInfo.colCnt chunkList totalLen
    some (expCtx, chunkList)

/-- A round of the loop of `csd_filter_and_eval_out`. -/
def filterRow (blk : Blk) (filterInfo : FilterInfo) (st : ExpCtx × ChunkList) (rowno : Nat) :
    Option (ExpCtx × ChunkList) := do
  match ← tableBlockGetRowPiece blk rowno with
  | none => some st
  | some rp => do
    let flags ← rp[0]?
    if flags &&& firstpieceRowPiece = 0 ∨ flags &&& lastpieceRowPiece = 0 then do
      let (done, expCtx, chunkList) ← processChainedRow st.1 rp st.2 filterInfo
      if done then some (expCtx, chunkList) else filterPiece filterInfo expCtx chunkList rp
    else filterPiece filterInfo st.1 st.2 rp

def csdFilterAndEvalOut (blk : Blk) (filterInfo : FilterInfo) (chunkList : ChunkList) :
    Option ChunkList := do
  let dl ← dblkGetDl blk
  let rpcnt ← blk.number (dl + 4) 2
  let (_, chunkList) ← (List.range rpcnt).foldlM (filterRow blk filterInfo)
    (expCtxInit filterInfo.colCnt, chunkList)
  some chunkList

/-! ## The pieces of a block -/

/-- What an entry of the directory points to: a row in one piece, or a piece of
a chained row, whose last column may go on in the next piece. -/
structure Piece where
  row : Row
  whole : Bool
  continued : Bool

/-- The columns that end in the piece. -/
def Piece.normalColCnt (p : Piece) : Int :=
  if p.continued then p.row.columns.length - 1 else p.row.columns.length

/-- The bytes of the piece: a header, a link where the row goes on, and the
columns. -/
def IsPiece (rp : Pointer) (p : Piece) : Prop :=
  ∃ flags tx colcnt link rest, rp = flags :: tx :: colcnt :: (link ++ p.row.pointer rest 0) ∧
    link.length = (if flags &&& lastpieceRowPiece ≠ 0 then 0 else 6) ∧
    (p.whole = true ↔ flags &&& firstpieceRowPiece ≠ 0 ∧ flags &&& lastpieceRowPiece ≠ 0) ∧
    (p.continued = true ↔ flags &&& lastcolContRowPiece ≠ 0) ∧
    colcnt.toNat = p.row.columns.length

/-- The block's directory has these pieces, and nothing where there is
`none`. -/
structure Lists (blk : Blk) (pieces : List (Option Piece)) : Prop where
  count : ∃ dl, dblkGetDl blk = some dl ∧ blk.number (dl + 4) 2 = some pieces.length
  piece : ∀ i p?, pieces[i]? = some p? →
    ∃ rp?, tableBlockGetRowPiece blk i = some rp? ∧ Option.Rel IsPiece rp? p?

/-- The piece is dealt with as a row: it is one, or all columns that are used
end in it. -/
def FilterInfo.asRow (f : FilterInfo) (p : Piece) : Bool :=
  p.whole || decide (f.allMaxColno < p.normalColCnt)

/-- A piece that is no row is only tested if the columns of the conditions end
in it. -/
def FilterInfo.passesPiece (f : FilterInfo) (p : Piece) : Bool :=
  !decide (f.whereMaxColno < p.normalColCnt) || f.selects p.row

/-- The rows of a block that are to be sent. -/
def FilterInfo.select (f : FilterInfo) (pieces : List (Option Piece)) : List Row :=
  (pieces.reduceOption.filter fun p => f.asRow p && f.selects p.row).map (·.row)

/-- The pieces of chained rows that are to be sent. -/
def FilterInfo.selectChained (f : FilterInfo) (pieces : List (Option Piece)) : List Row :=
  (pieces.reduceOption.filter fun p => !f.asRow p && f.passesPiece p).map (·.row)

/-- A piece of a chained row that the filter can deal with: it has no more
columns than the filter, those of the conditions if it is tested, and each of
them fits into a chunk. -/
structure FilterInfo.ReadsChained (f : FilterInfo) (p : Piece) : Prop where
  plain : ∀ c ∈ p.row.columns, c.Plain
  length : p.row.columns.length ≤ f.colCnt
  operands : f.whereMaxColno < p.normalColCnt → f.OperandsIn p.row
  fits : ∀ text ∈ f.texts p.row, text.length ≤ resChunkSize

def FilterInfo.ReadsPiece (f : FilterInfo) (p : Piece) : Prop :=
  if f.asRow p then f.Reads p.row else f.ReadsChained p

/-- The chunks are what packing makes of the rows and of the pieces. -/
structure Kept (f : FilterInfo) (rows pieces : List Row) (chunkList : ChunkList) : Prop where
  rows : HoldRows f chunkList.resChunk (f.packRows rows)
  pieces : HoldPieces f chunkList.chainedChunk (f.packPieces pieces)

theorem kept_nil (f : FilterInfo) : Kept f [] [] {} := ⟨.nil, .nil⟩

/-- What is kept from one row to the next. -/
structure Filtered (f : FilterInfo) (rows pieces : List Row) (st : ExpCtx × ChunkList) :
    Prop where
  slots : st.1.Holds f.colCnt.toNat
  kept : Kept f rows pieces st.2

theorem packRows_concat (f : FilterInfo) (rows : List Row) (row : Row) :
    f.packRows (rows ++ [row]) =
      Packing.place resChunkSize (fun row => (f.output row).length) (f.packRows rows) row := by
  rw [FilterInfo.packRows, Packing.pack, List.foldl_append]
  rfl

theorem packPieces_concat (f : FilterInfo) (pieces : List Row) (piece : Row) :
    f.packPieces (pieces ++ [piece]) =
      Packing.place resChunkSize f.pieceSize (f.packPieces pieces) piece := by
  rw [FilterInfo.packPieces, Packing.pack, List.foldl_append]
  rfl

/-- The columns of the conditions are among those that are used. -/
theorem FilterInfo.Reads.operandsIn {f : FilterInfo} (hf : f.Sound) {row : Row}
    (h : f.Reads row) : f.OperandsIn row := by
  have hone : ∀ no constIdx, f.Finds no constIdx → no < row.columns.length := by
    intro no constIdx hfinds
    unfold Finds at hfinds
    split at hfinds
    · omega
    · have := h.columns no.toNat (by omega) hfinds.2.2
      omega
  exact fun i hi => ⟨hone _ _ (hf.finds i hi).1, hone _ _ (hf.finds i hi).2⟩

theorem passes_row {f : FilterInfo} (hf : f.Sound) {ctx : ExpCtx} {row : Row} {rest : Pointer}
    (hctx : ctx.Shows f row rest) (hrow : ∀ c ∈ row.columns, c.Plain) (tested : Bool)
    (hoperands : tested = true → f.OperandsIn row) :
    passes f tested ctx = some (!tested || f.selects row) := by
  unfold passes
  cases tested with
  | false => simp
  | true =>
    split
    · exact expEvalAndCheckTrue_row hf hctx hrow (hoperands rfl)
    · have hnone : f.expCnt.toNat = 0 := by simp at *; omega
      rw [FilterInfo.selects, hnone]
      rfl

/-- The columns of a piece behind its header. -/
theorem rpGetData_piece {flags tx colcnt : UInt8} {link data : List UInt8}
    (h : link.length = (if flags &&& lastpieceRowPiece ≠ 0 then 0 else 6)) :
    rpGetData (flags :: tx :: colcnt :: (link ++ data)) = some data := by
  by_cases hlast : flags &&& lastpieceRowPiece ≠ 0
  · rw [if_pos hlast] at h
    obtain rfl := List.eq_nil_of_length_eq_zero h
    simp [rpGetData, hlast]
  · rw [if_neg hlast] at h
    have hdrop : (flags :: tx :: colcnt :: (link ++ data)).drop 9 = data := by
      rw [show 9 = link.length + 3 by omega]
      exact List.drop_left
    simp only [rpGetData, List.getElem?_cons_zero, Option.bind_eq_bind, Option.bind_some,
      if_neg hlast, hdrop]

/-- **A row**: it is written where packing puts it, if the filter selects it
and it fits into a chunk. -/
theorem filterPiece_row {f : FilterInfo} (hf : f.Sound) {rp : Pointer} {p : Piece}
    (hrp : IsPiece rp p) (hread : f.Reads p.row) {rows pieces : List Row} {ctx : ExpCtx}
    {chunkList : ChunkList} (h : Filtered f rows pieces (ctx, chunkList)) :
    if f.selects p.row = true → (f.output p.row).length ≤ resChunkSize then
      ∃ st', filterPiece f ctx chunkList rp = some st' ∧
        Filtered f (if f.selects p.row then rows ++ [p.row] else rows) pieces st'
    else filterPiece f ctx chunkList rp = none := by
  obtain ⟨flags, tx, colcnt, link, rest, rfl, hlink, -, -, hcnt⟩ := hrp
  generalize p.row = row at *
  have hflags : f.colCnt.toNat ≤ f.useCols.length := by
    have := hf.wellFormed.useCols
    omega
  obtain ⟨ctx₁, hbuild, hslots, hfound⟩ :=
    buildData_row row rest hflags h.slots le_rfl hf.counted
  have hshows : ctx₁.Shows f row rest := fun j hj _ hused => hfound j hj hused
  have hpass := passes_row hf hshows hread.plain true fun _ => hread.operandsIn hf
  obtain ⟨ctx₂, totalLen, hout, hslots', houtputs, htotal⟩ :=
    setColOut_row hf.wellFormed hshows hslots hread
  have hwrite := serializeRpcolsToChunk_row houtputs h.kept.rows htotal
  have hdata := @rpGetData_piece flags tx colcnt link (row.pointer rest 0) hlink
  cases hsel : f.selects row with
  | false =>
    rw [if_pos (by simp)]
    refine ⟨(ctx₁, chunkList), ?_, hslots, h.kept⟩
    simp [filterPiece, hdata, hcnt, hbuild, hpass, hsel]
  | true =>
    have hrun : filterPiece f ctx chunkList
        (flags :: tx :: colcnt :: (link ++ row.pointer rest 0)) =
        (serializeRpcolsToChunk ctx₂ f.colCnt chunkList totalLen).map (ctx₂, ·) := by
      simp [filterPiece, hdata, hcnt, hbuild, hpass, hsel, hout, Option.map_eq_bind]
    rw [hrun]
    by_cases hfits : (f.output row).length ≤ resChunkSize
    · rw [if_pos hfits] at hwrite
      rw [if_pos fun _ => hfits]
      obtain ⟨chunkList', hrun, hchained, hbins⟩ := hwrite
      refine ⟨(ctx₂, chunkList'), by rw [hrun]; rfl, hslots', ?_, hchained ▸ h.kept.pieces⟩
      rwa [if_pos rfl, packRows_concat]
    · rw [if_neg hfits] at hwrite
      rw [if_neg (by simpa using hfits), hwrite]
      rfl

/-- **A piece of a chained row**: its columns are written over those of the
pieces before it. -/
theorem filterChained_piece {f : FilterInfo} (hf : f.Sound) {p : Piece}
    (hread : f.ReadsChained p) {flags tx colcnt : UInt8} {link : List UInt8} {rest : Pointer}
    (hlink : link.length = (if flags &&& lastpieceRowPiece ≠ 0 then 0 else 6))
    (hnormal : normalColCnt flags p.row.columns.length = p.normalColCnt)
    {rows pieces : List Row} {ctx : ExpCtx} {chunkList : ChunkList}
    (h : Filtered f rows pieces (ctx, chunkList)) :
    ∃ st', filterChained ctx (flags :: tx :: colcnt :: (link ++ p.row.pointer rest 0)) chunkList f
        flags p.row.columns.length = some st' ∧
      Filtered f rows (if f.passesPiece p then pieces ++ [p.row] else pieces) st' := by
  have hlength := hread.length
  have hslot : (p.row.columns.length : Int).toNat ≤ f.colCnt.toNat := by omega
  have hflags : (p.row.columns.length : Int).toNat ≤ f.useCols.length := by
    have := hf.wellFormed.useCols
    omega
  -- the used columns of the piece are counted in full
  have hcount : ((List.range (p.row.columns.length : Int).toNat).countP (Uses f.useCols ·) : Int) ≤
      if (p.row.columns.length : Int) > f.useColCnt then f.useColCnt
      else p.row.columns.length := by
    have hall : (List.range (p.row.columns.length : Int).toNat).countP (Uses f.useCols ·) ≤
        (List.range f.colCnt.toNat).countP (Uses f.useCols ·) :=
      (List.range_sublist.mpr hslot).countP_le
    have hsome := List.countP_le_length (p := (Uses f.useCols ·))
      (l := List.range (p.row.columns.length : Int).toNat)
    have := hf.counted
    rw [List.length_range] at hsome
    split <;> omega
  obtain ⟨ctx₁, hbuild, hslots, hfound⟩ :=
    buildData_row p.row rest hflags h.slots hslot hcount
  have hshows : ctx₁.Shows f p.row rest := fun j _ hj hused => hfound j (by omega) hused
  have hpass := passes_row hf hshows hread.plain (f.whereMaxColno < p.normalColCnt)
    fun htested => hread.operands (by simpa using htested)
  have hdata := @rpGetData_piece flags tx colcnt link (p.row.pointer rest 0) hlink
  change _ = some (f.passesPiece p) at hpass
  cases hsel : f.passesPiece p with
  | false =>
    refine ⟨(ctx₁, chunkList), ?_, hslots, h.kept⟩
    simp [filterChained, hdata, hbuild, hnormal, hpass, hsel]
  | true =>
    obtain ⟨ctx₂, hout, hslots', houtputs⟩ := setColOut_columns hf.wellFormed hshows hslots hslot
      fun i hi _ => by omega
    have hsize : ((List.range (p.row.columns.length : Int).toNat).map fun i =>
        (UInt16.ofNat (f.outCell p.row i).bytes.length).toNat).sum = f.pieceSize p.row := by
      rw [FilterInfo.pieceSize, FilterInfo.texts, List.map_map, Int.toNat_natCast]
      refine congrArg _ (List.map_congr_left fun i hi => ?_)
      have hfits := hread.fits _ (List.mem_map.mpr ⟨i, hi, rfl⟩)
      unfold resChunkSize at hfits
      simp only [UInt16.toNat_ofNat', Function.comp_apply]
      omega
    obtain ⟨chunkList', hrun, hres, hbins⟩ :=
      serializeRpcolsToChainedChunk_piece (fun i hi => houtputs i (by omega)) hread.fits h.kept.pieces
    rw [hsize] at hout
    refine ⟨(ctx₂, chunkList'), ?_, hslots', hres ▸ h.kept.rows, ?_⟩
    · simp [filterChained, hdata, hbuild, hnormal, hpass, hsel, hout, hrun]
    · rwa [if_pos rfl, packPieces_concat]

/-- The round for a piece that is dealt with as a row. -/
theorem filterRow_asRow {f : FilterInfo} {blk : Blk} {i : Nat} {rp : Pointer} {p : Piece}
    (hget : tableBlockGetRowPiece blk i = some (some rp)) (hrp : IsPiece rp p)
    (hrow : f.asRow p = true) (st : ExpCtx × ChunkList) :
    filterRow blk f st i = filterPiece f st.1 st.2 rp := by
  obtain ⟨flags, tx, colcnt, link, rest, rfl, -, hwhole, hcontinued, hcnt⟩ := hrp
  have hnormal : normalColCnt flags p.row.columns.length = p.normalColCnt := by
    simp only [normalColCnt, Piece.normalColCnt, hcontinued]
  by_cases hone : p.whole = true
  · obtain ⟨hfirst, hlast⟩ := hwhole.mp hone
    simp [filterRow, hget, hfirst, hlast]
  · have hall : f.allMaxColno < p.normalColCnt := by
      simpa [FilterInfo.asRow, hone] using hrow
    simp [filterRow, hget, processChainedRow, hcnt, hnormal, hall]

/-- The round for any other piece. -/
theorem filterRow_chained {f : FilterInfo} (hf : f.Sound) {blk : Blk} {i : Nat} {rp : Pointer}
    {p : Piece} (hget : tableBlockGetRowPiece blk i = some (some rp)) (hrp : IsPiece rp p)
    (hrow : f.asRow p = false) (hread : f.ReadsChained p) {rows pieces : List Row}
    {st : ExpCtx × ChunkList} (h : Filtered f rows pieces st) :
    ∃ st', filterRow blk f st i = some st' ∧
      Filtered f rows (if f.passesPiece p then pieces ++ [p.row] else pieces) st' := by
  obtain ⟨flags, tx, colcnt, link, rest, rfl, hlink, hwhole, hcontinued, hcnt⟩ := hrp
  have hnormal : normalColCnt flags p.row.columns.length = p.normalColCnt := by
    simp only [normalColCnt, Piece.normalColCnt, hcontinued]
  obtain ⟨hone, hall⟩ : p.whole = false ∧ ¬ f.allMaxColno < p.normalColCnt := by
    simpa [FilterInfo.asRow] using hrow
  have hchained : flags &&& firstpieceRowPiece = 0 ∨ flags &&& lastpieceRowPiece = 0 := by
    by_contra hboth
    rw [hwhole.mpr (not_or.mp hboth)] at hone
    cases hone
  obtain ⟨st', hrun, hst'⟩ := @filterChained_piece f hf p hread flags tx colcnt link rest hlink
    hnormal rows pieces st.1 st.2 h
  refine ⟨st', ?_, hst'⟩
  simp [filterRow, hget, hchained, processChainedRow, hcnt, hnormal, hall, hrun]

theorem select_append (f : FilterInfo) (pieces pieces' : List (Option Piece)) :
    f.select (pieces ++ pieces') = f.select pieces ++ f.select pieces' := by
  simp [FilterInfo.select, List.reduceOption_append]

theorem selectChained_append (f : FilterInfo) (pieces pieces' : List (Option Piece)) :
    f.selectChained (pieces ++ pieces') = f.selectChained pieces ++ f.selectChained pieces' := by
  simp [FilterInfo.selectChained, List.reduceOption_append]

/-- The rows fit into chunks. -/
def FilterInfo.Fit (f : FilterInfo) (rows : List Row) : Prop :=
  ∀ row ∈ rows, (f.output row).length ≤ resChunkSize

instance (f : FilterInfo) (rows : List Row) : Decidable (f.Fit rows) :=
  inferInstanceAs (Decidable (∀ row ∈ rows, _))

/-- **One entry of the directory**: a row or a piece of a chained row, or
nothing. -/
theorem filterRow_entry {f : FilterInfo} (hf : f.Sound) {blk : Blk}
    {entries : List (Option Piece)} (hblk : Lists blk entries) {i : Nat} {p? : Option Piece}
    (hentry : entries[i]? = some p?) (hread : ∀ p, p? = some p → f.ReadsPiece p)
    {rows pieces : List Row} {st : ExpCtx × ChunkList} (h : Filtered f rows pieces st) :
    if f.Fit (f.select [p?]) then
      ∃ st', filterRow blk f st i = some st' ∧
        Filtered f (rows ++ f.select [p?]) (pieces ++ f.selectChained [p?]) st'
    else filterRow blk f st i = none := by
  obtain ⟨rp?, hget, hrel⟩ := hblk.piece i p? hentry
  cases hrel with
  | none =>
    rw [if_pos (by simp [FilterInfo.Fit, FilterInfo.select])]
    exact ⟨st, by simp [filterRow, hget],
      by simpa [FilterInfo.select, FilterInfo.selectChained] using h⟩
  | @some rp p hrp =>
    have hread := hread p rfl
    have hselect : f.select [some p] = if f.asRow p && f.selects p.row then [p.row] else [] := by
      cases hsel : f.asRow p && f.selects p.row <;> simp [FilterInfo.select, hsel]
    have hchained : f.selectChained [some p] =
        if !f.asRow p && f.passesPiece p then [p.row] else [] := by
      cases hsel : !f.asRow p && f.passesPiece p <;> simp [FilterInfo.selectChained, hsel]
    cases hrow : f.asRow p with
    | true =>
      rw [FilterInfo.ReadsPiece, if_pos hrow] at hread
      have hpiece := filterPiece_row hf hrp hread h
      rw [filterRow_asRow hget hrp hrow, hselect, hchained, hrow]
      cases hsel : f.selects p.row <;> simpa [hsel, FilterInfo.Fit] using hpiece
    | false =>
      rw [FilterInfo.ReadsPiece, if_neg (by simp [hrow])] at hread
      obtain ⟨st', hrun, hst'⟩ := filterRow_chained hf hget hrp hrow hread h
      rw [hselect, hchained, hrow, if_pos (by simp [FilterInfo.Fit])]
      refine ⟨st', hrun, ?_⟩
      cases hsel : f.passesPiece p <;> simpa [hsel] using hst'

/-- **The scan of a block**: what is to be sent is packed into chunks behind
what is there already, and the scan is defined exactly when each of the rows
fits into a chunk. -/
theorem csdFilterAndEvalOut_entries {f : FilterInfo} (hf : f.Sound) {blk : Blk}
    {entries : List (Option Piece)} (hblk : Lists blk entries)
    (hread : ∀ p ∈ entries.reduceOption, f.ReadsPiece p) {rows pieces : List Row}
    {chunkList : ChunkList} (hkept : Kept f rows pieces chunkList) :
    if f.Fit (f.select entries) then
      ∃ chunkList', csdFilterAndEvalOut blk f chunkList = some chunkList' ∧
        Kept f (rows ++ f.select entries) (pieces ++ f.selectChained entries) chunkList'
    else csdFilterAndEvalOut blk f chunkList = none := by
  obtain ⟨dl, hdl, hcount⟩ := hblk.count
  -- the rounds over the entries that are left
  have hloop : ∀ todo done st, entries = done ++ todo →
      Filtered f (rows ++ f.select done) (pieces ++ f.selectChained done) st →
      if f.Fit (f.select todo) then
        ∃ st', (List.range' done.length todo.length).foldlM (filterRow blk f) st = some st' ∧
          Filtered f (rows ++ f.select (done ++ todo))
            (pieces ++ f.selectChained (done ++ todo)) st'
      else (List.range' done.length todo.length).foldlM (filterRow blk f) st = none := by
    intro todo
    induction todo with
    | nil =>
      intro done st _ hst
      rw [if_pos (by simp [FilterInfo.Fit, FilterInfo.select])]
      exact ⟨st, rfl, by simpa using hst⟩
    | cons p? todo ih =>
      intro done st hsplit hst
      have hmem : p? ∈ entries := by simp [hsplit]
      have hentry := filterRow_entry hf hblk (show entries[done.length]? = some p? by simp [hsplit])
        (fun p hp => hread p (List.reduceOption_mem_iff.mpr (hp ▸ hmem))) hst
      have hfit : f.Fit (f.select (p? :: todo)) ↔
          f.Fit (f.select [p?]) ∧ f.Fit (f.select todo) := by
        rw [← List.singleton_append, select_append]
        exact List.forall_mem_append
      rw [List.length_cons, List.range'_succ, List.foldlM_cons]
      by_cases hrow : f.Fit (f.select [p?])
      · rw [if_pos hrow] at hentry
        obtain ⟨st₁, hrun, hst₁⟩ := hentry
        rw [List.append_assoc, ← select_append, List.append_assoc, ← selectChained_append] at hst₁
        have hrest := ih (done ++ [p?]) st₁ (by simp [hsplit]) hst₁
        rw [List.length_append, List.length_singleton, List.append_assoc,
          List.singleton_append] at hrest
        simpa [hfit, hrow, hrun] using hrest
      · rw [if_neg hrow] at hentry
        rw [if_neg fun h => hrow (hfit.mp h).1, hentry]
        rfl
  have hinit : Filtered f (rows ++ f.select []) (pieces ++ f.selectChained [])
      (expCtxInit f.colCnt, chunkList) :=
    ⟨by simp [ExpCtx.Holds, expCtxInit],
      by simpa [FilterInfo.select, FilterInfo.selectChained] using hkept⟩
  have hrun : csdFilterAndEvalOut blk f chunkList =
      ((List.range entries.length).foldlM (filterRow blk f)
        (expCtxInit f.colCnt, chunkList)).map Prod.snd := by
    simp [csdFilterAndEvalOut, hdl, hcount, Option.map_eq_bind]
  have hentries := hloop entries [] _ rfl hinit
  rw [List.length_nil, ← List.range_eq_range', List.nil_append] at hentries
  rw [hrun]
  split at hentries
  · rename_i hfit
    obtain ⟨st', hst', hfiltered⟩ := hentries
    rw [if_pos hfit, hst']
    exact ⟨st'.2, rfl, hfiltered.kept⟩
  · rename_i hfit
    rw [if_neg hfit, hentries]
    rfl

/-! ## Several blocks -/

/-- Blocks one after the other, with one chunk list. -/
def filterBlocks (f : FilterInfo) (blks : List Blk) (chunkList : ChunkList) : Option ChunkList :=
  blks.foldlM (fun chunkList blk => csdFilterAndEvalOut blk f chunkList) chunkList

theorem filterBlocks_entries {f : FilterInfo} (hf : f.Sound) {blks : List Blk}
    {entriess : List (List (Option Piece))} (hblks : List.Forall₂ Lists blks entriess)
    (hread : ∀ entries ∈ entriess, ∀ p ∈ entries.reduceOption, f.ReadsPiece p)
    {rows pieces : List Row} {chunkList : ChunkList} (hkept : Kept f rows pieces chunkList) :
    if f.Fit (entriess.flatMap f.select) then
      ∃ chunkList', filterBlocks f blks chunkList = some chunkList' ∧
        Kept f (rows ++ entriess.flatMap f.select) (pieces ++ entriess.flatMap f.selectChained)
          chunkList'
    else filterBlocks f blks chunkList = none := by
  induction hblks generalizing rows pieces chunkList with
  | nil =>
    rw [if_pos (by simp [FilterInfo.Fit])]
    exact ⟨chunkList, rfl, by simpa using hkept⟩
  | @cons blk entries blks entriess hblk _ ih =>
    have hone := csdFilterAndEvalOut_entries hf hblk (hread entries (by simp)) hkept
    have hfit : f.Fit (f.select entries ++ entriess.flatMap f.select) ↔
        f.Fit (f.select entries) ∧ f.Fit (entriess.flatMap f.select) := List.forall_mem_append
    rw [filterBlocks, List.foldlM_cons, List.flatMap_cons, List.flatMap_cons]
    by_cases hrows : f.Fit (f.select entries)
    · rw [if_pos hrows] at hone
      obtain ⟨chunkList₁, hrun, hkept₁⟩ := hone
      have hrest := ih (fun entries' h => hread entries' (by simp [h])) hkept₁
      rw [List.append_assoc, List.append_assoc] at hrest
      simpa [hfit, hrows, hrun, filterBlocks] using hrest
    · rw [if_neg hrows] at hone
      rw [if_neg fun h => hrows (hfit.mp h).1, hone]
      rfl

/-- The chunks are the rows one after the other, cut between rows, and more
than half full on average. -/
def Carries (f : FilterInfo) (rows : List Row) (chunks : List Chunk) : Prop :=
  ∃ bins, HoldRows f chunks bins ∧ bins.flatten = rows ∧
    (bins.length - 1) * (resChunkSize + 1) ≤ 2 * (rows.flatMap f.output).length

theorem Kept.carries {f : FilterInfo} {rows pieces : List Row} {chunkList : ChunkList}
    (h : Kept f rows pieces chunkList) : Carries f rows chunkList.resChunk := by
  have hpacked : Packing.Packed resChunkSize (fun row => (f.output row).length) rows
      (f.packRows rows) := Packing.packed_pack _
  refine ⟨_, h.rows, hpacked.flatten, ?_⟩
  have := hpacked.length_mul_le
  rwa [load_output] at this

/-- A piece that is a row, and has all columns the filter uses. -/
def FilterInfo.ReadsWhole (f : FilterInfo) (p : Piece) : Prop := p.whole = true ∧ f.Reads p.row

instance (f : FilterInfo) (p : Piece) : Decidable (f.ReadsWhole p) :=
  inferInstanceAs (Decidable (_ ∧ _))

theorem FilterInfo.ReadsWhole.readsPiece {f : FilterInfo} {p : Piece} (h : f.ReadsWhole p) :
    f.ReadsPiece p := by
  rw [ReadsPiece, if_pos (by simp [asRow, h.1])]
  exact h.2

theorem selectChained_whole {f : FilterInfo} {entriess : List (List (Option Piece))}
    (h : ∀ entries ∈ entriess, ∀ p ∈ entries.reduceOption, f.ReadsWhole p) :
    entriess.flatMap f.selectChained = [] := by
  refine List.flatMap_eq_nil_iff.mpr fun entries hentries => ?_
  rw [FilterInfo.selectChained, List.map_eq_nil_iff, List.filter_eq_nil_iff]
  intro p hp
  simp [FilterInfo.asRow, (h entries hentries p hp).1]

/-- The rows of blocks without chained rows are kept, and nothing else. -/
theorem filterBlocks_rows {f : FilterInfo} (hf : f.Sound) {blks : List Blk}
    {entriess : List (List (Option Piece))} (hblks : List.Forall₂ Lists blks entriess)
    (hread : ∀ entries ∈ entriess, ∀ p ∈ entries.reduceOption, f.ReadsWhole p) :
    if f.Fit (entriess.flatMap f.select) then
      ∃ chunkList, filterBlocks f blks {} = some chunkList ∧ chunkList.chainedChunk = [] ∧
        Kept f (entriess.flatMap f.select) [] chunkList
    else filterBlocks f blks {} = none := by
  have hrun := filterBlocks_entries hf hblks
    (fun entries h p hp => (hread entries h p hp).readsPiece) (kept_nil f)
  rw [selectChained_whole hread] at hrun
  split at hrun
  · rename_i hfit
    obtain ⟨chunkList, hrun, hkept⟩ := hrun
    rw [if_pos hfit]
    exact ⟨chunkList, hrun, List.forall₂_nil_right_iff.mp hkept.pieces, hkept⟩
  · rw [if_neg ‹_›]
    exact hrun

/-- **The filter of blocks**: the chunks carry exactly the rows that the filter
selects, projected to the columns asked for, and there is no write beyond a
chunk exactly when each of these rows fits into one. -/
theorem filterBlocks_carries_iff {f : FilterInfo} (hf : f.Sound) {blks : List Blk}
    {entriess : List (List (Option Piece))} (hblks : List.Forall₂ Lists blks entriess)
    (hread : ∀ entries ∈ entriess, ∀ p ∈ entries.reduceOption, f.ReadsWhole p) :
    (∃ chunkList, filterBlocks f blks {} = some chunkList ∧ chunkList.chainedChunk = [] ∧
      Carries f (entriess.flatMap f.select) chunkList.resChunk) ↔
      f.Fit (entriess.flatMap f.select) := by
  have hrun := filterBlocks_rows hf hblks hread
  constructor
  · rintro ⟨chunkList, hsome, -⟩
    by_contra hfit
    rw [if_neg hfit, hsome] at hrun
    cases hrun
  · intro hfit
    rw [if_pos hfit] at hrun
    obtain ⟨chunkList, hsome, hchained, hkept⟩ := hrun
    exact ⟨chunkList, hsome, hchained, hkept.carries⟩

/-- An entry for the row in one piece. -/
def wholeRow : Piece := ⟨charRow, true, false⟩

/-- A block with the row and a free entry. -/
def charBlock : Blk :=
  List.replicate 40 0 ++ [2, 0, 0, 0, 48, 0, 0, 0] ++ [0x2c, 0, 4] ++
    charRow.columns.flatMap (·.bytes)

theorem charBlock_lists : Lists charBlock [some wholeRow, none] where
  count := ⟨36, by decide, by decide⟩
  piece := by
    intro i p? h
    obtain ⟨hi, rfl⟩ := List.getElem?_eq_some_iff.mp h
    rcases i with _ | _ | i
    · exact ⟨some (charBlock.drop 48), by decide, .some ⟨0x2c, 0, 4, [], [], by decide, by decide,
        by decide, by decide, by decide⟩⟩
    · exact ⟨none, by decide, .none⟩
    · exact absurd hi (by simp)

theorem filterBlocks_charBlock :
    (∃ chunkList, filterBlocks csdInfo [charBlock] {} = some chunkList ∧
      chunkList.chainedChunk = [] ∧
      Carries csdInfo ([[some wholeRow, none]].flatMap csdInfo.select) chunkList.resChunk) ↔
      csdInfo.Fit ([[some wholeRow, none]].flatMap csdInfo.select) :=
  filterBlocks_carries_iff csdInfo_sound (.cons charBlock_lists .nil) (by decide)

/-! ## Chained rows -/

/-- **Chained rows**: where the rows fit, the result chunks carry them, and
the chained chunks have the lengths of all columns of the pieces, but hold only
what is left of these columns when each is written over those before. -/
theorem filterBlocks_chained {f : FilterInfo} (hf : f.Sound) {blks : List Blk}
    {entriess : List (List (Option Piece))} (hblks : List.Forall₂ Lists blks entriess)
    (hread : ∀ entries ∈ entriess, ∀ p ∈ entries.reduceOption, f.ReadsPiece p)
    (hfit : f.Fit (entriess.flatMap f.select)) :
    ∃ chunkList bins, filterBlocks f blks {} = some chunkList ∧
      Carries f (entriess.flatMap f.select) chunkList.resChunk ∧
      bins.flatten = entriess.flatMap f.selectChained ∧
      List.Forall₂ (fun chunk bin =>
        chunk.used = ((bin.flatMap f.texts).map List.length).sum ∧
        chunk.buf = (overlay (bin.flatMap f.texts)).map some ∧
        chunk.buf.length = ((bin.flatMap f.texts).map List.length).foldl max 0)
        chunkList.chainedChunk bins := by
  have hrun := filterBlocks_entries hf hblks hread (kept_nil f)
  rw [if_pos hfit] at hrun
  obtain ⟨chunkList, hrun, hkept⟩ := hrun
  have hpacked : Packing.Packed resChunkSize f.pieceSize (entriess.flatMap f.selectChained)
      (f.packPieces (entriess.flatMap f.selectChained)) := Packing.packed_pack _
  refine ⟨chunkList, _, hrun, hkept.carries, hpacked.flatten, ?_⟩
  refine hkept.pieces.imp fun chunk bin h => ⟨h.used, h.buf, ?_⟩
  rw [h.buf, List.length_map, length_overlay]

/-- The first two columns of the row, in a piece that does not end it. -/
def firstPiece : Piece where
  row := ⟨charRow.columns.take 2, by decide⟩
  whole := false
  continued := false

/-- A block with the row, the piece and a free entry. -/
def chainedBlock : Blk :=
  List.replicate 40 0 ++ [3, 0, 0, 0, 50, 0, 95, 0, 0, 0] ++ [0x2c, 0, 4] ++
    charRow.columns.flatMap (·.bytes) ++ [0x28, 0, 2, 0, 0, 0, 0, 0, 0] ++
    firstPiece.row.columns.flatMap (·.bytes)

theorem chainedBlock_lists : Lists chainedBlock [some wholeRow, some firstPiece, none] where
  count := ⟨36, by decide, by decide +kernel⟩
  piece := by
    intro i p? h
    obtain ⟨hi, rfl⟩ := List.getElem?_eq_some_iff.mp h
    rcases i with _ | _ | _ | i
    · exact ⟨some (chainedBlock.drop 50), by decide +kernel, .some ⟨0x2c, 0, 4, [],
        chainedBlock.drop 95, by decide +kernel, by decide, by decide, by decide, by decide⟩⟩
    · exact ⟨some (chainedBlock.drop 95), by decide +kernel, .some ⟨0x28, 0, 2, [0, 0, 0, 0, 0, 0], [],
        by decide +kernel, by decide, by decide, by decide, by decide⟩⟩
    · exact ⟨none, by decide +kernel, .none⟩
    · exact absurd hi (by simp)

/-- The piece is the one thing in the chained chunk, and its second column has
been written over the first byte of its first. -/
theorem filterBlocks_chainedBlock :
    overlay (csdInfo.texts firstPiece.row) = 0 :: (firstPiece.row.found 0).bytes.tail ∧
    ∃ chunkList bins, filterBlocks csdInfo [chainedBlock] {} = some chunkList ∧
      Carries csdInfo ([[some wholeRow, some firstPiece, none]].flatMap csdInfo.select)
        chunkList.resChunk ∧
      bins.flatten =
        [[some wholeRow, some firstPiece, none]].flatMap csdInfo.selectChained ∧
      List.Forall₂ (fun chunk bin =>
        chunk.used = ((bin.flatMap csdInfo.texts).map List.length).sum ∧
        chunk.buf = (overlay (bin.flatMap csdInfo.texts)).map some ∧
        chunk.buf.length = ((bin.flatMap csdInfo.texts).map List.length).foldl max 0)
        chunkList.chainedChunk bins := by
  refine ⟨rfl, filterBlocks_chained csdInfo_sound (.cons chainedBlock_lists .nil) ?_ (by decide)⟩
  intro entries hentries p hp
  obtain rfl := List.mem_singleton.mp hentries
  have hp : p = wholeRow ∨ p = firstPiece := by simpa [List.reduceOption] using hp
  rcases hp with rfl | rfl
  · exact FilterInfo.ReadsWhole.readsPiece (by decide)
  · rw [FilterInfo.ReadsPiece, if_neg (by decide)]
    exact ⟨by decide, by decide, fun htested => absurd htested (by decide), by decide⟩

end KetiEngine.TmaxLib
