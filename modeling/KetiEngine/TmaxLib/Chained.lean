import KetiEngine.TmaxLib.Chunks

/-!
# Chained — `serialize_rpcols_to_chained_chunk`

The columns of the pieces of chained rows are all written to the beginning of
their chunk. Its length is that of all columns, and only the longest of them
leaves its full length there.
-/

namespace KetiEngine.TmaxLib

open KetiEngine

/-! ## Texts in one place -/

/-- What is left of texts that are written to one place, one after the other. -/
def overlay (texts : List (List UInt8)) : List UInt8 :=
  texts.foldl (fun left text => text ++ left.drop text.length) []

theorem overlay_concat (texts : List (List UInt8)) (text : List UInt8) :
    overlay (texts ++ [text]) = text ++ (overlay texts).drop text.length := by
  simp [overlay]

/-- No more is left than the longest text. -/
theorem length_overlay (texts : List (List UInt8)) :
    (overlay texts).length = (texts.map List.length).foldl max 0 := by
  induction texts using List.reverseRecOn with
  | nil => rfl
  | append_singleton texts text ih =>
    rw [overlay_concat, List.length_append, List.length_drop, ih, List.map_append,
      List.foldl_append]
    simp only [List.map_cons, List.map_nil, List.foldl_cons, List.foldl_nil]
    omega

/-- The chunk has been filled with the texts, each at its beginning. -/
structure Chunk.Overlays (chunk : Chunk) (texts : List (List UInt8)) : Prop where
  buf : chunk.buf = (overlay texts).map some
  used : chunk.used = (texts.map List.length).sum

theorem chunk_overlays_empty : Chunk.Overlays {} [] := ⟨rfl, rfl⟩

/-! ## The columns of a piece -/

/-- The columns of the evaluation are those of the piece's output, with their
lengths. -/
def ExpCtx.OutputsPiece (ctx : ExpCtx) (f : FilterInfo) (piece : Row) : Prop :=
  ∀ i < piece.columns.length,
    (∃ behind, ctx.val i = some ((f.outCell piece i).bytes ++ behind)) ∧
    ctx.columnValLens[i]? = some (some (UInt16.ofNat (f.outCell piece i).bytes.length))

/-- The texts of a piece: its columns, or null where they are not asked for. -/
def FilterInfo.texts (f : FilterInfo) (piece : Row) : List (List UInt8) :=
  (List.range piece.columns.length).map fun i => (f.outCell piece i).bytes

/-- The length of all texts of a piece. -/
def FilterInfo.pieceSize (f : FilterInfo) (piece : Row) : Nat :=
  ((f.texts piece).map List.length).sum

/-- A round of the loop, for a column that fits into the chunk. -/
theorem overwriteColumn_overlays {ctx : ExpCtx} {i : Nat} {text : List UInt8} {behind : Pointer}
    (hval : ctx.val i = some (text ++ behind))
    (hlen : ctx.columnValLens[i]? = some (some (UInt16.ofNat text.length)))
    (hfits : text.length ≤ resChunkSize) {chunk : Chunk} {texts : List (List UInt8)}
    (h : chunk.Overlays texts) :
    ∃ chunk', overwriteColumn ctx chunk i = some chunk' ∧ chunk'.Overlays (texts ++ [text]) := by
  have hnat : (UInt16.ofNat text.length).toNat = text.length := by
    unfold resChunkSize at hfits
    rw [UInt16.toNat_ofNat']
    omega
  have hcopy : copyTo chunk.buf 0 (text ++ behind) text.length =
      some ((text ++ (overlay texts).drop text.length).map some) := by
    rw [copyTo, if_pos ⟨by simp, by simpa using hfits⟩, h.buf]
    simp
  refine ⟨⟨(overlay (texts ++ [text])).map some, chunk.used + text.length⟩, ?_, rfl, ?_⟩
  · rw [overlay_concat]
    simp [overwriteColumn, hval, hlen, hnat, hcopy]
  · simp [h.used]

theorem foldlM_overwriteColumn {ctx : ExpCtx} {f : FilterInfo} {piece : Row}
    (hctx : ctx.OutputsPiece f piece) (hfits : ∀ text ∈ f.texts piece, text.length ≤ resChunkSize)
    {chunk : Chunk} {texts : List (List UInt8)} (h : chunk.Overlays texts) :
    ∃ chunk', (List.range piece.columns.length).foldlM (overwriteColumn ctx) chunk = some chunk' ∧
      chunk'.Overlays (texts ++ f.texts piece) := by
  apply Loops.foldlM_total (P := fun done (chunk : Chunk) =>
    chunk.Overlays (texts ++ done.map fun i => (f.outCell piece i).bytes))
  · simpa using h
  · intro done i rest chunk hsplit hchunk
    obtain ⟨rfl, hi⟩ := Loops.range_eq_append_cons hsplit
    obtain ⟨⟨behind, hval⟩, hlen⟩ := hctx i hi
    have htext : (f.outCell piece i).bytes ∈ f.texts piece :=
      List.mem_map.mpr ⟨i, List.mem_range.mpr hi, rfl⟩
    simpa using overwriteColumn_overlays hval hlen (hfits _ htext) hchunk

/-! ## The pieces in the chunks -/

/-- The chunks have been filled with the pieces of the bins. -/
def HoldPieces (f : FilterInfo) (chunks : List Chunk) (bins : List (List Row)) : Prop :=
  List.Forall₂ (fun chunk bin => chunk.Overlays (bin.flatMap f.texts)) chunks bins

/-- The bins the pieces go into. -/
def FilterInfo.packPieces (f : FilterInfo) (pieces : List Row) : List (List Row) :=
  Packing.pack resChunkSize f.pieceSize pieces

theorem load_texts (f : FilterInfo) (bin : List Row) :
    Packing.load f.pieceSize bin = ((bin.flatMap f.texts).map List.length).sum := by
  induction bin with
  | nil => rfl
  | cons piece bin ih =>
    rw [Packing.load_cons, ih, List.flatMap_cons, List.map_append, List.sum_append]
    rfl

/-- A piece goes where packing puts it, and is written over what is there. -/
theorem serializeRpcolsToChainedChunk_piece {f : FilterInfo} {ctx : ExpCtx} {piece : Row}
    (hctx : ctx.OutputsPiece f piece) (hfits : ∀ text ∈ f.texts piece, text.length ≤ resChunkSize)
    {chunkList : ChunkList} {bins : List (List Row)}
    (hbins : HoldPieces f chunkList.chainedChunk bins) :
    ∃ chunkList', serializeRpcolsToChainedChunk ctx piece.columns.length chunkList
        (f.pieceSize piece) = some chunkList' ∧
      chunkList'.resChunk = chunkList.resChunk ∧
      HoldPieces f chunkList'.chainedChunk
        (Packing.place resChunkSize f.pieceSize bins piece) := by
  have hwrite : ∀ {before : List Chunk} {chunk : Chunk} {texts : List (List UInt8)},
      openChunk chunkList.chainedChunk (f.pieceSize piece) = (before, chunk) →
      chunk.Overlays texts →
      ∃ chunk', serializeRpcolsToChainedChunk ctx piece.columns.length chunkList
          (f.pieceSize piece) = some { chunkList with chainedChunk := before ++ [chunk'] } ∧
        chunk'.Overlays (texts ++ f.texts piece) := by
    intro before chunk texts hopen hchunk
    obtain ⟨chunk', hrun, hchunk'⟩ := foldlM_overwriteColumn hctx hfits hchunk
    exact ⟨chunk', by simp [serializeRpcolsToChainedChunk, hopen, hrun], hchunk'⟩
  rcases List.eq_nil_or_concat bins with rfl | ⟨bins, bin, rfl⟩
  · have hnil : chunkList.chainedChunk = [] := List.forall₂_nil_right_iff.mp hbins
    obtain ⟨chunk', hrun, hchunk'⟩ := hwrite (by rw [openChunk, hnil]; rfl) chunk_overlays_empty
    refine ⟨_, hrun, rfl, ?_⟩
    rw [Packing.place_nil]
    exact .cons (by simpa using hchunk') .nil
  · rw [List.concat_eq_append] at hbins ⊢
    obtain ⟨before, chunk, hchunks, hbefore, hchunk⟩ := forall₂_concat_right hbins
    have hused : chunk.used = Packing.load f.pieceSize bin := by rw [hchunk.used, load_texts]
    rw [Packing.place_concat]
    by_cases hroom : Packing.load f.pieceSize bin + f.pieceSize piece ≤ resChunkSize
    · obtain ⟨chunk', hrun, hchunk'⟩ :=
        hwrite (by rw [hchunks, openChunk_concat, if_neg (by omega)]) hchunk
      rw [if_pos hroom]
      exact ⟨_, hrun, rfl, List.rel_append hbefore (.cons (by simpa using hchunk') .nil)⟩
    · obtain ⟨chunk', hrun, hchunk'⟩ :=
        hwrite (by rw [hchunks, openChunk_concat, if_pos (by omega)]) chunk_overlays_empty
      rw [if_neg hroom]
      exact ⟨_, hrun, rfl,
        List.rel_append (hchunks ▸ hbins) (.cons (by simpa using hchunk') .nil)⟩

end KetiEngine.TmaxLib
