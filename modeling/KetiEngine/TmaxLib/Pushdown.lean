import KetiEngine.Offloading.FilterEncoding
import KetiEngine.TmaxLib.ResultBuffer

/-!
# Pushdown — a filter on its way out and the rows on their way back

The filter of a request goes into the documents for the CSDs as base64. What
the library sends back for it are the selected rows, cut into chunks and
buffers.
-/

namespace KetiEngine.TmaxLib

open KetiEngine Offloading

/-! ## The filter -/

theorem filterInfo_of_mem_sent {request : TmaxRequest} {files : List TmaxFile}
    {response response' : TmaxResponse} {sent : List TmaxSnippet}
    (h : scheduleFiles request response files = some (sent, response')) :
    ∀ s ∈ sent, s.filterInfo = base64Encode request.filter := by
  induction files generalizing sent response' with
  | nil =>
    cases h
    simp
  | cons file files ih =>
    rw [scheduleFiles] at h
    split at h
    · obtain ⟨csd, -, h⟩ := Option.bind_eq_some_iff.mp h
      obtain ⟨⟨sent', resp⟩, hrest, h⟩ := Option.bind_eq_some_iff.mp h
      cases h
      rintro s hs
      rcases List.mem_cons.mp hs with rfl | hs
      · rfl
      · exact ih hrest s hs
    · cases h
      simp

/-- **The way out**: from every document that is sent for a request, a CSD
reads the filter the request was made with. -/
theorem sent_filter_read {request : TmaxRequest} {response response' : TmaxResponse}
    {sent : List TmaxSnippet} (hsent : tSnippetScheduling request response = some (sent, response'))
    {f : FilterInfo} (hf : f.WellFormed) (hrequest : request.filter = f.encode) :
    ∀ s ∈ sent, ∃ text, Base64.decode Base64.standardValue? '=' s.filterInfo.toList = some text ∧
      deserializeFilterInfo.run text = some (f, []) := by
  intro s hs
  refine ⟨f.encode, ?_, ?_⟩
  · rw [filterInfo_of_mem_sent hsent s hs, base64Encode, String.toList_ofList, base64Chars_eq,
      hrequest]
    exact Base64.decode_encode standardValue?_encodeSextet rfl f.encode
  · have hread := reads_deserializeFilterInfo.read_write hf []
    rwa [List.append_nil] at hread

/-- A request with the filter of `csd_info.dump`. -/
def dumpRequest : TmaxRequest where
  filter := csdInfo.encode
  fileList := [{ filename := "tdisk0", chunkList := [] }]

theorem dumpRequest_read :
    ∃ text, Base64.decode Base64.standardValue? '='
        (tOffloadingSnippet dumpRequest "1" "tdisk0").filterInfo.toList = some text ∧
      deserializeFilterInfo.run text = some (csdInfo, []) :=
  sent_filter_read (show tSnippetScheduling dumpRequest {} = some (_, {}) from rfl)
    csdInfo_wellFormed rfl _ (List.mem_singleton_self _)

/-! ## The rows -/

/-- The cells of the output, row by row. -/
def FilterInfo.outCells (f : FilterInfo) (rows : List Row) : List Column :=
  rows.flatMap fun row => (List.range f.colCnt.toNat).map (f.outCell row)

theorem outCells_bytes (f : FilterInfo) (rows : List Row) :
    (f.outCells rows).flatMap (·.bytes) = rows.flatMap f.output := by
  rw [FilterInfo.outCells, List.flatMap_assoc]
  simp only [List.flatMap_map]
  rfl

/-- What the reader of the buffers makes of them: the columns in the frames. -/
def readCells (n : Nat) (frames : List (UInt8 × List UInt8)) : Option (List Column) :=
  ((Codec.many readColumn n).run (frames.flatMap (·.2))).map Prod.fst

/-- **The way back**: when a buffer has room for a chunk and its header, the
rows the filter selects in the blocks are read back out of the buffers, in
their order and with the columns asked for, once the low bytes of the headers
are negated. -/
theorem pushdown_rows_read {f : FilterInfo} (hf : f.Sound) {blks : List Blk}
    {entriess : List (List (Option Piece))} (hblks : List.Forall₂ Lists blks entriess)
    (hread : ∀ entries ∈ entriess, ∀ p ∈ entries.reduceOption, f.ReadsWhole p)
    (hfit : f.Fit (entriess.flatMap f.select)) (hsome : entriess.flatMap f.select ≠ [])
    {bigChunkSize : Nat} (hsize : resChunkSize + 3 ≤ bigChunkSize) :
    ∃ chunkList n buffers text frames, filterBlocks f blks {} = some chunkList ∧
      transfer chunkList bigChunkSize n 0 = some (buffers, true) ∧
      (∀ buffer ∈ buffers, buffer.length ≤ bigChunkSize) ∧ buffers.flatten = text.map some ∧
      readFrames bigEndianNegated chunkList.resChunk.length text = some frames ∧
      readCells (f.outCells (entriess.flatMap f.select)).length frames =
        some (f.outCells (entriess.flatMap f.select)) := by
  have hrun := filterBlocks_rows hf hblks hread
  rw [if_pos hfit] at hrun
  obtain ⟨chunkList, hrun, hchained, hkept⟩ := hrun
  have hbins := hkept.rows
  generalize hrows : entriess.flatMap f.select = rows at *
  have hpacked : Packing.Packed resChunkSize (fun row => (f.output row).length) rows
      (f.packRows rows) := Packing.packed_pack _
  -- the chunks are the bins of rows
  let contents := (f.packRows rows).map (·.flatMap f.output)
  have hcontents : chunkList.Contains contents :=
    ⟨List.forall₂_map_right_iff.mpr hbins, hchained⟩
  have hflat : contents.flatten = rows.flatMap f.output := by
    rw [← hpacked.flatten]
    exact Packing.flatten_map_flatMap f.output _
  have hne : contents ≠ [] := by
    intro hnil
    have hbinsnil : f.packRows rows = [] := List.map_eq_nil_iff.mp hnil
    exact hsome (by rw [← hpacked.flatten, hbinsnil]; rfl)
  have hframe : ∀ c ∈ contents, frameSize c ≤ bigChunkSize := by
    intro c hc
    have := length_le_of_is hcontents.resChunk hc
    unfold frameSize
    omega
  have hbuffers : Packing.Packed bigChunkSize frameSize contents _ := Packing.packed_pack _
  have hsent : transfer chunkList bigChunkSize _ ([] : List (List UInt8)).length = _ :=
    transfer_contains hcontents hframe hne le_rfl
  refine ⟨chunkList, _, buffersOf bigChunkSize contents, contents.flatMap frame,
    contents.map (0, ·), hrun, hsent, ?_, ?_, ?_, ?_⟩
  · intro buffer hbuffer
    obtain ⟨bin, hbin, rfl⟩ := List.mem_map.mp hbuffer
    have hload := hbuffers.load_le hframe bin hbin
    simpa [Packing.load, List.length_flatMap] using hload
  · have hflatten := Packing.flatten_map_flatMap (fun c => (frame c).map some)
      (Packing.pack bigChunkSize frameSize contents)
    rw [hbuffers.flatten] at hflatten
    simpa [buffersOf, List.map_flatMap] using hflatten
  · rw [hcontents.resChunk.length_eq, readFrames_iff _ le_rfl]
    exact fun c hc => headerSize_bigEndianNegated (length_lt_of_is hcontents.resChunk hc)
  · have hcells := (reads_column.many (f.outCells rows).length).read_write
      (a := f.outCells rows) ⟨rfl, by simp⟩ []
    have hframes : (contents.map ((0 : UInt8), ·)).flatMap (·.2) =
        (f.outCells rows).flatMap (·.bytes) := by
      rw [outCells_bytes, ← hflat, List.flatMap_map, List.flatMap_id']
    rw [readCells, hframes]
    rw [List.append_nil] at hcells
    rw [hcells]
    rfl

theorem charBlock_rows_read :
    ∃ chunkList n buffers text frames, filterBlocks csdInfo [charBlock] {} = some chunkList ∧
      transfer chunkList 65536 n 0 = some (buffers, true) ∧
      (∀ buffer ∈ buffers, buffer.length ≤ 65536) ∧ buffers.flatten = text.map some ∧
      readFrames bigEndianNegated chunkList.resChunk.length text = some frames ∧
      readCells (csdInfo.outCells ([[some wholeRow, none]].flatMap csdInfo.select)).length frames =
        some (csdInfo.outCells ([[some wholeRow, none]].flatMap csdInfo.select)) :=
  pushdown_rows_read csdInfo_sound (.cons charBlock_lists .nil) (by decide) (by decide)
    (by decide) (by decide)

end KetiEngine.TmaxLib
