import KetiEngine.Offloading.Serialize

/-!
# Tmax — offloading for Tmax

`t_snippet_scheduling` and the two calls around it. The files of a request
are looked up one after the other, and the snippet of a file is sent as soon
as its CSD is known. The response is handed on by value, so what the
scheduler writes into it stays in the scheduler.
-/

namespace KetiEngine.Offloading

open KetiEngine

/-! ## The messages -/

/-- `TmaxRequest.RequestType`. -/
inductive TmaxRequestType where
  | foRequest | fetchRequest
  deriving DecidableEq, Repr

/-- `TmaxRequest.File.Chunk`. -/
structure TmaxChunk where
  offset : Int
  length : Int
  deriving DecidableEq

/-- `TmaxRequest.File`. -/
structure TmaxFile where
  filename : String
  chunkList : List TmaxChunk := []
  deriving DecidableEq

structure TmaxRequest where
  type : TmaxRequestType := .foRequest
  id : Int := 0
  blockSize : Int := 0
  bufferSize : Int := 0
  filter : List UInt8 := []
  fileList : List TmaxFile := []
  deriving DecidableEq

/-- `TmaxResponse.ResponseType`. -/
inductive TmaxResponseType where
  | foResponse | fetchResponse
  deriving DecidableEq, Repr

/-- `TmaxResponse.TmaxErrorCode`. -/
inductive TmaxErrorCode where
  | none | invalidReqtype
  deriving DecidableEq, Repr

structure TmaxResponse where
  type : TmaxResponseType := .foResponse
  result : List UInt8 := []
  chunkCount : Int := 0
  errorcode : TmaxErrorCode := .none
  deriving DecidableEq

/-- The document that is sent to a CSD. -/
structure TmaxSnippet where
  type : Int
  csdIp : String
  id : Int
  blockSize : Int
  bufferSize : Int
  filterInfo : String
  fileName : String
  chunkList : List TmaxChunk
  deriving DecidableEq

/-! ## The source functions -/

/-- `encode_table`. -/
def encodeTable : List Char :=
  "ABCDEFGHIJKLMNOPQRSTUVWXYZabcdefghijklmnopqrstuvwxyz0123456789+/".toList

/-- `encode_table[n & 0x3F]`. -/
def encodeSextet (n : Nat) : Char := encodeTable.getD (n % 64) '='

/-- One round of `Base64Encode`: a byte and the two after it, if there. -/
def base64Block (a : UInt8) (b c : Option UInt8) : List Char :=
  let block := a.toNat * 2 ^ 16 + (b.getD 0).toNat * 2 ^ 8 + (c.getD 0).toNat
  [encodeSextet (block / 2 ^ 18), encodeSextet (block / 2 ^ 12),
    if b.isSome then encodeSextet (block / 2 ^ 6) else '=',
    if c.isSome then encodeSextet block else '=']

def base64Chars : List UInt8 → List Char
  | [] => []
  | [a] => base64Block a none none
  | [a, b] => base64Block a (some b) none
  | a :: b :: c :: rest => base64Block a (some b) (some c) ++ base64Chars rest

def base64Encode (input : List UInt8) : String := String.ofList (base64Chars input)

/-- `t_offloading_snippet`: the document for a file. Its chunks are those of
every entry with the file's name. -/
def tOffloadingSnippet (request : TmaxRequest) (csdId fileName : String) : TmaxSnippet where
  type := 15
  csdIp := csdIp csdId
  id := request.id
  blockSize := request.blockSize
  bufferSize := request.bufferSize
  filterInfo := base64Encode request.filter
  fileName := fileName
  chunkList := (request.fileList.filter (·.filename = fileName)).flatMap TmaxFile.chunkList

/-- `file_csd_map`. -/
def fileCsdMap : List (String × List String) :=
  [("tdisk0", ["1"]), ("tdisk1", ["8"]), ("tdisk2", ["3"]), ("tdisk3", ["4"]),
    ("tdisk4", ["5"]), ("tdisk5", ["6"]), ("tdisk6", ["7"]),
    ("csd_disk0", ["1"]), ("csd_disk1", ["8"]), ("csd_disk2", ["3"]), ("csd_disk3", ["4"]),
    ("csd_disk4", ["5"]), ("csd_disk5", ["6"]), ("csd_disk6", ["7"]),
    ("tas_csd_disk1", ["1"])]

/-- The loop of `t_snippet_scheduling` over the files: the snippets sent and
the scheduler's response. Both branches on the number of CSDs take the first;
`at(0)` throws when there is none. -/
def scheduleFiles (request : TmaxRequest) (tResponse : TmaxResponse) :
    List TmaxFile → Option (List TmaxSnippet × TmaxResponse)
  | [] => some ([], { tResponse with type := .foResponse, errorcode := .none })
  | file :: rest =>
      match fileCsdMap.lookup file.filename with
      | some csds => do
          let targetCsdId ← csds[0]?
          let (sent, tResponse) ← scheduleFiles request tResponse rest
          pure (tOffloadingSnippet request targetCsdId file.filename :: sent, tResponse)
      | none => some ([], { tResponse with type := .foResponse, errorcode := .invalidReqtype })

/-- `Scheduler::t_snippet_scheduling`. -/
def tSnippetScheduling (request : TmaxRequest) (tResponse : TmaxResponse) :
    Option (List TmaxSnippet × TmaxResponse) :=
  scheduleFiles request tResponse request.fileList

/-- `T_snippet_scheduling`: it has its own copy of the response, too. -/
def staticTSnippetScheduling (request : TmaxRequest) (tResponse : TmaxResponse) :
    Option (List TmaxSnippet) :=
  (tSnippetScheduling request tResponse).map Prod.fst

/-- The RPC `t_snippet_scheduling`: the snippets sent, and the response that
goes back to the caller. -/
def tSnippetSchedulingRpc (request : TmaxRequest) (response : TmaxResponse) :
    Option (List TmaxSnippet × TmaxResponse) :=
  (staticTSnippetScheduling request response).map fun sent => (sent, response)

/-! ## What is sent -/

/-- The scheduler has a CSD for the file. -/
def Known (file : TmaxFile) : Prop := file.filename ∈ fileCsdMap.map Prod.fst

instance (file : TmaxFile) : Decidable (Known file) := by
  unfold Known
  infer_instance

theorem Known.csds {file : TmaxFile} (h : Known file) :
    ∃ csd, fileCsdMap.lookup file.filename = some [csd] := by
  have htable : ∀ name ∈ fileCsdMap.map Prod.fst, ∃ csd ∈ fileCsdMap.flatMap Prod.snd,
      fileCsdMap.lookup name = some [csd] := by decide
  obtain ⟨csd, -, hcsd⟩ := htable file.filename h
  exact ⟨csd, hcsd⟩

theorem lookup_of_not_known {file : TmaxFile} (h : ¬ Known file) :
    fileCsdMap.lookup file.filename = none := by
  rw [List.lookup_eq_none_iff]
  intro e he
  have hne : file.filename ≠ e.1 := fun heq => by
    rw [Known, heq] at h
    exact h (List.mem_map_of_mem he)
  simpa using hne

/-- The scheduler's answer to the files. -/
def filesErrorcode (files : List TmaxFile) : TmaxErrorCode :=
  if ∀ file ∈ files, Known file then .none else .invalidReqtype

/-- **The scheduler** sends the snippets of the files before the first unknown
one, and its own response says whether there is one. -/
theorem scheduleFiles_spec (request : TmaxRequest) (tResponse : TmaxResponse)
    (files : List TmaxFile) :
    ∃ sent, scheduleFiles request tResponse files = some (sent,
        { tResponse with type := .foResponse, errorcode := filesErrorcode files }) ∧
      List.Forall₂ (fun file snippet =>
          ∃ csdId, snippet = tOffloadingSnippet request csdId file.filename)
        (files.takeWhile fun file => Known file) sent := by
  induction files with
  | nil => exact ⟨[], rfl, .nil⟩
  | cons file files ih =>
    by_cases hknown : Known file
    · obtain ⟨csd, hcsd⟩ := hknown.csds
      obtain ⟨sent, hrun, hsent⟩ := ih
      refine ⟨tOffloadingSnippet request csd file.filename :: sent, ?_, ?_⟩
      · simp [scheduleFiles, hcsd, hrun, filesErrorcode, hknown]
      · rw [List.takeWhile_cons_of_pos (by simpa using hknown)]
        exact .cons ⟨csd, rfl⟩ hsent
    · refine ⟨[], ?_, by simp [hknown]⟩
      simp [scheduleFiles, lookup_of_not_known hknown, filesErrorcode, hknown]

/-- A request is rejected as a whole and reported, or accepted. -/
structure RejectsUnknown (request : TmaxRequest) (sent : List TmaxSnippet)
    (response : TmaxResponse) : Prop where
  unknown : (∃ file ∈ request.fileList, ¬ Known file) →
    sent = [] ∧ response.errorcode = .invalidReqtype
  known : (∀ file ∈ request.fileList, Known file) → response.errorcode = .none

/-- **A rejected request is rejected as a whole and reported** by no response:
the RPC answers like that exactly where every file is known. -/
theorem tSnippetSchedulingRpc_rejects_iff (request : TmaxRequest) :
    ∃ sent response, tSnippetSchedulingRpc request {} = some (sent, response) ∧
      (RejectsUnknown request sent response ↔ ∀ file ∈ request.fileList, Known file) := by
  obtain ⟨sent, hrun, -⟩ := scheduleFiles_spec request {} request.fileList
  refine ⟨sent, {}, ?_, ?_⟩
  · simp [tSnippetSchedulingRpc, staticTSnippetScheduling, tSnippetScheduling, hrun]
  · constructor
    · intro h file hfile
      by_contra hunknown
      exact absurd (h.unknown ⟨file, hfile, hunknown⟩).2 (by decide)
    · intro hknown
      exact ⟨fun ⟨file, hfile, hunknown⟩ => absurd (hknown file hfile) hunknown, fun _ => rfl⟩

/-- A file of the table and one that is not in it. -/
def halfKnown : TmaxRequest where
  fileList := [⟨"tdisk1", [⟨0, 4096⟩]⟩, ⟨"backup", []⟩]

/-- The first file is known, the second is not: one snippet is sent, and the
response carries no error. -/
theorem tSnippetSchedulingRpc_half_sent :
    ∃ sent response, tSnippetSchedulingRpc halfKnown {} = some (sent, response) ∧
      sent.length = 1 ∧ response.errorcode = .none ∧ ¬ RejectsUnknown halfKnown sent response := by
  refine ⟨_, _, rfl, rfl, rfl, fun h => ?_⟩
  exact absurd (h.unknown ⟨⟨"backup", []⟩, by decide, by decide⟩).1 (by decide)

end KetiEngine.Offloading
