import KetiEngine.Lib.Groups
import KetiEngine.Lib.Loops
import KetiEngine.Offloading.Tmax

/-!
# TmaxChunks — the chunks a Tmax request has offloaded

`t_snippet_scheduling` goes through the files of a request, and for each of
them `t_offloading_snippet` goes through the files again and takes the chunks
of all with the same name. A chunk is sent as often as its file is named.
-/

namespace KetiEngine.Offloading

open KetiEngine Groups

/-- The chunks of a file under its name. -/
def TmaxFile.entries (file : TmaxFile) : List (String × TmaxChunk) :=
  file.chunkList.map fun chunk => (file.filename, chunk)

/-- The chunks a CSD is sent, under the name in its snippet. -/
def TmaxSnippet.entries (snippet : TmaxSnippet) : List (String × TmaxChunk) :=
  snippet.chunkList.map fun chunk => (snippet.fileName, chunk)

/-- The snippets hold every chunk of the request, as often as the request
has it. -/
def OffloadsOnce (request : TmaxRequest) (sent : List TmaxSnippet) : Prop :=
  (sent.flatMap TmaxSnippet.entries).Perm (request.fileList.flatMap TmaxFile.entries)

/-- The snippet of a file holds the chunks of all entries of its name. -/
theorem entries_tOffloadingSnippet (request : TmaxRequest) (csdId fileName : String) :
    (tOffloadingSnippet request csdId fileName).entries =
      (group TmaxFile.filename request.fileList fileName).flatMap TmaxFile.entries := by
  simp only [TmaxSnippet.entries, tOffloadingSnippet, List.map_flatMap, group]
  refine List.flatMap_congr fun file hfile => ?_
  have hname : file.filename = fileName := of_decide_eq_true (List.mem_filter.mp hfile).2
  rw [TmaxFile.entries, hname]

/-- **The snippets sent** for known files visit the group of each file. -/
theorem tSnippetScheduling_entries {request : TmaxRequest} (tResponse : TmaxResponse)
    (hknown : ∀ file ∈ request.fileList, Known file) :
    ∃ sent response, tSnippetScheduling request tResponse = some (sent, response) ∧
      sent.flatMap TmaxSnippet.entries =
        visited TmaxFile.filename TmaxFile.entries request.fileList := by
  obtain ⟨sent, hrun, hsent⟩ := scheduleFiles_spec request tResponse request.fileList
  refine ⟨sent, _, hrun, ?_⟩
  have hall : (request.fileList.takeWhile fun file => Known file) = request.fileList :=
    List.takeWhile_eq_self_iff.mpr fun file hfile => decide_eq_true (hknown file hfile)
  rw [hall] at hsent
  have hentries : sent.map TmaxSnippet.entries = request.fileList.map fun file =>
      (group TmaxFile.filename request.fileList file.filename).flatMap TmaxFile.entries := by
    refine Loops.map_eq_of_forall₂ (fun file snippet h => ?_) hsent
    obtain ⟨csdId, rfl⟩ := h
    exact entries_tOffloadingSnippet request csdId file.filename
  rw [visited, List.flatMap_def, hentries, ← List.flatMap_def]

/-- **Every requested chunk is offloaded exactly once** if and only if no file
with chunks is named twice. -/
theorem tSnippetScheduling_offloadsOnce_iff {request : TmaxRequest} (tResponse : TmaxResponse)
    (hknown : ∀ file ∈ request.fileList, Known file) :
    (∃ sent response, tSnippetScheduling request tResponse = some (sent, response) ∧
      OffloadsOnce request sent) ↔
    ∀ file ∈ request.fileList, file.chunkList ≠ [] →
      request.fileList.countP (·.filename = file.filename) = 1 := by
  obtain ⟨sent, response, hrun, hentries⟩ := tSnippetScheduling_entries tResponse hknown
  have honce : (∃ sent response, tSnippetScheduling request tResponse = some (sent, response) ∧
      OffloadsOnce request sent) ↔ OffloadsOnce request sent := by
    constructor
    · rintro ⟨sent', response', hrun', h⟩
      obtain ⟨rfl, -⟩ := Prod.mk.inj (Option.some.inj (hrun.symm.trans hrun'))
      exact h
    · exact fun h => ⟨sent, response, hrun, h⟩
  rw [honce, OffloadsOnce, hentries, visited_perm_flatMap_iff]
  refine forall₂_congr fun file _ => ?_
  simp only [TmaxFile.entries, ne_eq, List.map_eq_nil_iff, group, List.countP_eq_length_filter]

/-- Two files, one of them with two chunks. -/
def twoFiles : TmaxRequest where
  fileList := [⟨"tdisk0", [⟨0, 4096⟩, ⟨4096, 4096⟩]⟩, ⟨"tdisk1", [⟨0, 4096⟩]⟩]

theorem tSnippetScheduling_twoFiles :
    ∃ sent response, tSnippetScheduling twoFiles {} = some (sent, response) ∧
      OffloadsOnce twoFiles sent :=
  (@tSnippetScheduling_offloadsOnce_iff twoFiles {} (by decide)).mpr (by decide)

/-- One file named twice, with one chunk each time. -/
def splitFile : TmaxRequest where
  fileList := [⟨"tdisk1", [⟨0, 4096⟩]⟩, ⟨"tdisk1", [⟨4096, 4096⟩]⟩]

/-- Both snippets hold both chunks. -/
theorem tSnippetScheduling_sends_twice :
    (∀ file ∈ splitFile.fileList, Known file) ∧
    ∃ sent response, tSnippetScheduling splitFile {} = some (sent, response) ∧
      sent.map TmaxSnippet.chunkList =
        [[⟨0, 4096⟩, ⟨4096, 4096⟩], [⟨0, 4096⟩, ⟨4096, 4096⟩]] ∧
      ¬ OffloadsOnce splitFile sent := by
  refine ⟨by decide, _, _, rfl, rfl, fun h => ?_⟩
  exact absurd h.length_eq (by decide)

end KetiEngine.Offloading
