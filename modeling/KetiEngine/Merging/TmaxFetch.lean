import KetiEngine.Merging.TmaxBuffer
import KetiEngine.Offloading.Tmax

/-!
# TmaxFetch — the RPC that hands out a chunk

`GetTmaxQueryResult` takes a chunk first and looks at the type of the request
then. A request of another type gets an error, and its chunk is gone.
-/

namespace KetiEngine.Merging

open KetiEngine Offloading

/-! ## The source function -/

/-- `grpc::StatusCode`, as far as it is used. -/
inductive StatusCode where
  | ok | invalidArgument
  deriving DecidableEq, Repr

/-- What a call is answered with. -/
structure TmaxReply where
  status : StatusCode
  response : TmaxResponse
  deriving DecidableEq

/-- The part of `GetTmaxQueryResult` that follows `t_get_result`. -/
def tmaxReply (tRequest : TmaxRequest) (chunkBuffer : ChunkBuffer) : TmaxReply :=
  if tRequest.type = .fetchRequest then
    { status := .ok
      response :=
        { type := .fetchResponse
          chunkCount := chunkBuffer.chunkCount
          result := chunkBuffer.result
          errorcode := .none } }
  else
    { status := .invalidArgument
      response := { type := .fetchResponse, errorcode := .invalidReqtype } }

/-- `GetTmaxQueryResult`; there is no answer while it waits for a chunk. -/
def getTmaxQueryResult (db : TmaxDataBuffer) (tRequest : TmaxRequest) :
    TmaxDataBuffer × Option TmaxReply :=
  let db := tInitializeBuffer db tRequest.id
  match tGetResult db tRequest.id with
  | none => (db, none)
  | some (chunkBuffer, db) => (db, some (tmaxReply tRequest chunkBuffer))

/-- The buffers after some calls. -/
def afterCalls (db : TmaxDataBuffer) (calls : List TmaxRequest) : TmaxDataBuffer :=
  calls.foldl (fun db tRequest => (getTmaxQueryResult db tRequest).1) db

/-- What the FETCH_REQUEST calls among some calls are answered with. -/
def fetchReplies (db : TmaxDataBuffer) : List TmaxRequest → List (Option TmaxReply)
  | [] => []
  | tRequest :: calls =>
      let (db, reply) := getTmaxQueryResult db tRequest
      if tRequest.type = .fetchRequest then reply :: fetchReplies db calls
      else fetchReplies db calls

/-! ## What one call does -/

section
variable (db : TmaxDataBuffer) (tRequest : TmaxRequest)

/-- A call takes the last chunk of its id, if there is one. -/
theorem chunkBuffer_getTmaxQueryResult (id : Int) :
    (getTmaxQueryResult db tRequest).1.chunkBuffer id =
      if id = tRequest.id then (db.chunkBuffer id).dropLast else db.chunkBuffer id := by
  unfold getTmaxQueryResult
  cases htake : tGetResult (tInitializeBuffer db tRequest.id) tRequest.id with
  | none =>
    have hempty := tGetResult_isSome (tInitializeBuffer db tRequest.id) tRequest.id
    rw [htake, chunkBuffer_tInitializeBuffer] at hempty
    simp only [htake, chunkBuffer_tInitializeBuffer]
    split
    · rename_i hid
      have hnil : db.chunkBuffer tRequest.id = [] := by simpa using hempty
      rw [hid, hnil, List.dropLast_nil]
    · rfl
  | some x =>
    have hspec := tGetResult_spec htake id
    rw [chunkBuffer_tInitializeBuffer] at hspec
    simp only [htake, hspec]
    split <;> simp

/-- A call is answered by the last chunk of its id. -/
theorem reply_getTmaxQueryResult :
    (getTmaxQueryResult db tRequest).2 =
      (db.chunkBuffer tRequest.id).getLast?.map (tmaxReply tRequest) := by
  simp only [getTmaxQueryResult, tGetResult, chunkBuffer_tInitializeBuffer]
  cases (db.chunkBuffer tRequest.id).getLast? <;> rfl

theorem tmaxReply_errorcode (chunkBuffer : ChunkBuffer) :
    (tmaxReply tRequest chunkBuffer).response.errorcode = .invalidReqtype ↔
      tRequest.type ≠ .fetchRequest := by
  unfold tmaxReply
  split <;> simp_all

end

/-- After some calls the chunks of an id are fewer by the calls for it. -/
theorem length_chunkBuffer_afterCalls (db : TmaxDataBuffer) (calls : List TmaxRequest)
    (id : Int) :
    ((afterCalls db calls).chunkBuffer id).length =
      (db.chunkBuffer id).length - calls.countP (·.id = id) := by
  unfold afterCalls
  induction calls generalizing db with
  | nil => rfl
  | cons tRequest calls ih =>
    rw [List.foldl_cons, ih, chunkBuffer_getTmaxQueryResult, List.countP_cons]
    by_cases hid : id = tRequest.id
    · subst hid
      simp
      omega
    · simp [hid, Ne.symm hid]

/-- Calls see nothing of the buffers but their chunks. -/
theorem fetchReplies_congr {db db' : TmaxDataBuffer}
    (h : ∀ id, db.chunkBuffer id = db'.chunkBuffer id) (calls : List TmaxRequest) :
    fetchReplies db calls = fetchReplies db' calls := by
  induction calls generalizing db db' with
  | nil => rfl
  | cons tRequest calls ih =>
    have hnext := @ih (getTmaxQueryResult db tRequest).1 (getTmaxQueryResult db' tRequest).1
      fun id => by rw [chunkBuffer_getTmaxQueryResult, chunkBuffer_getTmaxQueryResult, h]
    have hreply : (getTmaxQueryResult db tRequest).2 = (getTmaxQueryResult db' tRequest).2 := by
      rw [reply_getTmaxQueryResult, reply_getTmaxQueryResult, h]
    simp only [fetchReplies, hreply, hnext]

/-! ## Calls of any type -/

/-- A rejected call keeps the chunks of its id, and the FETCH_REQUEST calls
are answered as if the other calls were not there. -/
structure LosesNothing (db : TmaxDataBuffer) (calls : List TmaxRequest) : Prop where
  kept : ∀ before tRequest after reply, calls = before ++ tRequest :: after →
    (getTmaxQueryResult (afterCalls db before) tRequest).2 = some reply →
    reply.response.errorcode = .invalidReqtype →
    (afterCalls db (before ++ [tRequest])).chunkBuffer tRequest.id =
      (afterCalls db before).chunkBuffer tRequest.id
  sameChunks : fetchReplies db calls = fetchReplies db (calls.filter (·.type = .fetchRequest))

/-- Where a call that is no FETCH_REQUEST comes, the calls before it have used
up the chunks of its id. -/
def RejectedTooLate (db : TmaxDataBuffer) (calls : List TmaxRequest) : Prop :=
  ∀ before tRequest after, calls = before ++ tRequest :: after →
    tRequest.type ≠ .fetchRequest →
    (db.chunkBuffer tRequest.id).length ≤ before.countP (·.id = tRequest.id)

theorem RejectedTooLate.empty {db : TmaxDataBuffer} {calls before after : List TmaxRequest}
    {tRequest : TmaxRequest} (h : RejectedTooLate db calls)
    (hcalls : calls = before ++ tRequest :: after) (htype : tRequest.type ≠ .fetchRequest) :
    (afterCalls db before).chunkBuffer tRequest.id = [] := by
  have hlength := length_chunkBuffer_afterCalls db before tRequest.id
  have hused := h before tRequest after hcalls htype
  exact List.eq_nil_of_length_eq_zero (by omega)

theorem RejectedTooLate.tail {db : TmaxDataBuffer} {calls : List TmaxRequest}
    {tRequest : TmaxRequest} (h : RejectedTooLate db (tRequest :: calls)) :
    RejectedTooLate (getTmaxQueryResult db tRequest).1 calls := by
  intro before other after hcalls htype
  have hused := h (tRequest :: before) other after (by rw [hcalls, List.cons_append]) htype
  rw [List.countP_cons] at hused
  rw [chunkBuffer_getTmaxQueryResult]
  by_cases hid : other.id = tRequest.id
  · simp [hid] at hused ⊢
    omega
  · simpa [hid, Ne.symm hid] using hused

theorem RejectedTooLate.sameChunks {db : TmaxDataBuffer} {calls : List TmaxRequest}
    (h : RejectedTooLate db calls) :
    fetchReplies db calls = fetchReplies db (calls.filter (·.type = .fetchRequest)) := by
  induction calls generalizing db with
  | nil => rfl
  | cons tRequest calls ih =>
    have hrest := ih h.tail
    by_cases htype : tRequest.type = .fetchRequest
    · simp [fetchReplies, htype, hrest]
    · -- the call finds no chunk and changes none
      have hempty : db.chunkBuffer tRequest.id = [] :=
        @RejectedTooLate.empty db _ [] calls tRequest h rfl htype
      have hsame : ∀ id, (getTmaxQueryResult db tRequest).1.chunkBuffer id =
          db.chunkBuffer id := by
        intro id
        rw [chunkBuffer_getTmaxQueryResult]
        split
        · rename_i hid
          rw [hid, hempty, List.dropLast_nil]
        · rfl
      simp only [fetchReplies, htype, if_false, hrest, fetchReplies_congr hsame]
      rw [List.filter_cons_of_neg (by simpa using htype)]

/-- **A rejected call loses nothing** exactly when there is no chunk left for
it to lose. -/
theorem losesNothing_iff (db : TmaxDataBuffer) (calls : List TmaxRequest) :
    LosesNothing db calls ↔ RejectedTooLate db calls := by
  constructor
  · intro h before tRequest after hcalls htype
    by_contra hleft
    have hlength := length_chunkBuffer_afterCalls db before tRequest.id
    have hne : (afterCalls db before).chunkBuffer tRequest.id ≠ [] := by
      rw [← List.length_pos_iff]
      omega
    have hreply := reply_getTmaxQueryResult (afterCalls db before) tRequest
    rw [List.getLast?_eq_some_getLast hne, Option.map_some] at hreply
    have hkept := h.kept before tRequest after _ hcalls hreply
      ((tmaxReply_errorcode tRequest _).mpr htype)
    -- but the call took the last chunk
    have hnext : afterCalls db (before ++ [tRequest]) =
        (getTmaxQueryResult (afterCalls db before) tRequest).1 := by
      simp [afterCalls]
    rw [hnext, chunkBuffer_getTmaxQueryResult, if_pos rfl] at hkept
    have hdrop := congrArg List.length hkept
    rw [List.length_dropLast] at hdrop
    have hpos := List.length_pos_iff.mpr hne
    omega
  · intro h
    refine ⟨fun before tRequest after reply hcalls hreply hcode => ?_, h.sameChunks⟩
    rw [reply_getTmaxQueryResult] at hreply
    obtain ⟨chunk, hchunk, rfl⟩ := Option.map_eq_some_iff.mp hreply
    rw [h.empty hcalls ((tmaxReply_errorcode tRequest chunk).mp hcode)] at hchunk
    cases hchunk

/-- The buffers with one chunk for id 1. -/
def oneChunk : TmaxDataBuffer := AList.singleton 1 { chunkBuffer := [⟨1, [104, 105]⟩] }

/-- A call of another type before a FETCH_REQUEST takes the chunk, and the
FETCH_REQUEST waits. -/
theorem rejected_loses_chunk :
    (getTmaxQueryResult oneChunk { id := 1 }).2 =
      some ⟨.invalidArgument, { type := .fetchResponse, errorcode := .invalidReqtype }⟩ ∧
    fetchReplies oneChunk [{ id := 1 }, { type := .fetchRequest, id := 1 }] = [none] ∧
    fetchReplies oneChunk [{ type := .fetchRequest, id := 1 }] =
      [some ⟨.ok, { type := .fetchResponse, result := [104, 105], chunkCount := 1 }⟩] ∧
    ¬ LosesNothing oneChunk [{ id := 1 }, { type := .fetchRequest, id := 1 }] := by
  refine ⟨by decide, by decide, by decide, fun h => ?_⟩
  exact absurd h.sameChunks (by decide)

end KetiEngine.Merging
