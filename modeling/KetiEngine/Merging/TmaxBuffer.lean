import KetiEngine.Lib.Monitor
import Mathlib.Data.List.AList

/-!
# TmaxBuffer — the chunks of the Tmax queries

`t_result_merging` appends a chunk to the buffer of its id and notifies all
calls of `t_get_result` that wait for one; such a call takes the last chunk.
It tests for a chunk before the wait and not after it, so the calls are those
of a monitor that waits once.
-/

namespace KetiEngine.Merging

open Runs Monitor

/-- What `t_result_merging` reads of its JSON document. -/
structure TmaxDocument where
  id : Int
  chunkCount : Int

structure ChunkBuffer where
  chunkCount : Int
  result : List UInt8
  deriving DecidableEq

structure TmaxQueryBuffer where
  chunkBuffer : List ChunkBuffer := []

/-- `TmaxDataBuffer_`: the buffers by id. -/
abbrev TmaxDataBuffer := AList (fun _ : Int => TmaxQueryBuffer)

/-- `TmaxDataBuffer_[id].chunk_buffer`. -/
def TmaxDataBuffer.chunkBuffer (db : TmaxDataBuffer) (id : Int) : List ChunkBuffer :=
  ((db.lookup id).getD {}).chunkBuffer

def tInitializeBuffer (db : TmaxDataBuffer) (id : Int) : TmaxDataBuffer :=
  if id ∈ db then db else db.insert id {}

/-- The chunk of a delivery, if its document can be parsed. -/
def deliveredChunk (document : Option TmaxDocument) (data : List UInt8) :
    Option (Int × ChunkBuffer) :=
  document.map fun d => (d.id, { chunkCount := d.chunkCount, result := data })

/-- The part of `t_result_merging` that follows `t_initialize_buffer`. -/
def tResultMerging (db : TmaxDataBuffer) (document : Option TmaxDocument)
    (data : List UInt8) : TmaxDataBuffer :=
  match deliveredChunk document data with
  | none => db
  | some (id, chunk) => db.insert id { chunkBuffer := db.chunkBuffer id ++ [chunk] }

/-- The part of `t_get_result` that follows the wait: `back()` and
`pop_back()`, which have no meaning on an empty vector. -/
def tGetResult (db : TmaxDataBuffer) (id : Int) : Option (ChunkBuffer × TmaxDataBuffer) :=
  match (db.chunkBuffer id).getLast? with
  | none => none
  | some lastChunk => some (lastChunk,
      db.insert id { chunkBuffer := (db.chunkBuffer id).dropLast })

/-! ## What the functions do to the chunks of an id -/

section
variable (db : TmaxDataBuffer) (id other : Int)

@[simp] theorem chunkBuffer_tInitializeBuffer :
    (tInitializeBuffer db other).chunkBuffer id = db.chunkBuffer id := by
  unfold tInitializeBuffer
  split
  · rfl
  · rename_i hmem
    by_cases hid : id = other
    · subst hid
      simp [TmaxDataBuffer.chunkBuffer, AList.lookup_eq_none.mpr hmem]
    · simp [TmaxDataBuffer.chunkBuffer, AList.lookup_insert_ne hid]

theorem chunkBuffer_insert (chunks : List ChunkBuffer) :
    TmaxDataBuffer.chunkBuffer (db.insert other { chunkBuffer := chunks }) id =
      if id = other then chunks else db.chunkBuffer id := by
  split
  · rename_i hid
    subst hid
    simp [TmaxDataBuffer.chunkBuffer]
  · rename_i hid
    simp [TmaxDataBuffer.chunkBuffer, AList.lookup_insert_ne hid]

/-- The chunks of `id` in a history of chunks. -/
def chunksOf (history : List (Int × ChunkBuffer)) : List ChunkBuffer :=
  (history.filter fun x => x.1 = id).map Prod.snd

theorem chunkBuffer_tResultMerging (document : Option TmaxDocument) (data : List UInt8) :
    (tResultMerging db document data).chunkBuffer id =
      db.chunkBuffer id ++ chunksOf id (deliveredChunk document data).toList := by
  unfold tResultMerging
  cases deliveredChunk document data with
  | none => simp [chunksOf]
  | some x =>
    simp only [chunkBuffer_insert, Option.toList_some, chunksOf]
    by_cases hid : id = x.1
    · simp [hid]
    · simp [hid, Ne.symm hid]

theorem tGetResult_isSome :
    (tGetResult db id).isSome = !(db.chunkBuffer id).isEmpty := by
  unfold tGetResult
  cases h : db.chunkBuffer id with
  | nil => rfl
  | cons chunk chunks => simp [List.getLast?_cons]

/-- The chunk that is taken was the last of its id; the others stay. -/
theorem tGetResult_spec {db db' : TmaxDataBuffer} {id : Int} {chunk : ChunkBuffer}
    (h : tGetResult db id = some (chunk, db')) (other : Int) :
    db.chunkBuffer other =
      db'.chunkBuffer other ++ if other = id then [chunk] else [] := by
  unfold tGetResult at h
  split at h
  · cases h
  · rename_i last hlast
    cases h
    rw [chunkBuffer_insert]
    split
    · rename_i hid
      rw [hid]
      exact (List.dropLast_append_getLast? chunk hlast).symm
    · simp

end

/-! ## The calls and the deliveries -/

/-- The buffers, and the history of the chunks delivered. -/
structure TmaxState where
  dataBuffer : TmaxDataBuffer := ∅
  delivered : List (Int × ChunkBuffer) := []

/-- The two critical sections of `t_result_merging`. It calls
`t_initialize_buffer` with a variable that has no value yet, so with any. -/
inductive TmaxDelivery where
  | create (id : Int)
  | merge (document : Option TmaxDocument) (data : List UInt8)

/-- Calls of `t_get_result` among deliveries. -/
def tmaxProtocol : Protocol TmaxState TmaxDelivery Int ChunkBuffer where
  act s
    | .create id => some { s with dataBuffer := tInitializeBuffer s.dataBuffer id }
    | .merge document data => some
        { dataBuffer := tResultMerging s.dataBuffer document data
          delivered := s.delivered ++ (deliveredChunk document data).toList }
  notifies _ w id :=
    match w with
    | .create _ => false
    | .merge document _ => document.any (·.id = id)
  enter s id := { s with dataBuffer := tInitializeBuffer s.dataBuffer id }
  reaches _ _ := true
  ready s id := !(s.dataBuffer.chunkBuffer id).isEmpty
  body s id := (tGetResult s.dataBuffer id).map fun x => (x.1, { s with dataBuffer := x.2 })

/-- The calls of `t_get_result` and the buffers between them. -/
abbrev TmaxCalls (C : Type) := Monitor.State C TmaxState Int ChunkBuffer

/-- The chunks that calls for `id` returned. -/
def returnedChunks {C : Type} (id : Int) (s : TmaxCalls C) : List ChunkBuffer :=
  chunksOf id (s.results.map Prod.snd)

/-- Every chunk of every id is in its buffer or was returned. -/
def Conserves {C : Type} (s : TmaxCalls C) : Prop :=
  ∀ id, (returnedChunks id s ++ s.shared.dataBuffer.chunkBuffer id).Perm
    (chunksOf id s.shared.delivered)

theorem Conserves.step {C : Type} [DecidableEq C] {s s' : TmaxCalls C}
    {e : Event C TmaxDelivery Int} (h : Conserves s) (hstep : tmaxProtocol.step s e = some s') :
    Conserves s' := by
  intro id
  have hid := h id
  rcases Protocol.step_cases hstep with ⟨w, shared, -, hact, rfl⟩ | ⟨c, asked, -, -, rfl⟩ |
    ⟨c, asked, -, -, -, -, rfl⟩ | ⟨c, asked, -, rfl⟩
  · cases w with
    | create other =>
      cases hact
      simpa [returnedChunks] using hid
    | merge document data =>
      cases hact
      have hmore := hid.append_right (chunksOf id (deliveredChunk document data).toList)
      simpa [returnedChunks, chunkBuffer_tResultMerging, chunksOf] using hmore
  · simpa [tmaxProtocol, returnedChunks] using hid
  · exact hid
  · cases hbody : tmaxProtocol.body s.shared asked with
    | none =>
      rw [Protocol.finish_of_none hbody]
      exact hid
    | some x =>
      rw [Protocol.finish_of_some hbody]
      obtain ⟨⟨chunk, db⟩, htake, rfl⟩ := Option.map_eq_some_iff.mp hbody
      have hspec := tGetResult_spec htake id
      rw [hspec] at hid
      refine .trans ?_ hid
      by_cases hasked : id = asked
      · -- the chunk goes from the end of the list to the results
        subst hasked
        have hswap : ([chunk] ++ db.chunkBuffer id).Perm (db.chunkBuffer id ++ [chunk]) :=
          List.perm_append_comm
        simpa [returnedChunks, chunksOf] using hswap.append_left (returnedChunks id s)
      · simp [returnedChunks, chunksOf, hasked, Ne.symm hasked]

theorem conserves_of_run {C : Type} [DecidableEq C] {s : TmaxCalls C}
    {es : List (Event C TmaxDelivery Int)}
    (hrun : run tmaxProtocol.step { shared := {} } es = some s) : Conserves s :=
  run_keeps (fun _ _ _ h hstep => h.step hstep) (fun _ => .refl _) hrun

/-- The chunks of `id` are handed out once each: no call takes a chunk from
an empty list, each call that returned has one result, and the results and
the chunks still stored are together the chunks delivered. -/
structure HandedOutOnce {C : Type} (id : Int) (s : TmaxCalls C) : Prop where
  neverEmpty : ∀ c, s.calls c ≠ .failed id
  recorded : Protocol.Recorded s
  conserved : (returnedChunks id s ++ s.shared.dataBuffer.chunkBuffer id).Perm
    (chunksOf id s.shared.delivered)

/-- **When chunks are handed out once.** In every run of deliveries and calls
the chunks of `id` are handed out once each exactly when no wait for `id` ends
while there is no chunk: the wait has no second test. -/
theorem tmaxChunks_handedOutOnce_iff {C : Type} [DecidableEq C] {s : TmaxCalls C}
    {es : List (Event C TmaxDelivery Int)}
    (hrun : run tmaxProtocol.step { shared := {} } es = some s) (id : Int) :
    HandedOutOnce id s ↔
      Along tmaxProtocol.step
        (fun s e => ∀ c notified, e = .wake c → s.calls c = .waiting id notified →
          s.shared.dataBuffer.chunkBuffer id ≠ [])
        ({ shared := {} } : TmaxCalls C) es := by
  have hbody : ∀ shared, (tmaxProtocol.body shared id).isSome = tmaxProtocol.ready shared id := by
    intro shared
    simp only [tmaxProtocol, Option.isSome_map, tGetResult_isSome]
  have hfails := Protocol.never_fails_iff hbody hrun
  constructor
  · intro h es₁ e es₂ s₁ hes hrun₁ c notified he hcall
    have hready := hfails.mp h.neverEmpty es₁ e es₂ s₁ hes hrun₁ c notified he hcall
    simpa [tmaxProtocol] using hready
  · intro halong
    refine ⟨hfails.mpr ?_, Protocol.recorded_of_run hrun, conserves_of_run hrun id⟩
    intro es₁ e es₂ s₁ hes hrun₁ c notified he hcall
    have hne := halong es₁ e es₂ s₁ hes hrun₁ c notified he hcall
    simpa [tmaxProtocol] using hne

/-- Two calls wait, and a chunk comes. -/
def twoWaiters : List (Event Bool TmaxDelivery Int) :=
  [.call true 1, .lock true, .call false 1, .lock false,
    .act (.merge (some ⟨1, 1⟩) [104, 105]), .wake true]

theorem tmaxChunks_handedOutOnce_firstWaiter :
    ∃ s : TmaxCalls Bool, run tmaxProtocol.step { shared := {} } twoWaiters = some s ∧
      (HandedOutOnce 1 s ↔ Along tmaxProtocol.step
        (fun s e => ∀ c notified, e = .wake c → s.calls c = .waiting 1 notified →
          s.shared.dataBuffer.chunkBuffer 1 ≠ [])
        ({ shared := {} } : TmaxCalls Bool) twoWaiters) :=
  ⟨_, rfl, @tmaxChunks_handedOutOnce_iff _ _ _ twoWaiters rfl 1⟩

/-- The chunk wakes both calls; the second takes a chunk from an empty list. -/
theorem tmaxChunks_secondWaiter_fails :
    ∃ s : TmaxCalls Bool,
      run tmaxProtocol.step { shared := {} } (twoWaiters ++ [.wake false]) = some s ∧
        s.calls false = .failed 1 ∧ ¬ HandedOutOnce 1 s := by
  refine ⟨_, rfl, rfl, fun h => h.neverEmpty false rfl⟩

end KetiEngine.Merging
