import KetiEngine.TmaxLib.Block

/-!
# ResultBuffer — `write_chunk_list_to_buffer`

The chunks are copied into the caller's buffer, each behind a header of three
bytes. When the buffer is full, the function says where it stopped and goes on
from there in the next call.
-/

namespace KetiEngine.TmaxLib

open KetiEngine

/-- Chunk `i` of the list and its flag. A chained chunk is looked up at `i`
itself. -/
def chunkAt (chunkList : ChunkList) (i : Nat) : Option (Chunk × UInt8) :=
  if i < chunkList.resChunk.length then (chunkList.resChunk[i]?).map (·, 0)
  else (chunkList.chainedChunk[i]?).map (·, 1)

/-- The header of a chunk: the high byte of its length, a multiple of the
length, and the flag. -/
def chunkHeader (used : Nat) (chunkFlag : UInt8) : List UInt8 :=
  [UInt8.ofNat ((used >>> 8) &&& 0xFF), UInt8.ofNat (used * 0xFF), chunkFlag]

/-- `memcpy` of the first `used` bytes of a chunk. -/
def chunkBytes (chunk : Chunk) : Option (List (Option UInt8)) :=
  if chunk.used ≤ resChunkSize then
    some ((chunk.buf ++ List.replicate (chunk.used - chunk.buf.length) none).take chunk.used)
  else none

/-- What a call leaves: its answer, the index to go on with, and what it has
written. `total_len` is the length of that. -/
structure Written where
  finished : Bool
  currentChunkIdx : Nat
  bytes : List (Option UInt8)
deriving DecidableEq

/-- The loop over the next `n` chunks, from the `i`-th on, behind the bytes
already written. -/
def writeChunks (chunkList : ChunkList) (bigChunkSize currentChunkIdx : Nat) :
    Nat → Nat → List (Option UInt8) → Option Written
  | 0, _, bytes => some { finished := true, currentChunkIdx, bytes }
  | n + 1, i, bytes => do
    let (curChunk, chunkFlag) ← chunkAt chunkList i
    if bytes.length + curChunk.used + 3 > bigChunkSize then
      some { finished := false, currentChunkIdx := i, bytes }
    else do
      let copied ← chunkBytes curChunk
      writeChunks chunkList bigChunkSize currentChunkIdx n (i + 1)
        (bytes ++ (chunkHeader curChunk.used chunkFlag).map some ++ copied)

def writeChunkListToBuffer (chunkList : ChunkList) (bigChunkSize currentChunkIdx : Nat) :
    Option Written :=
  let totalChunkCnt := chunkList.resChunk.length + chunkList.chainedChunk.length
  writeChunks chunkList bigChunkSize currentChunkIdx (totalChunkCnt - currentChunkIdx)
    currentChunkIdx []

/-- At most `n` calls, each from where the one before it stopped: what they
have written, and whether the last of them has finished. -/
def transfer (chunkList : ChunkList) (bigChunkSize : Nat) :
    Nat → Nat → Option (List (List (Option UInt8)) × Bool)
  | 0, _ => some ([], false)
  | n + 1, currentChunkIdx => do
    let written ← writeChunkListToBuffer chunkList bigChunkSize currentChunkIdx
    if written.finished then
      some ([written.bytes], true)
    else do
      let (buffers, finished) ← transfer chunkList bigChunkSize n written.currentChunkIdx
      some (written.bytes :: buffers, finished)

/-! ## One call -/

/-- The bytes a result chunk takes in the buffer. -/
def frame (contents : List UInt8) : List UInt8 := chunkHeader contents.length 0 ++ contents

def frameSize (contents : List UInt8) : Nat := contents.length + 3

@[simp] theorem length_frame (contents : List UInt8) :
    (frame contents).length = frameSize contents := by
  simp [frame, frameSize, chunkHeader]

/-- The list has these result chunks and no chained ones. -/
structure ChunkList.Contains (chunkList : ChunkList) (contents : List (List UInt8)) : Prop where
  resChunk : List.Forall₂ Chunk.Is chunkList.resChunk contents
  chainedChunk : chunkList.chainedChunk = []

theorem chunkBytes_is {chunk : Chunk} {contents : List UInt8} (h : chunk.Is contents) :
    chunkBytes chunk = some (contents.map some) := by
  obtain ⟨hbuf, hused, hsize⟩ := h
  rw [chunkBytes, if_pos (hused ▸ hsize), hbuf, hused]
  simp

theorem ChunkList.Contains.chunkAt {chunkList : ChunkList} {contents : List (List UInt8)}
    (h : chunkList.Contains contents) {i : Nat} {c : List UInt8} (hc : contents[i]? = some c) :
    ∃ chunk, chunkAt chunkList i = some (chunk, 0) ∧ chunk.Is c := by
  obtain ⟨hi, rfl⟩ := List.getElem?_eq_some_iff.mp hc
  have hlen := h.resChunk.length_eq
  refine ⟨chunkList.resChunk[i], ?_, h.resChunk.get (by omega) hi⟩
  rw [TmaxLib.chunkAt, if_pos (by omega), List.getElem?_eq_getElem (by omega)]
  rfl

/-- What a call leaves that has written `bytes` and then the chunks that fit. -/
def Written.after (currentChunkIdx i : Nat) (bytes : List UInt8)
    (fits : List (List UInt8) × List (List UInt8)) : Written where
  finished := fits.2.isEmpty
  currentChunkIdx := if fits.2.isEmpty then currentChunkIdx else i + fits.1.length
  bytes := (bytes ++ fits.1.flatMap frame).map some

theorem Written.after_cons (currentChunkIdx i : Nat) (bytes c : List UInt8)
    (fits : List (List UInt8) × List (List UInt8)) :
    Written.after currentChunkIdx i bytes (c :: fits.1, fits.2) =
      Written.after currentChunkIdx (i + 1) (bytes ++ frame c) fits := by
  simp [Written.after, Nat.add_right_comm, Nat.add_assoc]

/-- **One call** writes the chunks that fit, and stops at the first one that
does not. -/
theorem writeChunks_contains {chunkList : ChunkList} {done todo : List (List UInt8)}
    (h : chunkList.Contains (done ++ todo)) {bigChunkSize : Nat} (currentChunkIdx : Nat)
    {bytes : List UInt8} (hbytes : bytes.length ≤ bigChunkSize) :
    writeChunks chunkList bigChunkSize currentChunkIdx todo.length done.length
        (bytes.map some) =
      some (Written.after currentChunkIdx done.length bytes
        (Packing.fill frameSize (bigChunkSize - bytes.length) todo)) := by
  induction todo generalizing done bytes with
  | nil => simp [writeChunks, Packing.fill, Written.after]
  | cons c todo ih =>
    have hget : (done ++ c :: todo)[done.length]? = some c := by simp
    obtain ⟨chunk, hat, his⟩ := h.chunkAt hget
    have hused := his.2.1
    have hsize : frameSize c = c.length + 3 := rfl
    rw [List.length_cons, writeChunks, hat, Packing.fill]
    simp only [Option.bind_eq_bind, Option.bind_some, List.length_map, hused]
    by_cases hroom : frameSize c ≤ bigChunkSize - bytes.length
    · rw [← List.singleton_append, ← List.append_assoc] at h
      have hlen : (bytes ++ frame c).length ≤ bigChunkSize := by simp; omega
      have hrest := ih h hlen
      rw [List.length_append, List.length_append, length_frame, List.length_singleton,
        Nat.sub_add_eq, List.map_append, frame, List.map_append, ← List.append_assoc] at hrest
      rw [if_neg (by omega), if_pos hroom, chunkBytes_is his, Option.bind_some,
        Written.after_cons]
      exact hrest
    · rw [if_pos (by omega), if_neg hroom]
      simp [Written.after]

theorem writeChunkListToBuffer_contains {chunkList : ChunkList} {done todo : List (List UInt8)}
    (h : chunkList.Contains (done ++ todo)) (bigChunkSize : Nat) :
    writeChunkListToBuffer chunkList bigChunkSize done.length =
      some (Written.after done.length done.length []
        (Packing.fill frameSize bigChunkSize todo)) := by
  have hcnt : chunkList.resChunk.length + chunkList.chainedChunk.length - done.length =
      todo.length := by
    rw [h.resChunk.length_eq, h.chainedChunk]
    simp
  have hempty : ([] : List UInt8).length ≤ bigChunkSize := Nat.zero_le _
  rw [writeChunkListToBuffer, hcnt]
  exact writeChunks_contains h done.length hempty

/-! ## The calls one after the other -/

/-- The buffers of a transfer. -/
def buffersOf (bigChunkSize : Nat) (todo : List (List UInt8)) : List (List (Option UInt8)) :=
  (Packing.pack bigChunkSize frameSize todo).map fun bin => (bin.flatMap frame).map some

theorem fill_split {chunkList : ChunkList} {done todo : List (List UInt8)} {bigChunkSize : Nat}
    (h : chunkList.Contains (done ++ todo)) :
    chunkList.Contains (done ++ (Packing.fill frameSize bigChunkSize todo).1 ++
      (Packing.fill frameSize bigChunkSize todo).2) := by
  rwa [List.append_assoc, Packing.fill_append]

/-- When every chunk fits into the buffer, the calls together write every chunk
once, in order, and each chunk in one call. -/
theorem transfer_contains {chunkList : ChunkList} {done todo : List (List UInt8)}
    (h : chunkList.Contains (done ++ todo)) {bigChunkSize : Nat}
    (hfit : ∀ c ∈ todo, frameSize c ≤ bigChunkSize) (hne : todo ≠ []) {n : Nat}
    (hn : (buffersOf bigChunkSize todo).length ≤ n) :
    transfer chunkList bigChunkSize n done.length = some (buffersOf bigChunkSize todo, true) := by
  induction n generalizing done todo with
  | zero =>
    have hpacked : Packing.Packed bigChunkSize frameSize todo _ := Packing.packed_pack todo
    have hnil : Packing.pack bigChunkSize frameSize todo = [] := by simpa [buffersOf] using hn
    rw [hnil] at hpacked
    exact absurd hpacked.flatten.symm hne
  | succ n ih =>
    have hpack : buffersOf bigChunkSize todo =
        ((Packing.fill frameSize bigChunkSize todo).1.flatMap frame).map some ::
          buffersOf bigChunkSize (Packing.fill frameSize bigChunkSize todo).2 := by
      obtain ⟨c, todo, rfl⟩ := List.exists_cons_of_ne_nil hne
      rw [buffersOf, Packing.pack_cons bigChunkSize frameSize (hfit c (by simp)) todo]
      rfl
    rw [hpack] at hn ⊢
    rw [transfer, writeChunkListToBuffer_contains h]
    simp only [Option.bind_eq_bind, Option.bind_some, Written.after, List.nil_append]
    by_cases hrest : (Packing.fill frameSize bigChunkSize todo).2 = []
    · rw [if_pos (by simp [hrest]), hrest]
      rfl
    · have hnot : (Packing.fill frameSize bigChunkSize todo).2.isEmpty = false := by
        simpa using hrest
      have hfit' : ∀ c ∈ (Packing.fill frameSize bigChunkSize todo).2,
          frameSize c ≤ bigChunkSize := fun c hc => hfit c (by
        rw [← Packing.fill_append frameSize bigChunkSize todo]
        exact List.mem_append_right _ hc)
      have hnext := ih (fill_split h) hfit' hrest (by simpa using hn)
      rw [List.length_append] at hnext
      simp only [hnot, Bool.false_eq_true, if_false, hnext, Option.bind_some]

/-- With a chunk that does not fit, the calls never finish. -/
theorem transfer_stuck {chunkList : ChunkList} {done todo : List (List UInt8)}
    (h : chunkList.Contains (done ++ todo)) {bigChunkSize : Nat}
    (hbig : ∃ c ∈ todo, bigChunkSize < frameSize c) (n : Nat) :
    ∃ buffers, transfer chunkList bigChunkSize n done.length = some (buffers, false) := by
  induction n generalizing done todo with
  | zero => exact ⟨[], rfl⟩
  | succ n ih =>
    obtain ⟨c, hc, hsize⟩ := hbig
    have hmem : c ∈ (Packing.fill frameSize bigChunkSize todo).2 := by
      rw [← Packing.fill_append frameSize bigChunkSize todo] at hc
      rcases List.mem_append.mp hc with hc | hc
      · exact absurd (Packing.size_le_of_mem_fill frameSize hc) (by omega)
      · exact hc
    obtain ⟨buffers, hnext⟩ := ih (fill_split h) ⟨c, hmem, hsize⟩
    rw [List.length_append] at hnext
    have hnot : (Packing.fill frameSize bigChunkSize todo).2.isEmpty = false := by
      simpa using List.ne_nil_of_mem hmem
    refine ⟨((Packing.fill frameSize bigChunkSize todo).1.flatMap frame).map some :: buffers, ?_⟩
    rw [transfer, writeChunkListToBuffer_contains h]
    simp only [Option.bind_eq_bind, Option.bind_some, Written.after, hnot, Bool.false_eq_true,
      if_false, hnext, List.nil_append]

/-- Further calls change nothing once one has finished. -/
theorem transfer_mono {chunkList : ChunkList} {bigChunkSize n i : Nat}
    {buffers : List (List (Option UInt8))}
    (h : transfer chunkList bigChunkSize n i = some (buffers, true)) (k : Nat) :
    transfer chunkList bigChunkSize (n + k) i = some (buffers, true) := by
  induction n generalizing i buffers with
  | zero => cases h
  | succ n ih =>
    rw [Nat.succ_add]
    rw [transfer] at h ⊢
    obtain ⟨written, hwritten, h⟩ := Option.bind_eq_some_iff.mp h
    rw [hwritten]
    simp only [Option.bind_eq_bind, Option.bind_some]
    split at h
    · rwa [if_pos ‹_›]
    · rw [if_neg ‹_›]
      obtain ⟨⟨later, finished⟩, hlater, h⟩ := Option.bind_eq_some_iff.mp h
      cases h
      rw [ih hlater]
      rfl

/-- **Resuming**: the calls finish exactly when every chunk fits into the
buffer. Then they have written the chunks packed into buffers. -/
theorem transfer_finishes_iff {chunkList : ChunkList} {contents : List (List UInt8)}
    (h : chunkList.Contains contents) (hne : contents ≠ []) (bigChunkSize : Nat)
    (buffers : List (List (Option UInt8))) :
    (∃ n, transfer chunkList bigChunkSize n 0 = some (buffers, true)) ↔
      (∀ c ∈ contents, frameSize c ≤ bigChunkSize) ∧ buffers = buffersOf bigChunkSize contents := by
  have h' : chunkList.Contains ([] ++ contents) := h
  constructor
  · rintro ⟨n, hn⟩
    have hfit : ∀ c ∈ contents, frameSize c ≤ bigChunkSize := by
      by_contra hbig
      push Not at hbig
      obtain ⟨buffers', hstuck⟩ := transfer_stuck h' hbig n
      rw [List.length_nil, hn] at hstuck
      cases hstuck
    have hall := transfer_contains h' hfit hne (Nat.le_add_left _ n)
    rw [List.length_nil, transfer_mono hn] at hall
    exact ⟨hfit, by cases hall; rfl⟩
  · rintro ⟨hfit, rfl⟩
    exact ⟨_, transfer_contains h' hfit hne le_rfl⟩

/-- The contents of two chunks. -/
def twoContents : List (List UInt8) := [[1, 2], [3]]

def twoChunks : ChunkList where
  resChunk := [⟨[some 1, some 2], 2⟩, ⟨[some 3], 1⟩]

theorem twoChunks_contains : twoChunks.Contains twoContents where
  resChunk := .cons ⟨rfl, rfl, by decide⟩ (.cons ⟨rfl, rfl, by decide⟩ .nil)
  chainedChunk := rfl

/-- A buffer of five bytes has room for one of them. -/
theorem twoChunks_transfer :
    ∃ n, transfer twoChunks 5 n 0 =
      some ([[0, 254, 0, 1, 2].map some, [0, 255, 0, 3].map some], true) :=
  (transfer_finishes_iff twoChunks_contains (by decide) 5 _).mpr ⟨by decide, by decide⟩

/-! ## Reading the buffers -/

/-- The frames of a text: the flag and the contents of each. `size` says what
the first two bytes of a header stand for. -/
def readFrames (size : UInt8 → UInt8 → Nat) : Nat → List UInt8 → Option (List (UInt8 × List UInt8))
  | _, [] => some []
  | n + 1, hi :: lo :: flag :: rest =>
    if size hi lo ≤ rest.length then
      (readFrames size n (rest.drop (size hi lo))).map ((flag, rest.take (size hi lo)) :: ·)
    else none
  | _, _ => none

/-- The two bytes as one number. -/
def bigEndian (hi lo : UInt8) : Nat := hi.toNat * 256 + lo.toNat

/-- The number with its low byte negated. -/
def bigEndianNegated (hi lo : UInt8) : Nat := hi.toNat * 256 + (256 - lo.toNat) % 256

/-- What `size` says of the header of `contents`. -/
def headerSize (size : UInt8 → UInt8 → Nat) (contents : List UInt8) : Nat :=
  size (UInt8.ofNat ((contents.length >>> 8) &&& 0xFF)) (UInt8.ofNat (contents.length * 0xFF))

theorem readFrames_iff (size : UInt8 → UInt8 → Nat) {contents : List (List UInt8)} {n : Nat}
    (hn : contents.length ≤ n) :
    readFrames size n (contents.flatMap frame) = some (contents.map (0, ·)) ↔
      ∀ c ∈ contents, headerSize size c = c.length := by
  induction contents generalizing n with
  | nil => cases n <;> simp [readFrames]
  | cons c contents ih =>
    obtain _ | n := n
    · cases hn
    · have ih := ih (show contents.length ≤ n by simpa using hn)
      have htext : (c :: contents).flatMap frame =
          UInt8.ofNat ((c.length >>> 8) &&& 0xFF) :: UInt8.ofNat (c.length * 0xFF) :: 0 ::
            (c ++ contents.flatMap frame) := rfl
      rw [htext, readFrames, List.map_cons, List.forall_mem_cons, ← ih]
      change (if headerSize size c ≤ _ then
        (readFrames size n (List.drop (headerSize size c) _)).map
          ((0, List.take (headerSize size c) _) :: ·) else none) = _ ↔ _
      constructor
      · intro h
        split at h
        · rename_i hle
          obtain ⟨frames, hframes, h⟩ := Option.map_eq_some_iff.mp h
          simp only [List.cons.injEq, Prod.mk.injEq, true_and] at h
          have hlen : headerSize size c = c.length := by
            have := congrArg List.length h.1
            rwa [List.length_take_of_le hle] at this
          rw [hlen, List.drop_left, h.2] at hframes
          exact ⟨hlen, hframes⟩
        · cases h
      · rintro ⟨hlen, h⟩
        rw [hlen, if_pos (by simp), List.drop_left, List.take_left, h]
        rfl

/-- The two bytes of a header, as numbers. -/
theorem toNat_header {n : Nat} (h : n < 65536) :
    (UInt8.ofNat ((n >>> 8) &&& 0xFF)).toNat = n / 256 ∧
      (UInt8.ofNat (n * 0xFF)).toNat = (256 - n % 256) % 256 := by
  have hmask : (0xFF : Nat) = 2 ^ 8 - 1 := rfl
  constructor
  · rw [hmask, Nat.and_two_pow_sub_one_eq_mod, Nat.shiftRight_eq_div_pow, UInt8.toNat_ofNat']
    omega
  · have hmul : n * 0xFF + n = 256 * n := by omega
    rw [UInt8.toNat_ofNat']
    omega

theorem headerSize_bigEndian_iff {contents : List UInt8} (h : contents.length < 65536) :
    headerSize bigEndian contents = contents.length ↔ contents.length % 128 = 0 := by
  obtain ⟨hhi, hlo⟩ := toNat_header h
  rw [headerSize, bigEndian, hhi, hlo]
  omega

theorem headerSize_bigEndianNegated {contents : List UInt8} (h : contents.length < 65536) :
    headerSize bigEndianNegated contents = contents.length := by
  obtain ⟨hhi, hlo⟩ := toNat_header h
  rw [headerSize, bigEndianNegated, hhi, hlo]
  omega

/-- The length of what a chunk holds fits into the header. -/
theorem length_le_of_is {chunks : List Chunk} {contents : List (List UInt8)}
    (h : List.Forall₂ Chunk.Is chunks contents) {c : List UInt8} (hc : c ∈ contents) :
    c.length ≤ resChunkSize := by
  obtain ⟨i, hi, rfl⟩ := List.getElem_of_mem hc
  exact (h.get (h.length_eq ▸ hi) hi).2.2

theorem length_lt_of_is {chunks : List Chunk} {contents : List (List UInt8)}
    (h : List.Forall₂ Chunk.Is chunks contents) {c : List UInt8} (hc : c ∈ contents) :
    c.length < 65536 :=
  lt_of_le_of_lt (length_le_of_is h hc) (by decide)

/-- **The headers**: what is written for result chunks is read back with the
first two bytes of each header as one number exactly when every chunk is a
multiple of 128 bytes long. With the low byte negated it always is. -/
theorem readFrames_contains {chunks : List Chunk} {contents : List (List UInt8)}
    (h : List.Forall₂ Chunk.Is chunks contents) :
    (readFrames bigEndian contents.length (contents.flatMap frame) = some (contents.map (0, ·)) ↔
      ∀ chunk ∈ chunks, chunk.used % 128 = 0) ∧
    readFrames bigEndianNegated contents.length (contents.flatMap frame) =
      some (contents.map (0, ·)) := by
  have hused : (∀ chunk ∈ chunks, chunk.used % 128 = 0) ↔
      ∀ c ∈ contents, c.length % 128 = 0 := by
    have hchunks := h
    clear h
    induction hchunks with
    | nil => simp
    | cons his _ ih =>
      rw [List.forall_mem_cons, List.forall_mem_cons, his.2.1]
      exact and_congr_right' ih
  rw [readFrames_iff _ le_rfl, readFrames_iff _ le_rfl, hused]
  exact ⟨forall₂_congr fun c hc => headerSize_bigEndian_iff (length_lt_of_is h hc),
    fun c hc => headerSize_bigEndianNegated (length_lt_of_is h hc)⟩

theorem twoChunks_frames :
    (readFrames bigEndian twoContents.length (twoContents.flatMap frame) =
        some (twoContents.map (0, ·)) ↔
      ∀ chunk ∈ twoChunks.resChunk, chunk.used % 128 = 0) ∧
    readFrames bigEndianNegated twoContents.length (twoContents.flatMap frame) =
      some (twoContents.map (0, ·)) :=
  readFrames_contains twoChunks_contains.resChunk

end KetiEngine.TmaxLib
