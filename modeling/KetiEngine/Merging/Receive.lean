import Mathlib.Algebra.Group.Nat.Defs
import Mathlib.Data.List.Basic

/-!
# Receive — the header of a CSD result, piece by piece

The loop of `bufferManagerInterface` that receives a header of announced
length. It writes a terminator behind every piece, and it counts on the pieces
to add up to the length.
-/

namespace KetiEngine.Merging

/-! ## The source loop -/

/-- Where the loop stands after some rounds. -/
inductive Received where
  | header (json : List UInt8)
  | outOfBounds
  | running
  deriving DecidableEq, Repr

/-- `json += buffer` reads the bytes up to the terminator. -/
def untilNul (buffer : List UInt8) : List UInt8 := buffer.takeWhile (· ≠ 0)

/-- The buffer after `recv` has written a piece and the loop a terminator
behind it. -/
def terminated (piece buffer : List UInt8) : List UInt8 :=
  (piece ++ buffer.drop piece.length).set piece.length 0

/-- At most so many rounds of the loop. `recv` returns the pieces one after
the other, and 0 bytes once the sender has closed; `ljson` is a `size_t`. A
piece that leaves no byte for the terminator is written beyond the buffer. -/
def receiveLoop (pieces : List (List UInt8)) (ljson : Nat) (buffer json : List UInt8) :
    Nat → Received
  | 0 => .running
  | rounds + 1 =>
      let piece := pieces.headD []
      if piece.length < buffer.length then
        let ljson := (ljson + 2 ^ 64 - piece.length) % 2 ^ 64
        let buffer := terminated piece buffer
        let json := json ++ untilNul buffer
        if ljson = 0 then .header json
        else receiveLoop pieces.tail ljson buffer json rounds
      else .outOfBounds

/-- The loop for a header of `ljson` bytes; `char buffer[ljson]` starts as
zeros. -/
def receiveHeader (pieces : List (List UInt8)) (ljson rounds : Nat) : Received :=
  receiveLoop pieces ljson (List.replicate ljson 0) [] rounds

/-- What `recv` may return for a header: at least a byte each time, no more
than requested, and not beyond the header, which may be cut short. -/
structure Arrives (request : Nat) (header : List UInt8) (pieces : List (List UInt8)) : Prop where
  nonempty : ∀ piece ∈ pieces, piece ≠ []
  requested : ∀ piece ∈ pieces, piece.length ≤ request
  pending : pieces.flatten <+: header

/-! ## One round -/

section
variable {piece buffer : List UInt8}

theorem length_terminated (h : piece.length < buffer.length) :
    (terminated piece buffer).length = buffer.length := by
  simp only [terminated, List.length_set, List.length_append, List.length_drop]
  omega

/-- The terminator ends what was received last, whatever the buffer held. -/
theorem untilNul_terminated (hpiece : 0 ∉ piece) (h : piece.length < buffer.length) :
    untilNul (terminated piece buffer) = piece := by
  obtain ⟨b, rest, hrest⟩ : ∃ b rest, buffer.drop piece.length = b :: rest :=
    List.exists_cons_of_ne_nil (by simpa using h)
  have hset : (piece ++ b :: rest).set piece.length 0 = piece ++ 0 :: rest := by simp
  rw [terminated, hrest, hset, untilNul, List.takeWhile_append_of_pos fun a ha => by
    simpa using fun he : a = 0 => hpiece (he ▸ ha)]
  simp

end

/-- A round with a piece that leaves a byte for the terminator. -/
theorem receiveLoop_succ {pieces : List (List UInt8)} {piece : List UInt8}
    (hhead : pieces.headD [] = piece) {ljson : Nat} {buffer : List UInt8} (json : List UInt8)
    (rounds : Nat) (hpiece : 0 ∉ piece) (hbuffer : piece.length < buffer.length)
    (hle : piece.length ≤ ljson) (hsize : ljson < 2 ^ 64) :
    receiveLoop pieces ljson buffer json (rounds + 1) =
      if ljson = piece.length then .header (json ++ piece)
      else receiveLoop pieces.tail (ljson - piece.length) (terminated piece buffer)
        (json ++ piece) rounds := by
  have hwrap : (ljson + 2 ^ 64 - piece.length) % 2 ^ 64 = ljson - piece.length := by omega
  have hzero : ljson - piece.length = 0 ↔ ljson = piece.length := by omega
  rw [receiveLoop]
  simp only [hhead, if_pos hbuffer, hwrap, hzero, untilNul_terminated hpiece hbuffer]

/-! ## All rounds -/

/-- Pieces that add up to the announced length, each shorter than the buffer,
are put together in as many rounds. -/
theorem receiveLoop_complete {pieces : List (List UInt8)} (hpieces : pieces ≠ [])
    (hnonempty : ∀ piece ∈ pieces, piece ≠ []) {buffer : List UInt8}
    (hnul : 0 ∉ pieces.flatten) (hshort : ∀ piece ∈ pieces, piece.length < buffer.length)
    (hsize : pieces.flatten.length < 2 ^ 64) (json : List UInt8) (rounds : Nat) :
    receiveLoop pieces pieces.flatten.length buffer json rounds =
      if rounds < pieces.length then .running else .header (json ++ pieces.flatten) := by
  induction pieces generalizing buffer json rounds with
  | nil => exact absurd rfl hpieces
  | cons piece rest ih =>
    cases rounds with
    | zero => rfl
    | succ rounds =>
      simp only [List.flatten_cons, List.mem_append, not_or, List.length_append] at hnul hsize ⊢
      rw [@receiveLoop_succ (piece :: rest) piece rfl _ _ json rounds hnul.1
        (hshort piece (by simp)) (by omega) hsize]
      cases rest with
      | nil => simp
      | cons next rest =>
        have hnext : next ≠ [] := hnonempty next (by simp)
        have hpos := List.length_pos_iff.mpr hnext
        have hmore : ¬ piece.length + (next :: rest).flatten.length = piece.length := by
          simp only [List.flatten_cons, List.length_append]
          omega
        rw [if_neg hmore, Nat.add_sub_cancel_left, List.tail_cons,
          ih (by simp) (fun p hp => hnonempty p (by simp [hp])) hnul.2
            (fun p hp => ?_) (by omega), List.append_assoc]
        · simp
        · rw [length_terminated (hshort piece (by simp))]
          exact hshort p (by simp [hp])

/-- Pieces that do not add up keep the loop going. -/
theorem receiveLoop_short {pieces : List (List UInt8)} {ljson : Nat} {buffer : List UInt8}
    (hnul : 0 ∉ pieces.flatten) (hshort : pieces.flatten.length < ljson)
    (hbuffer : ljson ≤ buffer.length) (hsize : ljson < 2 ^ 64) (json : List UInt8)
    (rounds : Nat) : receiveLoop pieces ljson buffer json rounds = .running := by
  induction rounds generalizing pieces ljson buffer json with
  | zero => rfl
  | succ rounds ih =>
    cases pieces with
    | nil =>
      -- the sender has closed: 0 bytes, and nothing changes but the terminator
      simp only [List.flatten_nil, List.length_nil] at hshort
      have hpiece : ([] : List UInt8).length < buffer.length := by
        rw [List.length_nil]
        omega
      rw [@receiveLoop_succ [] [] rfl _ _ json rounds (by simp) hpiece (by simp) hsize,
        if_neg (by rw [List.length_nil]; omega)]
      refine ih hnul (by simpa using hshort) ?_ (by simpa using hsize) _
      rw [length_terminated hpiece]
      simpa using hbuffer
    | cons piece rest =>
      simp only [List.flatten_cons, List.mem_append, not_or, List.length_append] at hnul hshort
      rw [@receiveLoop_succ (piece :: rest) piece rfl _ _ json rounds hnul.1 (by omega)
        (by omega) hsize, if_neg (by omega)]
      refine ih hnul.2 (by omega) ?_ (by omega) _
      rw [length_terminated (by omega)]
      omega

/-- A piece as long as all of them together is the only one. -/
theorem eq_singleton_of_length_le {pieces : List (List UInt8)}
    (hnonempty : ∀ piece ∈ pieces, piece ≠ []) {piece : List UInt8} (hmem : piece ∈ pieces)
    (hle : pieces.flatten.length ≤ piece.length) : pieces = [piece] := by
  obtain ⟨before, after, rfl⟩ := List.append_of_mem hmem
  simp only [List.flatten_append, List.flatten_cons, List.length_append] at hle
  have hnone : ∀ others : List (List UInt8), (∀ p ∈ others, p ≠ []) →
      others.flatten.length = 0 → others = [] := by
    intro others hothers hzero
    have hall := List.flatten_eq_nil_iff.mp (List.eq_nil_of_length_eq_zero hzero)
    exact List.eq_nil_iff_forall_not_mem.mpr fun p hp => hothers p hp (hall p hp)
  rw [hnone before (fun p hp => hnonempty p (by simp [hp])) (by omega),
    hnone after (fun p hp => hnonempty p (by simp [hp])) (by omega), List.nil_append]

/-! ## The header -/

section
variable {request : Nat} {header : List UInt8} {pieces : List (List UInt8)}
  (h : Arrives request header pieces) (hnul : 0 ∉ header) (hsize : header.length < 2 ^ 64)
include h hnul hsize

/-- A header that is cut short keeps the loop going. -/
theorem receiveHeader_cut (hcut : pieces.flatten ≠ header) (rounds : Nat) :
    receiveHeader pieces header.length rounds = .running := by
  obtain ⟨tail, htail⟩ := h.pending
  have hnul' : 0 ∉ pieces.flatten := fun hmem => hnul (htail ▸ List.mem_append_left _ hmem)
  have htail0 : tail ≠ [] := by
    rintro rfl
    exact hcut (by simpa using htail)
  have hlen := congrArg List.length htail
  have hpos := List.length_pos_iff.mpr htail0
  rw [List.length_append] at hlen
  exact receiveLoop_short hnul' (by omega) (by simp) hsize [] rounds

/-- A header in more than one piece is received in as many rounds. -/
theorem receiveHeader_complete (hne : header ≠ []) (hall : pieces.flatten = header)
    (hpieces : pieces ≠ [header]) (rounds : Nat) :
    receiveHeader pieces header.length rounds =
      if rounds < pieces.length then .running else .header header := by
  have hshort : ∀ piece ∈ pieces, piece.length < header.length := by
    intro piece hmem
    by_contra hle
    obtain rfl := eq_singleton_of_length_le h.nonempty hmem (by rw [hall]; omega)
    exact hpieces (by simpa using hall)
  have hsome : pieces ≠ [] := by
    rintro rfl
    exact hne hall.symm
  have hrun := @receiveLoop_complete pieces hsome h.nonempty (List.replicate header.length 0)
    (hall ▸ hnul) (by simpa using hshort) (hall ▸ hsize) [] rounds
  rwa [hall] at hrun

end

/-- The loop stays within its buffer, ends, and has the header when all of it
arrived. -/
structure ReceivesExactly (header : List UInt8) (pieces : List (List UInt8)) : Prop where
  bounded : ∀ rounds, receiveHeader pieces header.length rounds ≠ .outOfBounds
  ends : ∃ rounds, receiveHeader pieces header.length rounds ≠ .running
  exact : pieces.flatten = header →
    ∃ rounds, receiveHeader pieces header.length rounds = .header header

/-- **The header is received exactly** if and only if all of it arrives and
not in one piece. -/
theorem receivesExactly_iff {request : Nat} {header : List UInt8} {pieces : List (List UInt8)}
    (hne : header ≠ []) (hnul : 0 ∉ header) (hsize : header.length < 2 ^ 64)
    (h : Arrives request header pieces) :
    ReceivesExactly header pieces ↔ pieces.flatten = header ∧ pieces ≠ [header] := by
  constructor
  · intro hexact
    refine ⟨?_, ?_⟩
    · by_contra hcut
      obtain ⟨rounds, hends⟩ := hexact.ends
      exact hends (receiveHeader_cut h hnul hsize hcut rounds)
    · rintro rfl
      refine hexact.bounded 1 ?_
      simp [receiveHeader, receiveLoop]
  · rintro ⟨hall, hpieces⟩
    have hcomplete := receiveHeader_complete h hnul hsize hne hall hpieces
    refine ⟨fun rounds => ?_, ⟨pieces.length, ?_⟩, fun _ => ⟨pieces.length, ?_⟩⟩
    · rw [hcomplete]
      split <;> simp
    · rw [hcomplete, if_neg (Nat.lt_irrefl _)]
      simp
    · rw [hcomplete, if_neg (Nat.lt_irrefl _)]

/-- `{}` in two pieces. -/
theorem receivesExactly_two : ReceivesExactly [123, 125] [[123], [125]] :=
  (@receivesExactly_iff 499999 _ _ (by decide) (by decide) (by decide)
    ⟨by decide, by decide, by decide⟩).mpr ⟨rfl, by decide⟩

/-- In one piece the terminator is written beyond the buffer, and when the
sender closes early the loop never ends. -/
theorem not_receivesExactly :
    Arrives 499999 [123, 125] [[123, 125]] ∧
    receiveHeader [[123, 125]] 2 1 = .outOfBounds ∧
    ¬ ReceivesExactly [123, 125] [[123, 125]] ∧
    Arrives 499999 [123, 125] [[123]] ∧
    (∀ rounds, receiveHeader [[123]] 2 rounds = .running) ∧
    ¬ ReceivesExactly [123, 125] [[123]] := by
  have hbeyond : receiveHeader [[123, 125]] 2 1 = .outOfBounds := by decide
  have hrunning : ∀ rounds, receiveHeader [[123]] 2 rounds = .running :=
    receiveLoop_short (by decide) (by decide) (by decide) (by decide) []
  refine ⟨⟨by decide, by decide, by decide⟩, hbeyond, fun h => h.bounded 1 hbeyond,
    ⟨by decide, by decide, by decide⟩, hrunning, fun h => ?_⟩
  obtain ⟨rounds, hends⟩ := h.ends
  exact hends (hrunning rounds)

end KetiEngine.Merging
