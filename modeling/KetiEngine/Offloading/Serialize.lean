import Mathlib.Data.String.Basic
import KetiEngine.Lib.Loops
import KetiEngine.Lib.SortedMap
import KetiEngine.MachineInt
import KetiEngine.Offloading.ReturnType

/-!
# Serialize — the message a CSD gets

`serialize` and `setupSnippet`. The snippet is parsed into a document, and
the document is taken apart while it is searched: `PushBack` and `AddMember`
move a value out of it and leave a Null behind. The count announced is an
`int` and wraps around.
-/

namespace KetiEngine.Offloading

open KetiEngine Loops

/-! ## The source functions -/

/-- `SstInfo.CSD` in the document; `none` is a Null left by a move. -/
structure CsdDoc where
  csdId : String
  partition : Option String
  block : List (Option SstBlock)
  deriving DecidableEq

structure SstDoc where
  sstName : String
  csd : List CsdDoc
  sstBlockCount : Int
  deriving DecidableEq

def csdDoc (c : SstCsd) : CsdDoc where
  csdId := c.csdId
  partition := some c.partition
  block := c.block.map some

def sstDoc (s : SstInfo) : SstDoc where
  sstName := s.sstName
  csd := s.csd.map csdDoc
  sstBlockCount := s.sstBlockCount

/-- The values `serialize` collects. `partition` is the member of
`block_info`, once it has one. -/
structure BlockScan where
  csdBlockCount : Int := 0
  partition : Option (Option String) := none
  block : List SstBlock := []
  sstList : List String := []
  deriving DecidableEq

/-- What a block entry adds to `csd_block_count`. -/
def entryCount (b : SstBlock) : Int :=
  if b.offset.length = 1 then b.length.length else 1

/-- One round over `block_array`. Reading a member of a Null aborts. -/
def scanBlock (st : BlockScan) (b : Option SstBlock) : Option BlockScan :=
  b.map fun b => { st with
    csdBlockCount := toInt32 (st.csdBlockCount + entryCount b)
    block := st.block ++ [b] }

/-- `block_info` takes its partition from the first replica scanned. -/
def takePartition (c : CsdDoc) (st : BlockScan) : CsdDoc × BlockScan :=
  if st.partition = none then
    ({ c with partition := none }, { st with partition := some c.partition })
  else (c, st)

/-- The replica on the chosen CSD: its entries, or the SST's name. -/
def scanCsd (sstName : String) (sstBlockCount : Int) (c : CsdDoc) (st : BlockScan) :
    Option (CsdDoc × BlockScan) :=
  let (c, st) := takePartition c st
  if c.block.length > 0 then
    (c.block.foldlM scanBlock st).map fun st =>
      ({ c with block := c.block.map fun _ => none }, st)
  else
    some (c, { st with
      sstList := st.sstList ++ [sstName]
      csdBlockCount := toInt32 (st.csdBlockCount + sstBlockCount) })

def scanSst (bestCsdId : String) (s : SstDoc) (st : BlockScan) :
    Option (SstDoc × BlockScan) :=
  (firstMatch (fun c : CsdDoc => c.csdId = bestCsdId)
    (scanCsd s.sstName s.sstBlockCount) s.csd st).map fun r => ({ s with csd := r.1 }, r.2)

def scanTarget (bestCsdId : String) (d : List SstDoc × BlockScan) (targetSst : String) :
    Option (List SstDoc × BlockScan) :=
  firstMatch (fun s : SstDoc => s.sstName = targetSst) (scanSst bestCsdId) d.1 d.2

def scanTargets (bestCsdId : String) (targetSstList : List String) (sstInfo : List SstInfo) :
    Option (List SstDoc × BlockScan) :=
  targetSstList.foldlM (scanTarget bestCsdId) (sstInfo.map sstDoc, {})

/-- What is sent to a CSD. `snippet` is the document without `sst_info`;
`partition`, `block` and `sstList` are the members of `block_info`. -/
structure CsdMessage where
  snippet : SnippetRequest
  partition : Option (Option String)
  block : Option (List SstBlock)
  sstList : Option (List String)
  csdBlockCount : Int
  returnColumnLength : List Int
  returnColumnType : List Int
  csdIp : String
  deriving DecidableEq

def csdIp (csdId : String) : String := "10.1." ++ csdId ++ ".2"

def serialize (snippet : SnippetRequest) (bestCsdId : String) (targetSstList : List String) :
    Option CsdMessage := do
  let (_, st) ← scanTargets bestCsdId targetSstList snippet.sstInfo
  let (returnColumnLength, returnColumnType) ← calculReturnColumnType snippet
  pure {
    snippet := { snippet with sstInfo := [] }
    partition := st.partition
    block := if st.block.length > 0 then some st.block else none
    sstList := if st.block.length > 0 then none else some st.sstList
    csdBlockCount := st.csdBlockCount
    returnColumnLength
    returnColumnType
    csdIp := csdIp bestCsdId }

/-- The messages in the order they are sent. -/
def setupSnippet (snippet : SnippetRequest) (bestcsd : SortedMap String String) :
    Option (List CsdMessage) :=
  (SortedMap.collect bestcsd.entries).entries.mapM fun it => serialize snippet it.1 it.2

/-! ## What the scan of one target does -/

/-- A replica as the scan sees it. -/
structure Replica where
  sstBlockCount : Int
  block : List SstBlock

def Replica.blockCount (r : Replica) : Int :=
  if r.block = [] then r.sstBlockCount else (r.block.map entryCount).sum

/-- The replica of an SST on a CSD: of the first SST of the name, the first
of the CSD. -/
def replica? (csdId : String) (sstInfo : List SstInfo) (sstName : String) : Option Replica :=
  (sstInfo.find? (·.sstName = sstName)).bind fun s =>
    (s.csd.find? (·.csdId = csdId)).map fun c => ⟨s.sstBlockCount, c.block⟩

/-- The same search in the document. -/
def peek (csdId : String) (docs : List SstDoc) (sstName : String) :
    Option (Int × List (Option SstBlock)) :=
  (docs.find? (·.sstName = sstName)).bind fun s =>
    (s.csd.find? (·.csdId = csdId)).map fun c => (s.sstBlockCount, c.block)

theorem peek_sstDoc (csdId : String) (sstInfo : List SstInfo) (sstName : String) :
    peek csdId (sstInfo.map sstDoc) sstName =
      (replica? csdId sstInfo sstName).map fun r => (r.sstBlockCount, r.block.map some) := by
  unfold peek replica?
  rw [List.find?_map]
  have hname : (fun s : SstDoc => decide (s.sstName = sstName)) ∘ sstDoc =
      fun s => decide (s.sstName = sstName) := rfl
  have hid : (fun c : CsdDoc => decide (c.csdId = csdId)) ∘ csdDoc =
      fun c => decide (c.csdId = csdId) := rfl
  rw [hname]
  cases sstInfo.find? (fun s => decide (s.sstName = sstName)) with
  | none => rfl
  | some s =>
    simp only [Option.map_some, Option.bind_some, sstDoc, List.find?_map, hid]
    cases s.csd.find? (fun c => decide (c.csdId = csdId)) <;> rfl

@[simp] theorem takePartition_csdId (c : CsdDoc) (st : BlockScan) :
    (takePartition c st).1.csdId = c.csdId := by
  unfold takePartition; split <;> rfl

@[simp] theorem takePartition_block (c : CsdDoc) (st : BlockScan) :
    (takePartition c st).1.block = c.block := by
  unfold takePartition; split <;> rfl

@[simp] theorem takePartition_csdBlockCount (c : CsdDoc) (st : BlockScan) :
    (takePartition c st).2.csdBlockCount = st.csdBlockCount := by
  unfold takePartition; split <;> rfl

@[simp] theorem takePartition_blocks (c : CsdDoc) (st : BlockScan) :
    (takePartition c st).2.block = st.block := by
  unfold takePartition; split <;> rfl

@[simp] theorem takePartition_sstList (c : CsdDoc) (st : BlockScan) :
    (takePartition c st).2.sstList = st.sstList := by
  unfold takePartition; split <;> rfl

theorem scanBlock_entries (b : SstBlock) (blocks : List SstBlock) (st : BlockScan) :
    ((b :: blocks).map some).foldlM scanBlock st = some { st with
      csdBlockCount := toInt32 (st.csdBlockCount + ((b :: blocks).map entryCount).sum)
      block := st.block ++ b :: blocks } := by
  induction blocks generalizing b st with
  | nil => simp [scanBlock]
  | cons b' blocks ih =>
    rw [List.map_cons, List.foldlM_cons]
    simp only [scanBlock, Option.map_some, Option.bind_eq_bind, Option.bind_some, ih]
    simp [add_assoc]

theorem scanBlock_null {blocks : List (Option SstBlock)} (h : none ∈ blocks)
    (st : BlockScan) : blocks.foldlM scanBlock st = none := by
  induction blocks generalizing st with
  | nil => cases h
  | cons b blocks ih =>
    rw [List.foldlM_cons]
    cases b with
    | none => rfl
    | some b => exact ih (by simpa using h) _

/-- What the scan of a replica with these entries leaves in the counters. -/
structure BlockScan.Adds (st st' : BlockScan) (sstName : String) (r : Replica) : Prop where
  csdBlockCount : st'.csdBlockCount = toInt32 (st.csdBlockCount + r.blockCount)
  block : st'.block = st.block ++ r.block
  sstList : st'.sstList = st.sstList ++ if r.block = [] then [sstName] else []

theorem scanCsd_entries {c : CsdDoc} {blocks : List SstBlock} (h : c.block = blocks.map some)
    (sstName : String) (sstBlockCount : Int) (st : BlockScan) :
    ∃ c' st', scanCsd sstName sstBlockCount c st = some (c', st') ∧ c'.csdId = c.csdId ∧
      c'.block = (blocks.map fun _ => none) ∧ st.Adds st' sstName ⟨sstBlockCount, blocks⟩ := by
  cases blocks with
  | nil =>
    have hempty : ¬ c.block.length > 0 := by simp [h]
    simp only [scanCsd, takePartition_block, hempty, if_false]
    exact ⟨_, _, rfl, by simp, by simp [h], ⟨by simp [Replica.blockCount], by simp, by simp⟩⟩
  | cons b blocks =>
    have hpos : c.block.length > 0 := by simp [h]
    simp only [scanCsd, takePartition_block, hpos, if_true]
    rw [h, scanBlock_entries]
    exact ⟨_, _, rfl, by simp, by rw [List.map_map]; rfl,
      ⟨by simp [Replica.blockCount], by simp, by simp⟩⟩

theorem scanCsd_null {c : CsdDoc} (h : none ∈ c.block) (sstName : String)
    (sstBlockCount : Int) (st : BlockScan) : scanCsd sstName sstBlockCount c st = none := by
  have hpos : c.block.length > 0 := List.length_pos_of_mem h
  simp [scanCsd, hpos, scanBlock_null h]

/-- An SST without a replica on the CSD is passed over. -/
theorem scanTarget_absent {csdId : String} {d : List SstDoc × BlockScan} {target : String}
    (h : peek csdId d.1 target = none) :
    ∃ docs, scanTarget csdId d target = some (docs, d.2) ∧
      ∀ name, peek csdId docs name = peek csdId d.1 name := by
  unfold scanTarget
  cases hs : d.1.find? (fun s => decide (s.sstName = target)) with
  | none => exact ⟨d.1, firstMatch_of_find?_none hs _, fun _ => rfl⟩
  | some s =>
    have hc : s.csd.find? (fun c => decide (c.csdId = csdId)) = none := by
      simpa [peek, hs] using h
    have hname : s.sstName = target := by simpa using List.find?_some hs
    have hscan : scanSst csdId s d.2 = some (s, d.2) := by
      rw [scanSst, firstMatch_of_find?_none hc]
      rfl
    obtain ⟨docs, hdocs, hfound, hframe⟩ := (firstMatch_of_find?_some hs d.2).2 s d.2 hscan
    refine ⟨docs, hdocs, fun name => ?_⟩
    by_cases hn : name = target
    · subst hn
      rw [peek, peek, hs, hfound (by simp [hname])]
    · have hn' : s.sstName ≠ name := fun e => hn (e.symm.trans hname)
      rw [peek, peek, hframe _ (by simp [hn']) (by simp [hn'])]

/-- The entries of a replica are moved out and counted, and no other replica
on the CSD is touched. -/
theorem scanTarget_entries {csdId : String} {d : List SstDoc × BlockScan} {target : String}
    {sstBlockCount : Int} {blocks : List SstBlock}
    (h : peek csdId d.1 target = some (sstBlockCount, blocks.map some)) :
    ∃ docs st, scanTarget csdId d target = some (docs, st) ∧
      d.2.Adds st target ⟨sstBlockCount, blocks⟩ ∧
      peek csdId docs target = some (sstBlockCount, blocks.map fun _ => none) ∧
      ∀ name ≠ target, peek csdId docs name = peek csdId d.1 name := by
  obtain ⟨s, hs, hcsd⟩ := Option.bind_eq_some_iff.mp h
  obtain ⟨c, hc, heq⟩ := Option.map_eq_some_iff.mp hcsd
  obtain ⟨rfl, hblock⟩ := Prod.mk.inj heq
  have hname : s.sstName = target := by simpa using List.find?_some hs
  have hid : c.csdId = csdId := by simpa using List.find?_some hc
  obtain ⟨c', st, hscan, hid', hblock', hadds⟩ :=
    scanCsd_entries hblock s.sstName s.sstBlockCount d.2
  obtain ⟨csds, hcsds, hfoundCsd, -⟩ := (firstMatch_of_find?_some hc d.2).2 c' st hscan
  have hsst : scanSst csdId s d.2 = some ({ s with csd := csds }, st) := by
    rw [scanSst, hcsds]
    rfl
  obtain ⟨docs, hdocs, hfound, hframe⟩ := (firstMatch_of_find?_some hs d.2).2 _ st hsst
  refine ⟨docs, st, hdocs, hname ▸ hadds, ?_, fun name hn => ?_⟩
  · rw [peek, hfound (by simp [hname])]
    simp [hfoundCsd (by simp [hid', hid]), hblock']
  · have hn' : s.sstName ≠ name := fun e => hn (e.symm.trans hname)
    rw [peek, peek, hframe _ (by simp [hn']) (by simp [hn'])]

/-- A replica whose entries are gone cannot be scanned again. -/
theorem scanTarget_null {csdId : String} {d : List SstDoc × BlockScan} {target : String}
    {sstBlockCount : Int} {blocks : List (Option SstBlock)}
    (h : peek csdId d.1 target = some (sstBlockCount, blocks)) (hnull : none ∈ blocks) :
    scanTarget csdId d target = none := by
  obtain ⟨s, hs, hcsd⟩ := Option.bind_eq_some_iff.mp h
  obtain ⟨c, hc, heq⟩ := Option.map_eq_some_iff.mp hcsd
  obtain ⟨rfl, rfl⟩ := Prod.mk.inj heq
  refine (firstMatch_of_find?_some hs d.2).1 ?_
  rw [scanSst, (firstMatch_of_find?_some hc d.2).1 (scanCsd_null hnull _ _ _)]
  rfl

end KetiEngine.Offloading
