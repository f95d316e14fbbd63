import Mathlib.Algebra.BigOperators.Group.List.Basic
import KetiEngine.Offloading.Serialize

/-!
# Accounting — block counts announced and blocks designated

What `serialize` has collected after any number of targets, whether a
message designates exactly the blocks it announces, and that the counts of
all messages add up to the blocks of the chosen replicas.
-/

namespace KetiEngine.Offloading

open KetiEngine Loops

/-! ## The scan of a list of targets -/

/-- The entries an SST lists on a CSD. -/
def entriesOn (csdId : String) (sstInfo : List SstInfo) (sstName : String) : List SstBlock :=
  match replica? csdId sstInfo sstName with
  | none => []
  | some r => r.block

/-- The blocks a CSD has to report for an SST. -/
def blockCountOn (csdId : String) (sstInfo : List SstInfo) (sstName : String) : Int :=
  match replica? csdId sstInfo sstName with
  | none => 0
  | some r => r.blockCount

/-- The SST has a replica on the CSD that lists no blocks: it goes by name. -/
def goesByName (csdId : String) (sstInfo : List SstInfo) (sstName : String) : Bool :=
  match replica? csdId sstInfo sstName with
  | none => false
  | some r => r.block = []

/-- The document and the counters after the targets `done`: the replicas
scanned are emptied, the others untouched. -/
structure Scanned (csdId : String) (sstInfo : List SstInfo) (done : List String)
    (d : List SstDoc × BlockScan) : Prop where
  unread : ∀ t, t ∉ done → peek csdId d.1 t =
    (replica? csdId sstInfo t).map fun r => (r.sstBlockCount, r.block.map some)
  emptied : ∀ t ∈ done, peek csdId d.1 t =
    (replica? csdId sstInfo t).map fun r => (r.sstBlockCount, r.block.map fun _ => none)
  csdBlockCount : d.2.csdBlockCount = toInt32 (done.map (blockCountOn csdId sstInfo)).sum
  block : d.2.block = done.flatMap (entriesOn csdId sstInfo)
  sstList : d.2.sstList = done.filter (goesByName csdId sstInfo)
  once : (done.filter fun t => entriesOn csdId sstInfo t ≠ []).Nodup

section
variable {csdId : String} {sstInfo : List SstInfo} {done : List String}
  {d : List SstDoc × BlockScan} {t : String}

theorem scanned_init : Scanned csdId sstInfo [] (sstInfo.map sstDoc, {}) where
  unread t _ := peek_sstDoc csdId sstInfo t
  emptied _ ht := absurd ht List.not_mem_nil
  csdBlockCount := toInt32_zero.symm
  block := rfl
  sstList := rfl
  once := .nil

theorem Scanned.once_append (h : Scanned csdId sstInfo done d)
    (hfresh : entriesOn csdId sstInfo t = [] ∨ t ∉ done) :
    ((done ++ [t]).filter fun u => entriesOn csdId sstInfo u ≠ []).Nodup := by
  rw [List.filter_append, List.nodup_append]
  refine ⟨h.once, by by_cases hb : entriesOn csdId sstInfo t = [] <;> simp [hb], ?_⟩
  intro u hu v hv huv
  obtain ⟨rfl, hne⟩ : v = t ∧ entriesOn csdId sstInfo v ≠ [] := by simpa using hv
  exact hfresh.elim hne fun hn => hn (huv ▸ List.mem_of_mem_filter hu)

theorem mem_done_append {u : String} : u ∈ done ++ [t] ↔ u ∈ done ∨ u = t := by
  simp

/-- The CSD has no replica of the target: nothing is read. -/
theorem Scanned.round_absent (h : Scanned csdId sstInfo done d)
    (hfresh : entriesOn csdId sstInfo t = [] ∨ t ∉ done) (hr : replica? csdId sstInfo t = none) :
    ∃ d', scanTarget csdId d t = some d' ∧ Scanned csdId sstInfo (done ++ [t]) d' := by
  have hpeek : peek csdId d.1 t = none := by
    by_cases ht : t ∈ done
    · simpa [hr] using h.emptied t ht
    · simpa [hr] using h.unread t ht
  obtain ⟨docs, hrun, hframe⟩ := scanTarget_absent hpeek
  refine ⟨_, hrun, ?_⟩
  constructor
  case unread =>
    intro u hu
    rw [hframe, h.unread u fun hd => hu (mem_done_append.mpr (.inl hd))]
  case emptied =>
    intro u hu
    rw [hframe]
    rcases mem_done_append.mp hu with hd | rfl
    · exact h.emptied u hd
    · rw [hpeek, hr]
      rfl
  case csdBlockCount => simp [h.csdBlockCount, blockCountOn, hr]
  case block => simp [h.block, entriesOn, hr]
  case sstList => simp [h.sstList, List.filter_append, goesByName, hr]
  case once => exact h.once_append hfresh

/-- The CSD has a replica: its entries are read and set to null. -/
theorem Scanned.round_present {r : Replica} (h : Scanned csdId sstInfo done d)
    (hfresh : entriesOn csdId sstInfo t = [] ∨ t ∉ done)
    (hr : replica? csdId sstInfo t = some r) :
    ∃ d', scanTarget csdId d t = some d' ∧ Scanned csdId sstInfo (done ++ [t]) d' := by
  have hpeek : peek csdId d.1 t = some (r.sstBlockCount, r.block.map some) := by
    by_cases ht : t ∈ done
    · -- a target scanned before had no entries, so none of them is null
      have hb : r.block = [] := by
        simpa [entriesOn, hr, ht] using hfresh
      simpa [hr, hb] using h.emptied t ht
    · simpa [hr] using h.unread t ht
  obtain ⟨docs, st, hrun, hadds, hgone, hframe⟩ := scanTarget_entries hpeek
  refine ⟨_, hrun, ?_⟩
  constructor
  case unread =>
    intro u hu
    rw [hframe u fun e => hu (mem_done_append.mpr (.inr e)),
      h.unread u fun hd => hu (mem_done_append.mpr (.inl hd))]
  case emptied =>
    intro u hu
    by_cases hut : u = t
    · rw [hut, hgone, hr]
      rfl
    · rw [hframe u hut]
      exact h.emptied u ((mem_done_append.mp hu).resolve_right hut)
  case csdBlockCount =>
    rw [hadds.csdBlockCount, h.csdBlockCount]
    simp [blockCountOn, hr]
  case block =>
    rw [hadds.block, h.block]
    simp [entriesOn, hr]
  case sstList =>
    rw [hadds.sstList, h.sstList, List.filter_append]
    by_cases hb : r.block = [] <;> simp [goesByName, hr, hb]
  case once => exact h.once_append hfresh

/-- A target is scanned unless its entries are already gone. -/
theorem Scanned.round (h : Scanned csdId sstInfo done d)
    (hfresh : entriesOn csdId sstInfo t = [] ∨ t ∉ done) :
    ∃ d', scanTarget csdId d t = some d' ∧ Scanned csdId sstInfo (done ++ [t]) d' := by
  cases hr : replica? csdId sstInfo t with
  | none => exact h.round_absent hfresh hr
  | some r => exact h.round_present hfresh hr

/-- A second scan of a target that listed entries aborts. -/
theorem Scanned.stuck (h : Scanned csdId sstInfo done d) (ht : t ∈ done)
    (hentries : entriesOn csdId sstInfo t ≠ []) : scanTarget csdId d t = none := by
  cases hr : replica? csdId sstInfo t with
  | none => simp [entriesOn, hr] at hentries
  | some r =>
    have hpeek := h.emptied t ht
    rw [hr] at hpeek
    refine scanTarget_null hpeek ?_
    obtain ⟨b, hb⟩ := List.exists_mem_of_ne_nil r.block (by simpa [entriesOn, hr] using hentries)
    exact List.mem_map.mpr ⟨b, hb, rfl⟩

end

section
variable {csdId : String} {targets : List String} {sstInfo : List SstInfo}

theorem scanTargets_scanned {d : List SstDoc × BlockScan}
    (h : scanTargets csdId targets sstInfo = some d) : Scanned csdId sstInfo targets d := by
  refine foldlM_induction scanned_init ?_ h
  intro done t rest d d' _ hd hrun
  by_cases hfresh : entriesOn csdId sstInfo t = [] ∨ t ∉ done
  · obtain ⟨d'', hrun', hd'⟩ := hd.round hfresh
    cases hrun.symm.trans hrun'
    exact hd'
  · obtain ⟨hentries, ht⟩ := not_or.mp hfresh
    cases (hd.stuck (not_not.mp ht) hentries).symm.trans hrun

/-- **The scan ends** exactly when no target that lists entries occurs twice. -/
theorem scanTargets_isSome_iff : (∃ d, scanTargets csdId targets sstInfo = some d) ↔
    (targets.filter fun t => entriesOn csdId sstInfo t ≠ []).Nodup := by
  refine ⟨fun ⟨_, h⟩ => (scanTargets_scanned h).once, fun honce => ?_⟩
  have hround : ∀ done t rest d, targets = done ++ t :: rest → Scanned csdId sstInfo done d →
      ∃ d', scanTarget csdId d t = some d' ∧ Scanned csdId sstInfo (done ++ [t]) d' := by
    intro done t rest d hl hd
    refine hd.round ?_
    by_contra hfresh
    obtain ⟨hentries, ht⟩ := not_or.mp hfresh
    rw [hl, List.filter_append, List.nodup_append] at honce
    exact honce.2.2 t (by simpa [hentries] using ht) t (by simp [hentries]) rfl
  obtain ⟨d, hrun, -⟩ := foldlM_total scanned_init hround
  exact ⟨d, hrun⟩

end

/-- What is in a message, from the targets alone. -/
theorem serialize_message {snippet : SnippetRequest} {csdId : String} {targets : List String}
    {m : CsdMessage} (h : serialize snippet csdId targets = some m) :
    (targets.filter fun t => entriesOn csdId snippet.sstInfo t ≠ []).Nodup ∧
      m.csdIp = csdIp csdId ∧
      m.csdBlockCount = toInt32 (targets.map (blockCountOn csdId snippet.sstInfo)).sum ∧
      m.block.getD [] = targets.flatMap (entriesOn csdId snippet.sstInfo) ∧
      m.sstList.getD [] = if targets.flatMap (entriesOn csdId snippet.sstInfo) = [] then
        targets.filter (goesByName csdId snippet.sstInfo) else [] := by
  obtain ⟨d, hd, h⟩ := Option.bind_eq_some_iff.mp h
  obtain ⟨ret, -, h⟩ := Option.bind_eq_some_iff.mp h
  cases h
  have hs := scanTargets_scanned hd
  refine ⟨hs.once, rfl, hs.csdBlockCount, ?_, ?_⟩
  · rw [← hs.block]
    by_cases hb : d.2.block = [] <;> simp [hb, List.length_pos_iff]
  · rw [← hs.block, ← hs.sstList]
    by_cases hb : d.2.block = [] <;> simp [hb, List.length_pos_iff]

/-- **When there is a message**: no target with entries occurs twice, and
the return layout is defined. -/
theorem serialize_isSome_iff {snippet : SnippetRequest} {csdId : String}
    {targets : List String} : (∃ m, serialize snippet csdId targets = some m) ↔
      (targets.filter fun t => entriesOn csdId snippet.sstInfo t ≠ []).Nodup ∧
        (calculReturnColumnType snippet).isSome := by
  constructor
  · rintro ⟨m, h⟩
    obtain ⟨d, hd, h⟩ := Option.bind_eq_some_iff.mp h
    obtain ⟨ret, hret, -⟩ := Option.bind_eq_some_iff.mp h
    exact ⟨scanTargets_isSome_iff.mp ⟨d, hd⟩, by simp [hret]⟩
  · rintro ⟨honce, hret⟩
    obtain ⟨d, hd⟩ := scanTargets_isSome_iff.mpr honce
    obtain ⟨ret, hret⟩ := Option.isSome_iff_exists.mp hret
    exact ⟨_, by rw [serialize, hd, hret]; rfl⟩

/-! ## Replicas of distinct SSTs -/

/-- The SST lists a replica on the CSD. -/
def ListsReplica (sstInfo : List SstInfo) (csdId sstName : String) : Prop :=
  ∃ s ∈ sstInfo, s.sstName = sstName ∧ csdId ∈ s.csd.map (·.csdId)

theorem find?_sstName {sstInfo : List SstInfo} (hnames : (sstInfo.map (·.sstName)).Nodup)
    {s : SstInfo} (hs : s ∈ sstInfo) :
    sstInfo.find? (fun s' => s'.sstName = s.sstName) = some s := by
  obtain ⟨s', hs'⟩ : ∃ s', sstInfo.find? (fun s' => s'.sstName = s.sstName) = some s' :=
    Option.isSome_iff_exists.mp (List.find?_isSome.mpr ⟨s, hs, by simp⟩)
  have hname : s'.sstName = s.sstName := by simpa using List.find?_some hs'
  have heq := List.inj_on_of_nodup_map hnames (List.mem_of_find?_eq_some hs') hs hname
  rw [hs', heq]

/-- `sst_block_count` of the SST of a name. -/
def sstBlockCountOf (sstInfo : List SstInfo) (sstName : String) : Int :=
  match sstInfo.find? (·.sstName = sstName) with
  | none => 0
  | some s => s.sstBlockCount

theorem replica?_of_lists {sstInfo : List SstInfo} {csdId sstName : String}
    (hnames : (sstInfo.map (·.sstName)).Nodup) (h : ListsReplica sstInfo csdId sstName) :
    ∃ r, replica? csdId sstInfo sstName = some r ∧
      r.sstBlockCount = sstBlockCountOf sstInfo sstName := by
  obtain ⟨s, hs, rfl, hcsd⟩ := h
  have hfind := find?_sstName hnames hs
  obtain ⟨c, hc⟩ : ∃ c, s.csd.find? (fun c => c.csdId = csdId) = some c :=
    Option.isSome_iff_exists.mp (List.find?_isSome.mpr (by simpa using hcsd))
  exact ⟨⟨s.sstBlockCount, c.block⟩, by simp [replica?, hfind, hc], by
    simp [sstBlockCountOf, hfind]⟩

/-- Where an SST lists entries, the CSD reports what they count. -/
theorem blockCountOn_of_entries {csdId : String} {sstInfo : List SstInfo} {sstName : String}
    (h : entriesOn csdId sstInfo sstName ≠ []) :
    blockCountOn csdId sstInfo sstName =
      ((entriesOn csdId sstInfo sstName).map entryCount).sum := by
  unfold entriesOn at h ⊢
  unfold blockCountOn
  cases hr : replica? csdId sstInfo sstName with
  | none => rfl
  | some r =>
    rw [hr] at h
    exact if_neg h

/-- Where it lists none, the CSD reports the blocks of the whole SST. -/
theorem blockCountOn_of_name {csdId : String} {sstInfo : List SstInfo} {sstName : String}
    (hnames : (sstInfo.map (·.sstName)).Nodup) (hlists : ListsReplica sstInfo csdId sstName)
    (h : entriesOn csdId sstInfo sstName = []) :
    goesByName csdId sstInfo sstName = true ∧
      blockCountOn csdId sstInfo sstName = sstBlockCountOf sstInfo sstName := by
  obtain ⟨r, hr, hcount⟩ := replica?_of_lists hnames hlists
  have hb : r.block = [] := by simpa [entriesOn, hr] using h
  exact ⟨by simp [goesByName, hr, hb], by
    simp [blockCountOn, hr, Replica.blockCount, hb, hcount]⟩

/-! ## Announced and designated -/

/-- The blocks `block_info` designates: entries counted as in `serialize`,
a name with the blocks of its SST. -/
def designatedCount (sstInfo : List SstInfo) (m : CsdMessage) : Int :=
  ((m.block.getD []).map entryCount).sum + ((m.sstList.getD []).map (sstBlockCountOf sstInfo)).sum

/-- The message tells the CSD to scan the targets and nothing else, each by
all its entries (of which it has some) or by its name, and it announces as
many blocks as it designates. -/
def Designates (snippet : SnippetRequest) (csdId : String) (targets : List String)
    (m : CsdMessage) : Prop :=
  ∃ byEntries byName : List String, (byEntries ++ byName).Perm targets ∧
    (∀ t ∈ byEntries, entriesOn csdId snippet.sstInfo t ≠ []) ∧
    (m.block.getD []).Perm (byEntries.flatMap (entriesOn csdId snippet.sstInfo)) ∧
    (m.sstList.getD []).Perm byName ∧
    m.csdBlockCount = designatedCount snippet.sstInfo m

section
variable {snippet : SnippetRequest} {csdId : String} {targets : List String}

/-- The final choice between `block` and `sst_list` drops the names: with
both kinds of targets, those without entries are not in the message. -/
theorem uniform_of_designates {m : CsdMessage} (h : serialize snippet csdId targets = some m)
    (hm : Designates snippet csdId targets m) :
    ((∀ t ∈ targets, entriesOn csdId snippet.sstInfo t ≠ []) ∧ targets.Nodup) ∨
      ∀ t ∈ targets, entriesOn csdId snippet.sstInfo t = [] := by
  obtain ⟨honce, -, -, -, hlist⟩ := serialize_message h
  by_cases hflat : targets.flatMap (entriesOn csdId snippet.sstInfo) = []
  · exact .inr (List.flatMap_eq_nil_iff.mp hflat)
  · obtain ⟨byEntries, byName, hperm, hentries, -, hnames, -⟩ := hm
    rw [hlist, if_neg hflat] at hnames
    have hall : ∀ t ∈ targets, entriesOn csdId snippet.sstInfo t ≠ [] := by
      intro t ht
      have hmem := hperm.mem_iff.mpr ht
      rw [hnames.symm.eq_nil, List.append_nil] at hmem
      exact hentries t hmem
    rw [List.filter_eq_self.mpr (by simpa using hall)] at honce
    exact .inl ⟨hall, honce⟩

/-- Targets that all list entries go by them. -/
theorem entries_sent {m : CsdMessage} (h : serialize snippet csdId targets = some m)
    (hall : ∀ t ∈ targets, entriesOn csdId snippet.sstInfo t ≠ []) :
    m.block.getD [] = targets.flatMap (entriesOn csdId snippet.sstInfo) ∧
      m.sstList.getD [] = [] ∧
      designatedCount snippet.sstInfo m =
        (targets.map (blockCountOn csdId snippet.sstInfo)).sum := by
  obtain ⟨-, -, -, hblock, hlist⟩ := serialize_message h
  have hnone : m.sstList.getD [] = [] := by
    rw [hlist]
    split
    case isTrue hflat =>
      have hnil : targets = [] := by
        by_contra hne
        obtain ⟨t, ht⟩ := List.exists_mem_of_ne_nil _ hne
        exact hall t ht (List.flatMap_eq_nil_iff.mp hflat t ht)
      rw [hnil]
      rfl
    case isFalse => rfl
  refine ⟨hblock, hnone, ?_⟩
  calc designatedCount snippet.sstInfo m
      = (targets.map fun t => ((entriesOn csdId snippet.sstInfo t).map entryCount).sum).sum := by
        rw [designatedCount, hblock, hnone, List.flatMap_def, List.map_flatten, List.sum_flatten]
        simp [Function.comp_def]
    _ = (targets.map (blockCountOn csdId snippet.sstInfo)).sum := by
        rw [List.map_congr_left fun t ht => blockCountOn_of_entries (hall t ht)]

/-- Targets without entries go by their names. -/
theorem names_sent {m : CsdMessage} (h : serialize snippet csdId targets = some m)
    (hnames : (snippet.sstInfo.map (·.sstName)).Nodup)
    (hlists : ∀ t ∈ targets, ListsReplica snippet.sstInfo csdId t)
    (hall : ∀ t ∈ targets, entriesOn csdId snippet.sstInfo t = []) :
    m.block.getD [] = [] ∧ m.sstList.getD [] = targets ∧
      designatedCount snippet.sstInfo m =
        (targets.map (blockCountOn csdId snippet.sstInfo)).sum := by
  obtain ⟨-, -, -, hblock, hlist⟩ := serialize_message h
  have hflat := List.flatMap_eq_nil_iff.mpr hall
  have hgo := fun t ht => blockCountOn_of_name hnames (hlists t ht) (hall t ht)
  rw [hflat] at hblock
  rw [hflat, if_pos rfl, List.filter_eq_self.mpr fun t ht => (hgo t ht).1] at hlist
  refine ⟨hblock, hlist, ?_⟩
  rw [designatedCount, hblock, hlist, List.map_congr_left fun t ht => (hgo t ht).2]
  simp

theorem designates_of_entries {m : CsdMessage} (h : serialize snippet csdId targets = some m)
    (hall : ∀ t ∈ targets, entriesOn csdId snippet.sstInfo t ≠ [])
    (hint : FitsInt32 (targets.map (blockCountOn csdId snippet.sstInfo)).sum) :
    Designates snippet csdId targets m := by
  obtain ⟨-, -, hcount, -, -⟩ := serialize_message h
  obtain ⟨hblock, hlist, hdesignated⟩ := entries_sent h hall
  refine ⟨targets, [], by simp, hall, by rw [hblock], by rw [hlist], ?_⟩
  rw [hcount, hint.toInt32_eq, hdesignated]

theorem designates_of_names {m : CsdMessage} (h : serialize snippet csdId targets = some m)
    (hnames : (snippet.sstInfo.map (·.sstName)).Nodup)
    (hlists : ∀ t ∈ targets, ListsReplica snippet.sstInfo csdId t)
    (hall : ∀ t ∈ targets, entriesOn csdId snippet.sstInfo t = [])
    (hint : FitsInt32 (targets.map (blockCountOn csdId snippet.sstInfo)).sum) :
    Designates snippet csdId targets m := by
  obtain ⟨-, -, hcount, -, -⟩ := serialize_message h
  obtain ⟨hblock, hlist, hdesignated⟩ := names_sent h hnames hlists hall
  refine ⟨[], targets, .refl _, by simp, by simp [hblock], by rw [hlist], ?_⟩
  rw [hcount, hint.toInt32_eq, hdesignated]

/-- A message that announces what it designates announces an `int`. -/
theorem fits_of_designates {m : CsdMessage} (h : serialize snippet csdId targets = some m)
    (hm : Designates snippet csdId targets m)
    (hdesignated : designatedCount snippet.sstInfo m =
      (targets.map (blockCountOn csdId snippet.sstInfo)).sum) :
    FitsInt32 (targets.map (blockCountOn csdId snippet.sstInfo)).sum := by
  obtain ⟨-, -, hcount, -, -⟩ := serialize_message h
  obtain ⟨-, -, -, -, -, -, hannounced⟩ := hm
  exact (toInt32_eq_self_iff _).mp (hcount.symm.trans (hannounced.trans hdesignated))

/-- **A CSD is told to scan what it is expected to report** exactly when its
targets all list their blocks, none of them twice, or none of them does, and
the number of those blocks is an `int`. -/
theorem serialize_designates_iff (hnames : (snippet.sstInfo.map (·.sstName)).Nodup)
    (hlists : ∀ t ∈ targets, ListsReplica snippet.sstInfo csdId t)
    (hret : (calculReturnColumnType snippet).isSome) :
    (∃ m, serialize snippet csdId targets = some m ∧ Designates snippet csdId targets m) ↔
      (((∀ t ∈ targets, entriesOn csdId snippet.sstInfo t ≠ []) ∧ targets.Nodup) ∨
        ∀ t ∈ targets, entriesOn csdId snippet.sstInfo t = []) ∧
      FitsInt32 (targets.map (blockCountOn csdId snippet.sstInfo)).sum := by
  constructor
  · rintro ⟨m, h, hm⟩
    have huniform := uniform_of_designates h hm
    refine ⟨huniform, ?_⟩
    rcases huniform with ⟨hall, -⟩ | hall
    · exact fits_of_designates h hm (entries_sent h hall).2.2
    · exact fits_of_designates h hm (names_sent h hnames hlists hall).2.2
  · rintro ⟨⟨hall, honce⟩ | hall, hint⟩
    · obtain ⟨m, h⟩ := serialize_isSome_iff.mpr ⟨honce.filter _, hret⟩
      exact ⟨m, h, designates_of_entries h hall hint⟩
    · have hnone : (targets.filter fun t => entriesOn csdId snippet.sstInfo t ≠ []) = [] :=
        List.filter_eq_nil_iff.mpr fun t ht => by simp [hall t ht]
      obtain ⟨m, h⟩ := serialize_isSome_iff.mpr ⟨by rw [hnone]; exact .nil, hret⟩
      exact ⟨m, h, designates_of_names h hnames hlists hall hint⟩

end

/-- Two SSTs with a replica on CSD 1: `a` lists two entries with three
blocks in all, `b` lists none of its five blocks. -/
def scanSnippet : SnippetRequest where
  columnList := [⟨"key", 3, 4⟩]
  projection := [{ value := ["key"], valueType := [.column] }]
  sstInfo := [
    ⟨"a", [⟨"1", "p", [⟨[0], [10, 20]⟩, ⟨[5, 9], [10, 20]⟩]⟩, ⟨"2", "p", []⟩], 3⟩,
    ⟨"b", [⟨"2", "p", [⟨[0], [10]⟩]⟩, ⟨"1", "p", []⟩], 5⟩]

theorem scanSnippet_designates :
    (∃ m, serialize scanSnippet "1" ["a"] = some m ∧ Designates scanSnippet "1" ["a"] m) ↔
      (((∀ t ∈ ["a"], entriesOn "1" scanSnippet.sstInfo t ≠ []) ∧ ["a"].Nodup) ∨
        ∀ t ∈ ["a"], entriesOn "1" scanSnippet.sstInfo t = []) ∧
      FitsInt32 (["a"].map (blockCountOn "1" scanSnippet.sstInfo)).sum :=
  serialize_designates_iff (by decide)
    (by simpa using ⟨_, List.mem_cons_self, rfl, by decide⟩) (by decide)

/-- CSD 1 gets the entries of `a` only, and has to report the blocks of `b`
as well. -/
theorem scanSnippet_loses_sst :
    ∃ m, serialize scanSnippet "1" ["a", "b"] = some m ∧
      m.sstList = none ∧ m.csdBlockCount = 8 ∧ designatedCount scanSnippet.sstInfo m = 3 ∧
      ¬ Designates scanSnippet "1" ["a", "b"] m := by
  obtain ⟨m, hm⟩ : ∃ m, serialize scanSnippet "1" ["a", "b"] = some m :=
    serialize_isSome_iff.mpr ⟨by decide, by decide⟩
  have hfields : (serialize scanSnippet "1" ["a", "b"]).map (fun m =>
      (m.sstList, m.csdBlockCount, designatedCount scanSnippet.sstInfo m)) =
        some (none, 8, 3) := by decide
  rw [hm, Option.map_some, Option.some.injEq, Prod.mk.injEq, Prod.mk.injEq] at hfields
  refine ⟨m, hm, hfields.1, hfields.2.1, hfields.2.2, fun hd => ?_⟩
  rcases uniform_of_designates hm hd with ⟨hall, -⟩ | hall
  · exact hall "b" (by simp) (by decide)
  · exact absurd (hall "a" (by simp)) (by decide)

/-! ## Conservation across CSDs -/

/-- The block count of the replica chosen for an SST. -/
def chosenBlockCount (bestcsd : SortedMap String String) (s : SstInfo) : Int :=
  match bestcsd.find? s.sstName with
  | none => 0
  | some csdId =>
      match s.csd.find? (·.csdId = csdId) with
      | none => 0
      | some c => if c.block = [] then s.sstBlockCount else (c.block.map entryCount).sum

theorem blockCountOn_chosen {sstInfo : List SstInfo} {bestcsd : SortedMap String String}
    (hnames : (sstInfo.map (·.sstName)).Nodup) {s : SstInfo} (hs : s ∈ sstInfo) {csdId : String}
    (hbest : bestcsd.find? s.sstName = some csdId) :
    blockCountOn csdId sstInfo s.sstName = chosenBlockCount bestcsd s := by
  unfold blockCountOn chosenBlockCount replica?
  rw [find?_sstName hnames hs, hbest]
  simp only [Option.bind_some]
  cases s.csd.find? (fun c => c.csdId = csdId) <;> rfl

theorem sum_filter_of_zero {α : Type*} {p : α → Bool} {f : α → Int} {l : List α}
    (h : ∀ a ∈ l, p a = false → f a = 0) : ((l.filter p).map f).sum = (l.map f).sum := by
  induction l with
  | nil => rfl
  | cons a l ih =>
    have ih := ih fun b hb => h b (by simp [hb])
    cases hp : p a with
    | true => simp [hp, ih]
    | false => simp [hp, ih, h a (by simp) hp]

/-- The placement restricted to the SSTs of the snippet, SST by SST. -/
theorem placement_perm {sstInfo : List SstInfo} {bestcsd : SortedMap String String}
    (hnames : (sstInfo.map (·.sstName)).Nodup) {best : SstInfo → String}
    (hbest : ∀ s ∈ sstInfo, bestcsd.find? s.sstName = some (best s)) :
    (bestcsd.entries.filter fun p => p.1 ∈ sstInfo.map (·.sstName)).Perm
      (sstInfo.map fun s => (s.sstName, best s)) := by
  have hentries : bestcsd.entries.Nodup := .of_map _ bestcsd.keys_nodup
  have hchosen : (sstInfo.map fun s => (s.sstName, best s)).Nodup := by
    refine .of_map Prod.fst ?_
    rw [List.map_map]
    exact hnames
  refine (List.perm_ext_iff_of_nodup (hentries.filter _) hchosen).mpr fun ⟨name, csdId⟩ => ?_
  simp only [List.mem_filter, List.mem_map, decide_eq_true_eq, ← SortedMap.find?_eq_some_iff]
  constructor
  · rintro ⟨hfind, s, hs, rfl⟩
    exact ⟨s, hs, by rw [Option.some.inj ((hbest s hs).symm.trans hfind)]⟩
  · rintro ⟨s, hs, heq⟩
    obtain ⟨rfl, rfl⟩ := Prod.mk.inj heq
    exact ⟨hbest s hs, s, hs, rfl⟩

/-- The blocks of the SSTs placed on some CSDs, entry by entry of the
placement or SST by SST. -/
theorem sum_placement {sstInfo : List SstInfo} {bestcsd : SortedMap String String}
    (hnames : (sstInfo.map (·.sstName)).Nodup) {best : SstInfo → String}
    (hbest : ∀ s ∈ sstInfo, bestcsd.find? s.sstName = some (best s)) (on : String → Bool) :
    ((bestcsd.entries.filter fun p => on p.2).map fun p => blockCountOn p.2 sstInfo p.1).sum =
      ((sstInfo.filter fun s => on (best s)).map (chosenBlockCount bestcsd)).sum := by
  have hother : ∀ p ∈ bestcsd.entries.filter fun p => on p.2,
      decide (p.1 ∈ sstInfo.map (·.sstName)) = false → blockCountOn p.2 sstInfo p.1 = 0 := by
    intro p _ hp
    have hnone : sstInfo.find? (fun s => s.sstName = p.1) = none :=
      List.find?_eq_none.mpr fun s hs he => by
        have hmem : p.1 ∈ sstInfo.map (·.sstName) :=
          List.mem_map.mpr ⟨s, hs, of_decide_eq_true he⟩
        exact of_decide_eq_false hp hmem
    rw [blockCountOn, replica?, hnone]
    rfl
  rw [← sum_filter_of_zero hother, List.filter_comm,
    (((placement_perm hnames hbest).filter _).map _).sum_eq, List.filter_map, List.map_map]
  exact congrArg List.sum (List.map_congr_left fun s hs =>
    blockCountOn_chosen hnames (List.mem_of_mem_filter hs) (hbest s (List.mem_of_mem_filter hs)))

/-- Every group of the inverted placement gets its message. -/
theorem setupSnippet_messages {snippet : SnippetRequest} (bestcsd : SortedMap String String)
    (hret : (calculReturnColumnType snippet).isSome) :
    ∃ messages, setupSnippet snippet bestcsd = some messages ∧
      List.Forall₂ (fun it m => m.csdIp = csdIp it.1 ∧
        m.csdBlockCount = toInt32 (it.2.map (blockCountOn it.1 snippet.sstInfo)).sum)
        (SortedMap.collect bestcsd.entries).entries messages := by
  have hserialize : ∀ it ∈ (SortedMap.collect bestcsd.entries).entries,
      ∃ m, serialize snippet it.1 it.2 = some m := fun it hit =>
    serialize_isSome_iff.mpr
      ⟨(SortedMap.nodup_of_mem_collect bestcsd.keys_nodup hit).filter _, hret⟩
  unfold setupSnippet
  revert hserialize
  induction (SortedMap.collect bestcsd.entries).entries with
  | nil => exact fun _ => ⟨[], rfl, .nil⟩
  | cons it rest ih =>
    intro hserialize
    obtain ⟨m, hm⟩ := hserialize it (by simp)
    obtain ⟨messages, hrun, hmessages⟩ := ih fun it hit => hserialize it (by simp [hit])
    obtain ⟨-, hip, hcount, -, -⟩ := serialize_message hm
    exact ⟨m :: messages, by rw [List.mapM_cons, hm, hrun]; rfl, .cons ⟨hip, hcount⟩ hmessages⟩

/-- The block counts of the replicas chosen on a CSD. -/
def placedBlockCount (snippet : SnippetRequest) (bestcsd : SortedMap String String)
    (csdId : String) : Int :=
  ((snippet.sstInfo.filter fun s => bestcsd.find? s.sstName = some csdId).map
    (chosenBlockCount bestcsd)).sum

/-- **Block accounting is conserved**: one message goes to each CSD of the
placement, and where the blocks on each CSD number an `int`, the counts
announced add up to the block counts of the replicas chosen. -/
theorem block_counts_conserved {snippet : SnippetRequest} {bestcsd : SortedMap String String}
    (hnames : (snippet.sstInfo.map (·.sstName)).Nodup)
    (hplaced : ∀ s ∈ snippet.sstInfo, ∃ csdId, bestcsd.find? s.sstName = some csdId ∧
      csdId ∈ s.csd.map (·.csdId))
    (hret : (calculReturnColumnType snippet).isSome)
    (hint : ∀ csdId, FitsInt32 (placedBlockCount snippet bestcsd csdId)) :
    ∃ (csds : List String) (messages : List CsdMessage),
      setupSnippet snippet bestcsd = some messages ∧ csds.Nodup ∧
      (∀ csdId, csdId ∈ csds ↔ ∃ name, bestcsd.find? name = some csdId) ∧
      messages.map (·.csdIp) = csds.map csdIp ∧
      (messages.map (·.csdBlockCount)).sum =
        (snippet.sstInfo.map (chosenBlockCount bestcsd)).sum := by
  obtain ⟨messages, hrun, hmessages⟩ := setupSnippet_messages bestcsd hret
  let best : SstInfo → String := fun s => (bestcsd.find? s.sstName).getD ""
  have hbest : ∀ s ∈ snippet.sstInfo, bestcsd.find? s.sstName = some (best s) := by
    intro s hs
    obtain ⟨csdId, hfind, -⟩ := hplaced s hs
    simp [best, hfind]
  have hips : messages.map (·.csdIp) =
      (SortedMap.collect bestcsd.entries).keys.map csdIp := by
    rw [SortedMap.keys, List.map_map]
    exact map_eq_of_forall₂ (fun _ _ h => h.1) hmessages
  have hgroup : ∀ it ∈ (SortedMap.collect bestcsd.entries).entries,
      (it.2.map (blockCountOn it.1 snippet.sstInfo)).sum =
        placedBlockCount snippet bestcsd it.1 := by
    intro it hit
    calc (it.2.map (blockCountOn it.1 snippet.sstInfo)).sum
        = ((bestcsd.entries.filter fun p => p.2 = it.1).map fun p =>
            blockCountOn p.2 snippet.sstInfo p.1).sum := by
          rw [((SortedMap.perm_of_mem_collect hit).map _).sum_eq, List.map_map]
          refine congrArg List.sum (List.map_congr_left fun p hp => ?_)
          rw [of_decide_eq_true (List.mem_filter.mp hp).2]
          rfl
      _ = placedBlockCount snippet bestcsd it.1 := by
          rw [sum_placement hnames hbest (· = it.1), placedBlockCount]
          refine congrArg (fun l => (l.map (chosenBlockCount bestcsd)).sum)
            (List.filter_congr fun s hs => ?_)
          simp [hbest s hs]
  have hcounts : messages.map (·.csdBlockCount) =
      (SortedMap.collect bestcsd.entries).entries.map fun it =>
        (it.2.map (blockCountOn it.1 snippet.sstInfo)).sum := by
    rw [map_eq_of_forall₂ (fun _ _ h => h.2) hmessages]
    exact List.map_congr_left fun it hit =>
      FitsInt32.toInt32_eq (hgroup it hit ▸ hint it.1)
  refine ⟨_, messages, hrun, SortedMap.keys_nodup _, fun csdId => ?_, hips, ?_⟩
  · rw [SortedMap.mem_keys_collect]
    exact exists_congr fun name => SortedMap.find?_eq_some_iff.symm
  · rw [hcounts, SortedMap.sum_collect fun csdId t => blockCountOn csdId snippet.sstInfo t]
    simpa using sum_placement hnames hbest fun _ => true

/-- `a` is read on CSD 1 and `b` on CSD 2. -/
def scanPlacement : SortedMap String String where
  entries := [("a", "1"), ("b", "2")]
  sorted := by decide

theorem scanSnippet_conserves_blocks :
    ∃ (csds : List String) (messages : List CsdMessage),
      setupSnippet scanSnippet scanPlacement = some messages ∧ csds.Nodup ∧
      (∀ csdId, csdId ∈ csds ↔ ∃ name, scanPlacement.find? name = some csdId) ∧
      messages.map (·.csdIp) = csds.map csdIp ∧
      (messages.map (·.csdBlockCount)).sum =
        (scanSnippet.sstInfo.map (chosenBlockCount scanPlacement)).sum :=
  block_counts_conserved (by decide)
    (by
      intro s hs
      rcases List.mem_cons.mp hs with rfl | hs
      · exact ⟨"1", by decide, by decide⟩
      · obtain rfl := List.mem_singleton.mp hs
        exact ⟨"2", by decide, by decide⟩)
    (by decide)
    (by
      intro csdId
      by_cases hone : csdId = "1"
      · subst hone; decide
      by_cases htwo : csdId = "2"
      · subst htwo; decide
      have hnone : placedBlockCount scanSnippet scanPlacement csdId = 0 := by
        have ha : scanPlacement.find? "a" = some "1" := by decide
        have hb : scanPlacement.find? "b" = some "2" := by decide
        simp [placedBlockCount, scanSnippet, ha, hb, Ne.symm hone, Ne.symm htwo]
      rw [hnone]
      decide)

/-- Two SSTs of 2^30 blocks, both read by name on CSD 1. -/
def largeSnippet : SnippetRequest where
  columnList := [⟨"key", 3, 4⟩]
  projection := [{ value := ["key"], valueType := [.column] }]
  sstInfo := [⟨"a", [⟨"1", "p", []⟩], 2 ^ 30⟩, ⟨"b", [⟨"1", "p", []⟩], 2 ^ 30⟩]

def largePlacement : SortedMap String String where
  entries := [("a", "1"), ("b", "1")]
  sorted := by decide

/-- The one message announces -2^31 blocks. -/
theorem largeSnippet_wraps :
    (largeSnippet.sstInfo.map (·.sstName)).Nodup ∧
      (∀ s ∈ largeSnippet.sstInfo, largePlacement.find? s.sstName = some "1" ∧
        "1" ∈ s.csd.map (·.csdId)) ∧
      (setupSnippet largeSnippet largePlacement).map (·.map (·.csdBlockCount)) =
        some [-2 ^ 31] ∧
      (largeSnippet.sstInfo.map (chosenBlockCount largePlacement)).sum = 2 ^ 31 :=
  ⟨by decide, by decide, by decide, by decide⟩

end KetiEngine.Offloading
