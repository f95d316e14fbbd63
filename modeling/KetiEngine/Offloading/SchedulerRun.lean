import KetiEngine.InternalQueue
import KetiEngine.Offloading.Accounting
import KetiEngine.Offloading.CsdStatus
import KetiEngine.Offloading.Placed

/-!
# SchedulerRun — the offloading module at work

Any number of threads call `Scheduling`, which pushes a snippet on the queue;
the scheduler thread pops them, places their SSTs and sends a message to each
CSD. The algorithm and the status of the CSDs may change at any time between
two rounds.
-/

namespace KetiEngine.Offloading

open KetiEngine Runs

/-! ## The module -/

/-- `setAlgorithm`; a name it does not know changes nothing. -/
def setAlgorithm (schedulingAlgorithm : SchedulingType) (algorithm : String) : SchedulingType :=
  let algorithm := algorithm.map Char.toLower
  if algorithm = "dcs" then .fixed .dcs
  else if algorithm = "dsi" then .fixed .dsi
  else if algorithm = "dfa" then .fixed .dfa
  else if algorithm = "auto" then .autoSelection
  else schedulingAlgorithm

/-- The scheduler and the status manager. `scheduled` counts the rounds of
`runScheduler` that are over, `sent` are the messages they sent. -/
structure OffloadingState (P : Type) where
  snippetQueue : KQueue.State P SnippetRequest := {}
  schedulingAlgorithm : SchedulingType := .fixed .dcs
  csdStatus : CsdStatusManager := ∅
  scheduled : Nat := 0
  sent : List CsdMessage := []

inductive OffloadingEvent (P : Type) where
  /-- A step of `push_work` or `wait_and_pop` on `SnippetQueue_`. -/
  | queue (e : KQueue.Event P SnippetRequest)
  /-- The rest of a round: `getBestCSD`, which takes at most so many rounds of
  its own loops, and `SetupSnippet`. -/
  | schedule (rounds : Nat)
  | setAlgorithm (algorithm : String)
  | pushCsdMetric (metric : List CsdMetric)
  | pullCsdStatus (doc : Option CsdList)

variable {P : Type}

section
variable [DecidableEq P]

/-- The scheduler calls `PopQueue` again when its round is over. -/
def offloadingStep (s : OffloadingState P) : OffloadingEvent P → Option (OffloadingState P)
  | .queue .callPop =>
      if s.scheduled = s.snippetQueue.popped.length then
        (KQueue.step s.snippetQueue .callPop).map fun snippetQueue => { s with snippetQueue }
      else none
  | .queue e =>
      (KQueue.step s.snippetQueue e).map fun snippetQueue => { s with snippetQueue }
  | .schedule rounds =>
      if s.snippetQueue.consumer = .idle then do
        let snippet ← s.snippetQueue.popped[s.scheduled]?
        match getBestCsdOn rounds s.csdStatus snippet.sstInfo s.schedulingAlgorithm with
        | .error _ => none
        | .ok (bestcsd, csdStatus) => do
            let messages ← setupSnippet snippet bestcsd
            pure { s with csdStatus, scheduled := s.scheduled + 1, sent := s.sent ++ messages }
      else none
  | .setAlgorithm algorithm =>
      some { s with schedulingAlgorithm := setAlgorithm s.schedulingAlgorithm algorithm }
  | .pushCsdMetric metric => some { s with csdStatus := pushCsdMetric s.csdStatus metric }
  | .pullCsdStatus doc => some { s with csdStatus := pullCsdStatus s.csdStatus doc }

end

/-! ## What the events say -/

def queueEvents (es : List (OffloadingEvent P)) : List (KQueue.Event P SnippetRequest) :=
  es.filterMap fun
    | .queue e => some e
    | _ => none

/-- The algorithm in force after some events. -/
def algorithmAfter (es : List (OffloadingEvent P)) : SchedulingType :=
  es.foldl (fun schedulingAlgorithm e =>
    match e with
    | .setAlgorithm algorithm => setAlgorithm schedulingAlgorithm algorithm
    | _ => schedulingAlgorithm) (.fixed .dcs)

/-- The reports about CSDs in some events. -/
def reports (es : List (OffloadingEvent P)) : List (String × CsdInfo) :=
  es.flatMap fun
    | .pushCsdMetric metric => pushReports metric
    | .pullCsdStatus doc => pullReports doc
    | _ => []

/-- The last score reported for a key; 0 when there is none. -/
def scoreAfter (es : List (OffloadingEvent P)) (csdKey : String) : ℚ :=
  (lastReport (reports es) csdKey).elim 0 (·.analysisScore)

/-- The messages are what a round of the events makes of the snippet: by the
algorithm in force and the scores last reported. -/
def DecidedIn (es : List (OffloadingEvent P)) (snippet : SnippetRequest)
    (messages : List CsdMessage) : Prop :=
  ∃ past rounds rest bestcsd, es = past ++ .schedule rounds :: rest ∧
    getBestCsd rounds (scoreAfter past) snippet.sstInfo (algorithmAfter past) = .ok bestcsd ∧
    setupSnippet snippet bestcsd = some messages

theorem DecidedIn.append {es : List (OffloadingEvent P)} {snippet : SnippetRequest}
    {messages : List CsdMessage} (h : DecidedIn es snippet messages)
    (more : List (OffloadingEvent P)) : DecidedIn (es ++ more) snippet messages := by
  obtain ⟨past, rounds, rest, bestcsd, rfl, hrest⟩ := h
  exact ⟨past, rounds, rest ++ more, bestcsd, by simp, hrest⟩

theorem decided_append {es : List (OffloadingEvent P)} {snippets : List SnippetRequest}
    {groups : List (List CsdMessage)}
    (h : List.Forall₂ (DecidedIn es) snippets groups) (more : List (OffloadingEvent P)) :
    List.Forall₂ (DecidedIn (es ++ more)) snippets groups :=
  h.imp fun _ _ hd => hd.append more

theorem queueEvents_append (es es' : List (OffloadingEvent P)) :
    queueEvents (es ++ es') = queueEvents es ++ queueEvents es' :=
  List.filterMap_append

/-! ## What a step does -/

/-- The scheduler is in `wait_and_pop` and has not popped yet. -/
def Asking : KQueue.ConsumerPc → Prop
  | .locking | .testing | .waiting _ => True
  | .idle | .unlocking => False

/-- A step on the queue pops an item, or leaves those that were popped. -/
theorem queue_turn [DecidableEq P] {T : Type} {q q' : KQueue.State P T} {e : KQueue.Event P T}
    (h : KQueue.step q e = some q') :
    (q'.popped = q.popped ∧ (Asking q'.consumer → Asking q.consumer ∨ e = .callPop)) ∨
      ∃ item, q'.popped = q.popped ++ [item] ∧ Asking q.consumer ∧ ¬ Asking q'.consumer := by
  cases e with
  | call p item | lock p | push p | unlock p =>
    simp only [KQueue.step] at h
    split at h <;> cases h
    exact .inl ⟨rfl, .inl⟩
  | notify p =>
    simp only [KQueue.step] at h
    split at h <;> cases h
    refine .inl ⟨rfl, fun hasking => .inl ?_⟩
    split at hasking
    · cases hc : q.consumer <;> rw [hc] at hasking <;> exact hasking
    · exact hasking
  | callPop =>
    simp only [KQueue.step] at h
    split at h <;> cases h
    exact .inl ⟨rfl, fun _ => .inr rfl⟩
  | lockPop | wait =>
    simp only [KQueue.step] at h
    split at h <;> cases h
    rename_i hc _
    exact .inl ⟨rfl, fun _ => .inl (by simp [hc, Asking])⟩
  | wake =>
    simp only [KQueue.step] at h
    split at h <;> cases h
    rename_i hc
    exact .inl ⟨rfl, fun _ => .inl (by simp [hc, Asking])⟩
  | pop =>
    simp only [KQueue.step] at h
    split at h <;> cases h
    rename_i item rest hc hw
    exact .inr ⟨item, rfl, by simp [hc, Asking], by simp [Asking]⟩
  | unlockPop =>
    simp only [KQueue.step] at h
    split at h <;> cases h
    exact .inl ⟨rfl, fun hasking => by simp [Asking] at hasking⟩

section
variable [DecidableEq P] {s s' : OffloadingState P} {es : List (OffloadingEvent P)}

/-- A step of the threads on the queue. -/
theorem offloadingStep_queue {e : KQueue.Event P SnippetRequest}
    (h : offloadingStep s (.queue e) = some s') :
    ∃ q, KQueue.step s.snippetQueue e = some q ∧ s' = { s with snippetQueue := q } ∧
      (e = .callPop → s.scheduled = s.snippetQueue.popped.length) := by
  by_cases hcall : e = .callPop
  · subst hcall
    obtain ⟨hover, h⟩ := Option.ite_none_right_eq_some.mp h
    obtain ⟨q, hq, rfl⟩ := Option.map_eq_some_iff.mp h
    exact ⟨q, hq, rfl, fun _ => hover⟩
  · have hstep : offloadingStep s (.queue e) =
        (KQueue.step s.snippetQueue e).map fun q => { s with snippetQueue := q } := by
      cases e <;> first | rfl | exact absurd rfl hcall
    rw [hstep] at h
    obtain ⟨q, hq, rfl⟩ := Option.map_eq_some_iff.mp h
    exact ⟨q, hq, rfl, fun hc => absurd hc hcall⟩

/-- The rest of a round. -/
theorem offloadingStep_schedule {rounds : Nat}
    (h : offloadingStep s (.schedule rounds) = some s') :
    ∃ snippet bestcsd csdStatus messages, s.snippetQueue.consumer = .idle ∧
      s.snippetQueue.popped[s.scheduled]? = some snippet ∧
      getBestCsdOn rounds s.csdStatus snippet.sstInfo s.schedulingAlgorithm =
        .ok (bestcsd, csdStatus) ∧
      setupSnippet snippet bestcsd = some messages ∧
      s' = { s with csdStatus, scheduled := s.scheduled + 1, sent := s.sent ++ messages } := by
  obtain ⟨hidle, h⟩ := Option.ite_none_right_eq_some.mp h
  obtain ⟨snippet, hsnippet, h⟩ := Option.bind_eq_some_iff.mp h
  cases hbest : getBestCsdOn rounds s.csdStatus snippet.sstInfo s.schedulingAlgorithm with
  | error failure =>
    rw [hbest] at h
    cases h
  | ok result =>
    rw [hbest] at h
    obtain ⟨messages, hmessages, h⟩ := Option.bind_eq_some_iff.mp h
    cases h
    exact ⟨snippet, _, _, messages, hidle, hsnippet, hbest, hmessages, rfl⟩

/-! ## The invariant of the module -/

/-- The state after some events. -/
structure Reached (es : List (OffloadingEvent P)) (s : OffloadingState P) : Prop where
  queue : run KQueue.step {} (queueEvents es) = some s.snippetQueue
  algorithm : s.schedulingAlgorithm = algorithmAfter es
  score : CsdStatusManager.score s.csdStatus = scoreAfter es
  scheduled_le : s.scheduled ≤ s.snippetQueue.popped.length
  popped_le : s.snippetQueue.popped.length ≤ s.scheduled + 1
  asking : Asking s.snippetQueue.consumer → s.scheduled = s.snippetQueue.popped.length
  sent : ∃ groups : List (List CsdMessage), s.sent = groups.flatten ∧
    List.Forall₂ (DecidedIn es) (s.snippetQueue.popped.take s.scheduled) groups

theorem reached_init : Reached [] ({} : OffloadingState P) where
  queue := rfl
  algorithm := rfl
  score := rfl
  scheduled_le := Nat.le_refl 0
  popped_le := Nat.zero_le 1
  asking := fun h => h.elim
  sent := ⟨[], rfl, .nil⟩

theorem score_record (status : CsdStatusManager) (more : List (String × CsdInfo))
    (old : List (String × CsdInfo))
    (h : CsdStatusManager.score status = fun key => (lastReport old key).elim 0 (·.analysisScore)) :
    CsdStatusManager.score (CsdStatusManager.record status more) =
      fun key => (lastReport (old ++ more) key).elim 0 (·.analysisScore) := by
  funext key
  have hold := congrFun h key
  unfold CsdStatusManager.score at hold ⊢
  rw [lookup_record, lastReport_append]
  cases lastReport more key with
  | some csdInfo => rfl
  | none => exact hold

/-- An event that leaves the queue and the messages. -/
theorem Reached.quiet (h : Reached es s) {e : OffloadingEvent P}
    (hqueue : queueEvents [e] = []) (hsnippetQueue : s'.snippetQueue = s.snippetQueue)
    (hscheduled : s'.scheduled = s.scheduled) (hsent : s'.sent = s.sent)
    (halgorithm : s'.schedulingAlgorithm = algorithmAfter (es ++ [e]))
    (hscore : CsdStatusManager.score s'.csdStatus = scoreAfter (es ++ [e])) :
    Reached (es ++ [e]) s' := by
  obtain ⟨groups, hgroups, hdecided⟩ := h.sent
  constructor
  case queue => rw [queueEvents_append, hqueue, List.append_nil, hsnippetQueue, h.queue]
  case algorithm => exact halgorithm
  case score => exact hscore
  case scheduled_le => rw [hscheduled, hsnippetQueue]; exact h.scheduled_le
  case popped_le => rw [hscheduled, hsnippetQueue]; exact h.popped_le
  case asking => rw [hscheduled, hsnippetQueue]; exact h.asking
  case sent =>
    rw [hscheduled, hsnippetQueue, hsent]
    exact ⟨groups, hgroups, decided_append hdecided [e]⟩

/-- **One step keeps the invariant.** -/
theorem Reached.step (h : Reached es s) {e : OffloadingEvent P}
    (hstep : offloadingStep s e = some s') : Reached (es ++ [e]) s' := by
  have halgorithm : (∀ a, e ≠ .setAlgorithm a) →
      s.schedulingAlgorithm = algorithmAfter (es ++ [e]) := by
    intro hnot
    rw [h.algorithm, algorithmAfter, algorithmAfter, List.foldl_append]
    cases e with
    | setAlgorithm a => exact absurd rfl (hnot a)
    | queue e => rfl
    | schedule rounds => rfl
    | pushCsdMetric metric => rfl
    | pullCsdStatus doc => rfl
  have hreports : reports (es ++ [e]) = reports es ++ reports [e] := List.flatMap_append
  have hscore : reports [e] = [] → CsdStatusManager.score s.csdStatus = scoreAfter (es ++ [e]) := by
    intro hnone
    rw [h.score]
    unfold scoreAfter
    rw [hreports, hnone, List.append_nil]
  cases e with
  | queue e =>
    obtain ⟨q, hq, rfl, hcall⟩ := offloadingStep_queue hstep
    obtain ⟨groups, hgroups, hdecided⟩ := h.sent
    have hrun : run KQueue.step {} (queueEvents (es ++ [.queue e])) = some q := by
      rw [queueEvents_append, run_append, h.queue]
      show run KQueue.step s.snippetQueue [e] = some q
      rw [run_cons, hq]
      rfl
    have hsame := halgorithm fun a ha => by cases ha
    have hscores := hscore rfl
    rcases queue_turn hq with ⟨hpopped, hasking⟩ | ⟨item, hpopped, hbefore, hafter⟩
    · constructor
      case queue => exact hrun
      case algorithm => exact hsame
      case score => exact hscores
      case scheduled_le => exact hpopped ▸ h.scheduled_le
      case popped_le => exact hpopped ▸ h.popped_le
      case asking =>
        intro hnow
        show s.scheduled = q.popped.length
        rw [hpopped]
        exact (hasking hnow).elim h.asking hcall
      case sent =>
        show ∃ groups : List (List CsdMessage), s.sent = groups.flatten ∧
          List.Forall₂ _ (q.popped.take s.scheduled) groups
        rw [hpopped]
        exact ⟨groups, hgroups, decided_append hdecided _⟩
    · -- the item that is popped is not scheduled yet
      have hover := h.asking hbefore
      constructor
      case queue => exact hrun
      case algorithm => exact hsame
      case score => exact hscores
      case scheduled_le =>
        show s.scheduled ≤ q.popped.length
        rw [hpopped, List.length_append]
        omega
      case popped_le =>
        show q.popped.length ≤ s.scheduled + 1
        rw [hpopped, List.length_append, hover]
        exact Nat.le_refl _
      case asking => exact fun hnow => absurd hnow hafter
      case sent =>
        show ∃ groups : List (List CsdMessage), s.sent = groups.flatten ∧
          List.Forall₂ _ (q.popped.take s.scheduled) groups
        rw [hpopped, List.take_append_of_le_length h.scheduled_le]
        exact ⟨groups, hgroups, decided_append hdecided _⟩
  | schedule rounds =>
    obtain ⟨snippet, bestcsd, csdStatus, messages, hidle, hsnippet, hbest, hmessages, rfl⟩ :=
      offloadingStep_schedule hstep
    obtain ⟨groups, hgroups, hdecided⟩ := h.sent
    obtain ⟨keys, hkeys⟩ :=
      getBestCsdOn_eq rounds s.csdStatus snippet.sstInfo s.schedulingAlgorithm
    rw [hkeys] at hbest
    obtain ⟨chosen, hchosen⟩ : ∃ chosen, getBestCsd rounds (CsdStatusManager.score s.csdStatus)
        snippet.sstInfo s.schedulingAlgorithm = .ok chosen := by
      cases hchosen : getBestCsd rounds (CsdStatusManager.score s.csdStatus) snippet.sstInfo
          s.schedulingAlgorithm with
      | error failure =>
        rw [hchosen] at hbest
        cases hbest
      | ok chosen => exact ⟨chosen, rfl⟩
    rw [hchosen] at hbest
    cases hbest
    obtain ⟨hlt, -⟩ := List.getElem?_eq_some_iff.mp hsnippet
    rw [h.score, h.algorithm] at hchosen
    constructor
    case queue =>
      have hnone : queueEvents [(.schedule rounds : OffloadingEvent P)] = [] := rfl
      rw [queueEvents_append, hnone, List.append_nil]
      exact h.queue
    case algorithm => exact halgorithm fun a ha => by cases ha
    case score =>
      rw [score_foldl_ask]
      exact hscore rfl
    case scheduled_le => exact hlt
    case popped_le => exact Nat.le_succ_of_le h.popped_le
    case asking =>
      intro hnow
      rw [hidle] at hnow
      exact hnow.elim
    case sent =>
      refine ⟨groups ++ [messages], by simp [hgroups], ?_⟩
      show List.Forall₂ _ (s.snippetQueue.popped.take (s.scheduled + 1)) _
      rw [List.take_add_one, hsnippet]
      refine List.rel_append (decided_append hdecided _) (.cons ?_ .nil)
      exact ⟨es, rounds, [], bestcsd, rfl, hchosen, hmessages⟩
  | setAlgorithm algorithm =>
    cases hstep
    refine h.quiet rfl rfl rfl rfl ?_ (hscore rfl)
    rw [algorithmAfter, List.foldl_append]
    show setAlgorithm s.schedulingAlgorithm algorithm = _
    rw [h.algorithm]
    rfl
  | pushCsdMetric metric =>
    cases hstep
    refine h.quiet rfl rfl rfl rfl (halgorithm fun a ha => by cases ha) ?_
    show CsdStatusManager.score (pushCsdMetric s.csdStatus metric) = _
    rw [pushCsdMetric_eq, score_record s.csdStatus _ _ h.score]
    unfold scoreAfter
    rw [hreports]
    simp [reports]
  | pullCsdStatus doc =>
    cases hstep
    refine h.quiet rfl rfl rfl rfl (halgorithm fun a ha => by cases ha) ?_
    show CsdStatusManager.score (pullCsdStatus s.csdStatus doc) = _
    rw [pullCsdStatus_eq, score_record s.csdStatus _ _ h.score]
    unfold scoreAfter
    rw [hreports]
    simp [reports]

theorem reached_of_run (hrun : run offloadingStep {} es = some s) : Reached es s := by
  induction es using List.reverseRecOn generalizing s with
  | nil =>
    cases hrun
    exact reached_init
  | append_singleton es e ih =>
    obtain ⟨s₁, s₂, hrun₁, hstep, hrun₂⟩ := run_through hrun
    cases hrun₂
    exact (ih hrun₁).step hstep

end

/-! ## What a CSD is told -/

/-- A snippet whose SSTs can be scanned: they have names of their own, and
replicas, all of which list their blocks or none of which does; and on no CSD
do their blocks number more than an `int` holds. -/
structure Scannable (snippet : SnippetRequest) : Prop where
  names : (snippet.sstInfo.map (·.sstName)).Nodup
  csd : ∀ sst ∈ snippet.sstInfo, sst.csd ≠ []
  size : snippet.sstInfo.length < 2 ^ 31
  listed : (∀ sst ∈ snippet.sstInfo, ∀ c ∈ sst.csd, c.block ≠ []) ∨
    ∀ sst ∈ snippet.sstInfo, ∀ c ∈ sst.csd, c.block = []
  counted : ∀ sst ∈ snippet.sstInfo, 0 ≤ sst.sstBlockCount
  blocks : ∀ csdId, (snippet.sstInfo.map fun sst =>
    blockCountOn csdId snippet.sstInfo sst.sstName).sum < 2 ^ 31

/-- The messages tell each SST of the snippet to one CSD that has a replica of
it, no CSD twice, and nothing else. -/
def SentFor (snippet : SnippetRequest) (messages : List CsdMessage) : Prop :=
  ∃ placed : List (String × List String), (placed.map Prod.fst).Nodup ∧
    (placed.flatMap Prod.snd).Perm (snippet.sstInfo.map (·.sstName)) ∧
    (∀ it ∈ placed, ∀ sstName ∈ it.2, ListsReplica snippet.sstInfo it.1 sstName) ∧
    List.Forall₂ (fun it m => m.snippet = { snippet with sstInfo := [] } ∧
      m.csdIp = csdIp it.1 ∧ Designates snippet it.1 it.2 m) placed messages

theorem serialize_snippet {snippet : SnippetRequest} {csdId : String} {targets : List String}
    {m : CsdMessage} (h : serialize snippet csdId targets = some m) :
    m.snippet = { snippet with sstInfo := [] } := by
  obtain ⟨d, -, h⟩ := Option.bind_eq_some_iff.mp h
  obtain ⟨ret, -, h⟩ := Option.bind_eq_some_iff.mp h
  cases h
  rfl

theorem listed_of_lists {sstInfo : List SstInfo} {csdId sstName : String}
    (h : ListsReplica sstInfo csdId sstName) : sstName ∈ sstInfo.map (·.sstName) := by
  obtain ⟨sst, hsst, rfl, -⟩ := h
  exact List.mem_map_of_mem hsst

/-- The entries of an SST on a CSD are those of a replica it has there. -/
theorem entriesOn_of_lists {sstInfo : List SstInfo} {csdId sstName : String}
    (hnames : (sstInfo.map (·.sstName)).Nodup) (h : ListsReplica sstInfo csdId sstName) :
    ∃ sst ∈ sstInfo, ∃ c ∈ sst.csd, entriesOn csdId sstInfo sstName = c.block := by
  obtain ⟨sst, hsst, rfl, hcsd⟩ := h
  obtain ⟨c, hc⟩ : ∃ c, sst.csd.find? (fun c => c.csdId = csdId) = some c :=
    Option.isSome_iff_exists.mp (List.find?_isSome.mpr (by simpa using hcsd))
  exact ⟨sst, hsst, c, List.mem_of_find?_eq_some hc, by
    simp [entriesOn, replica?, find?_sstName hnames hsst, hc]⟩

theorem blockCountOn_nonneg {sstInfo : List SstInfo}
    (hcount : ∀ sst ∈ sstInfo, 0 ≤ sst.sstBlockCount) (csdId sstName : String) :
    0 ≤ blockCountOn csdId sstInfo sstName := by
  unfold blockCountOn
  cases hr : replica? csdId sstInfo sstName with
  | none => exact le_refl 0
  | some r =>
    obtain ⟨sst, hsst, hcsd⟩ := Option.bind_eq_some_iff.mp hr
    obtain ⟨c, -, rfl⟩ := Option.map_eq_some_iff.mp hcsd
    simp only [Replica.blockCount]
    split
    case isTrue => exact hcount sst (List.mem_of_find?_eq_some hsst)
    case isFalse =>
      refine List.sum_nonneg fun n hn => ?_
      obtain ⟨b, -, rfl⟩ := List.mem_map.mp hn
      unfold entryCount
      split <;> omega

/-- What some of the SSTs have on a CSD is an `int`. -/
theorem Scannable.fits {snippet : SnippetRequest} (h : Scannable snippet) (csdId : String)
    {targets : List String} (honce : targets.Nodup)
    (hknown : targets ⊆ snippet.sstInfo.map (·.sstName)) :
    FitsInt32 (targets.map (blockCountOn csdId snippet.sstInfo)).sum := by
  have hnonneg : ∀ n ∈ (snippet.sstInfo.map (·.sstName)).map (blockCountOn csdId snippet.sstInfo),
      0 ≤ n := by
    intro n hn
    obtain ⟨name, -, rfl⟩ := List.mem_map.mp hn
    exact blockCountOn_nonneg h.counted csdId name
  obtain ⟨part, hperm, hpart⟩ := List.subperm_of_subset honce hknown
  have hsub := hpart.map (blockCountOn csdId snippet.sstInfo)
  have hle := hsub.sum_le_sum hnonneg
  have hpos := List.sum_nonneg fun n hn => hnonneg n (hsub.subset hn)
  have hblocks := h.blocks csdId
  rw [List.map_map, Function.comp_def] at hle
  rw [← (hperm.map _).sum_eq]
  exact ⟨by omega, by omega⟩

/-- **A placement on replicas is carried out**: the messages of `setupSnippet`
tell each SST to the CSD it is placed on. -/
theorem setupSnippet_sentFor {snippet : SnippetRequest} (h : Scannable snippet)
    {bestcsd : SortedMap String String} (hreplicas : OnReplicas bestcsd snippet.sstInfo)
    (honly : OnlySsts bestcsd snippet.sstInfo) {messages : List CsdMessage}
    (hrun : setupSnippet snippet bestcsd = some messages) : SentFor snippet messages := by
  have hlists : ∀ it ∈ (SortedMap.collect bestcsd.entries).entries, ∀ sstName ∈ it.2,
      ListsReplica snippet.sstInfo it.1 sstName := by
    intro it hit sstName hname
    have hentry : (sstName, it.1) ∈ bestcsd.entries :=
      (SortedMap.pairs_collect bestcsd.entries).mem_iff.mp
        (List.mem_flatMap.mpr ⟨it, hit, List.mem_map.mpr ⟨sstName, hname, rfl⟩⟩)
    have hfind := SortedMap.find?_eq_some_iff.mpr hentry
    obtain ⟨sst, hsst, rfl⟩ := List.mem_map.mp (honly _ _ hfind)
    obtain ⟨csdId, hcsd, hfound⟩ := hreplicas sst hsst
    obtain rfl := Option.some.inj (hfind.symm.trans hfound)
    exact ⟨sst, hsst, rfl, hcsd⟩
  refine ⟨(SortedMap.collect bestcsd.entries).entries, SortedMap.keys_nodup _, ?_, hlists, ?_⟩
  · have hflat : (SortedMap.collect bestcsd.entries).entries.flatMap Prod.snd =
        (SortedMap.collect bestcsd.entries).pairs.map Prod.fst := by
      simp [SortedMap.pairs, List.map_flatMap, Function.comp_def]
    rw [hflat]
    refine ((SortedMap.pairs_collect bestcsd.entries).map Prod.fst).trans ?_
    refine (List.perm_ext_iff_of_nodup bestcsd.keys_nodup h.names).mpr fun name => ?_
    constructor
    · intro hname
      obtain ⟨⟨name, csdId⟩, hentry, rfl⟩ := List.mem_map.mp hname
      exact honly name csdId (SortedMap.find?_eq_some_iff.mpr hentry)
    · intro hname
      obtain ⟨sst, hsst, rfl⟩ := List.mem_map.mp hname
      obtain ⟨csdId, -, hfound⟩ := hreplicas sst hsst
      exact List.mem_map.mpr ⟨_, SortedMap.mem_of_find? hfound, rfl⟩
  · refine (List.forall₂_iff_get.mpr ?_)
    have hall := List.forall₂_iff_get.mp (Loops.mapM_eq_some_iff.mp hrun)
    refine ⟨hall.1, fun i hi hi' => ?_⟩
    have hm := hall.2 i hi hi'
    have hit := List.get_mem (SortedMap.collect bestcsd.entries).entries ⟨i, hi⟩
    obtain ⟨-, hip, -⟩ := serialize_message hm
    refine ⟨serialize_snippet hm, hip, ?_⟩
    have hfits := fun csdId => h.fits csdId (SortedMap.nodup_of_mem_collect bestcsd.keys_nodup hit)
      fun sstName hname => listed_of_lists (hlists _ hit sstName hname)
    rcases h.listed with hsome | hnone
    · refine designates_of_entries hm (fun sstName hname => ?_) (hfits _)
      obtain ⟨sst, hsst, c, hc, hentries⟩ :=
        entriesOn_of_lists h.names (hlists _ hit sstName hname)
      rw [hentries]
      exact hsome sst hsst c hc
    · refine designates_of_names hm h.names (hlists _ hit) (fun sstName hname => ?_) (hfits _)
      obtain ⟨sst, hsst, c, hc, hentries⟩ :=
        entriesOn_of_lists h.names (hlists _ hit sstName hname)
      rw [hentries]
      exact hnone sst hsst c hc

/-! ## Whole runs -/

/-- What is popped was pushed in some call. -/
theorem called_of_popped [DecidableEq P] {T : Type} {q : KQueue.State P T}
    {es : List (KQueue.Event P T)} (hrun : run KQueue.step {} es = some q) {item : T}
    (h : item ∈ q.popped) : ∃ p, .call p item ∈ es := by
  have hinv := KQueue.invariant_of_run hrun
  have hlocked : item ∈ q.lockOrder.map Prod.snd := by
    rw [hinv.order, hinv.fifo, List.append_assoc]
    exact List.mem_append_left _ h
  obtain ⟨⟨p, item⟩, hmem, rfl⟩ := List.mem_map.mp hlocked
  have hasked : item ∈ q.asked p := by
    refine List.mem_append_left _ (List.mem_map.mpr ⟨(p, item), ?_, rfl⟩)
    exact List.mem_filter.mpr ⟨hmem, by simp⟩
  rw [KQueue.asked_of_run p hrun] at hasked
  obtain ⟨e, he, hitem⟩ := List.mem_flatMap.mp hasked
  cases e with
  | call p' item' =>
    simp only [KQueue.Event.asks] at hitem
    split at hitem
    · obtain rfl := List.mem_singleton.mp hitem
      exact ⟨p', he⟩
    · cases hitem
  | lock p' | push p' | unlock p' | notify p' => cases hitem
  | callPop | lockPop | wait | wake | pop | unlockPop => cases hitem

theorem mem_of_lastReport {reports : List (String × CsdInfo)} {id : String} {csdInfo : CsdInfo}
    (h : lastReport reports id = some csdInfo) : ∃ r ∈ reports, r.2 = csdInfo := by
  obtain ⟨r, hr, rfl⟩ := Option.map_eq_some_iff.mp h
  exact ⟨r, List.mem_reverse.mp (List.mem_of_find?_eq_some hr), rfl⟩

/-- Without negative reports no score is negative. -/
theorem scoreAfter_nonneg {es : List (OffloadingEvent P)}
    (h : ∀ r ∈ reports es, 0 ≤ r.2.analysisScore) (csdKey : String) : 0 ≤ scoreAfter es csdKey := by
  unfold scoreAfter
  cases hlast : lastReport (reports es) csdKey with
  | none => exact le_refl 0
  | some csdInfo =>
    obtain ⟨r, hr, rfl⟩ := mem_of_lastReport hlast
    exact h r hr

theorem DecidedIn.sentFor {es : List (OffloadingEvent P)} {snippet : SnippetRequest}
    {messages : List CsdMessage} (h : DecidedIn es snippet messages) (hscan : Scannable snippet)
    (hscore : ∀ r ∈ reports es, 0 ≤ r.2.analysisScore) : SentFor snippet messages := by
  obtain ⟨past, rounds, rest, bestcsd, rfl, hbest, hmessages⟩ := h
  have hpast : ∀ r ∈ reports past, 0 ≤ r.2.analysisScore := fun r hr => by
    refine hscore r ?_
    unfold reports at hr ⊢
    rw [List.flatMap_append]
    exact List.mem_append_left _ hr
  exact setupSnippet_sentFor hscan
    (getBestCsd_onReplicas hscan.csd hscan.names hscan.size (scoreAfter_nonneg hpast) hbest)
    (getBestCsd_onlySsts hbest) hmessages

theorem decided_sentFor {es : List (OffloadingEvent P)} {snippets : List SnippetRequest}
    {groups : List (List CsdMessage)} (h : List.Forall₂ (DecidedIn es) snippets groups)
    (hscan : ∀ snippet ∈ snippets, Scannable snippet)
    (hscore : ∀ r ∈ reports es, 0 ≤ r.2.analysisScore) :
    List.Forall₂ (fun snippet messages => SentFor snippet messages ∧
      DecidedIn es snippet messages) snippets groups := by
  induction h with
  | nil => exact .nil
  | cons hone _ ih =>
    exact .cons ⟨hone.sentFor (hscan _ List.mem_cons_self) hscore, hone⟩
      (ih fun snippet hmem => hscan snippet (List.mem_cons_of_mem _ hmem))

section
variable [DecidableEq P] {s : OffloadingState P} {es : List (OffloadingEvent P)}

end

/-- A scan of two SSTs, each with its blocks on two CSDs. -/
def twoSstScan : SnippetRequest where
  columnList := [⟨"key", 3, 4⟩]
  projection := [{ value := ["key"], valueType := [.column] }]
  sstInfo := [
    ⟨"a", [⟨"1", "p", [⟨[0], [10]⟩]⟩, ⟨"2", "p", [⟨[0], [10]⟩]⟩], 1⟩,
    ⟨"b", [⟨"2", "p", [⟨[4], [10, 10]⟩]⟩, ⟨"1", "p", [⟨[4], [10, 10]⟩]⟩], 2⟩]

theorem twoSstScan_scannable : Scannable twoSstScan where
  names := by decide
  csd := by decide
  size := by decide
  listed := .inl (by decide)
  counted := by decide
  blocks csdId := by
    have hcount : ∀ sstName ∈ ["a", "b"], blockCountOn csdId twoSstScan.sstInfo sstName ≤ 2 := by
      by_cases hone : csdId = "1"
      · subst hone; decide
      by_cases htwo : csdId = "2"
      · subst htwo; decide
      simp [blockCountOn, replica?, twoSstScan, Ne.symm hone, Ne.symm htwo]
    have ha := hcount "a" (by simp)
    have hb := hcount "b" (by simp)
    simp only [twoSstScan, List.map_cons, List.map_nil, List.sum_cons, List.sum_nil] at ha hb ⊢
    omega

/-- Two threads push the scan; the first round goes by the default algorithm
and a score, the second by another. -/
def twoScansRun : List (OffloadingEvent Bool) :=
  [.queue (.call true twoSstScan), .queue .callPop, .queue (.lock true), .queue (.push true),
    .queue (.call false twoSstScan), .queue (.unlock true), .queue (.lock false),
    .queue (.push false), .queue (.notify true), .queue (.unlock false), .queue .lockPop,
    .queue .pop, .queue .unlockPop, .pushCsdMetric [⟨"csd1", "10.1.1.2", 0, 0, 0, 0, 3, 7⟩],
    .schedule 1, .setAlgorithm "DSI", .queue .callPop, .queue .lockPop, .queue .pop,
    .queue .unlockPop, .queue (.notify false), .schedule 1]

end KetiEngine.Offloading
