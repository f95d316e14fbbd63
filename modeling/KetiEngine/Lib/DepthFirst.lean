import Mathlib.Data.List.MinMax
import Mathlib.Data.List.Induction
import Mathlib.Data.List.Forall2

/-!
# DepthFirst — a search over all choices that shares what it keeps

One element is chosen at each level, and complete choices are rated. Every
level has a best rating of its own and starts from nothing, but all of them
write the one place where the best choice is kept. What is left there at the
end comes from the last element of level after level.
-/

namespace DepthFirst

variable {α S : Type*} [LinearOrder S] (rate : List α → S) (least : S)

/-- The search below `chosen`, the last choice first. A level keeps its part
of a choice whenever the rating is better than the level's best so far. -/
def search : List (List α) → List α → List α → S × List α
  | [], chosen, kept => (rate chosen, kept)
  | choices :: levels, chosen, kept =>
      choices.foldl (fun st a =>
        let found := search levels (a :: chosen) st.2
        if st.1 < found.1 then (found.1, a :: chosen) else (st.1, found.2)) (least, kept)

/-- The best rating below `chosen`. -/
def best : List (List α) → List α → S
  | [], chosen => rate chosen
  | choices :: levels, chosen => (choices.map fun a => best levels (a :: chosen)).foldl max least

/-- One element from each level. -/
def Completion (levels : List (List α)) (p : List α) : Prop :=
  List.Forall₂ (fun choices a => a ∈ choices) levels p

/-- The last element of each level. -/
def lasts (levels : List (List α)) : List α := levels.filterMap List.getLast?

variable {rate least}

/-! ## The best rating -/

theorem search_leaf (chosen kept : List α) :
    search rate least [] chosen kept = (rate chosen, kept) := rfl

/-- The last element of a level is searched with what the others left. -/
theorem search_concat (choices : List α) (a : α) (levels : List (List α))
    (chosen kept : List α) :
    search rate least ((choices ++ [a]) :: levels) chosen kept =
      let before := search rate least (choices :: levels) chosen kept
      let found := search rate least levels (a :: chosen) before.2
      if before.1 < found.1 then (found.1, a :: chosen) else (before.1, found.2) := by
  rw [search, List.foldl_append]
  rfl

theorem best_concat (choices : List α) (a : α) (levels : List (List α)) (chosen : List α) :
    best rate least ((choices ++ [a]) :: levels) chosen =
      max (best rate least (choices :: levels) chosen) (best rate least levels (a :: chosen)) := by
  simp [best]

/-- The rating that is found does not depend on what was kept. -/
theorem search_fst (levels : List (List α)) (chosen kept : List α) :
    (search rate least levels chosen kept).1 = best rate least levels chosen := by
  induction levels generalizing chosen kept with
  | nil => rfl
  | cons choices levels ih =>
    induction choices using List.reverseRecOn with
    | nil => rfl
    | append_singleton choices a ihc =>
      rw [search_concat, best_concat]
      simp only [ihc, ih]
      split
      · rename_i hlt
        rw [max_eq_right hlt.le]
      · rename_i hle
        rw [max_eq_left (not_lt.mp hle)]

theorem best_le_of_mem {choices : List α} {a : α} (ha : a ∈ choices) (levels : List (List α))
    (chosen : List α) :
    best rate least levels (a :: chosen) ≤ best rate least (choices :: levels) chosen := by
  induction choices using List.reverseRecOn with
  | nil => cases ha
  | append_singleton choices b ih =>
    rw [best_concat]
    rcases List.mem_append.mp ha with ha | ha
    · exact (ih ha).trans (le_max_left _ _)
    · obtain rfl := List.mem_singleton.mp ha
      exact le_max_right _ _

/-- A level has the best rating of one of its elements, or none. -/
theorem best_cons_eq (choices : List α) (levels : List (List α)) (chosen : List α) :
    best rate least (choices :: levels) chosen = least ∨
      ∃ a ∈ choices, best rate least (choices :: levels) chosen =
        best rate least levels (a :: chosen) := by
  induction choices using List.reverseRecOn with
  | nil => exact .inl rfl
  | append_singleton choices b ih =>
    rw [best_concat]
    rcases max_choice (best rate least (choices :: levels) chosen)
      (best rate least levels (b :: chosen)) with hmax | hmax
    · rw [hmax]
      exact ih.imp_right fun ⟨a, ha, he⟩ => ⟨a, by simp [ha], he⟩
    · exact .inr ⟨b, by simp, hmax⟩

theorem rate_le_best {levels : List (List α)} {p : List α} (hp : Completion levels p)
    (chosen : List α) : rate (p.reverse ++ chosen) ≤ best rate least levels chosen := by
  induction hp generalizing chosen with
  | nil => exact le_refl _
  | @cons choices a levels p ha _ ih =>
    rw [List.reverse_cons, List.append_assoc, List.singleton_append]
    exact (ih (a :: chosen)).trans (best_le_of_mem ha levels chosen)

/-- Every complete choice below `chosen` has a rating above the least, and no
level is empty. -/
structure Rated (rate : List α → S) (least : S) (levels : List (List α)) (chosen : List α) :
    Prop where
  inhabited : ∀ choices ∈ levels, choices ≠ []
  above : ∀ p, Completion levels p → least < rate (p.reverse ++ chosen)

theorem Rated.below {choices : List α} {levels : List (List α)} {chosen : List α}
    (h : Rated rate least (choices :: levels) chosen) {a : α} (ha : a ∈ choices) :
    Rated rate least levels (a :: chosen) where
  inhabited c hc := h.inhabited c (by simp [hc])
  above p hp := by
    have hlt := h.above (a :: p) (.cons ha hp)
    rwa [List.reverse_cons, List.append_assoc, List.singleton_append] at hlt

/-- **The best rating** is that of a complete choice. -/
theorem Rated.exists_best {levels : List (List α)} {chosen : List α}
    (h : Rated rate least levels chosen) :
    ∃ p, Completion levels p ∧ best rate least levels chosen = rate (p.reverse ++ chosen) := by
  induction levels generalizing chosen with
  | nil => exact ⟨[], .nil, rfl⟩
  | cons choices levels ih =>
    have hpath : ∀ a ∈ choices, ∃ p, Completion (choices :: levels) p ∧
        best rate least levels (a :: chosen) = rate (p.reverse ++ chosen) := by
      intro a ha
      obtain ⟨p, hp, hbest⟩ := ih (h.below ha)
      refine ⟨a :: p, .cons ha hp, ?_⟩
      rwa [List.reverse_cons, List.append_assoc, List.singleton_append]
    rcases @best_cons_eq _ _ _ rate least choices levels chosen with hbest | ⟨a, ha, hbest⟩
    · -- every element beats the least
      obtain ⟨a, ha⟩ := List.exists_mem_of_ne_nil _ (h.inhabited choices (by simp))
      obtain ⟨p, hp, hrate⟩ := hpath a ha
      have hle := @best_le_of_mem _ _ _ rate least _ _ ha levels chosen
      rw [hbest, hrate] at hle
      exact absurd hle (not_le.mpr (h.above p hp))
    · rw [hbest]
      exact hpath a ha

theorem Rated.least_lt_best {levels : List (List α)} {chosen : List α}
    (h : Rated rate least levels chosen) : least < best rate least levels chosen := by
  obtain ⟨p, hp, hbest⟩ := h.exists_best
  exact hbest ▸ h.above p hp

/-- The last elements of the levels before are a choice like any other. -/
theorem Rated.after {before : List (List α)} {choices : List α} {after : List (List α)}
    {chosen : List α} (h : Rated rate least (before ++ choices :: after) chosen) {a : α}
    (ha : a ∈ choices) : Rated rate least after (a :: ((lasts before).reverse ++ chosen)) := by
  induction before generalizing chosen with
  | nil => exact h.below ha
  | cons first before ih =>
    obtain ⟨first, last, rfl⟩ :=
      (List.eq_nil_or_concat' first).resolve_left (h.inhabited first (by simp))
    have hbelow := ih (h.below (a := last) (by simp))
    simpa [lasts] using hbelow

theorem completion_lasts {levels : List (List α)} (h : ∀ choices ∈ levels, choices ≠ []) :
    Completion levels (lasts levels) := by
  induction levels with
  | nil => exact .nil
  | cons choices levels ih =>
    obtain ⟨choices, last, rfl⟩ :=
      (List.eq_nil_or_concat' choices).resolve_left (h choices (by simp))
    have hlasts : lasts ((choices ++ [last]) :: levels) = last :: lasts levels := by simp [lasts]
    rw [hlasts]
    exact .cons (by simp) (ih fun c hc => h c (by simp [hc]))

/-- Comparing the best ratings compares complete choices. -/
theorem best_le_best_iff {levels : List (List α)} {chosen chosen' : List α}
    (h : Rated rate least levels chosen) (h' : Rated rate least levels chosen') :
    best rate least levels chosen ≤ best rate least levels chosen' ↔
      ∃ p', Completion levels p' ∧ ∀ p, Completion levels p →
        rate (p.reverse ++ chosen) ≤ rate (p'.reverse ++ chosen') := by
  constructor
  · intro hle
    obtain ⟨p', hp', hbest⟩ := h'.exists_best
    exact ⟨p', hp', fun p hp => (rate_le_best hp chosen).trans (hbest ▸ hle)⟩
  · rintro ⟨p', hp', hall⟩
    obtain ⟨p, hp, hbest⟩ := h.exists_best
    exact hbest ▸ (hall p hp).trans (rate_le_best hp' chosen')

/-! ## What is kept -/

/-- No level but the last improves with its last element, after the last
elements of the levels before it. -/
def Settles (rate : List α → S) (least : S) (levels : List (List α)) (chosen : List α) : Prop :=
  ∀ before choices after, levels = before ++ choices :: after → after ≠ [] →
    ∃ a ∈ choices.dropLast, ∀ last ∈ choices.getLast?,
      best rate least after (last :: ((lasts before).reverse ++ chosen)) ≤
        best rate least after (a :: ((lasts before).reverse ++ chosen))

/-- Whether a search settles, by the ratings of complete choices. -/
theorem settles_iff {levels : List (List α)} {chosen : List α}
    (h : Rated rate least levels chosen) :
    Settles rate least levels chosen ↔
      ∀ before choices after, levels = before ++ choices :: after → after ≠ [] →
        ∃ a ∈ choices.dropLast, ∀ last ∈ choices.getLast?,
          ∃ p, Completion after p ∧ ∀ p', Completion after p' →
            rate (p'.reverse ++ last :: ((lasts before).reverse ++ chosen)) ≤
              rate (p.reverse ++ a :: ((lasts before).reverse ++ chosen)) := by
  refine forall₅_congr fun before choices after hsplit _ => ?_
  subst hsplit
  refine exists_congr fun a => and_congr_right fun ha => forall₂_congr fun last hlast => ?_
  exact best_le_best_iff (h.after (List.mem_of_getLast? hlast))
    (h.after (List.dropLast_subset _ ha))

theorem settles_singleton (choices : List α) (chosen : List α) :
    Settles rate least [choices] chosen := by
  intro before other after hsplit hafter
  have hlength := congrArg List.length hsplit
  have hpos := List.length_pos_iff.mpr hafter
  simp at hlength
  omega

theorem settles_cons {choices : List α} {last : α} {next : List α} {levels : List (List α)}
    {chosen : List α} :
    Settles rate least ((choices ++ [last]) :: next :: levels) chosen ↔
      (∃ a ∈ choices, best rate least (next :: levels) (last :: chosen) ≤
        best rate least (next :: levels) (a :: chosen)) ∧
      Settles rate least (next :: levels) (last :: chosen) := by
  constructor
  · intro h
    refine ⟨?_, fun before other after hsplit hafter => ?_⟩
    · obtain ⟨a, ha, hle⟩ := h [] (choices ++ [last]) (next :: levels) rfl (by simp)
      exact ⟨a, by simpa using ha, hle last (by simp)⟩
    · have hbelow := h ((choices ++ [last]) :: before) other after (by rw [hsplit]; rfl) hafter
      simpa [lasts] using hbelow
  · rintro ⟨⟨a, ha, hle⟩, hrest⟩ before other after hsplit hafter
    cases before with
    | nil =>
      obtain ⟨rfl, rfl⟩ := List.cons.inj hsplit
      refine ⟨a, by simpa using ha, fun last' hlast' => ?_⟩
      obtain rfl : last = last' := by simpa using hlast'
      exact hle
    | cons first before =>
      obtain ⟨rfl, htail⟩ := List.cons.inj hsplit
      simpa [lasts] using hrest before other after htail hafter

theorem Rated.init {choices : List α} {a : α} {levels : List (List α)} {chosen : List α}
    (h : Rated rate least ((choices ++ [a]) :: levels) chosen) (hne : choices ≠ []) :
    Rated rate least (choices :: levels) chosen where
  inhabited c hc := by
    rcases List.mem_cons.mp hc with rfl | hc
    · exact hne
    · exact h.inhabited c (by simp [hc])
  above p hp := by
    cases hp with
    | cons hb hp => exact h.above _ (.cons (List.mem_append_left _ hb) hp)

/-- The last level keeps the first of its elements with the best rating. -/
theorem search_singleton {choices : List α} {chosen : List α} (kept : List α)
    (h : Rated rate least [choices] chosen) :
    ∃ a ∈ choices.argmax fun a => rate (a :: chosen),
      search rate least [choices] chosen kept = (rate (a :: chosen), a :: chosen) := by
  induction choices using List.reverseRecOn with
  | nil => exact absurd rfl (h.inhabited [] (by simp))
  | append_singleton choices a ih =>
    rw [search_concat]
    by_cases hne : choices = []
    · subst hne
      have habove : least < rate (a :: chosen) := h.above [a] (.cons (by simp) .nil)
      exact ⟨a, by simp, if_pos habove⟩
    · obtain ⟨b, hb, hsearch⟩ := ih (h.init hne)
      simp only [hsearch, List.argmax_concat, Option.mem_def.mp hb, search_leaf]
      split
      · exact ⟨a, rfl, rfl⟩
      · exact ⟨b, rfl, rfl⟩

/-- The last element of a level that others follow: it is kept alone if it
improves, and otherwise the levels below decide. -/
theorem search_cons_concat {choices : List α} {last : α} {levels : List (List α)}
    {chosen : List α} (h : Rated rate least ((choices ++ [last]) :: levels) chosen)
    (kept : List α) :
    (∃ a ∈ choices, best rate least levels (last :: chosen) ≤
        best rate least levels (a :: chosen)) ∧
      (∃ kept', (search rate least ((choices ++ [last]) :: levels) chosen kept).2 =
        (search rate least levels (last :: chosen) kept').2) ∨
    (¬ ∃ a ∈ choices, best rate least levels (last :: chosen) ≤
        best rate least levels (a :: chosen)) ∧
      (search rate least ((choices ++ [last]) :: levels) chosen kept).2 = last :: chosen := by
  rw [search_concat]
  simp only [search_fst]
  split
  · rename_i hlt
    refine .inr ⟨?_, rfl⟩
    rintro ⟨a, ha, hle⟩
    exact absurd (hle.trans (best_le_of_mem ha levels chosen)) (not_le.mpr hlt)
  · rename_i hge
    refine .inl ⟨?_, _, rfl⟩
    rcases @best_cons_eq _ _ _ rate least choices levels chosen with hnone | ⟨a, ha, hbest⟩
    · have hlast := (h.below (a := last) (by simp)).least_lt_best
      rw [hnone] at hge
      exact absurd hlast hge
    · exact ⟨a, ha, hbest ▸ not_lt.mp hge⟩

/-- **A whole choice is kept** exactly when the search settles. -/
theorem length_search_iff {levels : List (List α)} (hlevels : levels ≠ []) {chosen : List α}
    (h : Rated rate least levels chosen) (kept : List α) :
    (search rate least levels chosen kept).2.length = chosen.length + levels.length ↔
      Settles rate least levels chosen := by
  induction levels generalizing chosen kept with
  | nil => exact absurd rfl hlevels
  | cons choices levels ih =>
    cases levels with
    | nil =>
      obtain ⟨a, -, hsearch⟩ := search_singleton kept h
      simp [hsearch, settles_singleton]
    | cons next levels =>
      obtain ⟨choices, last, rfl⟩ :=
        (List.eq_nil_or_concat' choices).resolve_left (h.inhabited choices (by simp))
      rw [settles_cons]
      rcases search_cons_concat h kept with ⟨hsettled, kept', hsearch⟩ | ⟨hnot, hsearch⟩
      · have hbelow := ih (by simp) (h.below (a := last) (by simp)) kept'
        rw [hsearch, ← hbelow]
        simp only [hsettled, true_and, List.length_cons]
        omega
      · rw [hsearch]
        simp [hnot]

/-- No more than a whole choice is kept. -/
theorem length_search_le {levels : List (List α)} (hlevels : levels ≠ []) {chosen : List α}
    (h : Rated rate least levels chosen) (kept : List α) :
    (search rate least levels chosen kept).2.length ≤ chosen.length + levels.length := by
  induction levels generalizing chosen kept with
  | nil => exact absurd rfl hlevels
  | cons choices levels ih =>
    cases levels with
    | nil =>
      obtain ⟨a, -, hsearch⟩ := search_singleton kept h
      simp [hsearch]
    | cons next levels =>
      obtain ⟨choices, last, rfl⟩ :=
        (List.eq_nil_or_concat' choices).resolve_left (h.inhabited choices (by simp))
      rcases search_cons_concat h kept with ⟨-, kept', hsearch⟩ | ⟨-, hsearch⟩
      · have hbelow := ih (by simp) (h.below (a := last) (by simp)) kept'
        rw [hsearch]
        simp only [List.length_cons] at hbelow ⊢
        omega
      · rw [hsearch]
        simp

/-- What a search keeps that settles. -/
theorem search_of_settles {outer : List (List α)} {choices : List α} {chosen : List α}
    (h : Rated rate least (outer ++ [choices]) chosen)
    (hsettles : Settles rate least (outer ++ [choices]) chosen) (kept : List α) :
    ∃ a ∈ choices.argmax fun a => rate (a :: ((lasts outer).reverse ++ chosen)),
      (search rate least (outer ++ [choices]) chosen kept).2 =
        a :: ((lasts outer).reverse ++ chosen) := by
  induction outer generalizing chosen kept with
  | nil =>
    obtain ⟨a, ha, hsearch⟩ := search_singleton kept h
    exact ⟨a, ha, by rw [List.nil_append, hsearch]; rfl⟩
  | cons first outer ih =>
    obtain ⟨first, last, rfl⟩ :=
      (List.eq_nil_or_concat' first).resolve_left (h.inhabited first (by simp))
    obtain ⟨next, levels, hnext⟩ : ∃ next levels, outer ++ [choices] = next :: levels :=
      List.exists_cons_of_ne_nil (by simp)
    rw [List.cons_append] at h hsettles ⊢
    rw [hnext, settles_cons] at hsettles
    rcases search_cons_concat h kept with ⟨-, kept', hsearch⟩ | ⟨hnot, -⟩
    · have hbelow := ih (h.below (a := last) (by simp)) (hnext ▸ hsettles.2) kept'
      simpa [hsearch, lasts] using hbelow
    · exact absurd (hnext ▸ hsettles.1) hnot

end DepthFirst
