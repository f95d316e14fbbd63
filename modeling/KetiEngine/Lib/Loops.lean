import Mathlib.Data.List.Forall2
import Mathlib.Data.List.Zip

/-!
# Loops that may fail

A source loop whose body can leave the defined behaviour is a `foldlM` or a
`mapM` in `Option`. These lemmas separate what a loop reads from what it
writes, and carry an invariant through a successful loop.
-/

universe u

namespace Loops

variable {α β σ : Type*}

/-- A `mapM` succeeds exactly with the list of its successes. -/
theorem mapM_eq_some_iff {f : α → Option β} {l : List α} {ys : List β} :
    l.mapM f = some ys ↔ List.Forall₂ (fun a b => f a = some b) l ys := by
  induction l generalizing ys with
  | nil => cases ys <;> simp
  | cons a l ih =>
    rw [List.mapM_cons]
    constructor
    · intro h
      obtain ⟨b, hb, h⟩ := Option.bind_eq_some_iff.mp h
      obtain ⟨bs, hbs, h⟩ := Option.bind_eq_some_iff.mp h
      cases h
      exact .cons hb (ih.mp hbs)
    · rintro (_ | ⟨hb, hbs⟩)
      rw [hb, ih.mpr hbs]
      rfl

theorem map_eq_of_forall₂ {γ : Type*} {R : α → β → Prop} {f : α → γ} {g : β → γ}
    (hR : ∀ a b, R a b → g b = f a) {l : List α} {l' : List β} (h : List.Forall₂ R l l') :
    l'.map g = l.map f := by
  induction h with
  | nil => rfl
  | cons hab _ ih => rw [List.map_cons, List.map_cons, hR _ _ hab, ih]

theorem length_of_mapM {f : α → Option β} {l : List α} {ys : List β}
    (h : l.mapM f = some ys) : ys.length = l.length :=
  (mapM_eq_some_iff.mp h).length_eq.symm

/-- The results of a `mapM` stand where their elements do. -/
theorem getElem?_of_mapM {f : α → Option β} {l : List α} {ys : List β}
    (h : l.mapM f = some ys) {i : Nat} {a : α} (ha : l[i]? = some a) : f a = ys[i]? := by
  obtain ⟨hi, rfl⟩ := List.getElem?_eq_some_iff.mp ha
  have hi' : i < ys.length := (length_of_mapM h).symm ▸ hi
  rw [List.getElem?_eq_getElem hi']
  exact (mapM_eq_some_iff.mp h).get hi hi'

/-- Each result of a `mapM` is that of an element. -/
theorem exists_of_mapM {f : α → Option β} {l : List α} {ys : List β} (h : l.mapM f = some ys)
    {b : β} (hb : b ∈ ys) : ∃ a ∈ l, f a = some b := by
  obtain ⟨i, hi, rfl⟩ := List.getElem_of_mem hb
  obtain ⟨hlength, hall⟩ := List.forall₂_iff_get.mp (mapM_eq_some_iff.mp h)
  exact ⟨_, List.get_mem l ⟨i, hlength ▸ hi⟩, hall i (hlength ▸ hi) hi⟩

/-- A `mapM` whose body always succeeds is a `map`. -/
theorem mapM_of_forall {f : α → Option β} {g : α → β} {l : List α}
    (h : ∀ a ∈ l, f a = some (g a)) : l.mapM f = some (l.map g) := by
  rw [mapM_eq_some_iff, List.forall₂_map_right_iff, List.forall₂_same]
  exact h

/-- Where every reading succeeds, the list of the results is read at the
same places. -/
theorem getElem?_filterMap {f : α → Option β} {l : List α} (h : ∀ a ∈ l, ∃ b, f a = some b)
    (k : Nat) : (l.filterMap f)[k]? = l[k]?.bind f := by
  induction l generalizing k with
  | nil => rfl
  | cons a l ih =>
    obtain ⟨b, hb⟩ := h a (by simp)
    have htail := ih fun c hc => h c (by simp [hc])
    cases k with
    | zero => simp [hb]
    | succ k => simpa [hb] using htail k

/-- Reading `f a` and then updating the state with it, element by element,
is reading everything first and updating afterwards. -/
theorem foldlM_read_then_write (f : α → Option β) (g : σ → α → β → σ)
    (l : List α) (s : σ) :
    l.foldlM (fun s a => (f a).map (g s a)) s =
      (l.mapM f).map fun bs => (l.zip bs).foldl (fun s p => g s p.1 p.2) s := by
  induction l generalizing s with
  | nil => rfl
  | cons a l ih =>
    rw [List.foldlM_cons, List.mapM_cons]
    cases ha : f a with
    | none => rfl
    | some b =>
      simp only [Option.map_some, Option.bind_eq_bind, Option.bind_some, ih]
      cases l.mapM f <;> rfl

/-- A `foldlM` whose body always succeeds is a `foldl`. -/
theorem foldlM_of_forall {f : σ → α → Option σ} {g : σ → α → σ} {l : List α}
    (h : ∀ s, ∀ a ∈ l, f s a = some (g s a)) (s : σ) :
    l.foldlM f s = some (l.foldl g s) := by
  induction l generalizing s with
  | nil => rfl
  | cons a l ih =>
    rw [List.foldlM_cons, h s a (by simp)]
    exact ih (fun s b hb => h s b (by simp [hb])) _

/-- A loop one of whose rounds always fails. -/
theorem foldlM_eq_none {f : σ → α → Option σ} {l : List α} {a : α} (ha : a ∈ l)
    (hnone : ∀ s, f s a = none) (s : σ) : l.foldlM f s = none := by
  induction l generalizing s with
  | nil => cases ha
  | cons b l ih =>
    rw [List.foldlM_cons]
    rcases List.mem_cons.mp ha with rfl | ha
    · rw [hnone]
      rfl
    · cases f s b with
      | none => rfl
      | some t => exact ih ha t

/-- The loop rule: what holds before the loop and is kept by each of its
rounds holds after it. `P done s` speaks of the elements already passed. -/
theorem foldlM_induction {f : σ → α → Option σ} {P : List α → σ → Prop}
    {l : List α} {s s' : σ} (hinit : P [] s)
    (hround : ∀ done a rest s s', l = done ++ a :: rest → P done s →
      f s a = some s' → P (done ++ [a]) s')
    (hrun : l.foldlM f s = some s') : P l s' := by
  have key : ∀ rest done s, l = done ++ rest → P done s →
      rest.foldlM f s = some s' → P l s' := by
    intro rest
    induction rest with
    | nil =>
      intro done s hl hp hr
      cases hr
      simpa [hl] using hp
    | cons a rest ih =>
      intro done s hl hp hr
      rw [List.foldlM_cons] at hr
      obtain ⟨t, ht, hr⟩ := Option.bind_eq_some_iff.mp hr
      exact ih (done ++ [a]) t (by simp [hl]) (hround done a rest s t hl hp ht) hr
  exact key l [] s rfl hinit hrun

/-- What holds of every element and the elements before it, when one more
element comes. -/
theorem forall_split_concat {R : List α → α → Prop} {l : List α} {b : α} :
    (∀ done a rest, l ++ [b] = done ++ a :: rest → R done a) ↔
      (∀ done a rest, l = done ++ a :: rest → R done a) ∧ R l b := by
  constructor
  · intro h
    refine ⟨fun done a rest hl => h done a (rest ++ [b]) (by simp [hl]), h l b [] rfl⟩
  · rintro ⟨hl, hb⟩ done a rest hsplit
    rcases List.eq_nil_or_concat rest with rfl | ⟨rest, c, rfl⟩
    · obtain ⟨rfl, h⟩ := List.append_inj' hsplit rfl
      obtain ⟨rfl, -⟩ := List.cons.inj h
      exact hb
    · rw [List.concat_eq_append, ← List.cons_append, ← List.append_assoc] at hsplit
      exact hl done a rest (List.append_inj' hsplit rfl).1

/-- The loop rule for two loops over one list: a relation of their states that
each round keeps holds at their ends. -/
theorem foldlM_rel {τ : Type u} {f : σ → α → Option σ} {g : τ → α → Option τ} {R : σ → τ → Prop}
    (hround : ∀ s t a s' t', R s t → f s a = some s' → g t a = some t' → R s' t')
    {l : List α} {s s' : σ} {t t' : τ} (hinit : R s t) (hf : l.foldlM f s = some s')
    (hg : l.foldlM g t = some t') : R s' t' := by
  induction l generalizing s t with
  | nil =>
    cases hf
    cases hg
    exact hinit
  | cons a l ih =>
    rw [List.foldlM_cons] at hf hg
    obtain ⟨u, hu, hf⟩ := Option.bind_eq_some_iff.mp hf
    obtain ⟨v, hv, hg⟩ := Option.bind_eq_some_iff.mp hg
    exact ih (hround s t a u v hinit hu hv) hf hg

/-- The loop rule for a loop that cannot fail from states satisfying the
invariant: it runs to its end. -/
theorem foldlM_total {f : σ → α → Option σ} {P : List α → σ → Prop}
    {l : List α} {s : σ} (hinit : P [] s)
    (hround : ∀ done a rest s, l = done ++ a :: rest → P done s →
      ∃ s', f s a = some s' ∧ P (done ++ [a]) s') :
    ∃ s', l.foldlM f s = some s' ∧ P l s' := by
  have key : ∀ rest done s, l = done ++ rest → P done s →
      ∃ s', rest.foldlM f s = some s' ∧ P l s' := by
    intro rest
    induction rest with
    | nil =>
      intro done s hl hp
      exact ⟨s, rfl, by simpa [hl] using hp⟩
    | cons a rest ih =>
      intro done s hl hp
      obtain ⟨t, ht, hp'⟩ := hround done a rest s hl hp
      obtain ⟨s', hs', hp''⟩ := ih (done ++ [a]) t (by simp [hl]) hp'
      exact ⟨s', by rw [List.foldlM_cons, ht]; exact hs', hp''⟩
  exact key l [] s rfl hinit

/-- What a loop over `0, …, n - 1` has passed when it reaches `a`. -/
theorem range_eq_append_cons {n a : Nat} {done rest : List Nat}
    (h : List.range n = done ++ a :: rest) : done = List.range a ∧ a < n := by
  have hlength : n = done.length + (rest.length + 1) := by simpa using congrArg List.length h
  have ha : a = done.length := by
    have hget := congrArg (·[done.length]?) h
    simpa [hlength] using hget.symm
  have hdone : done = (List.range n).take done.length := by simp [h]
  rw [List.take_range, Nat.min_eq_left (by omega), ← ha] at hdone
  exact ⟨hdone, by omega⟩

/-- A loop over the positions of a list that reads another one, at least as
long, at each of them. -/
theorem foldlM_zipIdx_map {γ : Type*} (f : σ → β → Option γ → Option σ) (g : α → β)
    (h : α → γ) (l after : List α) (s : σ) :
    (l.map g).zipIdx.foldlM (fun s p => f s p.1 ((l ++ after).map h)[p.2]?) s =
      l.foldlM (fun s a => f s (g a) (some (h a))) s := by
  have hread : (l.map g).zipIdx.map (fun p => (p.1, ((l ++ after).map h)[p.2]?)) =
      l.map fun a => (g a, some (h a)) := by
    apply List.ext_getElem
    · simp
    · intro i h₁ h₂
      have hi : i < l.length := by simpa using h₂
      have hget : ((l ++ after).map h)[i]? = some (h l[i]) := by
        rw [List.map_append, List.getElem?_append_left (by simpa using hi)]
        simp [hi]
      simpa using hget
  have hloop := congrArg (List.foldlM (fun s (q : β × Option γ) => f s q.1 q.2) s) hread
  rw [List.foldlM_map, List.foldlM_map] at hloop
  exact hloop

/-- A loop over the positions of a part that reads two lists at each of
them. -/
theorem foldlM_segment {α : Type*} {β γ σ : Type u} (f : σ → β → γ → Option σ)
    (g : α → β) (h : α → γ) (before l after : List α) (s : σ) :
    (List.range' before.length l.length).foldlM (fun s (i : Nat) => do
        let c ← ((before ++ l ++ after).map h)[i]?
        let b ← ((before ++ l ++ after).map g)[i]?
        f s b c) s =
      l.foldlM (fun s a => f s (g a) (h a)) s := by
  have hread : (List.range' before.length l.length).map ((before ++ l ++ after)[·]?) =
      l.map some := by
    apply List.ext_getElem
    · simp
    · intro i hi hi'
      have hi : i < l.length := by simpa using hi
      simp [List.getElem?_append, hi]
  have hloop := congrArg
    (List.foldlM (fun s (o : Option α) => o.bind fun a => f s (g a) (h a)) s) hread
  rw [List.foldlM_map, List.foldlM_map] at hloop
  simp only [Option.bind_some] at hloop
  rw [← hloop]
  congr 1
  funext s i
  simp only [List.getElem?_map]
  cases (before ++ l ++ after)[i]? <;> rfl

theorem foldlM_positions {α : Type*} {β γ σ : Type u} (f : σ → β → γ → Option σ)
    (g : α → β) (h : α → γ) (l : List α) (s : σ) :
    (List.range' 0 l.length).foldlM (fun s (i : Nat) => do
        let c ← (l.map h)[i]?
        let b ← (l.map g)[i]?
        f s b c) s =
      l.foldlM (fun s a => f s (g a) (h a)) s := by
  simpa using foldlM_segment f g h [] l [] s

/-! ## Loops that break

A test of every element that breaks at the first answer that settles it. Only
the elements it comes to need an answer. -/

/-- A loop that goes on while `go` holds comes to an element with `bad`. -/
def reached (go bad : α → Bool) : List α → Bool
  | [] => false
  | a :: l => bad a || (go a && reached go bad l)

theorem reached_eq_false_iff {go bad : α → Bool} {l : List α} :
    reached go bad l = false ↔ ∀ before a after, l = before ++ a :: after →
      (∀ b ∈ before, go b = true) → bad a = false := by
  induction l with
  | nil => simp [reached]
  | cons a l ih =>
    rw [reached, Bool.or_eq_false_iff, Bool.and_eq_false_iff, ih]
    constructor
    · rintro ⟨hbad, hrest⟩ before b after hsplit hgo
      cases before with
      | nil => exact (List.cons.inj hsplit).1 ▸ hbad
      | cons c before =>
        obtain ⟨rfl, hl⟩ := List.cons.inj hsplit
        have hc : go a = true := hgo a (by simp)
        rcases hrest with hstop | hrest
        · rw [hc] at hstop
          cases hstop
        · exact hrest before b after hl fun d hd => hgo d (by simp [hd])
    · intro h
      refine ⟨h [] a l rfl nofun, ?_⟩
      cases hgo : go a with
      | false => exact .inl rfl
      | true =>
        refine .inr fun before b after hsplit hbefore => ?_
        refine h (a :: before) b after (by rw [hsplit, List.cons_append]) fun d hd => ?_
        rcases List.mem_cons.mp hd with rfl | hd
        · exact hgo
        · exact hbefore d hd

theorem reached_congr {go go' bad bad' : α → Bool} {l : List α}
    (h : ∀ a ∈ l, go a = go' a ∧ bad a = bad' a) : reached go bad l = reached go' bad' l := by
  induction l with
  | nil => rfl
  | cons a l ih =>
    obtain ⟨hgo, hbad⟩ := h a (by simp)
    rw [reached, reached, hgo, hbad, ih fun b hb => h b (by simp [hb])]

theorem all_congr_mem {p q : α → Bool} {l : List α} (h : ∀ a ∈ l, p a = q a) :
    l.all p = l.all q := by
  rw [Bool.eq_iff_iff, List.all_eq_true, List.all_eq_true]
  exact forall₂_congr fun a ha => by rw [h a ha]

/-- A test that has no answer on the bad elements: `allM` has one when it
comes to none of them. -/
theorem allM_guarded {p : α → Option Bool} {bad q : α → Bool} {l : List α}
    (h : ∀ a ∈ l, p a = if bad a then none else some (q a)) :
    l.allM p = if reached q bad l then none else some (l.all q) := by
  induction l with
  | nil => rfl
  | cons a l ih =>
    have ih := ih fun b hb => h b (by simp [hb])
    rw [List.allM, h a (by simp), reached, List.all_cons, ih]
    cases bad a with
    | true => rfl
    | false => cases q a <;> rfl

/-- The same of `anyM`. -/
theorem anyM_guarded {p : α → Option Bool} {bad q : α → Bool} {l : List α}
    (h : ∀ a ∈ l, p a = if bad a then none else some (q a)) :
    l.anyM p = if reached (fun a => !q a) bad l then none else some (l.any q) := by
  induction l with
  | nil => rfl
  | cons a l ih =>
    have ih := ih fun b hb => h b (by simp [hb])
    rw [List.anyM, h a (by simp), reached, List.any_cons, ih]
    cases bad a with
    | true => rfl
    | false => cases q a <;> rfl

/-! ## Search loops

A loop that looks for the first element with a property, works on it and
breaks. The element may be changed in place. -/

def firstMatch (p : α → Bool) (f : α → σ → Option (α × σ)) :
    List α → σ → Option (List α × σ)
  | [], s => some ([], s)
  | a :: l, s =>
      if p a then (f a s).map fun r => (r.1 :: l, r.2)
      else (firstMatch p f l s).map fun r => (a :: r.1, r.2)

theorem firstMatch_of_find?_none {p : α → Bool} {f : α → σ → Option (α × σ)} {l : List α}
    (h : l.find? p = none) (s : σ) : firstMatch p f l s = some (l, s) := by
  induction l with
  | nil => rfl
  | cons a l ih =>
    have ha : ¬ p a = true := List.find?_eq_none.mp h a (by simp)
    have hl : l.find? p = none :=
      List.find?_eq_none.mpr fun b hb => List.find?_eq_none.mp h b (by simp [hb])
    simp [firstMatch, ha, ih hl]

/-- The loop works on the element `find?` finds. Of the list, only that
element changes: a search for it afterwards finds the changed element, and a
search that neither of the two answers finds what it found before. -/
theorem firstMatch_of_find?_some {p : α → Bool} {f : α → σ → Option (α × σ)}
    {l : List α} {a : α} (h : l.find? p = some a) (s : σ) :
    (f a s = none → firstMatch p f l s = none) ∧
      ∀ a' s', f a s = some (a', s') → ∃ l', firstMatch p f l s = some (l', s') ∧
        (p a' → l'.find? p = some a') ∧
        ∀ q : α → Bool, q a = false → q a' = false → l'.find? q = l.find? q := by
  induction l with
  | nil => cases h
  | cons b l ih =>
    rcases List.find?_cons_eq_some.mp h with ⟨hb, rfl⟩ | ⟨hb, hl⟩
    · refine ⟨fun hf => by simp [firstMatch, hb, hf], fun a' s' hf => ?_⟩
      refine ⟨a' :: l, by simp [firstMatch, hb, hf], fun ha' => ?_, fun q hqa hqa' => ?_⟩
      · rw [List.find?_cons_of_pos ha']
      · rw [List.find?_cons_of_neg (by simp [hqa']), List.find?_cons_of_neg (by simp [hqa])]
    · have hb : p b = false := by simpa using hb
      obtain ⟨hnone, hsome⟩ := ih hl
      refine ⟨fun hf => by simp [firstMatch, hb, hnone hf], fun a' s' hf => ?_⟩
      obtain ⟨l', hl', hfound, hframe⟩ := hsome a' s' hf
      refine ⟨b :: l', by simp [firstMatch, hb, hl'], fun ha' => ?_, fun q hqa hqa' => ?_⟩
      · rw [List.find?_cons_of_neg (by simp [hb]), hfound ha']
      · rw [List.find?_cons, List.find?_cons, hframe q hqa hqa']

end Loops
