import UtopiaEda.SubnetView
import UtopiaEda.PostorderSearches

/-!
# The order in which a view is traversed

The iterator visits the inputs of the view and then makes a pass of the depth-first search from
every output that is not an input, beginning with the last one. Visitors see the cells in this order
until they abort the traversal.
-/
namespace UtopiaEda

open List
open Option (bind_eq_bind bind_some some.inj)
open PostorderSearches

variable {σ : Type} {t : Traversal σ} {size : ℕ} {i j k : EntryID} {links : List Link} {l : Link}
  {e : ViewEntry} {es fs : List ViewEntry} {stack rest : List (EntryID × ℕ)}
  {marked M ts V : List EntryID}

def LinkProvider.next (links : LinkProvider) (i : EntryID) : List EntryID :=
  ((links i).getD []).map Link.idx

theorem LinkProvider.next_eq {f : LinkProvider} (h : f i = some links) :
    f.next i = links.map Link.idx := by
  rw [next, h]
  rfl

/-- A set of cells that contains the fanins of its cells, with a rank that decreases along the
links. -/
structure LinkProvider.Acyclic (f : LinkProvider) (P : EntryID → Prop) (size : ℕ)
    (r : EntryID → ℕ) : Prop where
  links : ∀ i, P i → ∃ ls, f i = some ls ∧ ∀ l ∈ ls, P l.idx
  rank : ∀ i, P i → ∀ j ∈ f.next i, r j < r i
  lt : ∀ i, P i → r i < size
  bound : ∀ i, P i → i < size

def calls (visitor : Option (Visitor σ)) : List ViewEntry → Bool × σ → Bool × σ
  | [], st => st
  | e :: es, st => calls visitor es (match visitor with
    | none => st
    | some f => if st.1 then st else
      (!(f e.isIn e.isOut e.entryID st.2).1, (f e.isIn e.isOut e.entryID st.2).2))

/-- A visitor that may fail but never aborts. -/
theorem calls_bind {step : Bool → Bool → EntryID → σ → Option σ} {st : Option σ} :
    calls (some (fun isIn isOut i (st : Option σ) => (true, st.bind (step isIn isOut i)))) es
    (false, st) =
      (false, st.bind (fun st => es.foldlM (fun st e => step e.isIn e.isOut e.entryID st) st)) := by
  induction es generalizing st with
  | nil => cases st <;> rfl
  | cons e es ih =>
    rw [calls, if_neg Bool.false_ne_true]
    refine ih.trans ?_
    cases st with
    | none => rfl
    | some st => rfl

namespace SubnetViewIterator

variable {it it₁ it' : SubnetViewIterator σ} {visitor : Option (Visitor σ)}

def outcome (it : SubnetViewIterator σ) : Bool × σ := (it.isAborted, it.state)

theorem call_eq (isIn isOut : Bool) : it.call visitor isIn isOut i =
    { it with isAborted := (calls visitor [⟨isIn, isOut, i⟩] it.outcome).1
              state := (calls visitor [⟨isIn, isOut, i⟩] it.outcome).2 } := by
  cases visitor with
  | none => rfl
  | some f =>
    obtain ⟨entry, isAborted, marked, inout, nInLeft, nOutLeft, stack, state⟩ := it
    cases isAborted <;> rfl

def Traversal.NoPush (t : Traversal σ) : Prop :=
  ∀ isIn isOut i (it : SubnetViewIterator σ), it.onPush t isIn isOut i = it

inductive Visits (t : Traversal σ) (size : ℕ) :
    SubnetViewIterator σ → List ViewEntry → SubnetViewIterator σ → Prop where
  | nil (it : SubnetViewIterator σ) : Visits t size it [] it
  | next {it it₁ it' : SubnetViewIterator σ} {e : ViewEntry} {es : List ViewEntry}
      (eq : it.next t size = some it₁) (entry : it₁.entryLink = some e.entryID)
      (visited : it₁.outcome = calls t.onBackwardDfsPop [e] it.outcome)
      (rest : Visits t size it₁ es it') : Visits t size it (e :: es) it'

theorem Visits.append (h : Visits t size it es it₁) (h' : Visits t size it₁ fs it') :
    Visits t size it (es ++ fs) it' := by
  induction h with
  | nil => exact h'
  | next eq entry visited _ ih => exact .next eq entry visited (ih h')

theorem Visits.outcome_eq (h : Visits t size it es it') :
    it'.outcome = calls t.onBackwardDfsPop es it.outcome := by
  induction h with
  | nil => rfl
  | next _ _ visited _ ih => rw [ih, visited]; rfl

/-- The first round may begin in another state. -/
theorem Visits.of_next_eq {it₂ : SubnetViewIterator σ} (h : Visits t size it es it') (hes : es ≠ [])
    (hnext : it₂.next t size = it.next t size) (hout : it₂.outcome = it.outcome) :
    Visits t size it₂ es it' := by
  cases h with
  | nil => exact absurd rfl hes
  | next eq entry visited rest =>
      exact .next (hnext.trans eq) entry (by rw [hout]; exact visited) rest

theorem findUnmarked_eq_none {ls : List Link} : ∀ {j : ℕ}, (∀ l ∈ ls, l.idx ∈ marked) →
    findUnmarked marked ls j = none := by
  induction ls with
  | nil => exact fun _ => rfl
  | cons l ls ih =>
    intro j h
    rw [findUnmarked, if_pos (h l (mem_cons_self ..))]
    exact ih (fun m hm => h m (mem_cons_of_mem l hm))

theorem findUnmarked_mem {ls : List Link} {p : ℕ × EntryID} : ∀ {j : ℕ},
    findUnmarked marked ls j = some p → ∃ l ∈ ls, l.idx = p.2 := by
  induction ls with
  | nil =>
    intro j h
    cases h
  | cons l ls ih =>
    intro j h
    rw [findUnmarked] at h
    split at h
    · obtain ⟨m, hm, hp⟩ := ih h
      exact ⟨m, mem_cons_of_mem l hm, hp⟩
    · rw [← some.inj h]
      exact ⟨l, mem_cons_self .., rfl⟩

theorem findUnmarked_skip {ls : List Link} (h : links.drop j = l :: ls) (hl : l.idx ∈ marked) :
    findUnmarked marked (links.drop j) j = findUnmarked marked (links.drop (j + 1)) (j + 1) := by
  have hdrop : links.drop (j + 1) = ls := by rw [← tail_drop, h, tail_cons]
  rw [h, hdrop, findUnmarked, if_pos hl]

variable {P : EntryID → Prop} {r : EntryID → ℕ}

theorem descend_mono {n : ℕ} :
    ∀ {m : ℕ} {it : SubnetViewIterator σ}, n ≤ m → it.descend t n = some it' →
    it.descend t m = some it' := by
  induction n with
  | zero =>
    intro m it _ h
    cases h
  | succ n ih =>
    intro m it hm h
    obtain ⟨m, rfl⟩ := Nat.exists_eq_add_of_le' hm
    rw [← Nat.add_assoc, descend]
    rw [descend] at h
    cases hstack : it.stack with
    | nil =>
      rw [hstack] at h
      cases h
    | cons p rest =>
      obtain ⟨i, j⟩ := p
      simp only [hstack] at h ⊢
      cases hls : t.links i with
      | none =>
        rw [hls] at h
        cases h
      | some ls =>
        simp only [hls, bind_eq_bind, bind_some] at h ⊢
        cases hf : findUnmarked it.marked (ls.drop j) j with
        | none =>
          rw [hf] at h
          exact h
        | some p =>
          rw [hf] at h
          exact ih (Nat.le_add_left n m) h

/-- The loop ends: the ranks of the entries that are pushed decrease. -/
theorem descend_isSome (hP : t.links.Acyclic P size r) {n : ℕ} :
    ∀ (it : SubnetViewIterator σ) {i : EntryID} {j : ℕ} {rest : List (EntryID × ℕ)}, it.stack =
    (i, j) :: rest → P i → r i < n → ∃ it', it.descend t n = some it' := by
  induction n with
  | zero => exact fun _ _ _ _ _ _ h => absurd h (Nat.not_lt_zero _)
  | succ n ih =>
    intro it i j rest hstack hi hr
    obtain ⟨ls, hls, hlinks⟩ := hP.links i hi
    rw [descend]
    simp only [hstack, hls, bind_eq_bind, bind_some]
    cases hf : findUnmarked it.marked (ls.drop j) j with
    | none => exact ⟨_, rfl⟩
    | some p =>
      obtain ⟨l, hl, hp⟩ := findUnmarked_mem hf
      have hmem : l ∈ ls := mem_of_mem_drop hl
      refine ih _ (i := p.2) rfl (hp ▸ hlinks l hmem) (Nat.lt_of_lt_of_le (hP.rank i hi p.2 ?_)
        (Nat.le_of_lt_succ hr))
      rw [LinkProvider.next_eq hls, ← hp]
      exact mem_map_of_mem hmem

theorem next_push (hP : t.links.Acyclic P size r) (hpush : Traversal.NoPush t) {ls : List Link}
    {p : ℕ × EntryID} (hin : it.nInLeft = 0) (hstack : it.stack = (i, j) :: rest) (hi : P i)
    (hls : t.links i = some ls) (hf : findUnmarked it.marked (ls.drop j) j = some p) :
    it.next t size = { it with stack := (p.2, 0) :: (i, p.1) :: rest }.next t size := by
  obtain ⟨l, hl, hp⟩ := findUnmarked_mem hf
  have hmem : l ∈ ls := mem_of_mem_drop hl
  obtain ⟨n, rfl⟩ := Nat.exists_eq_add_one_of_ne_zero (Nat.ne_zero_of_lt (hP.lt i hi))
  have hlink : P p.2 := by
    obtain ⟨ls', hls', hlinks⟩ := hP.links i hi
    rw [hls] at hls'
    exact hp ▸ hlinks l (some.inj hls' ▸ hmem)
  have hrank : r p.2 < n := by
    have hlt := hP.rank i hi p.2 (by
      rw [LinkProvider.next_eq hls, ← hp]
      exact mem_map_of_mem hmem)
    exact Nat.lt_of_lt_of_le hlt (Nat.le_of_lt_succ (hP.lt i hi))
  have hdesc : it.descend t (n + 1) =
      descend t n { it with stack := (p.2, 0) :: (i, p.1) :: rest } := by
    rw [descend]
    simp only [hstack, hls, bind_eq_bind, bind_some, hf]
    rw [hpush]
  obtain ⟨it', h⟩ := descend_isSome hP { it with stack := (p.2, 0) :: (i, p.1) :: rest } rfl
    hlink hrank
  have hlt : ¬ 0 < it.nInLeft := by rw [hin]; exact Nat.lt_irrefl 0
  simp only [next, hlt, if_false, hstack, cons_ne_nil, hdesc, h, descend_mono (Nat.le_succ n) h]

def popped (t : Traversal σ) (i : EntryID) (rest : List (EntryID × ℕ)) (it : SubnetViewIterator σ) :
    SubnetViewIterator σ :=
  let isOut := decide (rest.length < it.nOutLeft)
  let outcome := calls t.onBackwardDfsPop [⟨false, isOut, i⟩] it.outcome
  { it with isAborted := outcome.1, state := outcome.2, marked := i :: it.marked, entryLink := some i
            stack := rest, nOutLeft := it.nOutLeft - isOut.toNat }

theorem next_pop (hP : t.links.Acyclic P size r) {ls : List Link} (hin : it.nInLeft = 0)
    (hstack : it.stack = (i, j) :: rest) (hi : P i) (hls : t.links i = some ls)
    (hmarked : ∀ l ∈ ls.drop j, l.idx ∈ it.marked) : it.next t size = some (it.popped t i rest) := by
  obtain ⟨n, rfl⟩ := Nat.exists_eq_add_one_of_ne_zero (Nat.ne_zero_of_lt (hP.lt i hi))
  have hlt : ¬ 0 < it.nInLeft := by rw [hin]; exact Nat.lt_irrefl 0
  simp only [next, hlt, if_false, hstack, cons_ne_nil, descend, hls, bind_eq_bind,
    bind_some, findUnmarked_eq_none hmarked, pop, onPop, call_eq, outcome, length_cons,
    ← Nat.lt_iff_add_one_le, popped]

theorem next_skip {ls : List Link} {l : Link} {tail : List Link} (hin : it.nInLeft = 0)
    (hstack : it.stack = (i, j) :: rest) (hls : t.links i = some ls) (hdrop : ls.drop j = l :: tail)
    (hl : l.idx ∈ it.marked) :
    it.next t size = { it with stack := (i, j + 1) :: rest }.next t size := by
  have hlt : ¬ 0 < it.nInLeft := by rw [hin]; exact Nat.lt_irrefl 0
  simp only [next, hlt, if_false, hstack, cons_ne_nil]
  cases size with
  | zero => rfl
  | succ n =>
    simp only [descend, hstack, hls, bind_eq_bind, bind_some, findUnmarked_skip hdrop hl,
      onPush, call_eq, outcome]

structure Searched (t : Traversal σ) (size : ℕ) (it it' : SubnetViewIterator σ) (V : List EntryID)
    (i : EntryID) (ls : List Link) (rest : List (EntryID × ℕ)) : Prop where
  visits : Visits t size it (V.map (fun k => ⟨false, false, k⟩)) it'
  marked : it'.marked = V.reverse ++ it.marked
  counts : (it'.nInLeft, it'.nOutLeft) = (0, it.nOutLeft)
  inout : it'.inout = it.inout
  stack : ∃ j, it'.stack = (i, j) :: rest ∧ ∀ l ∈ ls.drop j, l.idx ∈ it'.marked

theorem Searched.skip {ls tail : List Link} (hin : it.nInLeft = 0)
    (hstack : it.stack = (i, j) :: rest) (hls : t.links i = some ls) (hdrop : ls.drop j = l :: tail)
    (hl : l.idx ∈ it.marked) (h : Searched t size { it with stack := (i, j + 1) :: rest } it' V i
    ls rest) : ∃ it₂, Searched t size it it₂ V i ls rest := by
  obtain ⟨hvisits, hmarked, hcounts, hinout, k, hk, hall⟩ := h
  cases V with
  | nil =>
    cases hvisits
    refine ⟨it, .nil it, rfl, ?_, rfl, j, hstack, fun m hm => ?_⟩
    · rw [hin]
    · rw [hdrop] at hm
      rcases mem_cons.mp hm with rfl | hm
      · exact hl
      · obtain rfl : j + 1 = k := by simpa using hk
        rw [← tail_drop, hdrop] at hall
        exact hall m hm
  | cons a V =>
    exact ⟨it', hvisits.of_next_eq (by simp) (next_skip hin hstack hls hdrop hl) rfl,
      hmarked, hcounts, hinout, k, hk, hall⟩

theorem searched (hP : t.links.Acyclic P size r) (hpush : Traversal.NoPush t)
    (h : Search t.links.next M ts V) : ∀ (it : SubnetViewIterator σ) {i : EntryID} {j : ℕ}
    {ls : List Link} {rest : List (EntryID × ℕ)}, it.nInLeft = 0 → it.stack = (i, j) :: rest → P i →
    t.links i = some ls → (ls.drop j).map Link.idx = ts → it.marked = M →
    it.nOutLeft ≤ rest.length + 1 → ∃ it', Searched t size it it' V i ls rest := by
  induction h with
  | nil =>
    intro it i j ls rest hin hstack hi hls hts hM hout
    refine ⟨it, .nil it, rfl, by rw [hin], rfl, j, hstack, fun l hl => ?_⟩
    rw [map_eq_nil_iff.mp hts] at hl
    cases hl
  | skip hmem _ ih =>
    intro it i j ls rest hin hstack hi hls hts hM hout
    obtain ⟨l, tail, hdrop, rfl, htail⟩ := map_eq_cons_iff.mp hts
    obtain ⟨it', h'⟩ := ih { it with stack := (i, j + 1) :: rest } hin rfl hi hls
      (by rw [← tail_drop, hdrop]; exact htail) hM hout
    exact h'.skip hin hstack hls hdrop (hM ▸ hmem)
  | @visit done ts inner visited u hmark _ _ ihc ihr =>
    intro it i j ls rest hin hstack hi hls hts hM hout
    obtain ⟨l, tail, hdrop, rfl, htail⟩ := map_eq_cons_iff.mp hts
    have hmem : l ∈ ls := mem_of_mem_drop (hdrop ▸ mem_cons_self ..)
    obtain ⟨ls', hls', hlinks⟩ := hP.links i hi
    obtain rfl : ls = ls' := by
      rw [hls] at hls'
      exact some.inj hls'
    have hu : P l.idx := hlinks l hmem
    obtain ⟨lu, hlu, -⟩ := hP.links l.idx hu
    have hf : findUnmarked it.marked (ls.drop j) j = some (j, l.idx) := by
      rw [hdrop, findUnmarked, if_neg (hM ▸ hmark)]
    have hnext := next_push hP hpush hin hstack hi hls hf
    obtain ⟨it₁, hvisits, hmarked, hcounts, hinout, k, hk, hall⟩ := ihc
      { it with stack := (l.idx, 0) :: (i, j) :: rest } hin rfl hu hlu
      (by rw [drop_zero, LinkProvider.next_eq hlu]) hM
      (by rw [length_cons]; exact Nat.le_succ_of_le hout)
    simp only [Prod.mk.injEq] at hcounts
    have hnot : decide (((i, j) :: rest).length < it₁.nOutLeft) = false := by
      rw [hcounts.2, decide_eq_false_iff_not, length_cons, Nat.not_lt]
      exact hout
    have hpop := next_pop hP hcounts.1 hk hu hlu hall
    have hvisit : Visits t size it ((inner ++ [l.idx]).map (fun k => ⟨false, false, k⟩))
        (it₁.popped t l.idx ((i, j) :: rest)) := by
      apply Visits.of_next_eq _ (by simp) hnext rfl
      rw [map_append]
      refine hvisits.append (.next hpop rfl ?_ (.nil _))
      rw [popped, hnot]
      rfl
    have hleft : (it₁.popped t l.idx ((i, j) :: rest)).nOutLeft = it.nOutLeft := by
      rw [popped, hnot]
      exact hcounts.2
    have hmarked₁ : (it₁.popped t l.idx ((i, j) :: rest)).marked = (inner ++ [l.idx]).reverse ++
        done := by
      simp [popped, hmarked, hM]
    obtain ⟨it', h'⟩ := ihr { it₁.popped t l.idx ((i, j) :: rest) with stack := (i, j + 1) :: rest }
      hcounts.1 rfl hi hls (by rw [← tail_drop, hdrop]; exact htail) hmarked₁
      (by rw [hleft]; exact hout)
    obtain ⟨it₃, h₃⟩ : ∃ it₃, Searched t size (it₁.popped t l.idx ((i, j) :: rest)) it₃ visited i
      ls rest :=
      Searched.skip hcounts.1 rfl hls hdrop (mem_cons_self ..) h'
    refine ⟨it₃, ?_, ?_, ?_, ?_, h₃.stack⟩
    · rw [map_append]
      exact hvisit.append h₃.visits
    · rw [h₃.marked, hmarked₁, hM]
      simp only [reverse_append, append_assoc]
    · rw [h₃.counts, hleft]
    · rw [h₃.inout]
      exact hinout

theorem prepareOutputs_eq (hpush : Traversal.NoPush t) {is : List EntryID} :
    ∀ {it : SubnetViewIterator σ}, prepareOutputs t is it =
    { it with inout := (is.filter (· ∈ it.marked)).reverse ++ it.inout
              stack := (is.filter (· ∉ it.marked)).reverse.map (fun i => (i, 0)) ++ it.stack } := by
  induction is with
  | nil => exact fun {it} => rfl
  | cons i is ih =>
    intro it
    rw [prepareOutputs, ih]
    by_cases hi : i ∈ it.marked
    · simp [hi]
    · simp [hi, hpush false true i it]

theorem visits_inputs (t : Traversal σ) (size : ℕ) {n : ℕ} :
    ∀ (it : SubnetViewIterator σ), it.nInLeft = n → n ≤ t.inputs.length →
    ∃ it', Visits t size it ((t.inputs.drop (t.inputs.length - n)).map
        (fun i => ⟨true, decide (i ∈ it.inout), i⟩)) it' ∧
      it'.marked = it.marked ∧ it'.nInLeft = 0 ∧ it'.nOutLeft = it.nOutLeft ∧
        it'.stack = it.stack := by
  induction n with
  | zero =>
    intro it hn _
    rw [Nat.sub_zero, drop_length]
    exact ⟨it, .nil it, rfl, hn, rfl, rfl⟩
  | succ n ih =>
    intro it hn hle
    obtain ⟨k, hk⟩ : ∃ k, t.inputs.length - (n + 1) = k := ⟨_, rfl⟩
    have hlt : k < t.inputs.length := by omega
    have hget : t.inputs[k]? = some t.inputs[k] := getElem?_eq_getElem hlt
    have hnext : it.next t size =
        some { it.onPop t true (decide (t.inputs[k] ∈ it.inout)) t.inputs[k] with
        entryLink := some t.inputs[k], nInLeft := it.nInLeft - 1 } := by
      rw [next, if_pos (by rw [hn]; exact Nat.succ_pos n), nextPI, hn, hk, hget]
      rfl
    rw [onPop, call_eq] at hnext
    obtain ⟨it', hvisits, hmarked, hin, hout, hstack⟩ := ih
      { it with
        isAborted := (calls t.onBackwardDfsPop [⟨true, decide (t.inputs[k] ∈ it.inout),
        t.inputs[k]⟩] it.outcome).1
        state := (calls t.onBackwardDfsPop [⟨true, decide (t.inputs[k] ∈ it.inout), t.inputs[k]⟩]
        it.outcome).2
        entryLink := some t.inputs[k]
        nInLeft := it.nInLeft - 1 }
      (by simp [hn]) (Nat.le_of_succ_le hle)
    refine ⟨it', ?_, hmarked, hin, hout, hstack⟩
    rw [hk, drop_eq_getElem_cons hlt, map_cons, show k + 1 = t.inputs.length - n by omega]
    exact .next hnext rfl rfl hvisits

def passEntries (roots : List EntryID) (passes : List (List EntryID)) : List ViewEntry :=
  (zipWith (fun inner i => inner.map (fun k => ⟨false, false, k⟩) ++ [⟨false, true, i⟩]) passes
    roots).flatten

theorem passEntries_cons {roots inner : List EntryID} {passes : List (List EntryID)} :
    passEntries (i :: roots) (inner :: passes) =
      inner.map (fun k => ⟨false, false, k⟩) ++ [⟨false, true, i⟩] ++ passEntries roots passes :=
      rfl

theorem visits_passes (hP : t.links.Acyclic P size r) (hpush : Traversal.NoPush t)
    {roots : List EntryID} {passes : List (List EntryID)} (h : Passes t.links.next M roots passes) :
    ∀ (it : SubnetViewIterator σ), it.nInLeft = 0 → (∀ i ∈ roots, P i) →
    it.stack = roots.map (fun i => (i, 0)) → it.nOutLeft = roots.length → it.marked = M →
    ∃ it', Visits t size it (passEntries roots passes) it' ∧ it'.nInLeft = 0 ∧ it'.stack = [] := by
  induction h with
  | nil =>
    intro it hin _ hstack _ _
    exact ⟨it, .nil it, hin, hstack⟩
  | @pass done roots inner passes u hchildren _ ih =>
    intro it hin hroots hstack hout hM
    have hu : P u := hroots u (mem_cons_self ..)
    obtain ⟨ls, hls, -⟩ := hP.links u hu
    rw [map_cons] at hstack
    rw [length_cons] at hout
    obtain ⟨it₁, hvisits, hmarked, hcounts, -, k, hk, hall⟩ :=
      searched hP hpush hchildren it hin hstack hu hls
      (by rw [drop_zero, LinkProvider.next_eq hls]) hM (by rw [hout, length_map])
    simp only [Prod.mk.injEq] at hcounts
    have hpop := next_pop hP hcounts.1 hk hu hls hall
    have hlt : decide ((roots.map (fun i : EntryID => (i, 0))).length < it₁.nOutLeft) = true := by
      rw [hcounts.2, hout, length_map]
      exact decide_eq_true (Nat.lt_succ_self _)
    obtain ⟨it', hrest, hin', hstack'⟩ :=
      ih (it₁.popped t u (roots.map (fun i => (i, 0)))) hcounts.1
      (fun i hi => hroots i (mem_cons_of_mem u hi)) rfl
      (by rw [popped, hlt]; simp [hcounts.2, hout]) (by simp [popped, hmarked, hM])
    refine ⟨it', ?_, hin', hstack'⟩
    rw [passEntries_cons]
    refine (hvisits.append (.next hpop rfl ?_ (.nil _))).append hrest
    rw [popped, hlt]
    rfl

/-- Visitors do not see the cells behind the one where they abort. -/
theorem calls_aborted {st : σ} : calls visitor es (true, st) = (true, st) := by
  induction es with
  | nil => rfl
  | cons e es ih => cases visitor <;> exact ih

/-- The loop of `runForward` ends with the outcome of the visitor. -/
theorem walk_eq (h : Visits t size it es it') (hin : it'.nInLeft = 0) (hstack : it'.stack = []) :
    ∀ (n : ℕ), it.entryLink ≠ none → es.length + 1 < n →
    ∃ it₂, it.walk t size n = some it₂ ∧ it₂.outcome = it'.outcome := by
  induction h with
  | nil it =>
    intro n hentry hn
    obtain ⟨n, rfl⟩ := Nat.exists_eq_add_of_le' hn
    by_cases hab : it.isAborted = true
    · exact ⟨it, by simp [walk, hab], rfl⟩
    · refine ⟨{ it with entryLink := none }, ?_, rfl⟩
      simp [walk, hentry, hab, next, hin, hstack]
  | @next it it₁ it' e es eq entry visited rest ih =>
    intro n hentry hn
    obtain ⟨n, rfl⟩ := Nat.exists_eq_add_one_of_ne_zero (Nat.ne_zero_of_lt hn)
    by_cases hab : it.isAborted = true
    · refine ⟨it, by simp [walk, hab], ?_⟩
      rw [rest.outcome_eq, visited, outcome, hab, calls_aborted, calls_aborted]
    · obtain ⟨it₂, hw, ho⟩ := ih hin hstack n (by simp [entry]) (Nat.lt_of_succ_lt_succ hn)
      refine ⟨it₂, ?_, ho⟩
      simp [walk, hentry, hab, eq, hw]

theorem length_passEntries {roots : List EntryID} : ∀ (passes : List (List EntryID)),
    passes.length = roots.length → (passEntries roots passes).length =
    passes.flatten.length + roots.length := by
  induction roots with
  | nil =>
    intro passes h
    obtain rfl := length_eq_zero_iff.mp h
    rfl
  | cons i roots ih =>
    intro passes h
    cases passes with
    | nil => cases h
    | cons inner passes =>
      rw [passEntries_cons, length_append, length_append, ih passes (Nat.succ.inj h)]
      simp only [flatten_cons, length_append, length_map, length_cons, length_nil]
      omega

end SubnetViewIterator

namespace SubnetViewWalker

variable {w : SubnetViewWalker} {pop push : Option (Visitor σ)} {P : EntryID → Prop}
  {r : EntryID → ℕ}

/-- The outputs that are not inputs, the last one first. -/
def roots (w : SubnetViewWalker) : List EntryID :=
  (w.view.outputs.filter (· ∉ w.view.inputs)).reverse

/-- The inputs in their order and then the passes from the outputs. -/
def viewEntries (w : SubnetViewWalker) (passes : List (List EntryID)) : List ViewEntry :=
  w.view.inputs.map (fun i => ⟨true, decide (i ∈ w.view.outputs), i⟩) ++
    SubnetViewIterator.passEntries w.roots passes

def Traverses (w : SubnetViewWalker) (passes : List (List EntryID)) : Prop :=
  Passes w.linkProvider.next w.view.inputs.reverse w.roots passes

structure Sound (w : SubnetViewWalker) (P : EntryID → Prop) (r : EntryID → ℕ) : Prop where
  acyclic : w.linkProvider.Acyclic P w.view.parent.size r
  outputs : ∀ i ∈ w.view.outputs, P i
  nonempty : w.view.outputs ≠ []

theorem Sound.ranked (h : w.Sound P r) : Ranked w.linkProvider.next P r := by
  intro i hi j hj
  refine ⟨?_, h.acyclic.rank i hi j hj⟩
  obtain ⟨ls, hls, hlinks⟩ := h.acyclic.links i hi
  rw [LinkProvider.next_eq hls] at hj
  obtain ⟨l, hl, rfl⟩ := mem_map.mp hj
  exact hlinks l hl

theorem Sound.roots (h : w.Sound P r) : ∀ i ∈ w.roots, P i := by
  intro i hi
  exact h.outputs i (mem_of_mem_filter (mem_reverse.mp hi))

theorem Sound.exists_passes (h : w.Sound P r) : ∃ passes, w.Traverses passes :=
  PostorderSearches.exists_passes h.ranked _ h.roots

private theorem length_le (h : w.Sound P r) {passes : List (List EntryID)}
    (hp : w.Traverses passes) : (w.viewEntries passes).length ≤
    w.view.inputs.length + w.view.parent.size + w.view.outputs.length := by
  have hsub : passes.flatten ⊆ range w.view.parent.size := by
    intro i hi
    exact mem_range.mpr (h.acyclic.bound i (hp.mem_closed h.ranked h.roots i hi))
  have hle := (subperm_of_subset (hp.nodup h.ranked h.roots).1 hsub).length_le
  have hroots : w.roots.length ≤ w.view.outputs.length := by
    rw [SubnetViewWalker.roots, length_reverse]
    exact length_filter_le _ _
  rw [length_range] at hle
  rw [viewEntries, length_append, length_map,
    SubnetViewIterator.length_passEntries passes hp.length_eq]
  omega

private theorem prepare_eq (h : w.Sound P r)
    (hpush : SubnetViewIterator.Traversal.NoPush (w.traversal pop push))
    (st : σ) : ∃ it, SubnetViewIterator.prepareIteration (w.traversal pop push) st = some it ∧
      it.nInLeft = w.view.inputs.length ∧ it.marked = w.view.inputs.reverse ∧
      it.stack = w.roots.map (fun i => (i, 0)) ∧ it.nOutLeft = w.roots.length ∧
      (∀ i ∈ w.view.inputs, i ∈ it.inout ↔ i ∈ w.view.outputs) ∧ it.outcome = (false, st) := by
  have hne : (w.traversal pop push).outputs ≠ [] := h.nonempty
  rw [SubnetViewIterator.prepareIteration, if_neg hne, SubnetViewIterator.prepareOutputs_eq hpush]
  refine ⟨_, rfl, rfl, rfl, ?_, ?_, fun i hi => ?_, rfl⟩
  · simp [traversal, SubnetViewWalker.roots]
  · simp [traversal, SubnetViewWalker.roots]
  · simp [traversal, hi]

private theorem visits_all (h : w.Sound P r) {passes : List (List EntryID)}
    (hp : w.Traverses passes) (hpush : SubnetViewIterator.Traversal.NoPush (w.traversal pop push))
    (st : σ) : ∃ it it', SubnetViewIterator.begin (w.traversal pop push) w.view.parent.size st =
        it.next (w.traversal pop push) w.view.parent.size ∧ it.outcome = (false, st) ∧
      SubnetViewIterator.Visits (w.traversal pop push) w.view.parent.size it (w.viewEntries passes)
        it' ∧
      it'.nInLeft = 0 ∧ it'.stack = [] := by
  obtain ⟨it, hprep, hin, hmarked, hstack, hleft, hinout, hout⟩ := prepare_eq h hpush st
  obtain ⟨it₁, hvisits₁, hmarked₁, hin₁, hleft₁, hstack₁⟩ := SubnetViewIterator.visits_inputs
    (w.traversal pop push) w.view.parent.size it hin (Nat.le_refl w.view.inputs.length)
  obtain ⟨it', hvisits', hin', hstack'⟩ :=
    SubnetViewIterator.visits_passes h.acyclic hpush hp it₁ hin₁ h.roots
    (hstack₁.trans hstack) (hleft₁.trans hleft) (hmarked₁.trans hmarked)
  have hinputs : w.view.inputs.map (fun i => (⟨true, decide (i ∈ it.inout), i⟩ : ViewEntry)) =
      w.view.inputs.map (fun i => ⟨true, decide (i ∈ w.view.outputs), i⟩) :=
    map_congr_left (fun i hi => by simp only [hinout i hi])
  refine ⟨it, it', ?_, hout, ?_, hin', hstack'⟩
  · rw [SubnetViewIterator.begin, hprep, bind_eq_bind, bind_some]
    split
    · rename_i hpos
      rw [SubnetViewIterator.next, if_pos hpos]
    · rfl
  · simp only [traversal, Nat.sub_self, drop_zero, hinputs] at hvisits₁
    exact hvisits₁.append hvisits'

private theorem viewEntries_ne_nil (h : w.Sound P r) {passes : List (List EntryID)}
    (hp : w.Traverses passes) : w.viewEntries passes ≠ [] := by
  intro hnil
  have hlen := congrArg length hnil
  rw [viewEntries, length_append, length_map,
    SubnetViewIterator.length_passEntries passes hp.length_eq, length_nil] at hlen
  have hins : w.view.inputs = [] := length_eq_zero_iff.mp (by omega)
  have hroots : w.roots = w.view.outputs.reverse := by simp [SubnetViewWalker.roots, hins]
  have hlen' : w.roots.length = 0 := by omega
  rw [hroots, length_reverse, length_eq_zero_iff] at hlen'
  exact h.nonempty hlen'

/-- The outcome of the traversal is the outcome of the visitor for the entries in this order. -/
theorem Sound.iterate_eq (h : w.Sound P r) {passes : List (List EntryID)} (hp : w.Traverses passes)
    (hpush : SubnetViewIterator.Traversal.NoPush (w.traversal pop push)) (st : σ) :
    w.iterate pop push st = some (!(calls pop (w.viewEntries passes) (false, st)).1,
      (calls pop (w.viewEntries passes) (false, st)).2) := by
  obtain ⟨it, it', hbegin, hout, hvisits, hin, hstack⟩ := visits_all h hp hpush st
  have hle := length_le h hp
  have houtcome := hvisits.outcome_eq
  have hne := viewEntries_ne_nil h hp
  generalize w.viewEntries passes = es at hvisits houtcome hle hne
  cases hvisits with
  | nil => exact absurd rfl hne
  | @next _ it₁ _ e es eq entry visited rest =>
    obtain ⟨it₂, hwalk, hout₂⟩ := SubnetViewIterator.walk_eq rest hin hstack
      (w.view.inputs.length + w.view.parent.size + w.view.outputs.length + 1) (by rw [entry]; simp)
      (by rw [length_cons] at hle; omega)
    have hiter : w.iterate pop push st = some (!it₂.outcome.1, it₂.outcome.2) := by
      rw [iterate]
      simp only [hbegin, eq, hwalk, bind_eq_bind, bind_some]
      rfl
    rw [hiter, hout₂, houtcome, hout]
    rfl

end SubnetViewWalker

end UtopiaEda
