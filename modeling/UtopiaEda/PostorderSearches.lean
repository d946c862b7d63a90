import Mathlib.Data.List.Nodup
import Mathlib.Data.List.Basic
import Mathlib.Logic.Relation

/-!
# Depth-first search in postorder

The order in which a depth-first search visits the elements of an acyclic graph: an element comes
after the elements it leads to. `Search` goes on from the elements of a list that are not marked
yet, `Passes` from all of them. The marked elements are a list with the last one first.
-/
namespace UtopiaEda.PostorderSearches
open List

variable {ι : Type*} {next : ι → List ι} {P : ι → Prop} {r : ι → ℕ} {done ts visited : List ι}
  {a i j t : ι}

/-- The set contains what its elements lead to, and the rank decreases along the graph. -/
def Ranked (next : ι → List ι) (P : ι → Prop) (r : ι → ℕ) : Prop :=
  ∀ i, P i → ∀ j ∈ next i, P j ∧ r j < r i

inductive Search (next : ι → List ι) : List ι → List ι → List ι → Prop where
  | nil (done : List ι) : Search next done [] []
  | skip {done ts visited : List ι} {t : ι} (marked : t ∈ done)
      (rest : Search next done ts visited) : Search next done (t :: ts) visited
  | visit {done ts inner visited : List ι} {t : ι} (unmarked : t ∉ done)
      (children : Search next done (next t) inner)
      (rest : Search next ((inner ++ [t]).reverse ++ done) ts visited) :
      Search next done (t :: ts) (inner ++ [t] ++ visited)

/-- `i` is reached from `t` without a marked element. -/
def Cone (next : ι → List ι) (done : List ι) (t i : ι) : Prop :=
  t ∉ done ∧ Relation.ReflTransGen (fun a b => b ∈ next a ∧ b ∉ done) t i

theorem Cone.mono {done' : List ι} (hsub : ∀ i ∈ done, i ∈ done') (h : Cone next done' t i) :
    Cone next done t i := by
  exact ⟨fun ht => h.1 (hsub t ht),
    Relation.ReflTransGen.mono (fun a b hab => ⟨hab.1, fun hb => hab.2 (hsub b hb)⟩) t i h.2⟩

theorem Cone.refl (h : t ∉ done) : Cone next done t t := ⟨h, .refl⟩

theorem Cone.head (ht : t ∉ done) (ha : a ∈ next t) (h : Cone next done a i) : Cone next done t i :=
  ⟨ht, .head ⟨ha, h.1⟩ h.2⟩

theorem Cone.unmarked (h : Cone next done t i) : i ∉ done := by
  obtain ⟨ht, hi⟩ := h
  induction hi with
  | refl => exact ht
  | tail _ hab _ => exact hab.2

theorem Cone.mem {P : ι → Prop} (h : Cone next done t i) (ht : P t)
    (hstep : ∀ a b, P a → b ∈ next a → b ∉ done → P b) : P i := by
  obtain ⟨-, hi⟩ := h
  induction hi with
  | refl => exact ht
  | tail _ hab ih => exact hstep _ _ ih hab.1 hab.2

private theorem exists_bound (r : ι → ℕ) (ts : List ι) : ∃ n, ∀ t ∈ ts, r t < n := by
  induction ts with
  | nil => exact ⟨0, fun t ht => absurd ht not_mem_nil⟩
  | cons a ts ih =>
    obtain ⟨n, hn⟩ := ih
    refine ⟨max n (r a + 1), fun t ht => ?_⟩
    rcases mem_cons.mp ht with rfl | ht
    · exact Nat.le_max_right n _
    · exact Nat.lt_of_lt_of_le (hn t ht) (Nat.le_max_left n _)

theorem exists_search (hr : Ranked next P r) (done : List ι) (hts : ∀ t ∈ ts, P t) :
    ∃ visited, Search next done ts visited := by
  classical
  suffices h : ∀ n, ∀ ts : List ι, (∀ t ∈ ts, P t ∧ r t < n) → ∀ done, ∃ visited,
      Search next done ts visited by
    obtain ⟨n, hn⟩ := exists_bound r ts
    exact h n ts (fun t ht => ⟨hts t ht, hn t ht⟩) done
  clear hts
  intro n
  induction n with
  | zero =>
    intro ts hts done
    cases ts with
    | nil => exact ⟨[], .nil done⟩
    | cons t ts => exact absurd (hts t (mem_cons_self ..)).2 (Nat.not_lt_zero _)
  | succ n ihn =>
    intro ts
    induction ts with
    | nil => exact fun _ done => ⟨[], .nil done⟩
    | cons t ts ih =>
      intro hts done
      have hrest := ih (fun a ha => hts a (mem_cons_of_mem t ha))
      by_cases ht : t ∈ done
      · obtain ⟨visited, h⟩ := hrest done
        exact ⟨visited, .skip ht h⟩
      · obtain ⟨hP, hle⟩ := hts t (mem_cons_self ..)
        have hlt : ∀ j ∈ next t, P j ∧ r j < n := fun j hj =>
          ⟨(hr t hP j hj).1, Nat.lt_of_lt_of_le (hr t hP j hj).2 (Nat.le_of_lt_succ hle)⟩
        obtain ⟨inner, hinner⟩ := ihn (next t) hlt done
        obtain ⟨visited, h⟩ := hrest ((inner ++ [t]).reverse ++ done)
        exact ⟨inner ++ [t] ++ visited, .visit ht hinner h⟩

theorem Search.unmarked (h : Search next done ts visited) : ∀ i ∈ visited, i ∉ done := by
  induction h with
  | nil => exact fun i hi => absurd hi not_mem_nil
  | skip _ _ ih => exact ih
  | visit ht _ _ ihc ihr =>
    intro i hi
    simp only [mem_append, mem_singleton] at hi
    rcases hi with (hi | rfl) | hi
    · exact ihc i hi
    · exact ht
    · exact fun hd => ihr i hi (mem_append_right _ hd)

theorem Search.covers (h : Search next done ts visited) : ∀ t ∈ ts, t ∈ done ∨ t ∈ visited := by
  induction h with
  | nil => exact fun i hi => absurd hi not_mem_nil
  | skip ht _ ih =>
    intro a ha
    rcases mem_cons.mp ha with rfl | ha
    · exact .inl ht
    · exact ih a ha
  | visit _ _ _ _ ih =>
    intro a ha
    rcases mem_cons.mp ha with rfl | ha
    · simp
    · have h := ih a ha
      simp only [mem_append, mem_reverse, mem_singleton] at h ⊢
      tauto

theorem Search.cone (h : Search next done ts visited) :
    ∀ i ∈ visited, ∃ t ∈ ts, Cone next done t i := by
  induction h with
  | nil => exact fun i hi => absurd hi not_mem_nil
  | skip _ _ ih =>
    intro i hi
    obtain ⟨t, ht, hc⟩ := ih i hi
    exact ⟨t, mem_cons_of_mem _ ht, hc⟩
  | @visit done ts inner visited t hmark _ _ ihc ihr =>
    intro i hi
    simp only [mem_append, mem_singleton] at hi
    rcases hi with (hi | rfl) | hi
    · obtain ⟨a, ha, hc⟩ := ihc i hi
      exact ⟨t, mem_cons_self .., .head hmark ha hc⟩
    · exact ⟨i, mem_cons_self .., .refl hmark⟩
    · obtain ⟨a, ha, hc⟩ := ihr i hi
      exact ⟨a, mem_cons_of_mem _ ha, hc.mono (fun j hj => mem_append_right _ hj)⟩

/-- The elements of the list come after the elements they lead to, the marked ones apart. -/
def Topological (next : ι → List ι) (done visited : List ι) : Prop :=
  ∀ A i B, visited = A ++ i :: B → ∀ j ∈ next i, j ∈ done ∨ j ∈ A

theorem Topological.nil : Topological next done [] := by
  intro A i B hl
  exact absurd hl (by simp)

theorem Topological.append {inner : List ι} (h : Topological next done inner)
    (ht : ∀ j ∈ next t, j ∈ done ∨ j ∈ inner)
    (h' : Topological next ((inner ++ [t]).reverse ++ done) visited) :
    Topological next done (inner ++ [t] ++ visited) := by
  intro A i B hl j hj
  rcases append_eq_append_iff.mp hl with ⟨C, rfl, hC⟩ | ⟨C, hA, hC⟩
  · have hmem := h' C i B hC j hj
    simp only [mem_append, mem_reverse, mem_singleton] at hmem ⊢
    tauto
  · cases C with
    | nil =>
      rw [append_nil] at hA
      have hmem := h' [] i B hC.symm j hj
      rw [← hA]
      simp only [mem_append, mem_reverse, mem_singleton, not_mem_nil, or_false] at hmem ⊢
      tauto
    | cons k C =>
      rw [cons_append, cons.injEq] at hC
      obtain ⟨rfl, -⟩ := hC
      rcases eq_nil_or_concat C with rfl | ⟨D, b, rfl⟩
      · obtain ⟨rfl, hit⟩ := append_inj' hA rfl
        rw [cons.injEq] at hit
        obtain ⟨rfl, -⟩ := hit
        exact ht j hj
      · rw [concat_eq_append, ← cons_append, ← append_assoc] at hA
        exact h A i D (append_inj' hA rfl).1 j hj

theorem Search.topological (h : Search next done ts visited) : Topological next done visited := by
  induction h with
  | nil => exact .nil
  | skip _ _ ih => exact ih
  | visit _ hchildren _ ihc ihr => exact ihc.append hchildren.covers ihr

theorem Search.mem_closed (hr : Ranked next P r) (h : Search next done ts visited)
    (hts : ∀ t ∈ ts, P t) : ∀ i ∈ visited, P i := by
  intro i hi
  obtain ⟨t, ht, hc⟩ := h.cone i hi
  exact hc.mem (hts t ht) (fun a b ha hb _ => (hr a ha b hb).1)

theorem Search.rank_le (hr : Ranked next P r) (h : Search next done ts visited)
    (hts : ∀ t ∈ ts, P t) : ∀ i ∈ visited, ∃ t ∈ ts, r i ≤ r t := by
  intro i hi
  obtain ⟨t, ht, hc⟩ := h.cone i hi
  refine ⟨t, ht, (hc.mem (P := fun i => P i ∧ r i ≤ r t) ⟨hts t ht, Nat.le_refl _⟩ ?_).2⟩
  intro a b ha hb _
  exact ⟨(hr a ha.1 b hb).1, Nat.le_trans (Nat.le_of_lt (hr a ha.1 b hb).2) ha.2⟩

theorem Search.nodup (hr : Ranked next P r) (h : Search next done ts visited)
    (hts : ∀ t ∈ ts, P t) : visited.Nodup := by
  induction h with
  | nil => exact nodup_nil
  | skip _ _ ih => exact ih (fun t ht => hts t (mem_cons_of_mem _ ht))
  | @visit done ts inner visited t _ hchildren hrest ihc ihr =>
    have hP : P t := hts t (mem_cons_self ..)
    have hnext : ∀ j ∈ next t, P j := fun j hj => (hr t hP j hj).1
    have ht : t ∉ inner := by
      intro hi
      obtain ⟨a, ha, hle⟩ := hchildren.rank_le hr hnext t hi
      exact absurd (hr t hP a ha).2 (Nat.not_lt.mpr hle)
    refine nodup_append.mpr ⟨nodup_append.mpr ⟨ihc hnext, nodup_singleton t, ?_⟩,
      ihr (fun a ha => hts a (mem_cons_of_mem _ ha)), ?_⟩
    · intro a ha b hb hab
      rw [mem_singleton.mp hb] at hab
      exact ht (hab ▸ ha)
    · intro a ha b hb hab
      refine hrest.unmarked b hb (mem_append_left _ (mem_reverse.mpr (hab ▸ ha)))

/-- Passes from all elements of the list, the marked ones included; a pass ends with its element. -/
inductive Passes (next : ι → List ι) : List ι → List ι → List (List ι) → Prop where
  | nil (done : List ι) : Passes next done [] []
  | pass {done ts inner : List ι} {passes : List (List ι)} {t : ι}
      (children : Search next done (next t) inner)
      (rest : Passes next ((inner ++ [t]).reverse ++ done) ts passes) :
      Passes next done (t :: ts) (inner :: passes)

def visits (ts : List ι) (passes : List (List ι)) : List ι :=
  (zipWith (fun inner t => inner ++ [t]) passes ts).flatten

variable {passes : List (List ι)}

theorem exists_passes (hr : Ranked next P r) (done : List ι) (hts : ∀ t ∈ ts, P t) :
    ∃ passes, Passes next done ts passes := by
  induction ts generalizing done with
  | nil => exact ⟨[], .nil done⟩
  | cons t ts ih =>
    have hnext : ∀ j ∈ next t, P j := fun j hj => (hr t (hts t (mem_cons_self ..)) j hj).1
    obtain ⟨inner, hinner⟩ := exists_search hr done hnext
    obtain ⟨passes, h⟩ := ih ((inner ++ [t]).reverse ++ done)
      (fun a ha => hts a (mem_cons_of_mem t ha))
    exact ⟨inner :: passes, .pass hinner h⟩

theorem visits_cons {inner : List ι} :
    visits (t :: ts) (inner :: passes) = inner ++ [t] ++ visits ts passes := by
  simp [visits]

theorem Passes.topological (h : Passes next done ts passes) :
    Topological next done (visits ts passes) := by
  induction h with
  | nil => exact .nil
  | pass hchildren _ ih =>
    rw [visits_cons]
    exact hchildren.topological.append hchildren.covers ih

theorem Passes.closed (h : Passes next done ts passes) :
    ∀ i ∈ visits ts passes, ∀ j ∈ next i, j ∈ done ∨ j ∈ visits ts passes := by
  intro i hi j hj
  obtain ⟨A, B, hl⟩ := append_of_mem hi
  refine (h.topological A i B hl j hj).imp id (fun hA => ?_)
  rw [hl]
  exact mem_append_left _ hA

theorem Passes.mem_visits (h : Passes next done ts passes) : ∀ t ∈ ts, t ∈ visits ts passes := by
  induction h with
  | nil => exact fun i hi => absurd hi not_mem_nil
  | pass _ _ ih =>
    intro a ha
    rw [visits_cons]
    rcases mem_cons.mp ha with rfl | ha
    · simp
    · exact mem_append_right _ (ih a ha)

theorem Passes.length_eq (h : Passes next done ts passes) : passes.length = ts.length := by
  induction h with
  | nil => rfl
  | pass _ _ ih => rw [length_cons, length_cons, ih]

theorem Passes.cone (h : Passes next done ts passes) (hdone : ∀ t ∈ ts, t ∉ done) :
    ∀ i ∈ visits ts passes, ∃ t ∈ ts, Cone next done t i := by
  suffices hstep : ∀ {done' : List ι}, (∀ i ∈ done, i ∈ done') → Passes next done' ts passes →
      ∀ i ∈ visits ts passes, ∃ t ∈ ts, Cone next done t i from hstep (fun i hi => hi) h
  clear h
  intro done' hsub h
  induction h with
  | nil => exact fun i hi => absurd hi (by simp [visits])
  | @pass done' ts inner passes t hchildren _ ih =>
    intro i hi
    rw [visits_cons, mem_append, mem_append, mem_singleton] at hi
    have ht : t ∉ done := hdone t (mem_cons_self ..)
    rcases hi with (hi | rfl) | hi
    · obtain ⟨a, ha, hc⟩ := hchildren.cone i hi
      exact ⟨t, mem_cons_self .., (hc.mono hsub).head ht ha⟩
    · exact ⟨i, mem_cons_self .., .refl ht⟩
    · obtain ⟨a, ha, hc⟩ := ih (fun a ha => hdone a (mem_cons_of_mem _ ha))
        (fun j hj => mem_append_right _ (hsub j hj)) i hi
      exact ⟨a, mem_cons_of_mem _ ha, hc⟩

theorem Passes.cone_mem (h : Passes next done ts passes) (ht : t ∈ ts) (hi : Cone next done t i) :
    i ∈ visits ts passes :=
  hi.mem (P := fun i => i ∈ visits ts passes) (h.mem_visits t ht)
    (fun a b ha hb hd => (h.closed a ha b hb).resolve_left hd)

theorem Passes.mem_closed (hr : Ranked next P r) (h : Passes next done ts passes)
    (hts : ∀ t ∈ ts, P t) : ∀ i ∈ passes.flatten, P i := by
  induction h with
  | nil => exact fun i hi => absurd hi not_mem_nil
  | @pass done ts inner passes t hchildren _ ih =>
    intro i hi
    rw [flatten_cons] at hi
    rcases mem_append.mp hi with hi | hi
    · exact hchildren.mem_closed hr (fun j hj => (hr t (hts t (mem_cons_self ..)) j hj).1) i hi
    · exact ih (fun a ha => hts a (mem_cons_of_mem t ha)) i hi

/-- What is visited before the last element of a pass is led to by something. -/
theorem Passes.led_to (hr : Ranked next P r) (h : Passes next done ts passes)
    (hts : ∀ t ∈ ts, P t) : ∀ i ∈ passes.flatten, ∃ a, P a ∧ i ∈ next a := by
  induction h with
  | nil => exact fun i hi => absurd hi not_mem_nil
  | @pass done ts inner passes t hchildren _ ih =>
    intro i hi
    rw [flatten_cons] at hi
    rcases mem_append.mp hi with hi | hi
    · have ht : P t := hts t (mem_cons_self ..)
      obtain ⟨b, hb, hc⟩ := hchildren.cone i hi
      refine (hc.mem (P := fun i => P i ∧ ∃ a, P a ∧ i ∈ next a) ⟨(hr t ht b hb).1, t, ht, hb⟩ ?_).2
      exact fun a b ha hab _ => ⟨(hr a ha.1 b hab).1, a, ha.1, hab⟩
    · exact ih (fun a ha => hts a (mem_cons_of_mem t ha)) i hi

/-- Apart from the last elements of the passes nothing is visited twice. -/
theorem Passes.nodup (hr : Ranked next P r) (h : Passes next done ts passes) (hts : ∀ t ∈ ts, P t) :
    passes.flatten.Nodup ∧ ∀ i ∈ passes.flatten, i ∉ done := by
  induction h with
  | nil => exact ⟨nodup_nil, fun i hi => absurd hi not_mem_nil⟩
  | @pass done ts inner passes t hchildren _ ih =>
    obtain ⟨hnodup, hnew⟩ := ih (fun a ha => hts a (mem_cons_of_mem t ha))
    have hnext : ∀ j ∈ next t, P j := fun j hj => (hr t (hts t (mem_cons_self ..)) j hj).1
    rw [flatten_cons]
    constructor
    · refine nodup_append.mpr ⟨hchildren.nodup hr hnext, hnodup,
        fun a ha b hb hab => hnew b hb ?_⟩
      rw [← hab]
      simp [ha]
    · intro i hi
      rcases mem_append.mp hi with hi | hi
      · exact hchildren.unmarked i hi
      · exact fun hd => hnew i hi (mem_append_right _ hd)

theorem Passes.split {us : List ι} (h : Passes next done (ts ++ us) passes) :
    ∃ p q, Passes next done ts p ∧ Passes next ((visits ts p).reverse ++ done) us q ∧
      visits (ts ++ us) passes = visits ts p ++ visits us q := by
  induction ts generalizing done passes with
  | nil => exact ⟨[], passes, .nil done, h, rfl⟩
  | cons t ts ih =>
    cases h with
    | @pass _ _ inner passes _ hchildren hrest =>
      obtain ⟨p, q, hp, hq, hvisits⟩ := ih hrest
      refine ⟨inner :: p, q, .pass hchildren hp, ?_, ?_⟩
      · rw [visits_cons, reverse_append, append_assoc]
        exact hq
      · rw [cons_append, visits_cons, visits_cons, hvisits]
        simp only [append_assoc]

theorem Passes.search (h : Passes next done ts passes) (hdone : ∀ t ∈ ts, t ∉ done)
    (hcone : ts.Pairwise (fun a t => ¬ Cone next done a t)) :
    Search next done ts (visits ts passes) := by
  induction h with
  | nil => exact .nil _
  | @pass done ts inner passes t hchildren _ ih =>
    have ht : t ∉ done := hdone t (mem_cons_self ..)
    obtain ⟨hhead, htail⟩ := pairwise_cons.mp hcone
    rw [visits_cons]
    refine .visit ht hchildren (ih (fun a ha hmem => ?_) (htail.imp (fun hn hc => hn (hc.mono ?_))))
    · simp only [mem_append, mem_reverse, mem_singleton] at hmem
      rcases hmem with (hmem | rfl) | hmem
      · obtain ⟨b, hb, hc⟩ := hchildren.cone a hmem
        exact hhead a ha (.head ht hb hc)
      · exact hhead a ha (.refl ht)
      · exact hdone a (mem_cons_of_mem t ha) hmem
    · exact fun i hi => mem_append_right _ hi

private theorem pairwise_of_split {R : ι → ι → Prop} {l : List ι}
    (h : ∀ A t B, l = A ++ t :: B → ∀ a ∈ A, R a t) : l.Pairwise R := by
  induction l with
  | nil => exact .nil
  | cons a l ih =>
    refine .cons (fun t ht => ?_) (ih (fun A t B hl b hb => ?_))
    · obtain ⟨A, B, rfl⟩ := append_of_mem ht
      exact h (a :: A) t B rfl a (mem_cons_self ..)
    · exact h (a :: A) t B (by rw [hl, cons_append]) b (mem_cons_of_mem a hb)

/-- An element that is reached from one before it is visited twice. -/
theorem Passes.pairwise (h : Passes next done ts passes) (hnd : (visits ts passes).Nodup) :
    ts.Pairwise (fun a t => ¬ Cone next done a t) := by
  apply pairwise_of_split
  intro A t B hts a ha hc
  subst hts
  obtain ⟨p, q, hp, hq, hvisits⟩ := h.split
  rw [hvisits] at hnd
  exact (nodup_append.mp hnd).2.2 t (hp.cone_mem ha hc) t (hq.mem_visits t (mem_cons_self ..))
    rfl

end UtopiaEda.PostorderSearches
