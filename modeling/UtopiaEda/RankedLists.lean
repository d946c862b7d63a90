import Mathlib.Data.List.Nodup
import Mathlib.Data.List.Pairwise

/-!
# Lists sorted by a rank

A list whose elements stand in the order of their ranks splits at every rank `d` into the
elements below `d`, the layer of rank `d` and the elements above `d`.
-/
namespace UtopiaEda.RankedLists
open List

variable {α : Type*} {f g : α → ℕ} {l l₁ l₂ : List α} {a e : α} {d : ℕ}

/-- The elements of `l` stand in the order of their ranks. -/
def Sorted (f : α → ℕ) (l : List α) : Prop := l.Pairwise (fun a b => f a ≤ f b)

/-- The elements of rank `d`. -/
def layer (f : α → ℕ) (l : List α) (d : ℕ) : List α := l.filter (f · = d)

def below (f : α → ℕ) (l : List α) (d : ℕ) : List α := l.filter (f · < d)

def above (f : α → ℕ) (l : List α) (d : ℕ) : List α := l.filter (d < f ·)

@[simp] theorem mem_layer : a ∈ layer f l d ↔ a ∈ l ∧ f a = d := by simp [layer]
@[simp] theorem mem_below : a ∈ below f l d ↔ a ∈ l ∧ f a < d := by simp [below]
@[simp] theorem mem_above : a ∈ above f l d ↔ a ∈ l ∧ d < f a := by simp [above]

@[simp] theorem layer_append : layer f (l₁ ++ l₂) d = layer f l₁ d ++ layer f l₂ d := by
  simp [layer]

theorem layer_cons_of_eq (h : f a = d) : layer f (a :: l) d = a :: layer f l d := by
  simp [layer, h]

theorem layer_cons_of_ne (h : f a ≠ d) : layer f (a :: l) d = layer f l d := by simp [layer, h]

theorem layer_congr (h : ∀ a ∈ l, f a = g a) : layer f l d = layer g l d :=
  filter_congr (fun a ha => by rw [h a ha])

theorem layer_eq_nil (h : ∀ a ∈ l, f a ≠ d) : layer f l d = [] := by
  simp only [layer, filter_eq_nil_iff, decide_eq_true_eq]
  exact h

theorem layer_eq_self (h : ∀ a ∈ l, f a = d) : layer f l d = l := by
  simp only [layer, filter_eq_self, decide_eq_true_eq]
  exact h

theorem below_eq_nil (h : ∀ a ∈ l, d ≤ f a) : below f l d = [] := by
  simp only [below, filter_eq_nil_iff, decide_eq_true_eq]
  exact fun a ha => Nat.not_lt.mpr (h a ha)

theorem above_eq_nil (h : ∀ a ∈ l, f a ≤ d) : above f l d = [] := by
  simp only [above, filter_eq_nil_iff, decide_eq_true_eq]
  exact fun a ha => Nat.not_lt.mpr (h a ha)

theorem Sorted.split (h : Sorted f l) (d : ℕ) : l = below f l d ++ layer f l d ++ above f l d := by
  induction l with
  | nil => rfl
  | cons a l ih =>
    obtain ⟨ha, hl⟩ := pairwise_cons.mp h
    have ih := ih hl
    rcases Nat.lt_trichotomy (f a) d with hlt | heq | hgt
    · have hb : below f (a :: l) d = a :: below f l d := by simp [below, hlt]
      have hu : above f (a :: l) d = above f l d := by simp [above, Nat.le_of_lt hlt]
      rw [hb, hu, layer_cons_of_ne (Nat.ne_of_lt hlt), cons_append, cons_append, ← ih]
    · have hle : ∀ b ∈ l, d ≤ f b := fun b hb => heq ▸ ha b hb
      have hu : above f (a :: l) d = above f l d := by simp [above, heq]
      rw [below_eq_nil hle] at ih
      rw [below_eq_nil (by simpa [heq] using hle), hu, layer_cons_of_eq heq, nil_append,
        cons_append, ← nil_append (layer f l d), ← ih]
    · have hlt : ∀ b ∈ a :: l, d < f b := by
        intro b hb
        rcases mem_cons.mp hb with rfl | hb
        exacts [hgt, Nat.lt_of_lt_of_le hgt (ha b hb)]
      have hu : above f (a :: l) d = a :: l := by
        simp only [above, filter_eq_self, decide_eq_true_eq]
        exact hlt
      rw [below_eq_nil (fun b hb => Nat.le_of_lt (hlt b hb)),
        layer_eq_nil (fun b hb => Nat.ne_of_gt (hlt b hb)), hu]
      rfl

theorem Sorted.prefix_of_le {A : List α} (h : Sorted f l) (hA : A <+: l) (hd : ∀ a ∈ A, f a ≤ d) :
    A <+: below f l d ++ layer f l d := by
  have hsplit : below f l d ++ layer f l d <+: l := ⟨above f l d, (h.split d).symm⟩
  rcases prefix_or_prefix_of_prefix hA hsplit with hle | ⟨T, rfl⟩
  · exact hle
  · obtain ⟨U, hU⟩ := hA
    have heq : T ++ U = above f l d := by
      have hl := hU.trans (h.split d)
      rw [append_assoc] at hl
      exact append_cancel_left hl
    cases T with
    | nil => simp
    | cons t T =>
      have hlt := (mem_above.mp (heq ▸ mem_cons_self : t ∈ above f l d)).2
      exact absurd (hd t (by simp)) (Nat.not_le.mpr hlt)

theorem Sorted.append (h₁ : Sorted f l₁) (h₂ : Sorted f l₂)
    (h : ∀ a ∈ l₁, ∀ b ∈ l₂, f a ≤ f b) : Sorted f (l₁ ++ l₂) :=
  pairwise_append.mpr ⟨h₁, h₂, h⟩

theorem Sorted.sublist (h : Sorted f l) (hs : l₁.Sublist l) : Sorted f l₁ :=
  List.Pairwise.sublist hs h

theorem Sorted.congr (h : Sorted f l) (hfg : ∀ a ∈ l, f a = g a) : Sorted g l :=
  List.Pairwise.imp_of_mem (fun ha hb hab => by rw [← hfg _ ha, ← hfg _ hb]; exact hab) h

/-- An element may stand anywhere in its layer. -/
theorem Sorted.insert (h : Sorted f (l₁ ++ l₂)) (h₁ : ∀ a ∈ l₁, f a ≤ f e)
    (h₂ : ∀ a ∈ l₂, f e ≤ f a) : Sorted f (l₁ ++ e :: l₂) := by
  obtain ⟨hl₁, hl₂, hl⟩ := pairwise_append.mp h
  refine Sorted.append hl₁ (pairwise_cons.mpr ⟨h₂, hl₂⟩) (fun a ha b hb => ?_)
  rcases mem_cons.mp hb with rfl | hb
  exacts [h₁ a ha, hl a ha b hb]

theorem Sorted.le_of_split (h : Sorted f (l₁ ++ e :: l₂)) :
    (∀ a ∈ l₁, f a ≤ f e) ∧ ∀ a ∈ l₂, f e ≤ f a := by
  obtain ⟨-, h₂, h₁⟩ := pairwise_append.mp h
  exact ⟨fun a ha => h₁ a ha e (by simp), (pairwise_cons.mp h₂).1⟩

/-- The layer of an element starts behind the elements of smaller rank. -/
theorem Sorted.left_split (h : Sorted f (l₁ ++ e :: l₂)) :
    l₁ = below f l₁ (f e) ++ layer f l₁ (f e) := by
  have hl : Sorted f l₁ := h.sublist (by simp)
  simpa [above_eq_nil h.le_of_split.1] using hl.split (f e)

theorem Sorted.right_split (h : Sorted f (l₁ ++ e :: l₂)) :
    l₂ = layer f l₂ (f e) ++ above f l₂ (f e) := by
  have hl : Sorted f l₂ := h.sublist (by simp)
  simpa [below_eq_nil h.le_of_split.2] using hl.split (f e)

/-- In a sorted list, also when other elements follow, an element of smaller rank stands before one
of larger rank. -/
theorem Sorted.mem_of_lt {m A B : List α} {i j : α} (h : Sorted f l) (hnd : (l ++ m).Nodup)
    (hl : l ++ m = A ++ i :: B) (hj : j ∈ l) (hlt : f j < f i) : j ∈ A := by
  have hjA : j ∈ A ++ i :: B := hl ▸ mem_append_left _ hj
  rcases mem_append.mp hjA with hjA | hjB
  · exact hjA
  · exfalso
    have hjB : j ∈ B := (mem_cons.mp hjB).resolve_left (fun he => by
      rw [he] at hlt
      exact Nat.lt_irrefl _ hlt)
    rcases append_eq_append_iff.mp hl with ⟨C, rfl, hC⟩ | ⟨C, hC, hB⟩
    · have hnot : j ∉ m := fun hmem => (nodup_append.mp hnd).2.2 j hj j hmem rfl
      exact hnot (hC ▸ mem_append_right _ (mem_cons_of_mem _ hjB))
    · cases C with
      | nil =>
        rw [append_nil] at hC
        rw [hl, ← hC] at hnd
        exact (nodup_append.mp hnd).2.2 j hj j (mem_cons_of_mem _ hjB) rfl
      | cons k C =>
        obtain ⟨rfl, rfl⟩ := cons.inj hB
        have hnot : j ∉ m := fun hmem => (nodup_append.mp hnd).2.2 j hj j hmem rfl
        have hjC : j ∈ C := (mem_append.mp hjB).resolve_right hnot
        rw [hC] at h
        exact absurd hlt (Nat.not_lt.mpr (h.le_of_split.2 j hjC))

end UtopiaEda.RankedLists
