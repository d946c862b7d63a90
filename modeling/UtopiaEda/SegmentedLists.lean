import Mathlib.Data.List.Infix
import Mathlib.Data.List.Nodup
import Mathlib.Logic.Function.Basic

/-!
# Lists with segments and blocks

A list has disjoint segments, and blocks that must stay together. Every segment ends between two
blocks, so an element that is put at the end of a segment does not tear a block. Taking an element
out that is in no block, putting one in between two blocks and extending an element by a block of
new elements keep this.
-/
namespace UtopiaEda.SegmentedLists
open List
open Function (update_of_ne update_self)

variable {α ι : Type*} {l u v x y m b : List α} {e z : α} {blocks blocks' : List α → Prop}
  {seg seg' : ι → List α} {d : ι}

/-- No block has elements on both sides. -/
def Splits (blocks : List α → Prop) (u v : List α) : Prop := ∀ b, blocks b → b ⊆ u ∨ b ⊆ v

structure Segmented (blocks : List α → Prop) (l : List α) (seg : ι → List α) : Prop where
  part : ∀ d, seg d ≠ [] → ∃ u v, l = u ++ seg d ++ v ∧ Splits blocks (u ++ seg d) v
  disjoint : ∀ d d', d ≠ d' → (seg d).Disjoint (seg d')
  whole : ∀ b, blocks b → b <:+: l

/-- A part of a list that lies on one side of a cut. -/
theorem around (h : u ++ v = x ++ m ++ y) (hnd : (u ++ v).Nodup) (hside : m ⊆ u ∨ m ⊆ v) :
    (∃ w, u = x ++ m ++ w ∧ y = w ++ v) ∨ ∃ w, v = w ++ m ++ y ∧ x = u ++ w := by
  have hdisj : ∀ a, a ∈ u → a ∈ v → False :=
    fun a ha hb => (nodup_append.mp hnd).2.2 a ha a hb rfl
  rcases append_eq_append_iff.mp h with ⟨w, hxm, hv⟩ | ⟨w, hu, hy⟩
  · rcases append_eq_append_iff.mp hxm with ⟨a, hu, hm'⟩ | ⟨a, hx, hw⟩
    · cases a with
      | nil =>
        rw [append_nil] at hu
        exact .inr ⟨[], by rw [hv, hm', nil_append, nil_append], by rw [hu, append_nil]⟩
      | cons a as =>
        cases w with
        | nil =>
          rw [append_nil] at hm'
          exact .inl ⟨[], by rw [hu, hm', append_nil], by rw [hv, nil_append, nil_append]⟩
        | cons c w =>
          -- the part has elements on both sides
          exfalso
          have ha : a ∈ u := by simp [hu]
          have hc : c ∈ v := by simp [hv]
          rcases hside with hside | hside
          · exact hdisj c (hside (by simp [hm'])) hc
          · exact hdisj a ha (hside (by simp [hm']))
    · exact .inr ⟨a, by rw [hv, hw], hx⟩
  · exact .inl ⟨w, hu, hy⟩

theorem subset_of_infix (h : b <:+: u ++ e :: v) (he : e ∉ b) : b ⊆ u ∨ b ⊆ v := by
  obtain ⟨x, y, hxy⟩ := h
  rcases append_eq_append_iff.mp hxy with ⟨w, hu, hy⟩ | ⟨w, hxb, hv⟩
  · left
    intro a ha
    simp [hu, ha]
  · cases w with
    | nil =>
      left
      intro a ha
      rw [append_nil] at hxb
      exact hxb ▸ mem_append_right x ha
    | cons c w =>
      obtain ⟨rfl, rfl⟩ := cons_eq_cons.mp hv
      rcases append_eq_append_iff.mp hxb with ⟨a, hu, hb⟩ | ⟨a, hx, hb⟩
      · exact absurd (by simp [hb]) he
      · cases a with
        | nil =>
          rw [nil_append] at hb
          exact absurd (by simp [← hb]) he
        | cons a as =>
          right
          obtain ⟨-, rfl⟩ := cons_eq_cons.mp hb
          intro t ht
          simp [ht]

theorem Splits.mono (h : Splits blocks u v) (hu : u ⊆ x) (hv : v ⊆ y) : Splits blocks x y :=
  fun b hb => (h b hb).imp (fun hbu => List.Subset.trans hbu hu)
    (fun hbv => List.Subset.trans hbv hv)

/-- An element of a segment belongs to no other one. -/
theorem Segmented.unique (h : Segmented blocks l seg) {d' : ι} (hz : z ∈ seg d) (hz' : z ∈ seg d') :
    d = d' := by
  by_contra hne
  exact h.disjoint d d' hne hz hz'

theorem Segmented.segment_infix (h : Segmented blocks l seg) (d : ι) : seg d <:+: l := by
  by_cases hd : seg d = []
  · rw [hd]
    exact nil_infix
  · obtain ⟨u, v, hl, -⟩ := h.part d hd
    exact ⟨u, v, hl.symm⟩

theorem Segmented.mono (h : Segmented blocks l seg) (hblocks : ∀ b, blocks' b → blocks b) :
    Segmented blocks' l seg := by
  constructor
  · intro d hd
    obtain ⟨u, v, hl, hs⟩ := h.part d hd
    exact ⟨u, v, hl, fun b hb => hs b (hblocks b hb)⟩
  · exact h.disjoint
  · exact fun b hb => h.whole b (hblocks b hb)

theorem Segmented.splits_of_not_mem (h : Segmented blocks (u ++ e :: v) seg)
    (he : ∀ b, blocks b → e ∉ b) :
    Splits blocks u v := fun b hb => subset_of_infix (h.whole b hb) (he b hb)

theorem Segmented.segment_side (h : Segmented blocks (u ++ z :: v) seg) {d' : ι} (hz : z ∈ seg d)
    (hd : d' ≠ d) : seg d' ⊆ u ∨ seg d' ⊆ v := by
  apply subset_of_infix (h.segment_infix d')
  intro hz'
  exact hd (h.unique hz' hz)

/-- Taking an element out that is in no block. -/
theorem Segmented.delete [DecidableEq α] (h : Segmented blocks (u ++ e :: v) seg)
    (hnd : (u ++ e :: v).Nodup) (he : ∀ b, blocks b → e ∉ b)
    (hseg : ∀ d, seg' d = (seg d).filter (· ≠ e) ∨ seg' d = []) :
    Segmented blocks (u ++ v) seg' := by
  have hne : e ∉ u ++ v := (nodup_cons.mp (perm_middle.nodup_iff.mp hnd)).1
  have hkeep : ∀ b, blocks b → b.filter (· ≠ e) = b := by
    intro b hb
    apply filter_eq_self.mpr
    intro a ha
    exact decide_eq_true (fun hae => he b hb (hae ▸ ha))
  have hfilter : (u ++ e :: v).filter (· ≠ e) = u ++ v := by
    have hu : u.filter (· ≠ e) = u :=
      filter_eq_self.mpr (fun a ha => decide_eq_true
        (fun hae => hne (hae ▸ mem_append_left v ha)))
    have hv : v.filter (· ≠ e) = v :=
      filter_eq_self.mpr (fun a ha => decide_eq_true
        (fun hae => hne (hae ▸ mem_append_right u ha)))
    rw [filter_append, filter_cons_of_neg (by simp), hu, hv]
  have hsub : ∀ d, seg' d ⊆ seg d := by
    intro d a ha
    rcases hseg d with hd | hd
    · rw [hd] at ha
      exact mem_of_mem_filter ha
    · rw [hd] at ha
      cases ha
  constructor
  · intro d hd
    have hd' : seg' d = (seg d).filter (· ≠ e) := (hseg d).resolve_right hd
    obtain ⟨x, y, hl, hsplit⟩ := h.part d (fun hnil => hd (by rw [hd', hnil, filter_nil]))
    refine ⟨x.filter (· ≠ e), y.filter (· ≠ e), ?_, fun b hb => ?_⟩
    · rw [← hfilter, hl, filter_append, filter_append, hd']
    · rw [hd', ← filter_append, ← hkeep b hb]
      exact (hsplit b hb).imp (fun hbu => filter_subset _ hbu) (fun hbv => filter_subset _ hbv)
  · intro d d' hdd a ha ha'
    exact h.disjoint d d' hdd (hsub d ha) (hsub d' ha')
  · intro b hb
    rw [← hkeep b hb, ← hfilter]
    exact (h.whole b hb).filter _

theorem Segmented.insert [DecidableEq ι] (h : Segmented blocks (u ++ v) seg) (hnd : (u ++ v).Nodup)
    (hb : ∀ a ∈ b, a ∉ u ++ v) (hsplit : Splits blocks u v) (hseg : ∀ d', d' ≠ d → seg d' ⊆ u ∨
      seg d' ⊆ v)
    (hm : m ≠ [] → ∃ x y, u ++ b ++ v = x ++ m ++ y ∧ Splits blocks (x ++ m) y)
    (hmem : ∀ a ∈ m, a ∈ b ∨ a ∈ seg d) : Segmented blocks (u ++ b ++ v)
    (Function.update seg d m) := by
  have hout : ∀ d', d' ≠ d → ∀ a ∈ m, a ∉ seg d' := by
    intro d' hd' a ha ha'
    rcases hmem a ha with hab | had
    · exact hb a hab ((h.segment_infix d').subset ha')
    · exact hd' (h.unique ha' had)
  constructor
  · intro d' hd'
    by_cases hdd : d' = d
    · subst hdd
      rw [update_self] at hd' ⊢
      exact hm hd'
    · rw [update_of_ne hdd] at hd' ⊢
      obtain ⟨x, y, hl, hs⟩ := h.part d' hd'
      rcases around hl hnd (hseg d' hdd) with ⟨w, hu, hy⟩ | ⟨w, hv, hx⟩
      · refine ⟨x, w ++ b ++ v, by rw [hu]; simp, hs.mono (List.Subset.refl _) ?_⟩
        rw [hy]
        intro a ha
        simp only [mem_append] at ha ⊢
        tauto
      · refine ⟨u ++ b ++ w, y, by rw [hv]; simp, hs.mono ?_ (List.Subset.refl _)⟩
        rw [hx]
        intro a ha
        simp only [mem_append] at ha ⊢
        tauto
  · intro d₁ d₂ hne a h₁ h₂
    by_cases hd₁ : d₁ = d
    · subst hd₁
      rw [update_self] at h₁
      rw [update_of_ne hne.symm] at h₂
      exact hout d₂ hne.symm a h₁ h₂
    · rw [update_of_ne hd₁] at h₁
      by_cases hd₂ : d₂ = d
      · subst hd₂
        rw [update_self] at h₂
        exact hout d₁ hne a h₂ h₁
      · rw [update_of_ne hd₂] at h₂
        exact h.disjoint d₁ d₂ hne h₁ h₂
  · intro t ht
    obtain ⟨x, y, hxy⟩ := h.whole t ht
    rcases around hxy.symm hnd (hsplit t ht) with ⟨w, hu, -⟩ | ⟨w, hv, -⟩
    · exact ⟨x, w ++ b ++ v, by rw [hu]; simp⟩
    · exact ⟨u ++ b ++ w, y, by rw [hv]; simp⟩

theorem Segmented.addBlock (h : Segmented blocks l seg) (hb : b <:+: l)
    (hseg : ∀ d, b ⊆ seg d ∨ b.Disjoint (seg d)) (hblocks : ∀ t, blocks' t → blocks t ∨ t = b) :
    Segmented blocks' l seg := by
  constructor
  · intro d hd
    obtain ⟨u, v, hl, hsplit⟩ := h.part d hd
    refine ⟨u, v, hl, fun t ht => ?_⟩
    rcases hblocks t ht with ht | rfl
    · exact hsplit t ht
    · rcases hseg d with hsub | hdisj
      · exact .inl (fun a ha => mem_append_right u (hsub ha))
      · -- the block lies before or behind the elements of the segment
        obtain ⟨z, y, hz⟩ := exists_cons_of_ne_nil hd
        rw [hl, hz, append_assoc, cons_append] at hb
        have hz' : z ∉ t := fun hzt => hdisj hzt (by rw [hz]; exact mem_cons_self ..)
        rcases subset_of_infix hb hz' with hu | hv
        · exact .inl (fun a ha => mem_append_left _ (hu ha))
        · refine .inr (fun a ha => (mem_append.mp (hv ha)).resolve_left
            (fun hy => hdisj ha ?_))
          rw [hz]
          exact mem_cons_of_mem z hy
  · exact h.disjoint
  · intro t ht
    rcases hblocks t ht with ht | rfl
    · exact h.whole t ht
    · exact hb

end UtopiaEda.SegmentedLists
