import Mathlib.Data.List.Chain
import Mathlib.Data.List.Nodup

/-!
# Doubly linked lists

Two partial maps `next` and `prev` link a list when every two consecutive elements
point to each other. Insertion and removal rewrite the pointers of the neighbours
only; what the pointers of the first and the last element say to the outside is free.
-/
namespace UtopiaEda.LinkedLists
open List

variable {α : Type*} {next prev next' prev' : α → Option α} {l l₁ l₂ : List α} {e n p : α}

/-- Consecutive elements of `l` point to each other. -/
def Linked (next prev : α → Option α) (l : List α) : Prop :=
  l.IsChain (fun a b => next a = some b ∧ prev b = some a)

@[simp] theorem linked_nil : Linked next prev ([] : List α) := isChain_nil

@[simp] theorem linked_singleton (a : α) : Linked next prev [a] := isChain_singleton a

@[simp] theorem linked_cons_cons (a b : α) (l : List α) : Linked next prev (a :: b :: l) ↔
    (next a = some b ∧ prev b = some a) ∧ Linked next prev (b :: l) := isChain_cons_cons

theorem linked_split : Linked next prev (l₁ ++ p :: n :: l₂) ↔
    Linked next prev (l₁ ++ [p]) ∧ (next p = some n ∧ prev n = some p) ∧
      Linked next prev (n :: l₂) := isChain_append_cons_cons

theorem Linked.left (h : Linked next prev (l₁ ++ l₂)) : Linked next prev l₁ :=
  List.IsChain.left_of_append h

theorem Linked.right (h : Linked next prev (l₁ ++ l₂)) : Linked next prev l₂ :=
  List.IsChain.right_of_append h

/-- The pointer to the right of the last element and the one to the left of the first
element do not matter. -/
theorem Linked.congr (h : Linked next prev l) (hn : ∀ a ∈ l.dropLast, next' a = next a)
    (hp : ∀ a ∈ l.tail, prev' a = prev a) : Linked next' prev' l := by
  induction l with
  | nil => simp
  | cons a l ih =>
    cases l with
    | nil => simp
    | cons b l =>
      rw [linked_cons_cons] at h ⊢
      refine ⟨⟨?_, ?_⟩, ih h.2 (fun c hc => hn c ?_) (fun c hc => hp c ?_)⟩
      · rw [hn a (by simp), h.1.1]
      · rw [hp b (by simp), h.1.2]
      · simpa using Or.inr hc
      · simpa using Or.inr hc

private theorem dropLast_ne (hd : (l₁ ++ [p]).Nodup) : ∀ a ∈ (l₁ ++ [p]).dropLast, a ≠ p := by
  rintro a ha rfl
  rw [dropLast_concat] at ha
  exact (nodup_append.mp hd).2.2 a ha a (by simp) rfl

private theorem tail_ne (hd : (n :: l₂).Nodup) : ∀ a ∈ (n :: l₂).tail, a ≠ n := by
  rintro a ha rfl
  simp only [tail_cons] at ha
  simp [ha] at hd

theorem Linked.insert (h : Linked next prev (l₁ ++ p :: n :: l₂))
    (hd : (l₁ ++ p :: e :: n :: l₂).Nodup)
    (hnp : next' p = some e) (hne : next' e = some n) (hpe : prev' e = some p)
    (hpn : prev' n = some e) (hn : ∀ a, a ≠ p → a ≠ e → next' a = next a)
    (hp : ∀ a, a ≠ e → a ≠ n → prev' a = prev a) :
    Linked next' prev' (l₁ ++ p :: e :: n :: l₂) := by
  obtain ⟨hl, -, hr⟩ := linked_split.mp h
  have hd₁ : (l₁ ++ [p]).Nodup := hd.sublist (by simp)
  simp only [nodup_append, nodup_cons, mem_cons, not_or] at hd
  obtain ⟨-, ⟨⟨hpe', hpn', hpl⟩, ⟨hen, hel⟩, hnl⟩, hdis⟩ := hd
  refine linked_split.mpr ⟨?_, ⟨hnp, hpe⟩, (linked_cons_cons e n l₂).mpr ⟨⟨hne, hpn⟩, ?_⟩⟩
  · refine hl.congr (fun a ha => hn a (dropLast_ne hd₁ a ha) ?_) (fun a ha => hp a ?_ ?_)
    · simp only [dropLast_concat] at ha
      exact hdis a ha e (by simp)
    · rcases mem_append.mp (mem_of_mem_tail ha) with ha | ha
      · exact hdis a ha e (by simp)
      · rw [mem_singleton.mp ha]; exact hpe'
    · rcases mem_append.mp (mem_of_mem_tail ha) with ha | ha
      · exact hdis a ha n (by simp)
      · rw [mem_singleton.mp ha]; exact hpn'
  · refine hr.congr (fun a ha => hn a ?_ ?_)
      (fun a ha => hp a ?_ (tail_ne (nodup_cons.mpr hnl) a ha))
    · rintro rfl
      rcases mem_cons.mp (dropLast_subset _ ha) with ha | ha
      exacts [hpn' ha, hpl ha]
    · rintro rfl
      rcases mem_cons.mp (dropLast_subset _ ha) with ha | ha
      exacts [hen ha, hel ha]
    · rintro rfl
      exact hel ha

theorem Linked.insert_last (h : Linked next prev (l₁ ++ [p])) (hd : (l₁ ++ [p, e]).Nodup)
    (hnp : next' p = some e) (hpe : prev' e = some p) (hn : ∀ a, a ≠ p → a ≠ e → next' a = next a)
    (hp : ∀ a, a ≠ e → prev' a = prev a) : Linked next' prev' (l₁ ++ [p, e]) := by
  have hd₁ : (l₁ ++ [p]).Nodup := hd.sublist (by simp)
  have he : ∀ a ∈ l₁ ++ [p], a ≠ e := by
    rintro a ha rfl
    rw [append_cons l₁ p [a], nodup_append] at hd
    exact hd.2.2 a ha a (by simp) rfl
  refine linked_split.mpr ⟨?_, ⟨hnp, hpe⟩, linked_singleton e⟩
  exact h.congr (fun a ha => hn a (dropLast_ne hd₁ a ha) (he a (dropLast_subset _ ha)))
    (fun a ha => hp a (he a (mem_of_mem_tail ha)))

theorem Linked.insert_first (h : Linked next prev (n :: l₂)) (hd : (e :: n :: l₂).Nodup)
    (hne : next' e = some n) (hpn : prev' n = some e) (hn : ∀ a, a ≠ e → next' a = next a)
    (hp : ∀ a, a ≠ e → a ≠ n → prev' a = prev a) : Linked next' prev' (e :: n :: l₂) := by
  have he : ∀ a ∈ n :: l₂, a ≠ e := by
    rintro a ha rfl
    exact (nodup_cons.mp hd).1 ha
  refine (linked_cons_cons e n l₂).mpr ⟨⟨hne, hpn⟩, ?_⟩
  exact h.congr (fun a ha => hn a (he a (dropLast_subset _ ha)))
    (fun a ha => hp a (he a (mem_of_mem_tail ha)) (tail_ne (nodup_cons.mp hd).2 a ha))

/-- Removal of an element between two others. -/
theorem Linked.remove (h : Linked next prev (l₁ ++ p :: e :: n :: l₂))
    (hd : (l₁ ++ p :: n :: l₂).Nodup) (hnp : next' p = some n) (hpn : prev' n = some p)
    (hn : ∀ a, a ≠ p → next' a = next a) (hp : ∀ a, a ≠ n → prev' a = prev a) :
    Linked next' prev' (l₁ ++ p :: n :: l₂) := by
  obtain ⟨hl, -, hr⟩ := linked_split.mp h
  have hd₁ : (l₁ ++ [p]).Nodup := hd.sublist (by simp)
  have hd₂ : (n :: l₂).Nodup := hd.sublist (by simp)
  simp only [nodup_append, nodup_cons, mem_cons, not_or] at hd
  obtain ⟨-, ⟨⟨hpn', hpl⟩, -⟩, hdis⟩ := hd
  refine linked_split.mpr ⟨?_, ⟨hnp, hpn⟩, ?_⟩
  · refine hl.congr (fun a ha => hn a (dropLast_ne hd₁ a ha)) (fun a ha => hp a ?_)
    rcases mem_append.mp (mem_of_mem_tail ha) with ha | ha
    · exact hdis a ha n (by simp)
    · rw [mem_singleton.mp ha]; exact hpn'
  · refine ((linked_cons_cons e n l₂).mp hr).2.congr (fun a ha => hn a ?_)
      (fun a ha => hp a (tail_ne hd₂ a ha))
    rintro rfl
    rcases mem_cons.mp (dropLast_subset _ ha) with ha | ha
    exacts [hpn' ha, hpl ha]

end UtopiaEda.LinkedLists
