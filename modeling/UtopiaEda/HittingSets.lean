import Mathlib.Data.Finset.Card
import Mathlib.Data.Finset.Lattice.Basic

/-!
# Hitting sets

A set hits a family of clauses if it meets each of them. Multiplying the clauses out, one element of
each in every way, yields sets among which is a hitting set below any given one, so also one of the
least size. A clause that contains another one does not matter.
-/
namespace UtopiaEda.HittingSets

variable {α : Type} {s t d : Finset α} {q : Finset α} {F F' : Set (Finset α)}
  {D D' : Set (Finset α)}

def Hits (s : Finset α) (F : Set (Finset α)) : Prop := ∀ q ∈ F, ∃ v ∈ q, v ∈ s

structure IsMinimum (s : Finset α) (F : Set (Finset α)) : Prop where
  hits : Hits s F
  least : ∀ t, Hits t F → s.card ≤ t.card

theorem Hits.mono (h : Hits s F) (hst : s ⊆ t) : Hits t F := by
  intro q hq
  obtain ⟨v, hv, hs⟩ := h q hq
  exact ⟨v, hv, hst hs⟩

structure Absorbed (F F' : Set (Finset α)) : Prop where
  sub : F' ⊆ F
  below : ∀ q ∈ F, ∃ p ∈ F', p ⊆ q

theorem Absorbed.refl (F : Set (Finset α)) : Absorbed F F :=
  ⟨subset_rfl, fun q hq => ⟨q, hq, subset_rfl⟩⟩

theorem Absorbed.trans {F'' : Set (Finset α)} (h : Absorbed F F') (h' : Absorbed F' F'') :
    Absorbed F F'' := by
  refine ⟨h'.sub.trans h.sub, fun q hq => ?_⟩
  obtain ⟨p, hp, hpq⟩ := h.below q hq
  obtain ⟨r, hr, hrp⟩ := h'.below p hp
  exact ⟨r, hr, hrp.trans hpq⟩

theorem Absorbed.hits_iff (h : Absorbed F F') : Hits s F' ↔ Hits s F := by
  constructor
  · intro hs q hq
    obtain ⟨p, hp, hpq⟩ := h.below q hq
    obtain ⟨v, hv, hvs⟩ := hs p hp
    exact ⟨v, hpq hv, hvs⟩
  · exact fun hs q hq => hs q (h.sub hq)

theorem Absorbed.minimum (h : Absorbed F F') (hs : IsMinimum s F') : IsMinimum s F :=
  ⟨h.hits_iff.mp hs.hits, fun t ht => hs.least t (h.hits_iff.mpr ht)⟩

structure Expands (D F : Set (Finset α)) : Prop where
  hits : ∀ d ∈ D, Hits d F
  below : ∀ t, Hits t F → ∃ d ∈ D, d ⊆ t

theorem Expands.one (q : Finset α) : Expands {e | ∃ v ∈ q, e = {v}} {q} := by
  refine ⟨?_, fun t ht => ?_⟩
  · rintro d ⟨v, hv, rfl⟩ q' rfl
    exact ⟨v, hv, Finset.mem_singleton_self v⟩
  · obtain ⟨v, hv, hvt⟩ := ht q rfl
    exact ⟨{v}, ⟨v, hv, rfl⟩, Finset.singleton_subset_iff.mpr hvt⟩

theorem Expands.minimum (h : Expands D F) (hs : s ∈ D) (hleast : ∀ d ∈ D, s.card ≤ d.card) :
    IsMinimum s F := by
  refine ⟨h.hits s hs, fun t ht => ?_⟩
  obtain ⟨d, hd, hdt⟩ := h.below t ht
  exact (hleast d hd).trans (Finset.card_le_card hdt)

variable [DecidableEq α]

/-- Every set gets one element of the clause, in every way. -/
def product (D : Set (Finset α)) (q : Finset α) : Set (Finset α) :=
  {e | ∃ d ∈ D, ∃ v ∈ q, e = insert v d}

theorem Expands.product (h : Expands D F) (q : Finset α) : Expands (product D q) (insert q F) := by
  constructor
  · rintro e ⟨d, hd, v, hv, rfl⟩ p hp
    rcases hp with rfl | hp
    · exact ⟨v, hv, Finset.mem_insert_self v d⟩
    · exact (h.hits d hd).mono (Finset.subset_insert v d) p hp
  · intro t ht
    obtain ⟨d, hd, hdt⟩ := h.below t (fun p hp => ht p (.inr hp))
    obtain ⟨v, hv, hvt⟩ := ht q (.inl rfl)
    exact ⟨insert v d, ⟨d, hd, v, hv, rfl⟩, Finset.insert_subset hvt hdt⟩

end UtopiaEda.HittingSets
