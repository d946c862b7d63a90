import UtopiaEda.WordNetworks
import Mathlib.Data.Prod.Lex

/-!
# Keys of the hash table

The links in the key of a commutative type are sorted, so the key does not see their order; renaming
the links in a way that can be undone keeps different keys apart.
-/
namespace UtopiaEda
open List
open Option (bind_eq_some_iff)

def Link.code (l : Link) : ℕ ×ₗ (ℕ ×ₗ Bool) := toLex (l.idx, toLex (l.out, l.inv))

private theorem Link.code_injective : Function.Injective Link.code := by
  intro a b h
  have h := toLex.injective h
  have h' := toLex.injective (congrArg Prod.snd h)
  cases a
  cases b
  simp only [Link.mk.injEq]
  exact ⟨congrArg Prod.fst h, congrArg Prod.fst h', congrArg Prod.snd h'⟩

private theorem Link.not_lt_iff (a b : Link) : ¬ b.lt a ↔ a.code ≤ b.code := by
  have hinv : (!b.inv && a.inv) = true ↔ b.inv < a.inv := by
    cases b.inv <;> cases a.inv <;> decide
  have hlt : b.lt a = true ↔ b.code < a.code := by
    rw [Link.code, Link.code, Prod.Lex.toLex_lt_toLex, Prod.Lex.toLex_lt_toLex, Link.lt]
    by_cases hidx : b.idx = a.idx
    · rw [if_neg (not_not.mpr hidx)]
      by_cases hout : b.out = a.out
      · rw [if_neg (not_not.mpr hout), hinv]
        simp [hidx, hout]
      · rw [if_pos hout]
        simp [hidx, hout]
    · rw [if_pos hidx]
      simp [hidx]
  rw [hlt, not_lt]

theorem StrashKey.make_perm {t : CellTypeID} {ls ls' : List Link} (ht : t.isCommutative)
    (h : ls.Perm ls') : StrashKey.make t ls = StrashKey.make t ls' := by
  have htotal : Std.Total (fun a b : Link => ¬ b.lt a) := ⟨fun a b => by
    rw [Link.not_lt_iff, Link.not_lt_iff]
    exact le_total a.code b.code⟩
  have htrans : IsTrans Link (fun a b : Link => ¬ b.lt a) := ⟨fun a b c hab hbc => by
    rw [Link.not_lt_iff] at hab hbc ⊢
    exact hab.trans hbc⟩
  have hsorted := fun l : List Link => pairwise_insertionSort (fun a b : Link => ¬ b.lt a) l
  have hperm := ((perm_insertionSort (fun a b : Link => ¬ b.lt a) ls).trans h).trans
    (perm_insertionSort (fun a b : Link => ¬ b.lt a) ls').symm
  have hsort := List.Perm.eq_of_pairwise (fun a b _ _ hab hba => by
    rw [Link.not_lt_iff] at hab hba
    exact Link.code_injective (le_antisymm hab hba)) (hsorted ls) (hsorted ls') hperm
  rw [StrashKey.make, StrashKey.make, if_pos ht, if_pos ht, hsort]

theorem StrashKey.make_of_map {t t' : CellTypeID} {ls ls' : List Link} {f g : Link → Link}
    (hg : ∀ l ∈ ls ++ ls', g (f l) = l)
    (h : StrashKey.make t (ls.map f) = StrashKey.make t' (ls'.map f)) :
    StrashKey.make t ls = StrashKey.make t' ls' := by
  have hback : ∀ l ⊆ ls ++ ls', (l.map f).map g = l := by
    intro l hl
    rw [map_map]
    conv_rhs => rw [← map_id l]
    exact map_congr_left (fun a ha => hg a (hl ha))
  obtain ⟨rfl, hperm, heq⟩ := StrashKey.make_eq h
  by_cases ht : t.isCommutative
  · apply StrashKey.make_perm ht
    have := hperm.map g
    rwa [hback ls (subset_append_left ..), hback ls' (subset_append_right ..)] at this
  · have := congrArg (List.map g) (heq (by simpa using ht))
    rw [hback ls (subset_append_left ..), hback ls' (subset_append_right ..)] at this
    rw [this]

namespace SubnetBuilder

variable {s s' : SubnetBuilder} {t : CellTypeID} {links : List Link} {l : Link} {i idx : EntryID}

/-- What new links leave as it is. -/
theorem same_of_addNewLinks : ∀ {links : List Link} {s : SubnetBuilder},
    addNewLinks i links s = some s' → s'.size = s.size ∧ s'.emptyEntryIDs = s.emptyEntryIDs ∧
    s'.strash = s.strash := by
  intro links
  induction links with
  | nil =>
    intro s h
    cases h
    exact ⟨rfl, rfl, rfl⟩
  | cons l links ih =>
    intro s h
    obtain ⟨c, -, h⟩ := bind_eq_some_iff.mp h
    split at h
    · cases h
    · obtain ⟨s₁, h₁, h⟩ := bind_eq_some_iff.mp h
      obtain ⟨s₂, h₂, h₁⟩ := bind_eq_some_iff.mp h₁
      obtain ⟨a, ha, h₁⟩ := bind_eq_some_iff.mp h₁
      cases h₁
      obtain ⟨hsize, hfree, hstrash⟩ := ih h
      rw [addFanout] at h₂
      split at h₂
      · cases h₂
      · cases h₂
        exact ⟨hsize, hfree, hstrash⟩

theorem strash_of_fillEntry (h : s.fillEntry idx t links = some s') : s'.strash = s.strash := by
  obtain ⟨s₁, h₁, h⟩ := bind_eq_some_iff.mp h
  obtain ⟨o, -, h⟩ := bind_eq_some_iff.mp h
  have hs₁ := (same_of_addNewLinks h₁).2.2
  split at h
  · cases h
    exact hs₁
  · obtain ⟨n, -, h⟩ := bind_eq_some_iff.mp h
    obtain ⟨s₂, h₂, h⟩ := bind_eq_some_iff.mp h
    obtain ⟨o', -, h⟩ := bind_eq_some_iff.mp h
    cases h
    exact (Extended.addLinkEntries h₂).strash.trans hs₁

private theorem strash_allocID (b : Bool) : (s.allocID b).1.strash = s.strash := by
  unfold allocID
  cases h : s.emptyEntryIDs <;> rfl

/-- The hash table after the addition of a cell. -/
theorem strash_of_addCell (h : s.addCell t links = some (s', l)) : s'.strash =
    if StrashKey.isEnabled t links then Function.update s.strash (StrashKey.make t links)
    (some l.idx) else s.strash := by
  unfold addCell at h
  split at h
  · cases h
  · obtain ⟨⟨s₁, idx⟩, hs₁, h⟩ := bind_eq_some_iff.mp h
    cases h
    change s₁.strash = _
    unfold allocEntry strashEntry at hs₁
    by_cases hen : StrashKey.isEnabled t links = true
    · rw [if_pos hen]
      simp only [if_pos hen] at hs₁
      cases hk : s.strash (StrashKey.make t links) with
      | some i =>
        simp only [hk] at hs₁
        cases hs₁
        exact (Function.update_eq_self_iff.mpr hk.symm).symm
      | none =>
        simp only [hk] at hs₁
        obtain ⟨s₂, hs₂, heq⟩ := Option.map_eq_some_iff.mp hs₁
        cases heq
        refine (strash_of_fillEntry hs₂).trans ?_
        change Function.update (allocID _ _).1.strash _ _ = _
        rw [strash_allocID]
    · rw [if_neg hen]
      simp only [if_neg hen] at hs₁
      obtain ⟨s₂, hs₂, heq⟩ := Option.map_eq_some_iff.mp hs₁
      cases heq
      refine (strash_of_fillEntry hs₂).trans ?_
      rw [strash_allocID]

theorem idx_of_addCell (h : s.addCell t links = some (s', l)) (hen : StrashKey.isEnabled t links)
    (hk : s.strash (StrashKey.make t links) = some i) : l.idx = i := by
  unfold addCell at h
  split at h
  · cases h
  · obtain ⟨⟨s₁, idx⟩, hs₁, h⟩ := bind_eq_some_iff.mp h
    cases h
    unfold allocEntry strashEntry at hs₁
    simp only [if_pos hen, hk] at hs₁
    cases hs₁
    rfl

theorem strash_of_addOutputs : ∀ {links : List Link} {s : SubnetBuilder},
    SubnetBuilder.addOutputs links s = some s' → s'.strash = s.strash := by
  intro links
  induction links with
  | nil =>
    intro s h
    cases h
    rfl
  | cons l links ih =>
    intro s h
    obtain ⟨⟨s₁, r⟩, h₁, h⟩ := bind_eq_some_iff.mp h
    have hfirst := strash_of_addCell h₁
    rw [if_neg (by simp [StrashKey.isEnabled])] at hfirst
    exact (ih h).trans hfirst

end SubnetBuilder

end UtopiaEda
