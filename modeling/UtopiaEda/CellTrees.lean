import UtopiaEda.GateAddition

/-!
# Trees of cells

`addCellTree` splits an operation over many links into a tree of cells with few links. The list of
links that are left shrinks from the front, and the links of the new cells come to its end.
-/
namespace UtopiaEda
open List

/-- The `regroupable` property of the table of standard cell types. -/
def CellTypeID.isRegroupable : CellTypeID → Bool
  | .AND | .OR | .XOR => true
  | _ => false

namespace SubnetBuilder

/-- `Cell::MaxArity`. -/
def maxCellArity : ℕ := 63

/-- The loop of `addCellTree` for the links that are left. -/
def addCellTreeLoop (symbol : CellTypeID) (maxTreeArity : ℕ) :
    ℕ → SubnetBuilder → List Link → Option (SubnetBuilder × Link)
  | 0, _, _ => none
  | n + 1, s, linkList =>
    if 2 ≤ linkList.length then do
      let (s, link) ← s.addCell symbol (linkList.take maxTreeArity)
      addCellTreeLoop symbol maxTreeArity n s (linkList.drop maxTreeArity ++ [link])
    else do some (s, ← linkList[0]?)

def addCellTree (s : SubnetBuilder) (symbol : CellTypeID) (links : List Link) (k : ℕ) :
    Option (SubnetBuilder × Link) :=
  let maxTreeArity := min k maxCellArity
  if links.length ≤ maxTreeArity then s.addCell symbol links
  else if symbol.isRegroupable then addCellTreeLoop symbol maxTreeArity links.length s links
  else none

variable {s : SubnetBuilder} {ins mid outs : List EntryID} {t : CellTypeID} {links : List Link}
  {k : ℕ}

theorem regroupable_gate (ht : t.isRegroupable) : t.isNegative = false ∧ t ≠ .IN ∧ t ≠ .OUT ∧
    ∀ sid, t ≠ .soft sid := by
  cases t <;> simp [CellTypeID.isRegroupable] at ht <;> simp [CellTypeID.isNegative]

private theorem foldr_xor_append : ∀ us vs : List Bool,
    (us ++ vs).foldr xor false = xor (us.foldr xor false) (vs.foldr xor false)
  | [], vs => (Bool.false_xor _).symm
  | u :: us, vs => by rw [cons_append, foldr_cons, foldr_xor_append us, foldr_cons,
      Bool.xor_assoc]

/-- A part of the operands can be replaced by its value. -/
theorem gateFunction_regroup (ht : t.isRegroupable) (us vs : List Bool) :
    gateFunction t (vs ++ [gateFunction t us]) = gateFunction t (us ++ vs) := by
  cases t with
  | AND => simp [gateFunction, CellTypeID.eval, Bool.and_comm]
  | OR => simp [gateFunction, CellTypeID.eval, Bool.or_comm]
  | XOR =>
    simp only [gateFunction, CellTypeID.eval, foldr_xor_append, foldr_cons, foldr_nil,
      Bool.xor_false]
    exact Bool.xor_comm _ _
  | _ => simp [CellTypeID.isRegroupable] at ht

theorem gateFunction_singleton (ht : t.isRegroupable) (u : Bool) : gateFunction t [u] = u := by
  cases t <;> simp [CellTypeID.isRegroupable] at ht <;> simp [gateFunction, CellTypeID.eval]

theorem LinkAdded.regroup {s₁ s' : SubnetBuilder} {l₁ l : Link} {P : Gate → Prop}
    (ht : t.isRegroupable) (h₁ : LinkAdded s s₁ l₁
    (fun ρ => gateFunction t ((links.take k).map (Link.value ρ))) P)
    (h : LinkAdded s₁ s' l (fun ρ => gateFunction t ((links.drop k ++ [l₁]).map (Link.value ρ)))
      P) :
    LinkAdded s s' l (fun ρ => gateFunction t (links.map (Link.value ρ))) P := by
  refine (h₁.trans h).congr (fun lib x ρ hρ => ?_)
  have hval := h₁.value lib x ρ (Solves.mono hρ h.le)
  rw [map_append, map_singleton, hval, gateFunction_regroup ht, ← map_append,
    take_append_drop]

theorem Grown.addCellTreeLoop (ht : t.isRegroupable) (hk : 2 ≤ k) :
    ∀ {n : ℕ} {s : SubnetBuilder} {mid : List EntryID} {links : List Link}, Grown s ins mid outs →
      s.ValidLinks links → links ≠ [] → links.length ≤ n →
      ∃ s' l mid', SubnetBuilder.addCellTreeLoop t k n s links = some (s', l) ∧
      Grown s' ins mid' outs ∧
        LinkAdded s s' l (fun ρ => gateFunction t (links.map (Link.value ρ)))
          (fun g => g.type = t ∧ 2 ≤ g.links.length ∧ g.links.length ≤ k) := by
  obtain ⟨hneg, hin, hout, hsoft⟩ := regroupable_gate ht
  intro n
  induction n with
  | zero =>
    intro s mid links _ _ hne hn
    exact absurd (eq_nil_of_length_eq_zero (Nat.le_zero.mp hn)) hne
  | succ n ih =>
    intro s mid links h hl hne hn
    rw [SubnetBuilder.addCellTreeLoop]
    by_cases hlen : 2 ≤ links.length
    · rw [if_pos hlen]
      have hsplit := hl
      rw [← take_append_drop k links, validLinks_append] at hsplit
      obtain ⟨s₁, l₁, mid₁, hadd, h₁, hl₁⟩ := h.addGateLink hsplit.1 hneg hin hout hsoft
      have hvalid : s₁.ValidLinks (links.drop k ++ [l₁]) :=
        validLinks_append.mpr ⟨hsplit.2.mono hl₁.le, hl₁.valid⟩
      have hlen₁ : (links.drop k ++ [l₁]).length ≤ n := by
        rw [length_append, length_drop, length_singleton]
        omega
      obtain ⟨s', l, mid', hrun, h', hl'⟩ := ih h₁ hvalid (by simp) hlen₁
      have htake : 2 ≤ (links.take k).length ∧ (links.take k).length ≤ k := by
        rw [length_take]
        omega
      have hfirst : LinkAdded s s₁ l₁ (fun ρ => gateFunction t ((links.take k).map (Link.value ρ)))
          (fun g => g.type = t ∧ 2 ≤ g.links.length ∧ g.links.length ≤ k) :=
        hl₁.weaken (fun g hg => ⟨hg.1, by rw [hg.2]; exact htake.1, by rw [hg.2]; exact htake.2⟩)
      refine ⟨s', l, mid', ?_, h', hfirst.regroup ht hl'⟩
      rw [hadd]
      exact hrun
    · rw [if_neg hlen]
      obtain ⟨l, rfl⟩ : ∃ l, links = [l] := length_eq_one_iff.mp (by
        have := length_pos_iff.mpr hne
        omega)
      exact ⟨s, l, mid, rfl, h, (LinkAdded.refl hl).congr (fun _ _ ρ _ =>
        (gateFunction_singleton ht _).symm)⟩

theorem NetOk.of_addCellTreeLoop {s' : SubnetBuilder} {l : Link} (ht : t.isRegroupable) :
    ∀ {n : ℕ} {s : SubnetBuilder} {links : List Link}, NetOk s → s.ValidLinks links →
      SubnetBuilder.addCellTreeLoop t k n s links = some (s', l) →
      NetOk s' ∧ LinkAdded s s' l (fun ρ => gateFunction t (links.map (Link.value ρ)))
        (fun g => g.type = t ∧ g.links.length ≤ k) := by
  obtain ⟨-, hin, hout, hsoft⟩ := regroupable_gate ht
  intro n
  induction n with
  | zero =>
    intro s links _ _ hrun
    cases hrun
  | succ n ih =>
    intro s links h hl hrun
    rw [SubnetBuilder.addCellTreeLoop] at hrun
    by_cases hlen : 2 ≤ links.length
    · rw [if_pos hlen, Option.bind_eq_bind] at hrun
      obtain ⟨⟨s₁, l₁⟩, hadd, hrun⟩ := Option.bind_eq_some_iff.mp hrun
      have hsplit := hl
      rw [← take_append_drop k links, validLinks_append] at hsplit
      have hl₁ := h.net.addGateLink hsplit.1 hin hout hsoft hadd
      have hvalid : s₁.ValidLinks (links.drop k ++ [l₁]) :=
        validLinks_append.mpr ⟨hsplit.2.mono hl₁.le, hl₁.valid⟩
      obtain ⟨h', hl'⟩ := ih (h.addCell hsplit.1 hadd) hvalid hrun
      have hfirst : LinkAdded s s₁ l₁ (fun ρ => gateFunction t ((links.take k).map (Link.value ρ)))
          (fun g => g.type = t ∧ g.links.length ≤ k) :=
        hl₁.weaken (fun g hg => ⟨hg.1, hg.2 ▸ length_take_le k links⟩)
      exact ⟨h', hfirst.regroup ht hl'⟩
    · rw [if_neg hlen, Option.bind_eq_bind] at hrun
      obtain ⟨l₀, hl₀, heq⟩ := Option.bind_eq_some_iff.mp hrun
      cases heq
      obtain ⟨hpos, -⟩ := List.getElem?_eq_some_iff.mp hl₀
      obtain ⟨l₁, rfl⟩ : ∃ l₁, links = [l₁] := length_eq_one_iff.mp (by omega)
      cases hl₀
      exact ⟨h, (LinkAdded.refl hl).congr (fun _ _ ρ _ => (gateFunction_singleton ht _).symm)⟩

theorem Grown.addCellTree (h : Grown s ins mid outs) (hl : s.ValidLinks links)
    (ht : t.isRegroupable) (hk : 2 ≤ k) :
    ∃ s' l mid', s.addCellTree t links k = some (s', l) ∧ Grown s' ins mid' outs ∧
      LinkAdded s s' l (fun ρ => gateFunction t (links.map (Link.value ρ)))
        (fun g => g.type = t ∧ min 2 links.length ≤ g.links.length ∧ g.links.length ≤ k) := by
  obtain ⟨hneg, hin, hout, hsoft⟩ := regroupable_gate ht
  have hmax : 2 ≤ min k maxCellArity := Nat.le_min.mpr ⟨hk, by decide⟩
  unfold SubnetBuilder.addCellTree
  by_cases hlen : links.length ≤ min k maxCellArity
  · obtain ⟨s', l, mid', hadd, h', hl'⟩ := h.addGateLink hl hneg hin hout hsoft
    refine ⟨s', l, mid', by simp only [if_pos hlen]; exact hadd, h', hl'.weaken (fun g hg => ⟨hg.1,
      ?_, ?_⟩)⟩
    · rw [hg.2]
      exact Nat.min_le_right _ _
    · rw [hg.2]
      exact Nat.le_trans hlen (Nat.min_le_left _ _)
  · have hne : links ≠ [] := by
      rintro rfl
      exact hlen (Nat.zero_le _)
    obtain ⟨s', l, mid', hrun, h', hl'⟩ := Grown.addCellTreeLoop ht hmax h hl hne (Nat.le_refl _)
    refine ⟨s', l, mid', by simp only [if_neg hlen, if_pos ht]; exact hrun, h',
      hl'.weaken (fun g hg => ⟨hg.1, ?_, ?_⟩)⟩
    · exact Nat.le_trans (Nat.min_le_left _ _) hg.2.1
    · exact Nat.le_trans hg.2.2 (Nat.min_le_left _ _)

end SubnetBuilder

end UtopiaEda
