import UtopiaEda.CellTrees

/-!
# Functions of links

Networks of small gates are assembled link by link: a link computes a function of the values of all
cells, and the gates that are added to a growing builder compute functions of what their links
compute.
-/
namespace UtopiaEda.SubnetBuilder
open List

variable {s s' s'' : SubnetBuilder} {ins mid outs : List EntryID} {t : CellTypeID}
  {l l₁ l₂ l₃ : Link} {links : List Link} {F F' F₁ F₂ F₃ : (EntryID → ℕ → Bool) → Bool}

/-- The link has the value of the function `F` of the values of all cells. -/
def Computes (s : SubnetBuilder) (l : Link) (F : (EntryID → ℕ → Bool) → Bool) : Prop :=
  s.ValidLinks [l] ∧ ∀ lib x ρ, s.netlist.Solves lib x ρ → l.value ρ = F ρ

theorem Computes.valid (h : ∀ l ∈ links, ∃ F, s.Computes l F) : s.ValidLinks links := by
  intro l hl
  obtain ⟨F, hF⟩ := h l hl
  exact hF.1 l (mem_singleton_self l)

theorem Computes.of_valid (h : s.ValidLinks [l]) : s.Computes l (Link.value · l) :=
  ⟨h, fun _ _ _ _ => rfl⟩

theorem Computes.congr (h : s.Computes l F) (hF : ∀ ρ, F ρ = F' ρ) : s.Computes l F' :=
  ⟨h.1, fun lib x ρ hρ => (h.2 lib x ρ hρ).trans (hF ρ)⟩

theorem Computes.not (h : s.Computes l F) : s.Computes l.not (fun ρ => !F ρ) := by
  refine ⟨fun k hk => ?_, fun lib x ρ hρ => ?_⟩
  · rw [mem_singleton.mp hk]
    exact h.1 l (mem_singleton_self l)
  · change _ = !F ρ
    rw [← h.2 lib x ρ hρ]
    exact Bool.xor_not _ _

structure Enlarged (ins outs : List EntryID) (s s' : SubnetBuilder) : Prop where
  grown : ∃ mid, Grown s' ins mid outs
  le : s.netlist.Le s'.netlist
  counts : (s'.nIn, s'.nOut) = (s.nIn, s.nOut)

theorem Enlarged.refl (h : Grown s ins mid outs) : Enlarged ins outs s s :=
  ⟨⟨mid, h⟩, .refl _, rfl⟩

theorem Enlarged.trans (h : Enlarged ins outs s s') (h' : Enlarged ins outs s' s'') :
    Enlarged ins outs s s'' :=
  ⟨h'.grown, h.le.trans h'.le, h'.counts.trans h.counts⟩

theorem Computes.mono_le (hl : s.Computes l F) (h : s.netlist.Le s'.netlist) : s'.Computes l F :=
  ⟨hl.1.mono h, fun lib x ρ hρ => hl.2 lib x ρ (Solves.mono hρ h)⟩

theorem Computes.mono (hl : s.Computes l F) (h : Enlarged ins outs s s') : s'.Computes l F :=
  hl.mono_le h.le

theorem Enlarged.addGate (h : Enlarged ins outs s s') (hl : s'.ValidLinks links)
    (hneg : t.isNegative = false) (hin : t ≠ .IN) (hout : t ≠ .OUT) (hsoft : ∀ sid, t ≠ .soft sid) :
    ∃ s'' l, s'.addCell t links = some (s'', l) ∧ Enlarged ins outs s s'' ∧
    Enlarged ins outs s' s'' ∧
      s''.Computes l (fun ρ => gateFunction t (links.map (Link.value ρ))) := by
  obtain ⟨mid, hgrown⟩ := h.grown
  obtain ⟨s'', l, mid', hadd, hgrown', hlink⟩ := hgrown.addGateLink hl hneg hin hout hsoft
  have hstep : Enlarged ins outs s' s'' := ⟨⟨mid', hgrown'⟩, hlink.le, hlink.counts⟩
  exact ⟨s'', l, hadd, h.trans hstep, hstep, hlink.valid, hlink.value⟩

private theorem Enlarged.addGate₂ {f : Bool → Bool → Bool} (h : Enlarged ins outs s s')
    (h₁ : s'.Computes l₁ F₁) (h₂ : s'.Computes l₂ F₂) (hneg : t.isNegative = false) (hin : t ≠ .IN)
    (hout : t ≠ .OUT) (hsoft : ∀ sid, t ≠ .soft sid) (hf : ∀ a b, gateFunction t [a, b] = f a b) :
    ∃ s'' l, s'.addCell t [l₁, l₂] = some (s'', l) ∧ Enlarged ins outs s s'' ∧
    Enlarged ins outs s' s'' ∧
      s''.Computes l (fun ρ => f (F₁ ρ) (F₂ ρ)) := by
  have hl : s'.ValidLinks [l₁, l₂] := validLinks_cons.mpr ⟨h₁.1, h₂.1⟩
  obtain ⟨s'', l, hadd, h', hstep, hlink⟩ := h.addGate hl hneg hin hout hsoft
  refine ⟨s'', l, hadd, h', hstep, hlink.1, fun lib x ρ hρ => ?_⟩
  apply (hlink.2 lib x ρ hρ).trans
  simp only
  rw [map_cons, map_singleton, (h₁.mono hstep).2 lib x ρ hρ,
    (h₂.mono hstep).2 lib x ρ hρ, hf]

theorem Enlarged.addAnd (h : Enlarged ins outs s s') (h₁ : s'.Computes l₁ F₁)
    (h₂ : s'.Computes l₂ F₂) : ∃ s'' l, s'.addCell .AND [l₁, l₂] = some (s'', l) ∧
    Enlarged ins outs s s'' ∧ Enlarged ins outs s' s'' ∧
      s''.Computes l (fun ρ => F₁ ρ && F₂ ρ) :=
  h.addGate₂ h₁ h₂ rfl (by decide) (by decide) (fun _ => by simp)
    (fun a b => by simp [gateFunction, CellTypeID.eval])

theorem Enlarged.addOr (h : Enlarged ins outs s s') (h₁ : s'.Computes l₁ F₁)
    (h₂ : s'.Computes l₂ F₂) : ∃ s'' l, s'.addCell .OR [l₁, l₂] = some (s'', l) ∧
    Enlarged ins outs s s'' ∧ Enlarged ins outs s' s'' ∧
      s''.Computes l (fun ρ => F₁ ρ || F₂ ρ) :=
  h.addGate₂ h₁ h₂ rfl (by decide) (by decide) (fun _ => by simp)
    (fun a b => by simp [gateFunction, CellTypeID.eval])

theorem Enlarged.addXor (h : Enlarged ins outs s s') (h₁ : s'.Computes l₁ F₁)
    (h₂ : s'.Computes l₂ F₂) : ∃ s'' l, s'.addCell .XOR [l₁, l₂] = some (s'', l) ∧
    Enlarged ins outs s s'' ∧ Enlarged ins outs s' s'' ∧
      s''.Computes l (fun ρ => xor (F₁ ρ) (F₂ ρ)) :=
  h.addGate₂ h₁ h₂ rfl (by decide) (by decide) (fun _ => by simp)
    (fun a b => by simp [gateFunction, CellTypeID.eval])

theorem Enlarged.addAnd₃ (h : Enlarged ins outs s s') (h₁ : s'.Computes l₁ F₁)
    (h₂ : s'.Computes l₂ F₂) (h₃ : s'.Computes l₃ F₃) : ∃ s'' l, s'.addCell .AND [l₁, l₂, l₃] =
    some (s'', l) ∧ Enlarged ins outs s s'' ∧ Enlarged ins outs s' s'' ∧
      s''.Computes l (fun ρ => F₁ ρ && (F₂ ρ && F₃ ρ)) := by
  have hl : s'.ValidLinks [l₁, l₂, l₃] :=
    validLinks_cons.mpr ⟨h₁.1, validLinks_cons.mpr ⟨h₂.1, h₃.1⟩⟩
  obtain ⟨s'', l, hadd, h', hstep, hlink⟩ := h.addGate (t := .AND) hl rfl (by decide) (by decide)
    (fun _ => by simp)
  refine ⟨s'', l, hadd, h', hstep, hlink.1, fun lib x ρ hρ => ?_⟩
  apply (hlink.2 lib x ρ hρ).trans
  simp only
  rw [map_cons, map_cons, map_singleton, (h₁.mono hstep).2 lib x ρ hρ,
    (h₂.mono hstep).2 lib x ρ hρ, (h₃.mono hstep).2 lib x ρ hρ]
  simp [gateFunction, CellTypeID.eval]

theorem Enlarged.addConstant (h : Enlarged ins outs s s') (b : Bool) :
    ∃ s'' l, s'.addCell (if b then .ONE else .ZERO) [] = some (s'', l) ∧ Enlarged ins outs s s'' ∧
      Enlarged ins outs s' s'' ∧ s''.Computes l (fun _ => b) := by
  have hl : s'.ValidLinks [] := fun l hlm => by cases hlm
  obtain ⟨s'', l, hadd, h', hstep, hlink⟩ := h.addGate (t := if b then .ONE else .ZERO) hl
    (by cases b <;> rfl) (by cases b <;> simp) (by cases b <;> simp) (fun _ => by cases b <;> simp)
  refine ⟨s'', l, hadd, h', hstep, hlink.congr (fun ρ => ?_)⟩
  cases b <;> rfl

theorem Enlarged.addTreeOfArity {k : ℕ} (h : Enlarged ins outs s s') (hl : s'.ValidLinks links)
    (ht : t.isRegroupable) (hk : 2 ≤ k) : ∃ s'' l, s'.addCellTree t links k = some (s'', l) ∧
    Enlarged ins outs s s'' ∧ Enlarged ins outs s' s'' ∧
      s''.Computes l (fun ρ => gateFunction t (links.map (Link.value ρ))) := by
  obtain ⟨mid, hgrown⟩ := h.grown
  obtain ⟨s'', l, mid', hadd, hgrown', hlink⟩ := hgrown.addCellTree hl ht hk
  have hstep : Enlarged ins outs s' s'' := ⟨⟨mid', hgrown'⟩, hlink.le, hlink.counts⟩
  exact ⟨s'', l, hadd, h.trans hstep, hstep, hlink.valid, hlink.value⟩

theorem Enlarged.addTree (h : Enlarged ins outs s s') (hl : s'.ValidLinks links)
    (ht : t.isRegroupable) : ∃ s'' l, s'.addCellTree t links 2 = some (s'', l) ∧
    Enlarged ins outs s s'' ∧ Enlarged ins outs s' s'' ∧
      s''.Computes l (fun ρ => gateFunction t (links.map (Link.value ρ))) :=
  h.addTreeOfArity hl ht (Nat.le_refl 2)

theorem Enlarged.addTreeOf (h : Enlarged ins outs s s') {k : ℕ}
    {Fs : List ((EntryID → ℕ → Bool) → Bool)} (hl : List.Forall₂ s'.Computes links Fs)
    (ht : t.isRegroupable) (hk : 2 ≤ k) : ∃ s'' l, s'.addCellTree t links k = some (s'', l) ∧
    Enlarged ins outs s s'' ∧ Enlarged ins outs s' s'' ∧
      s''.Computes l (fun ρ => gateFunction t (Fs.map (· ρ))) := by
  have hvalid : s'.ValidLinks links := by
    induction hl with
    | nil => exact fun l hl => absurd hl not_mem_nil
    | cons hc _ ih => exact validLinks_cons.mpr ⟨hc.1, ih⟩
  obtain ⟨s'', l, hadd, h', hstep, hlink⟩ := h.addTreeOfArity hvalid ht hk
  refine ⟨s'', l, hadd, h', hstep, hlink.1, fun lib x ρ hρ => ?_⟩
  have hmap : links.map (Link.value ρ) = Fs.map (· ρ) := by
    clear hvalid hadd hlink
    induction hl with
    | nil => rfl
    | cons hc _ ih => rw [map_cons, map_cons, ih, (hc.mono hstep).2 lib x ρ hρ]
  apply (hlink.2 lib x ρ hρ).trans
  simp only [hmap]

/-! ### Words -/

variable {links' : List Link} {W W' : (EntryID → ℕ → Bool) → ℕ → Bool} {n i k : ℕ}

structure Spells (s : SubnetBuilder) (n : ℕ) (W : (EntryID → ℕ → Bool) → ℕ → Bool)
    (links : List Link) : Prop where
  length : links.length = n
  bits : ∀ i < n, ∃ l, links[i]? = some l ∧ s.Computes l (W · i)

theorem Spells.valid (h : s.Spells n W links) : s.ValidLinks links := by
  apply Computes.valid
  intro l hl
  obtain ⟨i, hi⟩ := mem_iff_getElem?.mp hl
  have hlt : i < n := h.length ▸ (List.getElem?_eq_some_iff.mp hi).1
  obtain ⟨l', hl', hc⟩ := h.bits i hlt
  obtain rfl := Option.some.inj (hi.symm.trans hl')
  exact ⟨_, hc⟩

theorem Spells.mono_le (h : s.Spells n W links) (hs : s.netlist.Le s'.netlist) :
    s'.Spells n W links := by
  refine ⟨h.length, fun i hi => ?_⟩
  obtain ⟨l, hl, hc⟩ := h.bits i hi
  exact ⟨l, hl, hc.mono_le hs⟩

theorem Spells.mono (h : s.Spells n W links) (hs : Enlarged ins outs s s') : s'.Spells n W links :=
  h.mono_le hs.le

theorem Spells.congr (h : s.Spells n W links) (hW : ∀ ρ, ∀ i < n, W ρ i = W' ρ i) :
    s.Spells n W' links := by
  refine ⟨h.length, fun i hi => ?_⟩
  obtain ⟨l, hl, hc⟩ := h.bits i hi
  exact ⟨l, hl, hc.congr (fun ρ => hW ρ i hi)⟩

theorem Spells.nil : s.Spells 0 W [] := ⟨rfl, fun i hi => absurd hi (Nat.not_lt_zero i)⟩

theorem Spells.cons (hl : s.Computes l F) (h : s.Spells n W links) :
    s.Spells (n + 1) (fun ρ i => if i = 0 then F ρ else W ρ (i - 1)) (l :: links) := by
  refine ⟨by rw [length_cons, h.length], fun i hi => ?_⟩
  cases i with
  | zero => exact ⟨l, rfl, hl⟩
  | succ i =>
    obtain ⟨l', hl', hc⟩ := h.bits i (Nat.lt_of_succ_lt_succ hi)
    exact ⟨l', by rw [getElem?_cons_succ, hl'], hc⟩

theorem Spells.append (h : s.Spells n W links) (h' : s.Spells k W' links') :
    s.Spells (n + k) (fun ρ i => if i < n then W ρ i else W' ρ (i - n)) (links ++ links') := by
  refine ⟨by rw [length_append, h.length, h'.length], fun i hi => ?_⟩
  by_cases hlt : i < n
  · obtain ⟨l, hl, hc⟩ := h.bits i hlt
    refine ⟨l, by rw [getElem?_append_left (h.length ▸ hlt), hl], hc.congr (fun ρ => ?_)⟩
    rw [if_pos hlt]
  · obtain ⟨l, hl, hc⟩ := h'.bits (i - n) (by omega)
    refine ⟨l, by rw [getElem?_append_right (h.length ▸ Nat.not_lt.mp hlt), h.length, hl],
      hc.congr (fun ρ => ?_)⟩
    rw [if_neg hlt]

theorem Spells.replicate (hl : s.Computes l F) : s.Spells n (fun ρ _ => F ρ) (.replicate n l) := by
  refine ⟨length_replicate, fun i hi => ?_⟩
  exact ⟨l, getElem?_replicate_of_lt hi, hl⟩

theorem Spells.take (h : s.Spells n W links) (hk : k ≤ n) : s.Spells k W (links.take k) := by
  refine ⟨by rw [length_take, h.length, Nat.min_eq_left hk], fun i hi => ?_⟩
  obtain ⟨l, hl, hc⟩ := h.bits i (Nat.lt_of_lt_of_le hi hk)
  exact ⟨l, by rw [getElem?_take_of_lt hi, hl], hc⟩

theorem Spells.drop (h : s.Spells n W links) (k : ℕ) :
    s.Spells (n - k) (fun ρ i => W ρ (k + i)) (links.drop k) := by
  refine ⟨by rw [length_drop, h.length], fun i hi => ?_⟩
  obtain ⟨l, hl, hc⟩ := h.bits (k + i) (by omega)
  exact ⟨l, by rw [getElem?_drop, hl], hc⟩

theorem Spells.not (h : s.Spells n W links) :
    s.Spells n (fun ρ i => !W ρ i) (links.map Link.not) := by
  refine ⟨by rw [length_map, h.length], fun i hi => ?_⟩
  obtain ⟨l, hl, hc⟩ := h.bits i hi
  exact ⟨l.not, by rw [getElem?_map, hl, Option.map_some], hc.not⟩

theorem Spells.getLast (h : s.Spells n W links) (hn : 0 < n) :
    ∃ l, links.getLast? = some l ∧ s.Computes l (W · (n - 1)) := by
  obtain ⟨l, hl, hc⟩ := h.bits (n - 1) (Nat.sub_lt hn Nat.one_pos)
  refine ⟨l, ?_, hc⟩
  rw [getLast?_eq_getElem?, h.length, hl]

theorem Spells.set (h : s.Spells n W links) (hl : s.Computes l F) :
    s.Spells n (fun ρ i => if i = k then F ρ else W ρ i) (links.set k l) := by
  refine ⟨by rw [length_set, h.length], fun i hi => ?_⟩
  by_cases hik : i = k
  · subst hik
    refine ⟨l, getElem?_set_self (h.length ▸ hi), hl.congr (fun ρ => ?_)⟩
    rw [if_pos rfl]
  · obtain ⟨l', hl', hc⟩ := h.bits i hi
    refine ⟨l', by rw [getElem?_set_ne (Ne.symm hik), hl'], hc.congr (fun ρ => ?_)⟩
    rw [if_neg hik]

theorem Spells.singleton (hl : s.Computes l F) : s.Spells 1 (fun ρ _ => F ρ) [l] :=
  Spells.replicate (n := 1) hl

theorem Spells.values (h : s.Spells n W links) {lib : CellLibrary} {x : ℕ → Bool}
    {ρ : EntryID → ℕ → Bool} (hρ : s.netlist.Solves lib x ρ) : links.map (Link.value ρ) =
    (range n).map (W ρ) := by
  apply ext_getElem?
  intro i
  rw [getElem?_map, getElem?_map]
  by_cases hi : i < n
  · obtain ⟨l, hl, hc⟩ := h.bits i hi
    rw [hl, getElem?_range hi, Option.map_some, Option.map_some, hc.2 lib x ρ hρ]
  · rw [getElem?_eq_none (by rw [h.length]; omega), getElem?_eq_none (by rw [length_range]; omega)]
    rfl

theorem Enlarged.addOrTree (h : Enlarged ins outs s s') (hl : s'.Spells n W links) :
    ∃ s'' l, s'.addCellTree .OR links 2 = some (s'', l) ∧ Enlarged ins outs s s'' ∧
    Enlarged ins outs s' s'' ∧
      s''.Computes l (fun ρ => decide (∃ i < n, W ρ i = true)) := by
  obtain ⟨s'', l, hadd, h', hstep, hlink⟩ := h.addTree (t := .OR) hl.valid rfl
  refine ⟨s'', l, hadd, h', hstep, hlink.1, fun lib x ρ hρ => ?_⟩
  apply (hlink.2 lib x ρ hρ).trans
  simp only [(hl.mono hstep).values hρ]
  rw [Bool.eq_iff_iff, decide_eq_true_iff]
  simp [gateFunction, CellTypeID.eval]

theorem Enlarged.addAndTree (h : Enlarged ins outs s s') (hl : s'.Spells n W links) :
    ∃ s'' l, s'.addCellTree .AND links 2 = some (s'', l) ∧ Enlarged ins outs s s'' ∧
    Enlarged ins outs s' s'' ∧
      s''.Computes l (fun ρ => decide (∀ i < n, W ρ i = true)) := by
  obtain ⟨s'', l, hadd, h', hstep, hlink⟩ := h.addTree (t := .AND) hl.valid rfl
  refine ⟨s'', l, hadd, h', hstep, hlink.1, fun lib x ρ hρ => ?_⟩
  apply (hlink.2 lib x ρ hρ).trans
  simp only [(hl.mono hstep).values hρ]
  rw [Bool.eq_iff_iff, decide_eq_true_iff]
  simp [gateFunction, CellTypeID.eval]

end UtopiaEda.SubnetBuilder
