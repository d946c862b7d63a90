import UtopiaEda.GateAddition
import UtopiaEda.SubnetCopying

/-!
# Translating subnets

Several passes rebuild a network cell by cell and keep, for every visited cell, the links of the new
builder that stand for its outputs. The inputs come first, so they keep their entries, and one
assignment serves both networks.
-/
namespace UtopiaEda
open List

def Subnet.HasLink (S : Subnet) (l : Link) : Prop := ∃ i c, S.getCell i = some c ∧ l ∈ c.links

namespace SubnetBuilder
open Subnet

variable {lib : CellLibrary} {S : Subnet} {s s' : SubnetBuilder} {l l' k : Link} {P : Gate → Prop}
  {f f' : Link → Option Link} {done done' : EntryID → Prop}
  {ins mid outs ins' mid' outs' : List EntryID} {c : SubnetCell} {i : EntryID}

structure Implements (lib : CellLibrary) (S : Subnet) (s : SubnetBuilder) : Prop where
  inputs : s.inputIDs.length = S.nIn
  outputs : s.outputIDs.length = S.nOut
  values : ∀ x y, (∀ (i : ℕ) j, s.inputIDs[i]? = some j → y j = x i) → ∀ (k : ℕ) j,
    s.outputIDs[k]? = some j → ∃ b, s.value lib y j 0 = some b ∧ S.value lib x (S.getOutIdx k) 0 =
    some b

structure Translated (lib : CellLibrary) (S : Subnet) (s : SubnetBuilder) (l l' : Link) : Prop where
  valid : s.ValidLinks [l']
  value : ∀ x ρ σ, s.netlist.Solves lib x ρ → S.netlist.Solves lib x σ → l'.value ρ = l.value σ

theorem Translated.mono (h : Translated lib S s l l') (hle : s.netlist.Le s'.netlist) :
    Translated lib S s' l l' :=
  ⟨h.valid.mono hle, fun x ρ σ hρ hσ => h.value x ρ σ (Solves.mono hρ hle) hσ⟩

theorem Translated.invert (h : Translated lib S s ⟨l.idx, l.out, false⟩ k) :
    Translated lib S s l ⟨k.idx, k.out, k.inv != l.inv⟩ := by
  constructor
  · intro m hm
    rw [mem_singleton.mp hm]
    exact h.valid k (mem_singleton_self k)
  · intro x ρ σ hρ hσ
    have hval := h.value x ρ σ hρ hσ
    rw [Link.value, Link.value, Bool.xor_false] at hval
    rw [Link.value, Link.value, ← hval, Bool.xor_assoc]

theorem validLinks_of_translated {ls ls' : List Link}
    (h : List.Forall₂ (Translated lib S s) ls ls') : s.ValidLinks ls' := by
  induction h with
  | nil =>
    intro m hm
    cases hm
  | cons hl _ ih => exact validLinks_cons.mpr ⟨hl.valid, ih⟩

theorem values_of_translated {ls ls' : List Link} (h : List.Forall₂ (Translated lib S s) ls ls')
    {x : EntryID → Bool} {ρ σ : EntryID → ℕ → Bool} (hρ : s.netlist.Solves lib x ρ)
    (hσ : S.netlist.Solves lib x σ) : ls'.map (Link.value ρ) = ls.map (Link.value σ) := by
  induction h with
  | nil => rfl
  | cons hl _ ih => rw [map_cons, map_cons, ih, hl.value x ρ σ hρ hσ]

structure Translation (lib : CellLibrary) (S : Subnet) (P : Gate → Prop) (f : Link → Option Link)
    (done : EntryID → Prop) (s : SubnetBuilder) (ins mid outs : List EntryID) : Prop where
  grown : Grown s ins mid outs
  carried : ∀ l, S.HasLink l → done l.idx →
    ∃ k, f ⟨l.idx, l.out, false⟩ = some k ∧ Translated lib S s ⟨l.idx, l.out, false⟩ k
  outs : ∀ (k : ℕ) o, outs[k]? = some o → ∀ x ρ σ, s.netlist.Solves lib x ρ →
    S.netlist.Solves lib x σ → ρ o 0 = σ (S.getOutIdx k) 0
  gates : ∀ i g, s.netlist i = some g → g.type = .IN ∨ g.type = .OUT ∨ P g

theorem Translation.init (hdone : ∀ i, ¬ done i) : Translation lib S P f done {} [] [] [] := by
  refine ⟨.init, fun l _ h => absurd h (hdone l.idx), fun k o h => ?_, fun i g hg => ?_⟩
  · cases h
  · simp [SubnetBuilder.netlist, SubnetBuilder.liveCell, SubnetBuilder.getCell,
      SubnetBuilder.size] at hg

theorem Translation.visit (h : Translation lib S P f done s ins mid outs)
    (hgrown : Grown s' ins' mid' outs) (hle : s.netlist.Le s'.netlist)
    (hgates : ∀ i g, s'.netlist i = some g → s.netlist i = some g ∨ g.type = .IN ∨ P g)
    (hdone : ∀ j, done' j → done j ∨ j = i)
    (hkeep : ∀ l, S.HasLink l → done l.idx → f' ⟨l.idx, l.out, false⟩ = f ⟨l.idx, l.out, false⟩)
    (hnew : ∀ l, S.HasLink l → l.idx = i → ∃ k, f' ⟨l.idx, l.out, false⟩ = some k ∧
      Translated lib S s' ⟨l.idx, l.out, false⟩ k) :
    Translation lib S P f' done' s' ins' mid' outs := by
  refine ⟨hgrown, fun l hl hd => ?_,
    fun k o ho x ρ σ hρ hσ => h.outs k o ho x ρ σ (Solves.mono hρ hle) hσ,
    fun i g hg => ?_⟩
  · by_cases hold : done l.idx
    · obtain ⟨k, hk, ht⟩ := h.carried l hl hold
      exact ⟨k, (hkeep l hl hold).trans hk, ht.mono hle⟩
    · exact hnew l hl ((hdone l.idx hd).resolve_left hold)
  · rcases hgates i g hg with hg | hg | hg
    · exact h.gates i g hg
    · exact .inl hg
    · exact .inr (.inr hg)

theorem Translation.visitInput (h : Translation lib S P f done s ins [] [])
    (hc : S.getCell i = some c) (ht : c.type = .IN) (hsize : s.size = i) (hdone : ∀ j, done' j →
    done j ∨ j = i) (hkeep : ∀ l, S.HasLink l → done l.idx →
    f' ⟨l.idx, l.out, false⟩ = f ⟨l.idx, l.out, false⟩) (hnew : ∀ l, S.HasLink l → l.idx = i →
    f' ⟨l.idx, l.out, false⟩ = some ⟨i, 0, false⟩) : ∃ s', s.addInput = some (s', ⟨i, 0, false⟩) ∧
    s'.size = i + 1 ∧
      Translation lib S P f' done' s' (ins ++ [i]) [] [] := by
  obtain ⟨s', hadd, hgrown, happ⟩ := h.grown.addInput
  rw [hsize] at hadd hgrown
  have hsize' : s'.size = i + 1 := by rw [happ.size_of_le (Nat.zero_le _), hsize]
  refine ⟨s', hadd, hsize', h.visit hgrown happ.le (fun j g hg => ?_) hdone hkeep
    (fun l hl hli => ⟨_, hnew l hl hli, ?_, fun x ρ σ hρ hσ => ?_⟩)⟩
  · rw [happ.netlist] at hg
    by_cases hj : j = s.size
    · rw [hj, Function.update_self] at hg
      rw [← Option.some.inj hg]
      exact .inr (.inl rfl)
    · rw [Function.update_of_ne hj] at hg
      exact .inl hg
  · apply validLinks_of_netlist
    intro m hm
    rw [mem_singleton.mp hm, ← hsize]
    exact ⟨_, happ.here, by simp⟩
  · have hg : S.netlist i = some ⟨c.type, c.links⟩ := by rw [Subnet.netlist, hc, Option.map_some]
    have hnew := happ.here
    rw [hsize] at hnew
    rw [Link.value, Link.value, hρ i _ hnew, hli, hσ i _ hg, Netlist.gateValue, Netlist.gateValue,
      if_pos rfl, if_pos ht]

theorem Translation.visitOutput (h : Translation lib S P f done s ins mid outs)
    (hk : S.getOutIdx outs.length = i) (hc : S.getCell i = some c) (ht : c.type = .OUT)
    (hl : c.links = [l]) (hl' : Translated lib S s l l') (hdone : ∀ j, done' j → done j ∨ j = i)
    (hkeep : ∀ l, S.HasLink l → done l.idx → f' ⟨l.idx, l.out, false⟩ = f ⟨l.idx, l.out, false⟩)
    (hnone : ∀ l, S.HasLink l → l.idx ≠ i) :
    ∃ s' o, s.addOutput l' = some (s', o) ∧
      Translation lib S P f' done' s' ins mid (outs ++ [s.size]) := by
  obtain ⟨s', hadd, hgrown, happ⟩ := h.grown.addOutput hl'.valid
  have hle := happ.le
  refine ⟨s', _, hadd, hgrown, fun m hm hd => ?_, fun n o ho x ρ σ hρ hσ => ?_, fun j g hg => ?_⟩
  · obtain ⟨k, hk, htr⟩ := h.carried m hm ((hdone m.idx hd).resolve_right (hnone m hm))
    exact ⟨k, (hkeep m hm ((hdone m.idx hd).resolve_right (hnone m hm))).trans hk, htr.mono hle⟩
  · by_cases hn : n < outs.length
    · rw [getElem?_append_left hn] at ho
      exact h.outs n o ho x ρ σ (Solves.mono hρ hle) hσ
    · have hlt := (List.getElem?_eq_some_iff.mp ho).1
      rw [length_append, length_singleton] at hlt
      obtain rfl : n = outs.length := Nat.le_antisymm (Nat.le_of_lt_succ hlt) (Nat.not_lt.mp hn)
      rw [getElem?_concat_length] at ho
      have hg : S.netlist i = some ⟨c.type, c.links⟩ := by rw [Subnet.netlist, hc, Option.map_some]
      rw [← Option.some.inj ho, hρ _ _ happ.here, hk, hσ i _ hg, Netlist.gateValue,
        Netlist.gateValue, ht, if_neg (fun h => by cases h), if_neg (fun h => by cases h), hl]
      exact hl'.value x ρ σ (Solves.mono hρ hle) hσ
  · rw [happ.netlist] at hg
    by_cases hj : j = s.size
    · rw [hj, Function.update_self] at hg
      rw [← Option.some.inj hg]
      exact .inr (.inl rfl)
    · rw [Function.update_of_ne hj] at hg
      exact h.gates j g hg

theorem Grown.exists_values (h : Grown s ins mid outs) (lib : CellLibrary) (x : EntryID → Bool) :
    ∃ ρ, s.netlist.Solves lib x ρ ∧ ∀ i, (s.netlist i).isSome → ∀ out, s.value lib x i out =
    some (ρ i out) := by
  have hacyclic : s.netlist.Acyclic := ⟨s.order.depthOf, fun _ _ hij => h.depth_lt hij⟩
  obtain ⟨ρ, hρ⟩ := hacyclic.exists_solves lib x
  refine ⟨ρ, hρ, fun i hi out => Netlist.value_eq hacyclic (fun i j hij => h.net.closed' i j hij)
    (fun j hj => ?_) hρ hi out⟩
  obtain ⟨g, hg⟩ := Option.isSome_iff_exists.mp hj
  exact lt_of_netlist hg

/-- The builder at the end implements the subnet. -/
theorem Translation.implements (h : Translation lib S P f done s (range S.nIn) mid outs)
    (hS : S.WellFormed) (hlen : outs.length = S.nOut) : Implements lib S s := by
  have hins := h.grown.inputIDs_eq
  have houts := h.grown.outputIDs_eq
  refine ⟨by rw [hins, length_range], by rw [houts, hlen], fun x y hxy k o ho => ?_⟩
  rw [houts] at ho
  have hk : k < S.nOut := hlen ▸ (List.getElem?_eq_some_iff.mp ho).1
  have hb := hS.bounds
  obtain ⟨ρ, hρ, hval⟩ := h.grown.exists_values lib y
  obtain ⟨σ, hσ, hvalS⟩ := hS.exists_values lib x
  have hσ' : S.netlist.Solves lib y σ := by
    apply Netlist.Solves.congr_inputs _ hσ
    intro i g hg ht
    obtain ⟨c, hc, rfl⟩ := Option.map_eq_some_iff.mp hg
    refine (hxy i i ?_).symm
    rw [hins]
    exact getElem?_range ((hS.input i c hc).mp ht)
  obtain ⟨c, hc⟩ := Option.isSome_iff_exists.mp
    (hS.ends (S.getOutIdx k) (.inr (Nat.le_add_right _ _)) (by rw [Subnet.getOutIdx]; omega))
  have hlive : (s.netlist o).isSome := (h.grown.mem o).mp
    (mem_append_right _ (mem_of_getElem? ho))
  exact ⟨ρ o 0, hval o hlive 0, by rw [hvalS _ c hc, h.outs k o ho y ρ σ hρ hσ']⟩

end SubnetBuilder

end UtopiaEda
