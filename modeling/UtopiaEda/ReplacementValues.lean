import UtopiaEda.FanoutLists
import UtopiaEda.BuilderValues
import Mathlib.Tactic.IntervalCases

/-!
# What a replacement computes

The cells that `replace` adds have the values of the cells of the subnet, so the root keeps its
value, and with it all other cells do.
-/
namespace UtopiaEda
open Option (some.inj)

def CellTypeID.SingleOutput (lib : CellLibrary) (t : CellTypeID) : Prop :=
  ∀ xs out, t.eval lib xs out = t.eval lib xs 0

theorem CellTypeID.singleOutput_of_standard {lib : CellLibrary} {t : CellTypeID}
    (h : ∀ sid, t ≠ .soft sid) : t.SingleOutput lib := by
  intro xs out
  cases t with
  | soft sid => exact absurd rfl (h sid)
  | _ => rfl

namespace SubnetBuilder

variable {lib : CellLibrary} {s s' : SubnetBuilder} {rhs : Subnet} {iomapping : InOutMapping}
  {root i : EntryID} {leaf : EntryID → EntryID} {st : Replacing} {x y : EntryID → Bool}
  {ρ σ : EntryID → ℕ → Bool} {g : Gate}

private theorem port_eq {j : EntryID} {c : SubnetCell} (hwf : rhs.WellFormed)
    (hc : rhs.getCell j = some c) {l : Link} (hl : l ∈ c.links) : rhs.nIn ≤ l.idx ∨ l.out = 0 := by
  obtain ⟨-, c', hc', -⟩ := hwf.links j c hc l hl
  by_cases hle : rhs.nIn ≤ l.idx
  · exact .inl hle
  · rcases hwf.port j c hc l hl c' hc' with h0 | ⟨sid, hsoft⟩
    · exact .inr h0
    · rw [(hwf.input l.idx c' hc').mpr (Nat.not_le.mp hle)] at hsoft
      cases hsoft

private theorem map_value_of_values {f : EntryID → EntryID} {j : EntryID} {c : SubnetCell}
    (hwf : rhs.WellFormed) (hc : rhs.getCell j = some c) (h : ∀ k < j, ∀ c, rhs.getCell k = some c →
    ∀ out, (rhs.nIn ≤ k ∨ out = 0) → ρ (f k) out = σ k out) :
    (c.links.map (fun l => { l with idx := f l.idx })).map (Link.value ρ) =
    c.links.map (Link.value σ) := by
  rw [List.map_map]
  refine List.map_congr_left (fun l hl => ?_)
  obtain ⟨hlt, c', hc', -⟩ := hwf.links j c hc l hl
  change xor (ρ (f l.idx) l.out) l.inv = xor (σ l.idx l.out) l.inv
  rw [h l.idx hlt c' hc' l.out (port_eq hwf hc hl)]

theorem Mapped.values (h : Mapped s rhs root leaf i st) (hwf : rhs.WellFormed)
    (hρ : st.builder.netlist.Solves lib x ρ)
    (hσ : rhs.netlist.Solves lib (fun k => ρ (leaf k) 0) σ) : ∀ j < i, ∀ c, rhs.getCell j = some c →
      ∀ out, (rhs.nIn ≤ j ∨ out = 0) → ρ (st.rhsToLhs j) out = σ j out := by
  intro j
  induction j using Nat.strong_induction_on with
  | _ j ih =>
    intro hj c hc out hport
    have hgate : rhs.netlist j = some ⟨c.type, c.links⟩ := by
      rw [Subnet.netlist, hc]
      rfl
    by_cases hin : rhs.nIn ≤ j
    · obtain ⟨ls, hls, hkey⟩ := h.gate j hj hin c hc
      have ht : c.type ≠ .IN := fun heq => Nat.not_lt.mpr hin ((hwf.input j c hc).mp heq)
      have hlinks : (st.mapLinks c.links).map (Link.value ρ) = c.links.map (Link.value σ) :=
        map_value_of_values hwf hc (fun k hk => ih k hk (Nat.lt_trans hk hj))
      rw [hρ _ _ hls, hσ _ _ hgate, Netlist.gateValue, Netlist.gateValue, if_neg ht, if_neg ht,
        StrashKey.eval_eq hkey ρ out, hlinks]
    · have hlt := Nat.not_le.mp hin
      obtain rfl := hport.resolve_left hin
      rw [hσ _ _ hgate, Netlist.gateValue, if_pos ((hwf.input j c hc).mpr hlt), h.input j hlt]

def Equals (lib : CellLibrary) (s : SubnetBuilder) (rhs : Subnet) (iomapping : InOutMapping)
    (root : EntryID) : Prop :=
  ∀ x ρ σ, s.netlist.Solves lib x ρ → rhs.netlist.Solves lib (fun k => ρ (leafOf iomapping k) 0) σ →
  σ (rhs.size - 1) 0 = ρ root 0

theorem NewRoot.eval_eq {out : Link} {t : CellTypeID} {links : List Link}
    (hnew : NewRoot rhs out st i t links) (h : Mapped s rhs root leaf i st)
    (hfit : Fits s rhs iomapping root) (hout : rhs.getLink (rhs.size - 1) 0 = some out)
    (hsingle : ∀ j c, rhs.getCell j = some c → c.type.SingleOutput lib)
    (hρ : st.builder.netlist.Solves lib x ρ)
    (hσ : rhs.netlist.Solves lib (fun k => ρ (leaf k) 0) σ) :
    t ≠ .IN ∧ ∀ port, t.eval lib (links.map (Link.value ρ)) port = σ (rhs.size - 1) 0 := by
  have hwf := hfit.wellFormed
  obtain ⟨a, ha, hlink⟩ := Option.bind_eq_some_iff.mp hout
  have hlt := hfit.nIn_lt
  have hat : a.type = .OUT := (hwf.output _ a ha).mpr (by rw [hfit.outputs])
  have hlinks : a.links = [out] := by
    obtain ⟨l, hl⟩ := List.length_eq_one_iff.mp (hwf.outLink _ a ha hat)
    rw [hl] at hlink ⊢
    exact congrArg (fun l => [l]) (some.inj hlink)
  have hmem : out ∈ a.links := hlinks ▸ List.mem_singleton_self out
  have hvalue : σ (rhs.size - 1) 0 = out.value σ := by
    have hgate : rhs.netlist (rhs.size - 1) = some ⟨.OUT, [out]⟩ := by
      rw [Subnet.netlist, ha, ← hat, ← hlinks]
      rfl
    rw [hσ _ _ hgate]
    rfl
  rw [hvalue]
  cases hnew with
  | driver c hc hle hinv =>
    have ht : c.type ≠ .IN := fun heq => Nat.not_lt.mpr hle ((hwf.input _ c hc).mp heq)
    have hgate : rhs.netlist out.idx = some ⟨c.type, c.links⟩ := by
      rw [Subnet.netlist, hc]
      rfl
    refine ⟨ht, fun port => ?_⟩
    have hlinks : (st.mapLinks c.links).map (Link.value ρ) = c.links.map (Link.value σ) :=
      map_value_of_values hwf hc (h.values hwf hρ hσ)
    rw [hlinks, Link.value, hinv, Bool.xor_false, hσ _ _ hgate, Netlist.gateValue, if_neg ht,
      hsingle _ c hc _ port, hsingle _ c hc _ out.out]
  | buf _ =>
    obtain ⟨hidx, c, hc, -⟩ := hwf.links _ a ha out hmem
    refine ⟨by decide, fun port => ?_⟩
    change xor (ρ (st.rhsToLhs out.idx) out.out) out.inv = xor (σ out.idx out.out) out.inv
    rw [h.values hwf hρ hσ out.idx hidx c hc out.out (port_eq hwf ha hmem)]

/-- Solutions of the network with the new root: only the other ports of the root may change. -/
theorem Replaced.solves {b : SubnetBuilder} {t : CellTypeID} {links : List Link}
    {D : Finset EntryID} (h : Replaced b s' root t links D) (hρ : b.netlist.Solves lib x ρ)
    (ht : t ≠ .IN) (hvalue : ∀ port, t.eval lib (links.map (Link.value ρ)) port = ρ root port) :
    s'.netlist.Solves lib x ρ := by
  intro i g' hg'
  rw [h.netlist] at hg'
  split at hg'
  · rename_i hi
    rw [Option.some.injEq] at hg'
    rw [← hg', hi]
    funext port
    rw [Netlist.gateValue, if_neg ht, hvalue]
  · split at hg'
    · cases hg'
    · exact hρ i g' hg'

theorem NetOk.replace_value (h : NetOk s) (hfit : Fits s rhs iomapping root)
    (hok : ReplaceOk s rhs root) (hroot : s.netlist root = some g)
    (hout : g.type ≠ .OUT) (hg : g.type.SingleOutput lib) (hsingle : ∀ j c, rhs.getCell j = some c →
    c.type.SingleOutput lib)
    (heq : Equals lib s rhs iomapping root) (hr : s.replace rhs iomapping = some s') :
    (∀ o g', s.netlist o = some g' → g'.type = .OUT → s'.netlist o = some g') ∧
      ∀ x i port, (s.netlist i).isSome → (s'.netlist i).isSome → s'.value lib x i port =
      s.value lib x i port := by
  obtain ⟨c, hc, hct, -⟩ := liveCell_of_netlist hroot
  have hcout : c.isOut = false := by
    rw [SubnetCell.isOut, hct]
    exact decide_eq_false hout
  obtain ⟨out, st, i, t, links, hlink, hmapped, hnew, hreplaced⟩ :=
    of_replace h.net h.acyclic hfit hok.unhashed hc (hok.last c hc) hr
  rw [hcout] at hlink
  have h' : NetOk s' := h.replace hfit hok hr
  obtain ⟨D, hD⟩ := hreplaced.replaced
  have hold := hmapped.old
  refine ⟨fun o g' ho ht => ?_, fun x i port hi hi' => ?_⟩
  · -- no cell links to an output, so it is not among the deleted cells
    have hne : o ≠ root := by
      rintro rfl
      rw [hroot, Option.some.injEq] at ho
      exact hout (ho ▸ ht)
    rw [hD.netlist, if_neg hne, if_neg, hold o g' ho]
    intro hmem
    obtain ⟨-, hreach⟩ := hD.fanin o hmem
    rcases Relation.ReflTransGen.cases_tail hreach with heq' | ⟨p, -, hp⟩
    · exact hne heq'
    · obtain ⟨g₁, hg₁, l, hl, rfl⟩ := hp
      obtain ⟨a, ha, -, hal⟩ := liveCell_of_netlist hg₁
      obtain ⟨b, hb, hbt⟩ := hmapped.net.target p l.idx (by
        rw [targets_of_live ha, hal]
        exact List.mem_map_of_mem hl)
      have hgo := netlist_of_live hb
      rw [hold l.idx g' ho, Option.some.injEq] at hgo
      exact hbt (by rw [← ht, hgo])
  · obtain ⟨ρ, hρ⟩ := hmapped.acyclic.exists_solves lib x
    have hρs : s.netlist.Solves lib x ρ := Solves.of_sub hρ hold
    obtain ⟨σ, hσ, -⟩ := hfit.wellFormed.exists_values lib (fun k => ρ (leafOf iomapping k) 0)
    obtain ⟨ht, hvalue⟩ := hnew.eval_eq hmapped hfit hlink hsingle hρ hσ
    have hport : ∀ port, ρ root port = ρ root 0 := by
      intro port
      rw [hρs root g hroot, Netlist.gateValue, Netlist.gateValue]
      split
      · rfl
      · exact hg _ port
    have hρ' : s'.netlist.Solves lib x ρ := by
      refine hD.solves hρ ht (fun port => ?_)
      rw [hvalue port, heq x ρ σ hρs hσ, hport port]
    rw [h'.value_eq hρ' hi', h.value_eq hρs hi]

/-- The outputs stay, with their links and functions. -/
def KeepsOutputs (lib : CellLibrary) (s s' : SubnetBuilder) : Prop :=
  ∀ o g, s.netlist o = some g → g.type = .OUT → s'.netlist o = some g ∧ ∀ x, s'.value lib x o 0 =
    s.value lib x o 0

/-- The arguments of a replacement that has to keep the functions of the outputs. -/
structure EqualReplacement (lib : CellLibrary) (s : SubnetBuilder) (rhs : Subnet)
    (iomapping : InOutMapping)
    (root : EntryID) : Prop where
  fits : Fits s rhs iomapping root
  inner : ∀ g, s.netlist root = some g → g.type ≠ .OUT
  single : ∀ g, s.netlist root = some g → g.type.SingleOutput lib
  singles : ∀ j c, rhs.getCell j = some c → c.type.SingleOutput lib
  equals : Equals lib s rhs iomapping root

theorem NetOk.keepsOutputs (h : NetOk s) (hrep : EqualReplacement lib s rhs iomapping root)
    (hok : ReplaceOk s rhs root) (hr : s.replace rhs iomapping = some s') :
    KeepsOutputs lib s s' := by
  intro o g' ho ht
  obtain ⟨g, hg⟩ := Option.isSome_iff_exists.mp hrep.fits.live
  obtain ⟨hkept, hvalue⟩ := h.replace_value hrep.fits hok hg (hrep.inner g hg)
    (hrep.single g hg) hrep.singles hrep.equals hr
  exact ⟨hkept o g' ho ht, fun x => hvalue x o 0 (by rw [ho]; rfl) (by rw [hkept o g' ho ht]; rfl)⟩

/-- In a run that keeps to the conditions, replacements keep the outputs. -/
theorem keepsOutputs_of_run (hs : Run lib (fun s op => Valid lib s op ∧ KeepsFanouts s op) s)
    (hrep : EqualReplacement lib s rhs iomapping root) (hok : ReplaceOk s rhs root)
    (hr : s.replace rhs iomapping = some s') :
    KeepsOutputs lib s s' := by
  have h : NetOk s := hs.invariant .init (fun _ _ _ h hop => h.apply hop.1 hop.2)
  exact h.keepsOutputs hrep hok hr

private def deMorgan : Subnet := ⟨2, 1, 4, 0, [.cell ⟨.IN, [], 1⟩, .cell ⟨.IN, [], 1⟩,
  .cell ⟨.OR, [⟨0, 0, true⟩, ⟨1, 0, true⟩], 1⟩, .cell ⟨.OUT, [⟨2, 0, true⟩], 0⟩]⟩

private def mapping : InOutMapping := ⟨[⟨0, 0, false⟩, ⟨1, 0, false⟩], [⟨2, 0, false⟩]⟩

private theorem deMorgan_replacement (hcheck : s.check .empty (.replace deMorgan mapping) = true)
    (hroot : s.netlist 2 = some ⟨.AND, [⟨0, 0, false⟩, ⟨1, 0, false⟩]⟩) :
    EqualReplacement .empty s deMorgan mapping 2 := by
  obtain ⟨root, hfit⟩ : ∃ root, Fits s deMorgan mapping root := valid_of_check hcheck
  obtain rfl : 2 = root := (List.cons.inj hfit.target).1
  refine ⟨hfit, fun g hg => ?_, fun g hg => ?_, fun j c hc => ?_, fun x ρ σ hρ hσ => ?_⟩
  · rw [← some.inj (hroot.symm.trans hg)]
    decide
  · rw [← some.inj (hroot.symm.trans hg)]
    exact CellTypeID.singleOutput_of_standard (fun sid h => by cases h)
  · have hlt : j < 4 := Subnet.lt_of_getCell hc
    interval_cases j <;> change some _ = some c at hc <;> cases hc <;>
      exact CellTypeID.singleOutput_of_standard (fun sid h => by cases h)
  · have h₀ := congrFun (hσ 0 ⟨.IN, []⟩ rfl) 0
    have h₁ := congrFun (hσ 1 ⟨.IN, []⟩ rfl) 0
    have h₂ := congrFun (hσ 2 ⟨.OR, [⟨0, 0, true⟩, ⟨1, 0, true⟩]⟩ rfl) 0
    have h₃ := congrFun (hσ 3 ⟨.OUT, [⟨2, 0, true⟩]⟩ rfl) 0
    change σ 0 0 = ρ 0 0 at h₀
    change σ 1 0 = ρ 1 0 at h₁
    change σ 2 0 = (xor (σ 0 0) true || (xor (σ 1 0) true || false)) at h₂
    change σ 3 0 = xor (σ 2 0) true at h₃
    have hand := congrFun (hρ 2 _ hroot) 0
    change ρ 2 0 = (xor (ρ 0 0) false && (xor (ρ 1 0) false && true)) at hand
    change σ 3 0 = ρ 2 0
    rw [h₃, h₂, h₁, h₀, hand]
    cases ρ 0 0 <;> cases ρ 1 0 <;> rfl

/-- A conjunction is replaced by the negation of a disjunction. -/
theorem keepsOutputs_deMorgan : ∃ s s', s.replace deMorgan mapping = some s' ∧ s.netlist 3 = some
    ⟨.OUT, [⟨2, 0, false⟩]⟩ ∧
    KeepsOutputs .empty s s' := by
  have h₀ : Run .empty (fun s op => Valid .empty s op ∧ KeepsFanouts s op) {} := .init
  have h₁ := h₀.next .addInput ⟨trivial, trivial⟩ rfl
  have h₂ := h₁.next .addInput ⟨trivial, trivial⟩ rfl
  have h₃ := h₂.next (.addCell .AND [⟨0, 0, false⟩, ⟨1, 0, false⟩])
    ⟨validLinks_of_check (by decide), trivial⟩ rfl
  have h₄ := h₃.next (.addOutput ⟨2, 0, false⟩) ⟨validLinks_of_check (by decide), trivial⟩ rfl
  have hok : ∀ s, ReplaceOk s deMorgan 2 :=
    fun s => ⟨.inl (by decide), fun c _ _ l hl => .inl (by cases hl; rfl)⟩
  exact ⟨_, _, rfl, rfl, keepsOutputs_of_run h₄ (deMorgan_replacement (by decide) rfl) (hok _) rfl⟩

/-- The constant, without inputs. -/
private def zero : Subnet := ⟨0, 1, 2, 0, [.cell ⟨.ZERO, [], 1⟩, .cell ⟨.OUT, [⟨0, 0, false⟩], 0⟩]⟩

private theorem zero_replacement
    (hcheck : s.check .empty (.replace zero ⟨[], [⟨0, 0, false⟩]⟩) = true)
    (hroot : s.netlist 0 = some ⟨.ZERO, []⟩) : EqualReplacement .empty s zero ⟨[],
      [⟨0, 0, false⟩]⟩ 0 := by
  obtain ⟨root, hfit⟩ : ∃ root, Fits s zero ⟨[], [⟨0, 0, false⟩]⟩ root := valid_of_check hcheck
  obtain rfl : 0 = root := (List.cons.inj hfit.target).1
  refine ⟨hfit, fun g hg => ?_, fun g hg => ?_, fun j c hc => ?_, fun x ρ σ hρ hσ => ?_⟩
  · rw [← some.inj (hroot.symm.trans hg)]
    decide
  · rw [← some.inj (hroot.symm.trans hg)]
    exact CellTypeID.singleOutput_of_standard (fun sid h => by cases h)
  · have hlt : j < 2 := Subnet.lt_of_getCell hc
    interval_cases j <;> change some _ = some c at hc <;> cases hc <;>
      exact CellTypeID.singleOutput_of_standard (fun sid h => by cases h)
  · have h₀ := congrFun (hσ 0 ⟨.ZERO, []⟩ rfl) 0
    have h₁ := congrFun (hσ 1 ⟨.OUT, [⟨0, 0, false⟩]⟩ rfl) 0
    change σ 0 0 = false at h₀
    change σ 1 0 = xor (σ 0 0) false at h₁
    have hzero := congrFun (hρ 0 _ hroot) 0
    change ρ 0 0 = false at hzero
    change σ 1 0 = ρ 0 0
    rw [h₁, h₀, hzero]
    rfl

/-- A constant that replaces itself becomes a buffer of its own. -/
theorem not_keepsOutputs : ¬ ∀ lib s rhs iomapping root s', Run lib (Valid lib) s →
    EqualReplacement lib s rhs iomapping root →
    s.replace rhs iomapping = some s' → KeepsOutputs lib s s' := by
  intro h
  have hrun : (checkRun .empty [.addCell .ZERO [], .addCell .ONE [], .addOutput ⟨0, 0, false⟩]
      {}).map (fun s =>
      (s.check .empty (.replace zero ⟨[], [⟨0, 0, false⟩]⟩), s.netlist 0, s.netlist 2,
        s.value .empty
      (fun _ => false) 2 0,
        (s.replace zero ⟨[], [⟨0, 0, false⟩]⟩).map (fun s' => s'.value .empty (fun _ => false) 2 0))) =
      some (true, some ⟨.ZERO, []⟩, some ⟨.OUT, [⟨0, 0, false⟩]⟩, some false, some none) := by
        decide
  obtain ⟨s, hs, heq⟩ := Option.map_eq_some_iff.mp hrun
  simp only [Prod.mk.injEq] at heq
  obtain ⟨hcheck, hroot, hout, hbefore, hafter⟩ := heq
  obtain ⟨s', hs', hafter⟩ := Option.map_eq_some_iff.mp hafter
  have hkeep := h .empty s zero ⟨[], [⟨0, 0, false⟩]⟩ 0 s' (run_of_checkRun .init hs)
    (zero_replacement hcheck hroot) hs'
  have hvalue := (hkeep 2 _ hout rfl).2 (fun _ => false)
  rw [hafter, hbefore] at hvalue
  cases hvalue

end SubnetBuilder

end UtopiaEda
