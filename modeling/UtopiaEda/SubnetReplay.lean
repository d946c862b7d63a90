import UtopiaEda.MadeSubnets

/-!
# Cells that are added again

The entries of a subnet are added to a builder one after the other. The builder shares equal cells:
up to the first cell that is there already every cell gets the index it had; behind it the indices
differ, so only links to the cells before it lead where they did.
-/
namespace UtopiaEda

open List
open Function (update update_self update_of_ne)
open Option (map_some some.inj)

variable {S S' : Subnet} {i k : EntryID} {s s' : SubnetBuilder} {m : EntryID → EntryID}
  {lib : CellLibrary} {x : EntryID → Bool} {ρ : EntryID → ℕ → Bool}

structure Subnet.Same (S S' : Subnet) : Prop where
  nIn : S'.nIn = S.nIn
  nOut : S'.nOut = S.nOut
  values : ∀ lib x, ∀ j < S.nOut,
    S'.value lib x (S'.getOutIdx j) 0 = S.value lib x (S.getOutIdx j) 0

structure Subnet.Replayable (S : Subnet) : Prop where
  narrow : S.Narrow
  before : ∀ k, S.Repeated k → ∀ i c, S.getCell i = some c → ∀ l ∈ c.links, l.idx < k

structure Subnet.ReplayedAs (S S' : Subnet) : Prop where
  same : S.Same S'
  wellFormed : S'.WellFormed
  replayable : S'.Replayable
  origin : ∀ k c', S'.getCell k = some c' →
    ∃ e c, S.getCell e = some c ∧ c'.type = c.type ∧ c'.links.length = c.links.length
  unread : ∀ i < S.nIn, ¬ S.Reads i → ∃ c, S'.getCell i = some c ∧ c.refcount = 0
  reads : ∀ i < S.nIn, S'.Reads i → S.Reads i

theorem Subnet.entries_of_getCell {c : SubnetCell} (h : S.getCell i = some c) :
    S.entries[i]? = some (.cell c) := by
  unfold Subnet.getCell at h
  split at h
  · rename_i c' he
    rw [he, some.inj h]
  · cases h

theorem foldlM_range' {α β : Type} {f : β → ℕ → Option β} {g : β → α → Option β} :
    ∀ {l : List α} {k a : ℕ} {s : β}, l.length = k →
    (∀ s, ∀ i < k, ∃ e, l[i]? = some e ∧ f s (a + i) = g s e) →
    (range' a k).foldlM f s = l.foldlM g s := by
  intro l
  induction l with
  | nil =>
    rintro _ a s rfl -
    rfl
  | cons e l ih =>
    rintro _ a s rfl h
    have hfirst : f s a = g s e := by
      obtain ⟨e', he', hstep⟩ := h s 0 (Nat.succ_pos _)
      obtain rfl := some.inj he'
      exact hstep
    rw [length_cons, range'_succ, foldlM_cons, foldlM_cons, hfirst]
    cases g s e with
    | none => rfl
    | some s' =>
      apply ih rfl
      intro s i hi
      obtain ⟨e', he', hstep⟩ := h s (i + 1) (Nat.succ_lt_succ hi)
      rw [getElem?_cons_succ] at he'
      rw [Nat.add_right_comm, Nat.add_assoc]
      exact ⟨e', he', hstep⟩

theorem exists_of_foldlM {α β : Type} {f : β → α → Option β} :
    ∀ {l : List α} {s s' : β}, l.foldlM f s = some s' → ∀ i ∈ l, ∃ a b, f a i = some b := by
  intro l
  induction l with
  | nil => exact fun _ i hi => by cases hi
  | cons a l ih =>
    intro s s' h i hi
    rw [foldlM_cons] at h
    obtain ⟨s₁, hs₁, h⟩ := Option.bind_eq_some_iff.mp h
    rcases mem_cons.mp hi with rfl | hi
    · exact ⟨s, s₁, hs₁⟩
    · exact ih h i hi

/-- `addCell` for the cell in an entry, with the links in its array `link`. Reading links behind the
end of the array, or an entry of links as a cell, gives `none`. -/
def SubnetBuilder.addEntry (s : SubnetBuilder) (current : Entry) : Option SubnetBuilder :=
  match current with
  | .links _ => none
  | .cell cell => if InPlaceLinks < cell.arity then none else
      (s.addCell cell.type cell.links).map Prod.fst

namespace SubnetBuilder

private theorem take_succ {c : SubnetCell} (h : S.getCell i = some c) :
    S.entries.take (i + 1) = S.entries.take i ++ [.cell c] := by
  rw [take_add_one, Subnet.entries_of_getCell h]
  rfl

private theorem foldlM_succ {c : SubnetCell} (h : S.getCell i = some c)
    (harity : c.arity ≤ InPlaceLinks) (hs : (S.entries.take i).foldlM addEntry {} = some s) :
    (S.entries.take (i + 1)).foldlM addEntry {} = (s.addCell c.type c.links).map Prod.fst := by
  rw [take_succ h, foldlM_append, hs]
  simp only [foldlM_cons, foldlM_nil, Option.bind_eq_bind, Option.bind_some, Option.pure_def,
    addEntry, if_neg (Nat.not_lt.mpr harity), Option.bind_fun_some]

theorem exists_inputs (hS : S.WellFormed) (hr : S.Replayable) : ∀ {i : ℕ}, i ≤ S.nIn →
    ∃ s, (S.entries.take i).foldlM addEntry {} = some s ∧ HasInputs s i := by
  intro i
  induction i with
  | zero => exact fun _ => ⟨{}, rfl, .init⟩
  | succ i ih =>
    intro hi
    have hb := hS.bounds
    obtain ⟨s, hs, h⟩ := ih (Nat.le_of_succ_le hi)
    obtain ⟨c, hc, harity⟩ := hr.narrow i (by omega)
    have ht : c.type = .IN := (hS.input i c hc).mpr hi
    obtain ⟨s', hadd, h'⟩ := h.addInputs 1
    refine ⟨s', ?_, h'⟩
    rw [foldlM_succ hc harity hs, ht, hS.noLinks i c hc ht]
    obtain ⟨⟨s₁, l⟩, hs₁, hadd⟩ := Option.bind_eq_some_iff.mp hadd
    cases hadd
    rw [← SubnetBuilder.addInput, hs₁]
    rfl

structure Replayed (S : Subnet) (i : ℕ) (s : SubnetBuilder) (m : EntryID → EntryID) : Prop where
  grown : ∃ mid, Grown s (.range' 0 S.nIn) mid []
  counts : (s.nIn, s.nOut) = (S.nIn, 0)
  narrow : ∀ k g, s.netlist k = some g → g.links.length ≤ InPlaceLinks
  cells : ∀ e < i, ∃ c g, S.getCell e = some c ∧ s.netlist (m e) = some g ∧ g.type = c.type ∧
    g.type ≠ .OUT
  inputs : ∀ e < S.nIn, m e = e
  values : ∀ e < i, ∀ c, S.getCell e = some c → ∀ lib x ρ, s.netlist.Solves lib x ρ →
    ρ (m e) = Netlist.gateValue lib x ρ e ⟨c.type, c.links⟩
  same : ∀ e < i, (∀ k ≤ e, ¬ S.Repeated k) → m e = e
  size : (∀ k < i, ¬ S.Repeated k) → s.size = i
  hashed : ∀ key idx, s.strash key = some idx →
    ∃ e < i, ∃ c, S.getCell e = some c ∧ c.isEnabled ∧ c.key = key
  complete : ∀ idx c, s.liveCell idx = some c → c.isEnabled → s.strash c.key = some idx
  origin : ∀ idx g, s.netlist idx = some g →
    ∃ e < i, ∃ c, S.getCell e = some c ∧ g.type = c.type ∧ g.links.Perm c.links

theorem input_of_lt (hS : S.WellFormed) {e : EntryID} (he : e < S.nIn) :
    ∃ c, S.getCell e = some c ∧ c.type = .IN ∧ c.links = [] := by
  have hlt : e < S.size := Nat.lt_of_lt_of_le he (Nat.le_trans (Nat.le_add_right _ _) hS.bounds)
  obtain ⟨c, hc⟩ := Option.isSome_iff_exists.mp (hS.ends e (.inl he) hlt)
  have ht : c.type = .IN := (hS.input e c hc).mpr he
  exact ⟨c, hc, ht, hS.noLinks e c hc ht⟩

theorem Replayed.init (hS : S.WellFormed) (h : HasInputs s S.nIn) : Replayed S S.nIn s id := by
  have hgate : ∀ k g, s.netlist k = some g → g = ⟨.IN, []⟩ := by
    intro k g hg
    have hk := (h.grown.mem k).mpr (by rw [hg]; rfl)
    rw [append_nil, append_nil] at hk
    have hlt : k < S.nIn := by simpa using hk
    exact some.inj (hg.symm.trans (h.input k hlt))
  refine ⟨⟨[], h.grown⟩, h.counts, fun k g hg => ?_, fun e he => ?_, fun _ _ => rfl,
    fun e he c hc lib x ρ hρ => ?_, fun _ _ _ => rfl, fun _ => h.size, fun key idx hk => ?_,
    fun idx c hc hen => ?_, fun idx g hg => ?_⟩
  · rw [hgate k g hg]
    exact Nat.zero_le _
  · obtain ⟨c, hc, ht, -⟩ := input_of_lt hS he
    exact ⟨c, _, hc, h.input e he, ht.symm, by decide⟩
  · have ht : c.type = .IN := (hS.input e c hc).mpr he
    funext out
    rw [Netlist.gateValue, if_pos ht]
    exact congrFun (hρ e _ (h.input e he)) out
  · obtain ⟨c, hc, hen, -⟩ := h.grown.net.strash key idx hk
    have ht : c.type = .IN := congrArg Gate.type (hgate idx _ (netlist_of_live hc))
    rw [SubnetCell.isEnabled, SubnetCell.isIn, ht] at hen
    cases hen
  · have ht : c.type = .IN := congrArg Gate.type (hgate idx _ (netlist_of_live hc))
    rw [SubnetCell.isEnabled, SubnetCell.isIn, ht] at hen
    cases hen
  · have hidx : idx < S.nIn := by
      have := (h.grown.mem idx).mpr (by rw [hg]; rfl)
      rw [append_nil, append_nil] at this
      simpa using this
    obtain ⟨c, hc, ht, hl⟩ := input_of_lt hS hidx
    refine ⟨idx, hidx, c, hc, ?_, ?_⟩
    · rw [hgate idx g hg, ht]
    · rw [hgate idx g hg, hl]

theorem Replayed.target (h : Replayed S i s m) (hr : S.Replayable) {e : EntryID} {c : SubnetCell}
    (hc : S.getCell e = some c) {l : Link} (hl : l ∈ c.links) (hlt : l.idx < i) : m l.idx = l.idx :=
  h.same _ hlt (fun k hk hrep => absurd hk (Nat.not_le.mpr (hr.before k hrep e c hc l hl)))

theorem Replayed.validLinks (h : Replayed S i s m) (hr : S.Replayable) {c : SubnetCell}
    {e : EntryID} (hc : S.getCell e = some c) (hlt : ∀ l ∈ c.links, l.idx < i) :
    s.ValidLinks c.links := by
  apply validLinks_of_netlist
  intro l hl
  obtain ⟨-, g, -, hg, -, ht⟩ := h.cells l.idx (hlt l hl)
  rw [h.target hr hc hl (hlt l hl)] at hg
  exact ⟨g, hg, ht⟩

theorem Replayed.step (h : Replayed S i s m) (hS : S.WellFormed) (hr : S.Replayable)
    (hin : S.nIn ≤ i) (hlt : i < S.size - S.nOut)
    (hs : (S.entries.take i).foldlM addEntry {} = some s) :
    ∃ s' m', (S.entries.take (i + 1)).foldlM addEntry {} = some s' ∧ Replayed S (i + 1) s' m' := by
  obtain ⟨c, hc, harity⟩ := hr.narrow i (Nat.lt_of_lt_of_le hlt (Nat.sub_le _ _))
  have htin : c.type ≠ .IN := fun ht => absurd ((hS.input i c hc).mp ht) (Nat.not_lt.mpr hin)
  have htout : c.type ≠ .OUT := fun ht => absurd ((hS.output i c hc).mp ht) (Nat.not_le.mpr hlt)
  have henabled : c.isEnabled := by
    simp [SubnetCell.isEnabled, SubnetCell.isIn, SubnetCell.isOut, htin, htout, harity]
  have hkeyed : StrashKey.isEnabled c.type c.links := by
    rw [SubnetCell.arity] at harity
    simp [StrashKey.isEnabled, htin, htout, harity]
  have hlinks : ∀ l ∈ c.links, l.idx < i := fun l hl => (hS.links i c hc l hl).1
  have hvalid := h.validLinks hr hc hlinks
  obtain ⟨mid, hgrown⟩ := h.grown
  obtain ⟨s', idx, mid', hadd, hgrown', hcases⟩ :=
    hgrown.addCell hvalid (hS.positive i c hc) htin htout
  obtain ⟨s'', idx', -, hadd', -, hgate⟩ := hgrown.addGate hvalid (hS.positive i c hc) htin htout
  obtain ⟨rfl, hidx⟩ := Prod.mk.inj (some.inj (hadd.symm.trans hadd'))
  obtain rfl : idx = idx' := congrArg Link.idx hidx
  have hfound : s'.strash = s.strash → s.strash (StrashKey.make c.type c.links) = some idx →
      S.Repeated i := by
    intro _ hk
    obtain ⟨e, he, c', hc', hen', hkey⟩ := h.hashed _ _ hk
    exact ⟨c, hc, henabled, e, he, c', hc', hen', hkey.trans (key_of_narrow harity).symm⟩
  refine ⟨s', update m i idx, ?_, ⟨mid', hgrown'⟩, ?_, fun k g hg => ?_, fun e he => ?_,
    fun e he => ?_, fun e he c' hc' lib x ρ hρ => ?_, fun e he hnot => ?_, fun hnot => ?_,
    fun key j hj => ?_, fun j a ha hen => ?_, fun j g hg => ?_⟩
  · rw [foldlM_succ hc harity hs, hadd]
    rfl
  · rw [hgate.counts, ← h.counts, decide_eq_false htin, decide_eq_false htout]
    rfl
  · rcases hgate.only k g hg with hg | rfl
    · exact h.narrow k g hg
    · obtain ⟨ls, hls, hperm⟩ := hgate.here
      rw [some.inj (hg.symm.trans hls)]
      exact hperm.length_eq ▸ harity
  · rcases Nat.lt_succ_iff_lt_or_eq.mp he with he | rfl
    · rw [update_of_ne (Nat.ne_of_lt he)]
      obtain ⟨a, g, ha, hg, ht⟩ := h.cells e he
      exact ⟨a, g, ha, hgate.le _ _ hg, ht⟩
    · rw [update_self]
      obtain ⟨ls, hls, -⟩ := hgate.here
      exact ⟨c, _, hc, hls, rfl, htout⟩
  · rw [update_of_ne (Nat.ne_of_lt (Nat.lt_of_lt_of_le he hin)), h.inputs e he]
  · rcases Nat.lt_succ_iff_lt_or_eq.mp he with he | rfl
    · rw [update_of_ne (Nat.ne_of_lt he)]
      exact h.values e he c' hc' lib x ρ (Solves.mono hρ hgate.le)
    · obtain rfl := some.inj (hc.symm.trans hc')
      rw [update_self, hgate.value lib x ρ hρ htin]
      funext out
      rw [Netlist.gateValue, if_neg htin]
  · rcases Nat.lt_succ_iff_lt_or_eq.mp he with he | rfl
    · rw [update_of_ne (Nat.ne_of_lt he), h.same e he hnot]
    · rw [update_self]
      rcases hcases with ⟨-, hk, rfl⟩ | ⟨rfl, -⟩
      · exact absurd (hfound rfl hk) (hnot e (Nat.le_refl e))
      · exact h.size (fun k hk => hnot k (Nat.le_of_lt hk))
  · rcases hcases with ⟨-, hk, rfl⟩ | ⟨rfl, happ⟩
    · exact absurd (hfound rfl hk) (hnot i (Nat.lt_succ_self i))
    · rw [happ.size_of_le harity, h.size (fun k hk => hnot k (Nat.lt_succ_of_lt hk))]
  · have hold : s.strash key = some j → ∃ e < i + 1, ∃ c, S.getCell e = some c ∧ c.isEnabled ∧
        c.key = key := by
      intro hj
      obtain ⟨e, he, hrest⟩ := h.hashed key j hj
      exact ⟨e, Nat.lt_succ_of_lt he, hrest⟩
    rcases hcases with ⟨-, -, rfl⟩ | ⟨rfl, happ⟩
    · exact hold hj
    · rcases happ.strash key j hj with hj' | rfl
      · exact hold hj'
      · obtain ⟨c', hc', -, hkey⟩ := hgrown'.net.strash key _ hj
        have hgate' := some.inj ((netlist_of_live hc').symm.trans happ.here)
        obtain ⟨ht, hl⟩ := Gate.mk.inj hgate'
        exact ⟨i, Nat.lt_succ_self i, c, hc,
          henabled, by rw [← hkey, SubnetCell.key, SubnetCell.key, ht, hl]⟩
  · rcases hcases with ⟨-, -, rfl⟩ | ⟨rfl, happ⟩
    · exact h.complete j a ha hen
    · rw [strash_of_addCell hadd, if_pos hkeyed]
      by_cases hj : j = s.size
      · obtain ⟨ht, hl⟩ := Gate.mk.inj
          (some.inj ((netlist_of_live (hj ▸ ha)).symm.trans happ.here))
        rw [key_of_narrow (show a.arity ≤ _ by rw [SubnetCell.arity, hl]; exact harity), ht, hl,
          update_self, hj]
      · have hold : s.netlist j = some ⟨a.type, a.links⟩ := by
          have hnew := netlist_of_live ha
          rwa [happ.netlist, update_of_ne hj] at hnew
        obtain ⟨b, hb, ht, hl⟩ := liveCell_of_netlist hold
        have hkey : b.key = a.key := by rw [SubnetCell.key, SubnetCell.key, ht, hl]
        have hfind := h.complete j b hb (by
          rw [SubnetCell.isEnabled, SubnetCell.isIn, SubnetCell.isOut, SubnetCell.arity, ht, hl]
          exact hen)
        rw [hkey] at hfind
        rw [update_of_ne, hfind]
        intro heq
        rw [heq] at hfind
        exact hj (idx_of_addCell hadd hkeyed hfind).symm
  · rcases hgate.only j g hg with hg | rfl
    · obtain ⟨e, he, hrest⟩ := h.origin j g hg
      exact ⟨e, Nat.lt_succ_of_lt he, hrest⟩
    · obtain ⟨ls, hls, hperm⟩ := hgate.here
      rw [some.inj (hg.symm.trans hls)]
      exact ⟨i, Nat.lt_succ_self i, c, hc, rfl, hperm⟩

theorem exists_replayed (hS : S.WellFormed) (hr : S.Replayable) :
    ∀ {n : ℕ}, S.nIn + n ≤ S.size - S.nOut → ∃ s m, (S.entries.take (S.nIn + n)).foldlM addEntry
    {} = some s ∧ Replayed S (S.nIn + n) s m := by
  intro n
  induction n with
  | zero =>
    intro _
    obtain ⟨s, hs, h⟩ := exists_inputs hS hr (Nat.le_refl S.nIn)
    exact ⟨s, id, hs, .init hS h⟩
  | succ n ih =>
    intro hn
    obtain ⟨s, m, hs, h⟩ := ih (Nat.le_of_succ_le hn)
    exact h.step hS hr (Nat.le_add_right _ _) hn hs

private theorem foldlM_outputs {f : ℕ → Link} {cell : ℕ → SubnetCell} :
    ∀ {ks : List ℕ} {s : SubnetBuilder}, (∀ k ∈ ks, (cell k).type = .OUT ∧ (cell k).links = [f k]) →
    (ks.map (fun k => Entry.cell (cell k))).foldlM addEntry s =
    SubnetBuilder.addOutputs (ks.map f) s := by
  intro ks
  induction ks with
  | nil => exact fun _ => rfl
  | cons k ks ih =>
    intro s h
    obtain ⟨ht, hl⟩ := h k mem_cons_self
    have harity : ¬ InPlaceLinks < (cell k).arity := by
      rw [SubnetCell.arity, hl, length_singleton]
      decide
    rw [map_cons, map_cons, foldlM_cons, SubnetBuilder.addOutputs, addEntry, if_neg harity, ht, hl,
      SubnetBuilder.addOutput]
    cases s.addCell .OUT [f k] with
    | none => rfl
    | some r => exact ih (fun j hj => h j (mem_cons_of_mem k hj))

private theorem foldlM_entries (hS : S.WellFormed) {f : ℕ → Link}
    (hf : ∀ k < S.nOut, ∃ c, S.getCell (S.getOutIdx k) = some c ∧ c.type = .OUT ∧ c.links = [f k])
    (hs : (S.entries.take (S.size - S.nOut)).foldlM addEntry {} = some s) :
    S.entries.foldlM addEntry {} = SubnetBuilder.addOutputs ((range S.nOut).map f) s := by
  have hb := hS.bounds
  have hdrop : S.entries.drop (S.size - S.nOut) =
      (range S.nOut).map (fun k => Entry.cell ((S.getCell (S.getOutIdx k)).getD ⟨.OUT, [], 0⟩))
      := by
    apply ext_getElem?
    intro k
    rw [getElem?_drop, getElem?_map]
    by_cases hk : k < S.nOut
    · obtain ⟨c, hc, -⟩ := hf k hk
      rw [getElem?_range hk, map_some, hc, Option.getD_some]
      exact Subnet.entries_of_getCell hc
    · have hlen : S.entries.length ≤ S.size - S.nOut + k := by
        change S.size ≤ _
        omega
      rw [getElem?_eq_none hlen, getElem?_eq_none (by rw [length_range]; exact Nat.not_lt.mp hk)]
      rfl
  rw [← take_append_drop (S.size - S.nOut) S.entries, foldlM_append, hs, hdrop]
  apply foldlM_outputs
  intro k hk
  obtain ⟨c, hc, ht, hl⟩ := hf k (mem_range.mp hk)
  rw [hc]
  exact ⟨ht, hl⟩

theorem Replayed.values_eq (h : Replayed S i s m) (hS : S.WellFormed) (hr : S.Replayable)
    {x' : EntryID → Bool} {σ : EntryID → ℕ → Bool} (hσ : S.netlist.Solves lib x σ)
    (hρ : s.netlist.Solves lib x' ρ) (hx : ∀ e < S.nIn, x' e = x e) : ∀ e < i, ∀ c, S.getCell e =
    some c → σ e = ρ (m e) := by
  intro e
  induction e using Nat.strong_induction_on with
  | _ e ih =>
    intro he c hc
    have hlinks : ∀ l ∈ c.links, σ l.idx = ρ l.idx := by
      intro l hl
      obtain ⟨hlt, c', hc', -⟩ := hS.links e c hc l hl
      rw [ih l.idx hlt (Nat.lt_trans hlt he) c' hc', h.target hr hc hl (Nat.lt_trans hlt he)]
    rw [hσ e ⟨c.type, c.links⟩ (by rw [Subnet.netlist, hc]; rfl), h.values e he c hc lib x' ρ hρ,
      Netlist.gateValue_congr (g := ⟨c.type, c.links⟩) hlinks]
    funext out
    by_cases ht : c.type = .IN
    · rw [Netlist.gateValue, Netlist.gateValue, if_pos ht, if_pos ht,
        hx e ((hS.input e c hc).mp ht)]
    · rw [Netlist.gateValue, Netlist.gateValue, if_neg ht, if_neg ht]

/-- The outputs lead to cells that were added, and the cells lead where they did. -/
theorem Replayed.output (h : Replayed S (S.size - S.nOut) s m) (hS : S.WellFormed)
    (hr : S.Replayable) {c : SubnetCell} {l : Link} (hc : S.getCell k = some c)
    (hl : c.links = [l]) : l.idx < S.size - S.nOut ∧ m l.idx = l.idx ∧ ∃ c, S.getCell l.idx =
    some c := by
  have hmem : l ∈ c.links := by
    rw [hl]
    exact mem_singleton_self l
  obtain ⟨-, c', hc', ht⟩ := hS.links k c hc l hmem
  have hlt : l.idx < S.size - S.nOut := Nat.not_le.mp (fun hle => ht ((hS.output _ c' hc').mpr hle))
  exact ⟨hlt, h.target hr hc hmem hlt, c', hc'⟩

structure Finished (S : Subnet) (s s' : SubnetBuilder) (f : ℕ → Link) : Prop where
  grown : ∃ mid, Grown s' (.range' 0 S.nIn) mid (.range' s.size S.nOut)
  counts : (s'.nIn, s'.nOut) = (S.nIn, S.nOut)
  le : s.netlist.Le s'.netlist
  output : ∀ k < S.nOut, s'.netlist (s.size + k) = some ⟨.OUT, [f k]⟩
  only : ∀ k g, s'.netlist k = some g → s.netlist k = some g ∨ ∃ j < S.nOut, k = s.size + j ∧
    g = ⟨.OUT, [f j]⟩

theorem Replayed.addOutputs (h : Replayed S i s m) {f : ℕ → Link}
    (hl : s.ValidLinks ((range S.nOut).map f)) :
    ∃ s', SubnetBuilder.addOutputs ((range S.nOut).map f) s = some s' ∧ Finished S s s' f := by
  obtain ⟨mid, hgrown⟩ := h.grown
  obtain ⟨s', hadd, hgrown', hsize, hcounts, hle, hout, honly⟩ := hgrown.addOutputs hl
  have hcounts₀ := h.counts
  simp only [Prod.mk.injEq] at hcounts hcounts₀
  rw [length_map, length_range] at hgrown' hsize hcounts
  have hgate : ∀ k < S.nOut, s'.netlist (s.size + k) = some ⟨.OUT, [f k]⟩ := by
    intro k hk
    apply hout
    rw [getElem?_map, getElem?_range hk, map_some]
  refine ⟨s', hadd, ⟨mid, hgrown'⟩, ?_, hle, hgate, fun k g hg => ?_⟩
  · rw [hcounts.1, hcounts.2, hcounts₀.1, hcounts₀.2, Nat.zero_add]
  · rcases honly k (by rw [hg]; rfl) with hsome | ⟨hk, hlt⟩
    · obtain ⟨g', hg'⟩ := Option.isSome_iff_exists.mp hsome
      rw [← some.inj ((hle k g' hg').symm.trans hg)]
      exact .inl hg'
    · obtain ⟨j, rfl⟩ := Nat.exists_eq_add_of_le hk
      rw [hsize] at hlt
      have hj : j < S.nOut := Nat.lt_of_add_lt_add_left hlt
      exact .inr ⟨j, hj, rfl, some.inj (hg.symm.trans (hgate j hj))⟩

theorem Finished.values_eq {f : ℕ → Link} {mid : List EntryID} (hfin : Finished S s s' f)
    (hgrown : Grown s' (.range' 0 S.nIn) mid (.range' s.size S.nOut))
    (hmade : Made s' (s'.position (.range' 0 S.nIn ++ mid ++ .range' s.size S.nOut)) S')
    (h : Replayed S (S.size - S.nOut) s m) (hS : S.WellFormed) (hr : S.Replayable)
    (hf : ∀ k < S.nOut, ∃ c, S.getCell (S.getOutIdx k) = some c ∧ c.type = .OUT ∧ c.links = [f k]) :
    Subnet.Same S S' := by
  have hcounts := hfin.counts
  have hmcounts := hmade.counts
  simp only [Prod.mk.injEq] at hcounts hmcounts
  have hlen : (range' s.size S.nOut).length = S.nOut := length_range'
  have hnOut : S'.nOut = S.nOut := hmcounts.2.1.trans hcounts.2
  refine ⟨hmcounts.1.trans hcounts.1, hnOut, fun lib x j hj => ?_⟩
  obtain ⟨ρ, hρ, hvalues⟩ := hmade.exists_values hgrown lib x
  obtain ⟨σ, hσ, hvaluesS⟩ := hS.exists_values lib x
  obtain ⟨c, hc, ht, hl⟩ := hf j hj
  have hinputs : ∀ e < S.nIn, x (s'.position (.range' 0 S.nIn ++ mid ++ .range' s.size S.nOut) e) =
      x e := by
    intro e he
    have hplace := hgrown.position_input (getElem?_range' he)
    rw [Nat.one_mul, Nat.zero_add] at hplace
    rw [hplace]
  have hplace : (range' s.size S.nOut)[j]? = some (s.size + j) := by
    rw [getElem?_range' hj, Nat.one_mul]
  have hval := hvalues (s.size + j) (by rw [hfin.output j hj]; rfl) 0
  rw [hgrown.position_output hplace, hlen] at hval
  obtain ⟨hlt, heq, c', hc'⟩ := h.output hS hr hc hl
  have hsame := h.values_eq hS hr hσ (Solves.mono hρ hfin.le) hinputs _ hlt c' hc'
  rw [heq] at hsame
  have hlink : ρ (s.size + j) 0 = (f j).value ρ := congrFun (hρ _ _ (hfin.output j hj)) 0
  have hlinkS : σ (S.getOutIdx j) 0 = (f j).value σ := by
    have hout : S.netlist (S.getOutIdx j) = some ⟨.OUT, [f j]⟩ := by
      rw [Subnet.netlist, hc, ← ht, ← hl]; rfl
    exact congrFun (hσ _ _ hout) 0
  rw [Subnet.getOutIdx, hmade.size, hnOut, hval, hvaluesS _ c hc, hlink, hlinkS, Link.value,
    Link.value, hsame]

theorem Finished.origin {f : ℕ → Link} (hfin : Finished S s s' f)
    (h : Replayed S (S.size - S.nOut) s m) (hf : ∀ k < S.nOut, ∃ c, S.getCell (S.getOutIdx k) =
    some c ∧ c.type = .OUT ∧ c.links = [f k]) {g : Gate} (hg : s'.netlist k = some g) :
    ∃ e c, S.getCell e = some c ∧ g.type = c.type ∧ g.links.Perm c.links := by
  rcases hfin.only k g hg with hg | ⟨j, hj, -, rfl⟩
  · obtain ⟨e, -, c, hc, hrest⟩ := h.origin k g hg
    exact ⟨e, c, hc, hrest⟩
  · obtain ⟨c, hc, ht, hl⟩ := hf j hj
    exact ⟨_, c, hc, ht.symm, hl ▸ .refl _⟩

theorem Finished.replayedAs {f : ℕ → Link} {mid : List EntryID} (hfin : Finished S s s' f)
    (hgrown : Grown s' (.range' 0 S.nIn) mid (.range' s.size S.nOut))
    (hmade : Made s' (s'.position (.range' 0 S.nIn ++ mid ++ .range' s.size S.nOut)) S')
    (hstrash : s'.strash = s.strash)
    (h : Replayed S (S.size - S.nOut) s m) (hS : S.WellFormed) (hr : S.Replayable)
    (hf : ∀ k < S.nOut, ∃ c, S.getCell (S.getOutIdx k) = some c ∧ c.type = .OUT ∧ c.links = [f k]) :
    S.ReplayedAs S' := by
  have hcounts := hfin.counts
  simp only [Prod.mk.injEq] at hcounts
  have hnarrow : ∀ k g, s'.netlist k = some g → g.links.length ≤ InPlaceLinks := by
    intro k g hg
    rcases hfin.only k g hg with hg | ⟨j, -, -, rfl⟩
    · exact h.narrow k g hg
    · exact Nat.le_add_left 1 2
  have hcomplete : ∀ i c, s'.liveCell i = some c → c.isEnabled → s'.strash c.key = some i := by
    intro i c hc hen
    rcases hfin.only i _ (netlist_of_live hc) with hg | ⟨j, -, -, hg⟩
    · obtain ⟨b, hb, ht, hl⟩ := liveCell_of_netlist hg
      have hkey : b.key = c.key := by rw [SubnetCell.key, SubnetCell.key, ht, hl]
      have hben : b.isEnabled = c.isEnabled := by
        rw [SubnetCell.isEnabled, SubnetCell.isEnabled, SubnetCell.isIn, SubnetCell.isIn,
          SubnetCell.isOut, SubnetCell.isOut, SubnetCell.arity, SubnetCell.arity, ht, hl]
      rw [hstrash, ← hkey]
      exact h.complete i b hb (hben.trans hen)
    · have ht : c.type = .OUT := congrArg Gate.type hg
      rw [SubnetCell.isEnabled, SubnetCell.isOut, ht] at hen
      simp at hen
  refine ⟨hfin.values_eq hgrown hmade h hS hr hf, ?_, ⟨hmade.narrow hgrown hnarrow, fun k hk =>
    absurd hk (hmade.distinct hgrown hcomplete)⟩, fun k c' hc' => ?_, fun i hi hread => ?_,
      fun i hi hread => ?_⟩
  · refine hmade.wellFormed hgrown (by rw [hcounts.1, length_range'])
      (by rw [hcounts.2, length_range']) (fun i g hg => ?_) (fun i g hg l hl g' hg' => ?_)
    · obtain ⟨e, c, hc, ht, -⟩ := hfin.origin h hf hg
      rw [ht]
      exact hS.positive e c hc
    · obtain ⟨e, c, hc, -, hperm⟩ := hfin.origin h hf hg
      have hl := hperm.mem_iff.mp hl
      obtain ⟨-, a, ha, hat⟩ := hS.links e c hc l hl
      have hlt : l.idx < S.size - S.nOut :=
        Nat.not_le.mp (fun hle => hat ((hS.output _ a ha).mpr hle))
      obtain ⟨a', g'', ha', hg'', ht, -⟩ := h.cells l.idx hlt
      obtain rfl := some.inj (ha.symm.trans ha')
      rw [h.target hr hc hl hlt] at hg''
      obtain rfl := some.inj ((hfin.le _ _ hg'').symm.trans hg')
      rw [ht]
      exact hS.port e c hc l hl a ha
  · obtain ⟨i, a, ha, -, rfl⟩ := hmade.exists_gate hc'
    obtain ⟨e, c, hc, ht, hperm⟩ := hfin.origin h hf (netlist_of_live ha)
    exact ⟨e, c, hc, ht, by rw [length_map]; exact hperm.length_eq⟩
  · have hplace := hgrown.position_input (getElem?_range' hi)
    rw [Nat.one_mul, Nat.zero_add] at hplace
    have hmem := (hgrown.mem i).mp (by simp [hi])
    have hzero := hmade.refcount_eq_zero hgrown hmem (fun j g hg l hl heq => by
      obtain ⟨e, c, hc, -, hperm⟩ := hfin.origin h hf hg
      exact hread ⟨e, c, hc, l, hperm.mem_iff.mp hl, heq⟩)
    rwa [hplace] at hzero
  · have hplace := hgrown.position_input (getElem?_range' hi)
    rw [Nat.one_mul, Nat.zero_add] at hplace
    obtain ⟨k, c', hc', l, hl, hidx⟩ := hread
    obtain ⟨j, a, ha, -, rfl⟩ := hmade.exists_gate hc'
    obtain ⟨l', hl', rfl⟩ := mem_map.mp hl
    obtain ⟨g', hg', -⟩ := hgrown.net.closed ⟨_, netlist_of_live ha, l', hl', rfl⟩
    obtain ⟨e, c, hc, -, hperm⟩ := hfin.origin h hf (netlist_of_live ha)
    have hsame : l'.idx = i := hgrown.position_inj (by rw [hg']; rfl) (hidx.trans hplace.symm)
    exact ⟨e, c, hc, l', hperm.mem_iff.mp hl', hsame⟩

/-- The cells of a subnet that can be replayed make a subnet with the same functions. -/
theorem exists_replay (hS : S.WellFormed) (hpos : 0 < S.nOut) (hr : S.Replayable) :
    ∃ s S', S.entries.foldlM addEntry {} = some s ∧ s.make = some S' ∧ S.ReplayedAs S' := by
  have hb := hS.bounds
  obtain ⟨f, hf⟩ := exists_outLinks hS
  have hfcell := fun k hk => (hf k hk).2
  obtain ⟨s, m, hs, h⟩ := exists_replayed hS hr (n := S.size - S.nOut - S.nIn) (by omega)
  rw [show S.nIn + (S.size - S.nOut - S.nIn) = S.size - S.nOut by omega] at hs h
  have hvalid : s.ValidLinks ((range S.nOut).map f) := by
    apply validLinks_of_netlist
    intro l hl
    obtain ⟨k, hk, rfl⟩ := mem_map.mp hl
    obtain ⟨c, hc, -, hlinks⟩ := hfcell k (mem_range.mp hk)
    obtain ⟨hlt, heq, -⟩ := h.output hS hr hc hlinks
    obtain ⟨-, g, -, hg, -, ht⟩ := h.cells _ hlt
    rw [heq] at hg
    exact ⟨g, hg, ht⟩
  obtain ⟨s', hadd, hfin⟩ := h.addOutputs hvalid
  obtain ⟨mid, hgrown⟩ := hfin.grown
  have hcounts := hfin.counts
  simp only [Prod.mk.injEq] at hcounts
  obtain ⟨S', hS', hmade⟩ := hgrown.make_eq (by rw [hcounts.1, length_range'])
    (by rw [hcounts.2, length_range']) (by rw [hcounts.2]; exact hpos)
  exact ⟨s', S', (foldlM_entries hS hfcell hs).trans hadd, hS',
    hfin.replayedAs hgrown hmade (strash_of_addOutputs hadd) h hS hr hfcell⟩

end SubnetBuilder

end UtopiaEda
