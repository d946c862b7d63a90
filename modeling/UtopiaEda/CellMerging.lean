import UtopiaEda.FanoutEnabling
import UtopiaEda.NetworkReplacement

/-!
# Merging cells

Where the order lists the cells in use behind their inputs, no remaining cell is merged itself
and no hashed cell links to a merged one, `mergeCells` redirects all links and deletes the
merged cells. The fanout lists are not kept, see `redirectLink`.
-/
namespace UtopiaEda.SubnetBuilder

open Option (bind_eq_bind bind_eq_some_iff bind_some getD_some map_some)
open Incidence Finset
open Function (update_idem update_of_ne update_self)

variable {s s' s₀ : SubnetBuilder} {i j u e v : EntryID} {c : SubnetCell} {l : Link}
  {f : EntryID → Option EntryID} {W : Finset EntryID} {n : ℕ}

private theorem delFanout_off (hoff : s.fanoutsEnabled = false) (hi : i < s.size)
    (hj : j < s.size) : s.delFanout i j = some s := by
  have : ¬ (s.size ≤ i ∨ s.size ≤ j) := not_or.mpr ⟨Nat.not_le.mpr hi, Nat.not_le.mpr hj⟩
  simp only [delFanout, if_neg this, hoff, Bool.false_eq_true, if_false]
  rfl

/-- The links of the cell `u` were changed, and nothing else but reference counts. -/
structure LinksChanged (s s' : SubnetBuilder) (u : EntryID) (t : CellTypeID) (links : List Link) :
    Prop where
  net : NetInv s' s'.targets
  off : s'.fanoutsEnabled = false
  order : s'.order = s.order
  free : s'.emptyEntryIDs = s.emptyEntryIDs
  strash : s'.strash = s.strash
  netlist : ∀ i, s'.netlist i = if i = u then some ⟨t, links⟩ else s.netlist i

theorem NetInv.redirectLink (h : NetInv s s.targets) (hoff : s.fanoutsEnabled = false)
    (hc : s.liveCell u = some c) (hl : c.links[j]? = some l) {a : SubnetCell}
    (he : s.liveCell e = some a) (ha : a.type ≠ .OUT) (hk : ∀ k, s.strash k ≠ some u) :
    ∃ s', s.redirectLink u j l e = some s' ∧
      LinksChanged s s' u c.type (c.links.set j { l with idx := e }) := by
  obtain ⟨hj, hlj⟩ := List.getElem?_eq_some_iff.mp hl
  let rest := (c.links.map Link.idx).eraseIdx j
  have hsplit : ∀ x, (x :: rest).Perm ((c.links.map Link.idx).set j x) := by
    intro x
    have := List.getElem_cons_eraseIdx_perm (l := (c.links.map Link.idx).set j x) (n := j)
      (by simpa using hj)
    simpa [rest, List.eraseIdx_set_eq] using this
  have hold : (l.idx :: rest).Perm (s.targets u) := by
    have heq : (c.links.map Link.idx).set j (c.links[j]).idx = c.links.map Link.idx := by
      rw [← List.map_set, List.set_getElem_self]
    rw [targets_of_live hc, ← hlj, ← heq]
    exact hsplit (c.links[j]).idx
  have h₁ : NetInv s (Function.update s.targets u (l.idx :: rest)) := by
    refine h.perm (fun i => ?_)
    by_cases hi : i = u
    · rw [hi, update_self]
      exact hold.symm
    · rw [update_of_ne hi]
  have hu := lt_of_live hc
  have hlive : l.idx < s.size := by
    obtain ⟨b, hb, -⟩ := h₁.target u l.idx (by simp)
    exact lt_of_live hb
  obtain ⟨s₁, hs₁, h₂, hsame₁⟩ := h₁.delLink (update_self _ _ _)
  rw [SubnetBuilder.delLink, delFanout_off hoff hlive hu, bind_eq_bind, bind_some] at hs₁
  rw [update_idem] at h₂
  obtain ⟨n, hn⟩ := hsame₁.liveCell he
  obtain ⟨s₂, hs₂, h₃, hsame₂⟩ := h₂.addLink (hsame₁.size ▸ hu) hn ha
  rw [update_idem, update_self] at h₃
  have hsame := hsame₁.trans hsame₂
  obtain ⟨m, hm⟩ := hsame.liveCell hc
  have hout : c.type = .OUT → users (range s₂.size) (Function.update s.targets u (e :: rest)) u =
      0 := by
    intro hcOut
    rw [users_eq_zero]
    intro i _ hmem
    obtain ⟨b, hb, hbt⟩ := h₃.target i u hmem
    rw [hm] at hb
    cases hb
    exact hbt hcOut
  have hm' := h₃.refcount u _ hm
  let a' : SubnetCell := ⟨c.type, c.links.set j { l with idx := e }, m⟩
  have h₄ : NetInv (s₂.setCell u a') (Function.update s.targets u (e :: rest)) :=
    h₃.setCell hm hm' hout (fun k => hsame.strash ▸ hk k)
  have hlive₄ := liveCell_setCell hm a'
  refine ⟨s₂.setCell u a', ?_, h₄.perm (fun i => ?_), ?_, hsame.order, hsame.free, hsame.strash,
    fun i => ?_⟩
  · simp only [SubnetBuilder.redirectLink, delFanout_off hoff (lt_of_live he) hu, hs₁, hs₂, setLink,
      getCell_of_live hm, bind_eq_bind, bind_some, a']
  · by_cases hi : i = u
    · rw [hi, update_self, targets_of_live ((hlive₄ u).trans (if_pos rfl))]
      simpa [a'] using hsplit e
    · rw [update_of_ne hi, targets_eq_netlist, targets_eq_netlist, ← hsame.netlist]
      simp only [SubnetBuilder.netlist, hlive₄, hi, if_false]
      exact .refl _
  · exact hsame.enabled.trans hoff
  · split
    · rename_i hi
      rw [hi, netlist_of_live ((hlive₄ u).trans (if_pos rfl))]
    · rename_i hi
      rw [← hsame.netlist]
      simp only [SubnetBuilder.netlist, hlive₄, hi, if_false]

/-- The number of the links to the cells `W`. -/
def linkCount (s : SubnetBuilder) (W : Finset EntryID) : ℕ :=
  ∑ i ∈ range s.size, (s.targets i).countP (· ∈ W)

theorem linkCount_eq_zero (hs : NetInv s s.targets) (h : s.linkCount W = 0) :
    ∀ i, ∀ j ∈ s.targets i, j ∉ W := by
  intro i j hj hjW
  have hi : i ∈ range s.size := mem_range.mpr (hs.user i (List.ne_nil_of_mem hj))
  have := Finset.sum_eq_zero_iff.mp h i hi
  rw [List.countP_eq_zero] at this
  exact this j hj (by simpa using hjW)

theorem LinksChanged.linkCount (h : LinksChanged s s' u c.type (c.links.set j { l with idx := e }))
    (hc : s.liveCell u = some c) (hl : c.links[j]? = some l) (hlW : l.idx ∈ W) (heW : e ∉ W) :
    s'.linkCount W + 1 = s.linkCount W := by
  obtain ⟨hj, hlj⟩ := List.getElem?_eq_some_iff.mp hl
  have hsize : s'.size = s.size := congrArg EntryOrder.size h.order
  have hu : u ∈ range s.size := mem_range.mpr (lt_of_live hc)
  have hother : ∀ i ∈ (range s.size).erase u, (s'.targets i).countP (· ∈ W) =
      (s.targets i).countP (· ∈ W) := by
    intro i hi
    rw [targets_eq_netlist, h.netlist, if_neg (Finset.ne_of_mem_erase hi), ← targets_eq_netlist]
  have hhere : (s'.targets u).countP (· ∈ W) + 1 = (s.targets u).countP (· ∈ W) := by
    rw [targets_eq_netlist, h.netlist, if_pos rfl, targets_of_live hc]
    simp only [map_some, getD_some, List.map_set]
    have hpos : 0 < (c.links.map Link.idx).countP (· ∈ W) := by
      rw [List.countP_pos_iff]
      exact ⟨l.idx, List.mem_map_of_mem (hlj ▸ List.getElem_mem hj), by simpa using hlW⟩
    rw [List.countP_set (by simpa using hj), if_pos (by simp [hlj, hlW]), if_neg (by simp [heW])]
    omega
  rw [SubnetBuilder.linkCount, SubnetBuilder.linkCount, hsize, ← Finset.add_sum_erase _ _ hu,
    ← Finset.add_sum_erase (range s.size) (fun i => (s.targets i).countP (· ∈ W)) hu,
    Finset.sum_congr rfl hother]
  omega

def redirected (f : EntryID → Option EntryID) (l : Link) : Link :=
  { l with idx := (f l.idx).getD l.idx }

private theorem redirected_of_none (h : f l.idx = none) : redirected f l = l := by
  simp [redirected, h]

structure MergeFrame (s₀ s : SubnetBuilder) : Prop where
  net : NetInv s s.targets
  off : s.fanoutsEnabled = false
  order : s.order = s₀.order
  free : s.emptyEntryIDs = s₀.emptyEntryIDs
  strash : s.strash = s₀.strash

theorem LinksChanged.frame {t : CellTypeID} {links : List Link} (h : LinksChanged s s' u t links)
    (hs : MergeFrame s₀ s) : MergeFrame s₀ s' :=
  ⟨h.net, h.off, h.order.trans hs.order, h.free.trans hs.free, h.strash.trans hs.strash⟩

structure Merges (f : EntryID → Option EntryID) (W : Finset EntryID) (s : SubnetBuilder) :
    Prop where
  mem : ∀ i, i ∈ W ↔ (f i).isSome
  chain : ∀ i e, f i = some e → e ∉ W
  live : ∀ i e, f i = some e → ∃ g, s.netlist e = some g ∧ g.type ≠ .OUT

private theorem Merges.changed {t : CellTypeID} {links links' : List Link} (h : Merges f W s)
    (hc : LinksChanged s s' u t links') (hu : s.netlist u = some ⟨t, links⟩) : Merges f W s' := by
  refine ⟨h.mem, h.chain, fun i e he => ?_⟩
  obtain ⟨g, hg, ht⟩ := h.live i e he
  rw [hc.netlist]
  split
  · rename_i heu
    rw [heu, hu] at hg
    cases hg
    exact ⟨_, rfl, ht⟩
  · exact ⟨g, hg, ht⟩

theorem redirectLinks_eq {g : Gate} (hkey : ∀ l ∈ g.links, (f l.idx).isSome →
    ∀ k, s₀.strash k ≠ some u) : ∀ {k j n : ℕ} {s : SubnetBuilder}, MergeFrame s₀ s → Merges f W s →
    j + k = g.links.length → s.netlist u =
    some ⟨g.type, (g.links.take j).map (redirected f) ++ g.links.drop j⟩ →
    s.linkCount W ≤ n →
    ∃ s' n', redirectLinks f u k j n s = some (s', n') ∧ MergeFrame s₀ s' ∧ Merges f W s' ∧
      s'.netlist u = some ⟨g.type, g.links.map (redirected f)⟩ ∧
      (∀ i, i ≠ u → s'.netlist i = s.netlist i) ∧ s'.linkCount W ≤ n' := by
  intro k
  induction k with
  | zero =>
    intro j n s hs hm hj hu hn
    refine ⟨s, n, rfl, hs, hm, ?_, fun _ _ => rfl, hn⟩
    rw [hu, List.take_of_length_le (by omega), List.drop_of_length_le (by omega), List.append_nil]
  | succ k ih =>
    intro j n s hs hm hj hu hn
    have hlt : j < g.links.length := by omega
    have hdrop : g.links.drop j = g.links[j] :: g.links.drop (j + 1) :=
      List.drop_eq_getElem_cons hlt
    have htake : g.links.take (j + 1) = g.links.take j ++ [g.links[j]] :=
      (List.take_append_getElem hlt).symm
    have hlen : ((g.links.take j).map (redirected f)).length = j := by
      rw [List.length_map, List.length_take]
      omega
    obtain ⟨c, hc, hct, hcl⟩ := liveCell_of_netlist hu
    simp only at hct hcl
    have hl : c.links[j]? = some g.links[j] := by
      rw [hcl, hdrop, List.getElem?_append_right (by omega), hlen]
      simp
    have hnext : (g.links.take (j + 1)).map (redirected f) ++ g.links.drop (j + 1) =
        (g.links.take j).map (redirected f) ++ redirected f g.links[j] :: g.links.drop (j + 1) := by
      rw [htake, List.map_append, List.map_singleton, List.append_assoc, List.singleton_append]
    cases hf : f (g.links[j]).idx with
    | none =>
      obtain ⟨s', n', hs', hrest⟩ := ih (j := j + 1) hs hm (by omega)
        (by rw [hu, hnext, redirected_of_none hf, ← hdrop]) hn
      refine ⟨s', n', ?_, hrest⟩
      simp only [redirectLinks, getCell_of_live hc, hl, bind_eq_bind, bind_some, hf, hs']
    | some e =>
      obtain ⟨ge, hge, hget⟩ := hm.live _ e hf
      obtain ⟨a, ha, hat, -⟩ := liveCell_of_netlist hge
      have hk : ∀ k, s.strash k ≠ some u := by
        rw [hs.strash]
        exact hkey _ (List.getElem_mem hlt) (by simp [hf])
      obtain ⟨s₁, hs₁, hch⟩ := hs.net.redirectLink hs.off hc hl ha (hat ▸ hget) hk
      have hcount := hch.linkCount hc hl ((hm.mem _).mpr (by simp [hf])) (hm.chain _ e hf)
      have hset : c.links.set j { g.links[j] with idx := e } =
          (g.links.take (j + 1)).map (redirected f) ++ g.links.drop (j + 1) := by
        rw [hnext, hcl, hdrop, List.set_append_right _ _ (by omega), hlen, Nat.sub_self,
          List.set_cons_zero]
        simp [redirected, hf]
      have hu₁ : s₁.netlist u =
          some ⟨g.type, (g.links.take (j + 1)).map (redirected f) ++ g.links.drop (j + 1)⟩ := by
        rw [hch.netlist, if_pos rfl, hset, hct]
      have hother : ∀ i, i ≠ u → s₁.netlist i = s.netlist i := fun i hi => by
        rw [hch.netlist, if_neg hi]
      have hm₁ : Merges f W s₁ := hm.changed hch (by rw [hu, hct])
      have hs₁' := hch.frame hs
      by_cases hn1 : n ≤ 1
      · refine ⟨s₁, 0, ?_, hs₁', hm₁, ?_, hother, by omega⟩
        · simp only [redirectLinks, getCell_of_live hc, hl, bind_eq_bind, bind_some, hf,
            hs₁, hn1, if_true]
        · -- no link to a merged cell is left, so the other links stay as they are
          have hzero := linkCount_eq_zero hch.net (W := W) (by omega)
          have hsame : (g.links.drop (j + 1)).map (redirected f) = g.links.drop (j + 1) := by
            refine (List.map_congr_left (fun l hl => ?_)).trans (List.map_id _)
            refine redirected_of_none (Option.not_isSome_iff_eq_none.mp (fun hsome => ?_))
            refine hzero u l.idx ?_ ((hm.mem _).mpr hsome)
            rw [targets_eq_netlist, hu₁]
            exact List.mem_map_of_mem (List.mem_append_right _ hl)
          rw [hu₁]
          conv_rhs => rw [← List.take_append_drop (j + 1) g.links, List.map_append, hsame]
      · obtain ⟨s', n', hs', hfr, hm', hu', hother', hn'⟩ := ih (j := j + 1) (n := n - 1) hs₁' hm₁
          (by omega) hu₁ (by omega)
        refine ⟨s', n', ?_, hfr, hm', hu', fun i hi => (hother' i hi).trans (hother i hi), hn'⟩
        simp only [redirectLinks, getCell_of_live hc, hl, bind_eq_bind, bind_some, hf,
          hs₁, hn1, if_false, hs']

private theorem redirect_eq (N : Netlist) (f : EntryID → Option EntryID) (i : EntryID) :
    N.redirect f i = (N i).map (fun g => ⟨g.type, g.links.map (redirected f)⟩) := rfl

private theorem redirect_of_clean {N : Netlist}
    (hN : ∀ g, N i = some g → ∀ l ∈ g.links, f l.idx = none) : N.redirect f i = N i := by
  rw [redirect_eq]
  cases hg : N i with
  | none => rfl
  | some g =>
    have : g.links.map (redirected f) = g.links :=
      (List.map_congr_left (fun l hl => redirected_of_none (hN g hg l hl))).trans (List.map_id _)
    rw [map_some, this]

private theorem linkCount_redirect (hm : Merges f W s) {N : Netlist}
    (hN : s.netlist = N.redirect f) : s.linkCount W = 0 := by
  refine Finset.sum_eq_zero (fun i _ => ?_)
  rw [List.countP_eq_zero]
  intro j hj
  rw [targets_eq_netlist, hN, redirect_eq] at hj
  cases hg : N i with
  | none => simp [hg] at hj
  | some g =>
    simp only [hg, map_some, getD_some, List.map_map, List.mem_map] at hj
    obtain ⟨l, -, rfl⟩ := hj
    rw [decide_eq_true_eq]
    change (f l.idx).getD l.idx ∉ W
    cases hf : f l.idx with
    | some e => exact hm.chain _ e hf
    | none =>
      rw [Option.getD_none, hm.mem, hf]
      simp

private theorem redirect_of_count {R : List EntryID} (hs : MergeFrame s₀ s) (hm : Merges f W s)
    (hdone : ∀ i, i ∉ R → s.netlist i = s₀.netlist.redirect f i)
    (htodo : ∀ i ∈ R, s.netlist i = s₀.netlist i) (hcount : s.linkCount W = 0) :
    s.netlist = s₀.netlist.redirect f := by
  funext i
  by_cases hi : i ∈ R
  · rw [htodo i hi]
    refine (redirect_of_clean (fun g hg l hl => ?_)).symm
    refine Option.not_isSome_iff_eq_none.mp (fun hsome => ?_)
    refine linkCount_eq_zero hs.net hcount i l.idx ?_ ((hm.mem _).mpr hsome)
    exact mem_targets.mpr ⟨g, (htodo i hi).trans hg, l, hl, rfl⟩
  · exact hdone i hi

theorem mergeLoop_eq
    (hkey : ∀ k i, s₀.strash k = some i → ∀ g, s₀.netlist i = some g → ∀ l ∈ g.links,
      f l.idx = none) :
    ∀ {m n : ℕ} {p : Place} {R : List EntryID} {s : SubnetBuilder}, s₀.order.walk m p = some R →
    R.Nodup → (∀ i ∈ R, (s₀.netlist i).isSome) → MergeFrame s₀ s → Merges f W s →
    (∀ i, i ∉ R → s.netlist i = s₀.netlist.redirect f i) →
    (∀ i ∈ R, s.netlist i = s₀.netlist i) → s.linkCount W ≤ n →
    ∃ s', mergeLoop f m n p s = some s' ∧ MergeFrame s₀ s' ∧ s'.netlist = s₀.netlist.redirect f ∧
      s'.linkCount W = 0 := by
  intro m
  induction m with
  | zero =>
    intro n p R s hw hnd hlive hs hm hdone htodo hn
    cases p <;> simp [EntryOrder.walk] at hw
    subst hw
    have hall : s.netlist = s₀.netlist.redirect f := funext (fun i => hdone i (by simp))
    refine ⟨s, ?_, hs, hall, linkCount_redirect hm hall⟩
    cases n <;> rfl
  | succ m ih =>
    intro n p R s hw hnd hlive hs hm hdone htodo hn
    cases n with
    | zero =>
      have hzero : s.linkCount W = 0 := Nat.le_zero.mp hn
      exact ⟨s, rfl, hs, redirect_of_count hs hm hdone htodo hzero, hzero⟩
    | succ n =>
      cases p with
      | upperBoundID =>
        simp only [EntryOrder.walk, Option.some.injEq] at hw
        subst hw
        have hall : s.netlist = s₀.netlist.redirect f := funext (fun i => hdone i (by simp))
        exact ⟨s, rfl, hs, hall, linkCount_redirect hm hall⟩
      | entry u =>
        simp only [EntryOrder.walk, bind_eq_bind] at hw
        obtain ⟨q, hq, hw⟩ := bind_eq_some_iff.mp hw
        obtain ⟨R', hR', hw⟩ := bind_eq_some_iff.mp hw
        cases hw
        obtain ⟨huR, hnd'⟩ := List.nodup_cons.mp hnd
        obtain ⟨g, hg⟩ := Option.isSome_iff_exists.mp (hlive u (by simp))
        have hu : s.netlist u = some g := (htodo u (by simp)).trans hg
        obtain ⟨c, hc, hct, hcl⟩ := liveCell_of_netlist hu
        have harity : c.arity = g.links.length := congrArg List.length hcl
        have hfree : ∀ l ∈ g.links, (f l.idx).isSome → ∀ k, s₀.strash k ≠ some u := by
          intro l hl hsome k hk
          rw [hkey k u hk g hg l hl] at hsome
          cases hsome
        obtain ⟨s₁, n₁, hs₁, hfr, hm₁, hu₁, hother, hn₁⟩ :=
          redirectLinks_eq (k := g.links.length) (j := 0) hfree hs hm (by omega)
            (by simpa using hu) hn
        have hdone₁ : ∀ i, i ∉ R' → s₁.netlist i = s₀.netlist.redirect f i := by
          intro i hi
          by_cases hiu : i = u
          · rw [hiu, hu₁, redirect_eq, hg, map_some]
          · rw [hother i hiu]
            exact hdone i (by simp [hi, hiu])
        have htodo₁ : ∀ i ∈ R', s₁.netlist i = s₀.netlist i := by
          intro i hi
          rw [hother i (fun hiu => huR (hiu ▸ hi))]
          exact htodo i (by simp [hi])
        obtain ⟨s', hs', hrest⟩ := ih (n := n₁) hR' hnd' (fun i hi => hlive i (by simp [hi]))
          hfr hm₁ hdone₁ htodo₁ hn₁
        refine ⟨s', ?_, hrest⟩
        simp only [mergeLoop, getCell_of_live hc, harity, hs₁, hfr.order, hq, bind_eq_bind,
          bind_some, hs']
      | _ => simp [EntryOrder.walk] at hw

private theorem skipUnmerged_eq {o : EntryOrder} : ∀ {m : ℕ} {p : Place} {L : List EntryID},
    o.walk m p = some L → ∃ A R q m', skipUnmerged o f m p = some q ∧ o.walk m' q = some R ∧
      m' ≤ m ∧ L = A ++ R ∧
      ((∀ i ∈ L, f i = none) ∨ ∃ A' v, A = A' ++ [v] ∧ ∀ i ∈ A', f i = none) := by
  intro m
  induction m with
  | zero =>
    intro p L hw
    cases p <;> simp [EntryOrder.walk] at hw
    subst hw
    exact ⟨[], [], .upperBoundID, 0, rfl, rfl, Nat.le_refl _, rfl, .inl (by simp)⟩
  | succ m ih =>
    intro p L hw
    cases p with
    | upperBoundID =>
      simp only [EntryOrder.walk, Option.some.injEq] at hw
      subst hw
      exact ⟨[], [], .upperBoundID, 0, rfl, rfl, Nat.zero_le _, rfl, .inl (by simp)⟩
    | entry u =>
      simp only [EntryOrder.walk, bind_eq_bind] at hw
      obtain ⟨q, hq, hw⟩ := bind_eq_some_iff.mp hw
      obtain ⟨L', hL', hw⟩ := bind_eq_some_iff.mp hw
      cases hw
      cases hf : f u with
      | some e =>
        refine ⟨[u], L', q, m, ?_, hL', Nat.le_succ m, rfl, .inr ⟨[], u, rfl, by simp⟩⟩
        simp [skipUnmerged, hf, hq]
      | none =>
        obtain ⟨A, R, q', m', hskip, hwalk, hle, rfl, hor⟩ := ih hL'
        refine ⟨u :: A, R, q', m', ?_, hwalk, Nat.le_succ_of_le hle, rfl, ?_⟩
        · simp [skipUnmerged, hf, hq, hskip]
        · rcases hor with hall | ⟨A', v, rfl, hA'⟩
          · exact .inl (by simpa [hf] using hall)
          · exact .inr ⟨u :: A', v, rfl, by simpa [hf] using hA'⟩
    | _ => simp [EntryOrder.walk] at hw

private theorem walk_mono {o : EntryOrder} : ∀ {m k : ℕ} {p : Place} {L : List EntryID},
    o.walk m p = some L → m ≤ k → o.walk k p = some L := by
  intro m
  induction m with
  | zero =>
    intro k p L hw _
    cases p <;> simp [EntryOrder.walk] at hw
    subst hw
    cases k <;> rfl
  | succ m ih =>
    intro k p L hw hk
    obtain ⟨k, rfl⟩ : ∃ k', k = k' + 1 := ⟨k - 1, by omega⟩
    cases p with
    | entry u =>
      simp only [EntryOrder.walk, bind_eq_bind] at hw ⊢
      obtain ⟨q, hq, hw⟩ := bind_eq_some_iff.mp hw
      obtain ⟨L', hL', hw⟩ := bind_eq_some_iff.mp hw
      rw [hq, bind_some, ih hL' (by omega), bind_some]
      exact hw
    | upperBoundID => exact hw
    | _ => simp [EntryOrder.walk] at hw

private def refcountOf (s : SubnetBuilder) (i : EntryID) : ℕ :=
  ((s.getCell i).map SubnetCell.refcount).getD 0

private theorem mergeRefcount_eq {lib : CellLibrary} (h : s.mergeRefcount lib i = some n) :
    n = s.refcountOf i := by
  simp only [mergeRefcount, bind_eq_bind] at h
  obtain ⟨c, hc, h⟩ := bind_eq_some_iff.mp h
  split at h
  · cases h
    simp [refcountOf, hc]
  · cases h

private theorem mapM_refcount {lib : CellLibrary} : ∀ {ids : List EntryID} {counts : List ℕ},
    ids.mapM (s.mergeRefcount lib) = some counts → counts = ids.map s.refcountOf := by
  intro ids
  induction ids with
  | nil =>
    intro counts h
    cases h
    rfl
  | cons i ids ih =>
    intro counts h
    rw [List.mapM_cons] at h
    obtain ⟨n, hn, h⟩ := bind_eq_some_iff.mp h
    obtain ⟨ns, hns, h⟩ := bind_eq_some_iff.mp h
    cases h
    rw [List.map_cons, ← ih hns, ← mergeRefcount_eq hn]

private theorem mergeRefcounts_eq {lib : CellLibrary} : ∀ {m : MergeMap} {n : ℕ},
    s.mergeRefcounts lib m = some n → n = ((m.flatMap Prod.snd).map s.refcountOf).sum := by
  intro m
  induction m with
  | nil =>
    intro n h
    cases h
    rfl
  | cons p m ih =>
    intro n h
    obtain ⟨e, ids⟩ := p
    simp only [mergeRefcounts, bind_eq_bind] at h
    obtain ⟨_, -, h⟩ := bind_eq_some_iff.mp h
    split at h
    · cases h
    · obtain ⟨counts, hcounts, h⟩ := bind_eq_some_iff.mp h
      obtain ⟨k, hk, h⟩ := bind_eq_some_iff.mp h
      cases h
      rw [List.flatMap_cons, List.map_append, List.sum_append, mapM_refcount hcounts, ih hk]

theorem linkCount_le {lib : CellLibrary} {m : MergeMap} (hs : NetInv s s.targets)
    (hlive : ∀ p ∈ m, ∀ i ∈ p.2, (s.netlist i).isSome) (h : s.mergeRefcounts lib m = some n) :
    s.linkCount (m.flatMap Prod.snd).toFinset ≤ n := by
  rw [mergeRefcounts_eq h, linkCount, ← sum_card_users, Finset.sum_list_map_count]
  refine Finset.sum_le_sum (fun i hi => ?_)
  have hmem := List.mem_toFinset.mp hi
  obtain ⟨p, hp, hip⟩ := List.mem_flatMap.mp hmem
  obtain ⟨g, hg⟩ := Option.isSome_iff_exists.mp (hlive p hp i hip)
  obtain ⟨c, hc, -⟩ := liveCell_of_netlist hg
  have hcount : 1 ≤ (m.flatMap Prod.snd).count i := List.count_pos_iff.mpr hmem
  rw [← hs.refcount i c hc, refcountOf, getCell_of_live hc, map_some, getD_some]
  exact Nat.le_mul_of_pos_left _ hcount

theorem NetInv.of_deleteMerged : ∀ {others : List EntryID} {s : SubnetBuilder},
    NetInv s s.targets → others.Nodup →
    (∀ i ∈ others, ∃ g, s.netlist i = some g ∧ g.type ≠ .OUT) →
    (∀ i ∈ others, users (range s.size) s.targets i = 0) →
    deleteMerged others s = some s' → NetInv s' s'.targets ∧ ∃ D, Deleted s s' D := by
  intro others
  induction others with
  | nil =>
    intro s h _ _ _ hs
    cases hs
    exact ⟨h, ∅, (SameNet.refl _).deleted⟩
  | cons v others ih =>
    intro s h hnd hlive hunused hs
    obtain ⟨hv, hnd'⟩ := List.nodup_cons.mp hnd
    obtain ⟨g, hg, hgt⟩ := hlive v (by simp)
    obtain ⟨c, hc, hct, -⟩ := liveCell_of_netlist hg
    simp only [deleteMerged, getCell_of_live hc, bind_eq_bind, bind_some] at hs
    split at hs
    · obtain ⟨s₁, hs₁, hs⟩ := bind_eq_some_iff.mp hs
      have hdel : Deleting s.netlist v ∅ s s.targets [v] := by
        refine ⟨h, fun _ _ => rfl, fun _ _ hg => hg, by simp, ?_, ?_, ?_, ?_, ?_⟩
        · intro e he
          rw [List.mem_singleton.mp he, hc]
          rfl
        · intro e he
          exact hunused e (by simp [List.mem_singleton.mp he])
        · intro e he
          rw [List.mem_singleton.mp he, getTypeID_of_live hc, hct]
          exact hgt
        · intro e he
          exact .inl (List.mem_singleton.mp he)
        · intro e he
          rw [List.mem_singleton.mp he]
          exact .refl
      obtain ⟨D, V', h₁, hdel₁, -, hD⟩ := hdel.of_deleteQueue (by simp) hs₁
      have hnet₁ : NetInv s₁ s₁.targets := h₁.net.congr (fun i => (h₁.agree i (by simp)).symm)
      -- a cell without users is not reached from another one
      have hkeep : ∀ w ∈ others, w ∉ D := by
        intro w hw hwD
        rcases Relation.ReflTransGen.cases_tail (hD w hwD).1 with heq | ⟨k, -, hk⟩
        · exact hv (heq ▸ hw)
        · have hkw := mem_targets.mpr hk
          refine users_eq_zero.mp (hunused w (by simp [hw])) k (mem_range.mpr (h.user k ?_)) hkw
          exact List.ne_nil_of_mem hkw
      have hlive₁ : ∀ w ∈ others, ∃ g, s₁.netlist w = some g ∧ g.type ≠ .OUT := by
        intro w hw
        obtain ⟨gw, hgw, hgwt⟩ := hlive w (by simp [hw])
        exact ⟨gw, by rw [hdel₁.netlist, if_neg (hkeep w hw), hgw], hgwt⟩
      have hunused₁ : ∀ w ∈ others, users (range s₁.size) s₁.targets w = 0 := by
        intro w hw
        rw [users_eq_zero, hdel₁.size]
        intro k hk hmem
        rw [hdel₁.targets] at hmem
        split at hmem
        · simp at hmem
        · exact users_eq_zero.mp (hunused w (by simp [hw])) k hk hmem
      obtain ⟨h', D', hdel'⟩ := ih hnet₁ hnd' hlive₁ hunused₁ hs
      exact ⟨h', D ∪ D', hdel₁.trans hdel'⟩
    · cases hs

theorem mergeTo_isSome {m : MergeMap} : (m.mergeTo i).isSome ↔ i ∈ m.flatMap Prod.snd := by
  rw [MergeMap.mergeTo, Option.isSome_map, List.find?_isSome, List.mem_flatMap]
  simp

theorem mem_of_mergeTo {m : MergeMap} (h : m.mergeTo i = some e) : ∃ ids, (e, ids) ∈ m := by
  obtain ⟨p, hp, rfl⟩ := Option.map_eq_some_iff.mp h
  exact ⟨p.2, List.mem_of_find?_eq_some hp⟩

/-- The conditions under which `mergeCells` works: the order lists the cells in use, every one
behind its inputs; no remaining cell is merged itself; no hashed cell links to a merged one. -/
structure MergeOk (s : SubnetBuilder) (m : MergeMap) : Prop where
  order : ∃ L, s.order.entryIDs = some L ∧ L.Nodup ∧ (∀ i, i ∈ L ↔ (s.netlist i).isSome) ∧
    L.Pairwise (fun a b => ¬ s.netlist.Fanin a b)
  chain : ∀ p ∈ m, m.mergeTo p.1 = none
  unhashed : ∀ k i, s.strash k = some i → ∀ g, s.netlist i = some g → ∀ l ∈ g.links,
    m.mergeTo l.idx = none

private theorem no_merged_links {L A R : List EntryID} (hs : NetInv s s.targets)
    (hself : ∀ i, ¬ s.netlist.Fanin i i) (hlive : ∀ i, i ∈ L ↔ (s.netlist i).isSome)
    (hpair : L.Pairwise (fun a b => ¬ s.netlist.Fanin a b)) (hL : L = A ++ R)
    (hA : (∀ i ∈ L, f i = none) ∨ ∃ A' v, A = A' ++ [v] ∧ ∀ i ∈ A', f i = none)
    (hi : i ∈ A) {g : Gate} (hg : s.netlist i = some g) (hl : l ∈ g.links) : f l.idx = none := by
  have hfan : s.netlist.Fanin i l.idx := ⟨g, hg, l, hl, rfl⟩
  obtain ⟨gw, hgw, -⟩ := hs.closed hfan
  have hw : l.idx ∈ L := (hlive _).mpr (by simp [hgw])
  rcases hA with hall | ⟨A', v, rfl, hA'⟩
  · exact hall _ hw
  · rw [hL, List.append_assoc] at hw hpair
    rcases List.mem_append.mp hw with hw | hw
    · exact hA' _ hw
    · exfalso
      obtain ⟨-, hvR, hcross⟩ := List.pairwise_append.mp hpair
      rcases List.mem_append.mp hi with hi | hi
      · exact hcross i hi _ hw hfan
      · rw [List.mem_singleton.mp hi] at hfan
        rcases List.mem_cons.mp hw with hw | hw
        · rw [hw] at hfan
          exact hself v hfan
        · exact (List.pairwise_cons.mp hvR).1 _ hw hfan

theorem NetInv.of_mergeCells {lib : CellLibrary} {m : MergeMap} (h : NetInv s s.targets)
    (hoff : s.fanoutsEnabled = false) (hself : ∀ i, ¬ s.netlist.Fanin i i)
    (hlive : ∀ p ∈ m, ∀ i ∈ p.1 :: p.2, ∃ g, s.netlist i = some g ∧ g.type ≠ .OUT)
    (hok : MergeOk s m) (hm : s.mergeCells lib m = some s') :
    NetInv s' s'.targets ∧ s'.fanoutsEnabled = false ∧
      ∃ D : Finset EntryID, ∀ i, s'.netlist i =
        if i ∈ D then none else s.netlist.redirect m.mergeTo i := by
  obtain ⟨L, hL, hnd, hmem, hpair⟩ := hok.order
  let W := (m.flatMap Prod.snd).toFinset
  have hW : ∀ i, i ∈ W ↔ (m.mergeTo i).isSome := fun i => by
    rw [mergeTo_isSome, List.mem_toFinset]
  have hmerges : Merges m.mergeTo W s := by
    refine ⟨hW, fun i e he => ?_, fun i e he => ?_⟩
    · obtain ⟨ids, hids⟩ := mem_of_mergeTo he
      rw [hW, hok.chain _ hids]
      simp
    · obtain ⟨ids, hids⟩ := mem_of_mergeTo he
      exact hlive _ hids e (by simp)
  have hmerged : ∀ v ∈ m.others, v ∈ W ∧ ∃ g, s.netlist v = some g ∧ g.type ≠ .OUT := by
    intro v hv
    rw [MergeMap.others, List.mem_dedup] at hv
    obtain ⟨p, hp, hvp⟩ := List.mem_flatMap.mp hv
    exact ⟨List.mem_toFinset.mpr hv, hlive p hp v (by simp [hvp])⟩
  simp only [SubnetBuilder.mergeCells, bind_eq_bind] at hm
  obtain ⟨n, hn, hm⟩ := bind_eq_some_iff.mp hm
  split at hm
  · cases hm
  · obtain ⟨p, hp, hm⟩ := bind_eq_some_iff.mp hm
    obtain ⟨s₁, hs₁, hm⟩ := bind_eq_some_iff.mp hm
    obtain ⟨A, R, q, m', hskip, hwalk, hle, hAR, hA⟩ := skipUnmerged_eq (f := m.mergeTo) hL
    rw [show s.order.size = s.size from rfl, hp, Option.some.injEq] at hskip
    subst hskip
    have hcount : s.linkCount W ≤ n :=
      linkCount_le h (fun p hp i hi => by
        obtain ⟨g, hg, -⟩ := hlive p hp i (by simp [hi])
        simp [hg]) hn
    have hdone : ∀ i, i ∉ R → s.netlist i = s.netlist.redirect m.mergeTo i := by
      intro i hi
      refine (redirect_of_clean (fun g hg l hl => ?_)).symm
      have hiA : i ∈ A := by
        have := (hmem i).mpr (by simp [hg])
        rw [hAR] at this
        exact (List.mem_append.mp this).resolve_right hi
      exact no_merged_links h hself hmem hpair hAR hA hiA hg hl
    have hRL : ∀ i ∈ R, i ∈ L := fun i hi => hAR ▸ List.mem_append_right _ hi
    obtain ⟨s₂, hs₂, hfr, hnet, hzero⟩ := mergeLoop_eq hok.unhashed
      (walk_mono hwalk (Nat.le_trans hle (Nat.le_refl _)))
      (hnd.sublist (hAR ▸ List.sublist_append_right _ _)) (fun i hi => (hmem i).mp (hRL i hi))
      ⟨h, hoff, rfl, rfl, rfl⟩ hmerges hdone (fun _ _ => rfl) hcount
    rw [show s.order.size = s.size from rfl, hs₁] at hs₂
    cases hs₂
    have hlive₂ : ∀ v ∈ m.others, ∃ g, s₁.netlist v = some g ∧ g.type ≠ .OUT := by
      intro v hv
      obtain ⟨-, g, hg, hgt⟩ := hmerged v hv
      exact ⟨⟨g.type, g.links.map (redirected m.mergeTo)⟩,
        by rw [hnet, redirect_eq, hg, map_some], hgt⟩
    have hunused : ∀ v ∈ m.others, users (range s₁.size) s₁.targets v = 0 := by
      intro v hv
      rw [users_eq_zero]
      exact fun i _ hiv => linkCount_eq_zero hfr.net hzero i v hiv (hmerged v hv).1
    obtain ⟨h', D, hdel⟩ := hfr.net.of_deleteMerged (List.nodup_dedup _) hlive₂ hunused hm
    refine ⟨h', hdel.enabled.trans hfr.off, D, fun i => ?_⟩
    rw [hdel.netlist, hnet]

end UtopiaEda.SubnetBuilder
