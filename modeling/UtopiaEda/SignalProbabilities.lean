import UtopiaEda.ProbabilityEstimator
import UtopiaEda.SubnetEncoding
import UtopiaEda.SubnetSerialization

/-!
# Probabilities in read-once networks

Where each cell is a source of at most one link, the cones of the sources of a cell have no input in
common. Then the sources are independent, and the estimates are right.
-/
namespace UtopiaEda.ProbabilityEstimator
open ProductWeights SubnetBuilder List
open Option (bind_eq_bind bind_eq_some_iff bind_some isSome_iff_exists some.inj)
open Function (swap update_apply update_of_ne update_self)

section
variable {K : Type} [Field K]

def assign (ins : List EntryID) (x : Fin ins.length → Bool) (i : EntryID) : Bool :=
  if h : ins.idxOf i < ins.length then x ⟨ins.idxOf i, h⟩ else false

/-- The estimate for each cell is the total weight of the assignments on which it evaluates to 1. -/
def Exact (lib : CellLibrary) (s : SubnetBuilder) (ins : List EntryID) (inProbs : List K) : Prop :=
  ∃ probs, estimateProbs s inProbs = some probs ∧ ∀ i, (s.liveCell i).isSome → probs i =
    ∑ x : Fin ins.length → Bool, if s.value lib (assign ins x) i 0 = some true then
    weight (inputProb ins inProbs) x else 0

/-- Each cell is a source of at most one link. -/
structure ReadOnce (s : SubnetBuilder) : Prop where
  links : ∀ i c, s.liveCell i = some c → (c.links.map Link.idx).Nodup
  readers : ∀ i i' j, s.netlist.Fanin i j → s.netlist.Fanin i' j → i = i'

/-- The probability of an input stands at the number of its entry, too. -/
def AtEntries (ins : List EntryID) (inProbs : List K) : Prop :=
  ∀ (k : ℕ) (e : EntryID), ins[k]? = some e → inProbs[e]? = inProbs[k]?

structure Valuation (lib : CellLibrary) (s : SubnetBuilder) (ins : List EntryID)
    (val : (Fin ins.length → Bool) → EntryID → Bool) :
    Prop where
  value : ∀ x i, (s.liveCell i).isSome → s.value lib (assign ins x) i 0 = some (val x i)
  input : ∀ x (k : Fin ins.length), (s.liveCell (ins.get k)).isSome → val x (ins.get k) = x k
  gate : ∀ x i c, s.liveCell i = some c → c.type ≠ .IN →
    val x i = c.type.eval lib (c.links.map fun l => xor (val x l.idx) l.inv) 0

variable {lib : CellLibrary} {s : SubnetBuilder} {more : EntryID → List EntryID}
  {ins mid outs : List EntryID} {val : (Fin ins.length → Bool) → EntryID → Bool} {i j k e : ℕ}
  {c : SubnetCell} {inProbs : List K} {probs probs' : EntryID → K}

private theorem eval_port {t : CellTypeID} {n : ℕ} (ht : Estimable t n) (xs : List Bool) (out : ℕ) :
    t.eval lib xs out = t.eval lib xs 0 := by
  cases t with
  | soft sid => exact ht.elim
  | _ => rfl

theorem exists_valuation (lib : CellLibrary) (h : Ordered s more ins mid outs)
    (hcells : ∀ i c, s.liveCell i = some c → c.type = .IN ∨ Estimable c.type c.links.length) :
    ∃ val, Valuation lib s ins val := by
  choose ρ hρ using fun x : Fin ins.length → Bool => h.acyclic.exists_solves lib (assign ins x)
  have hval : ∀ x i out, (s.liveCell i).isSome → s.value lib (assign ins x) i out =
      some (ρ x i out) := by
    intro x i out hi
    refine Netlist.value_eq h.acyclic h.closed (fun j hj => ?_) (hρ x) (by rwa [netlist_isSome]) out
    obtain ⟨g, hg⟩ := isSome_iff_exists.mp hj
    exact lt_of_netlist hg
  have hport : ∀ x i c, s.liveCell i = some c → ∀ out, ρ x i out = ρ x i 0 := by
    intro x i c hc out
    rw [hρ x i _ (netlist_of_live hc), Netlist.gateValue, Netlist.gateValue]
    by_cases ht : c.type = .IN
    · rw [if_pos ht, if_pos ht]
    · rw [if_neg ht, if_neg ht]
      exact eval_port ((hcells i c hc).resolve_left ht) _ out
  refine ⟨fun x i => ρ x i 0, fun x i => hval x i 0, fun x k hk => ?_, fun x i c hc ht => ?_⟩
  · obtain ⟨c, hc⟩ := isSome_iff_exists.mp hk
    have ht : c.type = .IN := (h.input _ c hc).mpr (get_mem ins k)
    have hnd : ins.Nodup := (nodup_append.mp (nodup_append.mp h.nodup).1).1
    have hidx : ins.idxOf (ins.get k) = k := List.Nodup.idxOf_getElem hnd k k.2
    rw [hρ x _ _ (netlist_of_live hc), Netlist.gateValue, if_pos ht, assign,
      dif_pos (by rw [hidx]; exact k.2)]
    exact congrArg x (Fin.ext hidx)
  · rw [hρ x i _ (netlist_of_live hc), Netlist.gateValue, if_neg ht]
    refine congrArg (fun xs => c.type.eval lib xs 0) (map_congr_left fun l hl => ?_)
    obtain ⟨c', hc'⟩ := isSome_iff_exists.mp
      ((netlist_isSome (i := l.idx)).symm.trans (h.closed i l.idx ⟨_, netlist_of_live hc, l,
        hl, rfl⟩))
    rw [Link.value, hport x _ c' hc' l.out]

/-! ### Cones -/

/-- The numbers of the inputs that a cell depends on. -/
def cone (s : SubnetBuilder) (ins : List EntryID) (j : EntryID) : Set (Fin ins.length) :=
  {k | s.netlist.Reaches j (ins.get k)}

theorem Valuation.dependsOn (hv : Valuation lib s ins val) (h : Ordered s more ins mid outs)
    (hj : (s.liveCell j).isSome) : DependsOn (fun x => val x j) (cone s ins j) := by
  obtain ⟨r, hr⟩ := h.acyclic
  induction hn : r j using Nat.strong_induction_on generalizing j with
  | _ n ih =>
    obtain ⟨c, hc⟩ := isSome_iff_exists.mp hj
    intro x y hxy
    by_cases ht : c.type = .IN
    · obtain ⟨k, hk, hget⟩ := mem_iff_getElem.mp ((h.input j c hc).mp ht)
      have hjk : ins.get ⟨k, hk⟩ = j := hget
      have hlive : (s.liveCell (ins.get ⟨k, hk⟩)).isSome := hjk ▸ hj
      have hmem : (⟨k, hk⟩ : Fin ins.length) ∈ cone s ins j := by
        change s.netlist.Reaches j (ins.get ⟨k, hk⟩)
        exact hjk ▸ Relation.ReflTransGen.refl
      have hx := hv.input x ⟨k, hk⟩ hlive
      have hy := hv.input y ⟨k, hk⟩ hlive
      rw [hjk] at hx hy
      exact hx.trans ((hxy _ hmem).trans hy.symm)
    · simp only [hv.gate x j c hc ht, hv.gate y j c hc ht]
      refine congrArg (fun xs => c.type.eval lib xs 0) (map_congr_left fun l hl => ?_)
      have hfan : s.netlist.Fanin j l.idx := ⟨_, netlist_of_live hc, l, hl, rfl⟩
      have hlive : (s.liveCell l.idx).isSome :=
        (netlist_isSome (i := l.idx)).symm.trans (h.closed j l.idx hfan)
      have heq : val x l.idx = val y l.idx :=
        ih (r l.idx) (hn ▸ hr j l.idx hfan) hlive rfl fun k hk =>
          hxy k (Relation.ReflTransGen.head hfan hk)
      rw [heq]

theorem ReadOnce.not_reaches (hread : ReadOnce s) (hacyclic : s.netlist.Acyclic)
    (hj : s.netlist.Fanin i j) (hk : s.netlist.Fanin i k) (hne : j ≠ k) :
    ¬ s.netlist.Reaches j k := by
  intro hjk
  obtain ⟨r, hr⟩ := hacyclic
  have hmono : ∀ {a b}, s.netlist.Reaches a b → r b ≤ r a := by
    intro a b hab
    induction hab with
    | refl => exact Nat.le_refl _
    | tail _ hstep ih => exact Nat.le_trans (Nat.le_of_lt (hr _ _ hstep)) ih
  rcases Relation.ReflTransGen.cases_tail hjk with heq | ⟨m, hjm, hmk⟩
  · exact hne heq.symm
  · -- the only reader of `k` is `i`, which stands behind `j`
    rw [hread.readers m i k hmk hk] at hjm
    exact Nat.lt_irrefl _ (Nat.lt_of_lt_of_le (hr i j hj) (hmono hjm))

theorem ReadOnce.disjoint_cones (hread : ReadOnce s) (hacyclic : s.netlist.Acyclic)
    (hj : s.netlist.Fanin i j) (hk : s.netlist.Fanin i k) (hne : j ≠ k) : Disjoint (cone s ins j)
    (cone s ins k) := by
  refine Set.disjoint_left.mpr fun n hjn hkn => ?_
  have hright : Relator.RightUnique (swap s.netlist.Fanin) :=
    fun e a b ha hb => hread.readers a b e ha hb
  rcases Relation.ReflTransGen.total_of_right_unique hright (Relation.reflTransGen_swap.mpr hjn)
    (Relation.reflTransGen_swap.mpr hkn) with hjk | hkj
  · exact hread.not_reaches hacyclic hk hj hne.symm (Relation.reflTransGen_swap.mp hjk)
  · exact hread.not_reaches hacyclic hj hk hne (Relation.reflTransGen_swap.mp hkj)

theorem Valuation.independent (hv : Valuation lib s ins val) (h : Ordered s more ins mid outs)
    (hread : ReadOnce s) : ∀ {ls : List Link}, (∀ l ∈ ls, s.netlist.Fanin i l.idx) →
    (ls.map Link.idx).Nodup →
      ∃ A, Independent (ls.map fun l x => xor (val x l.idx) l.inv) A ∧ ∀ k ∈ A, ∃ l ∈ ls,
      k ∈ cone s ins l.idx := by
  intro ls
  induction ls with
  | nil => exact fun _ _ => ⟨∅, .nil, fun k hk => hk.elim⟩
  | cons l ls ih =>
    intro hfan hnd
    obtain ⟨hl, hnd⟩ := nodup_cons.mp hnd
    obtain ⟨A, hA, hcone⟩ := ih (fun l' hl' => hfan l' (mem_cons_of_mem l hl')) hnd
    have hlfan := hfan l mem_cons_self
    have hlive : (s.liveCell l.idx).isSome :=
      (netlist_isSome (i := l.idx)).symm.trans (h.closed i l.idx hlfan)
    have hdep : DependsOn (fun x => xor (val x l.idx) l.inv) (cone s ins l.idx) := fun x y hxy => by
      have heq : val x l.idx = val y l.idx := hv.dependsOn h hlive hxy
      simp only [heq]
    refine ⟨cone s ins l.idx ∪ A, .cons hdep hA (Set.disjoint_left.mpr fun k hk hkA => ?_),
      fun k hk => ?_⟩
    · obtain ⟨l', hl', hk'⟩ := hcone k hkA
      have hne : l.idx ≠ l'.idx := fun heq => hl (heq ▸ mem_map_of_mem hl')
      exact Set.disjoint_left.mp
        (hread.disjoint_cones h.acyclic hlfan (hfan l' (mem_cons_of_mem l hl')) hne) hk hk'
    · rcases hk with hk | hk
      · exact ⟨l, mem_cons_self, hk⟩
      · obtain ⟨l', hl', hk'⟩ := hcone k hk
        exact ⟨l', mem_cons_of_mem l hl', hk'⟩

/-! ### The pass -/

/-- The estimates of the cells visited so far are right. -/
def Right (ins : List EntryID) (inProbs : List K) (val : (Fin ins.length → Bool) → EntryID → Bool)
    (ps : List EntryID) (probs : EntryID → K) : Prop :=
  ∀ j ∈ ps, probs j = probability (inputProb ins inProbs) fun x => val x j

theorem probability_not {ι : Type} [Fintype ι] [DecidableEq ι] {p : ι → K} (f : (ι → Bool) → Bool) :
    probability p (fun x => !f x) = 1 - probability p f := by
  rw [eq_sub_iff_add_eq, probability, probability, ← mean_add, ← mean_const (p := p) 1]
  refine mean_congr fun x => ?_
  cases f x <;> simp [indicator]

theorem getLinks_of_ordered (h : Ordered s more ins mid outs) (hc : s.liveCell i = some c) :
    s.getLinks i = some c.links := by
  obtain ⟨ps, rest, hps⟩ := append_of_mem (h.mem_of_live hc)
  have hv := h.visits
  rw [hps, entriesOf_append, entriesOf_cons, ← append_assoc] at hv
  exact getLinks_of_stored (getCell_of_live hc) (h.stored i c hc) hv

theorem Right.step {ps rest : List EntryID} (hR : Right ins inProbs val ps probs)
    (hv : Valuation lib s ins val) (h : Ordered s more ins mid outs) (hread : ReadOnce s)
    (hcells : ∀ i c, s.liveCell i = some c → c.type = .IN ∨ Estimable c.type c.links.length)
    (hlen : inProbs = [] ∨ inProbs.length = ins.length) (hat : inProbs = [] ∨ AtEntries ins inProbs)
    (hps : ins ++ mid ++ outs = ps ++ i :: rest) :
    ∃ probs', estimateCell s inProbs probs i = some probs' ∧
    Right ins inProbs val (ps ++ [i]) probs' := by
  obtain ⟨c, hc⟩ := h.exists_live (i := i) (by rw [hps]; simp)
  suffices hp : estimateP inProbs i c c.links probs =
      some (probability (inputProb ins inProbs) fun x => val x i) by
    refine ⟨Function.update probs i (probability (inputProb ins inProbs) fun x => val x i), ?_,
      fun j hj => ?_⟩
    · simp only [estimateCell, getCell_of_live hc, getLinks_of_ordered h hc, hp,
        bind_eq_bind, bind_some]
    · by_cases hij : j = i
      · rw [hij, update_self]
      · rw [update_of_ne hij]
        exact hR j ((mem_append.mp hj).resolve_right fun hmem => hij
          (mem_singleton.mp hmem))
  by_cases ht : c.type = .IN
  · obtain ⟨k, hk, hget⟩ := mem_iff_getElem.mp ((h.input i c hc).mp ht)
    have hik : ins.get ⟨k, hk⟩ = i := hget
    have hbit : probability (inputProb ins inProbs) (fun x => val x i) =
        inputProb ins inProbs ⟨k, hk⟩ := by
      rw [← probability_bit (p := inputProb ins inProbs) ⟨k, hk⟩]
      refine mean_congr fun x => congrArg indicator ?_
      have hx := hv.input x ⟨k, hk⟩ (by rw [hik, hc]; rfl)
      rwa [hik] at hx
    rw [hbit, inputProb, estimateP, if_pos (show c.isIn = true from decide_eq_true ht)]
    cases hempty : inProbs.isEmpty with
    | true => rfl
    | false =>
      have hne : inProbs ≠ [] := fun hnil => by rw [hnil] at hempty; cases hempty
      have hlt : k < inProbs.length := (hlen.resolve_left hne).symm ▸ hk
      rw [if_neg Bool.false_ne_true, if_neg Bool.false_ne_true,
        hat.resolve_left hne k i (List.getElem?_eq_some_iff.mpr ⟨hk, hget⟩),
        getD_eq_getElem _ _ hlt]
      exact getElem?_eq_getElem hlt
  · have hfan : ∀ l ∈ c.links, s.netlist.Fanin i l.idx :=
      fun l hl => ⟨_, netlist_of_live hc, l, hl, rfl⟩
    obtain ⟨A, hA, -⟩ := hv.independent h hread hfan (hread.links i c hc)
    have hmean := hA.mean_eq (p := inputProb ins inProbs) fun v => indicator (c.type.eval lib v 0)
    have hlinks : c.links.map (linkProb probs) =
        (c.links.map fun l x => xor (val x l.idx) l.inv).map
        (probability (inputProb ins inProbs)) := by
      rw [map_map]
      refine map_congr_left fun l hl => ?_
      rw [linkProb, hR l.idx (h.fanins ps i rest c hps hc l hl)]
      cases hinv : l.inv with
      | true =>
        rw [if_pos rfl, ← probability_not]
        exact mean_congr fun x => congrArg indicator (by simp [hinv])
      | false =>
        rw [if_neg Bool.false_ne_true]
        exact mean_congr fun x => congrArg indicator (by simp [hinv])
    rw [estimateP, if_neg (show ¬ c.isIn = true from fun hin => ht (of_decide_eq_true hin)),
      estimateGate_eq ((hcells i c hc).resolve_left ht) lib, hlinks, ← hmean]
    refine congrArg some (mean_congr fun x => congrArg indicator ?_)
    have hgate := hv.gate x i c hc ht
    rw [map_map]
    exact hgate.symm

theorem Right.run (hv : Valuation lib s ins val) (h : Ordered s more ins mid outs)
    (hread : ReadOnce s) (hcells : ∀ i c, s.liveCell i = some c → c.type = .IN ∨
    Estimable c.type c.links.length) (hlen : inProbs = [] ∨ inProbs.length = ins.length)
    (hat : inProbs = [] ∨ AtEntries ins inProbs) : ∀ {rest ps : List EntryID} {probs : EntryID → K},
    Right ins inProbs val ps probs → ins ++ mid ++ outs = ps ++ rest →
      ∃ probs', rest.foldlM (estimateCell s inProbs) probs = some probs' ∧
      Right ins inProbs val (ps ++ rest) probs' := by
  intro rest
  induction rest with
  | nil =>
    intro ps probs hR _
    exact ⟨probs, rfl, by rwa [append_nil]⟩
  | cons i rest ih =>
    intro ps probs hR hps
    obtain ⟨probs₁, h₁, hR₁⟩ := hR.step hv h hread hcells hlen hat hps
    obtain ⟨probs', h', hR'⟩ := ih hR₁ (by rw [hps, append_assoc, singleton_append])
    refine ⟨probs', ?_, ?_⟩
    · rw [foldlM_cons, h₁]
      exact h'
    · rwa [append_assoc, singleton_append] at hR'

theorem estimateProbs_of_order (h : Ordered s more ins mid outs) (hne : ins ++ mid ++ outs ≠ []) :
    estimateProbs s inProbs = (ins ++ mid ++ outs).foldlM (estimateCell s inProbs) fun _ => 0 := by
  rw [estimateProbs, h.cellIDs_eq hne, bind_eq_bind, bind_some]

/-- In a builder without cells there is no begin to start at. -/
theorem estimateProbs_empty (hbegin : s.order.getSubnetBegin = .invalidID) :
    estimateProbs s inProbs = none := by
  rw [estimateProbs, cellIDs, hbegin]
  rfl

/-- The weights in the specification are those of the function. -/
theorem Valuation.sum_eq (hv : Valuation lib s ins val) (hi : (s.liveCell i).isSome)
    (p : Fin ins.length → K) : (∑ x : Fin ins.length →
    Bool, if s.value lib (assign ins x) i 0 = some true then weight p x else 0) =
      probability p fun x => val x i := by
  refine Finset.sum_congr rfl fun x _ => ?_
  rw [hv.value x i hi]
  cases hx : val x i <;> simp [indicator, hx]

theorem exact_of_atEntries (h : Ordered s more ins mid outs) (hread : ReadOnce s)
    (hcells : ∀ i c, s.liveCell i = some c → c.type = .IN ∨ Estimable c.type c.links.length)
    (hlen : inProbs = [] ∨ inProbs.length = ins.length) (hne : ins ++ mid ++ outs ≠ [])
    (hat : inProbs = [] ∨ AtEntries ins inProbs) : Exact lib s ins inProbs := by
  obtain ⟨val, hv⟩ := exists_valuation lib h hcells
  have hnil : Right ins inProbs val [] fun _ => 0 := fun j hj => by cases hj
  obtain ⟨probs, hprobs, hR⟩ := hnil.run hv h hread hcells hlen hat (nil_append _).symm
  refine ⟨probs, by rw [estimateProbs_of_order h hne, hprobs], fun i hi => ?_⟩
  rw [hv.sum_eq hi]
  exact hR i ((h.mem i).mpr hi)

/-! ### The numbers of the entries -/

theorem estimateCell_of_ne (h : estimateCell s inProbs probs i = some probs') (hj : j ≠ i) :
    probs' j = probs j := by
  simp only [estimateCell, bind_eq_bind, bind_eq_some_iff, Option.some.injEq] at h
  obtain ⟨_, -, _, -, p, -, rfl⟩ := h
  exact update_of_ne hj _ _

theorem foldlM_of_notMem : ∀ {cs : List EntryID} {probs : EntryID → K}, cs.foldlM
    (estimateCell s inProbs) probs = some probs' → j ∉ cs → probs' j = probs j := by
  intro cs
  induction cs with
  | nil =>
    intro probs h _
    cases h
    rfl
  | cons i cs ih =>
    intro probs h hj
    obtain ⟨probs₁, h₁, hrest⟩ := bind_eq_some_iff.mp h
    rw [mem_cons, not_or] at hj
    exact (ih hrest hj.2).trans (estimateCell_of_ne h₁ hj.1)

theorem foldlM_input (hc : s.getCell e = some c) (hin : c.isIn = true) (hne : inProbs ≠ []) :
    ∀ {cs : List EntryID} {probs : EntryID → K}, cs.foldlM (estimateCell s inProbs) probs =
    some probs' → cs.Nodup → e ∈ cs →
      inProbs[e]? = some (probs' e) := by
  intro cs
  induction cs with
  | nil => exact fun _ _ he => by cases he
  | cons i cs ih =>
    intro probs h hnd he
    obtain ⟨probs₁, h₁, hrest⟩ := bind_eq_some_iff.mp h
    obtain ⟨hi, hnd⟩ := nodup_cons.mp hnd
    by_cases hie : e = i
    · subst hie
      rw [foldlM_of_notMem hrest hi]
      simp only [estimateCell, hc, bind_eq_bind, bind_some, bind_eq_some_iff,
        Option.some.injEq] at h₁
      obtain ⟨_, -, p, hp, rfl⟩ := h₁
      rw [estimateP, if_pos hin, if_neg (by simpa using hne)] at hp
      rw [update_self, hp]
    · exact ih hrest hnd ((mem_cons.mp he).resolve_left hie)

theorem atEntries_of_exact (h : Ordered s more ins mid outs)
    (hcells : ∀ i c, s.liveCell i = some c → c.type = .IN ∨ Estimable c.type c.links.length)
    (hlen : inProbs = [] ∨ inProbs.length = ins.length) (hne : ins ++ mid ++ outs ≠ [])
    (hexact : Exact lib s ins inProbs) : inProbs = [] ∨ AtEntries ins inProbs := by
  rw [or_iff_not_imp_left]
  intro hnil k e hk
  obtain ⟨probs, hprobs, hall⟩ := hexact
  obtain ⟨val, hv⟩ := exists_valuation lib h hcells
  obtain ⟨hlt, hget⟩ := List.getElem?_eq_some_iff.mp hk
  have hmem : e ∈ ins := mem_of_getElem? hk
  obtain ⟨c, hc⟩ := h.exists_live (i := e) (by simp [hmem])
  have hin : c.isIn = true := decide_eq_true ((h.input e c hc).mpr hmem)
  have hlive : (s.liveCell e).isSome := by rw [hc]; rfl
  rw [estimateProbs_of_order h hne] at hprobs
  rw [foldlM_input (getCell_of_live hc) hin hnil hprobs h.nodup (by simp [hmem]), hall e hlive,
    hv.sum_eq hlive]
  have hbit : probability (inputProb ins inProbs) (fun x => val x e) =
      inputProb ins inProbs ⟨k, hlt⟩ := by
    rw [← probability_bit (p := inputProb ins inProbs) ⟨k, hlt⟩]
    refine mean_congr fun x => congrArg indicator ?_
    have hx := hv.input x ⟨k, hlt⟩ (by rw [get_eq_getElem, hget]; exact hlive)
    rwa [get_eq_getElem, hget] at hx
  have hlt' : k < inProbs.length := (hlen.resolve_left hnil).symm ▸ hlt
  rw [hbit, inputProb, if_neg (by simpa using hnil), getD_eq_getElem _ _ hlt',
    getElem?_eq_getElem hlt']

end

/-! ### Bounds -/

section
variable {K : Type} [Field K] [LinearOrder K] [IsStrictOrderedRing K] {s : SubnetBuilder}
  {inProbs : List K} {probs probs' : EntryID → K} {i : EntryID} {links : List Link} {p : K}

theorem linkProb_unit01 (h : ∀ j, Unit01 (probs j)) (link : Link) :
    Unit01 (linkProb probs link) := by
  rw [linkProb]
  split
  · exact (h _).one_sub
  · exact h _

theorem estimateGate_unit01 (h : ∀ j, Unit01 (probs j)) {t : CellTypeID}
    (hp : estimateGate t links probs = some p) : Unit01 p := by
  by_cases ht : Estimable t links.length
  · rw [estimateGate_eq ht .empty, Option.some.injEq] at hp
    rw [← hp]
    refine average_unit01 (fun q hq => ?_) fun v => indicator_unit01 _
    obtain ⟨link, -, rfl⟩ := mem_map.mp hq
    exact linkProb_unit01 h link
  · have hzero : some (0 : K) = some p → Unit01 p :=
      fun heq => some.inj heq ▸ ⟨le_refl 0, zero_le_one⟩
    have hlong : ∀ {ks : List ℕ}, ¬ links.length ≤ 32 → ks ≠ [] →
        sumCombinations (links.map (linkProb probs)) ks ≠ some p := by
      intro ks hn hks heq
      rw [sumCombinations_none (by rw [length_map]; omega) hks] at heq
      cases heq
    cases t with
    | AND | OR | ZERO | ONE => exact absurd trivial ht
    | BUF | OUT =>
      obtain ⟨link, -, rfl⟩ := Option.map_eq_some_iff.mp hp
      exact linkProb_unit01 h link
    | XOR =>
      refine absurd hp (hlong ht fun hnil => ?_)
      have hlen := congrArg List.length hnil
      rw [length_range', length_map, length_nil] at hlen
      have hn : ¬ links.length ≤ 32 := ht
      omega
    | MAJ =>
      refine absurd hp (hlong ht fun hnil => ?_)
      have hlen := congrArg List.length hnil
      rw [length_range', length_map, length_nil] at hlen
      have hn : ¬ links.length ≤ 32 := ht
      omega
    | _ => exact hzero hp

theorem estimateCell_unit01 (hin : ∀ q ∈ inProbs, Unit01 q) (h : ∀ j, Unit01 (probs j))
    (hstep : estimateCell s inProbs probs i = some probs') : ∀ j, Unit01 (probs' j) := by
  simp only [estimateCell, bind_eq_bind, bind_eq_some_iff, Option.some.injEq] at hstep
  obtain ⟨c, -, links, -, p, hp, rfl⟩ := hstep
  have hunit : Unit01 p := by
    rw [estimateP] at hp
    split at hp
    · split at hp
      · rw [Option.some.injEq] at hp
        exact hp ▸ ⟨by positivity, le_of_lt one_half_lt_one⟩
      · exact hin p (mem_of_getElem? hp)
    · exact estimateGate_unit01 h hp
  intro j
  by_cases hj : j = i
  · rw [hj, update_self]
    exact hunit
  · rw [update_of_ne hj]
    exact h j

/-- Whatever the builder is, the estimates are probabilities. -/
theorem estimateProbs_unit01 (hin : ∀ q ∈ inProbs, Unit01 q)
    (h : estimateProbs s inProbs = some probs) : ∀ j, Unit01 (probs j) := by
  obtain ⟨cs, -, hrun⟩ := bind_eq_some_iff.mp h
  suffices hall : ∀ {probs₀ : EntryID → K}, (∀ j, Unit01 (probs₀ j)) →
      cs.foldlM (estimateCell s inProbs) probs₀ = some probs →
      ∀ j, Unit01 (probs j) from hall (fun _ => ⟨le_refl 0, zero_le_one⟩) hrun
  clear hrun h
  induction cs with
  | nil =>
    intro probs₀ h₀ heq
    cases heq
    exact h₀
  | cons i cs ih =>
    intro probs₀ h₀ heq
    obtain ⟨probs₁, h₁, hrest⟩ := bind_eq_some_iff.mp heq
    exact ih (estimateCell_unit01 hin h₀ h₁) hrest

/-- The estimates of a read-once network are right if there is a cell to begin with and the
probability of each input stands at the number of its entry, too. -/
theorem estimateProbs_exact_iff (lib : CellLibrary) (s : SubnetBuilder)
    (more : EntryID → List EntryID) (ins mid outs : List EntryID) (inProbs : List K)
    (h : Ordered s more ins mid outs) (hbegin : ins ++ mid ++ outs = [] →
    s.order.getSubnetBegin = .invalidID) (hlen : inProbs = [] ∨ inProbs.length = ins.length)
    (hunit : ∀ q ∈ inProbs, 0 ≤ q ∧ q ≤ 1) : (ReadOnce s →
    (∀ i c, s.liveCell i = some c → c.type = .IN ∨ Estimable c.type c.links.length) →
      (Exact lib s ins inProbs ↔ ins ++ mid ++ outs ≠ [] ∧
        (inProbs = [] ∨ AtEntries ins inProbs))) ∧
    ∀ probs, estimateProbs s inProbs = some probs → ∀ i, 0 ≤ probs i ∧ probs i ≤ 1 := by
  refine ⟨fun hread hcells => ⟨fun hexact => ?_,
    fun hcond => exact_of_atEntries h hread hcells hlen hcond.1 hcond.2⟩,
    fun probs hprobs => estimateProbs_unit01 hunit hprobs⟩
  have hne : ins ++ mid ++ outs ≠ [] := by
    intro hnil
    obtain ⟨probs, hprobs, -⟩ := hexact
    rw [estimateProbs_empty (hbegin hnil)] at hprobs
    cases hprobs
  exact ⟨hne, atEntries_of_exact h hcells hlen hne hexact⟩

end

private theorem estimable_smallAnd : ∀ i g, SubnetSerializer.smallAnd.netlist i = some g →
    g.type = .IN ∨ Estimable g.type g.links.length := by
  intro i g hg
  match i with
  | 0 | 1 => cases hg; exact .inl rfl
  | 2 => cases hg; exact .inr trivial
  | 3 => cases hg; exact .inr rfl
  | i + 4 => cases hg

private theorem fanin_smallAnd {i j : ℕ} (h : SubnetSerializer.smallAnd.netlist.Fanin i j) :
    (i = 2 ∧ j < 2) ∨ (i = 3 ∧ j = 2) := by
  obtain ⟨g, hg, l, hl, rfl⟩ := h
  match i with
  | 0 | 1 => cases hg; cases hl
  | 2 =>
    cases hg
    have hlt : ∀ l ∈ [(⟨0, 0, false⟩ : Link), ⟨1, 0, false⟩], l.idx < 2 := by decide
    exact .inl ⟨rfl, hlt l hl⟩
  | 3 =>
    cases hg
    exact .inr ⟨rfl, congrArg Link.idx (mem_singleton.mp hl)⟩
  | i + 4 => cases hg

private theorem links_smallAnd {i : ℕ} {g : Gate}
    (hg : SubnetSerializer.smallAnd.netlist i = some g) : (g.links.map Link.idx).Nodup ∧
    g.type ≠ .BUF ∧ ∀ l ∈ g.links, l.out = 0 := by
  match i with
  | 0 | 1 | 2 | 3 => cases hg; decide
  | i + 4 => cases hg

/-- The conjunction of two inputs. -/
theorem estimateProbs_smallAnd : ∃ s mid outs, ofSubnet [] SubnetSerializer.smallAnd = some s ∧
    (Exact .empty s [0, 1] [(1 / 4 : ℚ), 3 / 4] ↔
      [0, 1] ++ mid ++ outs ≠ [] ∧
        ([(1 / 4 : ℚ), 3 / 4] = [] ∨ AtEntries [0, 1] [(1 / 4 : ℚ), 3 / 4])) := by
  have hS : SubnetSerializer.smallAnd.Arranged :=
    (SubnetEncoder.encodable_of_check (by decide) : SubnetSerializer.smallAnd.Encodable []
      0).arranged
  obtain ⟨s, mid, hs, hgrown, hnet, -, hin, hout⟩ := ofSubnet_eq [] hS
  have hcells : ∀ i c, s.liveCell i = some c → c.type = .IN ∨ Estimable c.type c.links.length :=
    fun i c hc =>
    estimable_smallAnd i ⟨c.type, c.links⟩ (hnet ▸ netlist_of_live hc)
  have hfan : ∀ {i j : ℕ}, s.netlist.Fanin i j → (i = 2 ∧ j < 2) ∨ (i = 3 ∧ j = 2) :=
    fun hij => fanin_smallAnd (hnet ▸ hij)
  have hlinks : ∀ {i c}, s.liveCell i = some c → (c.links.map Link.idx).Nodup ∧ c.type ≠ .BUF ∧
      ∀ l ∈ c.links, l.out = 0 :=
    fun {i c} hc => links_smallAnd (g := ⟨c.type, c.links⟩) (hnet ▸ netlist_of_live hc)
  have hread : ReadOnce s := by
    refine ⟨fun i c hc => (hlinks hc).1, fun (i : ℕ) (i' : ℕ) (j : ℕ) hi hi' => ?_⟩
    rcases hfan hi with ⟨hi, hj⟩ | ⟨hi, hj⟩ <;> rcases hfan hi' with ⟨hi', hj'⟩ | ⟨hi', hj'⟩
    · exact hi.trans hi'.symm
    · exact absurd (hj' ▸ hj) (Nat.lt_irrefl 2)
    · exact absurd (hj ▸ hj') (Nat.lt_irrefl 2)
    · exact hi.trans hi'.symm
  have hord : Ordered s (fun i => (s.block i).tail) [0, 1] mid [3] :=
    hgrown.ordered hin hout (fun i c hc ht => absurd ht (hlinks hc).2.1) fun i c hc l hl _ =>
      (hlinks hc).2.2 l hl
  exact ⟨s, mid, [3], hs, (estimateProbs_exact_iff .empty s _ [0, 1] mid [3]
    [(1 / 4 : ℚ), 3 / 4] hord (fun hnil => by cases hnil) (.inr rfl) (by decide +kernel)).1
    hread hcells⟩

/-- An input behind a constant: its probability is read behind the end of the list. -/
theorem not_estimateProbs_exact :
    ∃ s₁ s₂ s₃ l, ({} : SubnetBuilder).addInput = some (s₁, ⟨0, 0, false⟩) ∧
    s₁.addCell .ONE [] = some (s₂, l) ∧ s₂.addInput = some (s₃, ⟨2, 0, false⟩) ∧
    s₃.inputIDs = [0, 2] ∧ ReadOnce s₃ ∧
    (∀ i c, s₃.liveCell i = some c → c.type = .IN ∨ Estimable c.type c.links.length) ∧
    ¬ Exact .empty s₃ [0, 2] [(1 / 4 : ℚ), 3 / 4] := by
  obtain ⟨s₁, h₁, hgrown₁, happ₁⟩ := Grown.init.addInput
  have hsize₁ : s₁.size = 1 := happ₁.size
  have hnone : ∀ i : ℕ, ({} : SubnetBuilder).netlist i = none := fun i => rfl
  have hnet₁ : ∀ (i : ℕ) g, s₁.netlist i = some g → i = 0 ∧ g = ⟨.IN, []⟩ := by
    intro i g hg
    rw [happ₁.netlist, update_apply] at hg
    split at hg
    · exact ⟨‹_›, (some.inj hg).symm⟩
    · rw [hnone] at hg
      cases hg
  have hvalid : s₁.ValidLinks [] := fun l hl => by cases hl
  obtain ⟨s₂, idx, mid, h₂, hgrown₂, hnew | ⟨rfl, happ₂⟩⟩ :=
    hgrown₁.addCell hvalid (t := .ONE) rfl (by decide) (by decide)
  · -- the input is no constant
    obtain ⟨c, hc, -, hkey⟩ := hgrown₁.net.strash _ _ hnew.2.1
    have htype := congrArg StrashKey.typeID hkey
    have hin : c.type = .IN := congrArg Gate.type (hnet₁ idx _ (netlist_of_live hc)).2
    rw [SubnetCell.key, StrashKey.make_typeID, StrashKey.make_typeID, hin] at htype
    cases htype
  · have hsize₂ : s₂.size = 2 := by rw [happ₂.size, hsize₁]; rfl
    have hnet₂ : ∀ (i : ℕ) g, s₂.netlist i = some g → (i = 0 ∧ g = ⟨.IN, []⟩) ∨
        (i = 1 ∧ g = ⟨.ONE, []⟩) := by
      intro i g hg
      rw [happ₂.netlist, update_apply, hsize₁] at hg
      split at hg
      · exact .inr ⟨‹_›, (some.inj hg).symm⟩
      · exact .inl (hnet₁ i g hg)
    have hmid : ∀ i ∈ mid, s₂.getTypeID i = .ZERO ∨ s₂.getTypeID i = .ONE := by
      intro i hi
      obtain ⟨g, hg⟩ := isSome_iff_exists.mp ((hgrown₂.mem i).mp (by simp [hi]))
      obtain ⟨c, hc, ht, -⟩ := liveCell_of_netlist hg
      rcases hnet₂ i g hg with ⟨rfl, -⟩ | ⟨rfl, rfl⟩
      · have hnd := hgrown₂.nodup
        rw [append_nil] at hnd
        exact absurd rfl ((nodup_append.mp hnd).2.2 0
          (by simp [show ({} : SubnetBuilder).size = 0 from rfl]) 0 hi)
      · rw [getTypeID_of_live hc, ht]
        exact .inr rfl
    obtain ⟨s₃, h₃, hgrown₃, happ₃⟩ :=
      hgrown₂.addInput_of_constants (fun i hi _ => hmid i hi) fun hnil => by cases hnil
    have hins : [] ++ [({} : SubnetBuilder).size] ++ [s₂.size] = [0, 2] := by rw [hsize₂]; rfl
    rw [hins] at hgrown₃
    rw [hsize₂] at h₃
    have hnet₃ : ∀ (i : ℕ) g, s₃.netlist i = some g → g.links = [] ∧
        (g.type = .IN ∨ g.type = .ONE) := by
      intro i g hg
      rw [happ₃.netlist, update_apply] at hg
      split at hg
      · cases hg
        exact ⟨rfl, .inl rfl⟩
      · rcases hnet₂ i g hg with ⟨-, rfl⟩ | ⟨-, rfl⟩
        · exact ⟨rfl, .inl rfl⟩
        · exact ⟨rfl, .inr rfl⟩
    have hcells : ∀ i c, s₃.liveCell i = some c → c.links = [] ∧ (c.type = .IN ∨ c.type = .ONE) :=
      fun i c hc =>
      hnet₃ i _ (netlist_of_live hc)
    have hestimable : ∀ i c, s₃.liveCell i = some c → c.type = .IN ∨
        Estimable c.type c.links.length := by
      intro i c hc
      rcases (hcells i c hc).2 with ht | ht
      · exact .inl ht
      · exact .inr (ht ▸ trivial)
    have hfan : ∀ {i j}, ¬ s₃.netlist.Fanin i j := by
      rintro i j ⟨g, hg, l, hl, -⟩
      rw [(hnet₃ i g hg).1] at hl
      cases hl
    have hord : Ordered s₃ (fun i => (s₃.block i).tail) [0, 2] mid [] := by
      refine hgrown₃.ordered ?_ ?_ (fun i c hc ht => ?_) fun i c hc l hl _ => ?_
      · have h₁ : s₁.nIn = 1 := congrArg Prod.fst happ₁.counts
        have h₂ : s₂.nIn = s₁.nIn + 0 := congrArg Prod.fst happ₂.counts
        have h₃ : s₃.nIn = s₂.nIn + 1 := congrArg Prod.fst happ₃.counts
        rw [h₃, h₂, h₁]
        rfl
      · have h₁ : s₁.nOut = 0 := congrArg (fun n => n.2.1) happ₁.counts
        have h₂ : s₂.nOut = s₁.nOut + 0 := congrArg (fun n => n.2.1) happ₂.counts
        have h₃ : s₃.nOut = s₂.nOut + 0 := congrArg (fun n => n.2.1) happ₃.counts
        rw [h₃, h₂, h₁]
        rfl
      · rcases (hcells i c hc).2 with ht' | ht' <;> · rw [ht'] at ht; cases ht
      · rw [(hcells i c hc).1] at hl
        cases hl
    refine ⟨s₁, s₂, s₃, _, h₁, h₂, h₃, hgrown₃.inputIDs_eq,
      ⟨fun i c hc => ?_, fun _ _ _ hi _ => absurd hi hfan⟩, hestimable, fun hexact => ?_⟩
    · rw [(hcells i c hc).1]
      exact nodup_nil
    · have hat : [(1 / 4 : ℚ), 3 / 4] = [] ∨ AtEntries [0, 2] [(1 / 4 : ℚ), 3 / 4] :=
        atEntries_of_exact hord hestimable (.inr rfl) (by simp) hexact
      rcases hat with hnil | hat
      · cases hnil
      · have hread := hat 1 2 rfl
        simp at hread

end UtopiaEda.ProbabilityEstimator
