import UtopiaEda.CascadeForms
import UtopiaEda.ZhegalkinNetworks

/-!
# The networks of cascades

The rows are turned into cells in one pass. With a bounded arity the operands of equal operations
are collected, and get their cells when another row follows.
-/
namespace UtopiaEda.SubnetBuilder
open List

variable {s s' s'' : SubnetBuilder} {ins outs : List EntryID} {t : CellTypeID} {l : Link}
  {links : List Link} {F : (EntryID → ℕ → Bool) → Bool} {Fs : List ((EntryID → ℕ → Bool) → Bool)}
  {k n : ℕ}

structure Continued (ins outs : List EntryID) (s s' : SubnetBuilder) : Prop where
  grown : ∃ mid, Grown s' ins mid outs
  le : s.netlist.Le s'.netlist

theorem Continued.refl {mid : List EntryID} (h : Grown s ins mid outs) : Continued ins outs s s :=
  ⟨⟨mid, h⟩, .refl _⟩

theorem Continued.trans (h : Continued ins outs s s') (h' : Continued ins outs s' s'') :
    Continued ins outs s s'' :=
  ⟨h'.grown, h.le.trans h'.le⟩

theorem Computes.continue (hl : s.Computes l F) (h : Continued ins outs s s') : s'.Computes l F :=
  hl.mono_le h.le

theorem Computes.valid_all (h : List.Forall₂ s.Computes links Fs) : s.ValidLinks links := by
  induction h with
  | nil => exact fun l hl => absurd hl not_mem_nil
  | cons hc _ ih => exact validLinks_cons.mpr ⟨hc.1, ih⟩

theorem Computes.map_value {lib : CellLibrary} {x : EntryID → Bool} {ρ : EntryID → ℕ → Bool}
    (h : List.Forall₂ s.Computes links Fs) (hρ : s.netlist.Solves lib x ρ) :
    links.map (Link.value ρ) = Fs.map (· ρ) := by
  induction h with
  | nil => rfl
  | cons hc _ ih => rw [map_cons, map_cons, ih, hc.2 lib x ρ hρ]

private theorem addCellTreeLoop_link {m : ℕ} (h : addCellTreeLoop t k m s links = some (s', l))
    (hlinks : links.length < 2 → ∀ l ∈ links, l = ⟨l.idx, 0, false⟩) : l = ⟨l.idx, 0, false⟩ := by
  induction m generalizing s links with
  | zero => cases h
  | succ m ih =>
    rw [addCellTreeLoop] at h
    by_cases hlen : 2 ≤ links.length
    · rw [if_pos hlen] at h
      obtain ⟨⟨s₁, l₁⟩, hadd, hrest⟩ := Option.bind_eq_some_iff.mp h
      refine ih hrest (fun hshort l' hl' => ?_)
      rw [length_append, length_singleton] at hshort
      have hnil : links.drop k = [] := List.length_eq_zero_iff.mp (by omega)
      rw [hnil, nil_append, mem_singleton] at hl'
      rw [hl']
      exact addCell_link hadd
    · rw [if_neg hlen] at h
      obtain ⟨l', hl', heq⟩ := Option.bind_eq_some_iff.mp h
      cases heq
      exact hlinks (Nat.not_le.mp hlen) l (mem_of_getElem? hl')

theorem addCellTree_link (h : s.addCellTree t links k = some (s', l)) (hlen : 2 ≤ links.length) :
    l = ⟨l.idx, 0, false⟩ := by
  rw [addCellTree] at h
  split at h
  · exact addCell_link h
  · split at h
    · exact addCellTreeLoop_link h (fun hlt => absurd hlt (Nat.not_lt.mpr hlen))
    · cases h

theorem Continued.addGate (h : Continued ins outs s s') (hl : List.Forall₂ s'.Computes links Fs)
    (ht : t.isRegroupable) : ∃ s'' l, s'.addCell t links = some (s'', l) ∧
    Continued ins outs s' s'' ∧
      s''.Computes ⟨l.idx, 0, false⟩ (fun ρ => gateFunction t (Fs.map (· ρ))) := by
  obtain ⟨mid, hgrown⟩ := h.grown
  obtain ⟨s'', l, mid', hadd, hgrown', hlink⟩ := hgrown.addGateLink (t := t) (Computes.valid_all hl)
    (by cases t <;> first | rfl | cases ht) (by rintro rfl; cases ht) (by rintro rfl; cases ht)
    (by rintro sid rfl; cases ht)
  refine ⟨s'', l, hadd, ⟨⟨mid', hgrown'⟩, hlink.le⟩, ?_⟩
  rw [← addCell_link hadd]
  refine ⟨hlink.valid, fun lib x ρ hρ => (hlink.value lib x ρ hρ).trans ?_⟩
  simp only [Computes.map_value hl (Solves.mono hρ hlink.le)]

theorem Continued.addTree (h : Continued ins outs s s') (hl : List.Forall₂ s'.Computes links Fs)
    (ht : t.isRegroupable) (hk : 2 ≤ k) (hlen : 2 ≤ links.length) :
    ∃ s'' l, s'.addCellTree t links k = some (s'', l) ∧ Continued ins outs s' s'' ∧
      s''.Computes ⟨l.idx, 0, false⟩ (fun ρ => gateFunction t (Fs.map (· ρ))) := by
  obtain ⟨mid, hgrown⟩ := h.grown
  obtain ⟨s'', l, mid', hadd, hgrown', hlink⟩ := hgrown.addCellTree (Computes.valid_all hl) ht hk
  refine ⟨s'', l, hadd, ⟨⟨mid', hgrown'⟩, hlink.le⟩, ?_⟩
  rw [← addCellTree_link hadd hlen]
  refine ⟨hlink.valid, fun lib x ρ hρ => (hlink.value lib x ρ hρ).trans ?_⟩
  simp only [Computes.map_value hl (Solves.mono hρ hlink.le)]

end UtopiaEda.SubnetBuilder

namespace UtopiaEda.Synthesizer.CascadeSynthesizer

open List
open Option (bind_eq_bind bind_some)
open Function (update update_self update_of_ne)
open SubnetBuilder

variable {n k i v op op' base : ℕ} {neg : Bool} {st st' : State} {prev row : Row}
  {s : SubnetBuilder} {F G L : (EntryID → ℕ → Bool) → Bool}
  {Fs : List ((EntryID → ℕ → Bool) → Bool)} {links : List Link}

def symbol (op : ℕ) : CellTypeID := if op = 2 then .AND else .OR

theorem symbol_regroupable (op : ℕ) : (symbol op).isRegroupable := by
  rw [symbol]
  split
  · rfl
  · rfl

def combine (op : ℕ) (p q : Bool) : Bool := if op = 2 then p && q else p || q

theorem gateFunction_concat {us : List Bool} {q : Bool} :
    gateFunction (symbol op) (us ++ [q]) = combine op (gateFunction (symbol op) us) q := by
  rw [symbol, combine]
  split
  · change (us ++ [q]).all id = (us.all id && q)
    rw [all_append, all_cons, all_nil, Bool.and_true]
    rfl
  · change (us ++ [q]).any id = (us.any id || q)
    rw [any_append, any_cons, any_nil, Bool.or_false]
    rfl

structure Collected (s : SubnetBuilder) (op : ℕ) (links : List Link)
    (F : (EntryID → ℕ → Bool) → Bool) : Prop where
  computes : ∃ Fs, List.Forall₂ s.Computes links Fs ∧ ∀ ρ, gateFunction (symbol op) (Fs.map (· ρ)) =
    F ρ
  length : 2 ≤ links.length

theorem Collected.pair {l₁ l₂ : Link} (op : ℕ) (h₁ : s.Computes l₁ F) (h₂ : s.Computes l₂ L) :
    Collected s op [l₁, l₂] (fun ρ => combine op (F ρ) (L ρ)) := by
  refine ⟨⟨[F, L], .cons h₁ (.cons h₂ .nil), fun ρ => ?_⟩, Nat.le_refl 2⟩
  rw [symbol, combine]
  split
  · exact congrArg (F ρ && ·) (Bool.and_true (L ρ))
  · exact congrArg (F ρ || ·) (Bool.or_false (L ρ))

theorem Collected.push {l : Link} (h : Collected s op links F) (hl : s.Computes l L) :
    Collected s op (links ++ [l]) (fun ρ => combine op (F ρ) (L ρ)) := by
  obtain ⟨Fs, hFs, hF⟩ := h.computes
  refine ⟨⟨Fs ++ [L], rel_append hFs (.cons hl .nil), fun ρ => ?_⟩, ?_⟩
  · rw [map_append, map_singleton, gateFunction_concat, hF]
  · rw [length_append]
    exact Nat.le_add_right_of_le h.length

/-! ### The state of the loop -/

/-- The rows before row `i` are done: the sources stand for the inputs, and later rows are not
inverted. -/
structure Loop (n : ℕ) (st : State) (i : ℕ) : Prop where
  grown : ∃ mid, Grown st.builder (.range' 0 n) mid []
  source : ∀ v < n, st.builder.Computes ⟨v, 0, false⟩ (fun ρ => ρ v 0)
  idx : ∀ v < n, st.idx v = v ∧ st.idx (n + v) = v
  inverted : ∀ v < n, st.inverted v = false ∧ st.inverted (n + v) = true
  fresh : ∀ r, i ≤ r + 2 → st.inverted r = false

/-- The last row, an operation `op` or a source, has the function `F`: it has an entry, or the links
of its cell are collected. -/
inductive Held (k : ℕ) (st : State) (i op : ℕ) (F : (EntryID → ℕ → Bool) → Bool) : Prop where
  | stored (hlinks : st.links = []) (h : st.builder.Computes (st.link (i - 3)) F)
      (hop : k = 65535 ∨ op ≠ 2)
  | collected (hk : k ≠ 65535) (h : Collected st.builder op st.links F)
      (hinv : st.inverted (i - 3) = false)
    (hop : op = 2 ∨ op = 3)

theorem Loop.continued (h : Loop n st i) : Continued (.range' 0 n) [] st.builder st.builder :=
  .refl h.grown.choose_spec

theorem Loop.computes_code (h : Loop n st i) (hv : v < n) (neg : Bool) :
    st.builder.Computes (st.link (code n v neg - 2)) (fun ρ => xor (ρ v 0) neg) := by
  have hs := h.source v hv
  cases neg with
  | false =>
    rw [code, if_neg Bool.false_ne_true, Nat.add_sub_cancel, State.link, (h.idx v hv).1,
      (h.inverted v hv).1]
    exact hs.congr (fun ρ => (Bool.xor_false _).symm)
  | true =>
    rw [code, if_pos rfl, show n + 2 + v - 2 =
      n + v by omega, State.link, (h.idx v hv).2, (h.inverted v hv).2]
    exact hs.not.congr (fun ρ => (Bool.xor_true _).symm)

theorem Loop.addTree {r : ℕ} (h : Loop n st i) (hc : Collected st.builder op st.links F)
    (hk : 2 ≤ k) (hr : n * 2 ≤ r) (hinv : st.inverted r = false) :
    ∃ st', st.addTree (symbol op) k r = some st' ∧ Loop n st' i ∧
      Continued (.range' 0 n) [] st.builder st'.builder ∧ st'.builder.Computes (st'.link r) F ∧
      st'.inverted = st.inverted ∧ ∀ j, j ≠ r → st'.idx j = st.idx j := by
  obtain ⟨Fs, hFs, hF⟩ := hc.computes
  obtain ⟨s, l, hadd, hs, hl⟩ := h.continued.addTree hFs (symbol_regroupable op) hk hc.length
  refine ⟨{ st with builder := s, idx := update st.idx r l.idx }, ?_,
    ⟨hs.grown, ?_, ?_, h.inverted, h.fresh⟩, hs, ?_, rfl, fun j hj => update_of_ne hj _ _⟩
  · rw [State.addTree, hadd]
    rfl
  · exact fun v hv => (h.source v hv).continue hs
  · intro v hv
    have hidx := h.idx v hv
    exact ⟨(update_of_ne (by omega) _ _).trans hidx.1, (update_of_ne (by omega) _ _).trans hidx.2⟩
  · rw [State.link]
    simp only [update_self, hinv]
    exact hl.congr hF

/-! ### One row -/

def State.setSource (st : State) (i v : ℕ) (neg : Bool) : State :=
  { st with idx := update st.idx (i - 2) v, inverted := update st.inverted (i - 2) neg }

theorem Loop.setSource (h : Loop n st i) (hv : v < n) (hi : n * 2 + 2 ≤ i) :
    Loop n (st.setSource i v neg) (i + 1) := by
  refine ⟨h.grown, h.source, fun w hw => ?_, fun w hw => ?_, fun r hr => ?_⟩
  · have hidx := h.idx w hw
    exact ⟨(update_of_ne (by omega) _ _).trans hidx.1, (update_of_ne (by omega) _ _).trans hidx.2⟩
  · have hinv := h.inverted w hw
    exact ⟨(update_of_ne (by omega) _ _).trans hinv.1, (update_of_ne (by omega) _ _).trans hinv.2⟩
  · exact (update_of_ne (by omega) _ _).trans (h.fresh r (by omega))

theorem Loop.setSource_eq (h : Loop n st i) (hv : v < n) (hi : n * 2 + 2 ≤ i) :
    (if n + 2 ≤ code n v neg ∧ code n v neg < n * 2 + 2 then
      { st with inverted := update st.inverted (i - 2) true,
                idx := update st.idx (i - 2) (st.idx (code n v neg - 2 - n)) }
    else { st with idx := update st.idx (i - 2) (st.idx (code n v neg - 2)) }) =
    st.setSource i v neg := by
  cases neg with
  | true =>
    rw [if_pos ⟨by rw [code, if_pos rfl]; omega, code_lt _ hv⟩, code, if_pos rfl,
      show n + 2 + v - 2 - n = v by omega, (h.idx v hv).1]
    rfl
  | false =>
    rw [if_neg (by rw [code, if_neg Bool.false_ne_true]; omega), code, if_neg Bool.false_ne_true,
      Nat.add_sub_cancel, (h.idx v hv).1, State.setSource]
    have hinv : update st.inverted (i - 2) false = st.inverted :=
      Function.update_eq_self_iff.mpr (h.fresh (i - 2) (by omega)).symm
    rw [hinv]

/-- The row before a source: a row of the sources, or a conjunction with the function `G`. -/
inductive Before (n k : ℕ) (st : State) (i : ℕ) (prev : Row) :
    Option ((EntryID → ℕ → Bool) → Bool) → Prop where
  | source (hlhs : prev.lhs = 0) (hlinks : st.links = []) : Before n k st i prev none
  | conjunction {g : (EntryID → ℕ → Bool) → Bool} (hop : prev.op = 2) (hlhs : prev.lhs ≠ 0)
      (hrhs : prev.rhs ≠ 0)
    (hheld : Held k st i 2 g) (hi : n * 2 + 3 ≤ i) : Before n k st i prev (some g)

structure Ran (n k : ℕ) (st st' : State) (i j op : ℕ) (F : (EntryID → ℕ → Bool) → Bool) : Prop where
  loop : Loop n st' j
  continued : Continued (.range' 0 n) [] st.builder st'.builder
  held : Held k st' j op F
  idx : ∀ r, r + 3 < i → st'.idx r = st.idx r
  inverted : ∀ r, r + 2 < i → st'.inverted r = st.inverted r

theorem Loop.computes_literal (h : Loop n st i) (hv : v < n) (neg : Bool) :
    st.builder.Computes ⟨v, 0, neg⟩ (fun ρ => xor (ρ v 0) neg) := by
  cases neg with
  | false => exact (h.source v hv).congr (fun ρ => (Bool.xor_false _).symm)
  | true => exact (h.source v hv).not.congr (fun ρ => (Bool.xor_true _).symm)

theorem State.setSource_link (st : State) (v : ℕ) (neg : Bool) :
    (st.setSource i v neg).link (i - 2) = ⟨v, 0, neg⟩ := by
  rw [State.link, State.setSource]
  simp only [update_self]

theorem State.setSource_idx {r : ℕ} (v : ℕ) (neg : Bool) (hr : r ≠ i - 2) :
    (st.setSource i v neg).idx r = st.idx r := update_of_ne hr _ _

theorem State.setSource_inverted {r : ℕ} (v : ℕ) (neg : Bool) (hr : r ≠ i - 2) :
    (st.setSource i v neg).inverted r = st.inverted r :=
  update_of_ne hr _ _

theorem Loop.setLinks (h : Loop n st i) (links : List Link) : Loop n { st with links := links } i :=
  ⟨h.grown, h.source, h.idx, h.inverted, h.fresh⟩

theorem Loop.addSource {G : Option ((EntryID → ℕ → Bool) → Bool)} (neg : Bool) (h : Loop n st i)
    (hv : v < n) (hk : 2 ≤ k) (hi : n * 2 + 2 ≤ i) (hcode : k = 65535 ∨ code n v neg ≠ 2)
    (hprev : Before n k st i prev G) : ∃ st', st.addSource n k prev ⟨code n v neg, 0, 0⟩ i =
    some st' ∧
      Ran n k st st' i (i + 1) (code n v neg) (fun ρ => xor (ρ v 0) neg) ∧
      ∀ g ∈ G, st'.builder.Computes (st'.link (i - 3)) g := by
  have h₁ : Loop n (st.setSource i v neg) (i + 1) := h.setSource hv hi
  have hlink := State.setSource_link (i := i) st v neg
  rw [State.addSource]
  simp only [h.setSource_eq hv hi]
  cases hprev with
  | source hlhs hlinks =>
    refine ⟨st.setSource i v neg, if_neg (fun hne => hne.1 hlhs),
      ⟨h₁, h.continued, .stored hlinks ?_ hcode, fun r hr => State.setSource_idx v neg (by omega),
      fun r hr => State.setSource_inverted v neg (by omega)⟩, fun g hg => by cases hg⟩
    rw [show i + 1 - 3 = i - 2 by omega, hlink]
    exact h.computes_literal hv neg
  | conjunction hop hlhs hrhs hheld hlow =>
    rw [if_pos ⟨hlhs, hrhs⟩]
    cases hheld with
    | stored hlinks hc hk' =>
      refine ⟨{ st.setSource i v neg with links := [] }, ?_,
        ⟨h₁.setLinks [], h.continued, .stored rfl ?_ hcode, fun r hr => State.setSource_idx v neg
        (by omega), fun r hr => State.setSource_inverted v neg (by omega)⟩, fun g hg => ?_⟩
      · rw [if_neg (fun hne => hne.1 hlinks), if_neg (by rw [hop]; decide)]
        rfl
      · rw [show i + 1 - 3 = i - 2 by omega]
        exact hlink ▸ h.computes_literal hv neg
      · cases hg
        change st.builder.Computes ((st.setSource i v neg).link (i - 3)) _
        rw [State.link, State.setSource_idx v neg (by omega),
          State.setSource_inverted v neg (by omega)]
        exact hc
    | collected hk' hc hinv hop' =>
      have hne : st.links ≠ [] := by
        rintro hnil
        have hlen := hc.length
        rw [hnil] at hlen
        exact absurd hlen (by decide)
      have hinv' : (st.setSource i v neg).inverted (i - 3) = false := by
        rw [State.setSource_inverted v neg (by omega), hinv]
      obtain ⟨st₂, hadd, h₂, hs, hcomp, hinv₂, hidx₂⟩ :=
        h₁.addTree (r := i - 3) hc hk (by omega) hinv'
      refine ⟨{ st₂ with links := [] }, ?_,
        ⟨h₂.setLinks [], hs, .stored rfl ?_ hcode, fun r hr => ?_, fun r hr => ?_⟩,
        fun g hg => ?_⟩
      · rw [if_pos ⟨hne, hop⟩, show (st.setSource i v neg).addTree .AND k (i - 3) =
          some st₂ from hadd]
        rfl
      · have heq : st₂.link (i - 2) = ⟨v, 0, neg⟩ := by
          rw [← hlink, State.link, hidx₂ (i - 2) (by omega), hinv₂]
          rfl
        rw [show i + 1 - 3 = i - 2 by omega]
        change st₂.builder.Computes (st₂.link (i - 2)) _
        rw [heq]
        exact h₂.computes_literal hv neg
      · exact (hidx₂ r (by omega)).trans (State.setSource_idx v neg (by omega))
      · change st₂.inverted r = _
        rw [hinv₂]
        exact State.setSource_inverted v neg (by omega)
      · cases hg
        exact hcomp

theorem Collected.ne_nil (h : Collected s op links F) : links ≠ [] := by
  rintro rfl
  exact absurd h.length (by decide)

theorem addCell_symbol (hop : op = 2 ∨ op = 3) : (if op = 2 then st.addCell .AND links i
    else if op = 3 then st.addCell .OR links i else some st) = st.addCell (symbol op) links i := by
  rcases hop with rfl | rfl
  · rfl
  · rfl

/-- The cell type of the operation before a different one. -/
theorem addTree_symbol {r : ℕ} (hop : op = 2 ∨ op = 3) (hop' : op' = 2 ∨ op' = 3) (hne : op ≠ op') :
    (if op' = 2 then st.addTree .OR k r else if op' = 3 then st.addTree .AND k r else some st) =
    st.addTree (symbol op) k r := by
  rcases hop with rfl | rfl
  · rcases hop' with rfl | rfl
    · exact absurd rfl hne
    · rfl
  · rcases hop' with rfl | rfl
    · rfl
    · exact absurd rfl hne

theorem Loop.addOperation {c : ℕ} (h : Loop n st i) (hheld : Held k st i op F) (hk : 2 ≤ k)
    (hi : n * 2 + 3 ≤ i) (hprev : prev.op = op) (hop' : op' = 2 ∨ op' = 3 ∧ op = 2)
    (hc : c - 2 ≠ i - 3) (hl : st.builder.Computes (st.link (c - 2)) L) :
    ∃ st', st.addOperation n k prev ⟨op', i - 1, c⟩ i = some st' ∧
      Ran n k st st' i (i + 1) op' (fun ρ => combine op' (F ρ) (L ρ)) ∧ st'.inverted (i + 1 - 3) =
      false := by
  have htwo : op' = 2 ∨ op' = 3 := hop'.imp_right And.left
  have hlast : st.inverted (i + 1 - 3) = false := h.fresh _ (by omega)
  rw [State.addOperation, hprev]
  simp only [show i - 1 - 2 = i - 3 by omega]
  by_cases hbound : k = 65535
  · rw [if_pos hbound, addCell_symbol htwo]
    cases hheld with
    | stored hlinks hF _ =>
      have hpair := Collected.pair op' hF hl
      obtain ⟨Fs, hFs, hvalue⟩ := hpair.computes
      obtain ⟨s, l, hadd, hs, hcomp⟩ := h.continued.addGate hFs (symbol_regroupable op')
      refine ⟨{ st with builder := s, idx := update st.idx (i - 2) l.idx }, ?_,
        ⟨⟨hs.grown, ?_, ?_, h.inverted, ?_⟩, hs, .stored hlinks ?_ (.inl hbound),
        fun r hr => update_of_ne (by omega) _ _, fun _ _ => rfl⟩, hlast⟩
      · rw [State.addCell, hadd]
        rfl
      · exact fun v hv => (h.source v hv).continue hs
      · intro v hv
        have hidx := h.idx v hv
        exact ⟨(update_of_ne (by omega) _ _).trans hidx.1,
          (update_of_ne (by omega) _ _).trans hidx.2⟩
      · exact fun r hr => h.fresh r (by omega)
      · rw [State.link]
        simp only [show i + 1 - 3 = i - 2 by omega, update_self] at hlast ⊢
        rw [hlast]
        exact hcomp.congr hvalue
    | collected hk' _ _ _ => exact absurd hbound hk'
  · have hnext : ∀ {st : State}, Loop n st i → Loop n st (i + 1) := fun h =>
      ⟨h.grown, h.source, h.idx, h.inverted, fun r hr => h.fresh r (by omega)⟩
    rw [if_neg hbound]
    cases hheld with
    | stored hlinks hF hne =>
      have hne := hne.resolve_left hbound
      have hop : op' = 2 := hop'.resolve_right (fun h => hne h.2)
      rw [if_neg (fun h => hne (h.2.trans hop)), if_neg (not_not.mpr hlinks)]
      refine ⟨{ st with links := [st.link (i - 3), st.link (c - 2)] }, rfl,
        ⟨hnext (h.setLinks _), h.continued, .collected hbound (.pair op' hF hl) hlast htwo,
        fun _ _ => rfl, fun _ _ => rfl⟩, hlast⟩
    | collected hk' hF hinv hop =>
      by_cases heq : op = op'
      · subst heq
        rw [if_pos ⟨by omega, rfl⟩]
        exact ⟨{ st with links := st.links ++ [st.link (c - 2)] }, rfl,
          ⟨hnext (h.setLinks _), h.continued, .collected hbound (hF.push hl) hlast hop,
          fun _ _ => rfl, fun _ _ => rfl⟩, hlast⟩
      · obtain ⟨st₂, hadd, h₂, hs, hcomp, hinv₂, hidx₂⟩ :=
          h.addTree (r := i - 3) hF hk (by omega) hinv
        rw [if_neg (fun h => heq h.2), if_pos hF.ne_nil, addTree_symbol hop htwo heq, hadd]
        have hlink : st₂.link (c - 2) = st.link (c - 2) := by
          rw [State.link, State.link, hidx₂ _ hc, hinv₂]
        have hl₂ : st₂.builder.Computes (st₂.link (c - 2)) L := by
          rw [hlink]
          exact hl.continue hs
        have hlast₂ : st₂.inverted (i + 1 - 3) = false := by
          rw [hinv₂]
          exact hlast
        refine ⟨{ st₂ with links := [st₂.link (i - 3), st₂.link (c - 2)] }, rfl,
          ⟨hnext (h₂.setLinks _), hs, .collected hbound (.pair op' hcomp hl₂) hlast₂ htwo,
          fun r hr => hidx₂ r (by omega), fun r _ => ?_⟩, hlast₂⟩
        · change st₂.inverted r = _
          rw [hinv₂]

/-! ### The rows of a tree -/

variable {j : ℕ} {st₁ st₂ : State} {output A B : List Row} {t t₁ t₂ : Tree}

theorem Ran.keeps {r : ℕ} (h : Ran n k st st' i j op F) (hr : r + 3 < i)
    (hg : st.builder.Computes (st.link r) G) : st'.builder.Computes (st'.link r) G := by
  rw [State.link, h.idx r hr, h.inverted r (by omega)]
  exact hg.continue h.continued

theorem Ran.trans {j' : ℕ} (h : Ran n k st st₁ i j op F) (h' : Ran n k st₁ st₂ j j' op' L)
    (hij : i ≤ j) : Ran n k st st₂ i j' op' L :=
  ⟨h'.loop, h.continued.trans h'.continued, h'.held,
    fun r hr => (h'.idx r (by omega)).trans (h.idx r hr),
    fun r hr => (h'.inverted r (by omega)).trans (h.inverted r hr)⟩

theorem Held.congr (h : Held k st i op F) (hF : ∀ ρ, F ρ = G ρ) : Held k st i op G := by
  have heq : F = G := funext hF
  rwa [← heq]

theorem Ran.congr (h : Ran n k st st' i j op F) (hF : ∀ ρ, F ρ = G ρ) : Ran n k st st' i j op G :=
  ⟨h.loop, h.continued, h.held.congr hF, h.idx, h.inverted⟩

theorem step_eq (hA : A ≠ []) : State.step n k (A ++ row :: B) st A.length =
    if row.lhs = 0 ∧ row.rhs = 0 then st.addSource n k (Row.last A) row A.length
    else st.addOperation n k (Row.last A) row A.length := by
  have hrow : (A ++ row :: B).getD A.length ⟨0, 0, 0⟩ = row := by
    rw [getD_append_right _ _ _ _ (Nat.le_refl _), Nat.sub_self]
    rfl
  have hlast : (A ++ row :: B).getD (A.length - 1) ⟨0, 0, 0⟩ = Row.last A := by
    rw [getD_append _ _ _ _ (Nat.sub_lt (List.length_pos_iff.mpr hA) Nat.one_pos), Row.last,
      getLastD_eq_getLast?, getLast?_eq_getElem?, getD_eq_getElem?_getD]
  rw [State.step, hrow, hlast]

def Tree.lastOp (n : ℕ) : Tree → ℕ
  | leaf v neg => code n v neg
  | and _ _ _ => 2
  | andOr _ _ _ => 3
  | both _ _ _ => 3

theorem Tree.last_rows : (Row.last (A ++ t.rows n base)).op = t.lastOp n := by
  cases t with
  | leaf w neg => rw [rows, last_concat, lastOp]
  | and t w neg => rw [rows, ← append_assoc, last_concat, lastOp]
  | andOr t w neg => rw [rows, append_cons, ← append_assoc, ← append_assoc, last_concat, lastOp]
  | both t₁ t₂ w => rw [rows, append_cons, ← append_assoc, ← append_assoc, last_concat, lastOp]

theorem Ran.operation {c : ℕ} (h : Ran n k st st₁ base i op F) (hk : 2 ≤ k) (hi : n * 2 + 3 ≤ i)
    (hbase : base ≤ i) (hA : A.length = i) (hlast : (Row.last A).op = op)
    (hop' : op' = 2 ∨ op' = 3 ∧ op = 2) (hc : c - 2 ≠ i - 3)
    (hl : st₁.builder.Computes (st₁.link (c - 2)) L) :
    ∃ st', State.step n k (A ++ ⟨op', i - 1, c⟩ :: B) st₁ i = some st' ∧
      Ran n k st st' base (i + 1) op' (fun ρ => combine op' (F ρ) (L ρ)) ∧
      Ran n k st₁ st' i (i + 1) op' (fun ρ => combine op' (F ρ) (L ρ)) ∧ st'.inverted (i + 1 - 3) =
      false := by
  have hne : A ≠ [] := by
    rintro rfl
    rw [length_nil] at hA
    omega
  obtain ⟨st', hstep, hran, hinv⟩ := h.loop.addOperation h.held hk hi hlast hop' hc hl
  refine ⟨st', ?_, h.trans hran hbase, hran, hinv⟩
  subst hA
  rw [step_eq hne, if_neg (by simp only; omega)]
  exact hstep

theorem combine_and (p q : Bool) : combine 2 p q = (p && q) := rfl

theorem combine_or (p q : Bool) : combine 3 p q = (p || q) := rfl

theorem Loop.run {G : Option ((EntryID → ℕ → Bool) → Bool)} (h : Loop n st base) (ht : t.Within n v)
    (hv : 1 ≤ v ∨ 1 < t.size) (hk : 2 ≤ k) (hbase : n * 2 + 2 ≤ base) (hA : A.length = base)
    (hbefore : Before n k st base (Row.last A) G) : ∃ st', (List.range' base t.size).foldlM
    (State.step n k (A ++ (t.rows n base ++ B))) st = some st' ∧
      Ran n k st st' base (base + t.size) (t.lastOp n) (fun ρ => t.value (fun v => ρ v 0)) ∧
      (∀ g ∈ G, st'.builder.Computes (st'.link (base - 3)) g) ∧
      (1 < t.size → st'.inverted (base + t.size - 3) = false) := by
  have hne : A ≠ [] := by
    rintro rfl
    rw [length_nil] at hA
    omega
  induction t generalizing st base v A B G with
  | leaf w neg =>
    have hw : 1 ≤ w := Nat.le_trans (hv.resolve_right (Nat.lt_irrefl 1)) ht.1
    have hcode : code n w neg ≠ 2 := by
      rw [code]
      have hn := ht.2
      split
      · omega
      · omega
    obtain ⟨st', hstep, hran, hprev⟩ := h.addSource neg ht.2 hk hbase (.inr hcode) hbefore
    refine ⟨st', ?_, hran, hprev, fun hlt => absurd hlt (Nat.lt_irrefl 1)⟩
    subst hA
    rw [Tree.size, range'_one, foldlM_cons, Tree.rows, singleton_append, step_eq hne,
      if_pos ⟨rfl, rfl⟩, hstep]
    rfl
  | and t w neg ih =>
    obtain ⟨hchild, -, hw⟩ := ht
    obtain ⟨st₁, hrun, hran, hprev, -⟩ :=
      ih (B := ⟨2, base + t.size - 1, code n w neg⟩ :: B) h hchild (.inl (Nat.succ_pos w)) hbase
      hA hbefore hne
    have hpos := t.size_pos
    have hcode := code_lt neg hw
    obtain ⟨st₂, hstep, hran₂, hlast, hinv⟩ :=
      hran.operation (A := A ++ t.rows n base) (B := B) hk (by omega) (by omega)
      (by rw [length_append, Tree.rows_length, hA]) Tree.last_rows (.inl rfl) (by omega)
      (hran.loop.computes_code hw neg)
    refine ⟨st₂, ?_, hran₂, fun g hg => hlast.keeps (by omega) (hprev g hg), fun _ => hinv⟩
    rw [Tree.size, ← range'_append_1, foldlM_append, Tree.rows, append_assoc, singleton_append,
      hrun]
    rw [append_assoc] at hstep
    rw [bind_eq_bind, bind_some, range'_one, foldlM_cons, hstep]
    rfl
  | andOr t w neg ih =>
    obtain ⟨hchild, -, hw⟩ := ht
    obtain ⟨st₁, hrun, hran, hprev, -⟩ :=
      ih (B := ⟨2, base + t.size - 1, code n w neg⟩ :: ⟨3, base + t.size, code n w !neg⟩ :: B)
      h hchild (.inl (Nat.succ_pos w)) hbase hA hbefore hne
    have hpos := t.size_pos
    have hcode := code_lt neg hw
    have hcode' := code_lt (!neg) hw
    obtain ⟨st₂, hstep, hran₂, hlast, -⟩ :=
      hran.operation (A := A ++ t.rows n base) (B := ⟨3, base + t.size, code n w !neg⟩ :: B)
      hk (by omega) (by omega) (by rw [length_append, Tree.rows_length, hA]) Tree.last_rows
      (.inl rfl) (by omega) (hran.loop.computes_code hw neg)
    obtain ⟨st₃, hstep', hran₃, hlast', hinv⟩ :=
      hran₂.operation (A := A ++ t.rows n base ++ [⟨2, base + t.size - 1, code n w neg⟩])
      (B := B) hk (by omega) (by omega)
      (by rw [length_append, length_append, Tree.rows_length, hA, length_singleton])
      (by rw [last_concat]) (.inr ⟨rfl, rfl⟩) (by omega) (hran₂.loop.computes_code hw !neg)
    refine ⟨st₃, ?_, hran₃, fun g hg => hlast'.keeps (by omega)
      (hlast.keeps (by omega) (hprev g hg)), fun _ => hinv⟩
    rw [Tree.size, ← range'_append_1, foldlM_append, Tree.rows, append_assoc, cons_append,
      singleton_append, hrun]
    rw [append_assoc] at hstep
    rw [append_assoc, append_assoc, singleton_append, Nat.add_sub_cancel] at hstep'
    rw [bind_eq_bind, bind_some, range'_succ, range'_one, foldlM_cons, hstep, bind_eq_bind,
      bind_some, foldlM_cons, hstep']
    rfl
  | both t₁ t₂ w ih₁ ih₂ =>
    obtain ⟨hchild₁, hchild₂, -, hw⟩ := ht
    have hpos₁ := t₁.size_pos
    have hpos₂ := t₂.size_pos
    have hcode := code_lt false hw
    have hcode' := code_lt true hw
    have htwo := two_le_code n w false
    obtain ⟨R₁, hR₁⟩ : ∃ R : Row, R = ⟨2, base + t₁.size - 1, code n w false⟩ := ⟨_, rfl⟩
    obtain ⟨R₂, hR₂⟩ : ∃ R : Row, R = ⟨2, base + t₁.size + 1 + t₂.size - 1, code n w true⟩ :=
      ⟨_, rfl⟩
    obtain ⟨R₃, hR₃⟩ : ∃ R : Row, R = ⟨3, base + t₁.size + 1 + t₂.size + 1 - 1, base + t₁.size⟩ :=
      ⟨_, rfl⟩
    have hrows : (Tree.both t₁ t₂ w).rows n base ++ B =
        t₁.rows n base ++ (R₁ :: (t₂.rows n (base + t₁.size + 1) ++ (R₂ :: R₃ :: B))) := by
      rw [Tree.rows, hR₁, hR₂, hR₃, show base + t₁.size + 1 + t₂.size - 1 =
        base + t₁.size + t₂.size by omega,
        show base + t₁.size + 1 + t₂.size + 1 - 1 = base + t₁.size + t₂.size + 1 by omega]
      simp only [append_assoc, cons_append, nil_append]
    have hlen₁ : (A ++ t₁.rows n base).length = base + t₁.size := by
      rw [length_append, Tree.rows_length, hA]
    have hlen₂ : (A ++ t₁.rows n base ++ [R₁]).length = base + t₁.size + 1 := by
      rw [length_append, hlen₁, length_singleton]
    have hlen₃ : (A ++ t₁.rows n base ++ [R₁] ++ t₂.rows n (base + t₁.size + 1)).length =
        base + t₁.size + 1 + t₂.size := by
      rw [length_append, hlen₂, Tree.rows_length]
    obtain ⟨st₁, hrun₁, hran₁, hprev, -⟩ :=
      ih₁ (B := R₁ :: (t₂.rows n (base + t₁.size + 1) ++ (R₂ :: R₃ :: B))) h hchild₁
      (.inl (Nat.succ_pos w)) hbase hA hbefore hne
    obtain ⟨st₂, hstep₂, hran₂, hlast₂, -⟩ := hran₁.operation (A := A ++ t₁.rows n base)
      (B := t₂.rows n (base + t₁.size + 1) ++ (R₂ :: R₃ :: B)) hk (by omega)
      (by omega) hlen₁ Tree.last_rows (.inl rfl) (by omega) (hran₁.loop.computes_code hw false)
    -- the second tree starts with a source, which gives the conjunction before it an entry
    obtain ⟨st₃, hrun₃, hran₃, hid, -⟩ :=
      ih₂ (A := A ++ t₁.rows n base ++ [R₁]) (B := R₂ :: R₃ :: B) hran₂.loop hchild₂
      (.inl (Nat.succ_pos w)) (by omega) hlen₂
      (.conjunction (by rw [last_concat, hR₁]) (by rw [last_concat, hR₁]; simp only; omega)
        (by rw [last_concat, hR₁]; simp only; omega) hran₂.held (by omega)) (by simp)
    have hid := hid _ rfl
    obtain ⟨st₄, hstep₄, hran₄, hlast₄, -⟩ := hran₃.operation
      (A := A ++ t₁.rows n base ++ [R₁] ++ t₂.rows n (base + t₁.size + 1))
      (B := R₃ :: B) hk (by omega) (by omega) hlen₃ Tree.last_rows (.inl rfl) (by omega)
      (hran₃.loop.computes_code hw true)
    have hid₄ := hlast₄.keeps (by omega) hid
    rw [show base + t₁.size + 1 - 3 = base + t₁.size - 2 by omega] at hid₄
    obtain ⟨st₅, hstep₅, hran₅, hlast₅, hinv⟩ := hran₄.operation
      (A := A ++ t₁.rows n base ++ [R₁] ++ t₂.rows n (base + t₁.size + 1) ++ [R₂])
      (B := B) hk (by omega) (by omega) (by rw [length_append, hlen₃, length_singleton])
      (by rw [last_concat, hR₂]) (.inr ⟨rfl, rfl⟩) (by omega) hid₄
    refine ⟨st₅, ?_, ?_, fun g hg => hlast₅.keeps (by omega)
      (hlast₄.keeps (by omega) (hran₃.keeps (by omega) (hlast₂.keeps (by omega) (hprev g hg)))),
      fun _ => ?_⟩
    · rw [← hR₁] at hstep₂
      rw [← hR₂] at hstep₄
      rw [← hR₃] at hstep₅
      simp only [append_assoc, cons_append, nil_append] at hstep₂ hrun₃ hstep₄ hstep₅
      have hsplit : List.range' base (Tree.both t₁ t₂ w).size = List.range' base t₁.size ++
          (base + t₁.size) :: (List.range' (base + t₁.size + 1) t₂.size ++
          [base + t₁.size + 1 + t₂.size, base + t₁.size + 1 + t₂.size + 1]) := by
        rw [Tree.size, show t₁.size + t₂.size + 3 =
          t₁.size + (t₂.size + 2 + 1) by omega, ← range'_append_1,
          range'_succ, ← range'_append_1, range'_succ, range'_one]
      rw [hrows, hsplit, foldlM_append, hrun₁, bind_eq_bind, bind_some, foldlM_cons, hstep₂,
        bind_eq_bind, bind_some, foldlM_append, hrun₃, bind_eq_bind, bind_some,
        foldlM_cons, hstep₄, bind_eq_bind, bind_some, foldlM_cons, hstep₅]
      rfl
    · have hran := hran₂.trans hran₅ (by omega)
      rw [show base + t₁.size + 1 + t₂.size + 1 + 1 =
        base + (Tree.both t₁ t₂ w).size by rw [Tree.size]; omega] at hran
      refine hran.congr (fun ρ => ?_)
      rw [combine_or, combine_and, combine_and, Bool.xor_true, Bool.xor_false]
      rfl
    · rw [show base + (Tree.both t₁ t₂ w).size - 3 =
        base + t₁.size + 1 + t₂.size + 1 + 1 - 3 by rw [Tree.size]; omega]
      exact hinv

end UtopiaEda.Synthesizer.CascadeSynthesizer
