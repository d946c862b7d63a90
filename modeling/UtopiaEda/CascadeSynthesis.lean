import UtopiaEda.CascadeNetworks

/-!
# The synthesis of cascades

The object that is returned has the function of the table. For one variable the two literals are
exchanged.
-/
namespace UtopiaEda

def SubnetObject.Realizes {n : ℕ} (o : SubnetObject) (f : TruthTable n) : Prop :=
  match o with
  | .builder s => s.inputIDs = .range' 0 n ∧
      ∃ e, s.outputIDs = [e] ∧ ∀ lib x, s.value lib x e 0 = some (f.value x)
  | .made S => Synthesizer.Realizes S f

namespace SubnetBuilder
open Synthesizer CascadeSynthesizer

variable {n : ℕ} {s s' : SubnetBuilder} {l : Link} {f : TruthTable n}
  {F : (EntryID → ℕ → Bool) → Bool}

theorem HasInputs.realizes_builder (h : HasInputs s n) (hs : Continued (.range' 0 n) [] s s')
    (hl : s'.Computes l (fun ρ => f.value (fun v => ρ v 0))) :
    ∃ s'' l', s'.addOutput l = some (s'', l') ∧ (SubnetObject.builder s'').Realizes f := by
  obtain ⟨mid, hgrown⟩ := hs.grown
  obtain ⟨s'', hadd, hgrown', happ⟩ := hgrown.addOutput hl.1
  refine ⟨s'', _, hadd, hgrown'.inputIDs_eq, s'.size, hgrown'.outputIDs_eq, fun lib x => ?_⟩
  obtain ⟨ρ, hρ⟩ := hgrown'.netOk.exists_solves lib x
  have hout := happ.here
  rw [hgrown'.netOk.value_eq hρ (by rw [hout]; rfl), hρ _ _ hout]
  refine congrArg some ((hl.2 lib x ρ (Solves.mono hρ happ.le)).trans ?_)
  refine value_congr (fun v hv => ?_)
  have hin := happ.le v _ (hs.le v _ (h.input v hv))
  rw [hρ v _ hin, Netlist.gateValue, if_pos rfl]

theorem HasInputs.makeOutput_eq (h : HasInputs s n) (hs : Enlarged (.range' 0 n) [] s s')
    (hl : s'.Computes l F) (g : (ℕ → Bool) → Bool) (hg : ∀ (ρ : EntryID → ℕ → Bool) (x : ℕ → Bool),
      (∀ i < n, ρ i 0 = x i) → F ρ = g x) :
    ∃ S, makeOutput s' l = some (.made S) ∧ S.Implements n 1 (fun x _ => g x) := by
  obtain ⟨s'', l', S, hout, hmake, himp⟩ := h.make_output hs hl hg
  refine ⟨S, ?_, himp⟩
  rw [makeOutput]
  simp only [hout, hmake, Option.bind_eq_bind, Option.bind_some]

end SubnetBuilder

namespace Synthesizer.CascadeSynthesizer
open SubnetBuilder

variable {n k v : ℕ} {neg : Bool} {st : State} {s s' : SubnetBuilder} {l : Link} {f : TruthTable n}
  {output : List Row} {F : (EntryID → ℕ → Bool) → Bool} {t : Tree} {op : ℕ}

theorem Loop.finish {i : ℕ} (h : Loop n st i) (hheld : Held k st i op F) (hk : 2 ≤ k)
    (hi : n * 2 + 3 ≤ i) (hlen : output.length = i) (hlast : (Row.last output).op = op)
    (hinv : st.inverted (i - 3) = false) : ∃ st', st.finish k output = some st' ∧
    Continued (.range' 0 n) [] st.builder st'.builder ∧
      st'.builder.Computes ⟨st'.idx (output.length - 3), 0, false⟩ F := by
  rw [State.finish, hlen, hlast]
  cases hheld with
  | stored hlinks hF _ =>
    rw [State.link, hinv] at hF
    exact ⟨st, if_neg (not_not.mpr hlinks), h.continued, hF⟩
  | collected _ hF _ hop =>
    obtain ⟨st', hadd, -, hs, hcomp, hinv', -⟩ := h.addTree (r := i - 3) hF hk (by omega) hinv
    rw [State.link, hinv', hinv] at hcomp
    refine ⟨st', ?_, hs, hcomp⟩
    rw [if_pos hF.ne_nil]
    rcases hop with rfl | rfl
    · exact hadd
    · exact hadd

def start (n : ℕ) (s : SubnetBuilder) : State :=
  ⟨s, fun i => if n ≤ i ∧ i < n * 2 then ((inputsFrom 0 n).map Link.idx).getD (i - n) 0
    else ((inputsFrom 0 n).map Link.idx).getD i 0, fun i => decide (n ≤ i ∧ i < n * 2), []⟩

theorem inputsFrom_idx (hv : v < n) : ((inputsFrom 0 n).map Link.idx).getD v 0 = v := by
  rw [List.getD_eq_getElem _ _ (by rw [List.length_map, inputsFrom_length]; exact hv)]
  simp [inputsFrom]

theorem computes_input (h : HasInputs s n) (hv : v < n) :
    s.Computes ⟨v, 0, false⟩ (fun ρ => ρ v 0) := by
  obtain ⟨c, hc, ht, -⟩ := liveCell_of_netlist (h.input v hv)
  refine ⟨fun l hl => ?_, fun lib x ρ _ => Bool.xor_false _⟩
  rw [List.mem_singleton.mp hl]
  exact ⟨c, hc, by rw [ht]; decide⟩

theorem start_loop (h : HasInputs s n) : Loop n (start n s) (n * 2 + 2) := by
  refine ⟨⟨[], h.grown⟩, fun v hv => computes_input h hv, fun v hv => ⟨?_, ?_⟩,
    fun v hv => ⟨?_, ?_⟩, fun r hr => ?_⟩
  · rw [start]
    simp only
    rw [if_neg (by omega), inputsFrom_idx hv]
  · rw [start]
    simp only
    rw [if_pos ⟨Nat.le_add_right n v, by omega⟩, Nat.add_sub_cancel_left, inputsFrom_idx hv]
  · exact decide_eq_false (by omega)
  · exact decide_eq_true ⟨Nat.le_add_right n v, by omega⟩
  · exact decide_eq_false (by omega)

def fromRows (n : ℕ) (output : List Row) (s : SubnetBuilder) (maxArity : ℕ) : Option SubnetObject :=
  let source := (Row.last output).op
  if source = 0 then do
    let (s, link) ← s.addCell .ZERO []
    makeOutput s ⟨link.idx, 0, false⟩
  else if source = 1 then do
    let (s, link) ← s.addCell .ONE []
    makeOutput s ⟨link.idx, 0, false⟩
  else if output.length = 3 + n * 2 then
    if n + 2 ≤ source ∧ source < n * 2 + 2 then
      makeOutput s ⟨((inputsFrom 0 n).map Link.idx).getD (source - 2 - n) 0, 0, true⟩
    else makeOutput s ⟨((inputsFrom 0 n).map Link.idx).getD (source - 2) 0, 0, false⟩
  else do
    let st ← (List.range' (n * 2 + 2) (output.length - (n * 2 + 2))).foldlM
      (State.step n maxArity output) (start n s)
    let st ← st.finish maxArity output
    let (s, _) ← st.builder.addOutput ⟨st.idx (output.length - 3), 0, false⟩
    some (.builder s)

theorem synthesize_eq (f : TruthTable n) (maxArity : UInt16) (h31 : n < 31) : ∃ s, HasInputs s n ∧
    synthesize f maxArity = fromRows n (getFunction f (columns f) (n - 1) []) s maxArity.toNat := by
  obtain ⟨s, hin, h⟩ := HasInputs.init.addInputs n
  rw [Nat.zero_add] at h
  refine ⟨s, h, ?_⟩
  rw [synthesize, normalForm_eq h31]
  simp only [Option.bind_eq_bind, Option.bind_some, hin]
  rfl

theorem fromRows_const (output : List Row) (k : ℕ) (h : HasInputs s n) (b : Bool)
    (hlast : (Row.last output).op = b.toNat) : ∃ S, fromRows n output s k = some (.made S) ∧
    S.Implements n 1 (fun _ _ => b) := by
  obtain ⟨s', l, hadd, -, hs, hl⟩ := (Enlarged.refl h.grown).addConstant b
  have hlink := addCell_link hadd
  rw [hlink] at hl
  obtain ⟨S, hS, himp⟩ := h.makeOutput_eq hs hl (fun _ => b) (fun _ _ _ => rfl)
  refine ⟨S, ?_, himp⟩
  rw [fromRows, hlast]
  cases b with
  | false =>
    rw [if_pos (show false.toNat = 0 from rfl), show s.addCell .ZERO [] = some (s', l) from hadd]
    exact hS
  | true =>
    rw [if_neg (by decide), if_pos (show true.toNat = 1 from rfl),
      show s.addCell .ONE [] = some (s', l) from hadd]
    exact hS

theorem fromRows_literal (output : List Row) (k : ℕ) (neg : Bool) (h : HasInputs s n) (hv : v < n)
    (hlast : (Row.last output).op = code n v neg) (hlen : output.length = 3 + n * 2) :
    ∃ S, fromRows n output s k = some (.made S) ∧ S.Implements n 1 (fun x _ => xor (x v) neg) := by
  have htwo := two_le_code n v neg
  have hl : s.Computes ⟨v, 0, neg⟩ (fun ρ => xor (ρ v 0) neg) :=
    (start_loop h).computes_literal hv neg
  obtain ⟨S, hS, himp⟩ := h.makeOutput_eq (.refl h.grown) hl (fun x => xor (x v) neg)
    (fun ρ x hx => by rw [hx v hv])
  refine ⟨S, ?_, himp⟩
  rw [fromRows, hlast]
  simp only
  rw [if_neg (by omega), if_neg (by omega), if_pos hlen]
  cases neg with
  | false =>
    rw [if_neg (by rw [code, if_neg Bool.false_ne_true]; omega), code, if_neg Bool.false_ne_true,
      Nat.add_sub_cancel, inputsFrom_idx hv, hS]
  | true =>
    rw [if_pos ⟨by rw [code, if_pos rfl]; omega, code_lt _ hv⟩, code, if_pos rfl,
      show n + 2 + v - 2 - n = v by omega, inputsFrom_idx hv, hS]

theorem fromRows_tree (h : HasInputs s n) (ht : t.Within n 0) (hk : 2 ≤ k) (hsize : 1 < t.size)
    (hvalue : ∀ x, t.value x = f.value x) :
    ∃ s', fromRows n (sources n ++ t.rows n (n * 2 + 2)) s k = some (.builder s') ∧
    (SubnetObject.builder s').Realizes f := by
  have htwo := t.two_le_last n (n * 2 + 2) (sources n)
  have hlen := length_sources_append (n := n) (t := t)
  have hbefore : Before n k (start n s) (n * 2 + 2) (Row.last (sources n)) none := by
    refine .source ?_ rfl
    rw [sources, List.replicate_succ', last_concat]
  obtain ⟨st, hrun, hran, -, hinv⟩ :=
    (start_loop h).run (B := []) ht (.inr hsize) hk (Nat.le_refl _) sources_length hbefore
  rw [List.append_nil] at hrun
  obtain ⟨st', hfinish, hs, hl⟩ :=
    hran.loop.finish hran.held hk (by omega) hlen Tree.last_rows (hinv hsize)
  obtain ⟨s'', l', hout, hrealizes⟩ :=
    h.realizes_builder (f := f) (hran.continued.trans hs) (hl.congr (fun ρ => hvalue _))
  refine ⟨s'', ?_, hrealizes⟩
  rw [fromRows]
  simp only
  rw [if_neg (by omega), if_neg (by omega), if_neg (by omega),
    show (sources n ++ t.rows n (n * 2 + 2)).length - (n * 2 + 2) = t.size by omega, hrun]
  simp only [Option.bind_eq_bind, Option.bind_some, hfinish, hout]

theorem realizes_made {S : Subnet} {g : (ℕ → Bool) → Bool} (h : S.Implements n 1 (fun x _ => g x))
    (hg : ∀ x, g x = f.value x) : (SubnetObject.made S).Realizes f := h.congr hg

theorem synthesize_realizes (hn : 2 ≤ n) (h31 : n < 31) (f : TruthTable n) {maxArity : UInt16}
    (hk : 2 ≤ maxArity.toNat) : ∃ o, synthesize f maxArity = some o ∧ o.Realizes f := by
  obtain ⟨s, h, hrun⟩ := synthesize_eq f maxArity h31
  have hdec : Decomposes n ([] : List Bool).length (getFunction f (columns f) (n - 1) [])
      (cofactor f []) :=
    getFunction_decomposes hn (Nat.add_zero (n - 1))
  rw [List.length_nil] at hdec
  rw [hrun]
  generalize getFunction f (columns f) (n - 1) [] = output at hdec
  obtain ⟨F, hF⟩ : ∃ F, F = cofactor f [] := ⟨_, rfl⟩
  have hvalue : ∀ x, F x = f.value x := fun x => by rw [hF, cofactor_nil]
  rw [← hF] at hdec
  clear hF
  cases hdec with
  | const b =>
    have hlast : (Row.last (sources n ++ [⟨b.toNat, 0, 0⟩])).op = b.toNat := by rw [last_concat]
    obtain ⟨S, hS, himp⟩ := fromRows_const _ maxArity.toNat h b hlast
    exact ⟨.made S, hS, realizes_made himp hvalue⟩
  | tree t ht =>
    by_cases hsize : 1 < t.size
    · obtain ⟨s', hs', hrealizes⟩ := fromRows_tree h ht hk hsize hvalue
      exact ⟨.builder s', hs', hrealizes⟩
    · cases t with
      | leaf v neg =>
        have hlen : (sources n ++ (Tree.leaf v neg).rows n (n * 2 + 2)).length = 3 + n * 2 := by
          rw [length_sources_append, Tree.size]
          omega
        obtain ⟨S, hS, himp⟩ := fromRows_literal _ maxArity.toNat neg h ht.2 Tree.last_rows hlen
        exact ⟨.made S, hS, realizes_made himp hvalue⟩
      | and t v neg => exact absurd (Nat.succ_lt_succ t.size_pos) hsize
      | andOr t v neg => exact absurd (Nat.succ_lt_succ (Nat.succ_pos _)) hsize
      | both t₁ t₂ v => exact absurd (Nat.succ_lt_succ (Nat.succ_pos _)) hsize

/-- One variable: the literals are exchanged. -/
theorem synthesize_one {f : TruthTable 1} {maxArity : UInt16} :
    (∃ o, synthesize f maxArity = some o ∧ o.Realizes f) ↔ f = 0#(2 ^ 1) ∨
    f = BitVec.allOnes (2 ^ 1) := by
  obtain ⟨s, h, hrun⟩ := synthesize_eq f maxArity (by decide)
  rw [hrun, getFunction.eq_def]
  by_cases hzero : f = 0#(2 ^ 1)
  · refine iff_of_true ?_ (.inl hzero)
    obtain ⟨S, hS, himp⟩ := fromRows_const (initializeRows [] (1 * 2 + 3) 0 0 0) maxArity.toNat
      h false rfl
    refine ⟨.made S, by rw [if_pos hzero, hS], realizes_made himp (fun x => ?_)⟩
    rw [hzero]
    exact BitVec.getLsbD_zero.symm
  rw [if_neg hzero, if_pos rfl]
  by_cases hone : f = BitVec.allOnes (2 ^ 1)
  · refine iff_of_true ?_ (.inr hone)
    rw [if_pos hone]
    obtain ⟨S, hS, himp⟩ := fromRows_const (initializeRows (initializeRows [] 4 0 0 0) 1 1 0 0)
      maxArity.toNat h true rfl
    refine ⟨.made S, hS, realizes_made himp (fun x => ?_)⟩
    rw [hone, TruthTable.value, TruthTable.get_bit, BitVec.getLsbD_allOnes,
      decide_eq_true ProductSums.point_lt]
  · refine iff_of_false (fun hright => ?_) (fun hconst => hconst.elim hzero hone)
    rw [if_neg hone] at hright
    obtain ⟨o, ho, hrealizes⟩ := hright
    have hcode : (if f.get_bit 0 then 2 else 3) = code 1 0 !f.get_bit 0 := by
      cases f.get_bit 0 with
      | false => rfl
      | true => rfl
    obtain ⟨S, hS, himp⟩ := fromRows_literal
      (initializeRows (initializeRows [] 4 0 0 0) 1 (if f.get_bit 0 then 2 else 3) 0 0)
      maxArity.toNat (!f.get_bit 0) h Nat.one_pos (by rw [initializeRows, List.replicate_one,
      last_concat, hcode]) rfl
    cases hS.symm.trans ho
    have h₁ := himp.values CellLibrary.empty (fun _ => false) 0 Nat.one_pos
    have h₂ := hrealizes.values CellLibrary.empty (fun _ => false) 0 Nat.one_pos
    rw [h₁, Option.some.injEq, Bool.false_xor] at h₂
    change (!f.get_bit 0) = f.get_bit 0 at h₂
    exact Bool.not_ne_self _ h₂

/-- The object has the function of the table for two or more variables and for the constants. -/
theorem synthesize_exact (hn : 0 < n) (f : TruthTable n) {maxArity : UInt16}
    (hk : 2 ≤ maxArity.toNat) : (∃ o, synthesize f maxArity = some o ∧ o.Realizes f) ↔ n < 31 ∧
    (n ≠ 1 ∨ f = 0#(2 ^ n) ∨ f = BitVec.allOnes (2 ^ n)) := by
  by_cases hone : n = 1
  · subst hone
    rw [synthesize_one]
    exact ⟨fun h => ⟨by decide, .inr h⟩, fun h => h.2.resolve_left (fun hne => hne rfl)⟩
  · by_cases h31 : n < 31
    · exact iff_of_true (synthesize_realizes (by omega) h31 f hk) ⟨h31, .inl hone⟩
    · refine iff_of_false (fun h => ?_) (fun h => h31 h.1)
      obtain ⟨o, ho, -⟩ := h
      have hform : normalForm f = none := by
        rw [normalForm, intShl, if_neg h31]
        rfl
      rw [synthesize, hform] at ho
      cases ho

theorem synthesize_exact_two :
    ∃ o, synthesize (n := 2) 0b0110#4 3 = some o ∧ o.Realizes (n := 2) 0b0110#4 :=
  (synthesize_exact (n := 2) (by decide) 0b0110#4 (by decide)).mpr ⟨by decide, .inl (by decide)⟩

/-- For the negation of one variable the network is the variable. -/
theorem synthesize_not : ¬ ∃ o, synthesize (n := 1) 0b01#2 3 = some o ∧ o.Realizes
    (n := 1) 0b01#2 := by
  rw [synthesize_one]
  decide

end Synthesizer.CascadeSynthesizer

end UtopiaEda
