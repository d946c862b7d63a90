import UtopiaEda.MatrixGenerator

/-!
# The outputs of a generated net

The last phase makes some cells outputs and removes the links to them; the cells that lose a link
get another type. Then the plan of a net is complete: every cell is linked to or is an output.
-/
namespace UtopiaEda.MatrixGenerator
open Drawing List

variable {lib : CellAttributes} {g : MatrixGenerator} {t t' : Tables} {outputs inputs : List ℕ}
  {i j : ℕ}

/-! ### Drains -/

/-- Where the cell is linked to the column, there is a type for one link less. -/
def CanUnlink (g : MatrixGenerator) (t : Tables) (j i : ℕ) : Prop :=
  t.m i j = true → (g.nInCellTIDs.find (t.lessNIn i)).isSome ∨
    (3 ≤ t.cellNIn i ∧ (g.nInCellTIDs.find AnyArity).isSome)

theorem canUnlink_of_canMakeDrain (h : g.canMakeDrain t j = true) (hi : i < g.matrixNCells) :
    CanUnlink g t j i := by
  intro hm
  have hrow := all_eq_true.mp h i (mem_range.mpr hi)
  by_cases hless : (g.nInCellTIDs.find (t.lessNIn i)).isSome
  · exact .inl hless
  · refine .inr ?_
    by_cases hany : (g.nInCellTIDs.find AnyArity).isSome <;> simp_all

theorem CanUnlink.of_sameBut (h : CanUnlink g t j i) {k : ℕ} (hsame : SameBut k t t') (hi : i ≠ k) :
    CanUnlink g t' j i := by
  unfold CanUnlink Tables.lessNIn at h ⊢
  rw [hsame.m i hi, hsame.cellNIn i hi]
  exact h

theorem exists_types (hvalid : g.Valid lib) (h : Consistent g t) (htyped : Typed lib g t i)
    (hm : t.m i j = true) (hcan : CanUnlink g t j i) :
    (g.nInCellTIDs.find (t.lessNIn i)).getD ((g.nInCellTIDs.find AnyArity).getD []) ≠ [] ∧
      ∀ cellTID ∈ (g.nInCellTIDs.find (t.lessNIn i)).getD ((g.nInCellTIDs.find AnyArity).getD []),
        g.Fits lib cellTID (t.cellNIn i - 1) := by
  have hpos := h.pos hm
  have hle := h.le i
  obtain ⟨_, _, hfits⟩ := htyped
  have hhigh := hfits.le
  cases hfind : g.nInCellTIDs.find (t.lessNIn i) with
  | some cellTIDs =>
    have hmem := Generator.mem_of_find hfind
    rw [lessNIn_eq hpos hle] at hmem
    refine ⟨hvalid.nonempty _ hmem, fun cellTID hTID => ?_⟩
    obtain ⟨hnum, hop⟩ := hvalid.types _ hmem cellTID hTID
    refine ⟨hop, fun _ => hnum.symm, fun hno => ?_, by omega⟩
    have hany : cellTID.getInNum lib = AnyArity := by simpa [CellTypeID.isInNumFixed] using hno
    dsimp only at hnum
    omega
  | none =>
    rcases hcan hm with hsome | ⟨hthree, hsome⟩
    · rw [hfind] at hsome
      cases hsome
    · obtain ⟨cellTIDs, hany⟩ := Option.isSome_iff_exists.mp hsome
      have hmem := Generator.mem_of_find hany
      rw [hany]
      refine ⟨hvalid.nonempty _ hmem, fun cellTID hTID => ?_⟩
      obtain ⟨hnum, hop⟩ := hvalid.types _ hmem cellTID hTID
      exact ⟨hop, fun hfix => absurd hnum (by simpa [CellTypeID.isInNumFixed] using hfix),
        fun _ => by omega, by omega⟩

theorem set_false (hm : t.m i j = false) : t.set i j false = t := by
  rw [Tables.set, ← hm, Function.update_eq_self, Function.update_eq_self]

structure Drained (lib : CellAttributes) (g : MatrixGenerator) (j : ℕ) (t t' : Tables) : Prop where
  consistent : Consistent g t'
  typed : ∀ i < g.matrixNCells - g.nIn, Typed lib g t' i
  others : ∀ i k, k ≠ j → t'.m i k = t.m i k

theorem Consistent.sat_makeDrain (hvalid : g.Valid lib) {k a : ℕ} (h : Consistent g t)
    (htyped : ∀ i < g.matrixNCells - g.nIn, Typed lib g t i) (hcan : ∀ i, a ≤ i → i < a + k →
      CanUnlink g t j i) :
    (g.makeDrain j (range' a k) t).Sat (Drained lib g j t) := by
  induction k generalizing a t with
  | zero => exact .pure ⟨h, htyped, fun _ _ _ => rfl⟩
  | succ k ih =>
    rw [range'_succ, makeDrain]
    split_ifs with hm
    · have ha := (h.upper a j hm).1
      obtain ⟨hne, hfits⟩ := exists_types hvalid h (htyped a ha) hm (hcan a (Nat.le_refl a)
        (by omega))
      refine (Sat.randElement hne).bind fun cellTID hTID => ?_
      refine (ih (h.unlink hm) (fun i hi => ?_) fun i hai hik => ?_).weaken fun t' ht =>
        ⟨ht.consistent, ht.typed, fun i c hc => (ht.others i c hc).trans ?_⟩
      · by_cases hia : i = a
        · rw [hia]
          exact ⟨cellTID, Function.update_self _ _
            _, by rw [cellNIn_unlink h hm]; exact hfits cellTID hTID⟩
        · exact (htyped i hi).of_sameBut sameBut_unlink hia
      · exact (hcan i (by omega) (by omega)).of_sameBut sameBut_unlink (by omega)
      · by_cases hia : i = a
        · rw [hia, m_unlink, Function.update_of_ne hc]
        · rw [sameBut_unlink.m i hia]
    · rw [set_false (by simpa using hm)]
      exact ih h htyped fun i hai hik => hcan i (by omega) (by omega)

/-! ### Outputs -/

structure Planned (lib : CellAttributes) (g : MatrixGenerator) (t : Tables) (outputs : List ℕ) :
    Prop where
  consistent : Consistent g t
  typed : ∀ i < g.matrixNCells - g.nIn, Typed lib g t i
  used : ∀ j < g.matrixNCells, (∃ i, t.m i j = true) ∨ j ∈ outputs
  lt : ∀ j ∈ outputs, j < g.matrixNCells

theorem Planned.add (h : Planned lib g t outputs) (hj : j < g.matrixNCells) :
    Planned lib g t (outputs ++ [j]) := by
  refine ⟨h.consistent, h.typed, fun k hk => (h.used k hk).imp_right (mem_append_left _),
    fun k hk => ?_⟩
  rcases mem_append.mp hk with hk | hk
  · exact h.lt k hk
  · rw [mem_singleton.mp hk]
    exact hj

theorem Planned.drain (h : Planned lib g t outputs) (hj : j < g.matrixNCells)
    (hdrained : Drained lib g j t t') : Planned lib g t' (outputs ++ [j]) := by
  refine ⟨hdrained.consistent, hdrained.typed, fun k hk => ?_, (h.add hj).lt⟩
  by_cases hkj : k = j
  · exact .inr (mem_append_right _ (mem_singleton.mpr hkj))
  · refine (h.used k hk).imp ?_ (mem_append_left _)
    rintro ⟨i, hi⟩
    exact ⟨i, (hdrained.others i k hkj).trans hi⟩

theorem Planned.sat_setDrains (hvalid : g.Valid lib) (hpos : 0 < g.matrixNCells) {k : ℕ}
    (h : Planned lib g t outputs) : (g.setDrains k t outputs).Sat fun r => Planned lib g r.1 r.2 ∧
    r.2.length ≤ outputs.length + k := by
  induction k generalizing t outputs with
  | zero => exact .pure ⟨h, Nat.le_refl _⟩
  | succ k ih =>
    rw [setDrains]
    have hskip : (g.setDrains k t outputs).Sat fun r =>
        Planned lib g r.1 r.2 ∧ r.2.length ≤ outputs.length + (k + 1) :=
      (ih h).weaken fun r hr => ⟨hr.1, Nat.le_succ_of_le hr.2⟩
    refine Sat.bind (P := fun _ => True) (.rand fun _ => trivial) fun d _ => ?_
    split_ifs
    · exact hskip
    · refine (Sat.check (P := fun _ => True) hpos.ne' trivial).bind fun _ _ => ?_
      refine (Sat.randMod hpos).bind fun j hj => ?_
      split_ifs with hcan
      · rw [range_eq_range']
        refine (h.consistent.sat_makeDrain hvalid h.typed fun i _ hi =>
          canUnlink_of_canMakeDrain hcan (by omega)).bind fun t' ht => ?_
        refine (ih (h.drain hj ht)).weaken fun r hr => ⟨hr.1, ?_⟩
        have hlen := hr.2
        rw [length_append, length_singleton] at hlen
        omega
      · exact hskip

theorem Planned.sat_addOutputs (hpos : 0 < g.matrixNCells) (h : Planned lib g t outputs)
    (hle : outputs.length ≤ g.nOut) : (loop g.addOutput outputs).Sat fun outputs =>
    Planned lib g t outputs ∧ outputs.length = g.nOut := by
  refine Sat.loop (I := fun outputs => Planned lib g t outputs ∧ outputs.length ≤ g.nOut) ?_ ⟨h,
    hle⟩
  rintro outputs ⟨h, hle⟩
  rw [addOutput]
  split_ifs with hmore
  · refine (Sat.check (P := fun _ => True) hpos.ne' trivial).bind fun _ _ => ?_
    refine (Sat.randMod hpos).bind fun j hj =>
      .pure ⟨fun outputs' heq => ?_, fun _ heq => (by cases heq)⟩
    cases heq
    refine ⟨h.add hj, ?_⟩
    rw [length_append, length_singleton]
    exact hmore
  · refine .pure ⟨fun _ heq => (by cases heq), fun outputs' heq => ?_⟩
    cases heq
    exact ⟨h, by omega⟩

theorem sat_setPrimOuts (hvalid : g.Valid lib) (hpos : 0 < g.matrixNCells) (hout : 1 ≤ g.nOut)
    (h : Consistent g t) (hused : Used g.matrixNCells t) (htyped : ∀ i < g.matrixNCells - g.nIn,
    Typed lib g t i) : (g.setPrimOuts t).Sat fun r => Planned lib g r.1 r.2 ∧
    r.2.length = g.nOut := by
  have hfirst : Planned lib g t [0] := by
    refine ⟨h, htyped, fun j hj => ?_, fun j hj => ?_⟩
    · cases j with
      | zero => exact .inr (mem_singleton.mpr rfl)
      | succ j => exact .inl (hused (j + 1) (Nat.succ_pos j) hj)
    · rw [mem_singleton.mp hj]
      exact hpos
  refine (hfirst.sat_setDrains hvalid hpos).bind fun r hr => ?_
  have hlen : r.2.length ≤ g.nOut := by
    have hle := hr.2
    rw [length_singleton] at hle
    omega
  exact (hr.1.sat_addOutputs hpos hlen).bind fun outputs hout => .pure hout

/-! ### Inputs -/

structure Inputs (g : MatrixGenerator) (n : ℕ) (inputs : List ℕ) : Prop where
  length : inputs.length = n
  nodup : inputs.Nodup
  mem : ∀ j, j ∈ inputs ↔ g.matrixNCells - n ≤ j ∧ j < g.matrixNCells

theorem Inputs.loop_eq {k n : ℕ} (h : Inputs g n inputs) (hk : n + k = g.nIn)
    (hle : g.nIn ≤ g.matrixNCells) : ∃ inputs', g.setPrimInsLoop (k + 1) inputs = some inputs' ∧
    Inputs g g.nIn inputs' := by
  induction k generalizing n inputs with
  | zero =>
    refine ⟨inputs, if_neg ?_, ?_⟩
    · rw [h.length, not_not]
      exact hk
    · rw [← hk]
      exact h
  | succ k ih =>
    have hnotin : g.matrixNCells - inputs.length - 1 ∉ inputs := by
      rw [h.mem, h.length]
      omega
    have hinsert : Inputs g (n + 1) (inputs.insert (g.matrixNCells - inputs.length - 1)) := by
      rw [insert_of_not_mem hnotin]
      refine ⟨by rw [length_cons, h.length], nodup_cons.mpr ⟨hnotin, h.nodup⟩, fun j => ?_⟩
      rw [mem_cons, h.mem, h.length]
      omega
    obtain ⟨inputs', heq, hinputs⟩ := ih hinsert (by omega)
    refine ⟨inputs', ?_, hinputs⟩
    rw [setPrimInsLoop, if_pos (by rw [h.length]; omega)]
    exact heq

theorem sat_setPrimIns (hle : g.nIn ≤ g.matrixNCells) : (g.setPrimIns).Sat (Inputs g g.nIn) := by
  have hempty : Inputs g 0 [] := ⟨rfl, .nil, fun j => by simp⟩
  obtain ⟨inputs, heq, hinputs⟩ := hempty.loop_eq (Nat.zero_add _) hle
  exact .ofOption heq hinputs

/-! ### Plans -/

structure NetPlan.Complete (lib : CellAttributes) (g : MatrixGenerator) (plan : NetPlan) :
    Prop where
  planned : Planned lib g plan.toTables plan.outputs
  outputs : plan.outputs.length = g.nOut
  inputs : Inputs g g.nIn plan.inputs

theorem consistent_empty : Consistent g {} := by
  refine ⟨fun _ _ h => (by cases h), fun i => ?_, fun _ => Nat.zero_le _, fun _ _ => rfl⟩
  rw [eq_comm, Finset.card_eq_zero]
  exact Finset.eq_empty_of_forall_notMem fun j hj => absurd (mem_ones.mp hj).2 (by simp)

theorem sat_setOps (hvalid : g.Valid lib) (hpos : 0 < g.matrixNCells - g.nIn) :
    (g.setOps lib {}).Sat fun o => ∀ t, o = some t →
      Consistent g t ∧ Used g.matrixNCells t ∧ ∀ i < g.matrixNCells - g.nIn, Typed lib g t i := by
  refine Sat.bind (consistent_empty.sat_setCellsOutsLoop hpos (Nat.le_refl 1) (by omega)
    (fun j hj hlt => absurd hj (by omega)) fun _ _ _ => rfl) fun o ho => ?_
  cases o with
  | none => exact .pure fun t' ht => by cases ht
  | some t =>
    obtain ⟨h, hused⟩ := ho t rfl
    dsimp only
    rw [range_eq_range']
    exact h.sat_setOpsLoop hvalid (Nat.zero_add _) hused fun i hi => absurd hi (Nat.not_lt_zero i)

theorem sat_genM (hvalid : g.Valid lib) (hpos : 0 < g.matrixNCells - g.nIn) (hout : 1 ≤ g.nOut) :
    (g.genM lib).Sat fun o => ∀ plan, o = some plan → plan.Complete lib g := by
  refine (sat_setPrimIns (by omega)).bind fun inputs hinputs => ?_
  refine (sat_setOps hvalid hpos).bind fun o ho => ?_
  cases o with
  | none => exact .pure fun plan hplan => by cases hplan
  | some t =>
    obtain ⟨h, hused, htyped⟩ := ho t rfl
    refine (sat_setPrimOuts hvalid (by omega) hout h hused htyped).bind fun r hr =>
      .pure fun plan hplan => ?_
    cases hplan
    exact ⟨hr.1, hr.2, hinputs⟩

end UtopiaEda.MatrixGenerator
