import UtopiaEda.Operations

/-!
# The calls of `replace`

`replace` takes the root out of the hash table and then adds and replaces cells, one after the
other. What these calls keep is kept by `replace`.
-/
namespace UtopiaEda.SubnetBuilder
open Option (bind_eq_some_iff)

variable {lib : CellLibrary} {s s' : SubnetBuilder} {rhs : Subnet} {iomapping : InOutMapping}
  {rootID i : EntryID} {rootIsOut : Bool} {rhsOutLink : Link} {rhsCell : SubnetCell}
  {st st' : Replacing} {I : SubnetBuilder → Prop} {P : SubnetBuilder → Operation → Prop}

def stepCall (rootID : EntryID) (rootIsOut : Bool) (rhsOutLink : Link) (i : EntryID)
    (rhsCell : SubnetCell) (st : Replacing) : Operation :=
  let links := st.mapLinks rhsCell.links
  if (rhsOutLink.idx = i ∧ rhsOutLink.inv = false) ∧
      (rootIsOut ∨ (st.builder.strash (StrashKey.make rhsCell.type links)).isSome = false) then
    .replaceCell rootID rhsCell.type links true
  else .addCell rhsCell.type links

/-- The call for the extra buffer satisfies `P`. -/
def BufCall (P : SubnetBuilder → Operation → Prop) (rhs : Subnet) (rootID : EntryID)
    (rhsOutLink : Link) (st : Replacing) : Prop :=
  (rhsOutLink.idx < rhs.nIn ∧ st.rhsToLhs 0 ≠ rootID) ∨ rhsOutLink.inv = true ∨
    st.rootFound = true → P st.builder
    (.replaceCell rootID .BUF [⟨st.rhsToLhs rhsOutLink.idx, rhsOutLink.out, rhsOutLink.inv⟩] true)

/-- The calls of the loop and the call for the buffer satisfy `P`. -/
def LoopCalls (P : SubnetBuilder → Operation → Prop) (rhs : Subnet) (rootID : EntryID)
    (rootIsOut : Bool) (rhsOutLink : Link) : List EntryID → Replacing → Prop
  | [], st => BufCall P rhs rootID rhsOutLink st
  | i :: ids, st => ∀ rhsCell, rhs.getCell i = some rhsCell →
    if rhsCell.isOut ∧ rootIsOut = false then BufCall P rhs rootID rhsOutLink st
    else P st.builder (stepCall rootID rootIsOut rhsOutLink i rhsCell st) ∧
      ∀ st', replaceStep rootID rootIsOut rhsOutLink i rhsCell st = some st' →
        LoopCalls P rhs rootID rootIsOut rhsOutLink ids st'

/-- The calls that `replace` makes satisfy `P`. -/
def ReplaceCalls (P : SubnetBuilder → Operation → Prop) (s : SubnetBuilder) (rhs : Subnet)
    (iomapping : InOutMapping) : Prop :=
  ∀ rhsToLhs rootCell out s₀, fillMapping rhs iomapping = some rhsToLhs →
    s.getCell (rhsToLhs (rhs.size - 1)) = some rootCell →
    SubnetBuilder.rhsOutLink rhs rootCell.isOut = some out →
    s.destrashRoot rhsToLhs (rhsToLhs (rhs.size - 1)) = some s₀ →
    LoopCalls P rhs (rhsToLhs (rhs.size - 1)) rootCell.isOut out
    (List.range' rhs.nIn (rhs.size - rhs.nIn))
      ⟨s₀, rhsToLhs, false⟩

theorem LoopCalls.and {Q : SubnetBuilder → Operation → Prop} :
    ∀ {ids : List EntryID} {st : Replacing}, LoopCalls P rhs rootID rootIsOut rhsOutLink ids st →
    LoopCalls Q rhs rootID rootIsOut rhsOutLink ids st →
    LoopCalls (fun s op => P s op ∧ Q s op) rhs rootID rootIsOut rhsOutLink ids st := by
  intro ids
  induction ids with
  | nil => exact fun hP hQ hbuf => ⟨hP hbuf, hQ hbuf⟩
  | cons i ids ih =>
    intro st hP hQ rhsCell hcell
    have hP := hP rhsCell hcell
    have hQ := hQ rhsCell hcell
    split at hP
    · rename_i hout
      rw [if_pos hout] at hQ ⊢
      exact fun hbuf => ⟨hP hbuf, hQ hbuf⟩
    · rename_i hout
      rw [if_neg hout] at hQ ⊢
      exact ⟨⟨hP.1, hQ.1⟩, fun st' hst' => ih (hP.2 st' hst') (hQ.2 st' hst')⟩

theorem ReplaceCalls.and {Q : SubnetBuilder → Operation → Prop}
    (hP : ReplaceCalls P s rhs iomapping) (hQ : ReplaceCalls Q s rhs iomapping) :
    ReplaceCalls (fun s op => P s op ∧ Q s op) s rhs iomapping :=
  fun f c out s₀ hf hc hout hs₀ => (hP f c out s₀ hf hc hout hs₀).and (hQ f c out s₀ hf hc hout hs₀)

theorem apply_stepCall (h : replaceStep rootID rootIsOut rhsOutLink i rhsCell st = some st') :
    st.builder.apply lib (stepCall rootID rootIsOut rhsOutLink i rhsCell st) =
    some st'.builder := by
  rw [replaceStep] at h
  dsimp only at h
  split at h
  · cases h
  · have hiff : ((rhsOutLink.idx = i ∧ rhsOutLink.inv = false) ∧ (rootIsOut = true ∨
        (if (rhsOutLink.idx = i ∧ rhsOutLink.inv = false) ∧ rootIsOut = false then
          (st.builder.strash (StrashKey.make rhsCell.type (st.mapLinks rhsCell.links))).isSome
        else st.rootFound) = false)) ↔
        ((rhsOutLink.idx = i ∧ rhsOutLink.inv = false) ∧ (rootIsOut = true ∨
          (st.builder.strash (StrashKey.make rhsCell.type (st.mapLinks rhsCell.links))).isSome =
            false)) := by
      cases rootIsOut with
      | true => simp
      | false =>
        constructor
        · rintro ⟨hroot, hor⟩
          rw [if_pos ⟨hroot, rfl⟩] at hor
          exact ⟨hroot, hor⟩
        · rintro ⟨hroot, hor⟩
          rw [if_pos ⟨hroot, rfl⟩]
          exact ⟨hroot, hor⟩
    rw [stepCall]
    by_cases hcond : (rhsOutLink.idx = i ∧ rhsOutLink.inv = false) ∧ (rootIsOut = true ∨
        (st.builder.strash (StrashKey.make rhsCell.type (st.mapLinks rhsCell.links))).isSome =
          false)
    · rw [if_pos (hiff.mpr hcond)] at h
      rw [if_pos hcond]
      obtain ⟨⟨b, r⟩, hb, h⟩ := bind_eq_some_iff.mp h
      cases h
      rw [SubnetBuilder.apply, hb]
      rfl
    · rw [if_neg (fun hroot => hcond (hiff.mp hroot))] at h
      rw [if_neg hcond]
      obtain ⟨⟨b, r⟩, hb, h⟩ := bind_eq_some_iff.mp h
      cases h
      rw [SubnetBuilder.apply, hb]
      rfl

private theorem addBuf_invariant (hstep : ∀ s s' op, I s → P s op → s.apply lib op = some s' → I s')
    (h : I st.builder) (hcall : BufCall P rhs rootID rhsOutLink st)
    (hb : addBuf rhs rootID rhsOutLink st = some s') : I s' := by
  rw [addBuf] at hb
  split at hb
  · rename_i hcond
    exact hstep _ _ _ h (hcall hcond) hb
  · cases hb
    exact h

private theorem replaceLoop_invariant (hstep : ∀ s s' op, I s → P s op → s.apply lib op = some s' →
    I s') : ∀ {ids : List EntryID} {st st' : Replacing}, I st.builder →
    LoopCalls P rhs rootID rootIsOut rhsOutLink ids st →
    replaceLoop rhs rootID rootIsOut rhsOutLink ids st = some st' →
    I st'.builder ∧ BufCall P rhs rootID rhsOutLink st' := by
  intro ids
  induction ids with
  | nil =>
    intro st st' h hcalls hloop
    cases hloop
    exact ⟨h, hcalls⟩
  | cons i ids ih =>
    intro st st' h hcalls hloop
    obtain ⟨rhsCell, hcell, hloop⟩ := bind_eq_some_iff.mp hloop
    have hcall := hcalls rhsCell hcell
    split at hloop
    · rename_i hout
      rw [if_pos hout] at hcall
      cases hloop
      exact ⟨h, hcall⟩
    · rename_i hout
      rw [if_neg hout] at hcall
      obtain ⟨st₁, hst₁, hloop⟩ := bind_eq_some_iff.mp hloop
      exact ih (hstep _ _ _ h hcall.1 (apply_stepCall hst₁)) (hcall.2 st₁ hst₁) hloop

theorem replace_invariant (hdestrash : ∀ s s' i, I s → s.destrashEntry i = some s' → I s')
    (hstep : ∀ s s' op, I s → P s op → s.apply lib op = some s' → I s') (h : I s)
    (hcalls : ReplaceCalls P s rhs iomapping) (hr : s.replace rhs iomapping = some s') : I s' := by
  rw [replace] at hr
  split at hr
  · cases hr
  · obtain ⟨f, hf, hr⟩ := bind_eq_some_iff.mp hr
    obtain ⟨c, hc, hr⟩ := bind_eq_some_iff.mp hr
    obtain ⟨out, hout, hr⟩ := bind_eq_some_iff.mp hr
    obtain ⟨s₀, hs₀, hr⟩ := bind_eq_some_iff.mp hr
    obtain ⟨st, hst, hr⟩ := bind_eq_some_iff.mp hr
    have h₀ : I s₀ := by
      have hroot := hs₀
      rw [destrashRoot] at hroot
      split at hroot
      · exact hdestrash _ _ _ h hroot
      · cases hroot
        exact h
    obtain ⟨hend, hbuf⟩ := replaceLoop_invariant hstep h₀ (hcalls f c out s₀ hf hc hout hs₀) hst
    exact addBuf_invariant hstep hend hbuf hr

/-! ### The calls while `rhs` is mapped -/

private theorem not_bufCall (hle : rhs.nIn ≤ rhsOutLink.idx) (hinv : rhsOutLink.inv = false)
    (hfound : st.rootFound = false) : BufCall P rhs rootID rhsOutLink st := by
  rintro (⟨hlt, -⟩ | hinv' | hfound')
  · exact absurd hlt (Nat.not_lt.mpr hle)
  · rw [hinv] at hinv'
    cases hinv'
  · rw [hfound] at hfound'
    cases hfound'

/-- It is enough that the calls satisfy `P` as long as they only add cells to a builder in which `I`
holds. -/
theorem Mapped.loopCalls {leaf : EntryID → EntryID} (hwf : rhs.WellFormed)
    (hroot : (s.netlist rootID).isSome) (hnOut : rhs.nOut = 1)
    (hdrv : Driver rhs rootIsOut rhsOutLink) (hbuf : ∀ {i st}, Mapped s rhs rootID leaf i st →
    rhsOutLink.idx < i → BufCall P rhs rootID rhsOutLink st)
    (hcall : ∀ {i c st}, Mapped s rhs rootID leaf i st → I st.builder → rhs.nIn ≤ i →
    rhs.getCell i = some c →
      c.type ≠ .IN → (c.type = .OUT → rootIsOut = true) →
      P st.builder (stepCall rootID rootIsOut rhsOutLink i c st))
    (hI : ∀ {b b' t links r}, I b → b.addCell t links = some (b', r) → I b') :
    ∀ {n i : ℕ} {st : Replacing}, i + n + 1 = rhs.size → rhs.nIn ≤ i →
    Mapped s rhs rootID leaf i st → I st.builder → (rootIsOut = true → st.rootFound = false) →
    LoopCalls P rhs rootID rootIsOut rhsOutLink (List.range' i (n + 1)) st := by
  intro n
  induction n with
  | zero =>
    intro i st hn hin h hb hf
    rw [List.range'_succ, List.range'_zero, LoopCalls]
    intro c hc
    have hct : c.type = .OUT := (hwf.output i c hc).mpr (by rw [hnOut]; omega)
    cases rootIsOut with
    | false =>
      rw [if_pos ⟨by simp [SubnetCell.isOut, hct], rfl⟩]
      have hi : rhs.size - 1 = i := by omega
      exact hbuf h (Nat.lt_of_lt_of_eq (hdrv.lt rfl) hi)
    | true =>
      rw [if_neg (by simp)]
      refine ⟨hcall h hb hin hc (by simp [hct]) (fun _ => rfl), fun st' hst' => ?_⟩
      obtain ⟨found, b, r, rfl, hfound, -⟩ := replaceStep_cases hst'
      have hself := hdrv.self rfl
      have hle : rhs.nIn ≤ rhs.size - 1 := by omega
      exact not_bufCall (by rw [hself]; exact hle) (by rw [hself]) ((hfound rfl).trans (hf rfl))
  | succ n ih =>
    intro i st hn hin h hb hf
    rw [List.range'_succ, LoopCalls]
    intro c hc
    have hct : c.type ≠ .OUT := by
      intro ht
      have hle := (hwf.output i c hc).mp ht
      rw [hnOut] at hle
      omega
    have hcin : c.type ≠ .IN := by
      intro ht
      have hlt : i < rhs.nIn := (hwf.input i c hc).mp ht
      omega
    rw [if_neg (by simp [SubnetCell.isOut, hct])]
    refine ⟨hcall h hb hin hc hcin (fun ht => absurd ht hct), fun st' hst' => ?_⟩
    obtain ⟨found, b', r, rfl, hfound₁, -, ⟨hi, hinv, hcond, -⟩ | ⟨-, hadd⟩⟩ :=
      replaceStep_cases hst'
    · -- behind the driver there is only the output, where the loop stops without a buffer
      cases rootIsOut with
      | true =>
        have hlast : i = rhs.size - 1 := hi.symm.trans (by rw [hdrv.self rfl])
        omega
      | false =>
        have hlast : i + 2 = rhs.size := by
          rcases hdrv.last rfl with h₁ | h₁ | h₁
          · rw [hinv] at h₁
            cases h₁
          · have hlt : i < rhs.nIn := hi ▸ h₁
            omega
          · exact hi ▸ h₁
        obtain rfl : n = 0 := by omega
        rw [List.range'_succ, List.range'_zero, LoopCalls]
        intro a ha
        have hat : a.type = .OUT := (hwf.output _ a ha).mpr (by rw [hnOut]; omega)
        rw [if_pos ⟨by simp [SubnetCell.isOut, hat], rfl⟩]
        exact not_bufCall (hi ▸ hin) hinv (hcond.resolve_left (by simp))
    · exact ih (by omega) (by omega) (h.add hwf hroot hc hin hct hadd) (hI hb hadd)
        (fun hro => (hfound₁ hro).trans (hf hro))

end UtopiaEda.SubnetBuilder
