import UtopiaEda.CellReplacement
import UtopiaEda.Merging

/-!
# Enabling the fanout lists

`enableFanouts` enters every cell in the fanout lists of its inputs. The walk along the order
meets every cell once, so the lists become those that `NetInv` asks for.
-/
namespace UtopiaEda.SubnetBuilder
open Incidence Finset

variable {s s' : SubnetBuilder} {i j u : EntryID} {c : SubnetCell} {L : List EntryID}

/-- The walk from `begin()` meets every cell in use once, and nothing else. -/
def Traversable (s : SubnetBuilder) : Prop :=
  (s.order.getSubnetBegin = .invalidID ∧ ∀ i, s.liveCell i = none) ∨
    ∃ L, s.order.entryIDs = some L ∧ L.Nodup ∧ ∀ i, i ∈ L ↔ (s.liveCell i).isSome

/-- The users of `j` among the entries of a list. -/
private def listed (s : SubnetBuilder) (L : List EntryID) (j : EntryID) : Multiset EntryID :=
  (L.map (fun i => Multiset.replicate ((s.targets i).count j) i)).sum

private theorem listed_eq_users (hL : L.Nodup) (hmem : ∀ i, i ∈ L ↔ (s.liveCell i).isSome)
    (j : EntryID) : listed s L j = users (range s.size) s.targets j := by
  have hsub : L.toFinset ⊆ range s.size := by
    intro i hi
    obtain ⟨c, hc⟩ := Option.isSome_iff_exists.mp ((hmem i).mp (List.mem_toFinset.mp hi))
    exact mem_range.mpr (lt_of_live hc)
  rw [← users_subset hsub]
  · exact (List.sum_toFinset _ hL).symm
  · intro i _ hi
    cases hc : s.liveCell i with
    | none => simp [SubnetBuilder.targets, hc]
    | some c => exact absurd (List.mem_toFinset.mpr ((hmem i).mpr (by simp [hc]))) hi

private theorem addFanouts_eq : ∀ {links : List Link} {F : EntryID → List EntryID},
    (∀ l ∈ links, l.idx < s.size) → u < s.size → s.fanoutsEnabled = true →
    ∃ F', addFanouts u links (s.setFanouts F) = some (s.setFanouts F') ∧ ∀ j,
      (F' j : Multiset EntryID) = F j + Multiset.replicate ((links.map Link.idx).count j) u := by
  intro links
  induction links with
  | nil =>
    intro F _ _ _
    exact ⟨F, rfl, by simp⟩
  | cons l links ih =>
    intro F hl hu he
    have hlt := hl l (by simp)
    obtain ⟨F', hF', hcount⟩ := ih (F := Function.update F l.idx (F l.idx ++ [u]))
      (fun k hk => hl k (by simp [hk])) hu he
    refine ⟨F', ?_, fun j => ?_⟩
    · have hbounds : ¬ ((s.setFanouts F).size ≤ l.idx ∨ (s.setFanouts F).size ≤ u) :=
        not_or.mpr ⟨Nat.not_le.mpr hlt, Nat.not_le.mpr hu⟩
      have hen : (s.setFanouts F).fanoutsEnabled = true := he
      simp only [addFanouts, addFanout, if_neg hbounds, hen, if_true, Option.bind_eq_bind,
        Option.bind_some]
      exact hF'
    · rw [hcount j, List.map_cons, List.count_cons]
      by_cases hj : j = l.idx
      · subst hj
        rw [Function.update_self, ← Multiset.coe_add, beq_self_eq_true, if_pos rfl,
          Multiset.replicate_succ, Multiset.coe_singleton, add_assoc, Multiset.singleton_add]
      · rw [Function.update_of_ne hj]
        simp [Ne.symm hj]

private theorem enableLoop_eq (ht : ∀ i, ∀ j ∈ s.targets i, j < s.size) :
    ∀ {n : ℕ} {p : Place} {L : List EntryID} {F : EntryID → List EntryID}, s.order.walk n p =
    some L → (∀ i ∈ L, (s.liveCell i).isSome) → s.fanoutsEnabled = true →
    ∃ F', enableLoop n p (s.setFanouts F) = some (s.setFanouts F') ∧
      ∀ j, (F' j : Multiset EntryID) = F j + listed s L j := by
  intro n
  induction n with
  | zero =>
    intro p L F hw hL he
    cases p <;> simp [EntryOrder.walk] at hw
    subst hw
    exact ⟨F, rfl, by simp [listed]⟩
  | succ n ih =>
    intro p L F hw hL he
    cases p with
    | upperBoundID =>
      simp only [EntryOrder.walk, Option.some.injEq] at hw
      subst hw
      exact ⟨F, rfl, by simp [listed]⟩
    | entry i =>
      simp only [EntryOrder.walk, Option.bind_eq_bind] at hw
      obtain ⟨q, hq, hw⟩ := Option.bind_eq_some_iff.mp hw
      obtain ⟨L', hL', hw⟩ := Option.bind_eq_some_iff.mp hw
      cases hw
      obtain ⟨c, hc⟩ := Option.isSome_iff_exists.mp (hL i (by simp))
      have hlinks : ∀ l ∈ c.links, l.idx < s.size := by
        intro l hl
        have hmem : l.idx ∈ s.targets i := by
          rw [targets_of_live hc]
          exact List.mem_map_of_mem hl
        exact ht i l.idx hmem
      obtain ⟨F₁, hF₁, hcount₁⟩ := addFanouts_eq (F := F) hlinks (lt_of_live hc) he
      obtain ⟨F', hF', hcount⟩ := ih (F := F₁) hL' (fun k hk => hL k (by simp [hk])) he
      refine ⟨F', ?_, fun j => ?_⟩
      · have hcell : (s.setFanouts F).getCell i = some c := getCell_of_live hc
        have horder : (s.setFanouts F₁).order = s.order := rfl
        simp only [enableLoop, hcell, hF₁, horder, hq, Option.bind_eq_bind, Option.bind_some, hF']
      · rw [hcount, hcount₁]
        simp [listed, targets_of_live hc, add_assoc]
    | _ => simp [EntryOrder.walk] at hw

theorem NetInv.enableFanouts (hs : NetInv s s.targets)
    (hempty : ∀ i, s.fanouts i = []) (ht : Traversable s) :
    ∃ F, s.enableFanouts = some { s with fanoutsEnabled := true, fanouts := F } ∧
      NetInv { s with fanoutsEnabled := true, fanouts := F } s.targets := by
  have hlists : ∀ F : EntryID → List EntryID,
      (∀ i, (F i : Multiset EntryID) = users (range s.size) s.targets i) →
      NetInv { s with fanoutsEnabled := true, fanouts := F } s.targets := fun F hF =>
    ⟨hs.nodup, hs.free, hs.user, hs.target, hs.refcount, fun _ => hF, hs.strash⟩
  rcases ht with ⟨hbegin, hdead⟩ | ⟨L, hwalk, hnd, hmem⟩
  · refine ⟨s.fanouts, ?_, hlists _ (fun i => ?_)⟩
    · simp [SubnetBuilder.enableFanouts, hbegin, enableLoop]
    · rw [hempty, eq_comm, Multiset.coe_nil, users_eq_zero]
      intro j _ hj
      simp [SubnetBuilder.targets, hdead] at hj
  · let t : SubnetBuilder := { s with fanoutsEnabled := true }
    have ht : ∀ i, ∀ j ∈ t.targets i, j < t.size := by
      intro i j hj
      obtain ⟨a, ha, -⟩ := hs.target i j hj
      exact lt_of_live ha
    obtain ⟨F, hF, hcount⟩ := enableLoop_eq (F := s.fanouts) ht hwalk
      (fun i hi => (hmem i).mp hi) rfl
    refine ⟨F, hF, hlists F (fun i => ?_)⟩
    rw [hcount, hempty, Multiset.coe_nil, zero_add]
    exact listed_eq_users (s := t) hnd hmem i

end UtopiaEda.SubnetBuilder
