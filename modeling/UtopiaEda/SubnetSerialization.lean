import UtopiaEda.SubnetSerializer
import UtopiaEda.ValidityChecks
import UtopiaEda.WordNetworks

/-!
# Subnets that are read back

The entries that were written are added to a builder, so a subnet is restored if its cells can be
replayed. Cells with more links than an entry holds cannot.
-/
namespace UtopiaEda
open List
open Option (bind_eq_bind bind_some map_some)

variable {S : Subnet}

namespace SubnetSerializer
open SubnetBuilder

theorem deserializeLoop_eq (input : List Datum) : ∀ (es : List Entry) (sb : SubnetBuilder),
    deserializeLoop es.length sb (es.map .entry ++ input) =
    (es.foldlM addEntry sb).map (·, input) := by
  intro es
  induction es with
  | nil => exact fun sb => rfl
  | cons e es ih =>
    intro sb
    have hpull : pullFromStream Datum.entry? ((e :: es).map .entry ++ input) =
        some (e, es.map .entry ++ input) := rfl
    rw [length_cons, deserializeLoop, hpull, foldlM_cons]
    cases hadd : addEntry sb e with
    | none => simp only [bind_eq_bind, bind_some, hadd, Option.bind_none,
        Option.map_none]
    | some sb' =>
      simp only [bind_eq_bind, bind_some, hadd]
      exact ih sb'

private theorem foldl_push (es : List Entry) : ∀ out : List Datum,
    es.foldl (pushIntoStream .entry) out = out ++ es.map .entry := by
  induction es with
  | nil => exact fun out => (append_nil out).symm
  | cons e es ih =>
    intro out
    rw [foldl_cons, ih, pushIntoStream, append_assoc]
    rfl

def written (S : Subnet) : List Entry := S.entries.take (UInt32.ofNat S.size).toNat

theorem length_written : (written S).length = (UInt32.ofNat S.size).toNat := by
  rw [written, length_take]
  apply Nat.min_eq_left
  rw [UInt32.toNat_ofNat']
  exact Nat.mod_le _ _

theorem serialize_eq (out : List Datum) :
    serialize out S = out ++ .uint32 (.ofNat S.size) :: (written S).map .entry := by
  change (written S).foldl (pushIntoStream .entry) (pushIntoStream .uint32 out (.ofNat S.size)) = _
  rw [foldl_push, pushIntoStream, append_assoc]
  rfl

theorem deserialize_eq (input : List Datum) :
    deserialize (.uint32 (.ofNat S.size) :: (written S).map .entry ++ input) =
      ((written S).foldlM addEntry {}).bind (fun sb => sb.make.map (·, input)) := by
  have hpull : pullFromStream Datum.uint32? (.uint32 (.ofNat S.size) :: (written S).map .entry ++
      input) = some (.ofNat S.size, (written S).map .entry ++ input) := rfl
  rw [deserialize, hpull]
  simp only [bind_eq_bind, bind_some]
  rw [← length_written, deserializeLoop_eq]
  cases (written S).foldlM addEntry {} with
  | none => rfl
  | some sb =>
    rw [map_some, bind_some, bind_some]
    cases sb.make <;> rfl

theorem narrow_of_foldlM : ∀ {es : List Entry} {s s' : SubnetBuilder},
    es.foldlM addEntry s = some s' → ∀ e ∈ es, ∃ c, e = .cell c ∧ c.arity ≤ InPlaceLinks := by
  intro es
  induction es with
  | nil => exact fun _ e he => by cases he
  | cons e es ih =>
    intro s s' h e' he'
    rw [foldlM_cons] at h
    obtain ⟨s₁, hs₁, h⟩ := Option.bind_eq_some_iff.mp h
    rcases List.mem_cons.mp he' with rfl | he'
    · cases e' with
      | links ls => cases hs₁
      | cell c =>
        refine ⟨c, rfl, Nat.not_lt.mp (fun hlt => ?_)⟩
        rw [addEntry, if_pos hlt] at hs₁
        cases hs₁
    · exact ih h e' he'

theorem restores_of_replayable (hS : S.WellFormed) (hpos : 0 < S.nOut) (hsize : S.size < 2 ^ 32)
    (hr : S.Replayable) : SubnetSerializer.Restores Subnet.Same S := by
  obtain ⟨s, S', hs, hS', hsame⟩ := exists_replay hS hpos hr
  have hall : written S = S.entries := by
    rw [written, UInt32.toNat_ofNat_of_lt' hsize]
    exact take_of_length_le (Nat.le_refl _)
  refine ⟨.uint32 (.ofNat S.size) :: (written S).map .entry, fun out => serialize_eq out,
    fun input => ⟨S', ?_, hsame.same⟩⟩
  change deserialize _ = _
  rw [deserialize_eq, hall, hs, bind_some, hS', map_some]

theorem foldlM_of_restores {R : Subnet → Subnet → Prop} (h : SubnetSerializer.Restores R S) :
    ∃ s, (written S).foldlM addEntry {} = some s := by
  obtain ⟨bytes, hser, hde⟩ := h
  obtain ⟨S', hS', -⟩ := hde []
  have hbytes : .uint32 (.ofNat S.size) :: (written S).map .entry = bytes := by
    have := (serialize_eq []).symm.trans (hser [])
    simpa using this
  rw [← hbytes] at hS'
  have hrun := (deserialize_eq []).symm.trans hS'
  obtain ⟨s, hs, -⟩ := Option.bind_eq_some_iff.mp hrun
  exact ⟨s, hs⟩

/-- Without cells of several entries among the entries that are written. -/
theorem narrow_of_restores {R : Subnet → Subnet → Prop} (h : SubnetSerializer.Restores R S) :
    ∀ i < S.size % 2 ^ 32, ∃ c, S.getCell i = some c ∧ c.arity ≤ InPlaceLinks := by
  intro i hi
  obtain ⟨s, hs⟩ := foldlM_of_restores h
  have hlt : i < (written S).length := by
    rw [length_written, UInt32.toNat_ofNat']
    exact hi
  obtain ⟨c, hc, harity⟩ := narrow_of_foldlM hs _ (getElem_mem hlt)
  refine ⟨c, ?_, harity⟩
  have hentry : S.entries[i]? = some (.cell c) := by
    have hget : (written S)[i]? = S.entries[i]? :=
      getElem?_take_of_lt (by rwa [UInt32.toNat_ofNat'])
    rw [← hget, getElem?_eq_getElem hlt, hc]
  rw [Subnet.getCell, hentry]

theorem restores_size (n : UInt64) : (NaiveSerializer Datum.size Datum.size?).Restores Eq n :=
  Serializer.restores_naive (show ∀ n, Datum.size? (.size n) = some n from fun _ => rfl) n

/-- Subnets that can be replayed are restored, alone and in lists. Cells of several entries are
never read back. -/
theorem restores_subnets {subnets : List Subnet} (hS : ∀ S ∈ subnets, S.WellFormed ∧ 0 < S.nOut)
    (hlen : subnets.length < 2 ^ 64) :
    (∀ S ∈ subnets, S.size < 2 ^ 32 → S.Replayable → SubnetSerializer.Restores Subnet.Same S) ∧
    (∀ S ∈ subnets, SubnetSerializer.Restores Subnet.Same S →
      ∀ i < S.size % 2 ^ 32, ∃ c, S.getCell i = some c ∧ c.arity ≤ InPlaceLinks) ∧
    ((∀ S ∈ subnets, S.size < 2 ^ 32 ∧ S.Replayable) →
      SubnetListSerializer.Restores (List.Forall₂ Subnet.Same) subnets) := by
  have hone : ∀ S ∈ subnets, S.size < 2 ^ 32 → S.Replayable →
      SubnetSerializer.Restores Subnet.Same S :=
    fun S hmem hsize hr => restores_of_replayable (hS S hmem).1 (hS S hmem).2 hsize hr
  exact ⟨hone, fun S _ h => narrow_of_restores h,
    fun hr => .vector restores_size hlen (fun S hmem => hone S hmem (hr S hmem).1 (hr S hmem).2)⟩

def smallAnd : Subnet :=
  ⟨2, 1, 4, 0, [.cell ⟨.IN, [], 1⟩, .cell ⟨.IN, [], 1⟩,
    .cell ⟨.AND, [⟨0, 0, false⟩, ⟨1, 0, false⟩], 1⟩, .cell ⟨.OUT, [⟨2, 0, false⟩], 0⟩]⟩

def wideAnd : Subnet :=
  ⟨4, 1, 6, 0, [.cell ⟨.IN, [], 1⟩, .cell ⟨.IN, [], 1⟩, .cell ⟨.IN, [], 1⟩, .cell ⟨.IN, [], 1⟩,
    .cell ⟨.AND, [⟨0, 0, false⟩, ⟨1, 0, false⟩, ⟨2, 0, false⟩, ⟨3, 0, false⟩], 1⟩,
    .links [⟨3, 0, false⟩], .cell ⟨.OUT, [⟨4, 0, false⟩], 0⟩]⟩

def makeAnd (n : ℕ) : Option Subnet := do
  let (s, links) ← SubnetBuilder.addInputs n {}
  let (s, link) ← s.addCell .AND links
  let (s, _) ← s.addOutput link
  s.make

theorem smallAnd_replayable : smallAnd.Replayable := by
  have henabled : ∀ (i : ℕ) c, smallAnd.getCell i = some c → c.isEnabled → i = 2 := by
    intro i c hc hen
    have hi : i < 4 := Subnet.lt_of_getCell hc
    obtain rfl | rfl | rfl | rfl : i = 0 ∨ i = 1 ∨ i = 2 ∨ i = 3 := by omega
    all_goals cases hc
    all_goals first | rfl | cases hen
  refine ⟨fun i hi => ?_, fun k hk => ?_⟩
  · have hi : i < 4 := hi
    obtain rfl | rfl | rfl | rfl : i = 0 ∨ i = 1 ∨ i = 2 ∨ i = 3 := by omega
    all_goals exact ⟨_, rfl, by decide⟩
  · obtain ⟨c, hc, hen, e, he, c', hc', hen', -⟩ := hk
    rw [henabled k c hc hen, henabled e c' hc' hen'] at he
    exact absurd he (Nat.lt_irrefl 2)

theorem restores_subnets_one :
    SubnetListSerializer.Restores (List.Forall₂ Subnet.Same) [smallAnd] := by
  have hS : ∀ S ∈ [smallAnd], S.WellFormed ∧ 0 < S.nOut := by
    intro S hmem
    rw [List.mem_singleton.mp hmem]
    exact ⟨Subnet.wellFormed_of_check (by decide), by decide⟩
  have hr : ∀ S ∈ [smallAnd], S.size < 2 ^ 32 ∧ S.Replayable := by
    intro S hmem
    rw [List.mem_singleton.mp hmem]
    exact ⟨by decide, smallAnd_replayable⟩
  exact (restores_subnets hS (by decide)).2.2 hr

/-- The cell with four links is written and cannot be read. -/
theorem wideAnd_lost : makeAnd 4 = some wideAnd ∧ wideAnd.WellFormed ∧
    ¬ SubnetSerializer.Restores Subnet.Same wideAnd := by
  refine ⟨by decide, Subnet.wellFormed_of_check (by decide), fun h => ?_⟩
  obtain ⟨c, hc, harity⟩ := narrow_of_restores h 4 (by decide)
  cases hc
  exact absurd harity (by decide)

end SubnetSerializer

end UtopiaEda
