import UtopiaEda.BitStreams
import UtopiaEda.OrderedBuilders
import UtopiaEda.SimulatorRuns

/-!
# Counting switches by simulation

Every simulation yields 64 consecutive values of each cell. The estimator counts the transitions
inside these words and keeps the last value of each cell for the transition to the next word. The
values 1 are counted in single precision.
-/
namespace UtopiaEda.SimulationEstimator

open List
open Option (bind_eq_bind bind_eq_some_iff bind_some some.inj)
open Function (update update_self update_of_ne)
open BitStreams Simulator
open BitVec (getLsbD_and getLsbD_not getLsbD_one)

structure PrevBits where
  bits : List (BitVec 64)

namespace PrevBits

def make (n : ℕ) : PrevBits := ⟨.replicate (if 63 < n then (n + 63) / 64 else 1) 0#64⟩

def get (prev : PrevBits) (id : ℕ) : Option (BitVec 64) := do
  some (((← prev.bits[id / 64]?) >>> (id % 64)) &&& 1#64)

def set (prev : PrevBits) (id : ℕ) : Option PrevBits := do
  some ⟨prev.bits.set (id / 64) ((← prev.bits[id / 64]?) ||| (1#64 <<< (id % 64)))⟩

def clear (prev : PrevBits) (id : ℕ) : Option PrevBits := do
  some ⟨prev.bits.set (id / 64) ((← prev.bits[id / 64]?) &&& ~~~ (1#64 <<< (id % 64)))⟩

def keep (prev : PrevBits) (cache : DataChunk) (id : ℕ) : Option PrevBits :=
  if cache &&& (1#64 <<< 63) ≠ 0#64 then prev.set id else prev.clear id

end PrevBits

/-- The single precision number for a natural number: 24 significant bits, ties to even. -/
def roundSingle (n : ℕ) : ℕ :=
  let ulp := 2 ^ (Nat.log2 n + 1 - 24)
  let up := ulp < 2 * (n % ulp) ∨ (ulp = 2 * (n % ulp) ∧ n / ulp % 2 = 1)
  (if up then n / ulp + 1 else n / ulp) * ulp

def popCount (number : DataChunk) : ℕ := (range 64).countP fun j => number.getLsbD j

/-- The lanes whose successors differ; the last one has none. -/
def getSwitchedBits (cache : DataChunk) : DataChunk :=
  (cache ^^^ (cache >>> 1)) &&& ~~~ (1#64 <<< 63)

structure Counts where
  switchesOn : ℕ → ℕ
  switchesOff : ℕ → ℕ
  onStates : ℕ → ℕ
  prev : PrevBits

/-- The counters of a cell; `prevBit` is 1 if its value changed between the words. -/
def Counts.record (e : Counts) (id : ℕ) (cache prevBit : BitVec 64) (prev : PrevBits) : Counts :=
  let bits := getSwitchedBits cache
  { switchesOn := update e.switchesOn id
      (e.switchesOn id + (popCount (bits &&& ~~~ cache) + (prevBit &&& cache).toNat))
    switchesOff := update e.switchesOff id
      (e.switchesOff id + (popCount (bits &&& cache) + (prevBit &&& ~~~ cache).toNat))
    onStates := update e.onStates id (roundSingle (e.onStates id + popCount cache))
    prev := prev }

/-- `prevBit` of the simulation `i`: there is no word before the first one. -/
def switchedBit (i : ℕ) (cache last : BitVec 64) : BitVec 64 :=
  if i ≠ 0 ∧ (cache &&& 1#64) ^^^ last ≠ 0#64 then 1#64 else 0#64

def countCell (i : ℕ) (cache : DataChunk) (id : ℕ) (e : Counts) : Option Counts := do
  let last ← e.prev.get id
  some (e.record id cache (switchedBit i cache last) (← e.prev.keep cache id))

def countCells (sim : Simulator) (state : State) (i : ℕ) (cells : List EntryID) (e : Counts) :
    Option Counts :=
  cells.foldlM (fun e id => do countCell i (← sim.value state ⟨id, 0, false⟩) id e) e

def countAll (types : List SubnetType) (sim : Simulator) (cells : List EntryID) :
    List (List DataChunk) → ℕ → State → Counts → Option Counts
  | [], _, _, e => some e
  | values :: inValuesList, i, state, e => do
    let state ← simulateValues types sim values state
    countAll types sim cells inValuesList (i + 1) state (← countCells sim state i cells e)

/-- `simulate`. -/
def simulate (types : List SubnetType) (builder : SubnetBuilder)
    (inValuesList : List (List DataChunk)) : Option Counts := do
  let sim ← Simulator.make types builder
  countAll types sim (← builder.cellIDs) inValuesList 0 (fun _ => 0#64)
    ⟨fun _ => 0, fun _ => 0, fun _ => 0, .make builder.size⟩

/-! ### Words -/

def lanes (cache : DataChunk) : List Bool := (range 64).map fun j => cache.getLsbD j

def stream (words : List DataChunk) : List Bool := words.flatMap lanes

variable {cache : DataChunk} {words : List DataChunk} {prev prev' : PrevBits} {id k n : ℕ}
  {e e' : Counts}

theorem popCount_eq : popCount cache = (lanes cache).count true := by
  rw [popCount, lanes, count, countP_map]
  exact countP_congr fun j _ => by simp

theorem head?_lanes : (lanes cache).head? = some (cache.getLsbD 0) := rfl

theorem getLast?_lanes : (lanes cache).getLast? = some (cache.getLsbD 63) := rfl

private theorem countP_range_64 {p : ℕ → Bool} (h : p 63 = false) :
    (range 64).countP p = (range 63).countP p := by
  rw [range_succ, countP_append, countP_singleton, h]
  rfl

theorem getLsbD_one_shiftLeft {j : ℕ} (hj : j < 64) : (1#64 <<< j).getLsbD k = decide (k = j) := by
  rw [BitVec.getLsbD_shiftLeft, getLsbD_one, Bool.eq_iff_iff]
  simp only [Bool.and_eq_true, Bool.not_eq_true', decide_eq_true_eq, decide_eq_false_iff_not]
  omega

theorem getLsbD_switched (hk : k < 64) :
    (getSwitchedBits cache).getLsbD k =
    (xor (cache.getLsbD k) (cache.getLsbD (k + 1)) && decide (k ≠ 63)) := by
  rw [getSwitchedBits, getLsbD_and, BitVec.getLsbD_xor, BitVec.getLsbD_ushiftRight,
    getLsbD_not, getLsbD_one_shiftLeft (by decide), Nat.add_comm 1 k, decide_eq_true hk,
    Bool.true_and, decide_not]

theorem popCount_rises : popCount (getSwitchedBits cache &&& ~~~ cache) = rises (lanes cache) := by
  have hlane : ∀ j, j < 64 → (getSwitchedBits cache &&& ~~~ cache).getLsbD j =
      (xor (cache.getLsbD j) (cache.getLsbD (j + 1)) && decide (j ≠ 63) && !cache.getLsbD j) := by
    intro j hj
    rw [getLsbD_and, getLsbD_switched hj, getLsbD_not, decide_eq_true hj,
      Bool.true_and]
  rw [rises, lanes, steps_range, popCount, countP_range_64 (by rw [hlane 63 (by decide)]; simp)]
  refine countP_congr fun j hj => ?_
  have hlt : j < 63 := mem_range.mp hj
  rw [hlane j (by omega), decide_eq_true (show j ≠ 63 by omega)]
  cases cache.getLsbD j <;> cases cache.getLsbD (j + 1) <;> decide

theorem popCount_falls : popCount (getSwitchedBits cache &&& cache) = falls (lanes cache) := by
  have hlane : ∀ j, j < 64 → (getSwitchedBits cache &&& cache).getLsbD j =
      (xor (cache.getLsbD j) (cache.getLsbD (j + 1)) && decide (j ≠ 63) && cache.getLsbD j) := by
    intro j hj
    rw [getLsbD_and, getLsbD_switched hj]
  rw [falls, lanes, steps_range, popCount, countP_range_64 (by rw [hlane 63 (by decide)]; simp)]
  refine countP_congr fun j hj => ?_
  have hlt : j < 63 := mem_range.mp hj
  rw [hlane j (by omega), decide_eq_true (show j ≠ 63 by omega)]
  cases cache.getLsbD j <;> cases cache.getLsbD (j + 1) <;> decide

/-! ### The last values -/

/-- Bit `id` of the vector. -/
def PrevBits.bit (prev : PrevBits) (id : ℕ) : Bool :=
  (prev.bits.getD (id / 64) 0#64).getLsbD (id % 64)

theorem PrevBits.length_make (hid : id < n) : id / 64 < (PrevBits.make n).bits.length := by
  rw [PrevBits.make, length_replicate]
  split <;> omega

theorem PrevBits.get_eq (h : id / 64 < prev.bits.length) :
    prev.get id = some (if prev.bit id then 1#64 else 0#64) := by
  rw [PrevBits.get, getElem?_eq_getElem h, PrevBits.bit, getD_eq_getElem _ _ h, bind_eq_bind,
    bind_some]
  refine congrArg some (BitVec.eq_of_getLsbD_eq fun j hj => ?_)
  rw [getLsbD_and, BitVec.getLsbD_ushiftRight, getLsbD_one]
  by_cases hzero : j = 0
  · subst hzero
    cases hbit : (prev.bits[id / 64]).getLsbD (id % 64) <;> simp
  · cases (prev.bits[id / 64]).getLsbD (id % 64) <;> simp [hzero]

theorem PrevBits.bit_update (h : id / 64 < prev.bits.length) {w : BitVec 64} {b : Bool}
    (hw : ∀ j, j < 64 → w.getLsbD j = if j = id % 64 then b else
      (prev.bits.getD (id / 64) 0#64).getLsbD j) (k : ℕ) :
    (PrevBits.mk (prev.bits.set (id / 64) w)).bit k = if k = id then b else prev.bit k := by
  rw [PrevBits.bit, PrevBits.bit, getD_eq_getElem?_getD, getElem?_set, if_pos h]
  by_cases hword : id / 64 = k / 64
  · rw [if_pos hword, Option.getD_some, hw _ (Nat.mod_lt k (by decide)), hword]
    refine if_congr ?_ rfl rfl
    omega
  · rw [if_neg hword, if_neg (by rintro rfl; exact hword rfl), getD_eq_getElem?_getD]

theorem PrevBits.set_eq (h : id / 64 < prev.bits.length) : ∃ prev', prev.set id = some prev' ∧
    prev'.bits.length = prev.bits.length ∧ ∀ k, prev'.bit k = if k = id then true else
    prev.bit k := by
  refine ⟨_, by rw [PrevBits.set,
    getElem?_eq_getElem h]; rfl, length_set, PrevBits.bit_update h fun j hj => ?_⟩
  rw [BitVec.getLsbD_or, getLsbD_one_shiftLeft (Nat.mod_lt id (by decide)), getD_eq_getElem _ _ h]
  by_cases hj : j = id % 64 <;> simp [hj]

theorem PrevBits.clear_eq (h : id / 64 < prev.bits.length) : ∃ prev', prev.clear id = some prev' ∧
    prev'.bits.length = prev.bits.length ∧ ∀ k, prev'.bit k = if k = id then false else
    prev.bit k := by
  refine ⟨_, by rw [PrevBits.clear,
    getElem?_eq_getElem h]; rfl, length_set, PrevBits.bit_update h fun j hj => ?_⟩
  rw [getLsbD_and, getLsbD_not, getLsbD_one_shiftLeft (Nat.mod_lt id (by decide)),
    getD_eq_getElem _ _ h]
  by_cases heq : j = id % 64
  · simp [heq]
  · simp [heq, hj]

/-! ### One word of a cell -/

def roundedOnes (words : List DataChunk) : ℕ :=
  words.foldl (fun n w => roundSingle (n + popCount w)) 0

structure Counted (words : List DataChunk) (id : ℕ) (e : Counts) : Prop where
  on : e.switchesOn id = rises (stream words)
  off : e.switchesOff id = falls (stream words)
  ones : e.onStates id = roundedOnes words
  last : words ≠ [] → (stream words).getLast? = some (e.prev.bit id)

structure SameBut (id : ℕ) (e e' : Counts) : Prop where
  length : e'.prev.bits.length = e.prev.bits.length
  counted : ∀ k words, k ≠ id → (Counted words k e' ↔ Counted words k e)

theorem and_one_shiftLeft {j : ℕ} (hj : j < 64) :
    cache &&& (1#64 <<< j) = if cache.getLsbD j then 1#64 <<< j else 0#64 := by
  refine BitVec.eq_of_getLsbD_eq fun k _ => ?_
  rw [getLsbD_and, getLsbD_one_shiftLeft hj]
  by_cases hk : k = j
  · subst hk
    cases hbit : cache.getLsbD k <;> simp [getLsbD_one_shiftLeft hj]
  · cases cache.getLsbD j <;> simp [hk, getLsbD_one_shiftLeft hj]

theorem and_one : cache &&& 1#64 = if cache.getLsbD 0 then 1#64 else 0#64 :=
  and_one_shiftLeft (j := 0) (by decide)

theorem stream_concat : stream (words ++ [cache]) = stream words ++ lanes cache := by
  rw [stream, flatMap_append, flatMap_singleton]
  rfl

/-- The transition between two words counts in its direction. -/
theorem switchedBit_toNat (n : ℕ) (cache : DataChunk) (b : Bool) :
    (switchedBit n cache (if b then 1#64 else 0#64) &&& cache).toNat =
        (if n ≠ 0 ∧ b = false ∧ cache.getLsbD 0 = true then 1 else 0) ∧
      (switchedBit n cache (if b then 1#64 else 0#64) &&& ~~~ cache).toNat =
        if n ≠ 0 ∧ b = true ∧ cache.getLsbD 0 = false then 1 else 0 := by
  have hone : ∀ w : BitVec 64, 1#64 &&& w = if w.getLsbD 0 then 1#64 else 0#64 := fun w => by
    rw [BitVec.and_comm, and_one]
  have hnot : (~~~ cache).getLsbD 0 = !cache.getLsbD 0 := by
    rw [getLsbD_not, decide_eq_true (by decide), Bool.true_and]
  have hxor : ∀ c b : Bool, ((if c then 1#64 else 0#64) ^^^ (if b then 1#64 else 0#64) ≠ 0#64) ↔
      c ≠ b := by decide
  rw [switchedBit, and_one]
  simp only [hxor]
  by_cases hcond : n ≠ 0 ∧ cache.getLsbD 0 ≠ b
  · rw [if_pos hcond, hone, hone, hnot]
    obtain ⟨hn, hne⟩ := hcond
    generalize cache.getLsbD 0 = c at hne
    cases c <;> cases b <;> simp at hne ⊢ <;> exact hn
  · rw [if_neg hcond, if_neg fun h => hcond ⟨h.1, by rw [h.2.1, h.2.2]; decide⟩,
      if_neg fun h => hcond ⟨h.1, by rw [h.2.1, h.2.2]; decide⟩]
    simp

theorem Counted.step (h : Counted words id e) (hid : id / 64 < e.prev.bits.length)
    (cache : DataChunk) : ∃ e', countCell words.length cache id e = some e' ∧
    Counted (words ++ [cache]) id e' ∧ SameBut id e e' := by
  obtain ⟨prev', hprev', hlen, hbit⟩ : ∃ prev', e.prev.keep cache id = some prev' ∧
      prev'.bits.length = e.prev.bits.length ∧ ∀ k, prev'.bit k = if k = id then
      cache.getLsbD 63 else e.prev.bit k := by
    rw [PrevBits.keep, and_one_shiftLeft (by decide)]
    cases cache.getLsbD 63 with
    | true =>
      rw [if_pos (by decide)]
      exact PrevBits.set_eq hid
    | false =>
      rw [if_neg (by simp)]
      exact PrevBits.clear_eq hid
  obtain ⟨hon, hoff⟩ := switchedBit_toNat words.length cache (e.prev.bit id)
  have hmeet : ∀ a b : Bool, ((stream words).getLast? = some a ∧ (lanes cache).head? = some b) ↔
      (words.length ≠ 0 ∧ e.prev.bit id = a ∧ cache.getLsbD 0 = b) := by
    intro a b
    rw [head?_lanes, Option.some.injEq]
    by_cases hnil : words = []
    · simp [hnil, stream]
    · rw [h.last hnil, Option.some.injEq]
      simp [hnil]
  refine ⟨e.record id cache (switchedBit words.length cache (if e.prev.bit id then 1#64 else 0#64))
    prev', ?_, ⟨?_, ?_, ?_, fun _ => ?_⟩, ⟨hlen, fun k ws hk => ⟨fun hc => ?_, fun hc => ?_⟩⟩⟩
  · rw [countCell, PrevBits.get_eq hid, hprev', bind_eq_bind, bind_some, bind_eq_bind, bind_some]
  · simp only [Counts.record, update_self]
    rw [h.on, popCount_rises, hon, stream_concat, rises, rises, rises, steps_append,
      if_congr (hmeet false true) rfl rfl]
    ring
  · simp only [Counts.record, update_self]
    rw [h.off, popCount_falls, hoff, stream_concat, falls, falls, falls, steps_append,
      if_congr (hmeet true false) rfl rfl]
    ring
  · simp only [Counts.record, update_self]
    rw [h.ones, roundedOnes, roundedOnes, foldl_append]
    rfl
  · simp only [Counts.record]
    rw [stream_concat, getLast?_append, getLast?_lanes, hbit, if_pos rfl]
    rfl
  · refine ⟨?_, ?_, ?_, ?_⟩
    · exact (update_of_ne hk _ _).symm.trans hc.on
    · exact (update_of_ne hk _ _).symm.trans hc.off
    · exact (update_of_ne hk _ _).symm.trans hc.ones
    · have hlast := hc.last
      simp only [Counts.record] at hlast
      rwa [hbit, if_neg hk] at hlast
  · refine ⟨?_, ?_, ?_, ?_⟩
    · exact (update_of_ne hk _ _).trans hc.on
    · exact (update_of_ne hk _ _).trans hc.off
    · exact (update_of_ne hk _ _).trans hc.ones
    · simp only [Counts.record]
      rw [hbit, if_neg hk]
      exact hc.last

/-! ### The loops -/

variable {types : List SubnetType} {sim : Simulator} {state : State} {cells : List EntryID}

def wordOf (sim : Simulator) (state : State) (id : ℕ) : DataChunk :=
  (sim.value state ⟨id, 0, false⟩).getD 0#64

theorem countCells_eq (hpos : ∀ id ∈ cells, (sim.value state ⟨id, 0, false⟩).isSome)
    (hnd : cells.Nodup) (hlen : ∀ id ∈ cells, id / 64 < e.prev.bits.length)
    (words : ℕ → List DataChunk) (h : ∀ id ∈ cells, Counted (words id) id e)
    (hn : ∀ id ∈ cells, (words id).length = n) : ∃ e', countCells sim state n cells e = some e' ∧
    e'.prev.bits.length = e.prev.bits.length ∧
      (∀ id ∈ cells, Counted (words id ++ [wordOf sim state id]) id e') ∧
      ∀ k ws, k ∉ cells → (Counted ws k e' ↔ Counted ws k e) := by
  induction cells generalizing e with
  | nil => exact ⟨e, rfl, rfl, fun _ hid => (by cases hid), fun _ _ _ => Iff.rfl⟩
  | cons id cells ih =>
    obtain ⟨hid, hnd⟩ := nodup_cons.mp hnd
    obtain ⟨w, hw⟩ := Option.isSome_iff_exists.mp (hpos id mem_cons_self)
    obtain ⟨e₁, h₁, hc₁, hsame₁⟩ := (h id mem_cons_self).step (hlen id mem_cons_self) w
    have hother : ∀ k ∈ cells, k ≠ id := fun k hk heq => hid (heq ▸ hk)
    obtain ⟨e', h', hlen', hc', hsame'⟩ :=
      ih (e := e₁) (fun k hk => hpos k (mem_cons_of_mem id hk)) hnd
      (fun k hk => hsame₁.length ▸ hlen k (mem_cons_of_mem id hk))
      (fun k hk => (hsame₁.counted k _ (hother k hk)).mpr (h k (mem_cons_of_mem id hk)))
      fun k hk => hn k (mem_cons_of_mem id hk)
    refine ⟨e', ?_, hlen'.trans hsame₁.length, fun k hk => ?_, fun k ws hk => ?_⟩
    · rw [countCells, foldlM_cons, hw, bind_eq_bind, bind_eq_bind, bind_some,
        ← hn id mem_cons_self, h₁, bind_some, hn id mem_cons_self]
      exact h'
    · rcases mem_cons.mp hk with rfl | hk
      · rw [hsame' k _ hid, wordOf, hw]
        exact hc₁
      · exact hc' k hk
    · rw [mem_cons, not_or] at hk
      exact (hsame' k ws hk.2).trans (hsame₁.counted k ws hk.1)

def states (types : List SubnetType) (sim : Simulator) :
    List (List DataChunk) → State → Option (List State)
  | [], _ => some []
  | values :: inValuesList, state => do
    let state ← simulateValues types sim values state
    some (state :: (← states types sim inValuesList state))

theorem countAll_eq (hpos : ∀ id ∈ cells, ∀ state, (sim.value state ⟨id, 0, false⟩).isSome)
    (hnd : cells.Nodup) : ∀ {inValuesList : List (List DataChunk)} {n : ℕ} {state : State}
    {sts : List State} {e : Counts} {words : ℕ → List DataChunk},
      (∀ id ∈ cells, id / 64 < e.prev.bits.length) → (∀ id ∈ cells, Counted (words id) id e) →
      (∀ id ∈ cells, (words id).length = n) → states types sim inValuesList state = some sts →
      ∃ e', countAll types sim cells inValuesList n state e = some e' ∧
        ∀ id ∈ cells, Counted (words id ++ sts.map (wordOf sim · id)) id e' := by
  intro inValuesList
  induction inValuesList with
  | nil =>
    intro n state sts e words _ h _ hsts
    cases hsts
    refine ⟨e, rfl, fun id hid => ?_⟩
    rw [map_nil, append_nil]
    exact h id hid
  | cons values inValuesList ih =>
    intro n state sts e words hlen h hn hsts
    obtain ⟨state', hstate', hrest⟩ := bind_eq_some_iff.mp hsts
    obtain ⟨sts', hsts', heq⟩ := bind_eq_some_iff.mp hrest
    cases heq
    obtain ⟨e₁, h₁, hlen₁, hc₁, -⟩ :=
      countCells_eq (fun id hid => hpos id hid state') hnd hlen words h hn
    obtain ⟨e', h', hc'⟩ := ih (fun id hid => hlen₁ ▸ hlen id hid) hc₁
      (fun id hid => by rw [length_append, hn id hid]; rfl) hsts'
    refine ⟨e', ?_, fun id hid => ?_⟩
    · rw [countAll, hstate', bind_eq_bind, bind_some, h₁, bind_eq_bind, bind_some]
      exact h'
    · have hid' := hc' id hid
      rwa [append_assoc] at hid'

/-! ### Single precision -/

/-- A number with at most 24 significant bits. -/
def IsSingle (n : ℕ) : Prop := roundSingle n = n

instance (n : ℕ) : Decidable (IsSingle n) := inferInstanceAs (Decidable (roundSingle n = n))

/-- Numbers up to `2 ^ 24` are not rounded. -/
theorem isSingle_of_le (h : n ≤ 2 ^ 24) : IsSingle n := by
  rcases h.eq_or_lt with rfl | hlt
  · decide +kernel
  · have hlog : Nat.log2 n + 1 - 24 = 0 := by
      by_cases hn : n = 0
      · subst hn
        decide
      · have hlt' : Nat.log2 n < 24 := (Nat.log2_lt hn).mpr hlt
        omega
    simp only [IsSingle, roundSingle, hlog, pow_zero, Nat.mod_one, Nat.div_one]
    rw [if_neg (by omega), Nat.mul_one]

def ones (words : List DataChunk) : ℕ := (stream words).count true

theorem ones_concat : ones (words ++ [cache]) = ones words + popCount cache := by
  rw [ones, stream_concat, count_append, popCount_eq]
  rfl

theorem roundedOnes_concat : roundedOnes (words ++ [cache]) = roundSingle
    (roundedOnes words + popCount cache) := by
  rw [roundedOnes, foldl_append]
  rfl

/-- The sum is right at each word if the number of ones at each word has at most 24 significant
bits. -/
theorem roundedOnes_iff (words : List DataChunk) :
    (∀ k ≤ words.length, roundedOnes (words.take k) = ones (words.take k)) ↔
      ∀ k ≤ words.length, IsSingle (ones (words.take k)) := by
  have hstep : ∀ k, k + 1 ≤ words.length → ∃ w, words.take (k + 1) = words.take k ++ [w] := by
    intro k hk
    exact ⟨_, by rw [take_add_one, getElem?_eq_getElem (by omega)]; rfl⟩
  constructor
  · intro h k hk
    cases k with
    | zero => exact isSingle_of_le (Nat.zero_le _)
    | succ k =>
      obtain ⟨w, hw⟩ := hstep k hk
      have hnext := h (k + 1) hk
      rw [hw, roundedOnes_concat, h k (by omega), ← ones_concat, ← hw] at hnext
      exact hnext
  · intro h k
    induction k with
    | zero => exact fun _ => rfl
    | succ k ih =>
      intro hk
      obtain ⟨w, hw⟩ := hstep k hk
      have hsingle := h (k + 1) hk
      rw [hw, roundedOnes_concat, ih (by omega), ← ones_concat, ← hw]
      exact hsingle

/-! ### The estimator -/

variable {s : SubnetBuilder} {more : EntryID → List EntryID} {ins mid outs : List EntryID}
  {inValuesList : List (List DataChunk)} {sts : List State}

def wordsOf (sim : Simulator) (sts : List State) (id : ℕ) : List DataChunk :=
  sts.map fun state => wordOf sim state id

private theorem compile_pos {is : List EntryID} :
    ∀ {p : ℕ} {pos pos' : EntryID → Option ℕ} {program : List (EntryID × SubnetCell)},
    compile types s is p pos = some (program, pos') →
      (∀ id, (pos id).isSome → (pos' id).isSome) ∧ ∀ id ∈ is, (pos' id).isSome := by
  induction is with
  | nil =>
    intro p pos pos' program h
    cases h
    exact ⟨fun _ hid => hid, fun _ hid => by cases hid⟩
  | cons i is ih =>
    intro p pos pos' program h
    obtain ⟨cell, -, h⟩ := bind_eq_some_iff.mp h
    split at h
    · obtain ⟨⟨program₁, pos₁⟩, h₁, heq⟩ := bind_eq_some_iff.mp h
      obtain ⟨-, rfl⟩ := Prod.mk.inj (some.inj heq)
      obtain ⟨hkeep, hall⟩ := ih h₁
      have hi : (pos₁ i).isSome := hkeep i (by rw [update_self]; rfl)
      refine ⟨fun id hid => ?_, fun id hid => ?_⟩
      · by_cases hne : id = i
        · exact hne ▸ hi
        · exact hkeep id (by rwa [update_of_ne hne])
      · rcases mem_cons.mp hid with rfl | hid
        · exact hi
        · exact hall id hid
    · cases h

theorem make_value (hsim : Simulator.make types s = some sim) (hids : s.cellIDs = some cells) :
    ∀ id ∈ cells, ∀ state, (sim.value state ⟨id, 0, false⟩).isSome := by
  intro id hid state
  rw [Simulator.make, hids, bind_eq_bind, bind_some] at hsim
  obtain ⟨⟨program, pos⟩, hcompile, hsim⟩ := bind_eq_some_iff.mp hsim
  obtain ⟨inputs, -, hsim⟩ := bind_eq_some_iff.mp hsim
  obtain ⟨outputs, -, hsim⟩ := bind_eq_some_iff.mp hsim
  cases hsim
  rw [Simulator.value, Option.isSome_map]
  exact (compile_pos hcompile).2 id hid

theorem states_take : ∀ {inValuesList : List (List DataChunk)} {state : State} {sts : List State},
    states types sim inValuesList state = some sts →
    ∀ k, states types sim (inValuesList.take k) state = some (sts.take k) := by
  intro inValuesList
  induction inValuesList with
  | nil =>
    intro state sts h k
    cases h
    rw [take_nil, take_nil]
    rfl
  | cons values inValuesList ih =>
    intro state sts h k
    obtain ⟨state', hstate', hrest⟩ := bind_eq_some_iff.mp h
    obtain ⟨sts', hsts', heq⟩ := bind_eq_some_iff.mp hrest
    cases heq
    cases k with
    | zero => rfl
    | succ k =>
      rw [take_succ_cons, take_succ_cons, states, hstate', bind_eq_bind, bind_some, ih hsts' k]
      rfl

theorem states_length : ∀ {inValuesList : List (List DataChunk)} {state : State} {sts : List State},
    states types sim inValuesList state = some sts → sts.length = inValuesList.length := by
  intro inValuesList
  induction inValuesList with
  | nil =>
    intro state sts h
    cases h
    rfl
  | cons values inValuesList ih =>
    intro state sts h
    obtain ⟨state', -, hrest⟩ := bind_eq_some_iff.mp h
    obtain ⟨sts', hsts', heq⟩ := bind_eq_some_iff.mp hrest
    cases heq
    exact congrArg Nat.succ (ih hsts')

def simulated (types : List SubnetType) (builder : SubnetBuilder)
    (inValuesList : List (List DataChunk)) : Option (ℕ → List DataChunk) := do
  let sim ← Simulator.make types builder
  some (wordsOf sim (← states types sim inValuesList fun _ => 0#64))

private theorem exists_states : ∀ {inValuesList : List (List DataChunk)} {n : ℕ} {state : State}
    {e e' : Counts}, countAll types sim cells inValuesList n state e = some e' →
    ∃ sts, states types sim inValuesList state = some sts := by
  intro inValuesList
  induction inValuesList with
  | nil => exact fun _ => ⟨[], rfl⟩
  | cons values inValuesList ih =>
    intro n state e e' h
    obtain ⟨state', hstate', h⟩ := bind_eq_some_iff.mp h
    obtain ⟨e₁, -, h⟩ := bind_eq_some_iff.mp h
    obtain ⟨sts, hsts⟩ := ih h
    exact ⟨state' :: sts, by rw [states, hstate', bind_eq_bind, bind_some, hsts]; rfl⟩

private theorem exists_countAll_take :
    ∀ {inValuesList : List (List DataChunk)} {n : ℕ} {state : State} {e e' : Counts},
    countAll types sim cells inValuesList n state e = some e' →
    ∀ k, ∃ e'', countAll types sim cells (inValuesList.take k) n state e = some e'' := by
  intro inValuesList
  induction inValuesList with
  | nil =>
    intro n state e e' h k
    rw [take_nil]
    exact ⟨e', h⟩
  | cons values inValuesList ih =>
    intro n state e e' h k
    obtain ⟨state', hstate', h⟩ := bind_eq_some_iff.mp h
    obtain ⟨e₁, he₁, h⟩ := bind_eq_some_iff.mp h
    cases k with
    | zero => exact ⟨e, rfl⟩
    | succ k =>
      obtain ⟨e'', he''⟩ := ih h k
      refine ⟨e'', ?_⟩
      rw [take_succ_cons, countAll, hstate', bind_eq_bind, bind_some, he₁, bind_eq_bind, bind_some]
      exact he''

private theorem exists_countAll (h : simulate types s inValuesList = some e) :
    ∃ sim cells, Simulator.make types s = some sim ∧ s.cellIDs = some cells ∧
    countAll types sim cells inValuesList 0 (fun _ => 0#64)
      ⟨fun _ => 0, fun _ => 0, fun _ => 0, .make s.size⟩ = some e := by
  obtain ⟨sim, hsim, h⟩ := bind_eq_some_iff.mp h
  obtain ⟨cells, hids, h⟩ := bind_eq_some_iff.mp h
  exact ⟨sim, cells, hsim, hids, h⟩

theorem exists_simulated (h : simulate types s inValuesList = some e) :
    ∃ words, simulated types s inValuesList = some words := by
  obtain ⟨sim, cells, hsim, -, h⟩ := exists_countAll h
  obtain ⟨sts, hsts⟩ := exists_states h
  exact ⟨wordsOf sim sts, by rw [simulated, hsim, bind_eq_bind, bind_some, hsts]; rfl⟩

theorem exists_simulate_take (h : simulate types s inValuesList = some e) (k : ℕ) :
    ∃ e', simulate types s (inValuesList.take k) = some e' := by
  obtain ⟨sim, cells, hsim, hids, h⟩ := exists_countAll h
  obtain ⟨e', he'⟩ := exists_countAll_take h k
  refine ⟨e', ?_⟩
  rw [simulate, hsim, bind_eq_bind, bind_some, hids, bind_eq_bind, bind_some]
  exact he'

/-- The words of a cell are as many as those of the inputs, and the first ones are those of the
first inputs. -/
theorem simulated_take {words : ℕ → List DataChunk}
    (h : simulated types s inValuesList = some words) :
    (∀ c, (words c).length = inValuesList.length) ∧
      ∀ k, simulated types s (inValuesList.take k) = some fun c => (words c).take k := by
  obtain ⟨sim, hsim, h⟩ := bind_eq_some_iff.mp h
  obtain ⟨sts, hsts, h⟩ := bind_eq_some_iff.mp h
  cases h
  refine ⟨fun c => (length_map _).trans (states_length hsts), fun k => ?_⟩
  rw [simulated, hsim, bind_eq_bind, bind_some, states_take hsts k, bind_eq_bind, bind_some]
  refine congrArg some (funext fun c => ?_)
  rw [wordsOf, wordsOf, map_take]

theorem exists_simulate (h : s.Ordered more ins mid outs) (hne : ins ++ mid ++ outs ≠ [])
    (hsim : Simulator.make types s = some sim)
    (hsts : states types sim inValuesList (fun _ => 0#64) = some sts) :
    ∃ e, simulate types s inValuesList = some e ∧ ∀ c, (s.liveCell c).isSome →
    Counted (wordsOf sim sts c) c e := by
  have hids := h.cellIDs_eq hne
  have hlen : ∀ id ∈ ins ++ mid ++ outs, id / 64 < (PrevBits.make s.size).bits.length := by
    intro id hid
    obtain ⟨c, hc⟩ := h.exists_live hid
    exact PrevBits.length_make (SubnetBuilder.lt_of_live hc)
  have hinit : ∀ id ∈ ins ++ mid ++ outs, Counted ((fun _ => []) id) id ⟨fun _ => 0, fun _ => 0,
      fun _ => 0, .make s.size⟩ :=
    fun id _ => ⟨rfl, rfl, rfl, fun hnil => absurd rfl hnil⟩
  obtain ⟨e, he, hcounted⟩ := countAll_eq (make_value hsim hids) h.nodup hlen hinit
    (fun _ _ => rfl) hsts
  refine ⟨e, ?_, fun c hc => hcounted c ((h.mem c).mpr hc)⟩
  rw [simulate, hsim, bind_eq_bind, bind_some, hids, bind_eq_bind, bind_some]
  exact he

theorem counted_of_simulate (h : s.Ordered more ins mid outs)
    (he : simulate types s inValuesList = some e) {words : ℕ → List DataChunk}
    (hwords : simulated types s inValuesList = some words) {c : EntryID}
    (hc : (s.liveCell c).isSome) : Counted (words c) c e := by
  obtain ⟨sim, hsim, hwords⟩ := bind_eq_some_iff.mp hwords
  obtain ⟨sts, hsts, hwords⟩ := bind_eq_some_iff.mp hwords
  cases hwords
  obtain ⟨e', he', hcounted⟩ := exists_simulate h (ne_nil_of_mem ((h.mem c).mpr hc)) hsim hsts
  rw [he'] at he
  cases he
  exact hcounted c hc

/-- The switches are the transitions of the stream of the values. The number of ones is right behind
each simulation if and only if it always has at most 24 significant bits. -/
theorem simulate_counts_iff (types : List SubnetType) (s : SubnetBuilder)
    (more : EntryID → List EntryID) (ins mid outs : List EntryID)
    (inValuesList : List (List DataChunk)) (e : Counts) (h : s.Ordered more ins mid outs)
    (hne : inValuesList ≠ []) (he : simulate types s inValuesList = some e) :
    ∃ words, simulated types s inValuesList = some words ∧
      (∀ c, (s.liveCell c).isSome → e.switchesOn c = rises (stream (words c)) ∧
        e.switchesOff c = falls (stream (words c)) ∧ ∃ first last, (stream (words c)).head? =
        some first ∧ (stream (words c)).getLast? = some last ∧
          (e.switchesOn c : ℤ) - e.switchesOff c = last.toNat - first.toNat) ∧
      ((∀ k ≤ inValuesList.length, ∃ e, simulate types s (inValuesList.take k) = some e ∧
          ∀ c, (s.liveCell c).isSome → e.onStates c = ones ((words c).take k)) ↔
        ∀ k ≤ inValuesList.length, ∀ c, (s.liveCell c).isSome →
          IsSingle (ones ((words c).take k))) := by
  obtain ⟨words, hwords⟩ := exists_simulated he
  obtain ⟨hlen, htake⟩ := simulated_take hwords
  refine ⟨words, hwords, fun c hc => ?_, ?_⟩
  · have hcounted := counted_of_simulate h he hwords hc
    have hstream : stream (words c) ≠ [] := by
      obtain ⟨w, ws, hws⟩ := exists_cons_of_ne_nil
        (ne_nil_of_length_pos ((hlen c).symm ▸ length_pos_iff.mpr hne))
      rw [hws]
      exact append_ne_nil_of_left_ne_nil (by simp [lanes]) _
    refine ⟨hcounted.on, hcounted.off, _, _, head?_eq_some_head hstream,
      getLast?_eq_some_getLast hstream, ?_⟩
    rw [hcounted.on, hcounted.off]
    exact rises_sub_falls hstream
  · have hall : ∀ k, ∀ e', simulate types s (inValuesList.take k) = some e' →
        ∀ c, (s.liveCell c).isSome →
        e'.onStates c = roundedOnes ((words c).take k) :=
        fun k e' he' c hc => (counted_of_simulate h he' (htake k) hc).ones
    constructor
    · intro hright k hk c hc
      refine (roundedOnes_iff (words c)).mp (fun j hj => ?_) k (hlen c ▸ hk)
      obtain ⟨e', he', hones⟩ := hright j (hlen c ▸ hj)
      rw [← hall j e' he' c hc, hones c hc]
    · intro hsingle k hk
      obtain ⟨e', he'⟩ := exists_simulate_take he k
      refine ⟨e', he', fun c hc => ?_⟩
      rw [hall k e' he' c hc]
      exact (roundedOnes_iff (words c)).mpr (fun j hj => hsingle j (hlen c ▸ hj) c hc) k
        (hlen c ▸ hk)

/-! ### A builder with one input -/

private theorem exists_oneInput (ws : List DataChunk) :
    ∃ s more e, ({} : SubnetBuilder).addInput = some (s, ⟨0, 0, false⟩) ∧
    s.Ordered more [0] [] [] ∧ (∀ c, (s.liveCell c).isSome ↔ c = 0) ∧
    simulate [] s (ws.map ([·])) = some e ∧ ∃ words, simulated [] s (ws.map ([·])) = some words ∧
    words 0 = ws := by
  obtain ⟨s, hs, hgrown, happ⟩ := SubnetBuilder.Grown.init.addInput
  have hins : ([] : List EntryID) ++ [({} : SubnetBuilder).size] = [0] := rfl
  rw [hins] at hgrown
  have hcell : ∀ (i : ℕ) c, s.liveCell i = some c → c.links = [] ∧ c.type = .IN := by
    intro i c hc
    have hg := SubnetBuilder.netlist_of_live hc
    rw [happ.netlist, Function.update_apply] at hg
    split at hg
    · have hgate := some.inj hg
      exact ⟨(congrArg Gate.links hgate).symm, (congrArg Gate.type hgate).symm⟩
    · cases hg
  have hin : s.nIn = 1 := congrArg Prod.fst happ.counts
  have hout : s.nOut = 0 := congrArg (fun n => n.2.1) happ.counts
  have hord := hgrown.ordered hin hout (fun i c hc ht => by rw [(hcell i c hc).2] at ht; cases ht)
    fun i c hc l hl => by
    rw [(hcell i c hc).1] at hl
    cases hl
  have hmake : ∃ sim, Simulator.make [] s = some sim ∧ Compiled [] s sim ([0] ++ [] ++ []) ∧
      sim.inputs = [0] ∧ sim.outputs = [] :=
    Simulator.make_eq hgrown (by simp) hin hout fun i cell hi => by cases hi
  obtain ⟨sim, hsim, hcompiled, hinputs, -⟩ := hmake
  have hpos : sim.pos 0 = some 0 := hcompiled.pos [] 0 [] rfl
  have hprogram : sim.program = [] := by
    obtain ⟨c, hc⟩ := hord.exists_live (i := 0) (by simp)
    have hcommand : command s 0 = none := by
      rw [command, SubnetBuilder.getCell_of_live hc, bind_some, SubnetCell.isIn, (hcell 0 c hc).2]
      rfl
    exact hcompiled.program.trans
      (by rw [append_nil, append_nil]; exact filterMap_cons_none hcommand)
  have hvalues : ∀ w state, simulateValues [] sim [w] state = some (update state 0 w) := by
    intro w state
    rw [simulateValues, hinputs, hprogram]
    simp [setValues, hpos, Simulator.simulate]
  have hstates : ∀ (ws : List DataChunk) state, ∃ sts, states [] sim (ws.map ([·])) state =
      some sts ∧ wordsOf sim sts 0 = ws := by
    intro ws
    induction ws with
    | nil => exact fun _ => ⟨[], rfl, rfl⟩
    | cons w ws ih =>
      intro state
      obtain ⟨sts, hsts, hwords⟩ := ih (update state 0 w)
      refine ⟨update state 0 w :: sts, ?_, ?_⟩
      · rw [map_cons, states, hvalues, bind_eq_bind, bind_some, hsts]
        rfl
      · rw [wordsOf] at hwords
        rw [wordsOf, map_cons, hwords, wordOf, value, hpos]
        simp
  obtain ⟨sts, hsts, hwords⟩ := hstates ws fun _ => 0#64
  obtain ⟨e, he, -⟩ := exists_simulate hord (by simp) hsim hsts
  refine ⟨s, _, e, hs, hord, fun c => by rw [← hord.mem c]; simp, he, _, ?_, hwords⟩
  rw [simulated, hsim, bind_eq_bind, bind_some, hsts]
  rfl

/-- Two words: the last value of the first one is 0. -/
theorem simulate_counts_oneInput :
    ∃ s more e, ({} : SubnetBuilder).addInput = some (s, ⟨0, 0, false⟩) ∧
    s.Ordered more [0] [] [] ∧ [[5#64], [7#64]] ≠ ([] : List (List DataChunk)) ∧
    simulate [] s [[5#64], [7#64]] = some e ∧ ∃ words, simulated [] s [[5#64], [7#64]] =
    some words ∧
      ∀ c, (s.liveCell c).isSome → e.switchesOn c = rises (stream (words c)) ∧ e.switchesOff c =
      falls (stream (words c)) := by
  obtain ⟨s, more, e, hs, hord, -, he, -⟩ := exists_oneInput [5#64, 7#64]
  have hne : [[5#64], [7#64]] ≠ ([] : List (List DataChunk)) := cons_ne_nil _ _
  obtain ⟨words, hwords, hall, -⟩ :=
    simulate_counts_iff [] s more [0] [] [] [[5#64], [7#64]] e hord hne he
  exact ⟨s, more, e, hs, hord, hne, he, words, hwords, fun c hc => ⟨(hall c hc).1, (hall c hc).2.1⟩⟩

theorem ones_replicate (n : ℕ) : ones (replicate n (-1#64)) = 64 * n := by
  induction n with
  | zero => rfl
  | succ n ih =>
    rw [replicate_succ', ones_concat, ih, show popCount (-1#64) = 64 by decide]
    ring

/-- The count of a cell stays at `2 ^ 24` when the next word has one value 1. -/
theorem not_simulate_ones : ∃ s more e, ({} : SubnetBuilder).addInput = some (s, ⟨0, 0, false⟩) ∧
    s.Ordered more [0] [] [] ∧
    simulate [] s ((replicate (2 ^ 18) (-1#64) ++ [1#64]).map ([·])) = some e ∧
    ∃ words, simulated [] s ((replicate (2 ^ 18) (-1#64) ++ [1#64]).map ([·])) = some words ∧
      (s.liveCell 0).isSome ∧ e.onStates 0 = 2 ^ 24 ∧ ones (words 0) = 2 ^ 24 + 1 := by
  obtain ⟨s, more, e, hs, hord, hlive, he, words, hwords, heq⟩ :=
    exists_oneInput (replicate (2 ^ 18) (-1#64) ++ [1#64])
  have hzero := (hlive 0).mpr rfl
  have hfull : ones (replicate (2 ^ 18) (-1#64)) = 2 ^ 24 := by
    rw [ones_replicate]
    norm_num
  have hrounded : roundedOnes (replicate (2 ^ 18) (-1#64)) = 2 ^ 24 := by
    have hall := (roundedOnes_iff (replicate (2 ^ 18) (-1#64))).mpr (fun k hk => by
      rw [length_replicate] at hk
      rw [take_replicate, ones_replicate]
      exact isSingle_of_le (by omega)) (2 ^ 18) (by rw [length_replicate])
    rwa [take_of_length_le (by rw [length_replicate]), hfull] at hall
  have hone : popCount 1#64 = 1 := by decide
  refine ⟨s, more, e, hs, hord, he, words, hwords, hzero, ?_, ?_⟩
  · rw [(counted_of_simulate hord he hwords hzero).ones, heq, roundedOnes_concat, hrounded, hone]
    decide +kernel
  · rw [heq, ones_concat, hfull, hone]

end UtopiaEda.SimulationEstimator
