import UtopiaEda.NpnDatabase
import UtopiaEda.SubnetSerialization
import UtopiaEda.TransformedSubnets

/-!
# What the database returns

The list of a representative holds a copy for every subnet with an equivalent function that was
pushed. The subnets that are taken out have the function that was asked for, if the copies do not
use inputs on which their functions do not depend.
-/
namespace UtopiaEda
open ProductSums NpnTransformation List

variable {n m : ℕ} {lib : CellLibrary} {S T : Subnet} {τ : Npn.Transformation (Fin n)}

/-- The assignment with the given values of the first `n` variables. -/
def assignment (x : Fin n → Bool) : ℕ → Bool := fun i => if h : i < n then x ⟨i, h⟩ else false

def TruthTable.function (f : TruthTable n) (x : Fin n → Bool) : Bool := f.value (assignment x)

def Subnet.function (lib : CellLibrary) (n : ℕ) (S : Subnet) (x : Fin n → Bool) : Bool :=
  (S.value lib (assignment x) (S.getOutIdx 0) 0).getD false

def Subnet.HasTable (lib : CellLibrary) (S : Subnet) (f : TruthTable n) : Prop :=
  ∀ x, S.value lib x (S.getOutIdx 0) 0 = some (f.value x)

namespace TruthTable

variable {f g : TruthTable n} {x y : ℕ → Bool}

theorem value_congr (h : ∀ i < n, x i = y i) : f.value x = f.value y := by
  rw [value, value, point_congr h]

theorem function_eq : f.function (fun i => x i) = f.value x := by
  apply value_congr
  intro i hi
  rw [assignment, dif_pos hi]

theorem value_extend_to {f : TruthTable m} (hm : m ≤ n) : (f.extend_to n).value x = f.value x := by
  have hmod : point x n % 2 ^ m = point x m := by
    apply Nat.eq_of_testBit_eq
    intro i
    rw [Nat.testBit_mod_two_pow]
    by_cases hi : i < m
    · rw [decide_eq_true hi, Bool.true_and, testBit_point (Nat.lt_of_lt_of_le hi hm),
        testBit_point hi]
    · have hlt : point x m < 2 ^ i :=
        Nat.lt_of_lt_of_le point_lt (Nat.pow_le_pow_right Nat.two_pos (Nat.not_lt.mp hi))
      rw [decide_eq_false hi, Bool.false_and, Nat.testBit_lt_two_pow hlt]
  rw [extend_to, value_ofBits, hmod, value]

theorem not_dependsOn_extend_to {f : TruthTable m} (hm : m ≤ n) {j : Fin n} (hj : m ≤ j) :
    ¬ Npn.DependsOn (f.extend_to n).function j := by
  rintro ⟨x, y, hxy, hne⟩
  apply hne
  rw [function, function, value_extend_to hm, value_extend_to hm]
  apply value_congr
  intro i hi
  have hin : i < n := Nat.lt_of_lt_of_le hi hm
  have hij : (⟨i, hin⟩ : Fin n) ≠ j := by
    rintro rfl
    exact Nat.not_le.mpr hi hj
  rw [assignment, assignment, dif_pos hin, dif_pos hin, hxy _ hij]

end TruthTable

theorem Subnet.HasTable.function_eq {f : TruthTable n} (h : S.HasTable lib f) :
    S.function lib n = f.function := by
  funext x
  rw [Subnet.function, h, Option.getD_some, TruthTable.function]

theorem Subnet.TransformedAs.value_eq (h : S.TransformedAs T τ m) (hout : 0 < S.nOut)
    {f : TruthTable n} (hf : S.HasTable lib f) (x : ℕ → Bool) : T.value lib x (T.getOutIdx 0) 0 =
    some (τ.apply f.function (fun i => x i)) := by
  have harguments : f.value ((τ.renumbering m).arguments x) =
      f.function (τ.arguments (fun i => x i)) := by
    apply TruthTable.value_congr
    intro i hi
    rw [assignment, dif_pos hi, Npn.Transformation.arguments]
    change xor (x (if h : i < n then _ else _)) (if h : i < n then _ else _) = _
    rw [dif_pos hi, dif_pos hi]
  rw [h.values lib x 0 hout, hf, Option.map_some, harguments]
  rfl

/-- The representatives of equivalent functions are equal, and the transformation leads to them. -/
structure Canonizes (canonize : ExactNpnCanonization) (n : ℕ) : Prop where
  reach : ∀ f : TruthTable n, ∃ τ : Npn.Transformation (Fin n),
    (canonize n f).2.Represents τ ∧ (canonize n f).1.function = τ.apply f.function
  same : ∀ f g : TruthTable n, Npn.Equivalent f.function g.function →
    (canonize n f).1 = (canonize n g).1

theorem Canonizes.equivalent_iff {canonize : ExactNpnCanonization} (hcanon : Canonizes canonize n)
    {f g : TruthTable n} : (canonize n f).1 = (canonize n g).1 ↔
    Npn.Equivalent f.function g.function := by
  constructor
  · intro heq
    obtain ⟨τ, -, hτ⟩ := hcanon.reach f
    obtain ⟨τ', -, hτ'⟩ := hcanon.reach g
    have hequiv : Equivalence (@Npn.Equivalent (Fin n)) := Npn.equivalent_equivalence
    exact hequiv.trans ⟨τ, hτ.symm⟩ (hequiv.symm ⟨τ', heq ▸ hτ'.symm⟩)
  · exact hcanon.same f g

namespace NpnDatabase

variable {canonize : ExactNpnCanonization} {db : NpnDatabase}

structure Storable (lib : CellLibrary) (n : ℕ) (S : Subnet) : Prop where
  wellFormed : S.WellFormed
  evaluable : S.Evaluable lib
  nIn : S.nIn = n
  nOut : S.nOut = 1

structure Stored (lib : CellLibrary) (g : TruthTable n) (S T : Subnet) : Prop where
  table : ∃ f : TruthTable n, ∃ τ, S.HasTable lib f ∧ S.TransformedAs T τ n ∧
    g.function = τ.apply f.function
  storable : Storable lib n S

theorem Storable.exists_table (canonize : ExactNpnCanonization) (h : Storable lib n S)
    (hn : S.Narrow) : ∃ f : TruthTable n, S.HasTable lib f ∧ ∀ db : NpnDatabase,
    db.push canonize lib S =
      (npnTransform S (canonize n f).2).map
      (fun T => { db with storage := db.storage.add ⟨n, (canonize n f).1⟩ T }) := by
  have hin := h.nIn
  subst hin
  obtain ⟨fs, hfs, hlen, hvalues⟩ := evaluate_eq h.wellFormed hn h.evaluable
  rw [h.nOut] at hlen
  obtain ⟨f, rfl⟩ := List.length_eq_one_iff.mp hlen
  refine ⟨f, hvalues 0 f rfl, fun db => ?_⟩
  rw [push, hfs]
  simp only [Option.bind_eq_bind, Option.bind_some, getElem?_cons_zero]
  cases npnTransform S (canonize S.nIn f).2 <;> rfl

theorem Storable.exists_push (h : Storable lib n S) (hr : S.Replayable)
    (hcanon : Canonizes canonize n) (hpos : 0 < n) (hn : n < 16) : ∃ f T, S.HasTable lib f ∧
    Stored lib (canonize n f).1 S T ∧
      ∀ db : NpnDatabase, db.push canonize lib S =
      some { db with storage := db.storage.add ⟨n, (canonize n f).1⟩ T } := by
  obtain ⟨f, hf, hpush⟩ := h.exists_table canonize hr.narrow
  obtain ⟨τ, hrep, hτ⟩ := hcanon.reach f
  obtain ⟨T, hT, htrans⟩ := exists_npnTransform (u := 255)
    (m := n) h.wellFormed hr h.nIn (by rw [h.nOut]; exact Nat.one_pos)
    hrep hpos hn (Nat.min_eq_left (by omega)) (fun j hj => absurd j.isLt (Nat.not_lt.mpr hj))
  refine ⟨f, T, hf, ⟨⟨f, τ, hf, htrans, hτ⟩, h⟩, fun db => ?_⟩
  rw [hpush db, hT]
  rfl

open Classical in
noncomputable def matching (lib : CellLibrary) (f : TruthTable n) (Ss : List Subnet) :
    List Subnet :=
  Ss.filter (fun S => Npn.Equivalent (S.function lib n) f.function)

theorem matching_append {f : TruthTable n} {Ss Ss' : List Subnet} :
    matching lib f (Ss ++ Ss') = matching lib f Ss ++ matching lib f Ss' := filter_append ..

theorem matching_of_equivalent {f : TruthTable n}
    (h : Npn.Equivalent (S.function lib n) f.function) :
    matching lib f [S] = [S] := filter_cons_of_pos (by simpa using h)

theorem matching_of_not_equivalent {f : TruthTable n}
    (h : ¬ Npn.Equivalent (S.function lib n) f.function) :
    matching lib f [S] = [] := filter_cons_of_neg (by simpa using h)

theorem mem_matching {f : TruthTable n} {Ss : List Subnet} :
    S ∈ matching lib f Ss ↔ S ∈ Ss ∧ Npn.Equivalent (S.function lib n) f.function := by
  simp only [matching, mem_filter, decide_eq_true_eq]

structure Holds (canonize : ExactNpnCanonization) (lib : CellLibrary) (n : ℕ) (Ss : List Subnet)
    (db : NpnDatabase) : Prop where
  nInputs : db.nInputs = n
  lists : ∀ f : TruthTable n,
    List.Forall₂ (Stored lib (canonize n f).1) (matching lib f Ss)
    (db.storage.get ⟨n, (canonize n f).1⟩)

theorem Holds.init : Holds canonize lib n [] { nInputs := n } := ⟨rfl, fun _ => .nil⟩

theorem Holds.push {Ss : List Subnet} (h : Holds canonize lib n Ss db) (hS : Storable lib n S)
    (hr : S.Replayable) (hcanon : Canonizes canonize n) (hpos : 0 < n) (hn : n < 16) :
    ∃ db', db.push canonize lib S = some db' ∧ Holds canonize lib n (Ss ++ [S]) db' := by
  obtain ⟨f, T, hf, hstored, hpush⟩ := hS.exists_push hr hcanon hpos hn
  refine ⟨_, hpush db, h.nInputs, fun g => ?_⟩
  have hlists := h.lists g
  rw [matching_append]
  by_cases hequiv : Npn.Equivalent f.function g.function
  · have hsame : (canonize n f).1 = (canonize n g).1 := hcanon.same f g hequiv
    rw [matching_of_equivalent (hf.function_eq ▸ hequiv), hsame, KeyedLists.get_add_self]
    exact rel_append hlists (.cons (hsame ▸ hstored) .nil)
  · have hne : (⟨n, (canonize n f).1⟩ : DynamicTruthTable) ≠ ⟨n, (canonize n g).1⟩ :=
      fun heq => hequiv (hcanon.equivalent_iff.mp (eq_of_heq (Sigma.mk.inj heq).2))
    rw [matching_of_not_equivalent (hf.function_eq ▸ hequiv), append_nil,
      KeyedLists.get_add_of_ne hne]
    exact hlists

theorem exists_contents (hcanon : Canonizes canonize n) (hn : n < 16) :
    ∀ (Ss : List Subnet) {Ss' : List Subnet} {db : NpnDatabase}, Holds canonize lib n Ss' db →
    (∀ S ∈ Ss, Storable lib n S ∧ S.Replayable ∧ 0 < n) →
    ∃ db', Ss.foldlM (NpnDatabase.push canonize lib) db = some db' ∧
    Holds canonize lib n (Ss' ++ Ss) db' := by
  intro Ss
  induction Ss with
  | nil =>
    intro Ss' db h _
    exact ⟨db, rfl, (append_nil Ss').symm ▸ h⟩
  | cons S Ss ih =>
    intro Ss' db h hSs
    obtain ⟨hS, hr, hpos⟩ := hSs S mem_cons_self
    obtain ⟨db₁, hpush, h₁⟩ := h.push hS hr hcanon hpos hn
    obtain ⟨db', hdb', h'⟩ := ih h₁ (fun S' hS' => hSs S' (mem_cons_of_mem S hS'))
    refine ⟨db', ?_, by rwa [append_assoc, singleton_append] at h'⟩
    rw [foldlM_cons, hpush]
    exact hdb'

theorem results_eq (list : List Subnet) (t : NpnTransformation) (u : ℕ) :
    ResultIterator.results { list := list, transformation := t, nInUsed := u } =
    list.mapM (npnTransform · t u) := by
  have htake : ∀ k ind, list.length ≤ ind + k → ResultIterator.take k ⟨list, t, ind, u⟩ =
      (list.drop ind).mapM (npnTransform · t u) := by
    intro k
    induction k with
    | zero =>
      intro ind hle
      rw [drop_eq_nil_of_le (show list.length ≤ ind from hle)]
      rfl
    | succ k ih =>
      intro ind hle
      rw [ResultIterator.take]
      by_cases hend : list.length ≤ ind
      · rw [if_pos (show ResultIterator.isEnd _ = true from decide_eq_true hend),
          drop_eq_nil_of_le hend]
        rfl
      · have hnot : ¬ (ResultIterator.isEnd ⟨list, t, ind, u⟩ = true) := by
          rw [ResultIterator.isEnd, decide_eq_true_iff]
          exact hend
        have hlt := Nat.not_le.mp hend
        rw [if_neg hnot, ResultIterator.next, if_neg hnot, ih (ind + 1) (by omega),
          drop_eq_getElem_cons hlt, mapM_cons, ResultIterator.get, getElem?_eq_getElem hlt]
        rfl
  exact htake list.length 0 (Nat.le_add_left _ _)

structure Answers (lib : CellLibrary) (tt : TruthTable m) (U : Subnet) : Prop where
  nIn : U.nIn = m
  nOut : U.nOut = 1
  table : U.HasTable lib tt

/-- No cell uses an input on which the function does not depend. -/
def UsesSupport (lib : CellLibrary) (n : ℕ) (S : Subnet) : Prop :=
  ∀ i : Fin n, S.Reads i → Npn.DependsOn (S.function lib n) i

theorem Stored.drops {tt : TruthTable m} (hm : m ≤ n) {g : TruthTable n} (h : Stored lib g S T)
    (hg : g.function = τ.apply (tt.extend_to n).function) (huses : m < n → UsesSupport lib n S) :
    T.Drops τ.symm m := by
  obtain ⟨⟨f, τ₀, hf, htrans, hgf⟩, -⟩ := h
  intro j hj
  have hback : τ.symm.apply g.function = (tt.extend_to n).function := by
    rw [hg]
    exact Npn.Transformation.apply_symm
  have hnot : ¬ Npn.DependsOn g.function (τ.symm.perm j) := by
    rw [← Npn.dependsOn_apply, hback]
    exact TruthTable.not_dependsOn_extend_to hm hj
  have hunused : ¬ S.Reads (τ₀.perm (τ.symm.perm j)) := by
    intro hreads
    have hdep := huses (Nat.lt_of_le_of_lt hj j.isLt) _ hreads
    rw [hf.function_eq, ← Npn.dependsOn_apply, ← hgf] at hdep
    exact hnot hdep
  exact ⟨fun hreads => hunused (htrans.reads _ (Fin.isLt _) hreads),
    htrans.unread _ (Fin.isLt _) hunused⟩

theorem Stored.exists_answer {tt : TruthTable m} {t : NpnTransformation} (hm : m ≤ n) (hpos : 0 < n)
    (hn : n < 16) {g : TruthTable n} (h : Stored lib g S T) (ht : t.Represents τ.symm)
    (hg : g.function = τ.apply (tt.extend_to n).function) (huses : m < n → UsesSupport lib n S) :
    ∃ U, npnTransform T t m = some U ∧ Answers lib tt U := by
  have hdrops := h.drops hm hg huses
  obtain ⟨⟨f, τ₀, hf, htrans, hgf⟩, hS⟩ := h
  have hnOut : T.nOut = 1 := htrans.nOut.trans hS.nOut
  have hT : T.HasTable lib g := by
    intro x
    rw [htrans.value_eq (by rw [hS.nOut]; exact Nat.one_pos) hf x, ← hgf, TruthTable.function_eq]
  obtain ⟨U, hU, hback⟩ := exists_npnTransform htrans.wellFormed htrans.replayable htrans.nIn
    (by rw [hnOut]; exact Nat.one_pos) ht hpos hn (Nat.min_eq_right hm) hdrops
  refine ⟨U, hU, hback.nIn, hback.nOut.trans hnOut, fun x => ?_⟩
  rw [hback.value_eq (by rw [hnOut]; exact Nat.one_pos) hT x, hg, Npn.Transformation.apply_symm,
    TruthTable.function_eq, TruthTable.value_extend_to hm]

/-- After the pushes `get` returns one subnet with the function for every subnet with an equivalent
one. -/
def Complete (canonize : ExactNpnCanonization) (lib : CellLibrary) (n : ℕ) (Ss : List Subnet)
    (tt : TruthTable m) : Prop :=
  ∃ db it Us, Ss.foldlM (NpnDatabase.push canonize lib) { nInputs := n } = some db ∧
    db.get canonize ⟨m, tt⟩ = some it ∧ it.results = some Us ∧
    List.Forall₂ (fun _ U => Answers lib tt U) (matching lib (tt.extend_to n) Ss) Us

theorem exists_answers {tt : TruthTable m} {t : NpnTransformation} {g : TruthTable n}
    {Ss Ts : List Subnet} (hback : ∀ S ∈ Ss, ∀ T, Stored lib g S T →
    ∃ U, npnTransform T t m = some U ∧ Answers lib tt U) (h : List.Forall₂ (Stored lib g) Ss Ts) :
    ∃ Us, Ts.mapM (npnTransform · t m) = some Us ∧
    List.Forall₂ (fun _ U => Answers lib tt U) Ss Us := by
  induction h with
  | nil => exact ⟨[], rfl, .nil⟩
  | @cons S T Ss Ts hST _ ih =>
    obtain ⟨U, hU, hanswer⟩ := hback S mem_cons_self T hST
    obtain ⟨Us, hUs, hanswers⟩ := ih (fun S' hS' => hback S' (mem_cons_of_mem S hS'))
    refine ⟨U :: Us, ?_, .cons hanswer hanswers⟩
    rw [mapM_cons, hU, hUs]
    rfl

theorem get_eq {tt : TruthTable m} (hm : m ≤ n) (hn : n < 16) (hdb : db.nInputs = n) {t : NpnTransformation}
    (ht : (canonize n (tt.extend_to n)).2.inverse = some t) : db.get canonize ⟨m, tt⟩ =
      some { list := db.storage.get ⟨n, (canonize n (tt.extend_to n)).1⟩, transformation := t, nInUsed := m } := by
  let find (ttk : DynamicTruthTable) : Option ResultIterator := (canonize ttk.1 ttk.2).2.inverse.bind (fun inverse =>
    some { list := db.storage.get ⟨ttk.1, (canonize ttk.1 ttk.2).1⟩, transformation := inverse, nInUsed := m % 256 })
  have httk : (if m < db.nInputs then ⟨db.nInputs, tt.extend_to db.nInputs⟩ else
      ⟨m, tt⟩ : DynamicTruthTable) = ⟨n, tt.extend_to n⟩ := by
    rw [hdb]
    rcases Nat.lt_or_eq_of_le hm with hlt | rfl
    · rw [if_pos hlt]
    · rw [if_neg (Nat.lt_irrefl m),
        TruthTable.ext_value (fun x => TruthTable.value_extend_to (Nat.le_refl m))]
  change find (if m < db.nInputs then ⟨db.nInputs, tt.extend_to db.nInputs⟩ else ⟨m, tt⟩) = _
  rw [httk]
  change (canonize n (tt.extend_to n)).2.inverse.bind _ = _
  rw [ht, Option.bind_some, Nat.mod_eq_of_lt (show m < 256 by omega)]

theorem exists_copy {db' : NpnDatabase} (h : db.push canonize lib S = some db') :
    ∃ f T, npnTransform S (canonize S.nIn f).2 = some T := by
  obtain ⟨fs, -, h⟩ := Option.bind_eq_some_iff.mp h
  obtain ⟨f, -, h⟩ := Option.bind_eq_some_iff.mp h
  obtain ⟨T, hT, -⟩ := Option.bind_eq_some_iff.mp h
  exact ⟨f, T, hT⟩

theorem Complete.exists_copy {Ss : List Subnet} {tt : TruthTable m}
    (h : Complete canonize lib n Ss tt) (hS : S ∈ Ss) : ∃ f T, npnTransform S (canonize S.nIn f).2 =
    some T := by
  obtain ⟨db, -, -, hdb, -⟩ := h
  obtain ⟨db₁, db₂, hpush⟩ := exists_of_foldlM hdb S hS
  exact NpnDatabase.exists_copy hpush

def ReadsBeforeRepeated (S : Subnet) : Prop :=
  ∀ k, S.Repeated k → ∀ i c, S.getCell i = some c → ∀ l ∈ c.links, l.idx < k

/-- If links lead to cells before repeated ones and the subnets that are asked for do not use
further inputs, the database is right exactly for subnets that have inputs and no cells of several
entries. -/
theorem complete_iff {Ss : List Subnet} {tt : TruthTable m} (hm : m ≤ n) (hn : n < 16)
    (hcanon : Canonizes canonize n) (hSs : ∀ S ∈ Ss, Storable lib n S)
    (hbefore : ∀ S ∈ Ss, ReadsBeforeRepeated S)
    (huses : m < n → ∀ S ∈ matching lib (tt.extend_to n) Ss, UsesSupport lib n S) :
    Complete canonize lib n Ss tt ↔ ∀ S ∈ Ss, 0 < n ∧ S.Narrow := by
  constructor
  · intro hcomplete S hS
    obtain ⟨f, T, hT⟩ := hcomplete.exists_copy hS
    obtain ⟨hpos, hnarrow⟩ := narrow_of_npnTransform (hSs S hS).wellFormed hT
    obtain rfl := (hSs S hS).nIn
    obtain ⟨τ, hrep, -⟩ := hcanon.reach f
    exact ⟨hrep.length ▸ hpos, hnarrow⟩
  · intro hnarrow
    obtain ⟨db, hdb, hholds⟩ := exists_contents hcanon hn Ss .init
      (fun S hS => ⟨hSs S hS, ⟨(hnarrow S hS).2, hbefore S hS⟩, (hnarrow S hS).1⟩)
    obtain ⟨τ, hrep, hτ⟩ := hcanon.reach (tt.extend_to n)
    obtain ⟨t, ht, hinv⟩ := hrep.inverse (by omega)
    obtain ⟨Us, hUs, hanswers⟩ :=
      exists_answers (fun S hS T hT => hT.exists_answer hm (hnarrow S (mem_matching.mp hS).1).1 hn
      hinv hτ (fun hlt => huses hlt S hS)) (hholds.lists (tt.extend_to n))
    exact ⟨db, _, Us, hdb, get_eq hm hn hholds.nInputs ht, (results_eq _ t m).trans hUs, hanswers⟩

/-- The canonization of functions of one variable: the value at one is negated away. -/
def canonizeUnary : ExactNpnCanonization := fun _ f =>
  if f.get_bit 1 then (~~~ f, ⟨2#32, [0]⟩) else (f, ⟨0#32, [0]⟩)

private theorem canonizeUnary_eq : ∀ f : TruthTable 1,
    (canonizeUnary 1 f).1 = if f.get_bit 0 = f.get_bit 1 then 0#2 else 1#2 := by decide

private theorem constant_of_equivalent {f g : TruthTable 1}
    (h : Npn.Equivalent f.function g.function) (hf : f.get_bit 0 = f.get_bit 1) : g.get_bit 0 =
    g.get_bit 1 := by
  obtain ⟨τ, hτ⟩ := h
  have hconst : ∀ y, f.function y = f.get_bit 0 := by
    intro y
    have hlt : point (assignment y) 1 < 2 := point_lt
    rw [TruthTable.function, TruthTable.value]
    obtain hzero | hone : point (assignment y) 1 = 0 ∨ point (assignment y) 1 = 1 := by omega
    · rw [hzero]
    · rw [hone, hf]
  have hg : ∀ x, g.function x = xor τ.out (f.get_bit 0) := by
    intro x
    rw [← hτ, Npn.Transformation.apply, hconst]
  exact (hg (fun _ => false)).trans (hg (fun _ => true)).symm

theorem canonizeUnary_canonizes : Canonizes canonizeUnary 1 := by
  refine ⟨fun f => ⟨⟨Equiv.refl _, fun _ => false, f.get_bit 1⟩, ?_, ?_⟩, fun f g hequiv => ?_⟩
  · rw [canonizeUnary]
    cases hbit : f.get_bit 1 with
    | false =>
      rw [if_neg Bool.false_ne_true]
      change NpnTransformation.Represents ⟨0#32, [0]⟩ _
      refine ⟨rfl, fun i => ?_, by decide⟩
      rw [Fin.fin_one_eq_zero i]
      decide
    | true =>
      rw [if_pos rfl]
      change NpnTransformation.Represents ⟨2#32, [0]⟩ _
      refine ⟨rfl, fun i => ?_, by decide⟩
      rw [Fin.fin_one_eq_zero i]
      decide
  · funext x
    have hx : (Npn.Transformation.arguments ⟨Equiv.refl _, fun _ => false, f.get_bit 1⟩ x) = x := by
      funext i
      exact Bool.xor_false _
    rw [Npn.Transformation.apply, hx, canonizeUnary]
    cases hbit : f.get_bit 1 with
    | false => exact (Bool.false_xor _).symm
    | true => exact TruthTable.value_not.trans (Bool.true_xor _).symm
  · have hiff : f.get_bit 0 = f.get_bit 1 ↔ g.get_bit 0 = g.get_bit 1 :=
      ⟨constant_of_equivalent hequiv,
        constant_of_equivalent (Npn.equivalent_equivalence.symm hequiv)⟩
    rw [canonizeUnary_eq, canonizeUnary_eq]
    simp only [hiff]

/-- An input, passed on or negated. -/
def wire (inv : Bool) : Subnet := ⟨1, 1, 2, 0, [.cell ⟨.IN, [], 1⟩, .cell ⟨.OUT, [⟨0, 0, inv⟩], 0⟩]⟩

variable {inv : Bool}

theorem wire_cells {i : ℕ} {c : SubnetCell} (hc : (wire inv).getCell i = some c) :
    i < 2 ∧ c.arity ≤ InPlaceLinks ∧ c.isEnabled = false ∧ c.type ∉ [.BUF, .AND, .OR, .XOR] ∧
    ∀ sid, c.type ≠ .soft sid := by
  have hi : i < 2 := Subnet.lt_of_getCell hc
  obtain rfl | rfl : i = 0 ∨ i = 1 := by omega
  all_goals
    cases hc
    exact ⟨hi, by decide +revert, rfl, by simp, fun sid hsid => by cases hsid⟩

theorem wire_storable : Storable .empty 1 (wire inv) := by
  refine ⟨Subnet.wellFormed_of_check (by cases inv <;> decide),
    ⟨fun i c hc ht => ?_, fun i c hc l hl c' sid hc' ht => ?_⟩, rfl, rfl⟩
  · exact absurd ht (wire_cells hc).2.2.2.1
  · exact absurd ht ((wire_cells hc').2.2.2.2 sid)

theorem wire_replayable : (wire inv).Replayable := by
  refine ⟨fun i hi => ?_, fun k hk => ?_⟩
  · have hi : i < 2 := hi
    obtain rfl | rfl : i = 0 ∨ i = 1 := by omega
    all_goals exact ⟨_, rfl, by decide +revert⟩
  · obtain ⟨c, hc, hen, -⟩ := hk
    rw [(wire_cells hc).2.2.1] at hen
    cases hen

/-- The database of the negation and the identity returns a subnet for each of them. -/
theorem complete_unary : Complete canonizeUnary .empty 1 [wire true, wire false]
    (BitVec.ofNat (2 ^ 1) 2 : TruthTable 1) := by
  have hwire : ∀ S ∈ [wire true, wire false], ∃ inv, S = wire inv := by simp
  refine (complete_iff (Nat.le_refl 1) (by decide) canonizeUnary_canonizes (fun S hS => ?_)
    (fun S hS => ?_) (fun hlt => absurd hlt (Nat.lt_irrefl 1))).mpr (fun S hS => ⟨Nat.one_pos, ?_⟩)
  all_goals obtain ⟨inv, rfl⟩ := hwire S hS
  · exact wire_storable
  · exact wire_replayable.before
  · exact wire_replayable.narrow

/-- A conjunction of four inputs in one cell is never stored. -/
theorem wideAnd_refused : SubnetSerializer.makeAnd 4 = some SubnetSerializer.wideAnd ∧
    Storable .empty 4 SubnetSerializer.wideAnd ∧
    ∀ (canonize : ExactNpnCanonization) (tt : TruthTable 4),
    ¬ Complete canonize .empty 4 [SubnetSerializer.wideAnd] tt := by
  have hwf : SubnetSerializer.wideAnd.WellFormed := Subnet.wellFormed_of_check (by decide)
  have hcells : ∀ (i : ℕ) c, SubnetSerializer.wideAnd.getCell i = some c →
      (c.type ∈ [.BUF, .AND, .OR, .XOR] → c.links ≠ []) ∧ ∀ sid, c.type ≠ .soft sid := by
    intro i c hc
    have hi : i < 7 := Subnet.lt_of_getCell hc
    obtain rfl | rfl | rfl | rfl | rfl | rfl | rfl : i = 0 ∨ i = 1 ∨ i = 2 ∨ i = 3 ∨ i = 4 ∨ i = 5 ∨
      i = 6 := by omega
    all_goals cases hc
    all_goals exact ⟨by decide, fun sid hsid => by cases hsid⟩
  refine ⟨by decide, ⟨hwf, ⟨fun i c hc => (hcells i c hc).1, fun i c hc l hl c' sid hc' ht => ?_⟩,
    rfl, rfl⟩, fun canonize tt h => ?_⟩
  · exact absurd ht ((hcells _ c' hc').2 sid)
  · obtain ⟨f, T, hT⟩ := h.exists_copy mem_cons_self
    obtain ⟨c, hc, harity⟩ := (narrow_of_npnTransform hwf hT).2 4 (by decide)
    cases hc
    exact absurd harity (by decide)

end NpnDatabase

end UtopiaEda
