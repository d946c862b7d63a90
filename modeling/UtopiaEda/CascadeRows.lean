import UtopiaEda.Cascade

/-!
# The rows of a cascade

The decomposition of a function is a constant or a tree, whose rows follow the rows of the sources.
The simplification of two decompositions is the decomposition by one more variable.
-/
namespace UtopiaEda.Synthesizer.CascadeSynthesizer
open List

variable {n v w base offset : ℕ} {neg b : Bool} {x : ℕ → Bool} {values : List Bool}

def code (n v : ℕ) (neg : Bool) : ℕ := if neg then n + 2 + v else v + 2

/-- The conjunction with a literal; the same and the disjunction with its negation; a choice between
two trees. -/
inductive Tree where
  | leaf (v : ℕ) (neg : Bool)
  | and (t : Tree) (v : ℕ) (neg : Bool)
  | andOr (t : Tree) (v : ℕ) (neg : Bool)
  | both (t₁ t₂ : Tree) (v : ℕ)

namespace Tree

def value (x : ℕ → Bool) : Tree → Bool
  | leaf v neg => xor (x v) neg
  | and t v neg => t.value x && xor (x v) neg
  | andOr t v neg => (t.value x && xor (x v) neg) || xor (x v) !neg
  | both t₁ t₂ v => (t₂.value x && !x v) || (t₁.value x && x v)

def size : Tree → ℕ
  | leaf _ _ => 1
  | and t _ _ => t.size + 1
  | andOr t _ _ => t.size + 2
  | both t₁ t₂ _ => t₁.size + t₂.size + 3

/-- The rows of the tree, the first of them at `base`. -/
def rows (n : ℕ) : Tree → ℕ → List Row
  | leaf v neg, _ => [⟨code n v neg, 0, 0⟩]
  | and t v neg, base => t.rows n base ++ [⟨2, base + t.size - 1, code n v neg⟩]
  | andOr t v neg, base =>
    t.rows n base ++ [⟨2, base + t.size - 1, code n v neg⟩, ⟨3, base + t.size, code n v !neg⟩]
  | both t₁ t₂ v, base =>
    t₁.rows n base ++ [⟨2, base + t₁.size - 1, code n v false⟩] ++ t₂.rows n (base + t₁.size + 1) ++
      [⟨2, base + t₁.size + t₂.size, code n v true⟩,
        ⟨3, base + t₁.size + t₂.size + 1, base + t₁.size⟩]

/-- The variables of the tree are at least `v` and below `n`, and grow from the root to the
leaves. -/
def Within (n : ℕ) : ℕ → Tree → Prop
  | v, leaf w _ => v ≤ w ∧ w < n
  | v, and t w _ => t.Within n (w + 1) ∧ v ≤ w ∧ w < n
  | v, andOr t w _ => t.Within n (w + 1) ∧ v ≤ w ∧ w < n
  | v, both t₁ t₂ w => t₁.Within n (w + 1) ∧ t₂.Within n (w + 1) ∧ v ≤ w ∧ w < n

variable {t t' t₁ t₂ : Tree}

theorem Within.mono (h : t.Within n v) (hw : w ≤ v) : t.Within n w := by
  cases t with
  | leaf u neg => exact ⟨hw.trans h.1, h.2⟩
  | and t u neg => exact ⟨h.1, hw.trans h.2.1, h.2.2⟩
  | andOr t u neg => exact ⟨h.1, hw.trans h.2.1, h.2.2⟩
  | both t₁ t₂ u => exact ⟨h.1, h.2.1, hw.trans h.2.2.1, h.2.2.2⟩

theorem size_pos : 0 < t.size := by
  cases t with
  | leaf v neg => exact Nat.one_pos
  | and t v neg => exact Nat.succ_pos _
  | andOr t v neg => exact Nat.succ_pos _
  | both t₁ t₂ v => exact Nat.succ_pos _

@[simp] theorem rows_length : (t.rows n base).length = t.size := by
  induction t generalizing base with
  | leaf v neg => rfl
  | and t v neg ih => simp [rows, size, ih]
  | andOr t v neg ih => simp [rows, size, ih]
  | both t₁ t₂ v ih₁ ih₂ =>
    simp only [rows, size, length_append, ih₁, ih₂, length_cons, length_nil]
    omega

end Tree

theorem code_lt (neg : Bool) (hv : v < n) : code n v neg < n * 2 + 2 := by
  rw [code]
  split
  · omega
  · omega

theorem two_le_code (n v : ℕ) (neg : Bool) : 2 ≤ code n v neg := by
  rw [code]
  split
  · omega
  · omega

theorem relocate_literal {op lhs : ℕ} (hv : v < n) :
    Row.relocate n offset ⟨op, lhs, code n v neg⟩ = ⟨op, lhs + offset, code n v neg⟩ := by
  have hlt := code_lt neg hv
  have hle := two_le_code n v neg
  rw [Row.relocate]
  simp only [if_neg (show ¬ (lhs = 0 ∧ code n v neg = 0) by omega),
    if_neg (show ¬ (op = 3 ∧ n * 2 + 1 < code n v neg) by omega)]

theorem relocate_row {lhs rhs : ℕ} (h : n * 2 + 2 ≤ rhs) :
    Row.relocate n offset ⟨3, lhs, rhs⟩ = ⟨3, lhs + offset, rhs + offset⟩ := by
  rw [Row.relocate]
  simp only [if_neg (show ¬ (lhs = 0 ∧ rhs = 0) by omega),
    if_pos (show True ∧ n * 2 + 1 < rhs from ⟨trivial, h⟩)]

theorem Tree.rows_relocate {t : Tree} (ht : t.Within n v) (hbase : n * 2 + 2 ≤ base) :
    (t.rows n base).map (Row.relocate n offset) = t.rows n (base + offset) := by
  induction t generalizing base v with
  | leaf w neg => simp [rows, Row.relocate]
  | and t w neg ih =>
    have hpos := t.size_pos
    rw [rows, rows, map_append, ih ht.1 hbase, map_singleton, relocate_literal ht.2.2,
      show base + t.size - 1 + offset = base + offset + t.size - 1 by omega]
  | andOr t w neg ih =>
    have hpos := t.size_pos
    rw [rows, rows, map_append, ih ht.1 hbase, map_cons, map_singleton, relocate_literal ht.2.2,
      relocate_literal ht.2.2, show base + t.size - 1 + offset = base + offset + t.size - 1 by omega,
      show base + t.size + offset = base + offset + t.size by omega]
  | both t₁ t₂ w ih₁ ih₂ =>
    have hpos := t₁.size_pos
    rw [rows, rows, map_append, map_append, map_append, ih₁ ht.1 hbase,
      ih₂ ht.2.1 (show n * 2 + 2 ≤ base + t₁.size + 1 by omega), map_singleton, map_cons,
      map_singleton, relocate_literal ht.2.2.2, relocate_literal ht.2.2.2,
      relocate_row (Nat.le_add_right_of_le hbase), show base + t₁.size - 1 + offset =
      base + offset + t₁.size - 1 by omega,
      show base + t₁.size + 1 + offset = base + offset + t₁.size + 1 by omega,
      show base + t₁.size + t₂.size + offset = base + offset + t₁.size + t₂.size by omega,
      show base + t₁.size + t₂.size + 1 + offset = base + offset + t₁.size + t₂.size + 1 by omega,
      show base + t₁.size + offset = base + offset + t₁.size by omega]

/-! ### The meaning of rows -/

def Row.eval (g : ℕ → Bool) (row : Row) : Bool :=
  if row.lhs = 0 ∧ row.rhs = 0 then g row.op
  else if row.op = 2 then g row.lhs && g row.rhs
  else g row.lhs || g row.rhs

def evalRows : (ℕ → Bool) → ℕ → List Row → ℕ → Bool
  | g, _, [] => g
  | g, base, row :: rows => evalRows (Function.update g base (row.eval g)) (base + 1) rows

def sourceValue (n : ℕ) (x : ℕ → Bool) (i : ℕ) : Bool :=
  if i = 0 then false else if i = 1 then true else if i < n + 2 then x (i - 2) else !x (i - 2 - n)

theorem sourceValue_code (hv : v < n) : sourceValue n x (code n v neg) = xor (x v) neg := by
  rw [sourceValue, if_neg (Nat.ne_of_gt (Nat.lt_of_lt_of_le Nat.two_pos (two_le_code n v neg))),
    if_neg (Nat.ne_of_gt (Nat.lt_of_lt_of_le Nat.one_lt_two (two_le_code n v neg)))]
  cases neg with
  | false => rw [code, if_neg Bool.false_ne_true, if_pos (by omega), Nat.add_sub_cancel,
      Bool.xor_false]
  | true =>
    rw [code, if_pos rfl, if_neg (by omega), show n + 2 + v - 2 - n = v by omega, Bool.xor_true]

theorem evalRows_append {g : ℕ → Bool} {l l' : List Row} :
    evalRows g base (l ++ l') = evalRows (evalRows g base l) (base + l.length) l' := by
  induction l generalizing g base with
  | nil => rfl
  | cons row l ih =>
    rw [cons_append, evalRows, ih, evalRows, length_cons, Nat.add_assoc, Nat.add_comm 1]

theorem evalRows_singleton {g : ℕ → Bool} {row : Row} :
    evalRows g base [row] = Function.update g base (row.eval g) := rfl

theorem evalRows_concat {g : ℕ → Bool} {l : List Row} (row : Row) {p q : Bool} (hrhs : row.rhs ≠ 0)
    (hp : evalRows g base l row.lhs = p) (hq : evalRows g base l row.rhs = q) :
    evalRows g base (l ++ [row]) (base + l.length) = (if row.op = 2 then p && q else p || q) ∧
      ∀ i < base + l.length, evalRows g base (l ++ [row]) i = evalRows g base l i := by
  rw [evalRows_append, evalRows_singleton, Function.update_self, Row.eval,
    if_neg (fun h => hrhs h.2), hp, hq]
  exact ⟨rfl, fun i hi => Function.update_of_ne hi.ne _ _⟩

theorem Tree.evalRows_rows {t : Tree} {g : ℕ → Bool} (ht : t.Within n v) (hbase : n * 2 + 2 ≤ base)
    (hg : ∀ i < n * 2 + 2, g i = sourceValue n x i) : evalRows g base (t.rows n base)
    (base + t.size - 1) = t.value x ∧
      ∀ i < base, evalRows g base (t.rows n base) i = g i := by
  induction t generalizing g base v with
  | leaf w neg =>
    rw [rows, evalRows_singleton, size, Nat.add_sub_cancel, Function.update_self, Row.eval,
      if_pos ⟨rfl, rfl⟩, hg _ (code_lt _ ht.2), sourceValue_code ht.2]
    exact ⟨rfl, fun i hi => Function.update_of_ne hi.ne _ _⟩
  | and t w neg ih =>
    obtain ⟨hvalue, hbefore⟩ := ih ht.1 hbase hg
    have hpos := t.size_pos
    have hcode := code_lt neg ht.2.2
    have htwo := two_le_code n w neg
    have hlit := hbefore (code n w neg) (by omega)
    rw [hg _ hcode, sourceValue_code ht.2.2] at hlit
    obtain ⟨hrow, hrest⟩ := evalRows_concat ⟨2, base + t.size - 1, code n w neg⟩
      (by simp only; omega) hvalue hlit
    rw [rows_length] at hrow hrest
    exact ⟨hrow, fun i hi => (hrest i (by omega)).trans (hbefore i hi)⟩
  | andOr t w neg ih =>
    obtain ⟨hvalue, hbefore⟩ := ih ht.1 hbase hg
    have hpos := t.size_pos
    have hlit : ∀ neg, evalRows g base (t.rows n base) (code n w neg) = xor (x w) neg :=
      fun neg => by
      have hcode := code_lt neg ht.2.2
      rw [hbefore _ (by omega), hg _ hcode, sourceValue_code ht.2.2]
    have htwo := two_le_code n w neg
    have htwo' := two_le_code n w (!neg)
    have hcode := code_lt (!neg) ht.2.2
    obtain ⟨hrow, hrest⟩ := evalRows_concat ⟨2, base + t.size - 1, code n w neg⟩
      (by simp only; omega) hvalue (hlit neg)
    rw [rows_length] at hrow hrest
    have hlit' := (hrest (code n w !neg) (by omega)).trans (hlit !neg)
    obtain ⟨hlast, hrest'⟩ := evalRows_concat ⟨3, base + t.size, code n w !neg⟩
      (by simp only; omega) hrow hlit'
    rw [length_append, rows_length, length_singleton, append_assoc] at hlast hrest'
    exact ⟨hlast, fun i hi => (hrest' i (by omega)).trans
      ((hrest i (by omega)).trans (hbefore i hi))⟩
  | both t₁ t₂ w ih₁ ih₂ =>
    obtain ⟨hvalue₁, hbefore₁⟩ := ih₁ ht.1 hbase hg
    have hpos := t₁.size_pos
    have hcode := code_lt false ht.2.2.2
    have hcode' := code_lt true ht.2.2.2
    have htwo := two_le_code n w false
    have htwo' := two_le_code n w true
    have hlit₁ := hbefore₁ (code n w false) (by omega)
    rw [hg _ hcode, sourceValue_code ht.2.2.2] at hlit₁
    obtain ⟨hrow₁, hrest₁⟩ := evalRows_concat ⟨2, base + t₁.size - 1, code n w false⟩
      (by simp only; omega) hvalue₁ hlit₁
    rw [rows_length] at hrow₁ hrest₁
    -- the second tree starts behind the first operation
    obtain ⟨hvalue₂, hbefore₂⟩ := ih₂ ht.2.1 (show n * 2 + 2 ≤ base + t₁.size + 1 by omega)
      (fun i hi => (hrest₁ i (by omega)).trans ((hbefore₁ i (by omega)).trans (hg i hi)))
    obtain ⟨l, hl⟩ : ∃ l, l = t₁.rows n base ++ [⟨2, base + t₁.size - 1, code n w false⟩] ++
      t₂.rows n (base + t₁.size + 1) :=
      ⟨_, rfl⟩
    have hlen : base + l.length = base + t₁.size + t₂.size + 1 := by
      rw [hl, length_append, length_append, rows_length, rows_length, length_singleton]
      omega
    have heval : evalRows g base l =
        evalRows (evalRows g base (t₁.rows n base ++ [⟨2, base + t₁.size - 1, code n w false⟩]))
        (base + t₁.size + 1) (t₂.rows n (base + t₁.size + 1)) := by
      rw [hl, evalRows_append, length_append, rows_length, length_singleton, Nat.add_assoc]
    rw [← heval, show base + t₁.size + 1 + t₂.size - 1 =
      base + t₁.size + t₂.size by omega] at hvalue₂
    rw [← heval] at hbefore₂
    have hid := (hbefore₂ (base + t₁.size) (Nat.lt_succ_self _)).trans hrow₁
    have hlit₂ := (hbefore₂ (code n w true) (by omega)).trans
      ((hrest₁ _ (by omega)).trans (hbefore₁ _ (by omega)))
    rw [hg _ hcode', sourceValue_code ht.2.2.2] at hlit₂
    obtain ⟨hrow₂, hrest₂⟩ := evalRows_concat ⟨2, base + t₁.size + t₂.size, code n w true⟩
      (by simp only; omega) hvalue₂ hlit₂
    rw [hlen] at hrow₂ hrest₂
    have hid' := (hrest₂ (base + t₁.size) (by omega)).trans hid
    obtain ⟨hlast, hrest₃⟩ := evalRows_concat ⟨3, base + t₁.size + t₂.size + 1, base + t₁.size⟩
      (by simp only; omega) hrow₂ hid'
    have hlen' : base + (l ++ [(⟨2, base + t₁.size + t₂.size, code n w true⟩ : Row)]).length =
        base + (both t₁ t₂ w).size - 1 := by
      rw [length_append, length_singleton, ← Nat.add_assoc, hlen, size]
      omega
    have hsize : base + (both t₁ t₂ w).size - 1 = base + t₁.size + t₂.size + 2 := by
      rw [size]
      omega
    rw [hlen', append_assoc, hl] at hlast hrest₃
    rw [hl] at hbefore₂ hrest₂
    refine ⟨?_, fun i hi => ?_⟩
    · exact hlast.trans (by rw [Bool.xor_false, Bool.xor_true]; rfl)
    · exact (hrest₃ i (by omega)).trans ((hrest₂ i (by omega)).trans ((hbefore₂ i (by omega)).trans
        ((hrest₁ i (by omega)).trans (hbefore₁ i hi))))

/-! ### Decompositions -/

def sources (n : ℕ) : List Row := .replicate (n * 2 + 2) ⟨0, 0, 0⟩

/-- The rows are the decomposition of `F` by the variables from `v` on. -/
inductive Decomposes (n v : ℕ) : List Row → ((ℕ → Bool) → Bool) → Prop where
  | const (b : Bool) : Decomposes n v (sources n ++ [⟨b.toNat, 0, 0⟩]) (fun _ => b)
  | tree (t : Tree) (ht : t.Within n v) : Decomposes n v (sources n ++ t.rows n (n * 2 + 2)) t.value

variable {out out₁ out₂ : List Row} {F F₁ F₂ : (ℕ → Bool) → Bool} {t t₁ t₂ : Tree}

@[simp] theorem sources_length : (sources n).length = n * 2 + 2 := length_replicate

theorem drop_sources {l : List Row} : (sources n ++ l).drop (n * 2 + 2) = l := by
  rw [drop_append_of_le_length (Nat.le_of_eq sources_length.symm),
    drop_of_length_le (Nat.le_of_eq sources_length), nil_append]

theorem Decomposes.value (h : Decomposes n v out F) (x : ℕ → Bool) :
    evalRows (sourceValue n x) (n * 2 + 2) (out.drop (n * 2 + 2)) (out.length - 1) = F x := by
  cases h with
  | const b =>
    rw [drop_sources, evalRows_singleton, length_append, sources_length, length_singleton,
      Nat.add_sub_cancel, Function.update_self, Row.eval, if_pos ⟨rfl, rfl⟩]
    cases b with
    | false => rfl
    | true => rfl
  | tree t ht =>
    rw [drop_sources, length_append, sources_length, Tree.rows_length]
    exact (Tree.evalRows_rows ht (Nat.le_refl _) (fun _ _ => rfl)).1

theorem Decomposes.unique (h₁ : Decomposes n v out F₁) (h₂ : Decomposes n w out F₂) : F₁ = F₂ :=
  funext (fun x => (h₁.value x).symm.trans (h₂.value x))

theorem Decomposes.congr (h : Decomposes n v out F) (hF : ∀ x, F₁ x = F x) :
    Decomposes n v out F₁ := by
  have heq : F₁ = F := funext hF
  rwa [heq]

theorem Decomposes.mono (h : Decomposes n w out F) (hv : v ≤ w) : Decomposes n v out F := by
  cases h with
  | const b => exact .const b
  | tree t ht => exact .tree t (ht.mono hv)

/-! ### The last row -/

theorem last_concat {l : List Row} {row : Row} : Row.last (l ++ [row]) = row := getLastD_concat ..

theorem Tree.two_le_last (t : Tree) (n base : ℕ) (l : List Row) :
    2 ≤ (Row.last (l ++ t.rows n base)).op := by
  cases t with
  | leaf w neg =>
    rw [rows, last_concat]
    exact two_le_code n w neg
  | and t w neg =>
    rw [rows, ← append_assoc, last_concat]
  | andOr t w neg =>
    rw [rows, append_cons, ← append_assoc, ← append_assoc, last_concat]
    exact Nat.le_succ 2
  | both t₁ t₂ w =>
    rw [rows, append_cons, ← append_assoc, ← append_assoc, last_concat]
    exact Nat.le_succ 2

theorem code_val (h : values.length = v) : values.length + 2 = code n v false := by
  rw [h]
  rfl

theorem code_negVal (h : values.length = v) : n + 2 + values.length = code n v true := by
  rw [h]
  rfl

theorem length_sources_append :
    (sources n ++ t.rows n (n * 2 + 2)).length = n * 2 + 2 + t.size := by
  rw [length_append, sources_length, Tree.rows_length]

theorem Decomposes.and (ht : t.Within n (v + 1)) (hvn : v < n) (neg : Bool) :
    Decomposes n v (sources n ++ t.rows n (n * 2 + 2) ++
    [⟨2, n * 2 + 2 + t.size - 1, code n v neg⟩])
      (fun x => t.value x && xor (x v) neg) := by
  rw [append_assoc]
  exact .tree (.and t v neg) ⟨ht, Nat.le_refl v, hvn⟩

theorem Decomposes.andOr (ht : t.Within n (v + 1)) (hvn : v < n) (neg : Bool) :
    Decomposes n v (sources n ++ t.rows n (n * 2 + 2) ++
    [⟨2, n * 2 + 2 + t.size - 1, code n v neg⟩] ++
      [⟨3, n * 2 + 2 + t.size, code n v !neg⟩])
      (fun x => (t.value x && xor (x v) neg) || xor (x v) !neg) := by
  rw [append_assoc, append_assoc, singleton_append]
  exact .tree (.andOr t v neg) ⟨ht, Nat.le_refl v, hvn⟩

theorem Decomposes.both (ht₁ : t₁.Within n (v + 1)) (ht₂ : t₂.Within n (v + 1)) (hvn : v < n) :
    Decomposes n v (sources n ++ t₁.rows n (n * 2 + 2) ++
    [⟨2, n * 2 + 2 + t₁.size - 1, code n v false⟩] ++
      t₂.rows n (n * 2 + 2 + t₁.size + 1) ++ [⟨2, n * 2 + 2 + t₁.size + t₂.size, code n v true⟩] ++
      [⟨3, n * 2 + 2 + t₁.size + t₂.size + 1, n * 2 + 2 + t₁.size⟩])
      (fun x => (t₂.value x && !x v) || (t₁.value x && x v)) := by
  rw [append_assoc _ [_] [_], append_assoc (sources n), append_assoc (sources n),
    append_assoc (sources n)]
  exact .tree (.both t₁ t₂ v) ⟨ht₁, ht₂, Nat.le_refl v, hvn⟩

theorem Decomposes.checkSimplify (h₁ : Decomposes n (v + 1) out₁ F₁)
    (h₂ : Decomposes n (v + 1) out₂ F₂) (hv : values.length = v) (hvn : v < n) :
    Decomposes n v (checkSimplify n out₁ out₂ values) (fun x => if x v then F₁ x else F₂ x) := by
  have hle : v ≤ v + 1 := Nat.le_succ v
  rw [CascadeSynthesizer.checkSimplify]
  simp only [code_val (n := n) hv, code_negVal hv, initializeRows, replicate_one, nil_append]
  by_cases heq : out₁ = out₂
  · rw [if_pos heq]
    subst heq
    obtain rfl := h₁.unique h₂
    exact (h₁.mono hle).congr (fun x => ite_self _)
  rw [if_neg heq]
  cases h₁ with
  | const b₁ =>
    cases h₂ with
    | const b₂ =>
      have hb : b₂ = !b₁ := by
        cases b₁ <;> cases b₂ <;> first | rfl | exact absurd rfl heq
      subst hb
      simp only [last_concat]
      cases b₁ with
      | true =>
        refine (Decomposes.tree (.leaf v false) ⟨Nat.le_refl v, hvn⟩).congr (fun x => ?_)
        rw [Tree.value]
        cases x v <;> rfl
      | false =>
        refine (Decomposes.tree (.leaf v true) ⟨Nat.le_refl v, hvn⟩).congr (fun x => ?_)
        rw [Tree.value]
        cases x v <;> rfl
    | tree t ht =>
      have htwo := t.two_le_last n (n * 2 + 2) (sources n)
      simp only [last_concat, length_sources_append]
      cases b₁ with
      | true =>
        rw [if_pos (show true.toNat = 1 from rfl), if_neg (by omega)]
        refine (Decomposes.andOr ht hvn true).congr (fun x => ?_)
        cases x v <;> cases t.value x <;> rfl
      | false =>
        rw [if_neg (by decide), if_pos (show false.toNat = 0 from rfl), if_neg (by omega)]
        refine (Decomposes.and ht hvn true).congr (fun x => ?_)
        cases x v <;> cases t.value x <;> rfl
  | tree t₁ ht₁ =>
    have htwo := t₁.two_le_last n (n * 2 + 2) (sources n)
    rw [if_neg (by omega), if_neg (by omega)]
    simp only [length_sources_append]
    cases h₂ with
    | const b₂ =>
      simp only [last_concat]
      cases b₂ with
      | true =>
        rw [if_pos (show true.toNat = 1 from rfl)]
        refine (Decomposes.andOr ht₁ hvn false).congr (fun x => ?_)
        cases x v <;> cases t₁.value x <;> rfl
      | false =>
        rw [if_neg (by decide), if_neg (by decide)]
        refine (Decomposes.and ht₁ hvn false).congr (fun x => ?_)
        cases x v <;> cases t₁.value x <;> rfl
    | tree t₂ ht₂ =>
      have htwo₂ := t₂.two_le_last n (n * 2 + 2) (sources n)
      rw [if_neg (by omega), if_pos (by omega), drop_sources,
        Tree.rows_relocate ht₂ (Nat.le_refl _),
        show n * 2 + 2 + (n * 2 + 2 + t₁.size - (n * 2 + 2) + 1) = n * 2 + 2 + t₁.size + 1 by omega]
      simp only [length_append, length_singleton, sources_length, Tree.rows_length]
      rw [show n * 2 + 2 + t₁.size + 1 + t₂.size - 1 = n * 2 + 2 + t₁.size + t₂.size by omega,
        show n * 2 + 2 + t₁.size + 1 + t₂.size = n * 2 + 2 + t₁.size + t₂.size + 1 by omega]
      refine (Decomposes.both ht₁ ht₂ hvn).congr (fun x => ?_)
      cases x v <;> cases t₁.value x <;> cases t₂.value x <;> rfl

end UtopiaEda.Synthesizer.CascadeSynthesizer
