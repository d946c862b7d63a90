import UtopiaEda.LogDb
import UtopiaEda.NpnDatabaseContents

/-!
# Databases that are written and read

The lines of a subnet give back its cells, so a subnet that can be replayed is pushed with the
functions it had. A subnet is pushed at the empty line behind it and not at the end of the text.
-/
namespace UtopiaEda

open List
open Option (bind_eq_bind bind_eq_some_iff bind_some map_some some.inj)

variable {names : ℕ → List Char} {a : Char} {l : Link} {cell : SubnetCell} {S : Subnet}

namespace LogDbTranslator
open NetPrinterLogDb

private theorem isDigit_of_mem {n : ℕ} (ha : a ∈ Nat.toDigits 10 n) : a.isDigit = true :=
  Nat.isDigit_of_mem_toDigits (by decide) (by decide) ha

private theorem of_isDigit (ha : a.isDigit = true) :
    isspace a = false ∧ a ≠ '-' ∧ a ≠ '+' ∧ a ≠ '~' ∧ a ≠ '.' ∧ a ≠ ' ' ∧ a ≠ '\n' := by
  have hrange : 48 ≤ a.toNat ∧ a.toNat ≤ 57 := by
    simpa [Char.isDigit, UInt32.le_iff_toNat_le] using ha
  have hne : ∀ b : Char, (b.toNat < 48 ∨ 57 < b.toNat) → a ≠ b := by
    rintro b hb rfl
    omega
  have hspace := hne ' ' (.inl (by decide))
  refine ⟨?_, hne _ (.inl (by decide)), hne _ (.inl (by decide)), hne _ (.inr (by decide)),
    hne _ (.inl (by decide)), hspace, hne _ (.inl (by decide))⟩
  rw [isspace, decide_eq_false_iff_not]
  rintro (heq | ⟨-, hle⟩)
  · exact hspace heq
  · omega

theorem stoul_toDigits {n : ℕ} (hn : n < 2 ^ 64) : stoul (Nat.toDigits 10 n) = some n := by
  have hne : Nat.toDigits 10 n ≠ [] := Nat.toDigits_ne_nil
  have htake : (Nat.toDigits 10 n).takeWhile Char.isDigit = Nat.toDigits 10 n := by
    have happ : (Nat.toDigits 10 n ++ []).takeWhile Char.isDigit = Nat.toDigits 10 n ++
        [].takeWhile Char.isDigit :=
      takeWhile_append_of_pos (fun a ha => isDigit_of_mem ha)
    rwa [takeWhile_nil, append_nil] at happ
  have hvalue : ¬ (Nat.toDigits 10 n = [] ∨
      2 ^ 64 ≤ Nat.ofDigitChars 10 (Nat.toDigits 10 n) 0) := by
    rw [Nat.ofDigitChars_ten_toDigits]
    rintro (hnil | hle)
    · exact hne hnil
    · omega
  obtain ⟨b, bs, hb⟩ := exists_cons_of_ne_nil hne
  obtain ⟨hspace, hminus, hplus, -⟩ := of_isDigit (isDigit_of_mem (hb ▸ mem_cons_self))
  have hdrop : (Nat.toDigits 10 n).dropWhile isspace = Nat.toDigits 10 n := by
    rw [hb, dropWhile_cons_of_neg (by rw [hspace]; exact Bool.false_ne_true)]
  unfold stoul
  rw [hdrop]
  split
  · rename_i heq
    rw [hb] at heq
    exact absurd (cons.inj heq).1 hminus
  · rename_i heq
    rw [hb] at heq
    exact absurd (cons.inj heq).1 hplus
  · simp only [htake]
    rw [if_neg hvalue, Nat.ofDigitChars_ten_toDigits]

theorem of_mem_onLink (ha : a ∈ onLink l) : a ≠ ' ' ∧ a ≠ '\n' := by
  have hdigits : ∀ n, a ∈ Nat.toDigits 10 n → a ≠ ' ' ∧ a ≠ '\n' := by
    intro n hmem
    obtain ⟨-, -, -, -, -, hspace, hline⟩ := of_isDigit (isDigit_of_mem hmem)
    exact ⟨hspace, hline⟩
  rw [onLink] at ha
  rcases mem_append.mp ha with ha | ha
  · rcases mem_append.mp ha with ha | ha
    · split at ha
      · obtain rfl := mem_singleton.mp ha
        decide
      · cases ha
    · exact hdigits _ ha
  · split at ha
    · cases ha
    · rcases mem_cons.mp ha with rfl | ha
      · decide
      · exact hdigits _ ha

theorem onLink_ne_nil : onLink l ≠ [] := by
  intro hnil
  rw [onLink, append_assoc] at hnil
  have hdigits := (append_eq_nil_iff.mp (append_eq_nil_iff.mp hnil).2).1
  exact Nat.toDigits_ne_nil hdigits

theorem parseLink_onLink (hidx : l.idx < 2 ^ 64) (hout : l.out < 2 ^ 64) :
    parseLink (onLink l) = some l := by
  let sign : List Char := if l.inv then ['~'] else []
  let digits := Nat.toDigits 10 l.idx
  let port : List Char := if l.out = 0 then [] else '.' :: Nat.toDigits 10 l.out
  have htext : onLink l = sign ++ (digits ++ port) := append_assoc ..
  have hdot : '.' ∉ digits := fun hmem => (of_isDigit (isDigit_of_mem hmem)).2.2.2.2.1 rfl
  have hdotSign : '.' ∉ sign := by
    change '.' ∉ (if l.inv then ['~'] else [])
    cases l.inv <;> decide
  have hpoint : (sign ++ (digits ++ port)).idxOf '.' =
      sign.length + (digits.length + port.idxOf '.') := by
    rw [idxOf_append_of_notMem hdotSign, idxOf_append_of_notMem hdot]
  have hzero : port.idxOf '.' = 0 := by
    change (if l.out = 0 then [] else '.' :: Nat.toDigits 10 l.out).idxOf '.' = 0
    split
    · rfl
    · exact idxOf_cons_self
  have hhead : ∃ front, (sign ++ (digits ++ port)).head? = some front ∧
      (front = '~' ↔ l.inv = true) ∧ (if front = '~' then 1 else 0) = sign.length := by
    change ∃ front, ((if l.inv then ['~'] else []) ++ (digits ++ port)).head? = some front ∧
      (front = '~' ↔ l.inv = true) ∧ (if front = '~' then 1 else 0) =
      (if l.inv then ['~'] else []).length
    cases l.inv with
    | true => exact ⟨'~', rfl, by decide, rfl⟩
    | false =>
      obtain ⟨b, bs, hb⟩ := exists_cons_of_ne_nil (show digits ≠ [] from Nat.toDigits_ne_nil)
      have hne := (of_isDigit (isDigit_of_mem (show b ∈ Nat.toDigits 10 l.idx from Eq.mpr (congrArg (b ∈ ·) hb) mem_cons_self))).2.2.2.1
      exact ⟨b, by rw [hb]; rfl, ⟨fun heq => absurd heq hne, fun hcon => by cases hcon⟩, if_neg hne⟩
  obtain ⟨front, hfront, hinv, hstart⟩ := hhead
  have hidxText : ((sign ++ (digits ++ port)).drop sign.length).take
      (sign.length + (digits.length + 0) - sign.length) = digits := by
    rw [drop_left, Nat.add_sub_cancel_left, Nat.add_zero, take_left]
  have hidxValue : stoul digits = some l.idx := stoul_toDigits hidx
  have hport : (if '.' ∈ sign ++ (digits ++ port) then
      stoul ((sign ++ (digits ++ port)).drop (sign.length + (digits.length + 0) + 1))
      else some 0) = some l.out := by
    have hdrop : (sign ++ (digits ++ port)).drop (sign.length + (digits.length + 0) + 1) =
        port.drop 1 := by
      rw [Nat.add_zero digits.length, Nat.add_assoc, ← drop_drop, drop_left, ← drop_drop, drop_left]
    rw [hdrop]
    simp only [mem_append, hdotSign, hdot, false_or]
    change (if '.' ∈ (if l.out = 0 then [] else '.' :: Nat.toDigits 10 l.out) then
      stoul ((if l.out = 0 then [] else '.' :: Nat.toDigits 10 l.out).drop 1) else some 0) = _
    by_cases hzero : l.out = 0
    · rw [if_pos hzero, if_neg not_mem_nil, hzero]
    · rw [if_neg hzero, if_pos mem_cons_self]
      exact stoul_toDigits hout
  rw [parseLink, htext]
  simp only [hfront, bind_eq_bind, bind_some, hpoint, hzero, hstart, hidxText, hidxValue]
  rw [hport, bind_some]
  have hsame : decide (front = '~') = l.inv := by
    cases hl : l.inv with
    | true => exact decide_eq_true (hinv.mpr hl)
    | false => exact decide_eq_false (fun heq => by rw [hinv.mp heq] at hl; cases hl)
  rw [hsame]

/-- A standard gate is found by its name. -/
theorem getSymbol_getName {t : CellTypeID} (ht : ∀ sid, t ≠ .soft sid) :
    getSymbol (t.getName names) = some t := by
  cases t with
  | soft sid => exact absurd rfl (ht sid)
  | _ => rfl

theorem getName_ne_nil {t : CellTypeID} (ht : ∀ sid, t ≠ .soft sid) : t.getName names ≠ [] := by
  cases t with
  | soft sid => exact absurd rfl (ht sid)
  | _ => exact cons_ne_nil _ _

private theorem of_standard (names : ℕ → List Char) {t : CellTypeID} (ht : ∀ sid, t ≠ .soft sid) :
    t ∈ gates ∧ t.getName names = t.getName (fun _ => []) := by
  cases t with
  | soft sid => exact absurd rfl (ht sid)
  | _ => exact ⟨by decide, rfl⟩

theorem of_mem_getName {t : CellTypeID} (ht : ∀ sid, t ≠ .soft sid) (ha : a ∈ t.getName names) :
    a ≠ ' ' ∧ a ≠ '\n' := by
  have hletters : ∀ t ∈ gates,
      (t.getName (fun _ => [])).all (fun a => decide (a ≠ ' ' ∧ a ≠ '\n')) = true := by decide
  obtain ⟨hmem, hname⟩ := of_standard names ht
  rw [hname] at ha
  exact of_decide_eq_true (all_eq_true.mp (hletters t hmem) a ha)

def line (names : ℕ → List Char) (cell : SubnetCell) : List Char :=
  cell.type.getName names ++ (cell.links.map onLink).flatMap (' ' :: ·)

theorem onCell_eq : onCell names cell = line names cell ++ ['\n'] := by
  rw [onCell, line, flatMap_map]

/-- Links that can be written with numbers that `stoul` reads. -/
def Readable (cell : SubnetCell) : Prop :=
  (∀ sid, cell.type ≠ .soft sid) ∧ ∀ l ∈ cell.links, l.idx < 2 ^ 64 ∧ l.out < 2 ^ 64

theorem pieces_line (h : Readable cell) :
    pieces ' ' (line names cell) = cell.type.getName names :: cell.links.map onLink := by
  apply pieces_separated
  · exact fun hmem => (of_mem_getName h.1 hmem).1 rfl
  · exact getName_ne_nil h.1
  · intro k hk
    obtain ⟨l, -, rfl⟩ := mem_map.mp hk
    exact ⟨fun hmem => (of_mem_onLink hmem).1 rfl, onLink_ne_nil⟩

theorem not_mem_line (h : Readable cell) : '\n' ∉ line names cell := by
  intro hmem
  rcases mem_append.mp hmem with hmem | hmem
  · exact (of_mem_getName h.1 hmem).2 rfl
  · obtain ⟨k, hk, hmem⟩ := mem_flatMap.mp hmem
    obtain ⟨l, -, rfl⟩ := mem_map.mp hk
    rcases mem_cons.mp hmem with hcon | hmem
    · exact absurd hcon (by decide)
    · exact (of_mem_onLink hmem).2 rfl

theorem line_ne_nil (names : ℕ → List Char) (h : Readable cell) : line names cell ≠ [] :=
  fun hnil => getName_ne_nil h.1 (append_eq_nil_iff.mp hnil).1

theorem parseLine_line (h : Readable cell) (harity : cell.arity ≤ InPlaceLinks)
    (builder : SubnetBuilder) : parseLine builder (line names cell) =
    builder.addEntry (.cell cell) := by
  have hlinks : ∀ {links : List Link}, (∀ l ∈ links, l.idx < 2 ^ 64 ∧ l.out < 2 ^ 64) →
      (links.map onLink).mapM parseLink = some links := by
    intro links
    induction links with
    | nil => exact fun _ => rfl
    | cons l links ih =>
      intro hl
      obtain ⟨hidx, hout⟩ := hl l mem_cons_self
      rw [map_cons, mapM_cons, parseLink_onLink hidx hout,
        ih (fun k hk => hl k (mem_cons_of_mem l hk))]
      rfl
  rw [parseLine, pieces_line h]
  simp only [getSymbol_getName h.1, hlinks h.2, bind_eq_bind, bind_some]
  rw [SubnetBuilder.addEntry, if_neg (Nat.not_lt.mpr harity)]

def lines (names : ℕ → List Char) (S : Subnet) : List (List Char) :=
  S.entries.map (fun e => match e with
    | .cell cell => line names cell
    | .links _ => [])

structure Printable (S : Subnet) : Prop where
  narrow : S.Narrow
  readable : ∀ i cell, S.getCell i = some cell → Readable cell

theorem Printable.of_mem (h : Printable S) {e : Entry} (he : e ∈ S.entries) :
    ∃ cell, e = .cell cell ∧ Readable cell ∧ cell.arity ≤ InPlaceLinks := by
  obtain ⟨i, hi, rfl⟩ := getElem_of_mem he
  obtain ⟨cell, hcell, harity⟩ := h.narrow i hi
  have hentry := Subnet.entries_of_getCell hcell
  rw [getElem?_eq_getElem hi] at hentry
  exact ⟨cell, some.inj hentry, h.readable i cell hcell, harity⟩

theorem Printable.visitCells_eq (h : Printable S) : ∀ m i, S.size ≤ i + m →
    visitCells names S m i = some (((lines names S).drop i).flatMap (· ++ ['\n'])) := by
  intro m
  induction m with
  | zero =>
    intro i hle
    have hlen : (lines names S).length ≤ i := (length_map ..).trans_le hle
    rw [drop_eq_nil_of_le hlen]
    rfl
  | succ m ih =>
    intro i hle
    have hlen : (lines names S).length = S.size := length_map ..
    rw [visitCells]
    by_cases hi : i < S.size
    · obtain ⟨cell, hcell, harity⟩ := h.narrow i hi
      have hmore : cell.more = 0 := by
        simp only [SubnetCell.more, InPlaceLinks, InEntryLinks] at harity ⊢
        omega
      have hline : (lines names S).drop i = line names cell :: (lines names S).drop (i + 1) := by
        have hget : (lines names S)[i]? = some (line names cell) := by
          rw [lines, getElem?_map, Subnet.entries_of_getCell hcell]
          rfl
        obtain ⟨hlt, heq⟩ := List.getElem?_eq_some_iff.mp hget
        rw [drop_eq_getElem_cons hlt, heq]
      rw [if_pos hi, hcell, hline]
      simp only [bind_eq_bind, bind_some, hmore, Nat.add_zero]
      rw [ih (i + 1) (by omega), bind_some, flatMap_cons, onCell_eq]
    · rw [if_neg hi, drop_eq_nil_of_le (Nat.le_trans (Nat.le_of_eq hlen) (Nat.not_lt.mp hi))]
      rfl

theorem Printable.print_eq (h : Printable S) :
    print names S = some ((lines names S).flatMap (· ++ ['\n'])) :=
  h.visitCells_eq S.size 0 (Nat.le_add_left _ _)

theorem exportSubnets_eq : ∀ {Ss : List Subnet}, (∀ S ∈ Ss, Printable S) →
    exportSubnets names Ss = some ((Ss.flatMap (fun S => lines names S ++ [[]])).flatMap
    (· ++ ['\n'])) := by
  intro Ss
  induction Ss with
  | nil => exact fun _ => rfl
  | cons S Ss ih =>
    intro h
    rw [exportSubnets, (h S mem_cons_self).print_eq, ih (fun T hT => h T (mem_cons_of_mem S hT))]
    simp only [bind_eq_bind, bind_some, flatMap_cons, flatMap_append, nil_append, append_assoc,
      singleton_append]

variable {canonize : ExactNpnCanonization} {lib : CellLibrary}

theorem foldlM_lines (h : Printable S) (db : NpnDatabase) (builder : SubnetBuilder) :
    (lines names S).foldlM (translateLine canonize lib) (db, builder) =
      (S.entries.foldlM SubnetBuilder.addEntry builder).map (db, ·) := by
  have hentries : ∀ es : List Entry, (∀ e ∈ es, e ∈ S.entries) → ∀ builder,
      (es.map (fun e => match e with
        | .cell cell => line names cell
        | .links _ => [])).foldlM (translateLine canonize lib) (db, builder) =
      (es.foldlM SubnetBuilder.addEntry builder).map (db, ·) := by
    intro es
    induction es with
    | nil => exact fun _ _ => rfl
    | cons e es ih =>
      intro hes builder
      obtain ⟨cell, rfl, hread, harity⟩ := h.of_mem (hes e mem_cons_self)
      obtain ⟨a, as, hline⟩ := exists_cons_of_ne_nil (line_ne_nil names hread)
      have hstep : translateLine canonize lib (db, builder) (line names cell) =
          (parseLine builder (line names cell)).map (db, ·) := by
        rw [hline, translateLine]
        exact cons_ne_nil a as
      rw [map_cons, foldlM_cons, foldlM_cons]
      change (translateLine canonize lib (db, builder) (line names cell) >>= _) = _
      rw [hstep, parseLine_line hread harity]
      cases builder.addEntry (.cell cell) with
      | none => rfl
      | some builder' => exact ih (fun e' he' => hes e' (mem_cons_of_mem _ he')) builder'
  exact hentries S.entries (fun _ he => he) builder

structure Accepted (canonize : ExactNpnCanonization) (lib : CellLibrary) (S : Subnet) : Prop where
  storable : NpnDatabase.Storable lib S.nIn S
  standard : ∀ i cell, S.getCell i = some cell → ∀ sid, cell.type ≠ .soft sid
  replayable : S.Replayable
  inputs : 0 < S.nIn ∧ S.nIn < 16
  size : S.size ≤ 2 ^ 64
  canonizes : Canonizes canonize S.nIn

theorem Accepted.printable (h : Accepted canonize lib S) : Printable S := by
  refine ⟨h.replayable.narrow, fun i cell hcell => ⟨h.standard i cell hcell, fun l hl => ?_⟩⟩
  obtain ⟨-, cell', hcell', -⟩ := h.storable.wellFormed.links i cell hcell l hl
  have hidx : l.idx < 2 ^ 64 := Nat.lt_of_lt_of_le (Subnet.lt_of_getCell hcell') h.size
  rcases h.storable.wellFormed.port i cell hcell l hl cell' hcell' with hzero | ⟨sid, hsid⟩
  · exact ⟨hidx, by rw [hzero]; exact Nat.two_pow_pos 64⟩
  · exact absurd hsid (h.standard _ cell' hcell' sid)

theorem count_of_push {db db' : NpnDatabase} (h : db.push canonize lib S = some db') :
    db'.storage.count = db.storage.count + 1 := by
  obtain ⟨fs, -, h⟩ := bind_eq_some_iff.mp h
  obtain ⟨f, -, h⟩ := bind_eq_some_iff.mp h
  obtain ⟨T, -, h⟩ := bind_eq_some_iff.mp h
  cases h
  exact KeyedLists.count_add

theorem count_of_foldlM : ∀ {Ss : List Subnet} {db db' : NpnDatabase},
    Ss.foldlM (NpnDatabase.push canonize lib) db = some db' →
    db'.storage.count = db.storage.count + Ss.length := by
  intro Ss
  induction Ss with
  | nil =>
    intro db db' h
    cases h
    rfl
  | cons S Ss ih =>
    intro db db' h
    rw [foldlM_cons] at h
    obtain ⟨db₁, hpush, h⟩ := bind_eq_some_iff.mp h
    rw [ih h, count_of_push hpush, length_cons, Nat.add_assoc, Nat.add_comm 1]

theorem Accepted.exists_pushed (h : Accepted canonize lib S) :
    ∃ s S', S.entries.foldlM SubnetBuilder.addEntry {} = some s ∧
    s.make = some S' ∧ S.Same S' ∧ ∀ db : NpnDatabase, ∃ db', db.push canonize lib S' =
    some db' := by
  have hS := h.storable
  obtain ⟨s, S', hs, hS', hreplayed⟩ :=
    SubnetBuilder.exists_replay hS.wellFormed (by rw [hS.nOut]; exact Nat.one_pos) h.replayable
  have hevaluable : S'.Evaluable lib := by
    constructor
    · intro i c' hc' ht hnil
      obtain ⟨e, c, hc, htype, hlen⟩ := hreplayed.origin i c' hc'
      rw [htype] at ht
      apply hS.evaluable.links e c hc ht
      rw [hnil] at hlen
      exact eq_nil_of_length_eq_zero hlen.symm
    · intro i c hc l hl c' sid hc' ht
      obtain ⟨e, b, hb, htype, -⟩ := hreplayed.origin l.idx c' hc'
      exact absurd (htype.symm.trans ht) (h.standard e b hb sid)
  have hstorable : NpnDatabase.Storable lib S.nIn S' :=
    ⟨hreplayed.wellFormed, hevaluable, hreplayed.same.nIn, hreplayed.same.nOut.trans hS.nOut⟩
  obtain ⟨f, T, -, -, hpush⟩ :=
    hstorable.exists_push hreplayed.replayable h.canonizes h.inputs.1 h.inputs.2
  exact ⟨s, S', hs, hS', hreplayed.same, fun db => ⟨_, hpush db⟩⟩

theorem exists_run (names : ℕ → List Char) :
    ∀ {Ss : List Subnet} (db : NpnDatabase), (∀ S ∈ Ss, Accepted canonize lib S) →
    ∃ Ss' db', List.Forall₂ Subnet.Same Ss Ss' ∧ Ss'.foldlM (NpnDatabase.push canonize lib) db =
    some db' ∧
      (Ss.flatMap (fun S => lines names S ++ [[]])).foldlM (translateLine canonize lib) (db, {}) =
      some (db', {}) := by
  intro Ss
  induction Ss with
  | nil => exact fun db _ => ⟨[], db, .nil, rfl, rfl⟩
  | cons S Ss ih =>
    intro db h
    have hS := h S mem_cons_self
    obtain ⟨s, S', hs, hS', hsame, hpush⟩ := hS.exists_pushed
    obtain ⟨db₁, hdb₁⟩ := hpush db
    obtain ⟨Ss', db', hsames, hdb', hrun⟩ := ih db₁ (fun T hT => h T (mem_cons_of_mem S hT))
    refine ⟨S' :: Ss', db', .cons hsame hsames, ?_, ?_⟩
    · rw [foldlM_cons, hdb₁]
      exact hdb'
    · have hline : translateLine canonize lib (db, s) [] = some (db₁, {}) := by
        simp only [translateLine, hS', hdb₁, bind_eq_bind, bind_some]
      rw [flatMap_cons, foldlM_append, foldlM_append, foldlM_lines hS.printable, hs, map_some]
      simp only [foldlM_cons, foldlM_nil, bind_eq_bind, bind_some, hline, Option.pure_def]
      exact hrun

/-- The database holds as many subnets as were written, with the functions that they had, in their
order. -/
def RoundTrip (canonize : ExactNpnCanonization) (lib : CellLibrary) (Ss : List Subnet)
    (text : List Char) : Prop :=
  ∃ Ss' db, List.Forall₂ Subnet.Same Ss Ss' ∧ Ss'.foldlM (NpnDatabase.push canonize lib)
    {} = some db ∧ translate canonize lib text = some db

theorem translate_eq {ls : List (List Char)} (hls : ∀ l ∈ ls, '\n' ∉ l) :
    translate canonize lib (ls.flatMap (· ++ ['\n'])) =
    (ls.foldlM (translateLine canonize lib) ({}, {})).map Prod.fst := by
  have hpieces := pieces_flatMap [] hls
  rw [append_nil, pieces, append_nil] at hpieces
  rw [translate, hpieces]

theorem not_mem_lines (h : Printable S) {k : List Char} (hk : k ∈ lines names S) : '\n' ∉ k := by
  obtain ⟨e, he, rfl⟩ := mem_map.mp hk
  obtain ⟨cell, rfl, hread, -⟩ := h.of_mem he
  exact not_mem_line hread

theorem not_mem_texts {Ss : List Subnet} (h : ∀ S ∈ Ss, Printable S) {k : List Char}
    (hk : k ∈ Ss.flatMap (fun S => lines names S ++ [[]])) : '\n' ∉ k := by
  obtain ⟨S, hS, hk⟩ := mem_flatMap.mp hk
  rcases mem_append.mp hk with hk | hk
  · exact not_mem_lines (h S hS) hk
  · rw [mem_singleton.mp hk]
    exact not_mem_nil

theorem not_roundTrip_dropLast {Ss : List Subnet} (h : ∀ S ∈ Ss, Accepted canonize lib S)
    (hne : Ss ≠ []) : ¬ RoundTrip canonize lib Ss
    ((Ss.flatMap (fun S => lines names S ++ [[]])).flatMap (· ++ ['\n'])).dropLast := by
  obtain ⟨Ts, S, rfl⟩ := (eq_nil_or_concat' Ss).resolve_left hne
  have hTs : ∀ T ∈ Ts, Accepted canonize lib T := fun T hT => h T (mem_append_left _ hT)
  have hS : Accepted canonize lib S := h S (mem_append_right _ mem_cons_self)
  have htext : (((Ts ++ [S]).flatMap (fun S => lines names S ++ [[]])).flatMap
      (· ++ ['\n'])).dropLast =
      (Ts.flatMap (fun S => lines names S ++ [[]]) ++ lines names S).flatMap (· ++ ['\n']) := by
    rw [flatMap_append, flatMap_singleton, ← append_assoc, flatMap_append, flatMap_singleton,
      nil_append, dropLast_concat]
  have hlines : ∀ k ∈ Ts.flatMap (fun S => lines names S ++ [[]]) ++ lines names S, '\n' ∉ k := by
    intro k hk
    rcases mem_append.mp hk with hk | hk
    · exact not_mem_texts (fun T hT => (hTs T hT).printable) hk
    · exact not_mem_lines hS.printable hk
  obtain ⟨Ts', db', hsames, hdb', hrun⟩ := exists_run names {} hTs
  obtain ⟨s, -, hs, -⟩ := hS.exists_pushed
  rintro ⟨Ss', db, hsame, hdb, htranslate⟩
  rw [htext, translate_eq hlines, foldlM_append, hrun] at htranslate
  simp only [bind_eq_bind, bind_some, foldlM_lines hS.printable, hs, map_some] at htranslate
  obtain rfl := some.inj htranslate
  have hcount := (count_of_foldlM hdb).symm.trans (count_of_foldlM hdb')
  rw [← hsame.length_eq, ← hsames.length_eq, length_append] at hcount
  simp at hcount

/-- A text of subnets is read back exactly if the last one is followed by an empty line. -/
theorem roundTrip_iff (names : ℕ → List Char) {Ss : List Subnet}
    (h : ∀ S ∈ Ss, Accepted canonize lib S) : ∃ text, exportSubnets names Ss = some text ∧
      ∀ closed : Bool, RoundTrip canonize lib Ss (if closed then text else text.dropLast) ↔
      closed = true ∨ Ss = [] := by
  have hprintable : ∀ S ∈ Ss, Printable S := fun S hS => (h S hS).printable
  refine ⟨_, exportSubnets_eq hprintable, fun closed => ?_⟩
  have hclosed : RoundTrip canonize lib Ss ((Ss.flatMap (fun S => lines names S ++ [[]])).flatMap
      (· ++ ['\n'])) := by
    obtain ⟨Ss', db', hsames, hdb', hrun⟩ := exists_run names {} h
    refine ⟨Ss', db', hsames, hdb', ?_⟩
    rw [translate_eq (fun k hk => not_mem_texts hprintable hk), hrun, map_some]
  cases closed with
  | true => exact ⟨fun _ => .inl rfl, fun _ => hclosed⟩
  | false =>
    constructor
    · intro hopen
      by_contra hne
      exact not_roundTrip_dropLast h (fun hnil => hne (.inr hnil)) hopen
    · rintro (hcon | rfl)
      · cases hcon
      · exact hclosed

/-- Two subnets are written with an empty line behind each of them and read back. -/
theorem roundTrip_wires : ∃ text, exportSubnets (fun _ => [])
    [NpnDatabase.wire true, NpnDatabase.wire false] = some text ∧
    RoundTrip NpnDatabase.canonizeUnary .empty [NpnDatabase.wire true, NpnDatabase.wire false]
    text := by
  have haccepted : ∀ inv, Accepted NpnDatabase.canonizeUnary .empty (NpnDatabase.wire inv) :=
    fun inv =>
    ⟨NpnDatabase.wire_storable, fun i cell hcell => (NpnDatabase.wire_cells hcell).2.2.2.2,
      NpnDatabase.wire_replayable, by decide +revert, by decide +revert, NpnDatabase.canonizeUnary_canonizes⟩
  have hall : ∀ S ∈ [NpnDatabase.wire true, NpnDatabase.wire false],
      Accepted NpnDatabase.canonizeUnary .empty S := by
    simp [haccepted]
  obtain ⟨text, htext, hiff⟩ := roundTrip_iff (fun _ => []) hall
  exact ⟨text, htext, (hiff true).mpr (.inl rfl)⟩

/-- The text of a conjunction without an empty line behind it yields an empty database. -/
theorem open_text_lost : NetPrinterLogDb.print (fun _ => []) SubnetSerializer.smallAnd =
      some ['i', 'n', '\n', 'i', 'n', '\n', 'a', 'n', 'd', ' ', '0', ' ', '1', '\n', 'o', 'u', 't',
      ' ', '2', '\n'] ∧
    ∀ canonize : ExactNpnCanonization, ¬ RoundTrip canonize .empty [SubnetSerializer.smallAnd]
      ['i', 'n', '\n', 'i', 'n', '\n', 'a', 'n', 'd', ' ', '0', ' ', '1', '\n', 'o', 'u', 't', ' ',
        '2', '\n'] := by
  refine ⟨by decide, fun canonize => ?_⟩
  rintro ⟨Ss', db, hsame, hdb, htranslate⟩
  have hempty : (translate canonize .empty
      ['i', 'n', '\n', 'i', 'n', '\n', 'a', 'n', 'd', ' ', '0', ' ', '1', '\n', 'o', 'u', 't', ' ',
        '2', '\n']).map (·.storage.count) = some 0 := rfl
  have hcount := count_of_foldlM hdb
  rw [htranslate, map_some, hcount, ← hsame.length_eq] at hempty
  exact absurd (some.inj hempty) (by decide)

end LogDbTranslator

end UtopiaEda
