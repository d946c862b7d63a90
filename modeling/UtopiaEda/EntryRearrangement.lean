import UtopiaEda.SubnetMaking

/-!
# Rearranging the entries of a growing builder

The cells are moved to their places in the order, and their links follow: every entry gets its index
in the order, every cell keeps its reference count. The entries of links stand behind their cells in
memory, so `getLinkRef` reaches all of them.
-/
namespace UtopiaEda

open List
open Option (bind_eq_bind bind_some isSome_iff_exists map_some some.inj)
open Function (update update_self update_of_ne)

def Link.rename (pos : EntryID → EntryID) (l : Link) : Link := { l with idx := pos l.idx }

def Link.redirect (pos : EntryID → EntryID) (inv : EntryID → Bool) (l : Link) : Link :=
  ⟨pos l.idx, l.out, xor (inv l.idx) l.inv⟩

theorem Link.redirect_of_plain (pos : EntryID → EntryID) :
    Link.redirect pos (fun _ => false) = Link.rename pos := by
  funext l
  simp [redirect, rename]

def Entry.addRefs (n : ℕ) : Entry → Entry
  | .cell c => .cell { c with refcount := c.refcount + n }
  | .links ls => .links ls

@[simp] theorem Entry.addRefs_zero (e : Entry) : e.addRefs 0 = e := by cases e <;> rfl

@[simp] theorem Entry.addRefs_addRefs (m n : ℕ) (e : Entry) :
    (e.addRefs m).addRefs n = e.addRefs (m + n) := by
  cases e with
  | cell c => simp [Entry.addRefs, Nat.add_assoc]
  | links ls => rfl

namespace SubnetBuilder
open EntryOrder

variable {s s' s'' : SubnetBuilder} {ins mid outs : List EntryID} {i j e : EntryID} {c : SubnetCell}
  {g : Gate} {u v es ps rest : List EntryID} {links L : List Link} {l : Link}
  {pos : EntryID → EntryID}

structure LinksSet (s s' : SubnetBuilder) (i : EntryID) (c : SubnetCell) (es : List EntryID)
    (L : List Link) :
    Prop where
  order : s'.order = s.order
  counts : (s'.nIn, s'.nOut, s'.nCell, s'.nBuf) = (s.nIn, s.nOut, s.nCell, s.nBuf)
  cell : s'.entries i = .cell { c with links := L }
  more : Stored s'.entries es (L.drop InPlaceLinks)
  other : ∀ e, e ≠ i → e ∉ es → s'.entries e = s.entries e

private theorem LinksSet.getCell (h : LinksSet s s' i c es L) (hi : i < s.size) :
    s'.getCell i = some { c with links := L } := by
  have hsize : s'.size = s.size := congrArg EntryOrder.size h.order
  rw [SubnetBuilder.getCell, if_pos (hsize ▸ hi), h.cell]

private theorem LinksSet.setFanouts (h : LinksSet s s' i c es L) (f : EntryID → List EntryID) :
    LinksSet s (s'.setFanouts f) i c es L := ⟨h.order, h.counts, h.cell, h.more, h.other⟩

/-- A link is written to its entry. -/
theorem Stored.set {f : EntryID → Entry} {k : ℕ} {ls : List Link} :
    ∀ {es : List EntryID} {links : List Link}, Stored f es links → es.Nodup →
    es[k / InEntryLinks]? = some e → f e = .links ls →
    Stored (update f e (.links (ls.set (k % InEntryLinks) l))) es (links.set k l) := by
  intro es
  induction es generalizing k with
  | nil =>
    intro links _ _ he
    cases he
  | cons a es ih =>
    intro links ⟨hne, ha, hrest⟩ hnd he hls
    obtain ⟨hnot, hnd⟩ := nodup_cons.mp hnd
    refine ⟨fun hnil => hne (length_eq_zero_iff.mp (by rw [← length_set, hnil]; rfl)), ?_⟩
    by_cases hlt : k < InEntryLinks
    · rw [Nat.div_eq_of_lt hlt] at he
      obtain rfl := some.inj he
      obtain rfl := Entry.links.inj (ha.symm.trans hls)
      rw [update_self, Nat.mod_eq_of_lt hlt, take_set, drop_set_of_lt hlt]
      refine ⟨rfl, ?_⟩
      refine hrest.congr (fun b hb bs hbs => ?_)
      have hba : b ≠ a := fun hba => hnot (hba ▸ hb)
      exact (update_of_ne hba ..).trans hbs
    · have hle := Nat.not_lt.mp hlt
      rw [Nat.div_eq_sub_div (by decide) hle, getElem?_cons_succ] at he
      have hae : a ≠ e := by
        rintro rfl
        exact hnot (mem_of_getElem? he)
      rw [update_of_ne hae, take_set_of_le hle, drop_set, if_neg hlt, Nat.mod_eq_sub_mod hle]
      exact ⟨ha, ih hrest hnd he hls⟩

private theorem LinksSet.setLinkRef (h : LinksSet s s' i c es L) (hi : i < s.size)
    (hl : s.order.Visits (u ++ i :: es ++ v)) (hreach : InReach i es L.length)
    (hj : j < L.length) : ∃ s'', s'.setLinkRef i j l = some s'' ∧
    LinksSet s s'' i c es (L.set j l) := by
  have hc := h.getCell hi
  have hnd := hl.nodup
  by_cases hlt : j < InPlaceLinks
  · refine ⟨s'.setCell i { c with links := L.set j l }, ?_, h.order, h.counts, update_self .., ?_,
      ?_⟩
    · simp only [SubnetBuilder.setLinkRef, hc, bind_eq_bind, bind_some, hlt, if_true]
    · rw [drop_set_of_lt hlt]
      refine h.more.congr (fun e he ls hls => ?_)
      have hei : e ≠ i := by
        rintro rfl
        rw [h.cell] at hls
        cases hls
      exact (update_of_ne hei ..).trans hls
    · intro e he hes
      exact (update_of_ne he ..).trans (h.other e he hes)
  · obtain ⟨n, k, e, ls, hindices, hn, hmod, he, hls, hget⟩ :=
      getLinkIndices_of_stored (s := s') h.more (h.order ▸ hl) hreach hj hlt
    have hes : e ∈ es := mem_of_getElem? he
    have hei : e ≠ i := by
      rintro rfl
      rw [h.cell] at hls
      cases hls
    have hsize : e < s'.size := by
      have hlt' := hl.lt e (by simp [hes])
      rwa [← h.order] at hlt'
    let s₁ := s'.setCell i { c with links := L.set j l }
    refine ⟨{ s₁ with entries := update s₁.entries e (.links (ls.set (k % InEntryLinks) l)) },
      ?_, h.order, h.counts, ?_, ?_, ?_⟩
    · simp only [SubnetBuilder.setLinkRef, hc, hindices, hn, hls, hlt, hsize, hget, and_self,
        bind_eq_bind, bind_some, if_false, if_true, s₁]
    · exact (update_of_ne hei.symm ..).trans (update_self ..)
    · rw [drop_set, if_neg hlt, hmod]
      have hentries : ∀ a, a ≠ i → s₁.entries a = s'.entries a := fun a ha => update_of_ne ha ..
      have hstored : Stored s₁.entries es (L.drop InPlaceLinks) := by
        refine h.more.congr (fun a ha bs hbs => ?_)
        have hai : a ≠ i := by
          rintro rfl
          rw [h.cell] at hbs
          cases hbs
        rw [hentries a hai, hbs]
      refine hstored.set ?_ he ((hentries e hei).trans hls)
      rw [append_assoc, nodup_append] at hnd
      exact (nodup_append.mp (nodup_cons.mp hnd.2.1).2).1
    · intro a ha haes
      have hae : a ≠ e := fun hae => haes (hae ▸ hes)
      exact (update_of_ne hae ..).trans ((update_of_ne ha ..).trans (h.other a ha haes))

private theorem LinksSet.getLink (h : LinksSet s s' i c es L) (hi : i < s.size)
    (hl : s.order.Visits (u ++ i :: es ++ v)) (hreach : InReach i es L.length)
    (hj : j < L.length) : s'.getLink i j = some L[j] :=
  getLink_of_stored (c := { c with links := L }) (h.getCell hi) h.more (h.order ▸ hl) hreach hj

private theorem relinkLoop_eq (hi : i < s.size) (hl : s.order.Visits (u ++ i :: es ++ v))
    (hold : ∀ l ∈ L, l.idx < s.size) (hreach : InReach i es L.length) :
    ∀ {new done : List Link} {s' : SubnetBuilder},
    LinksSet s s' i c es (done ++ L.drop done.length) →
      done.length + new.length = L.length → (∀ l ∈ new, l.idx < s.size) →
      ∃ s'', relinkLoop i done.length new s' = some s'' ∧ LinksSet s s'' i c es (done ++ new) := by
  intro new
  induction new with
  | nil =>
    intro done s' h hdone _
    rw [length_nil, Nat.add_zero] at hdone
    rw [drop_eq_nil_of_le (Nat.le_of_eq hdone.symm)] at h
    exact ⟨s', rfl, h⟩
  | cons l new ih =>
    intro done s' h hdone hnew
    rw [length_cons] at hdone
    have hlt : done.length < L.length := by omega
    have hlen' : (done ++ L.drop done.length).length = L.length := by
      rw [length_append, length_drop]
      omega
    have hj : done.length < (done ++ L.drop done.length).length := hlen'.symm ▸ hlt
    have hread := h.getLink hi hl (hlen'.symm ▸ hreach) hj
    have hget : (done ++ L.drop done.length)[done.length] = L[done.length] := by
      simp
    have hsize : s'.size = s.size := congrArg EntryOrder.size h.order
    have hfrom : (L[done.length]).idx < s'.size := hsize ▸ hold _ (getElem_mem hlt)
    rw [hget] at hread
    have hdel : ∃ f, s'.delFanout (L[done.length]).idx i = some (s'.setFanouts f) := by
      rw [delFanout, if_neg (by simp only [not_or, Nat.not_le]; exact ⟨hfrom, hsize ▸ hi⟩)]
      exact ⟨_, rfl⟩
    obtain ⟨f, hf⟩ := hdel
    obtain ⟨s₂, hs₂, h₂⟩ := (h.setFanouts f).setLinkRef (l := l) hi hl (hlen'.symm ▸ hreach) hj
    have hsize₂ : s₂.size = s.size := congrArg EntryOrder.size h₂.order
    have hadd : ∃ f, s₂.addFanout l.idx i = some (s₂.setFanouts f) := by
      rw [addFanout, if_neg (by
        simp only [not_or, Nat.not_le]
        exact ⟨hsize₂ ▸ hnew l (mem_cons_self ..), hsize₂ ▸ hi⟩)]
      exact ⟨_, rfl⟩
    obtain ⟨f', hf'⟩ := hadd
    have hset : (done ++ L.drop done.length).set done.length l =
        done ++ [l] ++ L.drop (done ++ [l]).length := by
      rw [drop_eq_getElem_cons hlt, set_append_right _ _ (Nat.le_refl _), Nat.sub_self,
        set_cons_zero, length_append, length_singleton, append_assoc]
      rfl
    rw [hset] at h₂
    obtain ⟨s'', hs'', h''⟩ := ih (h₂.setFanouts f') (by
      rw [length_append, length_singleton]
      omega) (fun k hk => hnew k (mem_cons_of_mem l hk))
    rw [length_append, length_singleton] at hs''
    rw [append_assoc] at h''
    refine ⟨s'', ?_, h''⟩
    simp only [relinkLoop, hread, hf, hs₂, hf', bind_eq_bind, bind_some]
    exact hs''

theorem relinkCell_eq {new : List Link} (hc : s.getCell i = some c)
    (hst : Stored s.entries es (c.links.drop InPlaceLinks))
    (hl : s.order.Visits (u ++ i :: es ++ v)) (hold : ∀ l ∈ c.links, l.idx < s.size)
    (hreach : InReach i es c.links.length) (hnew : ∀ l ∈ new, l.idx < s.size)
    (heq : new.length = c.links.length) : ∃ s', s.relinkCell i new = some s' ∧
    LinksSet s s' i c es new := by
  obtain ⟨hi, hentry⟩ := getCell_eq_some.mp hc
  have hstart : LinksSet s s i c es ([] ++ c.links.drop ([] : List Link).length) :=
    ⟨rfl, rfl, hentry, hst, fun _ _ _ => rfl⟩
  obtain ⟨s', hs', h⟩ := relinkLoop_eq hi hl hold hreach hstart (by simpa using heq) hnew
  refine ⟨s', ?_, h⟩
  simp only [relinkCell, hc, SubnetCell.arity, heq, bind_eq_bind, bind_some, ne_eq,
    not_true_eq_false, if_false]
  exact hs'

/-! ### The loop of the rearrangement -/

theorem relinkAll_eq {pos : EntryID → EntryID} {inv : EntryID → Bool} :
    ∀ {links : List Link} {r : Rearrangement},
    (∀ l ∈ links, r.relinkMapping l.idx = some (pos l.idx, inv l.idx) ∧
      ∃ c, r.newEntries[pos l.idx]? = some (.cell c)) →
    ∃ es, Rearrangement.relinkAll links r =
    some ({ r with newEntries := es }, links.map (Link.redirect pos inv)) ∧
      ∀ k : ℕ, es[k]? = r.newEntries[k]?.map
      (Entry.addRefs ((links.map (fun l => pos l.idx)).count k)) := by
  intro links
  induction links with
  | nil =>
    intro r _
    refine ⟨r.newEntries, rfl, fun k => ?_⟩
    cases r.newEntries[k]? with
    | none => rfl
    | some e => simp
  | cons l links ih =>
    intro r h
    obtain ⟨hmap, c, hc⟩ := h l (mem_cons_self ..)
    have hlt : pos l.idx < r.newEntries.length := (List.getElem?_eq_some_iff.mp hc).1
    have hset : ∀ k : ℕ, (r.newEntries.set (pos l.idx)
        (.cell { c with refcount := c.refcount + 1 }))[k]? =
        r.newEntries[k]?.map (Entry.addRefs (if k = pos l.idx then 1 else 0)) := by
      intro k
      rw [getElem?_set]
      by_cases hk : pos l.idx = k
      · rw [if_pos hk, if_pos hlt, ← hk, hc, if_pos rfl]
        rfl
      · rw [if_neg hk, if_neg (Ne.symm hk)]
        cases r.newEntries[k]? <;> simp
    have hrelink : r.relink l = some ({ r with
        newEntries := r.newEntries.set (pos l.idx) (.cell { c with refcount := c.refcount + 1 }) },
        l.redirect pos inv) := by
      have hsame : update r.relinkMapping l.idx (some (pos l.idx, inv l.idx)) =
          r.relinkMapping := by
        rw [← hmap]
        exact Function.update_eq_self _ _
      simp only [Rearrangement.relink, hmap, Option.getD_some, hc, bind_eq_bind, bind_some, hsame]
      rfl
    obtain ⟨es, hes, hrefs⟩ := ih (r := { r with
        newEntries := r.newEntries.set (pos l.idx) (.cell { c with refcount := c.refcount + 1 }) })
        (by
      intro k hk
      obtain ⟨hm, c', hc'⟩ := h k (mem_cons_of_mem l hk)
      refine ⟨hm, { c' with refcount := c'.refcount + if pos k.idx = pos l.idx then 1 else 0 }, ?_⟩
      rw [hset, hc']
      rfl)
    refine ⟨es, ?_, fun k => ?_⟩
    · simp only [Rearrangement.relinkAll, hrelink, hes, bind_eq_bind, bind_some, map_cons]
    · rw [hrefs, hset, Option.map_map, map_cons, count_cons]
      congr 1
      funext e
      rw [Function.comp_apply, Entry.addRefs_addRefs, Nat.add_comm]
      congr 2
      by_cases hk : k = pos l.idx
      · simp [hk]
      · simp [hk, Ne.symm hk]

theorem length_of_refs {es es' : List Entry} {f : ℕ → ℕ}
    (h : ∀ k : ℕ, es[k]? = es'[k]?.map (Entry.addRefs (f k))) : es.length = es'.length := by
  apply Nat.le_antisymm
  · have hnone := h es'.length
    rw [getElem?_eq_none (Nat.le_refl _)] at hnone
    exact getElem?_eq_none_iff.mp hnone
  · have hnone := h es.length
    rw [getElem?_eq_none (Nat.le_refl _)] at hnone
    exact getElem?_eq_none_iff.mp (Option.map_eq_none_iff.mp hnone.symm)

private theorem addCellEntry_eq {r : Rearrangement} {pos : EntryID → EntryID} {inv : EntryID → Bool}
    (hc : r.builder.getCell i = some c)
    (hst : Stored r.builder.entries es (c.links.drop InPlaceLinks))
    (hl : r.builder.order.Visits (u ++ i :: es ++ v)) (hreach : InReach i es c.links.length)
    (hlinks : ∀ l ∈ c.links, l.idx ≠ i ∧ l.idx < r.builder.size ∧ pos l.idx < r.builder.size ∧
      r.relinkMapping l.idx = some (pos l.idx, inv l.idx) ∧
      ∃ c', r.newEntries[pos l.idx]? = some (.cell c')) :
    ∃ b es', r.addCellEntry i =
    some ⟨b, es' ++ [.cell ⟨c.type, c.links.map (Link.redirect pos inv), 0⟩],
        update r.relinkMapping i (some (r.newEntries.length, false)),
        r.isLink + (max c.arity InPlaceLinks - InPlaceLinks)⟩ ∧
      LinksSet r.builder b i c es (c.links.map (Link.redirect pos inv)) ∧
      ∀ k : ℕ, es'[k]? = r.newEntries[k]?.map
        (Entry.addRefs ((c.links.map (fun l => pos l.idx)).count k)) := by
  obtain ⟨hi, -⟩ := getCell_eq_some.mp hc
  let r₁ : Rearrangement := ⟨r.builder, r.newEntries,
    update r.relinkMapping i (some (r.newEntries.length, false)),
    r.isLink + (max c.arity InPlaceLinks - InPlaceLinks)⟩
  have hmapped : ∀ l ∈ c.links, r₁.relinkMapping l.idx = some (pos l.idx, inv l.idx) ∧
      ∃ c', r₁.newEntries[pos l.idx]? = some (.cell c') := by
    intro l hlm
    obtain ⟨hne, -, -, hmap, hcell⟩ := hlinks l hlm
    exact ⟨(update_of_ne hne ..).trans hmap, hcell⟩
  obtain ⟨es', hes', hrefs⟩ := relinkAll_eq hmapped
  have hnew : ∀ l ∈ c.links.map (Link.redirect pos inv), l.idx < r.builder.size := by
    intro l hlm
    obtain ⟨k, hk, rfl⟩ := mem_map.mp hlm
    exact (hlinks k hk).2.2.1
  obtain ⟨b, hb, hset⟩ := relinkCell_eq hc hst hl (fun l hlm => (hlinks l hlm).2.1) hreach hnew
    (length_map _)
  have hbcell := hset.getCell hi
  refine ⟨b, es', ?_, hset, hrefs⟩
  simp only [Rearrangement.addCellEntry, Rearrangement.place, hc, getLinks_of_stored hc hst hl,
    bind_eq_bind, bind_some]
  rw [hes']
  simp only [bind_some, r₁, hb, hbcell]

/-- The entries of links behind a cell are taken over. -/
private theorem loop_links (deleteBufs : Bool) :
    ∀ (es : List EntryID) {u : List EntryID} {r : Rearrangement},
    r.builder.order.Visits (u ++ es ++ v) →
    es.length = (r.isLink + (InEntryLinks - 1)) / InEntryLinks →
    ∃ mapping, (∀ e ∉ es, mapping e = r.relinkMapping e) ∧
      (∀ (k : ℕ) e, es[k]? = some e → mapping e = some (r.newEntries.length + k, false)) ∧
      ∀ n, Rearrangement.loop deleteBufs (n + es.length) (after (es ++ v)) r =
        Rearrangement.loop deleteBufs n (after v)
        ⟨r.builder, r.newEntries ++ es.map r.builder.entries, mapping, 0⟩ := by
  intro es
  induction es with
  | nil =>
    intro u r _ hlen
    have hidle : r.isLink = 0 := by
      simp only [length_nil, InEntryLinks] at hlen
      omega
    refine ⟨r.relinkMapping, fun _ _ => rfl, fun k e he => by simp at he, fun n => ?_⟩
    rw [map_nil, append_nil, ← hidle]
    rfl
  | cons e es ih =>
    intro u r hl hlen
    simp only [length_cons, InEntryLinks] at hlen
    have hbusy : r.isLink ≠ 0 := by omega
    have hnext : r.builder.order.getNext (.entry e) = some (after (es ++ v)) :=
      hl.next (u := u) (by simp)
    have hnot : e ∉ es := by
      have hnd := hl.nodup
      rw [append_assoc, nodup_append] at hnd
      exact fun he => (nodup_cons.mp hnd.2.1).1 (mem_append_left v he)
    obtain ⟨mapping, hold, hnew, hloop⟩ := ih (u := u ++ [e]) (r := r.addLinkEntry e)
      (by simpa [Rearrangement.addLinkEntry, Rearrangement.place] using hl) (by
      simp only [Rearrangement.addLinkEntry, Rearrangement.place, InEntryLinks]
      omega)
    refine ⟨mapping, fun a ha => ?_, fun k a hk => ?_, fun n => ?_⟩
    · rw [mem_cons, not_or] at ha
      rw [hold a ha.2]
      exact update_of_ne ha.1 ..
    · cases k with
      | zero =>
        obtain rfl := some.inj hk
        rw [hold e hnot]
        exact update_self ..
      | succ k =>
        rw [hnew k a hk, Option.some.injEq, Prod.mk.injEq]
        simp only [Rearrangement.addLinkEntry, Rearrangement.place, length_append, length_singleton,
          and_true]
        omega
    · have hstep : r.step deleteBufs e = some (r.addLinkEntry e) := if_pos hbusy
      rw [length_cons, ← Nat.add_assoc, cons_append, after_cons, Rearrangement.loop, hstep]
      simp only [bind_eq_bind, bind_some]
      rw [show (r.addLinkEntry e).builder = r.builder from rfl, hnext, bind_some, hloop]
      simp only [Rearrangement.addLinkEntry, Rearrangement.place, map_cons, append_assoc,
        singleton_append]

theorem visit_cell {r : Rearrangement} (pos : EntryID → EntryID) (inv : EntryID → Bool)
    {deleteBufs : Bool} (hidle : r.isLink = 0) (hkeep : ¬ (deleteBufs = true ∧ c.isBuf = true))
    (hc : r.builder.getCell i = some c)
    (hst : Stored r.builder.entries es (c.links.drop InPlaceLinks))
    (hl : r.builder.order.Visits (u ++ i :: es ++ v)) (hreach : InReach i es c.links.length)
    (hlinks : ∀ l ∈ c.links, l.idx ≠ i ∧ l.idx < r.builder.size ∧ pos l.idx < r.builder.size ∧
      r.relinkMapping l.idx = some (pos l.idx, inv l.idx) ∧
      ∃ c', r.newEntries[pos l.idx]? = some (.cell c')) :
    ∃ b es' mapping, LinksSet r.builder b i c es (c.links.map (Link.redirect pos inv)) ∧
      (∀ k : ℕ, es'[k]? = r.newEntries[k]?.map
        (Entry.addRefs ((c.links.map (fun l => pos l.idx)).count k))) ∧
      (∀ e, e ∉ i :: es → mapping e = r.relinkMapping e) ∧
      (∀ (k : ℕ) e, (i :: es)[k]? = some e → mapping e = some (r.newEntries.length + k, false)) ∧
      ∀ n, Rearrangement.loop deleteBufs (n + (es.length + 1)) (.entry i) r =
        Rearrangement.loop deleteBufs n (after v)
        ⟨b, es' ++ .cell ⟨c.type, c.links.map (Link.redirect pos inv), 0⟩ ::
          es.map b.entries, mapping, 0⟩ := by
  obtain ⟨b, es', hadd, hset, hrefs⟩ := addCellEntry_eq hc hst hl hreach hlinks
  have hlen' := length_of_refs hrefs
  have hstep : r.step deleteBufs i = r.addCellEntry i := by
    rw [Rearrangement.step, if_neg (not_not.mpr hidle), hc]
    exact if_neg hkeep
  rw [hidle, Nat.zero_add] at hadd
  have hnot : i ∉ es := by
    have hnd := hl.nodup
    rw [append_assoc, nodup_append] at hnd
    exact fun hi => (nodup_cons.mp hnd.2.1).1 (mem_append_left v hi)
  have hcount : es.length = (max c.arity InPlaceLinks - InPlaceLinks + (InEntryLinks - 1)) /
      InEntryLinks := by
    rw [hst.length, length_drop, SubnetCell.arity]
    simp only [InPlaceLinks, InEntryLinks]
    omega
  have hnext : b.order.getNext (.entry i) = some (after (es ++ v)) := by
    rw [hset.order]
    exact hl.next (u := u) (by simp)
  obtain ⟨mapping, hold, hnew, hloop⟩ := loop_links deleteBufs es (v := v) (u := u ++ [i])
    (r := ⟨b, es' ++ [.cell ⟨c.type, c.links.map (Link.redirect pos inv), 0⟩],
      update r.relinkMapping i (some (r.newEntries.length, false)),
      max c.arity InPlaceLinks - InPlaceLinks⟩)
    (by rw [hset.order]; simpa using hl) hcount
  refine ⟨b, es', mapping, hset, hrefs, fun e he => ?_, fun k e he => ?_, fun n => ?_⟩
  · rw [mem_cons, not_or] at he
    rw [hold e he.2]
    exact update_of_ne he.1 ..
  · cases k with
    | zero =>
      obtain rfl := some.inj he
      rw [hold i hnot]
      exact update_self ..
    | succ k =>
      rw [hnew k e he, hlen'.symm]
      simp only [length_append, length_singleton, Option.some.injEq, Prod.mk.injEq, and_true]
      omega
  · rw [← Nat.add_assoc, Rearrangement.loop, hstep, hadd]
    simp only [bind_eq_bind, bind_some, hnext]
    rw [hloop]
    simp only [append_assoc, singleton_append]

structure Rearranged (s : SubnetBuilder) (pos : EntryID → EntryID) (ps : List EntryID)
    (r : Rearrangement) :
    Prop where
  order : r.builder.order = s.order
  counts : (r.builder.nIn, r.builder.nOut, r.builder.nCell, r.builder.nBuf) =
    (s.nIn, s.nOut, s.nCell, s.nBuf)
  rest : ∀ e, e ∉ ps.flatMap s.block → r.builder.entries e = s.entries e
  length : r.newEntries.length = (ps.flatMap s.block).length
  mapping : ∀ e ∈ ps.flatMap s.block, r.relinkMapping e = some (pos e, false)
  cells : ∀ i ∈ ps, ∀ c, s.liveCell i = some c → r.newEntries[pos i]? =
    some (.cell ⟨c.type, c.links.map (Link.rename pos), (ps.flatMap s.targets).count i⟩)
  links : ∀ i ∈ ps, ∀ e ∈ s.block i, e ≠ i → ∃ ls, r.newEntries[pos e]? = some (.links ls)
  isLink : r.isLink = 0

def position (s : SubnetBuilder) (cs : List EntryID) (e : EntryID) : EntryID :=
  (cs.flatMap s.block).idxOf e

private theorem Grown.position_lt (h : Grown s ins mid outs)
    (he : e ∈ (ins ++ mid ++ outs).flatMap s.block) : s.position (ins ++ mid ++ outs) e <
    s.size := by
  have hlists := h.lists
  have hsub : (ins ++ mid ++ outs).flatMap s.block ⊆ range s.size := fun i hi =>
    mem_range.mpr (hlists.lt i hi)
  have hle := (hlists.nodup.subperm hsub).length_le
  rw [length_range] at hle
  exact Nat.lt_of_lt_of_le (idxOf_lt_length_of_mem he) hle

private theorem Grown.at (h : Grown s ins mid outs) (hps : ins ++ mid ++ outs = ps ++ i :: rest)
    (hc : s.liveCell i = some c) :
    s.block i = i :: range' (i + 1) c.more ∧
      s.order.Lists (ps.flatMap s.block ++ i :: range' (i + 1) c.more ++
      rest.flatMap s.block) ∧ Stored s.entries (range' (i + 1) c.more)
      (c.links.drop InPlaceLinks) ∧ (∀ l ∈ c.links, l.idx ∈ ps ∧ (s.liveCell l.idx).isSome) ∧
      ∀ j ∈ ps, i ∉ s.targets j := by
  have hg := netlist_of_live hc
  have hwidth : (⟨c.type, c.links⟩ : Gate).width = c.more + 1 := rfl
  have hblock : s.block i = i :: range' (i + 1) c.more := by
    rw [block_of_netlist hg, hwidth]
    exact range'_succ
  refine ⟨hblock, ?_, h.stored i _ hg, fun l hl => ?_, fun j hj hij => ?_⟩
  · have hlists := h.lists
    rw [hps, flatMap_append, flatMap_cons, hblock] at hlists
    simpa using hlists
  · have hfan : s.netlist.Fanin i l.idx := ⟨_, hg, l, hl, rfl⟩
    refine ⟨h.fanin_before hps hfan, ?_⟩
    rw [← netlist_isSome]
    exact h.net.closed' i l.idx hfan
  · obtain ⟨A, B, rfl⟩ := append_of_mem hj
    have hnd := h.nodup
    rw [hps] at hnd
    obtain ⟨cj, hcj, hmem⟩ : ∃ cj, s.liveCell j = some cj ∧ i ∈ cj.links.map Link.idx := by
      cases hcj : s.liveCell j with
      | none => simp [targets, hcj] at hij
      | some cj => exact ⟨cj, rfl, by simpa [targets, hcj] using hij⟩
    obtain ⟨l, hl, hli⟩ := mem_map.mp hmem
    have hbefore := h.fanin_before (A := A) (B := B ++ i :: rest) (by simpa using hps)
      ⟨_, netlist_of_live hcj, l, hl, hli⟩
    exact (nodup_append.mp hnd).2.2 i (by simp [hbefore]) i (mem_cons_self ..) rfl

private theorem count_map_eq {f : EntryID → EntryID} {x : EntryID} {ys : List EntryID}
    (h : ∀ y ∈ ys, f y = f x → y = x) : (ys.map f).count (f x) = ys.count x := by
  rw [List.count, List.count, countP_map]
  apply countP_congr
  intro y hy
  simp only [Function.comp_apply, beq_iff_eq]
  exact ⟨h y hy, fun he => he ▸ rfl⟩

private theorem Grown.position_add (h : Grown s ins mid outs)
    (hps : ins ++ mid ++ outs = ps ++ i :: rest) (hc : s.liveCell i = some c) {k : ℕ}
    (hk : k ≤ c.more) : s.position (ins ++ mid ++ outs) (i + k) =
    (ps.flatMap s.block).length + k := by
  obtain ⟨hblock, hl, -⟩ := h.at hps hc
  have hall : (ins ++ mid ++ outs).flatMap s.block =
      ps.flatMap s.block ++ range' i (c.more + 1) ++ rest.flatMap s.block := by
    rw [hps, flatMap_append, flatMap_cons, hblock, append_assoc]
    rfl
  have hnd := hl.nodup
  rw [position, hall]
  have hlt : (ps.flatMap s.block).length + k <
      (ps.flatMap s.block ++ range' i (c.more + 1) ++ rest.flatMap s.block).length := by
    simp only [length_append, length_range']
    omega
  have hget : (ps.flatMap s.block ++ range' i (c.more + 1) ++
      rest.flatMap s.block)[(ps.flatMap s.block).length + k] = i + k := by
    rw [getElem_append_left (by simp only [length_append, length_range']; omega),
      getElem_append_right (Nat.le_add_right ..)]
    simp
  rw [← hget]
  exact List.Nodup.idxOf_getElem hnd _ hlt

private theorem Rearranged.extend {r : Rearrangement} (h : Grown s ins mid outs)
    (hps : ins ++ mid ++ outs = ps ++ i :: rest)
    (hr : Rearranged s (s.position (ins ++ mid ++ outs)) ps r)
    (hc : s.liveCell i = some c) {b : SubnetBuilder} {es more : List Entry} {mapping : EntryID →
      Option (EntryID × Bool)}
    (hset : LinksSet r.builder b i c (range' (i + 1) c.more)
      (c.links.map (Link.rename (s.position (ins ++ mid ++ outs)))))
    (hrefs : ∀ k : ℕ, es[k]? = r.newEntries[k]?.map
      (Entry.addRefs ((c.links.map (fun l => s.position (ins ++ mid ++ outs) l.idx)).count k)))
    (hmore : more = (range' (i + 1) c.more).map b.entries)
    (hold : ∀ e ∈ ps.flatMap s.block, mapping e = r.relinkMapping e)
    (hnew : ∀ k ≤ c.more, mapping (i + k) = some (r.newEntries.length + k, false)) :
    Rearranged s (s.position (ins ++ mid ++ outs)) (ps ++ [i]) ⟨b,
      es ++ .cell ⟨c.type, c.links.map (Link.rename (s.position (ins ++ mid ++ outs))), 0⟩ :: more,
      mapping, 0⟩ := by
  obtain ⟨hblock, hl, -, hlinks, hbefore⟩ := h.at hps hc
  have hnd := h.nodup
  rw [hps] at hnd
  have hi : i ∉ ps := fun hmem => (nodup_append.mp hnd).2.2 i hmem i (mem_cons_self ..) rfl
  have hflat : (ps ++ [i]).flatMap s.block = ps.flatMap s.block ++ i ::
      range' (i + 1) c.more := by
    rw [flatMap_append, flatMap_singleton, hblock]
  have hlen := length_of_refs hrefs
  have hpos : ∀ k ≤ c.more, s.position (ins ++ mid ++ outs) (i + k) = es.length + k :=
    fun k hk => by
    rw [h.position_add hps hc hk, hlen, hr.length]
  refine ⟨hset.order.trans hr.order, hset.counts.trans hr.counts, fun e he => ?_, ?_,
    fun e he => ?_, fun j hj cj hcj => ?_, fun j hj e he hne => ?_, rfl⟩
  · rw [hflat, mem_append, mem_cons, not_or, not_or] at he
    exact (hset.other e he.2.1 he.2.2).trans (hr.rest e he.1)
  · rw [hflat, length_append, length_append, length_cons, length_cons, hmore, length_map,
      hlen, hr.length]
  · rw [hflat, mem_append] at he
    rcases he with he | he
    · exact (hold e he).trans (hr.mapping e he)
    · have hk : ∃ k ≤ c.more, e = i + k := by
        rcases mem_cons.mp he with rfl | he
        · exact ⟨0, Nat.zero_le _, rfl⟩
        · obtain ⟨hle, hlt⟩ := mem_range'_1.mp he
          obtain ⟨k, rfl⟩ := Nat.exists_eq_add_of_le hle
          exact ⟨1 + k, by omega, Nat.add_assoc ..⟩
      obtain ⟨k, hk, rfl⟩ := hk
      exact (hnew k hk).trans (by rw [hpos k hk, hlen])
  · have hcount : ((ps ++ [i]).flatMap s.targets).count j =
        (ps.flatMap s.targets).count j + (s.targets i).count j := by
      rw [flatMap_append, flatMap_singleton, count_append]
    have htargets : s.targets i = c.links.map Link.idx := by simp [targets, hc]
    rcases mem_append.mp hj with hj | hj
    · have hcell := hr.cells j hj cj hcj
      have hsome : es[s.position (ins ++ mid ++ outs) j]? = some (.cell ⟨cj.type,
          cj.links.map (Link.rename (s.position (ins ++ mid ++ outs))),
          ((ps ++ [i]).flatMap s.targets).count j⟩) := by
        have hinj : ∀ y ∈ c.links.map Link.idx,
            s.position (ins ++ mid ++ outs) y = s.position (ins ++ mid ++ outs) j → y = j := by
          intro y hy
          obtain ⟨l, hlm, rfl⟩ := mem_map.mp hy
          have hmem : l.idx ∈ (ins ++ mid ++ outs).flatMap s.block := by
            rw [hps, flatMap_append]
            exact mem_append_left _ (mem_flatMap.mpr ⟨_, (hlinks l hlm).1, mem_block_self⟩)
          exact (idxOf_inj hmem).mp
        have hrefs' := count_map_eq hinj
        rw [map_map] at hrefs'
        rw [hrefs, hcell, map_some, Entry.addRefs, hcount, htargets, ← hrefs']
        rfl
      exact (getElem?_append_left (List.getElem?_eq_some_iff.mp hsome).1).trans hsome
    · obtain rfl := mem_singleton.mp hj
      obtain rfl := some.inj (hc.symm.trans hcj)
      have hself : (s.targets j).count j = 0 := by
        rw [count_eq_zero, htargets]
        intro hmem
        obtain ⟨l, hlm, hlj⟩ := mem_map.mp hmem
        exact hi (hlj ▸ (hlinks l hlm).1)
      have hothers : (ps.flatMap s.targets).count j = 0 := by
        rw [count_eq_zero]
        intro hmem
        obtain ⟨k, hk, hkj⟩ := mem_flatMap.mp hmem
        exact hbefore k hk hkj
      have hzero := hpos 0 (Nat.zero_le _)
      rw [Nat.add_zero, Nat.add_zero] at hzero
      rw [hcount, hself, hothers, hzero, getElem?_append_right (Nat.le_refl _), Nat.sub_self]
      rfl
  · rcases mem_append.mp hj with hj | hj
    · obtain ⟨ls, hls⟩ := hr.links j hj e he hne
      have hsome : es[s.position (ins ++ mid ++ outs) e]? = some (.links ls) := by
        rw [hrefs, hls]
        rfl
      exact ⟨ls, (getElem?_append_left (List.getElem?_eq_some_iff.mp hsome).1).trans hsome⟩
    · obtain rfl := mem_singleton.mp hj
      rw [hblock] at he
      have hmem := (mem_cons.mp he).resolve_left hne
      obtain ⟨ls, hls⟩ := hset.more.mem e hmem
      obtain ⟨hle, hlt⟩ := mem_range'_1.mp hmem
      obtain ⟨k, rfl⟩ := Nat.exists_eq_add_of_le hle
      have hk : k < c.more := by omega
      refine ⟨ls, ?_⟩
      rw [Nat.add_assoc, hpos (1 + k) (by omega), getElem?_append_right (Nat.le_add_right ..),
        Nat.add_sub_cancel_left, Nat.add_comm 1 k, getElem?_cons_succ, hmore, getElem?_map,
        getElem?_range' hk, Nat.one_mul]
      exact congrArg some hls

private theorem Rearranged.visit {r : Rearrangement} (h : Grown s ins mid outs)
    (hps : ins ++ mid ++ outs = ps ++ i :: rest)
    (hr : Rearranged s (s.position (ins ++ mid ++ outs)) ps r) (hc : s.liveCell i = some c) :
    ∃ r', Rearranged s (s.position (ins ++ mid ++ outs)) (ps ++ [i]) r' ∧ ∀ n,
      Rearrangement.loop false (n + (c.more + 1)) (.entry i) r =
        Rearrangement.loop false n (after (rest.flatMap s.block)) r' := by
  obtain ⟨hblock, hl, hst, hlinks, -⟩ := h.at hps hc
  have hnd := hl.nodup
  rw [append_assoc] at hnd
  have happart : ∀ e ∈ ps.flatMap s.block, e ∉ i :: range' (i + 1) c.more := fun e he hmem =>
    (nodup_append.mp hnd).2.2 e he e (mem_append_left _ hmem) rfl
  have hsize : r.builder.size = s.size := congrArg EntryOrder.size hr.order
  have hout : ∀ e ∈ i :: range' (i + 1) c.more, r.builder.entries e = s.entries e :=
    fun e he =>
    hr.rest e (fun hmem => happart e hmem he)
  have hcell : r.builder.getCell i = some c := by
    obtain ⟨hi, hentry⟩ := getCell_eq_some.mp (getCell_of_live hc)
    exact getCell_eq_some.mpr ⟨hsize ▸ hi, (hout i (mem_cons_self ..)).trans hentry⟩
  have hstored : Stored r.builder.entries (range' (i + 1) c.more)
      (c.links.drop InPlaceLinks) :=
    hst.congr (fun e he ls hls => (hout e (mem_cons_of_mem i he)).trans hls)
  have hmem : ∀ l ∈ c.links, l.idx ∈ ps.flatMap s.block := fun l hlm =>
    mem_flatMap.mpr ⟨l.idx, (hlinks l hlm).1, mem_block_self⟩
  have hprepared : ∀ l ∈ c.links, l.idx ≠ i ∧ l.idx < r.builder.size ∧
      s.position (ins ++ mid ++ outs) l.idx < r.builder.size ∧
      r.relinkMapping l.idx = some (s.position (ins ++ mid ++ outs) l.idx, (fun _ => false) l.idx) ∧
      ∃ c', r.newEntries[s.position (ins ++ mid ++ outs) l.idx]? = some (.cell c') := by
    intro l hlm
    obtain ⟨hps', hlive⟩ := hlinks l hlm
    obtain ⟨c', hc'⟩ := isSome_iff_exists.mp hlive
    have hlt : s.position (ins ++ mid ++ outs) l.idx < s.size := by
      apply h.position_lt
      rw [hps, flatMap_append]
      exact mem_append_left _ (hmem l hlm)
    exact ⟨fun hli => happart _ (hmem l hlm) (hli ▸ mem_cons_self ..), hsize ▸ lt_of_live hc',
      hsize ▸ hlt, hr.mapping _ (hmem l hlm), _, hr.cells _ hps' _ hc'⟩
  obtain ⟨b, es, mapping, hset, hrefs, hold, hnew, hloop⟩ :=
    visit_cell (s.position (ins ++ mid ++ outs))
      (fun _ => false) hr.isLink (show ¬ (false = true ∧ c.isBuf = true) by simp)
      hcell hstored (hr.order ▸ hl.visits) inReach_range' hprepared
  rw [Link.redirect_of_plain] at hset hloop
  refine ⟨_, hr.extend h hps hc hset hrefs rfl (fun e he => hold e (happart e he)) (fun k hk => ?_),
    fun n => ?_⟩
  · apply hnew k
    rw [← range'_succ, getElem?_range' (Nat.lt_succ_of_le hk), Nat.one_mul]
  · rw [← hloop n, length_range']

private theorem Rearranged.loop_eq (h : Grown s ins mid outs) :
    ∀ {rest ps : List EntryID} {r : Rearrangement} {n : ℕ}, ins ++ mid ++ outs = ps ++ rest →
      Rearranged s (s.position (ins ++ mid ++ outs)) ps r → (rest.flatMap s.block).length ≤ n →
      ∃ r', Rearrangement.loop false n (after (rest.flatMap s.block)) r = some r' ∧
        Rearranged s (s.position (ins ++ mid ++ outs)) (ins ++ mid ++ outs) r' := by
  intro rest
  induction rest with
  | nil =>
    intro ps r n hps hr _
    rw [append_nil] at hps
    rw [← hps] at hr
    exact ⟨r, by cases n <;> rfl, hr⟩
  | cons i rest ih =>
    intro ps r n hps hr hn
    have hlive : (s.liveCell i).isSome := by
      rw [← netlist_isSome, ← h.mem, hps]
      simp
    obtain ⟨c, hc⟩ := isSome_iff_exists.mp hlive
    obtain ⟨hblock, -⟩ := h.at hps hc
    obtain ⟨r', hr', hloop⟩ := hr.visit h hps hc
    rw [flatMap_cons, hblock, length_append, length_cons, length_range'] at hn
    obtain ⟨m, rfl⟩ := Nat.exists_eq_add_of_le' (Nat.le_trans (Nat.le_add_right ..) hn)
    obtain ⟨r'', hr'', h''⟩ :=
      ih (n := m) (show _ = ps ++ [i] ++ rest by simpa using hps) hr' (by omega)
    refine ⟨r'', ?_, h''⟩
    rw [flatMap_cons, hblock, cons_append, after_cons, hloop]
    exact hr''

/-! ### Making a subnet -/

structure Arrayed (s : SubnetBuilder) (pos : EntryID → EntryID) (s' : SubnetBuilder) : Prop where
  counts : (s'.nIn, s'.nOut, s'.nCell, s'.nBuf) = (s.nIn, s.nOut, s.nCell, s.nBuf)
  size : s'.size = s.size
  cells : ∀ i c, s.liveCell i = some c →
    s'.getCell (pos i) = some ⟨c.type, c.links.map (Link.rename pos), c.refcount⟩
  only : ∀ k c, s'.getCell k = some c → ∃ i, (s.liveCell i).isSome ∧ pos i = k

private theorem Grown.count_targets (h : Grown s ins mid outs) (hc : s.liveCell i = some c) :
    ((ins ++ mid ++ outs).flatMap s.targets).count i = c.refcount := by
  have hsub : (ins ++ mid ++ outs).toFinset ⊆ Finset.range s.size := by
    intro j hj
    obtain ⟨g, hg⟩ := isSome_iff_exists.mp ((h.mem j).mp (mem_toFinset.mp hj))
    exact Finset.mem_range.mpr (lt_of_netlist hg)
  rw [h.net.refcount i c hc, Incidence.card_users, count_flatMap, ← sum_toFinset _ h.nodup]
  apply Finset.sum_subset hsub
  intro j _ hj
  have hdead : s.liveCell j = none := by
    rw [← Option.not_isSome_iff_eq_none, ← netlist_isSome, ← h.mem]
    exact fun hmem => hj (mem_toFinset.mpr hmem)
  simp [targets, hdead]

theorem Grown.length_flatMap (h : Grown s ins mid outs) :
    ((ins ++ mid ++ outs).flatMap s.block).length = s.size := by
  have hlists := h.lists
  have hperm : ((ins ++ mid ++ outs).flatMap s.block).Perm (range s.size) := by
    rw [perm_ext_iff_of_nodup hlists.nodup nodup_range]
    intro j
    rw [mem_range]
    refine ⟨fun hj => hlists.lt j hj, fun hj => ?_⟩
    obtain ⟨i, hi, hmem⟩ := h.cover j hj
    exact mem_flatMap.mpr ⟨i, (h.mem i).mpr hi, hmem⟩
  rw [hperm.length_eq, length_range]

theorem Rearrangement.getCell_finished (r : Rearrangement) (k : ℕ) (c : SubnetCell) :
    (({ r.builder with
      entries := fun i => r.newEntries.getD i (.links [])
      order := { size := r.newEntries.length } } : SubnetBuilder).clearContext).getCell k = some c ↔
      r.newEntries[k]? = some (.cell c) := by
  rw [getCell_eq_some]
  change k < r.newEntries.length ∧ r.newEntries.getD k (.links []) = _ ↔ _
  rw [getD_eq_getElem?_getD, List.getElem?_eq_some_iff]
  constructor
  · intro ⟨hk, hc⟩
    rw [getElem?_eq_getElem hk] at hc
    exact ⟨hk, hc⟩
  · intro ⟨hk, hc⟩
    rw [getElem?_eq_getElem hk]
    exact ⟨hk, hc⟩

private theorem Grown.rearrangeEntries (h : Grown s ins mid outs) (hne : s.size ≠ 0) :
    ∃ s', s.rearrangeEntries false = some s' ∧ Arrayed s (s.position (ins ++ mid ++ outs)) s' := by
  have hstart : Rearranged s (s.position (ins ++ mid ++ outs)) [] ⟨s, [], fun _ => none, 0⟩ :=
    ⟨rfl, rfl, fun _ _ => rfl, rfl, fun _ he => absurd he not_mem_nil,
      fun _ hi => absurd hi not_mem_nil, fun _ hi => absurd hi not_mem_nil, rfl⟩
  have hlists := h.lists
  have hlen := h.length_flatMap
  obtain ⟨r, hr, hdone⟩ := hstart.loop_eq h (nil_append _).symm (Nat.le_of_eq hlen)
  have hbegin : s.order.getSubnetBegin = after ((ins ++ mid ++ outs).flatMap s.block) := by
    rw [hlists.getSubnetBegin, if_neg]
    intro hnil
    rw [hnil] at hlen
    exact hne hlen.symm
  let s' : SubnetBuilder := ({ r.builder with
    entries := fun i => r.newEntries.getD i (.links [])
    order := { size := r.newEntries.length } } : SubnetBuilder).clearContext
  have hsize : s'.size = r.newEntries.length := rfl
  have hget : ∀ (k : ℕ) c, s'.getCell k = some c ↔ r.newEntries[k]? = some (.cell c) :=
    fun k c => r.getCell_finished k c
  have hcounts := hdone.counts
  refine ⟨s', ?_, hcounts, by rw [hsize, hdone.length, hlen], fun i c hc => ?_, fun k c hk => ?_⟩
  · rw [SubnetBuilder.rearrangeEntries, hbegin, hr]
    rfl
  · have hmem : i ∈ ins ++ mid ++ outs := by
      rw [h.mem, netlist_isSome, hc]
      rfl
    have hcell := hdone.cells i hmem c hc
    rw [h.count_targets hc] at hcell
    exact (hget _ _).mpr hcell
  · rw [hget] at hk
    have hlt : k < ((ins ++ mid ++ outs).flatMap s.block).length := by
      rw [← hdone.length]
      exact (List.getElem?_eq_some_iff.mp hk).1
    have hpos := List.Nodup.idxOf_getElem hlists.nodup k hlt
    obtain ⟨i, hi, he⟩ := mem_flatMap.mp (getElem_mem hlt)
    refine ⟨i, by rw [← netlist_isSome, ← h.mem]; exact hi, ?_⟩
    by_cases hei : ((ins ++ mid ++ outs).flatMap s.block)[k] = i
    · rw [position, ← hei, hpos]
    · obtain ⟨ls, hls⟩ := hdone.links i hi _ he hei
      rw [position, hpos, hk] at hls
      cases hls

theorem eq_range'_of_isChain {l : List EntryID} (h : l.IsChain (fun a b => b = a + 1)) :
    ∃ a, l = range' a l.length := by
  induction l with
  | nil => exact ⟨0, rfl⟩
  | cons a l ih =>
    obtain ⟨b, hb⟩ := ih h.tail
    refine ⟨a, ?_⟩
    rw [length_cons, range'_succ]
    cases l with
    | nil => rfl
    | cons a' l =>
      rw [length_cons, range'_succ] at hb
      obtain ⟨rfl, -⟩ := cons_eq_cons.mp hb
      obtain rfl := (isChain_cons_cons.mp h).1
      rw [length_cons, range'_succ]
      exact congrArg (a :: ·) hb

private theorem Grown.flatMap_eq_range (h : Grown s ins mid outs)
    (hd : s.order.isDisassembled = false) : (ins ++ mid ++ outs).flatMap s.block =
    range s.size := by
  have hlists := h.lists
  have hlen := h.length_flatMap
  have hchain : ((ins ++ mid ++ outs).flatMap s.block).IsChain (fun a b => b = a + 1) := by
    apply List.IsChain.imp _ hlists.linked
    intro a b hab
    have hnext := hab.1
    rw [nextID, h.assembled hd a] at hnext
    exact (some.inj hnext).symm
  obtain ⟨a, ha⟩ := eq_range'_of_isChain hchain
  rw [hlen] at ha
  rw [ha, range_eq_range']
  rcases Nat.eq_zero_or_pos s.size with hzero | hpos
  · rw [hzero]
    rfl
  · obtain ⟨i, hi, hmem⟩ := h.cover 0 hpos
    have hfirst : 0 ∈ range' a s.size := ha ▸ mem_flatMap.mpr ⟨i, (h.mem i).mpr hi, hmem⟩
    rw [Nat.le_zero.mp (mem_range'_1.mp hfirst).1]

private theorem Grown.arrayed_self (h : Grown s ins mid outs)
    (hd : s.order.isDisassembled = false) : Arrayed s (s.position (ins ++ mid ++ outs)) s := by
  have hpos : ∀ i < s.size, s.position (ins ++ mid ++ outs) i = i := by
    intro i hi
    rw [position, h.flatMap_eq_range hd]
    have hlt : i < (range s.size).length := by rwa [length_range]
    have hidx := List.Nodup.idxOf_getElem nodup_range i hlt
    rwa [getElem_range] at hidx
  refine ⟨rfl, rfl, fun i c hc => ?_, fun k c hk => ?_⟩
  · have hlinks : c.links.map (Link.rename (s.position (ins ++ mid ++ outs))) = c.links := by
      conv_rhs => rw [← map_id c.links]
      apply map_congr_left
      intro l hl
      obtain ⟨g, hg, -⟩ := h.net.closed ⟨_, netlist_of_live hc, l, hl, rfl⟩
      rw [Link.rename, hpos l.idx (lt_of_netlist hg), id_eq]
    rw [hpos i (lt_of_live hc), hlinks]
    exact getCell_of_live hc
  · have hlive : s.liveCell k = some c := by
      rw [liveCell_eq_some, h.kept]
      exact ⟨not_mem_nil, getCell_eq_some.mp hk⟩
    exact ⟨k, by rw [hlive]; rfl, hpos k (lt_of_live hlive)⟩

structure Made (s : SubnetBuilder) (pos : EntryID → EntryID) (S : Subnet) : Prop where
  counts : (S.nIn, S.nOut, S.nCell, S.nBuf) = (s.nIn, s.nOut, s.nCell, s.nBuf)
  size : S.size = s.size
  cells : ∀ i c, s.liveCell i = some c →
    S.getCell (pos i) = some ⟨c.type, c.links.map (Link.rename pos), c.refcount⟩
  only : ∀ k c, S.getCell k = some c → ∃ i, (s.liveCell i).isSome ∧ pos i = k

theorem size_takeEntries : s.takeEntries.size = s.size := by
  rw [Subnet.size, takeEntries, length_map, length_range]

theorem getCell_takeEntries (k : EntryID) : s.takeEntries.getCell k = s.getCell k := by
  rw [Subnet.getCell, takeEntries, SubnetBuilder.getCell, getElem?_map]
  by_cases hk : k < s.size
  · rw [getElem?_range hk, if_pos hk]
    rw [map_some]
    cases s.entries k <;> rfl
  · rw [getElem?_eq_none (by rw [length_range]; exact Nat.not_lt.mp hk), if_neg hk]
    rfl

private theorem Arrayed.made {pos : EntryID → EntryID} (h : Arrayed s pos s') :
    Made s pos s'.takeEntries := by
  refine ⟨h.counts, ?_, fun i c hc => ?_, fun k c hk => ?_⟩
  · rw [← h.size, size_takeEntries]
  · rw [getCell_takeEntries]
    exact h.cells i c hc
  · rw [getCell_takeEntries] at hk
    exact h.only k c hk

theorem checkCells_eq {p : SubnetCell → Bool} {last : ℕ} : ∀ {n : ℕ} {i : EntryID},
    (∀ k, i ≤ k → k < last → ∃ c, s.getCell k = some c ∧ p c = true ∧ c.more = 0) → last ≤ i + n →
    s.checkCells p last n i = some true := by
  intro n
  induction n with
  | zero =>
    intro i _ hn
    rw [checkCells, if_neg (Nat.not_lt.mpr (Nat.add_zero i ▸ hn))]
  | succ n ih =>
    intro i h hn
    rw [checkCells]
    by_cases hi : i < last
    · obtain ⟨c, hc, hp, hmore⟩ := h i (Nat.le_refl i) hi
      rw [if_pos hi, hc]
      simp only [bind_eq_bind, bind_some, hp, if_true, hmore, Nat.add_zero]
      exact ih (fun k hk => h k (Nat.le_of_succ_le hk)) (by rw [Nat.succ_add]; exact hn)
    · rw [if_neg hi]

theorem Grown.position_input (h : Grown s ins mid outs) {k : ℕ} (hk : ins[k]? = some i) :
    s.position (ins ++ mid ++ outs) i = k := by
  obtain ⟨hlt, hget⟩ := List.getElem?_eq_some_iff.mp hk
  have hnd := h.lists.nodup
  rw [h.flatMap_block, append_assoc] at hnd
  rw [position, h.flatMap_block, append_assoc]
  have hlt' : k < (ins ++ (mid.flatMap s.block ++ outs)).length := by
    rw [length_append]
    exact Nat.lt_add_right _ hlt
  have hidx := List.Nodup.idxOf_getElem hnd k hlt'
  rwa [getElem_append_left hlt, hget] at hidx

theorem Grown.position_output (h : Grown s ins mid outs) {k : ℕ} (hk : outs[k]? = some i) :
    s.position (ins ++ mid ++ outs) i = s.size - outs.length + k := by
  obtain ⟨hlt, hget⟩ := List.getElem?_eq_some_iff.mp hk
  have hlen := h.length_flatMap
  have hnd := h.lists.nodup
  rw [h.flatMap_block] at hnd hlen
  rw [position, h.flatMap_block]
  have hsplit : (ins ++ mid.flatMap s.block ++ outs).length =
      (ins ++ mid.flatMap s.block).length + outs.length :=
    length_append
  have hsize : s.size - outs.length = (ins ++ mid.flatMap s.block).length := by
    rw [← hlen, hsplit, Nat.add_sub_cancel]
  have hlt' : (ins ++ mid.flatMap s.block).length + k <
      (ins ++ mid.flatMap s.block ++ outs).length := by
    rw [hsplit]
    exact Nat.add_lt_add_left hlt _
  have hidx := List.Nodup.idxOf_getElem hnd _ hlt'
  rw [getElem_append_right (Nat.le_add_right ..)] at hidx
  simp only [Nat.add_sub_cancel_left, hget] at hidx
  rw [hsize]
  exact hidx

theorem Grown.position_fanin (h : Grown s ins mid outs) (hij : s.netlist.Fanin i j) :
    s.position (ins ++ mid ++ outs) j < s.position (ins ++ mid ++ outs) i := by
  obtain ⟨g, hg⟩ : ∃ g, s.netlist i = some g := hij.imp (fun g hg => hg.1)
  obtain ⟨c, hc, -⟩ := liveCell_of_netlist hg
  obtain ⟨ps, rest, hps⟩ := append_of_mem ((h.mem i).mpr (by rw [hg]; rfl))
  have hj := h.fanin_before hps hij
  have hi := h.position_add hps hc (Nat.zero_le _)
  rw [Nat.add_zero, Nat.add_zero] at hi
  rw [hi, position, hps, flatMap_append, idxOf_append_of_mem]
  · exact idxOf_lt_length_of_mem (mem_flatMap.mpr ⟨j, hj, mem_block_self⟩)
  · exact mem_flatMap.mpr ⟨j, hj, mem_block_self⟩

/-- `make` succeeds for a growing builder with outputs. -/
theorem Grown.make_eq (h : Grown s ins mid outs) (hin : s.nIn = ins.length)
    (hout : s.nOut = outs.length) (hpos : 0 < s.nOut) : ∃ S, s.make = some S ∧
    Made s (s.position (ins ++ mid ++ outs)) S := by
  have hlen := h.length_flatMap
  have hne : s.size ≠ 0 := by
    rw [← hlen, h.flatMap_block, length_append, ← hout]
    exact Nat.ne_of_gt (Nat.lt_of_lt_of_le hpos (Nat.le_add_left ..))
  have harrayed : ∃ s', (if s.order.isDisassembled ∨ false then s.rearrangeEntries false else
      some s) = some s' ∧ Arrayed s (s.position (ins ++ mid ++ outs)) s' := by
    cases hd : s.order.isDisassembled with
    | false => exact ⟨s, rfl, h.arrayed_self hd⟩
    | true => exact h.rearrangeEntries hne
  obtain ⟨s', hs', harr⟩ := harrayed
  have hcounts := harr.counts
  simp only [Prod.mk.injEq] at hcounts
  have hinputs : s'.checkInputsOrder = some true := by
    apply checkCells_eq _ (Nat.le_add_left ..)
    intro k _ hk
    rw [hcounts.1, hin] at hk
    obtain ⟨g, hg⟩ := isSome_iff_exists.mp ((h.mem ins[k]).mp (by simp))
    obtain ⟨c, hc, ht, hl⟩ := liveCell_of_netlist hg
    have htype := (h.input _ g hg).mpr (getElem_mem hk)
    have hcell := harr.cells _ c hc
    rw [h.position_input (getElem?_eq_getElem hk)] at hcell
    refine ⟨_, hcell, by simp [SubnetCell.isIn, ht, htype], ?_⟩
    simp [SubnetCell.more, SubnetCell.arity, hl, h.noLinks _ g hg htype, InPlaceLinks, InEntryLinks]
  have houtputs : s'.checkOutputsOrder = some true := by
    apply checkCells_eq
    · intro k hk hlt
      rw [hcounts.2.1, harr.size, hout] at hk
      rw [harr.size] at hlt
      obtain ⟨m, rfl⟩ := Nat.exists_eq_add_of_le hk
      have hle : outs.length ≤ s.size := by
        rw [← hlen, h.flatMap_block, length_append]
        exact Nat.le_add_left ..
      have hm : m < outs.length :=
        Nat.lt_of_add_lt_add_left (Nat.lt_of_lt_of_eq hlt (Nat.sub_add_cancel hle).symm)
      obtain ⟨g, hg⟩ := isSome_iff_exists.mp ((h.mem outs[m]).mp (by simp))
      obtain ⟨c, hc, ht, hl⟩ := liveCell_of_netlist hg
      have htype := (h.output _ g hg).mpr (getElem_mem hm)
      have hcell := harr.cells _ c hc
      rw [h.position_output (getElem?_eq_getElem hm)] at hcell
      refine ⟨_, hcell, by simp [SubnetCell.isOut, ht, htype], ?_⟩
      simp [SubnetCell.more, SubnetCell.arity, hl, h.outLink _ g hg htype, InPlaceLinks,
        InEntryLinks]
    · exact Nat.le_add_of_sub_le (Nat.le_refl _)
  refine ⟨s'.takeEntries, ?_, harr.made⟩
  rw [SubnetBuilder.make, if_neg (not_or.mpr ⟨Nat.ne_of_gt hpos, hne⟩), hs']
  simp only [bind_eq_bind, bind_some, hinputs, houtputs, and_self, if_true]

theorem Made.exists_values {S : Subnet} (h : Grown s ins mid outs)
    (hS : Made s (s.position (ins ++ mid ++ outs)) S) (lib : CellLibrary) (x : EntryID → Bool) :
    ∃ ρ, s.netlist.Solves lib (fun i => x (s.position (ins ++ mid ++ outs) i)) ρ ∧
      ∀ i, (s.netlist i).isSome → ∀ out, S.value lib x (s.position (ins ++ mid ++ outs) i) out =
      some (ρ i out) := by
  let pos := s.position (ins ++ mid ++ outs)
  have hgate : ∀ i c, s.liveCell i = some c →
      S.netlist (pos i) = some ⟨c.type, c.links.map (Link.rename pos)⟩ := by
    intro i c hc
    rw [Subnet.netlist, hS.cells i c hc]
    rfl
  have hcell : ∀ k, (S.netlist k).isSome → ∃ i c, s.liveCell i = some c ∧ pos i = k := by
    intro k hk
    obtain ⟨g, hg⟩ := isSome_iff_exists.mp hk
    obtain ⟨c, hc, -⟩ := Option.map_eq_some_iff.mp hg
    obtain ⟨i, hi, hpos⟩ := hS.only k c hc
    obtain ⟨c', hc'⟩ := isSome_iff_exists.mp hi
    exact ⟨i, c', hc', hpos⟩
  have hfan : ∀ k j, S.netlist.Fanin k j → j < k ∧ (S.netlist j).isSome := by
    rintro k j ⟨g, hg, l, hl, rfl⟩
    obtain ⟨i, c, hc, rfl⟩ := hcell k (by rw [hg]; rfl)
    rw [hgate i c hc] at hg
    cases hg
    obtain ⟨l', hl', rfl⟩ := mem_map.mp hl
    have hij : s.netlist.Fanin i l'.idx := ⟨_, netlist_of_live hc, l', hl', rfl⟩
    obtain ⟨g', hg', -⟩ := h.net.closed hij
    obtain ⟨c', hc', -⟩ := liveCell_of_netlist hg'
    refine ⟨h.position_fanin hij, ?_⟩
    rw [Link.rename, hgate _ c' hc']
    rfl
  have hacyclic : S.netlist.Acyclic := ⟨id, fun k j hkj => (hfan k j hkj).1⟩
  obtain ⟨σ, hσ⟩ := hacyclic.exists_solves lib x
  refine ⟨fun i => σ (pos i), fun i g hg => ?_, fun i hi out => ?_⟩
  · obtain ⟨c, hc, ht, hl⟩ := liveCell_of_netlist hg
    funext out
    have heq := congrFun (hσ (pos i) _ (hgate i c hc)) out
    rw [Netlist.gateValue, map_map] at heq
    rw [Netlist.gateValue, ← ht, ← hl]
    exact heq
  · obtain ⟨g, hg⟩ := isSome_iff_exists.mp hi
    obtain ⟨c, hc, -⟩ := liveCell_of_netlist hg
    refine Netlist.value_eq hacyclic (fun k j hkj => (hfan k j hkj).2) (fun k hk => ?_) hσ ?_ out
    · obtain ⟨g, hg⟩ := isSome_iff_exists.mp hk
      obtain ⟨c, hc, -⟩ := Option.map_eq_some_iff.mp hg
      exact Subnet.lt_of_getCell hc
    · rw [hgate i c hc]
      rfl

end SubnetBuilder

end UtopiaEda
