import UtopiaEda.EntryRearrangement
import UtopiaEda.OrderedBuilders

/-!
# Making a subnet without buffers

`make` with buffers deleted leads the users of a buffer to the cell in front of it and inverts their
links as often as the buffers on the way do. The port of the user's link is kept and that of the
buffer's link is lost. The cells that stay get the positions they have among themselves.
-/
namespace UtopiaEda
open List
open Option (bind_eq_bind bind_some isSome_iff_exists map_eq_some_iff map_some some.inj)

def SubnetBuilder.Rearrangement.dst (r : SubnetBuilder.Rearrangement) (e : EntryID) : EntryID :=
  ((r.relinkMapping e).getD (0, false)).1

/-- Whether it inverts them. -/
def SubnetBuilder.Rearrangement.neg (r : SubnetBuilder.Rearrangement) (e : EntryID) : Bool :=
  ((r.relinkMapping e).getD (0, false)).2

/-- What a network computes: the number of its inputs and the values of its outputs for the values
of the inputs. -/
abbrev NetFunction := ℕ × ((ℕ → Bool) → List (Option Bool))

def Subnet.netFunction (lib : CellLibrary) (S : Subnet) : NetFunction :=
  (S.nIn, fun x => (range S.nOut).map (fun k => S.value lib x (S.getOutIdx k) 0))

namespace SubnetBuilder
open EntryOrder

/-- Inputs and outputs are numbered as the iterators visit them. -/
def netFunction (lib : CellLibrary) (s : SubnetBuilder) : NetFunction :=
  (s.inputIDs.length, fun x =>
    s.outputIDs.map (fun i => s.netlist.value lib s.size (fun j => x (s.inputIDs.idxOf j)) i 0))

variable {s : SubnetBuilder} {more : EntryID → List EntryID} {ins mid outs : List EntryID}
  {i j e : EntryID} {c : SubnetCell} {ps rest cs : List EntryID} {r r' : Rearrangement} {l : Link}
  {d : Bool}

def isKept (s : SubnetBuilder) (deleteBufs : Bool) (i : EntryID) : Bool :=
  !(deleteBufs && decide (s.getTypeID i = .BUF))

def keptEntries (s : SubnetBuilder) (deleteBufs : Bool) (more : EntryID → List EntryID)
    (cs : List EntryID) : List EntryID := entriesOf more (cs.filter (s.isKept deleteBufs))

def newIndex (s : SubnetBuilder) (d : Bool) (more : EntryID → List EntryID) (cs : List EntryID)
    (i : EntryID) : EntryID :=
  (s.keptEntries d more cs).idxOf i

theorem isKept_iff (hc : s.liveCell i = some c) :
    s.isKept d i = true ↔ (d = true → c.type ≠ .BUF) := by
  cases d <;> simp [isKept, getTypeID_of_live hc]

theorem isKept_of_ne (hc : s.liveCell i = some c) (ht : c.type ≠ .BUF) : s.isKept d i = true :=
  (isKept_iff hc).mpr (fun _ => ht)

theorem not_isKept (hc : s.liveCell i = some c) (hkept : s.isKept d i = false) :
    d = true ∧ c.type = .BUF := by
  have hiff := isKept_iff (d := d) hc
  rw [hkept] at hiff
  simpa using hiff

@[simp] theorem keptEntries_append :
    s.keptEntries d more (ps ++ rest) = s.keptEntries d more ps ++ s.keptEntries d more rest := by
  simp [keptEntries]

theorem keptEntries_sublist : (s.keptEntries d more cs).Sublist (entriesOf more cs) := by
  induction cs with
  | nil => exact List.Sublist.refl _
  | cons i cs ih =>
    rw [keptEntries, filter_cons]
    split
    · exact List.Sublist.append_left ih (i :: more i)
    · exact List.Sublist.trans ih (sublist_append_right ..)

structure Compacted (s : SubnetBuilder) (d : Bool) (more : EntryID → List EntryID)
    (cs ps : List EntryID) (r : Rearrangement) :
    Prop where
  order : r.builder.order = s.order
  counts : (r.builder.nIn, r.builder.nOut) = (s.nIn, s.nOut)
  rest : ∀ e, e ∉ entriesOf more ps → r.builder.entries e = s.entries e
  isLink : r.isLink = 0
  length : r.newEntries.length = (s.keptEntries d more ps).length
  mapped : ∀ i ∈ ps, r.relinkMapping i = some (r.dst i, r.neg i) ∧ ∃ c, r.newEntries[r.dst i]? =
    some (.cell c)
  kept : ∀ i ∈ ps, ∀ c, s.liveCell i = some c → s.isKept d i = true →
    r.dst i = s.newIndex d more cs i ∧ r.neg i = false ∧ ∃ n, r.newEntries[r.dst i]? =
    some (.cell ⟨c.type, c.links.map (Link.redirect r.dst r.neg), n⟩)
  bufs : ∀ i ∈ ps, ∀ c, s.liveCell i = some c → s.isKept d i = false → ∀ l ∈ c.links,
    r.dst i = r.dst l.idx ∧ r.neg i = xor (r.neg l.idx) l.inv
  back : ∀ (k : ℕ) c, r.newEntries[k]? = some (.cell c) → ∀ l ∈ c.links,
    l.idx < k ∧ ∃ c', r.newEntries[l.idx]? = some (.cell c')
  only : ∀ (k : ℕ) c, r.newEntries[k]? = some (.cell c) → ∃ i ∈ ps, s.isKept d i = true ∧
    r.dst i = k

namespace Ordered

variable (h : Ordered s more ins mid outs)
include h

theorem keptEntries_nodup (d : Bool) : (s.keptEntries d more (ins ++ mid ++ outs)).Nodup :=
  List.Nodup.sublist keptEntries_sublist h.visits.nodup

theorem newIndex_eq (hps : ins ++ mid ++ outs = ps ++ i :: rest) (hi : s.isKept d i = true) :
    s.newIndex d more (ins ++ mid ++ outs) i = (s.keptEntries d more ps).length := by
  have hnot : i ∉ s.keptEntries d more ps := fun hmem =>
    h.disjoint hps (mem_cons_self ..) (keptEntries_sublist.subset hmem)
  have hhead : s.keptEntries d more (i :: rest) = i :: (more i ++ s.keptEntries d more rest) := by
    rw [keptEntries, filter_cons_of_pos hi]
    rfl
  rw [newIndex, hps, keptEntries_append, idxOf_append_of_notMem hnot, hhead, idxOf_cons_self,
    Nat.add_zero]

theorem length_keptEntries_le (hps : ins ++ mid ++ outs = ps ++ rest) :
    (s.keptEntries d more ps).length ≤ s.size := by
  have hsub : s.keptEntries d more ps ⊆ range s.size := by
    intro e he
    apply mem_range.mpr
    apply h.visits.lt
    rw [hps, entriesOf_append]
    exact mem_append_left _ (keptEntries_sublist.subset he)
  have hnd := h.keptEntries_nodup d
  rw [hps, keptEntries_append] at hnd
  have hlen := ((nodup_append.mp hnd).1.subperm hsub).length_le
  rwa [length_range] at hlen

end Ordered

private theorem redirect_congr (hmap : ∀ e ∈ ps, r'.relinkMapping e = r.relinkMapping e)
    {links : List Link} (hl : ∀ l ∈ links, l.idx ∈ ps) : links.map (Link.redirect r'.dst r'.neg) =
    links.map (Link.redirect r.dst r.neg) := by
  apply map_congr_left
  intro l hlm
  rw [Link.redirect, Link.redirect, Rearrangement.dst, Rearrangement.neg, hmap _ (hl l hlm)]
  rfl

/-! ### The entries behind a visited cell -/

section Appended

variable {es es' ls : List Entry} {f : ℕ → ℕ} {new : SubnetCell} {k : ℕ}

private theorem getElem_of_cell (hrefs : ∀ k : ℕ, es'[k]? = es[k]?.map (Entry.addRefs (f k)))
    (hk : es[k]? = some (.cell c)) : ∃ n, (es' ++ .cell new :: ls)[k]? =
    some (.cell { c with refcount := n }) := by
  have hsome : es'[k]? = some (.cell { c with refcount := c.refcount + f k }) := by
    rw [hrefs, hk]
    rfl
  exact ⟨_, (getElem?_append_left (List.getElem?_eq_some_iff.mp hsome).1).trans hsome⟩

private theorem cell_of_getElem (hrefs : ∀ k : ℕ, es'[k]? = es[k]?.map (Entry.addRefs (f k)))
    (hls : ∀ e ∈ ls, ∃ links, e = Entry.links links)
    (hk : (es' ++ .cell new :: ls)[k]? = some (.cell c)) : (∃ c₀, es[k]? = some (.cell c₀) ∧
    c.links = c₀.links) ∨ k = es'.length ∧ c = new := by
  rcases Nat.lt_trichotomy k es'.length with hlt | rfl | hgt
  · rw [getElem?_append_left hlt, hrefs] at hk
    obtain ⟨e, he, hc⟩ := map_eq_some_iff.mp hk
    cases e with
    | cell c₀ =>
      rw [Entry.addRefs, Entry.cell.injEq] at hc
      subst hc
      exact .inl ⟨c₀, he, rfl⟩
    | links links => cases hc
  · rw [getElem?_append_right (Nat.le_refl _), Nat.sub_self, getElem?_cons_zero, Option.some.injEq,
      Entry.cell.injEq] at hk
    exact .inr ⟨rfl, hk.symm⟩
  · obtain ⟨m, rfl⟩ := Nat.exists_eq_add_of_lt hgt
    rw [Nat.add_assoc, getElem?_append_right (Nat.le_add_right ..), Nat.add_sub_cancel_left,
      getElem?_cons_succ] at hk
    obtain ⟨links, hlinks⟩ := hls _ (mem_of_getElem? hk)
    cases hlinks

end Appended

variable (h : Ordered s more ins mid outs)
include h

private theorem Compacted.unvisited (hr : Compacted s d more cs ps r)
    (hps : ins ++ mid ++ outs = ps ++ i :: rest) (hc : s.liveCell i = some c) :
    r.builder.getCell i = some c ∧
      Stored r.builder.entries (more i) (c.links.drop InPlaceLinks) ∧
      r.builder.order.Visits (entriesOf more ps ++ i :: more i ++ entriesOf more rest) := by
  have hout : ∀ e ∈ i :: more i, r.builder.entries e = s.entries e :=
    fun e he => hr.rest e (h.disjoint hps he)
  refine ⟨?_, ?_, ?_⟩
  · obtain ⟨hi, hentry⟩ := getCell_eq_some.mp (getCell_of_live hc)
    have hsize : r.builder.size = s.size := congrArg EntryOrder.size hr.order
    exact getCell_eq_some.mpr ⟨hsize ▸ hi, (hout i (mem_cons_self ..)).trans hentry⟩
  · exact (h.stored i c hc).congr (fun e he ls hls => (hout e (mem_cons_of_mem i he)).trans hls)
  · have hvisits := h.visits
    rw [hps, entriesOf_append, entriesOf_cons, ← append_assoc] at hvisits
    exact hr.order ▸ hvisits

private theorem Compacted.visit_kept (hr : Compacted s d more (ins ++ mid ++ outs) ps r)
    (hps : ins ++ mid ++ outs = ps ++ i :: rest) (hc : s.liveCell i = some c)
    (hkept : s.isKept d i = true) (hlen : c.links.length ≤ InPlaceLinks + InEntryLinks) :
    ∃ r', Compacted s d more (ins ++ mid ++ outs) (ps ++ [i]) r' ∧ ∀ n,
      Rearrangement.loop d (n + ((more i).length + 1)) (.entry i) r =
        Rearrangement.loop d n (after (entriesOf more rest)) r' := by
  obtain ⟨hcell, hst, hv⟩ := hr.unvisited h hps hc
  have hsize : r.builder.size = s.size := congrArg EntryOrder.size hr.order
  have hmem : ∀ l ∈ c.links, l.idx ∈ ps := h.fanins ps i rest c hps hc
  have hapart : ∀ e ∈ ps, e ∉ i :: more i :=
    fun e he hmem => h.disjoint hps hmem (mem_entriesOf_self he)
  have hlinks : ∀ l ∈ c.links, l.idx ≠ i ∧ l.idx < r.builder.size ∧ r.dst l.idx < r.builder.size ∧
      r.relinkMapping l.idx = some (r.dst l.idx, r.neg l.idx) ∧ ∃ c', r.newEntries[r.dst l.idx]? =
      some (.cell c') := by
    intro l hl
    obtain ⟨hmap, c', hc'⟩ := hr.mapped _ (hmem l hl)
    have hlt : r.dst l.idx < s.size := by
      apply Nat.lt_of_lt_of_le (List.getElem?_eq_some_iff.mp hc').1
      rw [hr.length]
      exact h.length_keptEntries_le hps
    obtain ⟨cl, hcl⟩ := h.exists_live (i := l.idx)
      (by rw [hps]; exact mem_append_left _ (hmem l hl))
    refine ⟨fun hi => hapart _ (hmem l hl) (hi ▸ mem_cons_self ..), hsize ▸ lt_of_live hcl,
      hsize ▸ hlt, hmap, c', hc'⟩
  obtain ⟨b, es', mapping, hset, hrefs, hold, hnew, hloop⟩ := visit_cell r.dst r.neg hr.isLink
    (show ¬ (d = true ∧ c.isBuf = true) by simpa [SubnetCell.isBuf] using (isKept_iff hc).mp hkept)
    hcell hst hv (.inl hlen) hlinks
  let new : SubnetCell := ⟨c.type, c.links.map (Link.redirect r.dst r.neg), 0⟩
  let r' : Rearrangement := ⟨b, es' ++ .cell new :: (more i).map b.entries, mapping, 0⟩
  have hlen' : es'.length = r.newEntries.length := length_of_refs hrefs
  have hmap : ∀ e ∈ ps, r'.relinkMapping e = r.relinkMapping e := fun e he => hold e (hapart e he)
  have hself : r'.relinkMapping i = some (r.newEntries.length, false) := hnew 0 i rfl
  have hdst : ∀ e ∈ ps, r'.dst e = r.dst e := fun e he => by rw [Rearrangement.dst, hmap e he]; rfl
  have hneg : ∀ e ∈ ps, r'.neg e = r.neg e := fun e he => by rw [Rearrangement.neg, hmap e he]; rfl
  have hdsti : r'.dst i = r.newEntries.length := by rw [Rearrangement.dst, hself]; rfl
  have hnegi : r'.neg i = false := by rw [Rearrangement.neg, hself]; rfl
  have hat : r'.newEntries[r.newEntries.length]? = some (.cell new) := by
    rw [← hlen', getElem?_append_right (Nat.le_refl _), Nat.sub_self]
    rfl
  have hmore : ∀ e ∈ (more i).map b.entries, ∃ links, e = Entry.links links := by
    intro e he
    obtain ⟨e', he', rfl⟩ := mem_map.mp he
    exact hset.more.mem e' he'
  have hstay : ∀ {k : ℕ} {c₀}, r.newEntries[k]? = some (.cell c₀) →
      ∃ n, r'.newEntries[k]? = some (.cell { c₀ with refcount := n }) :=
      fun hk => getElem_of_cell hrefs hk
  refine ⟨r', ⟨hset.order.trans hr.order, ?_, fun e he => ?_, rfl, ?_, fun j hj => ?_,
    fun j hj cj hcj hbufj => ?_, fun j hj cj hcj hbufj l hl => ?_, fun k ck hk l hl => ?_,
    fun k ck hk => ?_⟩, hloop⟩
  · have hcounts := hset.counts
    simp only [Prod.mk.injEq] at hcounts
    rw [hcounts.1, hcounts.2.1]
    exact hr.counts
  · simp only [entriesOf_append, entriesOf_cons, entriesOf_nil, append_nil, mem_append, mem_cons,
      not_or] at he
    exact (hset.other e he.2.1 he.2.2).trans (hr.rest e he.1)
  · have hone : s.keptEntries d more [i] = i :: more i := by
      rw [keptEntries, filter_cons_of_pos hkept]
      simp
    rw [keptEntries_append, hone, length_append, length_append, hlen', hr.length, length_cons,
      length_cons, length_map]
  · rcases mem_append.mp hj with hj | hj
    · obtain ⟨hmapj, c', hc'⟩ := hr.mapped j hj
      obtain ⟨n, hn⟩ := hstay hc'
      rw [hmap j hj, hdst j hj, hneg j hj]
      exact ⟨hmapj, _, hn⟩
    · obtain rfl := mem_singleton.mp hj
      rw [hdsti, hnegi]
      exact ⟨hself, _, hat⟩
  · rcases mem_append.mp hj with hj | hj
    · obtain ⟨hpos, hnegj, n, hn⟩ := hr.kept j hj cj hcj hbufj
      obtain ⟨n', hn'⟩ := hstay hn
      have hsame := redirect_congr hmap (fun l hl => h.link_mem hps hj hcj hl)
      rw [hdst j hj, hneg j hj, hsame]
      exact ⟨hpos, hnegj, n', hn'⟩
    · obtain rfl := mem_singleton.mp hj
      obtain rfl := some.inj (hc.symm.trans hcj)
      rw [hdsti, hnegi, redirect_congr hmap hmem]
      exact ⟨hr.length.trans (h.newIndex_eq hps hkept).symm, rfl, 0, hat⟩
  · rcases mem_append.mp hj with hj | hj
    · obtain ⟨hd, hn⟩ := hr.bufs j hj cj hcj hbufj l hl
      have hlj := h.link_mem hps hj hcj hl
      rw [hdst j hj, hneg j hj, hdst _ hlj, hneg _ hlj]
      exact ⟨hd, hn⟩
    · obtain rfl := mem_singleton.mp hj
      obtain rfl := some.inj (hc.symm.trans hcj)
      exact absurd (hkept.symm.trans hbufj) (by decide)
  · rcases cell_of_getElem hrefs hmore hk with ⟨c₀, hc₀, heq⟩ | ⟨rfl, rfl⟩
    · obtain ⟨hlt, c', hc'⟩ := hr.back k c₀ hc₀ l (heq ▸ hl)
      obtain ⟨n, hn⟩ := hstay hc'
      exact ⟨hlt, _, hn⟩
    · obtain ⟨l₀, hl₀, rfl⟩ := mem_map.mp hl
      obtain ⟨-, -, -, -, c', hc'⟩ := hlinks l₀ hl₀
      obtain ⟨n, hn⟩ := hstay hc'
      rw [hlen']
      exact ⟨(List.getElem?_eq_some_iff.mp hc').1, _, hn⟩
  · rcases cell_of_getElem hrefs hmore hk with ⟨c₀, hc₀, -⟩ | ⟨rfl, -⟩
    · obtain ⟨j, hj, hkj, hdj⟩ := hr.only k c₀ hc₀
      exact ⟨j, mem_append_left _ hj, hkj, (hdst j hj).trans hdj⟩
    · exact ⟨i, mem_append_right _ (mem_singleton_self i), hkept, hdsti.trans hlen'.symm⟩

private theorem Compacted.visit_buf (hr : Compacted s d more (ins ++ mid ++ outs) ps r)
    (hps : ins ++ mid ++ outs = ps ++ i :: rest) (hc : s.liveCell i = some c)
    (hkept : s.isKept d i = false) : ∃ r', Compacted s d more (ins ++ mid ++ outs) (ps ++ [i]) r' ∧
    ∀ n,
      Rearrangement.loop d (n + ((more i).length + 1)) (.entry i) r =
        Rearrangement.loop d n (after (entriesOf more rest)) r' := by
  obtain ⟨hcell, hst, hv⟩ := hr.unvisited h hps hc
  obtain ⟨rfl, hbuf⟩ := not_isKept hc hkept
  obtain ⟨l, hl⟩ := length_eq_one_iff.mp (h.bufLink i c hc hbuf)
  have hmore : more i = [] := h.more_of_le hc (by rw [hl]; exact Nat.le_add_left 1 2)
  have hmem : l.idx ∈ ps := h.fanins ps i rest c hps hc l (by rw [hl]; exact mem_singleton_self l)
  have hapart : ∀ e ∈ ps, e ≠ i := fun e he hei =>
    h.disjoint hps (mem_cons_self ..) (hei ▸ mem_entriesOf_self he)
  obtain ⟨hmapl, cl, hcl⟩ := hr.mapped l.idx hmem
  let r' : Rearrangement := { r with
    relinkMapping := Function.update r.relinkMapping i (some (r.dst l.idx, xor (r.neg l.idx) l.inv))
    builder := { r.builder with nCell := r.builder.nCell - 1, nBuf := r.builder.nBuf - 1 } }
  have hdelete : r.deleteBuf i = some r' := by
    simp only [Rearrangement.deleteBuf, getLinks_of_stored hcell hst hv, hl, hmapl,
      bind_eq_bind, bind_some, getElem?_cons_zero]
    rfl
  have hstep : r.step true i = some r' := by
    rw [Rearrangement.step, if_neg (not_not.mpr hr.isLink), hcell]
    exact (if_pos ⟨rfl, by simp [SubnetCell.isBuf, hbuf]⟩).trans hdelete
  have hmap : ∀ e ∈ ps, r'.relinkMapping e = r.relinkMapping e :=
    fun e he => Function.update_of_ne (hapart e he) ..
  have hself : r'.relinkMapping i = some (r.dst l.idx, xor (r.neg l.idx) l.inv) :=
    Function.update_self ..
  have hdst : ∀ e ∈ ps, r'.dst e = r.dst e := fun e he => by rw [Rearrangement.dst, hmap e he]; rfl
  have hneg : ∀ e ∈ ps, r'.neg e = r.neg e := fun e he => by rw [Rearrangement.neg, hmap e he]; rfl
  have hdsti : r'.dst i = r.dst l.idx := by rw [Rearrangement.dst, hself]; rfl
  have hnegi : r'.neg i = xor (r.neg l.idx) l.inv := by rw [Rearrangement.neg, hself]; rfl
  have hnext : r'.builder.order.getNext (.entry i) = some (after (entriesOf more rest)) := by
    rw [hmore] at hv
    exact hv.next (u := entriesOf more ps) (by simp)
  refine ⟨r', ⟨hr.order, hr.counts, fun e he => hr.rest e (fun hmem => he ?_), hr.isLink, ?_,
    fun j hj => ?_, fun j hj cj hcj hbufj => ?_, fun j hj cj hcj hbufj lj hlj => ?_, hr.back,
    fun k ck hk => ?_⟩, fun n => ?_⟩
  · rw [entriesOf_append]
    exact mem_append_left _ hmem
  · have hnone : s.keptEntries true more [i] = [] := by
      rw [keptEntries, filter_cons_of_neg (fun hk => Bool.false_ne_true (hkept.symm.trans hk))]
      rfl
    rw [keptEntries_append, hnone, append_nil]
    exact hr.length
  · rcases mem_append.mp hj with hj | hj
    · rw [hmap j hj, hdst j hj, hneg j hj]
      exact hr.mapped j hj
    · obtain rfl := mem_singleton.mp hj
      rw [hdsti, hnegi]
      exact ⟨hself, cl, hcl⟩
  · rcases mem_append.mp hj with hj | hj
    · have hsame := redirect_congr hmap (fun l hl => h.link_mem hps hj hcj hl)
      rw [hdst j hj, hneg j hj, hsame]
      exact hr.kept j hj cj hcj hbufj
    · obtain rfl := mem_singleton.mp hj
      obtain rfl := some.inj (hc.symm.trans hcj)
      exact absurd (hkept.symm.trans hbufj) (by decide)
  · rcases mem_append.mp hj with hj | hj
    · have hlink := h.link_mem hps hj hcj hlj
      rw [hdst j hj, hneg j hj, hdst _ hlink, hneg _ hlink]
      exact hr.bufs j hj cj hcj hbufj lj hlj
    · obtain rfl := mem_singleton.mp hj
      obtain rfl := some.inj (hc.symm.trans hcj)
      rw [hl, mem_singleton] at hlj
      subst hlj
      rw [hdsti, hnegi, hdst _ hmem, hneg _ hmem]
      exact ⟨rfl, rfl⟩
  · obtain ⟨j, hj, hkj, hdj⟩ := hr.only k ck hk
    exact ⟨j, mem_append_left _ hj, hkj, (hdst j hj).trans hdj⟩
  · rw [hmore, length_nil, Nat.zero_add, Rearrangement.loop, hstep]
    simp only [hnext, bind_eq_bind, bind_some]

private theorem Compacted.loop_eq
    (hnarrow : ∀ i c, s.liveCell i = some c → c.links.length ≤ InPlaceLinks + InEntryLinks) :
    ∀ {rest ps : List EntryID} {r : Rearrangement} {n : ℕ}, ins ++ mid ++ outs = ps ++ rest →
      Compacted s d more (ins ++ mid ++ outs) ps r → (entriesOf more rest).length ≤ n →
      ∃ r', Rearrangement.loop d n (after (entriesOf more rest)) r = some r' ∧
        Compacted s d more (ins ++ mid ++ outs) (ins ++ mid ++ outs) r' := by
  intro rest
  induction rest with
  | nil =>
    intro ps r n hps hr _
    rw [append_nil] at hps
    rw [← hps] at hr
    exact ⟨r, by cases n <;> rfl, hr⟩
  | cons i rest ih =>
    intro ps r n hps hr hn
    obtain ⟨c, hc⟩ := h.exists_live (i := i) (by simp [hps])
    obtain ⟨r', hr', hloop⟩ : ∃ r', Compacted s d more (ins ++ mid ++ outs) (ps ++ [i]) r' ∧ ∀ n,
        Rearrangement.loop d (n + ((more i).length + 1)) (.entry i) r =
          Rearrangement.loop d n (after (entriesOf more rest)) r' := by
      cases hkept : s.isKept d i with
      | false => exact hr.visit_buf h hps hc hkept
      | true => exact hr.visit_kept h hps hc hkept (hnarrow i c hc)
    rw [entriesOf_cons, length_append, length_cons] at hn
    obtain ⟨m, rfl⟩ := Nat.exists_eq_add_of_le' (Nat.le_trans (Nat.le_add_right ..) hn)
    obtain ⟨r'', hr'', h''⟩ :=
      ih (n := m) (show _ = ps ++ [i] ++ rest by simpa using hps) hr' (by omega)
    refine ⟨r'', ?_, h''⟩
    rw [entriesOf_cons, cons_append, after_cons, hloop]
    exact hr''

omit h

/-- The subnet `S` has the cells of the builder that are kept. The links to an entry are led by
`dst` and `neg` past the buffers. -/
structure Stripped (s : SubnetBuilder) (d : Bool) (more : EntryID → List EntryID)
    (ins mid outs : List EntryID)
    (dst : EntryID → EntryID) (neg : EntryID → Bool) (S : Subnet) : Prop where
  nIn : S.nIn = ins.length
  nOut : S.nOut = outs.length
  size : S.size = (s.keptEntries d more (ins ++ mid ++ outs)).length
  mapped : ∀ i c, s.liveCell i = some c → ∃ c', S.getCell (dst i) = some c'
  kept : ∀ i c, s.liveCell i = some c → s.isKept d i = true →
    dst i = s.newIndex d more (ins ++ mid ++ outs) i ∧ neg i = false ∧ ∃ n, S.getCell (dst i) =
    some ⟨c.type, c.links.map (Link.redirect dst neg), n⟩
  bufs : ∀ i c, s.liveCell i = some c → s.isKept d i = false → ∀ l ∈ c.links,
    dst i = dst l.idx ∧ neg i = xor (neg l.idx) l.inv
  back : ∀ k c, S.getCell k = some c → ∀ l ∈ c.links, l.idx < k ∧ ∃ c', S.getCell l.idx = some c'
  only : ∀ k c, S.getCell k = some c → ∃ i c', s.liveCell i = some c' ∧ s.isKept d i = true ∧
    dst i = k

namespace Ordered

variable (h : Ordered s more ins mid outs)
include h

private theorem isKept_of_input (hi : i ∈ ins) : s.isKept d i = true := by
  obtain ⟨c, hc⟩ := h.exists_live (i := i) (by simp [hi])
  exact isKept_of_ne hc (by rw [(h.input i c hc).mpr hi]; decide)

private theorem isKept_of_output (hi : i ∈ outs) : s.isKept d i = true := by
  obtain ⟨c, hc⟩ := h.exists_live (i := i) (by simp [hi])
  exact isKept_of_ne hc (by rw [(h.output i c hc).mpr hi]; decide)

theorem keptEntries_eq : s.keptEntries d more (ins ++ mid ++ outs) =
    ins ++ s.keptEntries d more mid ++ outs := by
  have hins : s.keptEntries d more ins = ins := by
    rw [keptEntries, filter_eq_self.mpr (fun i hi => h.isKept_of_input hi)]
    exact entriesOf_eq_self (fun i hi => h.more_of_mem_ins hi)
  have houts : s.keptEntries d more outs = outs := by
    rw [keptEntries, filter_eq_self.mpr (fun i hi => h.isKept_of_output hi)]
    exact entriesOf_eq_self (fun i hi => h.more_of_mem_outs hi)
  rw [keptEntries_append, keptEntries_append, hins, houts]

theorem newIndex_input {k : ℕ} (hk : ins[k]? = some i) :
    s.newIndex d more (ins ++ mid ++ outs) i = k := by
  obtain ⟨hlt, hget⟩ := List.getElem?_eq_some_iff.mp hk
  have hnd := h.keptEntries_nodup d
  rw [h.keptEntries_eq, append_assoc] at hnd
  rw [newIndex, h.keptEntries_eq, append_assoc]
  have hlt' : k < (ins ++ (s.keptEntries d more mid ++ outs)).length := by
    rw [length_append]
    exact Nat.lt_add_right _ hlt
  have hidx := List.Nodup.idxOf_getElem hnd k hlt'
  rwa [getElem_append_left hlt, hget] at hidx

theorem newIndex_output {k : ℕ} (hk : outs[k]? = some i) :
    s.newIndex d more (ins ++ mid ++ outs) i =
    (s.keptEntries d more (ins ++ mid ++ outs)).length - outs.length + k := by
  obtain ⟨hlt, hget⟩ := List.getElem?_eq_some_iff.mp hk
  have hnd := h.keptEntries_nodup d
  rw [h.keptEntries_eq] at hnd
  rw [newIndex, h.keptEntries_eq, length_append, Nat.add_sub_cancel]
  have hlt' : (ins ++ s.keptEntries d more mid).length + k <
      (ins ++ s.keptEntries d more mid ++ outs).length := by
    exact Nat.lt_of_lt_of_eq (Nat.add_lt_add_left hlt _) length_append.symm
  have hidx := List.Nodup.idxOf_getElem hnd _ hlt'
  rw [getElem_append_right (Nat.le_add_right ..)] at hidx
  simpa only [Nat.add_sub_cancel_left, hget] using hidx

theorem rearrangeEntries_eq (d : Bool) (hne : ins ++ mid ++ outs ≠ [])
    (hnarrow : ∀ i c, s.liveCell i = some c → c.links.length ≤ InPlaceLinks + InEntryLinks) :
    ∃ s' dst neg, s.rearrangeEntries d = some s' ∧
    Stripped s d more ins mid outs dst neg s'.takeEntries := by
  have hstart : Compacted s d more (ins ++ mid ++ outs) [] ⟨s, [], fun _ => none, 0⟩ := by
    refine ⟨rfl, rfl, fun _ _ => rfl, rfl, rfl, ?_, ?_, ?_, ?_, ?_⟩ <;> simp
  have hle : (entriesOf more (ins ++ mid ++ outs)).length ≤ s.size := by
    have hsub : entriesOf more (ins ++ mid ++ outs) ⊆ range s.size := fun e he =>
      mem_range.mpr (h.visits.lt e he)
    have hlen := (h.visits.nodup.subperm hsub).length_le
    rwa [length_range] at hlen
  obtain ⟨r, hr, hdone⟩ := Compacted.loop_eq h hnarrow (nil_append _).symm hstart hle
  have hbegin : s.order.getSubnetBegin = after (entriesOf more (ins ++ mid ++ outs)) := by
    apply h.visits.begins
    obtain ⟨i, l, hl⟩ := exists_cons_of_ne_nil hne
    simp [hl]
  have hcounts := hdone.counts
  simp only [Prod.mk.injEq] at hcounts
  let s' : SubnetBuilder := ({ r.builder with
    entries := fun i => r.newEntries.getD i (.links [])
    order := { size := r.newEntries.length } } : SubnetBuilder).clearContext
  have hget : ∀ k c, s'.takeEntries.getCell k = some c ↔ r.newEntries[k]? = some (.cell c) := by
    intro k c
    rw [getCell_takeEntries]
    exact r.getCell_finished k c
  refine ⟨s', r.dst, r.neg, ?_, hcounts.1.trans h.nIn, hcounts.2.trans h.nOut, ?_, fun i c hc => ?_,
    fun i c hc hbuf => ?_, fun i c hc hbuf l hl => ?_, fun k c hk l hl => ?_, fun k c hk => ?_⟩
  · rw [SubnetBuilder.rearrangeEntries, hbegin, hr]
    rfl
  · rw [← hdone.length, size_takeEntries]
    rfl
  · obtain ⟨-, c', hc'⟩ := hdone.mapped i (h.mem_of_live hc)
    exact ⟨c', (hget _ _).mpr hc'⟩
  · obtain ⟨hd, hn, n, hcell⟩ := hdone.kept i (h.mem_of_live hc) c hc hbuf
    exact ⟨hd, hn, n, (hget _ _).mpr hcell⟩
  · exact hdone.bufs i (h.mem_of_live hc) c hc hbuf l hl
  · obtain ⟨hlt, c', hc'⟩ := hdone.back k c ((hget k c).mp hk) l hl
    exact ⟨hlt, c', (hget _ _).mpr hc'⟩
  · obtain ⟨i, hi, hkept, hd⟩ := hdone.only k c ((hget k c).mp hk)
    obtain ⟨c', hc'⟩ := h.exists_live hi
    exact ⟨i, c', hc', hkept, hd⟩

end Ordered

namespace Stripped

variable {dst : EntryID → EntryID} {neg : EntryID → Bool} {S : Subnet}

theorem getCell_input (hS : Stripped s d more ins mid outs dst neg S)
    (h : Ordered s more ins mid outs) {k : ℕ} (hk : ins[k]? = some i) : dst i = k ∧
    ∃ n, S.getCell k = some ⟨.IN, [], n⟩ := by
  obtain ⟨c, hc⟩ := h.exists_live (i := i) (by simp [mem_of_getElem? hk])
  have htype := (h.input i c hc).mpr (mem_of_getElem? hk)
  obtain ⟨hd, -, n, hcell⟩ := hS.kept i c hc (isKept_of_ne hc (by rw [htype]; decide))
  rw [h.newIndex_input hk] at hd
  rw [hd, htype, h.noLinks i c hc htype] at hcell
  exact ⟨hd, n, hcell⟩

theorem getCell_output (hS : Stripped s d more ins mid outs dst neg S)
    (h : Ordered s more ins mid outs) {k : ℕ} (hk : outs[k]? = some i) : dst i = S.getOutIdx k ∧
    ∃ l n, S.getCell (S.getOutIdx k) = some ⟨.OUT, [l], n⟩ := by
  obtain ⟨c, hc⟩ := h.exists_live (i := i) (by simp [mem_of_getElem? hk])
  have htype := (h.output i c hc).mpr (mem_of_getElem? hk)
  obtain ⟨hd, -, n, hcell⟩ := hS.kept i c hc (isKept_of_ne hc (by rw [htype]; decide))
  rw [h.newIndex_output hk, ← hS.size, ← hS.nOut] at hd
  obtain ⟨l, hl⟩ := length_eq_one_iff.mp (h.outLink i c hc htype)
  rw [hd, htype, hl] at hcell
  exact ⟨hd, _, n, hcell⟩

end Stripped

theorem Ordered.make_eq (h : Ordered s more ins mid outs) (hout : outs ≠ [])
    (hnarrow : ∀ i c, s.liveCell i = some c → c.links.length ≤ InPlaceLinks + InEntryLinks)
    (hd : s.order.isDisassembled = true ∨ d = true) :
    ∃ S dst neg, s.make d = some S ∧ Stripped s d more ins mid outs dst neg S := by
  have hne : ins ++ mid ++ outs ≠ [] := append_ne_nil_of_right_ne_nil _ hout
  obtain ⟨s', dst, neg, hs', hS⟩ := h.rearrangeEntries_eq d hne hnarrow
  have hsize : s.size ≠ 0 := by
    have hlen := h.length_le
    have hpos := length_pos_of_ne_nil hne
    omega
  have hinputs : s'.checkInputsOrder = some true := by
    apply checkCells_eq _ (Nat.le_add_left ..)
    intro k _ hk
    have hk' : k < ins.length := lt_of_lt_of_eq hk hS.nIn
    obtain ⟨-, n, hcell⟩ := hS.getCell_input h (getElem?_eq_getElem hk')
    rw [getCell_takeEntries] at hcell
    exact ⟨_, hcell, rfl, by simp [SubnetCell.more, SubnetCell.arity, InPlaceLinks, InEntryLinks]⟩
  have hsize' : s'.takeEntries.size = s'.size := size_takeEntries
  have houtputs : s'.checkOutputsOrder = some true := by
    apply checkCells_eq _ (Nat.le_add_of_sub_le (Nat.le_refl _))
    intro k hk hlt
    obtain ⟨m, rfl⟩ := Nat.exists_eq_add_of_le hk
    have hle : outs.length ≤ s'.size := by
      rw [← hsize', hS.size, h.keptEntries_eq, length_append]
      exact Nat.le_add_left ..
    have hnOut : s'.nOut = outs.length := hS.nOut
    have hm : m < outs.length := by
      rw [hnOut] at hlt
      exact Nat.lt_of_add_lt_add_left (Nat.lt_of_lt_of_eq hlt (Nat.sub_add_cancel hle).symm)
    obtain ⟨-, l, n, hcell⟩ := hS.getCell_output h (getElem?_eq_getElem hm)
    rw [getCell_takeEntries, Subnet.getOutIdx, hsize'] at hcell
    exact ⟨_, hcell, rfl, by simp [SubnetCell.more, SubnetCell.arity, InPlaceLinks, InEntryLinks]⟩
  have hnOut : s.nOut ≠ 0 := by
    rw [h.nOut]
    exact fun hzero => hout (length_eq_zero_iff.mp hzero)
  refine ⟨s'.takeEntries, dst, neg, ?_, hS⟩
  rw [SubnetBuilder.make, if_neg (not_or.mpr ⟨hnOut, hsize⟩), if_pos hd, hs']
  simp only [bind_eq_bind, bind_some, hinputs, houtputs, and_self, if_true]

/-! ### The functions of the outputs -/

def PlainBuffers (s : SubnetBuilder) : Prop :=
  ∀ i c, s.liveCell i = some c → c.type = .BUF → ∀ l ∈ c.links, l.out = 0

theorem Stripped.exists_values {dst : EntryID → EntryID} {neg : EntryID → Bool} {S : Subnet}
    (h : Ordered s more ins mid outs) (hS : Stripped s d more ins mid outs dst neg S)
    (hplain : s.PlainBuffers) (lib : CellLibrary) (x : EntryID → Bool) :
    ∃ ρ, s.netlist.Solves lib (fun i => x (s.newIndex d more (ins ++ mid ++ outs) i)) ρ ∧
      ∀ i c, s.liveCell i = some c → s.isKept d i = true → ∀ out, S.value lib x (dst i) out =
      some (ρ i out) := by
  have hfan : ∀ k j, S.netlist.Fanin k j → j < k ∧ (S.netlist j).isSome := by
    rintro k j ⟨g, hg, l, hl, rfl⟩
    obtain ⟨c, hc, rfl⟩ := map_eq_some_iff.mp hg
    obtain ⟨hlt, c', hc'⟩ := hS.back k c hc l hl
    exact ⟨hlt, by rw [Subnet.netlist, hc']; rfl⟩
  have hacyclic : S.netlist.Acyclic := ⟨id, fun k j hkj => (hfan k j hkj).1⟩
  obtain ⟨σ, hσ⟩ := hacyclic.exists_solves lib x
  -- A buffer has the value of the cell that its users are led to, up to the inverters on the way.
  let ρ : EntryID → ℕ → Bool := fun i out => if s.isKept d i then σ (dst i) out else
    xor (σ (dst i) 0) (neg i)
  have hkept : ∀ i, s.isKept d i = true → ρ i = σ (dst i) := by
    intro i hk
    funext out
    exact if_pos hk
  have hbuffer : ∀ i out, s.isKept d i = false → ρ i out = xor (σ (dst i) 0) (neg i) :=
    fun i out hk =>
    if_neg (by rw [hk]; exact Bool.false_ne_true)
  have hfirst : ∀ i c, s.liveCell i = some c → ρ i 0 = xor (σ (dst i) 0) (neg i) := by
    intro i c hc
    cases hk : s.isKept d i with
    | false => exact hbuffer i 0 hk
    | true => rw [hkept i hk, (hS.kept i c hc hk).2.1, Bool.xor_false]
  have hlink : ∀ i c, s.liveCell i = some c → ∀ l ∈ c.links, Link.value σ (l.redirect dst neg) =
      Link.value ρ l := by
    intro i c hc l hl
    have hfanin := h.closed i l.idx ⟨_, netlist_of_live hc, l, hl, rfl⟩
    rw [netlist_isSome] at hfanin
    obtain ⟨c', hc'⟩ := isSome_iff_exists.mp hfanin
    cases hk : s.isKept d l.idx with
    | false =>
      have hout := h.bufPort i c hc l hl ((getTypeID_of_live hc').trans (not_isKept hc' hk).2)
      rw [Link.value, Link.value, Link.redirect, hout, hfirst _ c' hc', Bool.xor_assoc]
    | true => rw [Link.value, Link.value, Link.redirect, hkept _ hk, (hS.kept _ c' hc' hk).2.1,
        Bool.false_xor]
  refine ⟨ρ, fun i g hg => ?_, fun i c hc hk out => ?_⟩
  · obtain ⟨c, hc, ht, hl⟩ := liveCell_of_netlist hg
    funext out
    cases hk : s.isKept d i with
    | false =>
      have hbuf := (not_isKept hc hk).2
      obtain ⟨l, hlinks⟩ := length_eq_one_iff.mp (h.bufLink i c hc hbuf)
      have hmem : l ∈ c.links := by rw [hlinks]; exact mem_singleton_self l
      obtain ⟨hd, hn⟩ := hS.bufs i c hc hk l hmem
      have hval := hlink i c hc l hmem
      rw [Link.value, Link.redirect, hplain i c hc hbuf l hmem] at hval
      rw [Netlist.gateValue, ← ht, ← hl, hbuf, hlinks, hbuffer i out hk, hd, hn, hval]
      rfl
    | true =>
      obtain ⟨hd, -, n, hcell⟩ := hS.kept i c hc hk
      have hgate : S.netlist (dst i) = some ⟨c.type, c.links.map (Link.redirect dst neg)⟩ := by
        rw [Subnet.netlist, hcell]
        rfl
      have heq := congrFun (hσ (dst i) _ hgate) out
      have hvalues : (c.links.map (Link.redirect dst neg)).map (Link.value σ) =
          c.links.map (Link.value ρ) := by
        rw [map_map]
        exact map_congr_left (fun l hlm => hlink i c hc l hlm)
      rw [Netlist.gateValue, hvalues] at heq
      rw [hkept i hk, Netlist.gateValue, ← ht, ← hl, ← hd]
      exact heq
  · obtain ⟨-, -, n, hcell⟩ := hS.kept i c hc hk
    have hsome : (S.netlist (dst i)).isSome := by
      rw [Subnet.netlist, hcell]
      rfl
    rw [hkept i hk]
    refine Netlist.value_eq hacyclic (fun k j hkj => (hfan k j hkj).2) (fun k hk => ?_) hσ hsome out
    obtain ⟨g, hg⟩ := isSome_iff_exists.mp hk
    obtain ⟨c, hc, -⟩ := map_eq_some_iff.mp hg
    exact Subnet.lt_of_getCell hc

structure Convertible (s : SubnetBuilder) : Prop where
  ordered : ∃ more ins mid outs, Ordered s more ins mid outs
  narrow : ∀ i c, s.liveCell i = some c → c.links.length ≤ InPlaceLinks + InEntryLinks
  plain : s.PlainBuffers

theorem Stripped.netFunction_eq {dst : EntryID → EntryID} {neg : EntryID → Bool} {S : Subnet}
    (hstripped : Stripped s d more ins mid outs dst neg S) (hord : Ordered s more ins mid outs)
    (hout : outs ≠ []) (hplain : s.PlainBuffers) (lib : CellLibrary) : S.netFunction lib =
    s.netFunction lib := by
  have hne : ins ++ mid ++ outs ≠ [] := append_ne_nil_of_right_ne_nil _ hout
  rw [Subnet.netFunction, SubnetBuilder.netFunction, hord.inputIDs_eq hne, hord.outputIDs_eq hne,
    hstripped.nIn, hstripped.nOut]
  refine Prod.ext rfl (funext fun x => ?_)
  obtain ⟨ρ, hρ, hvalue⟩ := hstripped.exists_values hord hplain lib x
  -- An input has the position that its number says.
  have hinputs : s.netlist.Solves lib (fun j => x (ins.idxOf j)) ρ := by
    refine hρ.congr_inputs (fun i g hg ht => ?_)
    obtain ⟨c, hc, hct, -⟩ := liveCell_of_netlist hg
    have hi : i ∈ ins := (hord.input i c hc).mp (hct.trans ht)
    rw [hord.newIndex_input (getElem?_idxOf hi)]
  apply ext_getElem?
  intro k
  rw [getElem?_map, getElem?_map]
  by_cases hk : k < outs.length
  · obtain ⟨c, hc⟩ := hord.exists_live (i := outs[k]) (by simp)
    have htype := (hord.output _ c hc).mpr (getElem_mem hk)
    obtain ⟨hd, -⟩ := hstripped.getCell_output hord (getElem?_eq_getElem hk)
    have hsubnet := hvalue _ c hc (isKept_of_ne hc (by rw [htype]; decide)) 0
    rw [hd] at hsubnet
    have hbound : ∀ j, (s.netlist j).isSome → j < s.size := by
      intro j hj
      obtain ⟨g, hg⟩ := isSome_iff_exists.mp hj
      exact lt_of_netlist hg
    have hlive : (s.netlist outs[k]).isSome := by
      rw [netlist_isSome, hc]
      rfl
    have hbuilder := Netlist.value_eq hord.acyclic hord.closed hbound hinputs hlive 0
    rw [getElem?_range hk, getElem?_eq_getElem hk, map_some, map_some,
      hsubnet, hbuilder]
  · rw [getElem?_eq_none (by simpa using hk), getElem?_eq_none (Nat.not_lt.mp hk)]
    rfl

/-- The subnet computes what the builder did. -/
theorem Convertible.netFunction_make (h : s.Convertible) {S : Subnet} (hS : s.make true = some S)
    (lib : CellLibrary) : S.netFunction lib = s.netFunction lib := by
  obtain ⟨more, ins, mid, outs, hord⟩ := h.ordered
  have hout : outs ≠ [] := by
    rintro rfl
    rw [make, if_pos (.inl hord.nOut)] at hS
    cases hS
  obtain ⟨S', dst, neg, hS', hstripped⟩ := hord.make_eq hout h.narrow (.inr rfl)
  obtain rfl := some.inj (hS.symm.trans hS')
  exact hstripped.netFunction_eq hord hout h.plain lib

end SubnetBuilder

end UtopiaEda
