import Mathlib.Data.Finset.Card
import Mathlib.Logic.Relation

/-!
# Breadth-first searches

A search from a node through its children stops at the first child with a property. The nodes that
were seen wait in a queue until their children are visited. The node the search starts from is not
tested.
-/
namespace UtopiaEda.BreadthFirstSearch
open List

variable {α : Type} (children : α → List α) (goal : α → Option Bool)

def visit [DecidableEq α] : List α → List α → List α → Option (Bool × List α × List α)
  | [], visited, queue => some (false, visited, queue)
  | a :: as, visited, queue =>
    if a ∈ visited then visit as visited queue
    else do
      if ← goal a then some (true, visited ++ [a], queue ++ [a])
      else visit as (visited ++ [a]) (queue ++ [a])

/-- The search takes at most as many nodes off the queue as the number says. -/
def search [DecidableEq α] : ℕ → List α → List α → Option Bool
  | _, _, [] => some false
  | 0, _, _ => none
  | n + 1, visited, a :: queue => do
    let (found, visited, queue) ← visit goal (children a) visited queue
    if found then some true else search n visited queue

/-- A node can be reached through children. -/
def Reaches (a b : α) : Prop := Relation.ReflTransGen (fun a b => b ∈ children a) a b

def Hits (start : α) : Prop := ∃ a ≠ start, Reaches children start a ∧ goal a = some true

structure Searched (start : α) (rest visited queue : List α) : Prop where
  began : start ∈ visited
  nodup : visited.Nodup
  waiting : ∀ a ∈ queue, a ∈ visited
  reached : ∀ a ∈ visited, Reaches children start a
  tested : ∀ a ∈ visited, a = start ∨ goal a = some false
  closed : ∀ a ∈ visited, a ∈ queue ∨ ∀ b ∈ children a, b ∈ visited ∨ b ∈ rest

variable {children goal} {start : α} {rest visited queue : List α}

theorem Searched.init (start : α) : Searched children goal start [] [start] [start] := by
  refine ⟨mem_singleton_self _, nodup_singleton _, fun a ha => ha, fun a ha => ?_,
    fun a ha => ?_, fun a ha => .inl ha⟩
  · rw [mem_singleton.mp ha]
    exact .refl
  · exact .inl (mem_singleton.mp ha)

theorem Searched.pop {a : α} (h : Searched children goal start [] visited (a :: queue)) :
    Searched children goal start (children a) visited queue := by
  refine ⟨h.began, h.nodup, fun b hb => h.waiting b (mem_cons_of_mem a hb), h.reached, h.tested,
    fun b hb => ?_⟩
  rcases h.closed b hb with hmem | hclosed
  · rcases mem_cons.mp hmem with rfl | hmem
    · exact .inr fun c hc => .inr hc
    · exact .inl hmem
  · refine .inr fun c hc => ?_
    rcases hclosed c hc with hc | hc
    · exact .inl hc
    · cases hc

theorem Searched.skip {a : α} (h : Searched children goal start (a :: rest) visited queue)
    (ha : a ∈ visited) : Searched children goal start rest visited queue := by
  refine ⟨h.began, h.nodup, h.waiting, h.reached, h.tested, fun b hb => ?_⟩
  rcases h.closed b hb with hmem | hclosed
  · exact .inl hmem
  · refine .inr fun c hc => ?_
    rcases hclosed c hc with hc | hc
    · exact .inl hc
    · rcases mem_cons.mp hc with rfl | hc
      · exact .inl ha
      · exact .inr hc

theorem Searched.push {a : α} (h : Searched children goal start (a :: rest) visited queue)
    (ha : a ∉ visited) (hreach : Reaches children start a) (hgoal : goal a = some false) :
    Searched children goal start rest (visited ++ [a]) (queue ++ [a]) := by
  have hnew : ∀ {b}, b ∈ visited ++ [a] ↔ b ∈ visited ∨ b = a := by
    intro b
    rw [mem_append, mem_singleton]
  refine ⟨hnew.mpr (.inl h.began), ?_, fun b hb => ?_, fun b hb => ?_, fun b hb => ?_,
    fun b hb => ?_⟩
  · exact h.nodup.append (nodup_singleton a) (disjoint_singleton.mpr ha)
  · rcases mem_append.mp hb with hb | hb
    · exact hnew.mpr (.inl (h.waiting b hb))
    · exact hnew.mpr (.inr (mem_singleton.mp hb))
  · rcases hnew.mp hb with hb | rfl
    · exact h.reached b hb
    · exact hreach
  · rcases hnew.mp hb with hb | rfl
    · exact h.tested b hb
    · exact .inr hgoal
  · rcases hnew.mp hb with hb | rfl
    · rcases h.closed b hb with hmem | hclosed
      · exact .inl (mem_append_left _ hmem)
      · refine .inr fun c hc => ?_
        rcases hclosed c hc with hc | hc
        · exact .inl (hnew.mpr (.inl hc))
        · rcases mem_cons.mp hc with rfl | hc
          · exact .inl (hnew.mpr (.inr rfl))
          · exact .inr hc
    · exact .inl (mem_append_right _ (mem_singleton_self _))

theorem Searched.not_hits (h : Searched children goal start [] visited []) :
    ¬ Hits children goal start := by
  rintro ⟨a, hne, hreach, hgoal⟩
  have hvisited : ∀ {b}, Reaches children start b → b ∈ visited := by
    intro b hb
    induction hb with
    | refl => exact h.began
    | tail _ hchild ih =>
      rcases h.closed _ ih with hmem | hclosed
      · cases hmem
      · exact (hclosed _ hchild).resolve_right not_mem_nil
  rcases h.tested a (hvisited hreach) with heq | hfalse
  · exact hne heq
  · rw [hgoal] at hfalse
    cases hfalse

variable [DecidableEq α]

theorem Searched.visit (hdefined : ∀ a, Reaches children start a → (goal a).isSome) :
    ∀ {rest visited queue}, Searched children goal start rest visited queue →
    (∀ a ∈ rest, Reaches children start a) →
    ∃ found visited' queue', visit goal rest visited queue = some (found, visited', queue') ∧
      (found = true → Hits children goal start) ∧
      (found = false → Searched children goal start [] visited' queue' ∧
        queue'.length + visited.length = queue.length + visited'.length) := by
  intro rest
  induction rest with
  | nil => exact fun h _ => ⟨false, _, _, rfl, fun hf => Bool.noConfusion hf, fun _ => ⟨h, rfl⟩⟩
  | cons a rest ih =>
    intro visited queue h hreach
    have hrest : ∀ b ∈ rest, Reaches children start b := fun b hb => hreach b (mem_cons_of_mem a hb)
    have ha := hreach a mem_cons_self
    rw [BreadthFirstSearch.visit]
    by_cases hmem : a ∈ visited
    · rw [if_pos hmem]
      exact ih (h.skip hmem) hrest
    · rw [if_neg hmem]
      obtain ⟨b, hb⟩ := Option.isSome_iff_exists.mp (hdefined a ha)
      rw [hb]
      cases b with
      | true =>
        refine ⟨true, _, _, rfl, fun _ => ⟨a, ?_, ha, hb⟩, fun hf => Bool.noConfusion hf⟩
        rintro rfl
        exact hmem h.began
      | false =>
        obtain ⟨found, visited', queue', hrun, htrue, hfalse⟩ := ih (h.push hmem ha hb) hrest
        refine ⟨found, visited', queue', hrun, htrue, fun hf => ?_⟩
        obtain ⟨hsearched, hlen⟩ := hfalse hf
        refine ⟨hsearched, ?_⟩
        simp only [length_append, length_singleton] at hlen
        omega

/-- With enough turns for the nodes that can be reached the search ends, and it finds a node with
the property if there is one. -/
theorem Searched.search {L : Finset α} (hL : ∀ a, Reaches children start a → a ∈ L)
    (hdefined : ∀ a, Reaches children start a → (goal a).isSome) :
    ∀ {n visited queue}, Searched children goal start [] visited queue → queue.length + L.card ≤
    n + visited.length → ∃ found, search children goal n visited queue = some found ∧
    (found = true ↔ Hits children goal start) := by
  intro n
  induction n with
  | zero =>
    intro visited queue h hn
    have hcard : visited.length ≤ L.card := by
      rw [← toFinset_card_of_nodup h.nodup]
      exact Finset.card_le_card fun a ha => hL a (h.reached a (mem_toFinset.mp ha))
    obtain rfl : queue = [] := length_eq_zero_iff.mp (by omega)
    exact ⟨false, rfl, fun hf => Bool.noConfusion hf, fun hits => absurd hits h.not_hits⟩
  | succ n ih =>
    intro visited queue h hn
    cases queue with
    | nil => exact ⟨false, rfl, fun hf => Bool.noConfusion hf, fun hits => absurd hits h.not_hits⟩
    | cons a queue =>
      have ha := h.reached a (h.waiting a mem_cons_self)
      obtain ⟨found, visited', queue', hrun, htrue, hfalse⟩ :=
        h.pop.visit hdefined (fun b hb => ha.tail hb)
      rw [BreadthFirstSearch.search, hrun]
      cases found with
      | true => exact ⟨true, rfl, fun _ => htrue rfl, fun _ => rfl⟩
      | false =>
        obtain ⟨hsearched, hlen⟩ := hfalse rfl
        rw [length_cons] at hn
        exact ih hsearched (by omega)

/-- The search from a node, when it begins. -/
theorem search_eq (children : α → List α) (goal : α → Option Bool) (start : α) (L : Finset α)
    (hL : ∀ a, Reaches children start a → a ∈ L)
    (hdefined : ∀ a, Reaches children start a → (goal a).isSome) {n : ℕ} (hn : L.card ≤ n) :
    ∃ found, search children goal n [start] [start] = some found ∧
    (found = true ↔ Hits children goal start) :=
  (Searched.init start).search hL hdefined (by
    rw [length_singleton]
    omega)

end UtopiaEda.BreadthFirstSearch
