import Kakure.Lib.Loops

/-!
# Searching a graph with a worklist

A search from one node: a stack of nodes to look at, those that were looked at, and what was found at them.

* `turn` — one turn of the loop;
* `Kept`, `Kept.skip`, `Kept.expand` — the invariant of the loop, and that the two kinds of turns keep it;
* `answers_traverse` — a search that stays among finitely many nodes ends, and has found what can be reached;
* `sound_traverse` — what the steps keep holds of all that is found, whatever they answer.
-/

namespace Traverse

open Loops

variable {ν η ε : Type}

/-! ## The search -/

/-- What a node expands to: its neighbours, each with an edge, and whether more is cut off. -/
structure Found (ν η : Type) where
  expansions : List (ν × η)
  truncated : Bool

/-- A search: the nodes that were looked at, those to look at, and what was found. -/
structure State (ν η : Type) where
  visited : List ν
  worklist : List ν
  edges : List η
  truncated : List ν

/-- A search that has not begun. -/
def State.init (start : ν) : State ν η := ⟨[], [start], [], []⟩

/-- An element is added to a list that does not have it. -/
def insertNew {α : Type} [DecidableEq α] (xs : List α) (x : α) : List α := if x ∈ xs then xs else xs ++ [x]

section Turns

variable [DecidableEq ν] [DecidableEq η]

/-- A node is looked at: its edges are added, and its neighbours are put on the stack. -/
def State.expand (s : State ν η) (index : ν) (rest : List ν) (found : Found ν η) : State ν η where
  visited := s.visited ++ [index]
  worklist := ((found.expansions.map Prod.fst).filter (· ∉ s.visited ++ [index])).reverse ++ rest
  edges := (found.expansions.map Prod.snd).foldl insertNew s.edges
  truncated := if found.truncated then s.truncated ++ [index] else s.truncated

/-- One turn: the top of the stack is taken off, and is looked at unless it was. -/
def turn (step : ν → Except ε (Found ν η)) (s : State ν η) : Run ε (Turn (State ν η) (State ν η)) :=
  match s.worklist with
  | [] => pure (.done s)
  | index :: rest =>
    if index ∈ s.visited then pure (.again { s with worklist := rest })
    else ExceptT.mk (some (step index)) >>= fun found => pure (.again (s.expand index rest found))

end Turns

/-! ## What is found -/

/-- From a node to a neighbour. -/
def Next (found : ν → Found ν η) (v w : ν) : Prop := ∃ e, (w, e) ∈ (found v).expansions

/-- What can be reached from a node. -/
def Reaches (found : ν → Found ν η) : ν → ν → Prop := Relation.ReflTransGen (Next found)

/-- A search that is complete has what can be reached, each once. -/
structure Complete (found : ν → Found ν η) (start : ν) (s : State ν η) : Prop where
  visited_nodup : s.visited.Nodup
  mem_visited : ∀ v, v ∈ s.visited ↔ Reaches found start v
  edges_nodup : s.edges.Nodup
  mem_edges : ∀ e, e ∈ s.edges ↔ ∃ v w, Reaches found start v ∧ (w, e) ∈ (found v).expansions
  truncated_nodup : s.truncated.Nodup
  mem_truncated : ∀ v, v ∈ s.truncated ↔ Reaches found start v ∧ (found v).truncated = true

/-- The invariant of the loop. -/
structure Kept (found : ν → Found ν η) (start : ν) (s : State ν η) : Prop where
  visited_nodup : s.visited.Nodup
  sound : ∀ v, v ∈ s.visited ∨ v ∈ s.worklist → Reaches found start v
  start : start ∈ s.visited ∨ start ∈ s.worklist
  closed : ∀ v ∈ s.visited, ∀ w, Next found v w → w ∈ s.visited ∨ w ∈ s.worklist
  edges_nodup : s.edges.Nodup
  mem_edges : ∀ e, e ∈ s.edges ↔ ∃ v w, v ∈ s.visited ∧ (w, e) ∈ (found v).expansions
  truncated_nodup : s.truncated.Nodup
  mem_truncated : ∀ v, v ∈ s.truncated ↔ v ∈ s.visited ∧ (found v).truncated = true

variable {found : ν → Found ν η} {start : ν} {s : State ν η}

theorem kept_init : Kept found start (State.init start) where
  visited_nodup := List.nodup_nil
  sound v hv := by
    rcases hv with hv | hv
    · cases hv
    · rw [List.mem_singleton.1 hv]
      exact Relation.ReflTransGen.refl
  start := Or.inr (List.mem_singleton_self start)
  closed v hv := absurd hv List.not_mem_nil
  edges_nodup := List.nodup_nil
  mem_edges e := ⟨fun h => absurd h List.not_mem_nil, fun ⟨v, w, hv, _⟩ => absurd hv List.not_mem_nil⟩
  truncated_nodup := List.nodup_nil
  mem_truncated v := ⟨fun h => absurd h List.not_mem_nil, fun h => absurd h.1 List.not_mem_nil⟩

/-- When the stack is empty, everything that can be reached was looked at. -/
theorem Kept.complete (h : Kept found start s) (hnil : s.worklist = []) : Complete found start s := by
  have hvisited : ∀ v, v ∈ s.visited ∨ v ∈ s.worklist → v ∈ s.visited := by
    rintro v (hv | hv)
    · exact hv
    · rw [hnil] at hv
      cases hv
  have hmem : ∀ v, v ∈ s.visited ↔ Reaches found start v := by
    refine fun v => ⟨fun hv => h.sound v (Or.inl hv), fun hv => ?_⟩
    induction hv with
    | refl => exact hvisited start h.start
    | tail _ hnext ih => exact hvisited _ (h.closed _ ih _ hnext)
  refine ⟨h.visited_nodup, hmem, h.edges_nodup, fun e => ?_, h.truncated_nodup, fun v => ?_⟩
  · rw [h.mem_edges]
    simp only [hmem]
  · rw [h.mem_truncated, hmem]

theorem mem_foldl_insertNew {α : Type} [DecidableEq α] {xs ys : List α} {x : α} :
    x ∈ ys.foldl insertNew xs ↔ x ∈ xs ∨ x ∈ ys := by
  induction ys generalizing xs with
  | nil => simp
  | cons y ys ih =>
    rw [List.foldl_cons, ih, List.mem_cons, ← or_assoc]
    refine or_congr_left ?_
    unfold insertNew
    split
    · rename_i hy
      refine ⟨Or.inl, ?_⟩
      rintro (hx | rfl)
      · exact hx
      · exact hy
    · rw [List.mem_append, List.mem_singleton]

theorem nodup_foldl_insertNew {α : Type} [DecidableEq α] {xs ys : List α} (h : xs.Nodup) :
    (ys.foldl insertNew xs).Nodup := by
  induction ys generalizing xs with
  | nil => exact h
  | cons y ys ih =>
    refine ih ?_
    unfold insertNew
    split
    · exact h
    · rename_i hy
      refine List.nodup_append.2 ⟨h, List.nodup_singleton y, fun a ha b hb => ?_⟩
      rw [List.mem_singleton.1 hb]
      rintro rfl
      exact hy ha

/-- A node that was looked at is skipped. -/
theorem Kept.skip {index : ν} {rest : List ν} (h : Kept found start s) (hs : s.worklist = index :: rest)
    (hindex : index ∈ s.visited) : Kept found start { s with worklist := rest } := by
  have hrest : ∀ v, v ∈ s.visited ∨ v ∈ s.worklist → v ∈ s.visited ∨ v ∈ rest := by
    rintro v (hv | hv)
    · exact Or.inl hv
    · rw [hs, List.mem_cons] at hv
      rcases hv with rfl | hv
      · exact Or.inl hindex
      · exact Or.inr hv
  refine ⟨h.visited_nodup, fun v hv => h.sound v (hv.imp_right fun hmem => ?_), hrest _ h.start,
    fun v hv w hw => hrest w (h.closed v hv w hw), h.edges_nodup, h.mem_edges, h.truncated_nodup, h.mem_truncated⟩
  rw [hs]
  exact List.mem_cons_of_mem index hmem

section Left

variable [DecidableEq ν]

/-- The turns that are left at most: those on the stack, and the neighbours of what was not looked at. -/
def left (found : ν → Found ν η) (V : Finset ν) (s : State ν η) : ℕ :=
  s.worklist.length + ∑ v ∈ V with v ∉ s.visited, (found v).expansions.length

theorem left_skip {V : Finset ν} {index : ν} {rest : List ν} (hs : s.worklist = index :: rest) :
    left found V { s with worklist := rest } < left found V s := by
  unfold left
  rw [hs, List.length_cons]
  exact Nat.add_lt_add_right (Nat.lt_succ_self _) _

end Left

section Turns

variable [DecidableEq ν] [DecidableEq η]

/-- A node that was not is looked at. -/
theorem Kept.expand {index : ν} {rest : List ν} (h : Kept found start s) (hs : s.worklist = index :: rest)
    (hindex : index ∉ s.visited) : Kept found start (s.expand index rest (found index)) := by
  have hreach : Reaches found start index := h.sound index (Or.inr (hs ▸ List.mem_cons_self))
  have hvisited : ∀ v, v ∈ (s.expand index rest (found index)).visited ↔ v ∈ s.visited ∨ v = index := fun v => by
    rw [State.expand, List.mem_append, List.mem_singleton]
  have hrest : ∀ v, v ∈ s.visited ∨ v ∈ s.worklist →
      v ∈ (s.expand index rest (found index)).visited ∨ v ∈ (s.expand index rest (found index)).worklist := by
    rintro v (hv | hv)
    · exact Or.inl ((hvisited v).2 (Or.inl hv))
    · rw [hs, List.mem_cons] at hv
      rcases hv with rfl | hv
      · exact Or.inl ((hvisited _).2 (Or.inr rfl))
      · exact Or.inr (List.mem_append_right _ hv)
  have hnodup : ∀ {xs : List ν}, xs.Nodup → index ∉ xs → (xs ++ [index]).Nodup := by
    intro xs hxs hnot
    refine List.nodup_append.2 ⟨hxs, List.nodup_singleton index, fun a ha b hb => ?_⟩
    rw [List.mem_singleton.1 hb]
    rintro rfl
    exact hnot ha
  refine ⟨hnodup h.visited_nodup hindex, ?_, hrest _ h.start, ?_, nodup_foldl_insertNew h.edges_nodup, fun e => ?_, ?_,
    fun v => ?_⟩
  · rintro v (hv | hv)
    · rcases (hvisited v).1 hv with hold | rfl
      · exact h.sound v (Or.inl hold)
      · exact hreach
    · rw [State.expand, List.mem_append, List.mem_reverse, List.mem_filter] at hv
      rcases hv with ⟨hnew, -⟩ | hold
      · obtain ⟨⟨w, e⟩, hx, rfl⟩ := List.mem_map.1 hnew
        exact hreach.tail ⟨e, hx⟩
      · exact h.sound v (Or.inr (hs ▸ List.mem_cons_of_mem index hold))
  · rintro v hv w ⟨e, hx⟩
    rcases (hvisited v).1 hv with hold | rfl
    · exact hrest w (h.closed v hold w ⟨e, hx⟩)
    · -- a neighbour was looked at, or is put on the stack
      by_cases hw : w ∈ s.visited ++ [v]
      · exact Or.inl hw
      · refine Or.inr (List.mem_append_left _ (List.mem_reverse.2 (List.mem_filter.2 ⟨?_, by simpa using hw⟩)))
        exact List.mem_map_of_mem (f := Prod.fst) hx
  · rw [State.expand, mem_foldl_insertNew, h.mem_edges, List.mem_map]
    constructor
    · rintro (⟨v, w, hv, hx⟩ | ⟨⟨w, e⟩, hx, rfl⟩)
      · exact ⟨v, w, List.mem_append_left _ hv, hx⟩
      · exact ⟨index, w, List.mem_append_right _ (List.mem_singleton_self index), hx⟩
    · rintro ⟨v, w, hv, hx⟩
      rcases (hvisited v).1 hv with hold | rfl
      · exact Or.inl ⟨v, w, hold, hx⟩
      · exact Or.inr ⟨(w, e), hx, rfl⟩
  · have hnot : index ∉ s.truncated := fun hmem => hindex ((h.mem_truncated index).1 hmem).1
    unfold State.expand
    dsimp only
    split
    · exact hnodup h.truncated_nodup hnot
    · exact h.truncated_nodup
  · rw [hvisited]
    unfold State.expand
    dsimp only
    split
    · rename_i htruncated
      rw [List.mem_append, List.mem_singleton, h.mem_truncated]
      constructor
      · rintro (⟨hold, hv⟩ | rfl)
        · exact ⟨Or.inl hold, hv⟩
        · exact ⟨Or.inr rfl, htruncated⟩
      · rintro ⟨hold | rfl, hv⟩
        · exact Or.inl ⟨hold, hv⟩
        · exact Or.inr rfl
    · rename_i htruncated
      rw [h.mem_truncated]
      constructor
      · rintro ⟨hold, hv⟩
        exact ⟨Or.inl hold, hv⟩
      · rintro ⟨hold | rfl, hv⟩
        · exact ⟨hold, hv⟩
        · exact absurd hv htruncated

theorem left_expand {V : Finset ν} {index : ν} {rest : List ν} (hs : s.worklist = index :: rest) (hV : index ∈ V)
    (hindex : index ∉ s.visited) : left found V (s.expand index rest (found index)) < left found V s := by
  unfold left
  have hpushed : (s.expand index rest (found index)).worklist.length ≤ (found index).expansions.length + rest.length := by
    rw [State.expand, List.length_append, List.length_reverse]
    refine Nat.add_le_add_right ?_ _
    calc _ ≤ ((found index).expansions.map Prod.fst).length := List.length_filter_le _ _
      _ = _ := List.length_map _
  -- the node that is looked at leaves the sum
  have hsplit : (V.filter (· ∉ s.visited)) = insert index (V.filter (· ∉ (s.expand index rest (found index)).visited)) := by
    ext v
    rw [Finset.mem_insert, Finset.mem_filter, Finset.mem_filter, State.expand, List.mem_append, List.mem_singleton]
    constructor
    · rintro ⟨hv, hnot⟩
      by_cases heq : v = index
      · exact Or.inl heq
      · exact Or.inr ⟨hv, fun hmem => hmem.elim hnot heq⟩
    · rintro (rfl | ⟨hv, hnot⟩)
      · exact ⟨hV, hindex⟩
      · exact ⟨hv, fun hmem => hnot (Or.inl hmem)⟩
  have hout : index ∉ V.filter (· ∉ (s.expand index rest (found index)).visited) := by
    rw [Finset.mem_filter, State.expand]
    exact fun hmem => hmem.2 (List.mem_append_right _ (List.mem_singleton_self index))
  rw [hsplit, Finset.sum_insert hout, hs, List.length_cons]
  omega

/-- A search among finitely many nodes ends, and has found what can be reached. -/
theorem answers_traverse {step : ν → Except ε (Found ν η)} {V : Finset ν} (hstart : start ∈ V)
    (hstep : ∀ v ∈ V, step v = .ok (found v)) (hclosed : ∀ v ∈ V, ∀ w, Next found v w → w ∈ V) {turns : ℕ}
    (hturns : 1 + ∑ v ∈ V, (found v).expansions.length < turns) :
    Answers (loop (turn step) turns (State.init start)) (Complete found start) := by
  have hreach : ∀ {v}, Reaches found start v → v ∈ V := by
    intro v hv
    induction hv with
    | refl => exact hstart
    | tail _ hnext ih => exact hclosed _ ih _ hnext
  refine answers_loop (I := fun n s => Kept found start s ∧ left found V s ≤ n) ?_ hturns ⟨kept_init, ?_⟩
  · rintro n s ⟨hkept, hn⟩
    unfold turn
    cases hs : s.worklist with
    | nil => exact answers_pure (hkept.complete hs)
    | cons index rest =>
      dsimp only
      split
      · rename_i hindex
        exact answers_pure ⟨_, lt_of_lt_of_le (left_skip hs) hn, hkept.skip hs hindex, le_refl _⟩
      · rename_i hindex
        have hV : index ∈ V := hreach (hkept.sound index (Or.inr (hs ▸ List.mem_cons_self)))
        rw [hstep index hV]
        exact answers_pure ⟨_, lt_of_lt_of_le (left_expand hs hV hindex) hn, hkept.expand hs hindex, le_refl _⟩
  · unfold left
    refine Nat.add_le_add (le_refl _) (Finset.sum_le_sum_of_subset (Finset.filter_subset _ _))

/-- Whatever the steps answer: what they keep holds of all that is found. -/
theorem sound_traverse {step : ν → Except ε (Found ν η)} {R : ν → Prop} {E : η → Prop} (hstart : R start)
    (hstep : ∀ v f, R v → step v = .ok f → ∀ x ∈ f.expansions, R x.1 ∧ E x.2) {turns : ℕ}
    (h : loop (turn step) turns (State.init start) = pure s) : (∀ v ∈ s.visited, R v) ∧ ∀ e ∈ s.edges, E e := by
  refine keeps_loop (I := fun s => (∀ v, v ∈ s.visited ∨ v ∈ s.worklist → R v) ∧ ∀ e ∈ s.edges, E e)
    (Q := fun s => (∀ v ∈ s.visited, R v) ∧ ∀ e ∈ s.edges, E e) ?_ ⟨?_, fun e he => absurd he List.not_mem_nil⟩ h
  · rintro s t ⟨hnodes, hedges⟩ hturn
    unfold turn at hturn
    cases hs : s.worklist with
    | nil =>
      rw [hs] at hturn
      rw [← pure_inj.1 hturn]
      exact ⟨fun v hv => hnodes v (Or.inl hv), hedges⟩
    | cons index rest =>
      rw [hs] at hturn
      dsimp only at hturn
      split at hturn
      · rw [← pure_inj.1 hturn]
        refine ⟨fun v hv => hnodes v (hv.imp_right fun hmem => ?_), hedges⟩
        rw [hs]
        exact List.mem_cons_of_mem index hmem
      · obtain ⟨f, hf, hturn⟩ := bind_eq_pure.1 hturn
        have hok : step index = .ok f := Option.some.inj hf
        have hfound := hstep index f (hnodes index (Or.inr (hs ▸ List.mem_cons_self))) hok
        rw [← pure_inj.1 hturn]
        refine ⟨fun v hv => ?_, fun e he => ?_⟩
        · rw [State.expand] at hv
          rcases hv with hv | hv
          · rcases List.mem_append.1 hv with hold | hnew
            · exact hnodes v (Or.inl hold)
            · rw [List.mem_singleton.1 hnew]
              exact hnodes index (Or.inr (hs ▸ List.mem_cons_self))
          · rcases List.mem_append.1 hv with hnew | hold
            · obtain ⟨x, hx, rfl⟩ := List.mem_map.1 (List.mem_of_mem_filter (List.mem_reverse.1 hnew))
              exact (hfound x hx).1
            · exact hnodes v (Or.inr (hs ▸ List.mem_cons_of_mem index hold))
        · rw [State.expand, mem_foldl_insertNew] at he
          rcases he with hold | hnew
          · exact hedges e hold
          · obtain ⟨x, hx, rfl⟩ := List.mem_map.1 hnew
            exact (hfound x hx).2
  · rintro v (hv | hv)
    · cases hv
    · rw [List.mem_singleton.1 hv]
      exact hstart

end Turns

end Traverse
