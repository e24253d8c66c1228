import Kakure.Pool.Ring
import Kakure.Pool.Spec

/-!
# The insert history of the pool

The tree fields of the pool account are determined by the inserts its log reports, from
the genesis leaf on.

* `History` — the pool's tree fields are those of an empty account after these inserts;
* `History.leafIndex`, `History.shows`, `History.cases` — the events are numbered from 0,
  the ring shows their roots, and the leaves are canonical unless the first one is not
  and nothing follows it;
* `History.root_eq` — every event reports the root of the leaves up to it.
-/

namespace Kakure

open Slices LeanTree

variable {poseidon : Fr → Fr → Fr → Fr}

/-! ## Growth -/

theorem Grows.congr {p q p' : Pool} {evs : List NoteInserted} (h : Grows poseidon p evs p')
    (hpq : SameTree p q) : ∃ q', Grows poseidon q evs q' ∧ SameTree p' q' := by
  induction evs generalizing p q with
  | nil =>
    cases h
    exact ⟨q, rfl, hpq⟩
  | cons ev evs ih =>
    obtain ⟨r, hins, hrest⟩ := h
    obtain ⟨r', hins', hsame⟩ := insert_congr poseidon hpq hins
    obtain ⟨q', hgrows, hsame'⟩ := ih hrest hsame
    exact ⟨q', ⟨r', hins', hgrows⟩, hsame'⟩

/-- Every prefix of the events leads somewhere. -/
theorem Grows.take {p q : Pool} {evs : List NoteInserted} (h : Grows poseidon p evs q) (n : ℕ) :
    ∃ r, Grows poseidon p (evs.take n) r := by
  induction evs generalizing p n with
  | nil =>
    rw [List.take_nil]
    exact ⟨q, h⟩
  | cons ev evs ih =>
    obtain ⟨p', hins, hrest⟩ := h
    cases n with
    | zero => exact ⟨p, rfl⟩
    | succ n =>
      obtain ⟨r, hr⟩ := ih hrest n
      exact ⟨r, p', hins, hr⟩

/-- The events are numbered from the leaf count on. -/
theorem Grows.leafIndex {p q : Pool} {evs : List NoteInserted} (h : Grows poseidon p evs q) {k : ℕ}
    {ev : NoteInserted} (hk : evs[k]? = some ev) : ev.leafIndex = p.nextLeafIndex + k := by
  induction evs generalizing p k with
  | nil => simp at hk
  | cons ev' evs ih =>
    obtain ⟨p', hins, hrest⟩ := h
    obtain ⟨-, -, hindex, -⟩ := insert_eq_ok poseidon hins
    cases k with
    | zero =>
      rw [List.getElem?_cons_zero, Option.some_inj] at hk
      rw [← hk, hindex, Nat.add_zero]
    | succ k =>
      rw [List.getElem?_cons_succ] at hk
      rw [ih hrest hk, nextLeafIndex_insert poseidon hins, Nat.add_assoc, Nat.add_comm 1 k]

/-- The ring takes up the roots of the events. -/
theorem Grows.shows {p q : Pool} {evs : List NoteInserted} (h : Grows poseidon p evs q)
    {roots : List (Bytes 32)} (hshows : p.Shows roots) :
    q.Shows (roots ++ evs.map NoteInserted.root) := by
  induction evs generalizing p roots with
  | nil =>
    cases h
    simpa using hshows
  | cons ev evs ih =>
    obtain ⟨p', hins, hrest⟩ := h
    have := ih hrest (shows_insert hshows hins)
    rwa [List.append_assoc, List.singleton_append] at this

/-- A growth is a run of inserts of its leaves that returns the root of the last event. -/
theorem Grows.insertAll {q : Pool} {evs : List NoteInserted}
    (h : Grows poseidon Pool.empty evs q) :
    insertAll poseidon Pool.empty (evs.map NoteInserted.leaf) =
      .ok (q, evs.getLast?.map NoteInserted.root) := by
  induction evs using List.reverseRecOn generalizing q with
  | nil =>
    cases h
    rfl
  | append_singleton evs ev ih =>
    obtain ⟨r, hr⟩ := h.take evs.length
    rw [List.take_left] at hr
    -- the last event is an insert into the pool before it
    have hlast : insert poseidon r ev.leaf = .ok (q, ev.leafIndex, ev.root) := by
      clear ih
      generalize hp : Pool.empty = p at h hr
      clear hp
      induction evs generalizing p with
      | nil =>
        cases hr
        obtain ⟨q', hins, hq⟩ := h
        cases hq
        exact hins
      | cons ev' evs ih =>
        obtain ⟨p₁, hins₁, hrest₁⟩ := h
        obtain ⟨p₂, hins₂, hrest₂⟩ := hr
        rw [hins₁, Except.ok.injEq, Prod.mk.injEq] at hins₂
        obtain ⟨rfl, -⟩ := hins₂
        exact ih _ hrest₁ hrest₂
    rw [List.map_append, List.map_singleton, List.getLast?_append]
    exact insertAll_append_of_ok poseidon (ih hr) hlast

/-! ## Histories -/

/-- The tree fields of the pool are those of an empty account after these inserts. -/
def History (poseidon : Fr → Fr → Fr → Fr) (pool : Pool) (evs : List NoteInserted) : Prop :=
  ∃ p, Grows poseidon Pool.empty evs p ∧ SameTree p pool

theorem History.congr {p q : Pool} {evs : List NoteInserted} (h : History poseidon p evs)
    (hpq : SameTree p q) : History poseidon q evs := by
  obtain ⟨r, hgrows, hsame⟩ := h
  exact ⟨r, hgrows, hsame.trans hpq⟩

/-- Further inserts append their events. -/
theorem History.grow {p q : Pool} {evs evs' : List NoteInserted} (h : History poseidon p evs)
    (hgrows : Grows poseidon p evs' q) : History poseidon q (evs ++ evs') := by
  obtain ⟨r, hr, hsame⟩ := h
  obtain ⟨r', hr', hsame'⟩ := hgrows.congr hsame.symm
  refine ⟨r', ?_, hsame'.symm⟩
  clear hsame hsame'
  generalize Pool.empty = p₀ at hr
  induction evs generalizing p₀ with
  | nil =>
    cases hr
    exact hr'
  | cons ev evs ih =>
    obtain ⟨p₁, hins, hrest⟩ := hr
    exact ⟨p₁, hins, ih _ hrest⟩

/-- The first inserts are the history of the pool as it was then. -/
theorem History.take {pool : Pool} {evs : List NoteInserted} (h : History poseidon pool evs) (n : ℕ) :
    ∃ q, History poseidon q (evs.take n) := by
  obtain ⟨p, hgrows, -⟩ := h
  obtain ⟨q, hq⟩ := hgrows.take n
  exact ⟨q, q, hq, SameTree.refl q⟩

/-- The events are numbered 0, 1, …. -/
theorem History.leafIndex {pool : Pool} {evs : List NoteInserted} (h : History poseidon pool evs)
    {k : ℕ} {ev : NoteInserted} (hk : evs[k]? = some ev) : ev.leafIndex = k := by
  obtain ⟨p, hgrows, -⟩ := h
  have hempty := (treeState_empty poseidon).nextLeafIndex
  rw [hgrows.leafIndex hk, hempty, List.length_nil, Nat.zero_add]

theorem History.nextLeafIndex {pool : Pool} {evs : List NoteInserted}
    (h : History poseidon pool evs) : pool.nextLeafIndex = evs.length := by
  obtain ⟨p, hgrows, hsame⟩ := h
  have hcount := nextLeafIndex_insertAll poseidon hgrows.insertAll
  have hempty := (treeState_empty poseidon).nextLeafIndex
  have hget : pool.nextLeafIndex = p.nextLeafIndex := by
    unfold Pool.nextLeafIndex
    rw [hsame .nextLeafIndex rfl]
  rw [hget, hcount, hempty, List.length_map, List.length_nil, Nat.zero_add]

/-- The ring shows the roots the events report. -/
theorem History.shows {pool : Pool} {evs : List NoteInserted} (h : History poseidon pool evs) :
    pool.Shows (evs.map NoteInserted.root) := by
  obtain ⟨p, hgrows, hsame⟩ := h
  refine (hgrows.shows shows_empty).congr ?_ fun j => ?_
  · unfold Pool.rootCursor
    rw [hsame .rootCursor rfl]
  · exact (hsame (.root j) rfl).symm

/-- The leaves are nonzero canonical field elements and the account stands for them, or there is
one leaf, it is not canonical and the account is stuck. -/
theorem History.cases {pool : Pool} {evs : List NoteInserted} (h : History poseidon pool evs) :
    (∃ xs : List Fr, evs.map NoteInserted.leaf = xs.map Fr.toBytes ∧ xs.length ≤ 2 ^ 32 ∧
        (∀ x ∈ xs, x ≠ 0) ∧ TreeState poseidon pool xs) ∨
      ∃ ev, evs = [ev] ∧ ¬ Canonical ev.leaf ∧ Stuck pool ∧ ev.root = ev.leaf := by
  obtain ⟨p, hgrows, hsame⟩ := h
  rcases insertAll_cases poseidon hgrows.insertAll with
    ⟨xs, hxs, hlen, hstate, -⟩ | ⟨leaf, hleaf, hnot, hstuck, hout⟩
  · refine Or.inl ⟨xs, hxs, hlen, ?_, hstate.congr poseidon hsame⟩
    -- no insert takes the zero leaf
    rintro x hx rfl
    have hmem : (0 : Fr).toBytes ∈ evs.map NoteInserted.leaf := by
      rw [hxs]
      exact List.mem_map_of_mem hx
    obtain ⟨ev, hev, hzero⟩ := List.mem_map.1 hmem
    rw [(toBytes_eq_zero_iff 0).2 rfl] at hzero
    clear hsame hxs hmem hstate
    generalize Pool.empty = p₀ at hgrows
    induction evs generalizing p₀ with
    | nil => cases hev
    | cons ev' evs ih =>
      obtain ⟨p₁, hins, hrest⟩ := hgrows
      rcases List.mem_cons.1 hev with rfl | hev
      · exact (insert_eq_ok poseidon hins).1 hzero
      · exact ih hev _ hrest
  · obtain ⟨ev, rfl⟩ : ∃ ev, evs = [ev] := by
      have hone : evs.length = 1 := by
        have := congrArg List.length hleaf
        simpa using this
      exact List.length_eq_one_iff.1 hone
    cases hleaf
    refine Or.inr ⟨ev, rfl, hnot, hstuck.congr hsame, ?_⟩
    simpa using hout

/-- Every event reports the root of the leaves up to its own. -/
theorem History.root_eq {pool : Pool} {evs : List NoteInserted} {xs : List Fr}
    (h : History poseidon pool evs) (hxs : evs.map NoteInserted.leaf = xs.map Fr.toBytes) {k : ℕ}
    {ev : NoteInserted} (hk : evs[k]? = some ev) :
    ev.root = (LeanTree.root (nodeHash poseidon) 0 (xs.take (k + 1))).toBytes := by
  obtain ⟨p, hgrows, -⟩ := h
  obtain ⟨hklt, hget⟩ := List.getElem?_eq_some_iff.1 hk
  obtain ⟨r, hr⟩ := hgrows.take (k + 1)
  have hlast : (evs.take (k + 1)).getLast? = some ev := by
    rw [List.getLast?_eq_getElem?, List.length_take, Nat.min_eq_left hklt, Nat.succ_sub_one,
      List.getElem?_take_of_lt (Nat.lt_succ_self k), hk]
  have hleaves : (evs.take (k + 1)).map NoteInserted.leaf = (xs.take (k + 1)).map Fr.toBytes := by
    rw [List.map_take, hxs, List.map_take]
  have hrun := hr.insertAll
  rw [hlast, hleaves] at hrun
  have hne : xs.take (k + 1) ≠ [] := by
    have hlen : xs.length = evs.length := by
      have := congrArg List.length hxs
      simpa using this.symm
    intro hnil
    have := congrArg List.length hnil
    rw [List.length_take, List.length_nil] at this
    omega
  rcases insertAll_cases poseidon hrun with ⟨ys, hys, -, -, hout⟩ | ⟨leaf, hleaf, hnot, -⟩
  · have hsame : xs.take (k + 1) = ys := toBytes_injective.list_map hys
    rw [rootOf, ← hsame, if_neg hne, Option.map_some, Option.some_inj] at hout
    exact hout
  · -- a canonical leaf is not the stuck one
    refine absurd ?_ hnot
    have hmem : leaf ∈ (xs.take (k + 1)).map Fr.toBytes := by
      rw [hleaf]
      exact List.mem_singleton_self leaf
    obtain ⟨x, -, rfl⟩ := List.mem_map.1 hmem
    exact canonical_toBytes x

end Kakure
