import Kakure.Indexer.Store

/-!
# The latest root

`getLatestRoot` of `packages/indexer/src/db/store.ts` orders the `roots` table by slot and breaks a
tie by `rowid`.  The comment there says that a replaced row gets a fresh, higher `rowid`; in this
table the `rowid` is the `cursor`, so the row a wrapped ring writes has the lowest one.

* `latestRoot_short` — up to 256 calls it shows the last one;
* `latestRoot_iff` — beyond, it does only where the call in slot 255 is of an older slot, or is
  the last call word for word.
-/

namespace Kakure.Indexer

/-- What `getLatestRoot` says of the call that wrote the row. -/
def RootRow.call (r : RootRow) : RootCall := ⟨r.root, r.nextLeafIndex, r.slot⟩

namespace RootCall

@[simp] theorem call_row (c : RootCall) (cursor : ℕ) : (c.row cursor).call = c := rfl
@[simp] theorem cursor_row (c : RootCall) (cursor : ℕ) : (c.row cursor).cursor = cursor := rfl
@[simp] theorem slot_row (c : RootCall) (cursor : ℕ) : (c.row cursor).slot = c.slot := rfl

end RootCall

theorem mem_of_find {t : Table RootRow RootRow.cursor} {k : ℕ} {r : RootRow} (h : t.find k = some r) :
    r ∈ t := (Table.find_eq_some_iff.1 h).1

/-- After these calls `getLatestRoot` returns the last one. -/
def ShowsLatest (calls : List RootCall) : Prop :=
  (callAll IndexerStore.empty calls).getLatestRoot.map RootRow.call = calls.getLast?

instance (calls : List RootCall) : Decidable (ShowsLatest calls) := by
  unfold ShowsLatest
  infer_instance

/-- The slots of the calls never go back. -/
abbrev Ascending (calls : List RootCall) : Prop := calls.Pairwise fun a b => a.slot ≤ b.slot

theorem slot_le {calls : List RootCall} (h : Ascending calls) {i j : ℕ} {c d : RootCall}
    (hc : calls[i]? = some c) (hd : calls[j]? = some d) (hij : i ≤ j) : c.slot ≤ d.slot := by
  obtain ⟨hi, rfl⟩ := List.getElem?_eq_some_iff.1 hc
  obtain ⟨hj, rfl⟩ := List.getElem?_eq_some_iff.1 hd
  rcases hij.eq_or_lt with rfl | hlt
  · exact le_rfl
  · exact List.pairwise_iff_getElem.1 h i j hi hj hlt

theorem slot_le_last {calls : List RootCall} (h : Ascending calls) {i : ℕ} {c last : RootCall}
    (hc : calls[i]? = some c) (hlast : calls.getLast? = some last) : c.slot ≤ last.slot := by
  rw [List.getLast?_eq_getElem?] at hlast
  have hi := (List.getElem?_eq_some_iff.1 hc).1
  exact slot_le h hc hlast (by omega)

/-- Every row of the table is the last call in slot 0 of a full table, or the call counted by its
cursor. -/
theorem row_cases {t : Table RootRow RootRow.cursor} {calls : List RootCall} (h : CalledRows t calls)
    {a : RootRow} (ha : a ∈ t) :
    (∃ last, calls.getLast? = some last ∧ a = last.row 0) ∨
      (a.cursor < rootRingSize ∧ ∃ c, calls[a.cursor]? = some c ∧ a = c.row a.cursor) := by
  have hfind := h.find a.cursor
  rw [Table.find_eq_some_iff.2 ⟨ha, rfl⟩] at hfind
  split at hfind
  · obtain ⟨last, hlast, hrow⟩ := Option.map_eq_some_iff.1 hfind.symm
    exact Or.inl ⟨last, hlast, hrow.symm⟩
  · split at hfind
    · rename_i hlt
      obtain ⟨c, hc, hrow⟩ := Option.map_eq_some_iff.1 hfind.symm
      exact Or.inr ⟨hlt, c, hc, hrow.symm⟩
    · cases hfind

/-- A table that has not wrapped shows its last row. -/
theorem latestRoot_short {calls : List RootCall} (h : Ascending calls)
    (hlen : calls.length ≤ rootRingSize) : ShowsLatest calls := by
  have hrows := calledRows_callAll calls
  rcases hcases : calls.getLast? with _ | last
  · rw [List.getLast?_eq_none_iff] at hcases
    subst hcases
    simp [ShowsLatest, callAll, IndexerStore.getLatestRoot, IndexerStore.empty, Table.top, Table.empty]
  · have hget : calls[calls.length - 1]? = some last := by
      rw [← hcases, List.getLast?_eq_getElem?]
    have hpos := (List.getElem?_eq_some_iff.1 hget).1
    have hmem : last.row (calls.length - 1) ∈ (callAll IndexerStore.empty calls).roots := by
      refine mem_of_find (k := calls.length - 1) ?_
      rw [hrows.find, if_neg (by omega), if_pos (by omega), hget]
      rfl
    have htop : (callAll IndexerStore.empty calls).getLatestRoot =
        some (last.row (calls.length - 1)) := by
      refine Table.top_eq_some hmem fun a ha => ?_
      rcases row_cases hrows ha with ⟨last', hlast', rfl⟩ | ⟨-, c, hc, hrow⟩
      · rw [hcases, Option.some_inj] at hlast'
        simp [hlast']
      · have hle := slot_le_last h hc hcases
        have hi := (List.getElem?_eq_some_iff.1 hc).1
        have hslot : a.slot = c.slot := by rw [hrow]; rfl
        simp only [Table.precedes_iff, RootCall.cursor_row, RootCall.slot_row]
        omega
    unfold ShowsLatest
    rw [htop, hcases, Option.map_some, RootCall.call_row]

/-- A table that has wrapped shows slot 0 or slot 255, whichever is of the later slot, and slot 255
where they are of one. -/
theorem latestRoot_long {calls : List RootCall} (h : Ascending calls) {kept last : RootCall}
    (hlen : rootRingSize < calls.length) (hkept : calls[255]? = some kept)
    (hlast : calls.getLast? = some last) :
    (callAll IndexerStore.empty calls).getLatestRoot =
      some (if kept.slot < last.slot then last.row 0 else kept.row 255) := by
  have hring : rootRingSize = 256 := rfl
  have hrows := calledRows_callAll calls
  have hzero : last.row 0 ∈ (callAll IndexerStore.empty calls).roots := by
    refine mem_of_find (k := 0) ?_
    rw [hrows.find, if_pos ⟨rfl, hlen⟩, hlast]
    rfl
  have hend : kept.row 255 ∈ (callAll IndexerStore.empty calls).roots := by
    refine mem_of_find (k := 255) ?_
    rw [hrows.find, if_neg (by omega), if_pos (by omega), hkept]
    rfl
  split
  · rename_i hlt
    refine Table.top_eq_some hzero fun a ha => ?_
    rcases row_cases hrows ha with ⟨last', hlast', rfl⟩ | ⟨hcursor, c, hc, hrow⟩
    · rw [hlast, Option.some_inj] at hlast'
      simp [hlast']
    · -- every other row is of a call before the 256th
      have hle := slot_le h hc hkept (by omega)
      have hslot : a.slot = c.slot := by rw [hrow]; rfl
      simp only [Table.precedes_iff, RootCall.cursor_row, RootCall.slot_row]
      omega
  · rename_i hge
    have heq : kept.slot = last.slot := le_antisymm (slot_le_last h hkept hlast) (not_lt.1 hge)
    refine Table.top_eq_some hend fun a ha => ?_
    rcases row_cases hrows ha with ⟨last', hlast', rfl⟩ | ⟨hcursor, c, hc, hrow⟩
    · rw [hlast, Option.some_inj] at hlast'
      simp [← hlast', heq]
    · have hle := slot_le h hc hkept (by omega)
      have hslot : a.slot = c.slot := by rw [hrow]; rfl
      simp only [Table.precedes_iff, RootCall.cursor_row, RootCall.slot_row]
      omega

/-- After calls with ascending slots `getLatestRoot` returns the root, next leaf index and slot of
the last one exactly when there were at most 256, or the 256th is of an older slot than the last, or
the two are equal. -/
theorem latestRoot_iff (calls : List RootCall) (h : Ascending calls) :
    ShowsLatest calls ↔ calls.length ≤ rootRingSize ∨
      ∃ kept last, calls[255]? = some kept ∧ calls.getLast? = some last ∧
        (kept.slot < last.slot ∨ kept = last) := by
  have hring : rootRingSize = 256 := rfl
  rcases Nat.lt_or_ge rootRingSize calls.length with hlen | hlen
  · obtain ⟨kept, hkept⟩ : ∃ kept, calls[255]? = some kept :=
      ⟨_, List.getElem?_eq_getElem (by omega)⟩
    obtain ⟨last, hlast⟩ : ∃ last, calls.getLast? = some last :=
      ⟨_, List.getLast?_eq_some_getLast (by rintro rfl; simp at hlen)⟩
    have htop := latestRoot_long h hlen hkept hlast
    simp only [ShowsLatest, htop, hkept, hlast, Option.map_some, Option.some_inj,
      exists_eq_left', not_le.2 hlen, false_or, exists_and_left]
    split
    · rename_i hlt
      simp [hlt]
    · rename_i hge
      simp [hge]
  · exact ⟨fun _ => Or.inl hlen, fun _ => latestRoot_short h hlen⟩

/-- With 300 roots of growing slots the last is shown. -/
theorem latestRoot_growing :
    ShowsLatest ((List.range 300).map fun k => ⟨"r", k, k⟩) := by
  refine (latestRoot_iff _ ?_).2 (Or.inr ⟨⟨"r", 255, 255⟩, ⟨"r", 299, 299⟩, ?_, ?_, Or.inl ?_⟩)
  · exact List.pairwise_map.2 (List.pairwise_lt_range.imp fun hlt => hlt.le)
  · simp
  · rw [List.getLast?_map, List.getLast?_range]
    rfl
  · decide

/-- With 257 roots of one slot the 256th is shown, not the last. -/
theorem latestRoot_stale :
    ¬ ∀ calls : List RootCall, Ascending calls → ShowsLatest calls := by
  intro hall
  have h : Ascending ((List.range 257).map fun k => ⟨"r", k, 7⟩) :=
    List.pairwise_map.2 (List.pairwise_of_forall fun _ _ => le_rfl)
  have hkept : ((List.range 257).map fun k => (⟨"r", k, 7⟩ : RootCall))[255]? = some ⟨"r", 255, 7⟩ := by simp
  have hlast : ((List.range 257).map fun k => (⟨"r", k, 7⟩ : RootCall)).getLast? = some ⟨"r", 256, 7⟩ := by
    rw [List.getLast?_map, List.getLast?_range]
    rfl
  have htop := latestRoot_long h (by simp [rootRingSize]) hkept hlast
  have hshown := hall _ h
  unfold ShowsLatest at hshown
  rw [htop, List.getLast?_map, List.getLast?_range] at hshown
  exact absurd hshown (by decide)

end Kakure.Indexer
