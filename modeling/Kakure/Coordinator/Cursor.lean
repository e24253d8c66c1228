import Kakure.Coordinator.Relay

/-!
# Cursors

A client that polls a session with the highest number it has seen, against the store.

* `Follows` — what has been sent to the client is older than what has not;
* `Follows.handle` — an answer completes what is stored;
* `Follows.step`, `Follows.sweep`, `Follows.publish` — the steps of the client and of the server keep it.
-/

namespace Kakure.Coordinator

/-! ## Cursors -/

theorem cursorAfter_append (since : ℤ) (batch batch' : List Row) :
    cursorAfter since (batch ++ batch') = cursorAfter (cursorAfter since batch) batch' := List.foldl_append

/-- The cursor is above every number seen. -/
theorem le_cursorAfter (since : ℤ) (batch : List Row) :
    since ≤ cursorAfter since batch ∧ ∀ r ∈ batch, (r.seq : ℤ) ≤ cursorAfter since batch := by
  induction batch generalizing since with
  | nil => simp [cursorAfter]
  | cons e batch ih =>
    obtain ⟨hle, hmem⟩ := ih (if since < e.seq then (e.seq : ℤ) else since)
    have hcons : cursorAfter since (e :: batch) = cursorAfter (if since < e.seq then (e.seq : ℤ) else since) batch := rfl
    rw [hcons]
    have hstep : since ≤ (if since < e.seq then (e.seq : ℤ) else since) ∧
        (e.seq : ℤ) ≤ if since < e.seq then (e.seq : ℤ) else since := by
      split_ifs with hlt
      · exact ⟨hlt.le, le_rfl⟩
      · exact ⟨le_rfl, not_lt.1 hlt⟩
    refine ⟨hstep.1.trans hle, fun r hr => ?_⟩
    rcases List.mem_cons.1 hr with rfl | hr
    · exact hstep.2.trans hle
    · exact hmem r hr

/-- It is where it was, or one of them. -/
theorem cursorAfter_eq (since : ℤ) (batch : List Row) :
    cursorAfter since batch = since ∨ ∃ r ∈ batch, cursorAfter since batch = r.seq := by
  induction batch generalizing since with
  | nil => exact Or.inl rfl
  | cons e batch ih =>
    have hcons : cursorAfter since (e :: batch) = cursorAfter (if since < e.seq then (e.seq : ℤ) else since) batch := rfl
    rw [hcons]
    rcases ih (if since < e.seq then (e.seq : ℤ) else since) with heq | ⟨r, hr, heq⟩
    · rw [heq]
      by_cases hlt : since < e.seq
      · exact Or.inr ⟨e, List.mem_cons_self, if_pos hlt⟩
      · exact Or.inl (if_neg hlt)
    · exact Or.inr ⟨r, List.mem_cons_of_mem e hr, heq⟩

/-! ## A client against the store -/

/-- What a client has been sent is in the order of the inserts; what is stored of its session and has
not been sent is newer, and above its cursor. -/
structure Follows (store : MessageStore) (p : Poller) : Prop where
  ordered : p.got.Pairwise fun a b => a.uid < b.uid ∧ a.seq < b.seq
  fresh : ∀ g ∈ p.got, g.uid < store.inserts
  since_eq : p.since = cursorAfter (-1) p.received
  request : ∀ n, p.get = some (.sent n) ∨ p.get = some (.waiting n) → n = p.since
  stored : ∀ r ∈ store.session p.sessionId, r ∈ p.got ∨ ∀ g ∈ p.got, g.uid < r.uid ∧ g.seq < r.seq
  waiting : ∀ n, p.get = some (.waiting n) → ∀ r ∈ store.session p.sessionId, r ∈ p.got
  below : store.session p.sessionId ≠ [] → ∀ g ∈ p.got, g.seq < store.nextSeq p.sessionId

namespace Follows

variable {store : MessageStore} {p : Poller}

/-- A client that starts. -/
theorem start (store : MessageStore) (sessionId : List Char) : Follows store ⟨sessionId, -1, [], none, false⟩ where
  ordered := by simp [Poller.got]
  fresh := by simp [Poller.got]
  since_eq := rfl
  request := by simp
  stored := by simp [Poller.got]
  waiting := by simp
  below := by simp [Poller.got]

/-- What is stored and above the cursor is what has not been received. -/
theorem mem_since_iff (h : Follows store p) (hgot : p.got = p.received) {r : Row}
    (hr : r ∈ store.session p.sessionId) : p.since < r.seq ↔ r ∉ p.received := by
  rw [h.since_eq]
  constructor
  · intro hlt hmem
    have := (le_cursorAfter (-1) p.received).2 r hmem
    omega
  · intro hnot
    have habove := (h.stored r hr).resolve_left (by rw [hgot]; exact hnot)
    rcases cursorAfter_eq (-1) p.received with heq | ⟨g, hg, heq⟩
    · rw [heq]
      omega
    · rw [heq]
      have := (habove g (by rw [hgot]; exact hg)).2
      exact_mod_cast this

/-- A change of the request that sends nothing. -/
theorem of_get (h : Follows store p) {get : Option Get} (hgot : Poller.got { p with get := get } = p.got)
    (hrequest : ∀ n, get = some (.sent n) ∨ get = some (.waiting n) → n = p.since)
    (hwaiting : ∀ n, get = some (.waiting n) → ∀ r ∈ store.session p.sessionId, r ∈ p.got) :
    Follows store { p with get := get } where
  ordered := by rw [hgot]; exact h.ordered
  fresh := by rw [hgot]; exact h.fresh
  since_eq := h.since_eq
  request := hrequest
  stored := by rw [hgot]; exact h.stored
  waiting := by rw [hgot]; exact hwaiting
  below := by rw [hgot]; exact h.below

/-- The answer to a request is what the client has not been sent of its session. -/
theorem handle (h : Follows store p) {n : ℤ} (hget : p.get = some (.sent n)) :
    Follows store { p with get := some (handleGet store p.sessionId n) } ∧
      ∀ r ∈ store.session p.sessionId, r ∈ Poller.got { p with get := some (handleGet store p.sessionId n) } := by
  have hgot : p.got = p.received := by simp [Poller.got, hget]
  obtain rfl : n = p.since := h.request n (Or.inl hget)
  rw [handleGet]
  by_cases hnil : store.since p.sessionId p.since = []
  · -- nothing new: the long poll begins
    have hall : ∀ r ∈ store.session p.sessionId, r ∈ p.got := by
      intro r hr
      rw [hgot]
      by_contra hnot
      have hmem := store.mem_since.2 ⟨hr, (h.mem_since_iff hgot hr).2 hnot⟩
      simp [hnil] at hmem
    have hsame : Poller.got { p with get := some (.waiting p.since) } = p.got := by simp [Poller.got, hget]
    simp only [if_pos hnil]
    refine ⟨h.of_get hsame (by simp) fun _ _ => hall, ?_⟩
    rw [hsame]
    exact hall
  · have hnew : Poller.got { p with get := some (.answered (store.since p.sessionId p.since)) } =
        p.got ++ store.since p.sessionId p.since := by simp [Poller.got, hget]
    have hall : ∀ r ∈ store.session p.sessionId, r ∈ p.got ++ store.since p.sessionId p.since := by
      intro r hr
      rw [List.mem_append, store.mem_since, hgot]
      by_cases hmem : r ∈ p.received
      · exact Or.inl hmem
      · exact Or.inr ⟨hr, (h.mem_since_iff hgot hr).2 hmem⟩
    simp only [if_neg hnil]
    refine ⟨⟨?_, ?_, h.since_eq, by simp, ?_, by simp, ?_⟩, by rw [hnew]; exact hall⟩
    · rw [hnew]
      refine List.pairwise_append.2 ⟨h.ordered, store.since_pairwise _ _, fun a ha b hb => ?_⟩
      obtain ⟨hb, hlt⟩ := store.mem_since.1 hb
      refine ((h.stored b hb).resolve_left ?_) a ha
      rw [hgot]
      exact (h.mem_since_iff hgot hb).1 hlt
    · rw [hnew]
      intro g hg
      rcases List.mem_append.1 hg with hg | hg
      · exact h.fresh g hg
      · exact store.fresh g (store.mem_session.1 (store.mem_since.1 hg).1).1
    · rw [hnew]
      exact fun r hr => Or.inl (hall r hr)
    · rw [hnew]
      intro hne g hg
      rcases List.mem_append.1 hg with hg | hg
      · exact h.below hne g hg
      · exact store.lt_nextSeq (store.mem_since.1 hg).1

/-- Every step of the client keeps it. -/
theorem step (h : Follows store p) {act : PollAct} {p' : Poller} (hstep : p.step store act = some p') :
    Follows store p' := by
  cases act with
  | send =>
    simp only [Poller.step] at hstep
    split_ifs at hstep with hidle
    cases hstep
    exact h.of_get (by simp [Poller.got, hidle.2]) (by simp) (by simp)
  | handle =>
    simp only [Poller.step] at hstep
    split at hstep
    · rename_i hget
      cases hstep
      exact (h.handle hget).1
    · cases hstep
  | timeout =>
    simp only [Poller.step] at hstep
    split at hstep
    · rename_i hget
      cases hstep
      exact h.of_get (by simp [Poller.got, hget]) (by simp) (by simp)
    · cases hstep
  | reply =>
    simp only [Poller.step] at hstep
    split at hstep
    · rename_i batch hget
      cases hstep
      have hgot : p.got = p.received ++ batch := by simp [Poller.got, hget]
      have hsame : Poller.got { p with received := p.received ++ batch, since := cursorAfter p.since batch, get := none } =
          p.got := by simp [Poller.got, hget]
      refine ⟨?_, ?_, ?_, by simp, ?_, by simp, ?_⟩
      · rw [hsame]
        exact h.ordered
      · rw [hsame]
        exact h.fresh
      · rw [h.since_eq, ← cursorAfter_append]
      · rw [hsame]
        exact h.stored
      · rw [hsame]
        exact h.below
    · cases hstep
  | stop =>
    simp only [Poller.step] at hstep
    split_ifs at hstep
    cases hstep
    exact ⟨h.ordered, h.fresh, h.since_eq, h.request, h.stored, h.waiting, h.below⟩

/-- It holds in a store that has the same rows of the session. -/
theorem congr (h : Follows store p) {store' : MessageStore}
    (hsession : store'.session p.sessionId = store.session p.sessionId) (hinserts : store.inserts ≤ store'.inserts) :
    Follows store' p := by
  refine ⟨h.ordered, fun g hg => lt_of_lt_of_le (h.fresh g hg) hinserts, h.since_eq, h.request, ?_, ?_, ?_⟩
  · rw [hsession]
    exact h.stored
  · rw [hsession]
    exact h.waiting
  · rw [hsession, MessageStore.nextSeq_congr hsession]
    exact h.below

/-- A sweep keeps it. -/
theorem sweep (h : Follows store p) (now : ℕ) : Follows (store.sweepExpired now) p := by
  have hsession := store.session_sweepExpired now p.sessionId
  by_cases hexpired : store.expired now p.sessionId = true
  · rw [if_pos hexpired] at hsession
    refine ⟨h.ordered, h.fresh, h.since_eq, h.request, ?_, ?_, ?_⟩
    · simp [hsession]
    · simp [hsession]
    · simp [hsession]
  · rw [if_neg hexpired] at hsession
    exact h.congr hsession le_rfl

/-- An insert keeps it, when a session that is begun has not been sent to the client. -/
theorem publish (h : Follows store p) {store' : MessageStore} {row : Row} (hrows : store'.rows = store.rows ++ [row])
    (hinserts : store'.inserts = store.inserts + 1) (huid : row.uid = store.inserts)
    (hseq : row.seq = store.nextSeq row.sessionId)
    (hbegun : row.sessionId = p.sessionId → store.session p.sessionId = [] → p.got = []) :
    Follows store' (p.publish row) := by
  have hsession := store.session_append hrows p.sessionId
  have hfresh : ∀ g ∈ p.got, g.uid < store'.inserts := by
    intro g hg
    have := h.fresh g hg
    omega
  by_cases hrow : row.sessionId = p.sessionId
  · rw [if_pos hrow] at hsession
    have hmem : row ∈ store'.session p.sessionId := by simp [hsession]
    -- what has been sent is older than the new row
    have holder : ∀ g ∈ p.got, g.uid < row.uid ∧ g.seq < row.seq := by
      intro g hg
      rw [huid, hseq, hrow]
      refine ⟨h.fresh g hg, h.below (fun hnil => ?_) g hg⟩
      simp [hbegun hrow hnil] at hg
    by_cases hwait : ∃ n, p.get = some (.waiting n)
    · obtain ⟨n, hget⟩ := hwait
      have hgot : p.got = p.received := by simp [Poller.got, hget]
      obtain rfl : n = p.since := h.request n (Or.inr hget)
      have hlt : p.since < row.seq := by
        rw [h.since_eq]
        rcases cursorAfter_eq (-1) p.received with heq | ⟨g, hg, heq⟩
        · rw [heq]
          omega
        · rw [heq]
          have := (holder g (by rw [hgot]; exact hg)).2
          exact_mod_cast this
      have hpublish : p.publish row = { p with get := some (.answered [row]) } := by
        simp [Poller.publish, hget, Get.publish, hrow, hlt]
      have hnew : Poller.got { p with get := some (.answered [row]) } = p.got ++ [row] := by simp [Poller.got, hget]
      have hall : ∀ r ∈ store'.session p.sessionId, r ∈ p.got ++ [row] := by
        intro r hr
        rw [hsession] at hr
        rcases List.mem_append.1 hr with hr | hr
        · exact List.mem_append_left _ (h.waiting _ hget r hr)
        · exact List.mem_append_right _ hr
      rw [hpublish]
      refine ⟨?_, ?_, h.since_eq, by simp, ?_, by simp, ?_⟩
      · rw [hnew]
        refine List.pairwise_append.2 ⟨h.ordered, List.pairwise_singleton _ _, fun a ha b hb => ?_⟩
        obtain rfl := List.mem_singleton.1 hb
        exact holder a ha
      · rw [hnew]
        intro g hg
        rcases List.mem_append.1 hg with hg | hg
        · exact hfresh g hg
        · obtain rfl := List.mem_singleton.1 hg
          omega
      · rw [hnew]
        exact fun r hr => Or.inl (hall r hr)
      · rw [hnew]
        intro _ g hg
        have hrowlt := store'.lt_nextSeq hmem
        rcases List.mem_append.1 hg with hg | hg
        · exact (holder g hg).2.trans hrowlt
        · obtain rfl := List.mem_singleton.1 hg
          exact hrowlt
    · have hpublish : p.publish row = p := by
        have hget : p.get.map (Get.publish p.sessionId row) = p.get := by
          cases hget : p.get with
          | none => rfl
          | some get =>
            cases get with
            | waiting n => exact absurd ⟨n, hget⟩ hwait
            | sent n => rfl
            | answered batch => rfl
        simp [Poller.publish, hget]
      rw [hpublish]
      refine ⟨h.ordered, hfresh, h.since_eq, h.request, ?_, ?_, ?_⟩
      · intro r hr
        rw [hsession] at hr
        rcases List.mem_append.1 hr with hr | hr
        · exact h.stored r hr
        · obtain rfl := List.mem_singleton.1 hr
          exact Or.inr holder
      · exact fun n hn => absurd ⟨n, hn⟩ hwait
      · exact fun _ g hg => (holder g hg).2.trans (store'.lt_nextSeq hmem)
  · rw [if_neg hrow, List.append_nil] at hsession
    have hpublish : p.publish row = p := by
      have hget : p.get.map (Get.publish p.sessionId row) = p.get := by
        cases hget : p.get with
        | none => rfl
        | some get => cases get <;> simp [Get.publish, hrow]
      simp [Poller.publish, hget]
    rw [hpublish]
    exact h.congr hsession (by omega)

end Follows

end Kakure.Coordinator
