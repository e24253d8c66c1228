import Kakure.Coordinator.Delivery
import Kakure.Proposal.Session

/-!
# What the clients of a session see

While nothing is swept, what a client has been sent is the first part of its session.

* `isPrefix_of_pairwise` — the elements of an ordered list below all others are its first part;
* `got_isPrefix` — what a client has been sent is a part of its session;
* `Saw.comparable` — of what two clients of a session have received, one is a part of the other.
-/

namespace Kakure.Coordinator

open Runs

/-- The elements of an ordered list below all others are its first part. -/
theorem isPrefix_of_pairwise {α : Type*} {r : α → α → Prop} (hasymm : ∀ a b, r a b → ¬ r b a) {xs ys : List α}
    (hxs : xs.Pairwise r) (hys : ys.Pairwise r) (hsub : ∀ x ∈ xs, x ∈ ys)
    (hbelow : ∀ y ∈ ys, y ∈ xs ∨ ∀ x ∈ xs, r x y) : xs <+: ys := by
  induction xs generalizing ys with
  | nil => exact List.nil_prefix
  | cons x xs ih =>
    obtain ⟨hx, hxs⟩ := List.pairwise_cons.1 hxs
    cases ys with
    | nil => exact absurd (hsub x List.mem_cons_self) List.not_mem_nil
    | cons y ys =>
      obtain ⟨hy, hrest⟩ := List.pairwise_cons.1 hys
      have hirrefl : ∀ a, ¬ r a a := fun a ha => hasymm a a ha ha
      -- the two lists begin with the same element
      have hhead : x = y := by
        rcases List.mem_cons.1 (hsub x List.mem_cons_self) with hxy | hxy
        · exact hxy
        · rcases hbelow y List.mem_cons_self with hmem | hlt
          · rcases List.mem_cons.1 hmem with hyx | hyx
            · exact hyx.symm
            · exact absurd (hx y hyx) (hasymm _ _ (hy x hxy))
          · exact absurd (hlt x List.mem_cons_self) (hasymm _ _ (hy x hxy))
      subst hhead
      refine List.cons_prefix_cons.2 ⟨rfl, ih hxs hrest (fun z hz => ?_) fun z hz => ?_⟩
      · rcases List.mem_cons.1 (hsub z (List.mem_cons_of_mem x hz)) with rfl | hmem
        · exact absurd (hx z hz) (hirrefl z)
        · exact hmem
      · rcases hbelow z (List.mem_cons_of_mem x hz) with hmem | hlt
        · rcases List.mem_cons.1 hmem with rfl | hmem
          · exact absurd (hy z hz) (hirrefl z)
          · exact Or.inl hmem
        · exact Or.inr fun w hw => hlt w (List.mem_cons_of_mem x hw)

/-- A client that has stopped has been sent nothing more. -/
theorem Poller.got_of_stopped {store : MessageStore} {p p' : Poller} {act : PollAct} (h : p.Sound store)
    (hstep : p.step store act = some p') (hstopped : p'.stopped = true) :
    p'.got = p.got ∧ p'.sessionId = p.sessionId := by
  obtain ⟨-, hcases⟩ := h
  cases act with
  | stop =>
    simp only [Poller.step] at hstep
    split_ifs at hstep
    obtain rfl := Option.some.inj hstep
    exact ⟨rfl, rfl⟩
  | send =>
    simp only [Poller.step] at hstep
    split_ifs at hstep with hsend
    obtain rfl := Option.some.inj hstep
    exact absurd hstopped (by simp [hsend.1])
  | handle | timeout | reply =>
    simp only [Poller.step] at hstep
    split at hstep
    · rename_i hget
      obtain rfl := Option.some.inj hstep
      have hwas : p.stopped = true := hstopped
      rw [if_pos hwas, hget] at hcases
      cases hcases
    · cases hstep

variable {acts : List Act} {σ : State}

/-- A client that follows the store has been sent the first part of its session. -/
theorem Follows.got_isPrefix {store : MessageStore} {p : Poller} (h : Follows store p)
    (hstored : ∀ r ∈ p.got, r ∈ store.session p.sessionId) : p.got <+: store.session p.sessionId := by
  refine isPrefix_of_pairwise (fun a b hab hba => lt_asymm hab.1 hba.1) h.ordered (store.session_pairwise _) hstored ?_
  exact fun r hr => h.stored r hr

/-- A client that has stopped was there before the step with what it has, and its session only grows. -/
theorem exists_stopped {s s' : State} {l : Act} (hstep : Relays s l s') (hsweep : l ≠ .sweep)
    (hsound : ∀ i q, s.pollers i = some q → q.Sound s.store) {i : ℕ} {p : Poller} (hp : s'.pollers i = some p)
    (hstopped : p.stopped = true) :
    ∃ q, s.pollers i = some q ∧ p.got = q.got ∧ p.sessionId = q.sessionId ∧
      s.store.session p.sessionId <+: s'.store.session p.sessionId := by
  cases step_cases hstep with
  | advance | appendNext | refused | call => exact ⟨p, hp, rfl, rfl, List.prefix_rfl⟩
  | sweep => exact absurd rfl hsweep
  | @collect id sessionId hnone =>
    by_cases hi : i = id
    · subst hi
      simp only [Function.update_self, Option.some.injEq] at hp
      rw [← hp] at hstopped
      cases hstopped
    · simp only [Function.update_of_ne hi] at hp
      exact ⟨p, hp, rfl, rfl, List.prefix_rfl⟩
  | @poller id act q q' hq hq' =>
    by_cases hi : i = id
    · subst hi
      simp only [Function.update_self, Option.some.injEq] at hp
      subst hp
      obtain ⟨hgot, hsession⟩ := Poller.got_of_stopped (hsound i q hq) hq' hstopped
      exact ⟨q, hq, hgot, hsession, List.prefix_rfl⟩
    · simp only [Function.update_of_ne hi] at hp
      exact ⟨p, hp, rfl, rfl, List.prefix_rfl⟩
  | @inserted id call store row hcall hphase hparses hcount hrow huid hrows hinserts =>
    simp only [State.answer, Option.map_eq_some_iff] at hp
    obtain ⟨q, hq, rfl⟩ := hp
    have hwas : q.stopped = true := hstopped
    have hget := (hsound i q hq).2
    rw [if_pos hwas] at hget
    rw [q.publish_of_get_none row hget]
    refine ⟨q, hq, rfl, rfl, ?_⟩
    simp only [State.answer, s.store.session_append hrows]
    exact List.prefix_append _ _

/-- While nothing is swept, a client has been sent the first part of its session. -/
theorem got_isPrefix (hrun : Run Relays .init acts σ) (hsweep : .sweep ∉ acts) :
    ∀ i p, σ.pollers i = some p → p.got <+: σ.store.session p.sessionId := by
  induction hrun with
  | start => simp [State.init]
  | snoc hrun hstep ih =>
    rename_i ls s s' l
    have hall : .sweep ∉ ls ++ [l] := hsweep
    rw [List.mem_append, not_or] at hsweep
    intro i p hp
    by_cases hstopped : p.stopped = true
    · -- a client that has stopped keeps its part
      have hne : l ≠ .sweep := fun heq => hsweep.2 (heq ▸ List.mem_singleton_self l)
      obtain ⟨q, hq, hgot, hsession, hgrows⟩ :=
        exists_stopped hstep hne (sound_run (relaysOn_of_no_sweep hrun hsweep.1)) hp hstopped
      rw [hsession] at hgrows ⊢
      rw [hgot]
      exact (ih hsweep.1 i q hq).trans hgrows
    · have hnext := hrun.snoc hstep
      have hsound := (sound_run (relaysOn_of_no_sweep hnext hall) i p hp).2
      rw [if_neg hstopped] at hsound
      refine hsound.got_isPrefix fun r hr => ?_
      obtain ⟨hmem, hsession⟩ := (logged_run hnext).sent i p hp r hr
      rw [← rows_of_no_sweep hnext hall] at hmem
      exact s'.store.mem_session.2 ⟨hmem, hsession⟩

/-- What a client of the session has received. -/
def Saw (σ : State) (sessionId : List Char) (log : List (Proposal.Envelope (List Char))) : Prop :=
  ∃ i p, σ.pollers i = some p ∧ p.sessionId = sessionId ∧ log = p.received.map fun r => ⟨r.kind, r.ciphertext⟩

/-- Of what two clients of a session have received, one is a part of the other. -/
theorem Saw.comparable (hrun : Run Relays .init acts σ) (hsweep : .sweep ∉ acts) {sessionId : List Char}
    {log log' : List (Proposal.Envelope (List Char))} (h : Saw σ sessionId log) (h' : Saw σ sessionId log') :
    log <+: log' ∨ log' <+: log := by
  obtain ⟨i, p, hp, hsession, rfl⟩ := h
  obtain ⟨i', p', hp', hsession', rfl⟩ := h'
  have hprefix := (List.prefix_append p.received _).trans (got_isPrefix hrun hsweep i p hp)
  have hprefix' := (List.prefix_append p'.received _).trans (got_isPrefix hrun hsweep i' p' hp')
  rw [hsession] at hprefix
  rw [hsession'] at hprefix'
  exact (List.prefix_or_prefix_of_prefix hprefix hprefix').imp (fun h => h.map _) fun h => h.map _

end Kakure.Coordinator
