import Kakure.Coordinator.Cursor
import Kakure.Lib.Runs

/-!
# Delivery

Whole runs of the relay, from a server without sessions.

* `step_cases` — what a step of the relay can do;
* `relay_delivery` — while no session is begun anew under a client that has been sent some of it, every
  stored envelope reaches every client once and in order;
* `relaysOn_of_no_sweep` — without a sweep none is;
* `restarted_session_lost` — a session that was swept is begun anew at zero, below the old cursors.
-/

namespace Kakure.Coordinator

open Runs

/-! ## Every client -/

/-- A client that has stopped keeps what it has; the others follow the store. -/
def Poller.Sound (store : MessageStore) (p : Poller) : Prop :=
  p.got.Pairwise (fun a b => a.uid < b.uid ∧ a.seq < b.seq) ∧
    if p.stopped then p.get = none else Follows store p

/-- The post would begin a session anew under a client that has been sent some of it. -/
def Restarts (σ : State) (id : ℕ) : Prop :=
  ∃ call, σ.calls id = some call ∧ call.envelope.parses = true ∧ call.nextSeq = 0 ∧
    σ.store.session call.sessionId = [] ∧
    ∃ i p, σ.pollers i = some p ∧ p.stopped = false ∧ p.sessionId = call.sessionId ∧ p.got ≠ []

/-- No step begins a session anew under a client that has been sent some of it. -/
def Continues (σ : State) : Act → Prop
  | .post id => ¬ Restarts σ id
  | _ => True

/-- The steps of the system. -/
def Relays (σ : State) (a : Act) (σ' : State) : Prop := σ.step a = some σ'

/-- The steps that continue their sessions. -/
def RelaysOn (σ : State) (a : Act) (σ' : State) : Prop := σ.step a = some σ' ∧ Continues σ a

/-- What a post does: nothing to the store, or an insert that is published. -/
theorem post_cases (σ : State) (id : ℕ) (call : Call) :
    (σ.post id call = σ.answer id call .badRequest ∨ σ.post id call = σ.answer id call .conflict) ∨
      ∃ store, ∃ row : Row, call.envelope.parses = true ∧ call.nextSeq = σ.store.nextSeq call.sessionId ∧
        row.toEnvelope = call.envelope ∧ row.uid = σ.store.inserts ∧ store.rows = σ.store.rows ++ [row] ∧
        store.inserts = σ.store.inserts + 1 ∧
        σ.post id call = ({ σ with
          store := store
          log := σ.log ++ [(id, row)]
          calls := fun i => (σ.calls i).map (Call.publish row)
          pollers := fun i => (σ.pollers i).map (Poller.publish row) } : State).answer id call .created := by
  rw [State.post]
  by_cases hparses : call.envelope.parses = true
  · cases happend : σ.store.append call.envelope σ.now with
    | error e => simp [hparses]
    | ok store =>
      obtain ⟨hseq, hrows, hinserts⟩ := σ.store.append_eq_ok happend
      refine Or.inr ⟨store, σ.store.newRow call.envelope σ.now, hparses, hseq, rfl, rfl, hrows, hinserts, ?_⟩
      simp [hparses]
  · simp [hparses]

/-- What a step does, with what it has checked. -/
inductive Stepped (σ : State) : Act → State → Prop
  | advance (ms : ℕ) : Stepped σ (.advance ms) { σ with now := σ.now + ms }
  | sweep : Stepped σ .sweep { σ with store := σ.store.sweepExpired σ.now }
  | appendNext {id client : ℕ} {sessionId : List Char} {kind : EnvelopeKind} {ciphertext : List Char} {maxAttempts : ℕ}
      (call : Call) (hnone : σ.calls id = none) (hphase : call.phase = .posting ∨ call.phase = .returned none) :
      Stepped σ (.appendNext id client sessionId kind ciphertext maxAttempts)
        { σ with calls := Function.update σ.calls id (some call) }
  | refused {id : ℕ} {call : Call} {reply : Reply} (hcall : σ.calls id = some call) (hphase : call.phase = .posting)
      (hreply : reply = .badRequest ∨ reply = .conflict) : Stepped σ (.post id) (σ.answer id call reply)
  | inserted {id : ℕ} {call : Call} {store : MessageStore} {row : Row} (hcall : σ.calls id = some call)
      (hphase : call.phase = .posting) (hparses : call.envelope.parses = true)
      (hnext : call.nextSeq = σ.store.nextSeq call.sessionId) (hrow : row.toEnvelope = call.envelope)
      (huid : row.uid = σ.store.inserts) (hrows : store.rows = σ.store.rows ++ [row])
      (hinserts : store.inserts = σ.store.inserts + 1) :
      Stepped σ (.post id) (({ σ with
        store := store
        log := σ.log ++ [(id, row)]
        calls := fun i => (σ.calls i).map (Call.publish row)
        pollers := fun i => (σ.pollers i).map (Poller.publish row) } : State).answer id call .created)
  | call {id : ℕ} {act : CallAct} {call call' : Call} {guess : Option ℕ} (guesses : ℕ → List Char → Option ℕ)
      (hcall : σ.calls id = some call) (hstep : call.step σ.store act = some (call', guess)) :
      Stepped σ (.call id act)
        { σ with calls := Function.update σ.calls id (some call'), nextSeqGuess := guesses }
  | collect {id : ℕ} {sessionId : List Char} (hnone : σ.pollers id = none) :
      Stepped σ (.collect id sessionId)
        { σ with pollers := Function.update σ.pollers id (some ⟨sessionId, -1, [], none, false⟩) }
  | poller {id : ℕ} {act : PollAct} {p p' : Poller} (hp : σ.pollers id = some p)
      (hstep : p.step σ.store act = some p') :
      Stepped σ (.poller id act) { σ with pollers := Function.update σ.pollers id (some p') }

/-- There are no other steps. -/
theorem step_cases {σ σ' : State} {a : Act} (h : σ.step a = some σ') : Stepped σ a σ' := by
  cases a with
  | advance ms =>
    cases h
    exact .advance ms
  | sweep =>
    cases h
    exact .sweep
  | appendNext id client sessionId kind ciphertext maxAttempts =>
    simp only [State.step] at h
    split_ifs at h with hnone hattempts
    · cases h
      exact .appendNext _ (Option.isNone_iff_eq_none.1 hnone) (Or.inl rfl)
    · cases h
      exact .appendNext _ (Option.isNone_iff_eq_none.1 hnone) (Or.inr rfl)
  | post id =>
    simp only [State.step] at h
    split at h
    · cases h
    · rename_i call hcall
      split_ifs at h with hphase
      cases h
      rcases post_cases σ id call with (hpost | hpost) | ⟨store, row, hparses, hnext, hrow, huid, hrows, hinserts, hpost⟩
      · rw [hpost]
        exact .refused hcall hphase (Or.inl rfl)
      · rw [hpost]
        exact .refused hcall hphase (Or.inr rfl)
      · rw [hpost]
        exact .inserted hcall hphase hparses hnext hrow huid hrows hinserts
  | call id act =>
    simp only [State.step] at h
    split at h
    · cases h
    · rename_i call hcall
      split at h
      · cases h
      · rename_i call' guess hcall'
        cases h
        exact .call _ hcall hcall'
  | collect id sessionId =>
    simp only [State.step] at h
    split_ifs at h with hnone
    cases h
    exact .collect (Option.isNone_iff_eq_none.1 hnone)
  | poller id act =>
    simp only [State.step] at h
    split at h
    · cases h
    · rename_i p hp
      split at h
      · cases h
      · rename_i p' hp'
        cases h
        exact .poller hp hp'

/-- A client keeps what it has been sent, in order, through a step of its own. -/
theorem Poller.Sound.step {store : MessageStore} {p p' : Poller} {act : PollAct} (h : p.Sound store)
    (hstep : p.step store act = some p') : p'.Sound store := by
  obtain ⟨hordered, hcases⟩ := h
  by_cases hstopped : p.stopped = true
  · -- a stopped client can only stop again
    rw [if_pos hstopped] at hcases
    cases act with
    | send => simp [Poller.step, hstopped] at hstep
    | handle => simp [Poller.step, hcases] at hstep
    | timeout => simp [Poller.step, hcases] at hstep
    | reply => simp [Poller.step, hcases] at hstep
    | stop =>
      simp only [Poller.step, hcases, if_true] at hstep
      cases hstep
      exact ⟨by simpa [Poller.got, hcases] using hordered, by simp⟩
  · rw [if_neg hstopped] at hcases
    have hfollows := hcases.step hstep
    refine ⟨hfollows.ordered, ?_⟩
    by_cases hstopped' : p'.stopped = true
    · rw [if_pos hstopped']
      cases act with
      | stop =>
        simp only [Poller.step] at hstep
        split_ifs at hstep with hidle
        cases hstep
        exact hidle
      | send =>
        simp only [Poller.step] at hstep
        split_ifs at hstep
        cases hstep
        exact absurd hstopped' hstopped
      | handle | timeout | reply =>
        simp only [Poller.step] at hstep
        split at hstep
        · cases hstep
          exact absurd hstopped' hstopped
        · cases hstep
    · rw [if_neg hstopped']
      exact hfollows

/-- Every step that continues its session keeps the clients sound. -/
theorem sound_step {σ σ' : State} {a : Act} (h : RelaysOn σ a σ')
    (hsound : ∀ i p, σ.pollers i = some p → p.Sound σ.store) : ∀ i p, σ'.pollers i = some p → p.Sound σ'.store := by
  obtain ⟨hstep, hcontinues⟩ := h
  cases step_cases hstep with
  | advance | appendNext | refused | call => exact hsound
  | sweep =>
    intro i p hp
    obtain ⟨hordered, hcases⟩ := hsound i p hp
    refine ⟨hordered, ?_⟩
    split_ifs at hcases ⊢ with hstopped
    · exact hcases
    · exact hcases.sweep σ.now
  | @collect id sessionId hnone =>
    intro i p hp
    by_cases hi : i = id
    · subst hi
      simp only [Function.update_self, Option.some.injEq] at hp
      rw [← hp]
      exact ⟨by simp [Poller.got], Follows.start σ.store sessionId⟩
    · simp only [Function.update_of_ne hi] at hp
      exact hsound i p hp
  | @poller id act q q' hq hq' =>
    intro i p hp
    by_cases hi : i = id
    · subst hi
      simp only [Function.update_self, Option.some.injEq] at hp
      rw [← hp]
      exact (hsound i q hq).step hq'
    · simp only [Function.update_of_ne hi] at hp
      exact hsound i p hp
  | @inserted id call store row hcall hphase hparses hnext hrow huid hrows hinserts =>
    intro i p hp
    simp only [State.answer, Option.map_eq_some_iff] at hp
    obtain ⟨q, hq, rfl⟩ := hp
    obtain ⟨hordered, hcases⟩ := hsound i q hq
    have hsession : row.sessionId = call.sessionId := congrArg Envelope.sessionId hrow
    have hseq : row.seq = σ.store.nextSeq row.sessionId := by
      rw [hsession, ← hnext]
      exact congrArg Envelope.seq hrow
    by_cases hstopped : q.stopped = true
    · rw [if_pos hstopped] at hcases
      rw [q.publish_of_get_none row hcases]
      exact ⟨hordered, by rw [if_pos hstopped]; exact hcases⟩
    · rw [if_neg hstopped] at hcases
      have hfollows := hcases.publish hrows hinserts huid hseq fun heq hnil => by
        by_contra hgot
        have hzero : call.nextSeq = 0 := by
          rw [hnext, ← hsession, heq]
          exact σ.store.nextSeq_eq_zero_iff.2 hnil
        exact hcontinues ⟨call, hcall, hparses, hzero, by rw [← hsession, heq]; exact hnil, i, q, hq,
          by simpa using hstopped, heq.symm.trans hsession, hgot⟩
      have hstopped' : ¬ (q.publish row).stopped = true := hstopped
      exact ⟨hfollows.ordered, by rw [if_neg hstopped']; exact hfollows⟩

/-! ## The log -/

/-- What is stored, and what has been sent to a client, was inserted; clients are sent their session. -/
structure Logged (σ : State) : Prop where
  stored : ∀ r ∈ σ.store.rows, r ∈ σ.log.map Prod.snd
  sent : ∀ i p, σ.pollers i = some p → ∀ r ∈ p.got, r ∈ σ.log.map Prod.snd ∧ r.sessionId = p.sessionId

/-- A step of a client sends it what is stored of its session. -/
theorem Poller.step_got {store : MessageStore} {p p' : Poller} {act : PollAct} (h : p.step store act = some p') :
    p'.sessionId = p.sessionId ∧ ∀ r ∈ p'.got, r ∈ p.got ∨ r ∈ store.session p.sessionId := by
  cases act with
  | send =>
    simp only [Poller.step] at h
    split_ifs at h with hidle
    cases h
    refine ⟨rfl, fun r hr => Or.inl ?_⟩
    simpa [Poller.got, hidle.2] using hr
  | handle =>
    simp only [Poller.step] at h
    split at h
    · rename_i since hget
      cases h
      refine ⟨rfl, fun r hr => ?_⟩
      rw [Poller.got, handleGet] at hr
      split_ifs at hr with hnil
      · exact Or.inl (by simpa [Poller.got, hget] using hr)
      · rcases List.mem_append.1 hr with hr | hr
        · exact Or.inl (List.mem_append_left _ hr)
        · exact Or.inr (store.mem_since.1 hr).1
    · cases h
  | timeout =>
    simp only [Poller.step] at h
    split at h
    · rename_i hget
      cases h
      refine ⟨rfl, fun r hr => Or.inl ?_⟩
      simpa [Poller.got, hget] using hr
    · cases h
  | reply =>
    simp only [Poller.step] at h
    split at h
    · rename_i batch hget
      cases h
      refine ⟨rfl, fun r hr => Or.inl ?_⟩
      simpa [Poller.got, hget] using hr
    · cases h
  | stop =>
    simp only [Poller.step] at h
    split_ifs at h
    cases h
    exact ⟨rfl, fun r hr => Or.inl hr⟩

/-- The listener sends a client the new row, if it is of its session. -/
theorem Poller.publish_got {p : Poller} {row r : Row} (hr : r ∈ (p.publish row).got) :
    r ∈ p.got ∨ (r = row ∧ r.sessionId = p.sessionId) := by
  cases hget : p.get with
  | none =>
    rw [p.publish_of_get_none row hget] at hr
    exact Or.inl hr
  | some get =>
    cases get with
    | waiting n =>
      by_cases hsent : row.sessionId = p.sessionId ∧ n < row.seq
      · simp only [Poller.publish, Poller.got, hget, Option.map_some, Get.publish, if_pos hsent] at hr
        rcases List.mem_append.1 hr with hr | hr
        · exact Or.inl (List.mem_append_left _ hr)
        · obtain rfl := List.mem_singleton.1 hr
          exact Or.inr ⟨rfl, hsent.1⟩
      · simp only [Poller.publish, Poller.got, hget, Option.map_some, Get.publish, if_neg hsent] at hr
        exact Or.inl (by simpa [Poller.got, hget] using hr)
    | sent n => exact Or.inl (by simpa [Poller.publish, Poller.got, hget, Get.publish] using hr)
    | answered batch => exact Or.inl (by simpa [Poller.publish, Poller.got, hget, Get.publish] using hr)

/-- Every step keeps the log. -/
theorem logged_step {σ σ' : State} {a : Act} (hstep : Relays σ a σ') (h : Logged σ) : Logged σ' := by
  cases step_cases hstep with
  | advance | appendNext | refused | call => exact ⟨h.stored, h.sent⟩
  | sweep => exact ⟨fun r hr => h.stored r (List.mem_filter.1 hr).1, h.sent⟩
  | @collect id sessionId hnone =>
    refine ⟨h.stored, fun i p hp => ?_⟩
    by_cases hi : i = id
    · subst hi
      simp only [Function.update_self, Option.some.injEq] at hp
      simp [← hp, Poller.got]
    · simp only [Function.update_of_ne hi] at hp
      exact h.sent i p hp
  | @poller id act q q' hq hq' =>
    refine ⟨h.stored, fun i p hp => ?_⟩
    by_cases hi : i = id
    · subst hi
      simp only [Function.update_self, Option.some.injEq] at hp
      rw [← hp]
      obtain ⟨hsession, hgot⟩ := Poller.step_got hq'
      intro r hr
      rw [hsession]
      rcases hgot r hr with hr | hr
      · exact h.sent i q hq r hr
      · obtain ⟨hmem, hrow⟩ := σ.store.mem_session.1 hr
        exact ⟨h.stored r hmem, hrow⟩
    · simp only [Function.update_of_ne hi] at hp
      exact h.sent i p hp
  | @inserted id call store row hcall hphase hparses hnext hrow huid hrows hinserts =>
    have hlog : (σ.log ++ [(id, row)]).map Prod.snd = σ.log.map Prod.snd ++ [row] := by simp
    constructor
    · intro r hr
      simp only [State.answer, hlog]
      simp only [State.answer, hrows] at hr
      rcases List.mem_append.1 hr with hr | hr
      · exact List.mem_append_left _ (h.stored r hr)
      · exact List.mem_append_right _ hr
    · intro i p hp r hr
      simp only [State.answer, Option.map_eq_some_iff] at hp
      simp only [State.answer, hlog]
      obtain ⟨q, hq, rfl⟩ := hp
      rcases Poller.publish_got hr with hr | ⟨rfl, hown⟩
      · obtain ⟨hmem, hsession⟩ := h.sent i q hq r hr
        exact ⟨List.mem_append_left _ hmem, hsession⟩
      · exact ⟨List.mem_append_right _ (List.mem_singleton_self _), hown⟩

/-! ## Every call -/

/-- The inserts of a call. -/
def entriesOf (log : List (ℕ × Row)) (id : ℕ) : List (ℕ × Row) := log.filter fun entry => entry.1 = id

/-- A call has inserted its envelope when it has been told so, and nothing otherwise. -/
def Phase.Recorded (envelope : Envelope) (id : ℕ) (entries : List (ℕ × Row)) : Phase → Prop
  | .replied .created => ∃ row, entries = [(id, row)] ∧ row.toEnvelope = envelope
  | .returned (some e) => ∃ row, entries = [(id, row)] ∧ row.toEnvelope = e
  | _ => entries = []

/-- Nobody has inserted anything for a call that was not made. -/
def RecordedIn (id : ℕ) (entries : List (ℕ × Row)) : Option Call → Prop
  | none => entries = []
  | some call => call.phase.Recorded call.envelope id entries

/-- The inserts of the calls. -/
def Recorded (log : List (ℕ × Row)) (calls : ℕ → Option Call) : Prop :=
  ∀ id, RecordedIn id (entriesOf log id) (calls id)

/-- One call changes. -/
theorem Recorded.update {log : List (ℕ × Row)} {calls : ℕ → Option Call} (h : Recorded log calls) {id : ℕ}
    {call : Call} (hcall : call.phase.Recorded call.envelope id (entriesOf log id)) :
    Recorded log (Function.update calls id (some call)) := by
  intro i
  by_cases hi : i = id
  · subst hi
    rw [Function.update_self]
    exact hcall
  · rw [Function.update_of_ne hi]
    exact h i

/-- A step of a call keeps its inserts. -/
theorem Call.step_recorded {store : MessageStore} {call call' : Call} {act : CallAct} {guess : Option ℕ} {id : ℕ}
    {entries : List (ℕ × Row)} (h : call.phase.Recorded call.envelope id entries)
    (hstep : call.step store act = some (call', guess)) : call'.phase.Recorded call'.envelope id entries := by
  cases act with
  | postReply =>
    simp only [Call.step] at hstep
    split at hstep
    · rename_i hphase
      rw [hphase] at h
      cases hstep
      exact h
    · rename_i hphase
      rw [hphase] at h
      split_ifs at hstep
      all_goals
        cases hstep
        exact h
    · rename_i hphase
      rw [hphase] at h
      cases hstep
      exact h
    · cases hstep
  | readHandle =>
    simp only [Call.step] at hstep
    split at hstep
    · rename_i hphase
      rw [hphase] at h
      cases hstep
      exact h
    · cases hstep
  | readTimeout =>
    simp only [Call.step] at hstep
    split at hstep
    · rename_i hphase
      rw [hphase] at h
      cases hstep
      exact h
    · cases hstep
  | readReply =>
    simp only [Call.step] at hstep
    split at hstep
    · rename_i hphase
      rw [hphase] at h
      cases hstep
      by_cases hmore : call.attempt + 1 < call.maxAttempts
      · simpa [hmore, Phase.Recorded] using h
      · simpa [hmore, Phase.Recorded] using h
    · cases hstep

/-- So does the listener of its long poll. -/
theorem Call.publish_recorded {call : Call} {row : Row} {id : ℕ} {entries : List (ℕ × Row)}
    (h : call.phase.Recorded call.envelope id entries) :
    (call.publish row).phase.Recorded (call.publish row).envelope id entries := by
  rw [Call.publish]
  split
  · rename_i get hphase
    rw [hphase] at h
    exact h
  · exact h

/-- One call inserts a row, and the others are told. -/
theorem Recorded.insert {log : List (ℕ × Row)} {calls : ℕ → Option Call} (h : Recorded log calls) {id : ℕ} {row : Row}
    {call : Call} (hempty : entriesOf log id = []) (hcall : call.phase.Recorded call.envelope id [(id, row)]) :
    Recorded (log ++ [(id, row)]) (Function.update (fun i => (calls i).map (Call.publish row)) id (some call)) := by
  intro i
  by_cases hi : i = id
  · subst hi
    have hentries : entriesOf (log ++ [(i, row)]) i = [(i, row)] := by
      rw [entriesOf] at hempty ⊢
      simp [hempty]
    rw [Function.update_self, hentries]
    exact hcall
  · have hentries : entriesOf (log ++ [(id, row)]) i = entriesOf log i := by
      simp [entriesOf, Ne.symm hi]
    rw [Function.update_of_ne hi, hentries]
    have hother := h i
    cases hcalls : calls i with
    | none =>
      rw [hcalls] at hother
      exact hother
    | some other =>
      rw [hcalls] at hother
      exact Call.publish_recorded hother

/-- Every step keeps the calls recorded. -/
theorem recorded_step {σ σ' : State} {a : Act} (hstep : Relays σ a σ') (h : Recorded σ.log σ.calls) :
    Recorded σ'.log σ'.calls := by
  cases step_cases hstep with
  | advance | sweep | collect | poller => exact h
  | @appendNext id client sessionId kind ciphertext maxAttempts call hnone hphase =>
    apply h.update
    have hentries := h id
    rw [hnone] at hentries
    change call.phase.Recorded call.envelope id (entriesOf σ.log id)
    rcases hphase with hphase | hphase
    · rw [hphase]
      exact hentries
    · rw [hphase]
      exact hentries
  | @call id act call call' guess guesses hcall hcall' =>
    apply h.update
    have hrecorded := h id
    rw [hcall] at hrecorded
    exact Call.step_recorded hrecorded hcall'
  | @refused id call reply hcall hphase hreply =>
    have hempty := h id
    rw [hcall, RecordedIn, hphase] at hempty
    apply h.update
    rcases hreply with rfl | rfl
    · exact hempty
    · exact hempty
  | @inserted id call store row hcall hphase hparses hnext hrow huid hrows hinserts =>
    have hempty := h id
    rw [hcall, RecordedIn, hphase] at hempty
    apply h.insert hempty
    exact ⟨row, rfl, hrow⟩

/-! ## Delivery -/

/-- Every call that has returned an envelope has inserted exactly that one; what a client has received are
envelopes of its session, each once and in the order of their inserts; and the answer to a poll
completes what is stored of the session. -/
structure Relayed (σ : State) : Prop where
  appended : ∀ id call e, σ.calls id = some call → call.phase = .returned (some e) →
    ∃ row, entriesOf σ.log id = [(id, row)] ∧ row.toEnvelope = e
  received : ∀ i p, σ.pollers i = some p → p.received.Pairwise (fun a b => a.uid < b.uid) ∧
    ∀ r ∈ p.received, r ∈ σ.log.map Prod.snd ∧ r.sessionId = p.sessionId
  polled : ∀ i p p', σ.pollers i = some p → p.step σ.store .handle = some p' →
    ∀ r ∈ σ.store.session p.sessionId, r ∈ p'.got

theorem logged_run {acts : List Act} {σ : State} (hrun : Run Relays .init acts σ) : Logged σ := by
  apply hrun.invariant
  · exact ⟨by simp [State.init, MessageStore.empty], by simp [State.init]⟩
  · intro _ _ _ _ _ h hstep
    exact logged_step hstep h

theorem recorded_run {acts : List Act} {σ : State} (hrun : Run Relays .init acts σ) : Recorded σ.log σ.calls := by
  apply hrun.invariant
  · intro id
    rfl
  · intro _ _ _ _ _ h hstep
    exact recorded_step hstep h

theorem sound_run {acts : List Act} {σ : State} (hrun : Run RelaysOn .init acts σ) :
    ∀ i p, σ.pollers i = some p → p.Sound σ.store := by
  apply hrun.invariant (P := fun _ σ => ∀ i p, σ.pollers i = some p → p.Sound σ.store)
  · simp [State.init]
  · intro _ _ _ _ _ h hstep
    exact sound_step hstep h

/-- While every session that is stored continues, the relay delivers. -/
theorem relay_delivery {acts : List Act} {σ : State} (hrun : Run RelaysOn .init acts σ) : Relayed σ := by
  have hfree : Run Relays .init acts σ := hrun.mono fun _ _ _ h => h.1
  refine ⟨fun id call e hcall hphase => ?_, fun i p hp => ⟨?_, fun r hr => ?_⟩, fun i p p' hp hstep => ?_⟩
  · have hrecorded := recorded_run hfree id
    rw [hcall, RecordedIn, hphase] at hrecorded
    exact hrecorded
  · have hordered := (sound_run hrun i p hp).1
    exact (List.pairwise_append.1 hordered).1.imp fun hlt => hlt.1
  · exact (logged_run hfree).sent i p hp r (List.mem_append_left _ hr)
  · obtain ⟨-, hcases⟩ := sound_run hrun i p hp
    simp only [Poller.step] at hstep
    split at hstep
    · rename_i since hget
      split_ifs at hcases with hstopped
      · rw [hcases] at hget
        cases hget
      · cases hstep
        exact (hcases.handle hget).2
    · cases hstep

/-- Without a sweep the store is the log. -/
theorem rows_of_no_sweep {acts : List Act} {σ : State} (hrun : Run Relays .init acts σ) (hsweep : .sweep ∉ acts) :
    σ.store.rows = σ.log.map Prod.snd := by
  induction hrun with
  | start => rfl
  | snoc hrun hstep ih =>
    rename_i ls s s' l
    rw [List.mem_append, not_or] at hsweep
    have hrows := ih hsweep.1
    cases step_cases hstep with
    | sweep => simp at hsweep
    | advance | appendNext | refused | call | collect | poller => exact hrows
    | inserted hcall hphase hparses hnext hrow huid hstore =>
      simp [State.answer, hstore, hrows]

/-- Without a sweep every session continues. -/
theorem relaysOn_of_no_sweep {acts : List Act} {σ : State} (hrun : Run Relays .init acts σ) (hsweep : .sweep ∉ acts) :
    Run RelaysOn .init acts σ := by
  induction hrun with
  | start => exact Run.start
  | snoc hrun hstep ih =>
    rename_i ls s s' l
    rw [List.mem_append, not_or] at hsweep
    refine (ih hsweep.1).snoc ⟨hstep, ?_⟩
    cases l with
    | post id =>
      rintro ⟨call, hcall, -, -, hnil, i, p, hp, -, hsession, hgot⟩
      obtain ⟨r, hr⟩ := List.exists_mem_of_ne_nil _ hgot
      obtain ⟨hmem, hrow⟩ := (logged_run hrun).sent i p hp r hr
      rw [← rows_of_no_sweep hrun hsweep.1] at hmem
      have hstored : r ∈ s.store.session call.sessionId := s.store.mem_session.2 ⟨hmem, hrow.trans hsession⟩
      simp [hnil] at hstored
    | _ => trivial

/-! ## A session that is begun anew -/

def sampleSession : List Char := List.replicate 64 'a'

/-- A client appends to the session, another is sent the envelope. -/
def firstRound : List Act :=
  [.collect 0 sampleSession, .appendNext 0 0 sampleSession .nonce [] 20, .post 0, .call 0 .postReply,
    .poller 0 .send, .poller 0 .handle, .poller 0 .reply]

/-- The session is swept, a third client appends to it, and the second polls again. -/
def restartedRound : List Act :=
  firstRound ++ [.advance (ttlMs + 1), .sweep, .appendNext 1 1 sampleSession .nonce [] 20, .post 1, .poller 0 .send]

/-- Two clients append to one session at the same number; one is told of the conflict, reads the session and tries again.
One client polls from the start and another from the first envelope on; each waits for one envelope and finds the other. -/
def contendedRound : List Act :=
  [.collect 0 sampleSession, .poller 0 .send, .poller 0 .handle,
    .appendNext 0 0 sampleSession .nonce [] 20, .appendNext 1 1 sampleSession .nonce [] 20, .post 0, .post 1,
    .poller 0 .reply, .call 0 .postReply, .poller 0 .send, .collect 1 sampleSession, .poller 1 .send, .poller 1 .handle,
    .poller 1 .reply, .poller 1 .send, .poller 1 .handle, .call 1 .postReply, .call 1 .readHandle, .call 1 .readReply,
    .post 1, .poller 0 .handle, .poller 0 .reply, .poller 1 .reply, .call 1 .postReply]

/-- Both are sent both envelopes, in order. -/
theorem relay_delivery_contendedRound : ∃ σ, Run Relays .init contendedRound σ ∧
    (σ.pollers 0).map (fun p => p.received.map fun r => (r.seq, r.uid)) = some [(0, 0), (1, 1)] ∧
    (σ.pollers 1).map (fun p => p.received.map fun r => (r.seq, r.uid)) = some [(0, 0), (1, 1)] ∧
    σ.log.map Prod.fst = [0, 1] ∧ Relayed σ := by
  have hcheck : (contendedRound.foldlM State.step .init).map (fun σ =>
      ((σ.pollers 0).map fun p => p.received.map fun r => (r.seq, r.uid),
        (σ.pollers 1).map fun p => p.received.map fun r => (r.seq, r.uid), σ.log.map Prod.fst)) =
      some (some [(0, 0), (1, 1)], some [(0, 0), (1, 1)], [0, 1]) := by decide +kernel
  obtain ⟨σ, hσ, hreceived⟩ := Option.map_eq_some_iff.1 hcheck
  rw [Prod.mk.injEq, Prod.mk.injEq] at hreceived
  have hrun : Run Relays .init contendedRound σ := Run.of_foldlM hσ
  exact ⟨σ, hrun, hreceived.1, hreceived.2.1, hreceived.2.2,
    relay_delivery (relaysOn_of_no_sweep hrun (by simp [contendedRound]))⟩

/-- The envelope of the third client is stored when the second polls, and not in the answer. -/
theorem restarted_session_lost : ¬ ∀ acts σ, Run Relays .init acts σ → Relayed σ := by
  intro hclaim
  have hcheck : (restartedRound.foldlM State.step .init).map (fun σ => (σ.pollers 0).map fun p =>
      (p.step σ.store .handle).map fun p' => ((σ.store.session p.sessionId).map Row.uid, p'.got.map Row.uid)) =
      some (some (some ([1], [0]))) := by decide +kernel
  obtain ⟨σ, hσ, hcheck⟩ := Option.map_eq_some_iff.1 hcheck
  obtain ⟨p, hp, hcheck⟩ := Option.map_eq_some_iff.1 hcheck
  obtain ⟨p', hp', hcheck⟩ := Option.map_eq_some_iff.1 hcheck
  rw [Prod.mk.injEq] at hcheck
  obtain ⟨hstored, hgot⟩ := hcheck
  have hpolled := (hclaim restartedRound σ (Run.of_foldlM hσ)).polled 0 p p' hp hp'
  have hmem : 1 ∈ (σ.store.session p.sessionId).map Row.uid := by simp [hstored]
  obtain ⟨r, hr, huid⟩ := List.mem_map.1 hmem
  have hsent : r.uid ∈ p'.got.map Row.uid := List.mem_map_of_mem (hpolled r hr)
  rw [hgot, huid] at hsent
  simp at hsent

end Kakure.Coordinator
