import Kakure.Discovery.Types
import Kakure.Lib.Doubles
import Kakure.Lib.Runs

/-!
# Counter stores

`InMemoryEphemeralCounterStore` of `state/EphemeralCounterStore.ts` and, of `discovery/reconcile.ts`,
the two calls that move a store on: `ratchetCounter` and `reconcileCounterWithChain`, which read
the store and reserve in two steps.

* `Act.step_sound` — no step hands out an index again, if no sum it makes is rounded down;
* `never_reissued` — so no run of such steps does;
* `reissued` — past `2 ^ 53` a store hands one index out twice.
-/

namespace Kakure.Wallet

open Doubles Discovery Runs

/-! ## The store -/

/-- `EphemeralReservation`. -/
structure EphemeralReservation where
  scope : String
  base : Double
  span : ℤ

/-- `InMemoryEphemeralCounterStore`. -/
structure CounterStore where
  highWater : String → Option Double
  failNextWrite : Bool

namespace CounterStore

/-- The constructor, from a snapshot. -/
def new (snapshot : String → Option Double) : CounterStore := ⟨snapshot, false⟩

def snapshot (s : CounterStore) : String → Option Double := s.highWater

/-- `highWater`. -/
def mark (s : CounterStore) (scope : String) : Double := (s.highWater scope).getD (.int 0)

/-- The error of a span that is none. -/
def invalidSpan (span : Double) : String :=
  "ephemeral reserve: span must be a positive integer (got " ++ span.text ++ ")"

/-- `reserve`. -/
def reserve (s : CounterStore) (scope : String) (span : Double) :
    Except String EphemeralReservation × CounterStore :=
  match span with
  | .int n =>
    if n ≤ 0 then (.error (invalidSpan span), s)
    else if s.failNextWrite then
      (.error "ephemeral reserve: durable write failed", { s with failNextWrite := false })
    else
      (.ok ⟨scope, s.mark scope, n⟩,
        { s with highWater := Function.update s.highWater scope (some ((s.mark scope).add span)) })
  | _ => (.error (invalidSpan span), s)

end CounterStore

/-- `commit` of a reservation. -/
def EphemeralReservation.commit (r : EphemeralReservation) (usedThrough : Double) : Except String Unit :=
  match usedThrough with
  | .int _ =>
    if r.base.le usedThrough = true ∧ (r.base.add (.int r.span)).le usedThrough = false then .ok ()
    else .error "ephemeral commit: usedThrough out of reserved span"
  | _ => .error "ephemeral commit: usedThrough out of reserved span"

/-- `release` of a reservation. -/
def EphemeralReservation.release (_ : EphemeralReservation) : Except String Unit := .ok ()

/-! ## Ratchet and reconciliation -/

/-- The index of a tag, the last of several. -/
def byTag (tags : List IndexedTag) (tag : Fr) : Option ℕ :=
  (tags.reverse.find? fun t => t.tag = tag).map IndexedTag.index

/-- `occupiedTags`, of what the source answers. -/
def occupiedTags (probed : List FirstOccurrence) (tags : List IndexedTag) : List ℕ :=
  if tags = [] then []
  else (probed.filterMap fun entry =>
    if entry.occurrenceCount ≤ 0 then none else byTag tags entry.tag).dedup

/-- The highest occupied index, or `-1`. -/
def highestOccupied (occupied : List ℕ) : ℤ :=
  match (occupied.mergeSort fun a b => a ≤ b).getLast? with
  | none => -1
  | some highest => highest

/-- What a caller ratchets for: a target of its own, or what the source has of its candidates. -/
inductive Job where
  | ratchet (toExclusive : Double)
  | reconcile (probed : List FirstOccurrence) (candidates : List IndexedTag)

/-- The target of a job. -/
def Job.target : Job → Double
  | ratchet toExclusive => toExclusive
  | reconcile probed candidates => (Double.int (highestOccupied (occupiedTags probed candidates))).add (.int 1)

/-- A call of `ratchetCounter` that is under way: before it has read the mark, or with the span it is
going to reserve. -/
inductive Ratchet where
  | reading (scope : String) (job : Job) (toExclusive : ℤ)
  | reserving (scope : String) (job : Job) (toExclusive : ℤ) (span : Double)

/-- What happened: a span was handed out, or a job returned. -/
inductive CounterEvent where
  | reserved (r : EphemeralReservation)
  | done (scope : String) (job : Job)

/-- A store with the calls of `ratchetCounter` that are under way. -/
structure Counters where
  store : CounterStore
  ratchets : ℕ → Option Ratchet
  log : List CounterEvent

/-- A store on its own. -/
def Counters.start (store : CounterStore) : Counters := ⟨store, fun _ => none, []⟩

/-- One step: a call whose section under the lock runs, or a section of `ratchetCounter`. -/
inductive CounterAct where
  | reserve (scope : String) (span : Double)
  | failNextWrite
  | commit (r : EphemeralReservation) (usedThrough : Double)
  | release (r : EphemeralReservation)
  | highWater (scope : String)
  | call (id : ℕ) (scope : String) (job : Job)
  | read (id : ℕ)
  | advance (id : ℕ)

namespace Counters

def setRatchet (c : Counters) (id : ℕ) (ratchet : Option Ratchet) : Counters :=
  { c with ratchets := Function.update c.ratchets id ratchet }

/-- `ratchetCounter` returns. -/
def finish (c : Counters) (id : ℕ) (scope : String) (job : Job) : Counters :=
  { c.setRatchet id none with log := c.log ++ [.done scope job] }

/-- The section of a reservation, which is logged if one is handed out. -/
def reserve (c : Counters) (scope : String) (span : Double) : Except String EphemeralReservation × Counters :=
  match c.store.reserve scope span with
  | (.error e, store) => (.error e, { c with store := store })
  | (.ok r, store) => (.ok r, { c with store := store, log := c.log ++ [.reserved r] })

/-- The start of `ratchetCounter`. -/
def call (c : Counters) (id : ℕ) (scope : String) (job : Job) : Counters :=
  match job.target with
  | .int toExclusive =>
    if toExclusive < 0 then c else c.setRatchet id (some (.reading scope job toExclusive))
  | _ => c

/-- `ratchetCounter` reads the mark. -/
def read (c : Counters) (id : ℕ) : Counters :=
  match c.ratchets id with
  | some (.reading scope job toExclusive) =>
    if (Double.int toExclusive).le (c.store.mark scope) then c.finish id scope job
    else c.setRatchet id (some (.reserving scope job toExclusive
      ((Double.int toExclusive).sub (c.store.mark scope))))
  | _ => c

/-- `ratchetCounter` reserves. -/
def advance (c : Counters) (id : ℕ) : Counters :=
  match c.ratchets id with
  | some (.reserving scope job _ span) =>
    match c.reserve scope span with
    | (.error _, c') => c'.setRatchet id none
    | (.ok _, c') => c'.finish id scope job
  | _ => c

def act (c : Counters) : CounterAct → Counters
  | .reserve scope span => (c.reserve scope span).2
  | .failNextWrite => { c with store := { c.store with failNextWrite := true } }
  | .commit _ _ => c
  | .release _ => c
  | .highWater _ => c
  | .call id scope job => if (c.ratchets id).isSome then c else c.call id scope job
  | .read id => c.read id
  | .advance id => c.advance id

end Counters

/-! ## Sums that are not rounded down -/

/-- A sum is a number no lower than it should be. -/
def NotRoundedDown (exact : ℤ) (rounded : Double) : Prop := ∃ m, rounded = .int m ∧ exact ≤ m

/-- The condition of a reservation that is handed out. -/
def KeepsSum (s : CounterStore) (scope : String) (span : Double) : Prop :=
  ∀ b n, s.mark scope = .int b → span = .int n → 0 < n → s.failNextWrite = false →
    NotRoundedDown (b + n) ((Double.int b).add (.int n))

/-- The target of a job is no lower than it should be. -/
def Job.Exact : Job → Prop
  | ratchet _ => True
  | reconcile probed candidates => NotRoundedDown (highestOccupied (occupiedTags probed candidates) + 1)
      (Job.reconcile probed candidates).target

/-- No sum or difference the step makes is rounded down. -/
def CounterAct.Exact (c : Counters) : CounterAct → Prop
  | reserve scope span => KeepsSum c.store scope span
  | call _ _ job => job.Exact
  | read id => ∀ scope job toExclusive b, c.ratchets id = some (.reading scope job toExclusive) →
      c.store.mark scope = .int b → b < toExclusive →
        NotRoundedDown (toExclusive - b) ((Double.int toExclusive).sub (.int b))
  | advance id => ∀ scope job toExclusive span, c.ratchets id = some (.reserving scope job toExclusive span) →
      KeepsSum c.store scope span
  | _ => True

/-- A step whose sums are not rounded down. -/
def CounterStep (c : Counters) (act : CounterAct) (c' : Counters) : Prop := act.Exact c ∧ c' = c.act act

/-! ## What must not happen -/

/-- An index lies in a span. -/
def EphemeralReservation.Contains (r : EphemeralReservation) (index : ℤ) : Prop :=
  ∃ b, r.base = .int b ∧ b ≤ index ∧ index < b + r.span

/-- The bases from some index on. -/
def EphemeralReservation.From (r : EphemeralReservation) (index : ℤ) : Prop :=
  ∃ b, r.base = .int b ∧ index ≤ b

/-- What an event leaves to a later one: no index of a span, and none below the target of a job. -/
def CounterEvent.Leaves : CounterEvent → CounterEvent → Prop
  | .reserved r, .reserved r' => r.scope = r'.scope → ∀ index, r.Contains index → ¬ r'.Contains index
  | .done scope job, .reserved r => scope = r.scope → ∀ k, job.target = .int k → r.From k
  | _, _ => True

/-- The marks of a store are numbers that are no lower in another one. -/
def CounterStore.Le (s s' : CounterStore) : Prop :=
  ∀ scope b, s.mark scope = .int b → ∃ b', s'.mark scope = .int b' ∧ b ≤ b'

/-- The mark of a scope is no lower than what an event handed out or promised. -/
def CounterEvent.Below (s : CounterStore) : CounterEvent → Prop
  | .reserved r => ∃ b m, r.base = .int b ∧ s.mark r.scope = .int m ∧ b + r.span ≤ m
  | .done scope job => job.Exact ∧ ∃ k m, job.target = .int k ∧ s.mark scope = .int m ∧ k ≤ m

/-- A call under way will reach its target. -/
def Ratchet.Reaches (s : CounterStore) : Ratchet → Prop
  | .reading _ job toExclusive => job.Exact ∧ job.target = .int toExclusive
  | .reserving scope job toExclusive span => job.Exact ∧ job.target = .int toExclusive ∧
      ∃ n m, span = .int n ∧ s.mark scope = .int m ∧ toExclusive ≤ m + n

/-- The invariant: every mark is an integer, above all that was handed out or promised. -/
structure Counters.Sound (c : Counters) : Prop where
  marks : ∀ scope, ∃ m, c.store.mark scope = .int m
  below : ∀ e ∈ c.log, e.Below c.store
  leaves : c.log.Pairwise CounterEvent.Leaves
  reaches : ∀ id ratchet, c.ratchets id = some ratchet → ratchet.Reaches c.store

/-! ## One step -/

section Steps

variable {s s' : CounterStore} {c : Counters}

/-- What a reservation does: it is refused and changes no mark, or it hands out the span at the mark and
moves the mark past it. -/
theorem CounterStore.reserve_cases (s : CounterStore) (scope : String) (span : Double) :
    (∃ e s', s.reserve scope span = (.error e, s') ∧ s'.highWater = s.highWater) ∨
      ∃ n s', span = .int n ∧ 0 < n ∧ s.failNextWrite = false ∧ s.reserve scope span = (.ok ⟨scope, s.mark scope, n⟩, s') ∧
        ∀ scope', s'.mark scope' = if scope' = scope then (s.mark scope).add span else s.mark scope' := by
  unfold CounterStore.reserve
  cases span with
  | int n =>
    by_cases hle : n ≤ 0
    · simp only [if_pos hle]
      exact Or.inl ⟨_, s, rfl, rfl⟩
    · simp only [if_neg hle]
      cases hfail : s.failNextWrite with
      | true => exact Or.inl ⟨_, _, rfl, rfl⟩
      | false =>
        refine Or.inr ⟨n, _, rfl, not_le.1 hle, rfl, rfl, ?_⟩
        intro scope'
        unfold CounterStore.mark
        dsimp only
        rw [Function.update_apply]
        split <;> rfl
  | infinity => exact Or.inl ⟨_, s, rfl, rfl⟩
  | other => exact Or.inl ⟨_, s, rfl, rfl⟩

theorem CounterStore.Le.refl (s : CounterStore) : s.Le s := fun _ b h => ⟨b, h, le_rfl⟩

theorem CounterStore.Le.of_highWater_eq (h : s'.highWater = s.highWater) : s.Le s' := by
  intro scope b hb
  refine ⟨b, ?_, le_rfl⟩
  unfold CounterStore.mark at hb ⊢
  rwa [h]

theorem CounterEvent.Below.mono {e : CounterEvent} (h : e.Below s) (hle : s.Le s') : e.Below s' := by
  cases e with
  | reserved r =>
    obtain ⟨b, m, hb, hm, hbm⟩ := h
    obtain ⟨m', hm', hmm⟩ := hle _ _ hm
    exact ⟨b, m', hb, hm', le_trans hbm hmm⟩
  | done scope job =>
    obtain ⟨hjob, k, m, hk, hm, hkm⟩ := h
    obtain ⟨m', hm', hmm⟩ := hle _ _ hm
    exact ⟨hjob, k, m', hk, hm', le_trans hkm hmm⟩

theorem Ratchet.Reaches.mono {ratchet : Ratchet} (h : ratchet.Reaches s) (hle : s.Le s') :
    ratchet.Reaches s' := by
  cases ratchet with
  | reading scope job toExclusive => exact h
  | reserving scope job toExclusive span =>
    obtain ⟨hexact, hjob, n, m, hspan, hm, hreach⟩ := h
    obtain ⟨m', hm', hmm⟩ := hle _ _ hm
    exact ⟨hexact, hjob, n, m', hspan, hm', by omega⟩

/-- Whoever changes only marks, and raises them, keeps the invariant. -/
theorem Counters.Sound.of_le {store : CounterStore} (h : c.Sound) (hle : c.store.Le store) :
    Counters.Sound { c with store := store } where
  marks := by
    intro scope
    obtain ⟨m, hm⟩ := h.marks scope
    obtain ⟨m', hm', -⟩ := hle scope m hm
    exact ⟨m', hm'⟩
  below := fun e he => (h.below e he).mono hle
  leaves := h.leaves
  reaches := fun id ratchet hid => (h.reaches id ratchet hid).mono hle

/-- What is below the marks leaves the span at a mark alone. -/
theorem CounterEvent.Below.leaves {e : CounterEvent} (h : e.Below s) (scope : String) (n : ℤ) :
    e.Leaves (.reserved ⟨scope, s.mark scope, n⟩) := by
  cases e with
  | reserved r =>
    rintro (rfl : r.scope = scope) index ⟨b, hb, -, hlt⟩ ⟨b', hb', hle, -⟩
    obtain ⟨b₀, m, hb₀, hm, hbm⟩ := h
    rw [hb₀] at hb
    cases hb
    rw [hm] at hb'
    cases hb'
    omega
  | done scope' job =>
    rintro (rfl : scope' = scope) k hk
    obtain ⟨-, k', m, hk', hm, hle⟩ := h
    rw [hk'] at hk
    cases hk
    exact ⟨m, hm, hle⟩

/-- An event above all others goes to the end of the log. -/
theorem Counters.Sound.log (h : c.Sound) {e : CounterEvent} (hbelow : e.Below c.store)
    (hleaves : ∀ e' ∈ c.log, e'.Leaves e) : Counters.Sound { c with log := c.log ++ [e] } where
  marks := h.marks
  below := by
    intro e' he'
    rcases List.mem_append.1 he' with he' | he'
    · exact h.below e' he'
    · rw [List.mem_singleton.1 he']
      exact hbelow
  leaves := by
    refine List.pairwise_append.2 ⟨h.leaves, List.pairwise_singleton _ _, ?_⟩
    intro e' he' e'' he''
    rw [List.mem_singleton.1 he'']
    exact hleaves e' he'
  reaches := h.reaches

/-- The section of a reservation, with the mark it leaves behind. -/
theorem Counters.Sound.reserve (h : c.Sound) {scope : String} {span : Double}
    (hsum : KeepsSum c.store scope span) :
    (c.reserve scope span).2.Sound ∧ c.store.Le (c.reserve scope span).2.store ∧
      (c.reserve scope span).2.ratchets = c.ratchets ∧
      ∀ r, (c.reserve scope span).1 = .ok r → ∃ n b m, span = .int n ∧ c.store.mark scope = .int b ∧
        (c.reserve scope span).2.store.mark scope = .int m ∧ b + n ≤ m := by
  unfold Counters.reserve
  rcases c.store.reserve_cases scope span with ⟨e, store, hreserve, hsame⟩ | ⟨n, store, rfl, hpos, hwrite, hreserve, hmark⟩
  · simp only [hreserve]
    have hle : c.store.Le store := .of_highWater_eq hsame
    refine ⟨h.of_le hle, hle, trivial, ?_⟩
    intro r hr
    cases hr
  · simp only [hreserve]
    obtain ⟨b, hb⟩ := h.marks scope
    obtain ⟨m, hm, hbm⟩ := hsum b n hb rfl hpos hwrite
    rw [← hb] at hm
    have hnew : store.mark scope = .int m := by rw [hmark, if_pos rfl, hm]
    have hle : c.store.Le store := by
      intro scope' b' hb'
      rw [hmark]
      by_cases heq : scope' = scope
      · rw [if_pos heq, hm]
        rw [heq, hb] at hb'
        cases hb'
        exact ⟨m, rfl, by omega⟩
      · rw [if_neg heq]
        exact ⟨b', hb', le_rfl⟩
    refine ⟨?_, hle, trivial, fun r _ => ⟨n, b, m, rfl, hb, hnew, hbm⟩⟩
    refine (h.of_le hle).log (e := .reserved ⟨scope, c.store.mark scope, n⟩) ⟨b, m, hb, hnew, hbm⟩ ?_
    intro e he
    exact (h.below e he).leaves scope n

theorem Counters.Sound.setRatchet (h : c.Sound) (id : ℕ) (ratchet : Option Ratchet)
    (hreaches : ∀ r, ratchet = some r → r.Reaches c.store) : (c.setRatchet id ratchet).Sound where
  marks := h.marks
  below := h.below
  leaves := h.leaves
  reaches := by
    intro id' r hr
    unfold Counters.setRatchet at hr
    dsimp only at hr
    rw [Function.update_apply] at hr
    split at hr
    · exact hreaches r hr
    · exact h.reaches id' r hr

/-- A call returns when the mark has reached its target. -/
theorem Counters.Sound.finish (h : c.Sound) (id : ℕ) {scope : String} {job : Job} {k m : ℤ}
    (hexact : job.Exact) (hjob : job.target = .int k) (hm : c.store.mark scope = .int m) (hle : k ≤ m) :
    (c.finish id scope job).Sound := by
  refine (h.setRatchet id none ?_).log (e := .done scope job) ⟨hexact, k, m, hjob, hm, hle⟩ ?_
  · intro r hr
    cases hr
  · intro e _
    cases e <;> trivial

theorem Counters.Sound.call (h : c.Sound) (id : ℕ) (scope : String) {job : Job} (hexact : job.Exact) :
    (c.call id scope job).Sound := by
  unfold Counters.call
  split
  · rename_i toExclusive hjob
    split
    · exact h
    · refine h.setRatchet id _ ?_
      rintro r hr
      cases hr
      exact ⟨hexact, hjob⟩
  · exact h

theorem Counters.Sound.read (h : c.Sound) {id : ℕ} (hexact : CounterAct.Exact c (.read id)) :
    (c.read id).Sound := by
  unfold Counters.read
  split
  · rename_i scope job toExclusive hid
    obtain ⟨hjobExact, hjob⟩ : job.Exact ∧ job.target = .int toExclusive := h.reaches id _ hid
    obtain ⟨b, hb⟩ := h.marks scope
    rw [hb]
    by_cases hle : toExclusive ≤ b
    · rw [if_pos (show (Double.int toExclusive).le (.int b) = true from decide_eq_true hle)]
      exact h.finish id hjobExact hjob hb hle
    · rw [if_neg (show ¬ (Double.int toExclusive).le (.int b) = true from by simpa [Double.le] using hle)]
      refine h.setRatchet id _ ?_
      intro r hr
      cases hr
      obtain ⟨n, hn, hle'⟩ := hexact scope job toExclusive b hid hb (not_le.1 hle)
      exact ⟨hjobExact, hjob, n, b, hn, hb, by omega⟩
  · exact h

theorem Counters.Sound.advance (h : c.Sound) {id : ℕ} (hexact : CounterAct.Exact c (.advance id)) :
    (c.advance id).Sound ∧ c.store.Le (c.advance id).store := by
  unfold Counters.advance
  split
  · rename_i scope job toExclusive span hid
    obtain ⟨hsound, hle, -, hok⟩ := h.reserve (hexact scope job toExclusive span hid)
    obtain ⟨hjobExact, hjob, n, m, hn, hm, hreach⟩ := h.reaches id _ hid
    cases hreserve : c.reserve scope span with
    | mk result c' =>
      rw [hreserve] at hsound hle hok
      cases result with
      | error e =>
        refine ⟨hsound.setRatchet id _ ?_, hle⟩
        intro r hr
        cases hr
      | ok r =>
        obtain ⟨n', b, m', hn', hb, hm', hbm⟩ := hok r rfl
        rw [hn] at hn'
        cases hn'
        rw [hm] at hb
        cases hb
        exact ⟨hsound.finish id hjobExact hjob hm' (by omega), hle⟩
  · exact ⟨h, .refl _⟩

/-- A step whose sums are not rounded down keeps the invariant, and lowers no mark. -/
theorem CounterAct.step_sound (act : CounterAct) (h : c.Sound) (hexact : act.Exact c) :
    (c.act act).Sound ∧ c.store.Le (c.act act).store := by
  cases act with
  | reserve scope span =>
    obtain ⟨hsound, hle, -⟩ := h.reserve hexact
    exact ⟨hsound, hle⟩
  | failNextWrite => exact ⟨h.of_le (.of_highWater_eq rfl), .of_highWater_eq rfl⟩
  | commit r usedThrough => exact ⟨h, .refl _⟩
  | release r => exact ⟨h, .refl _⟩
  | highWater scope => exact ⟨h, .refl _⟩
  | call id scope job =>
    unfold Counters.act
    dsimp only
    split
    · exact ⟨h, .refl _⟩
    · refine ⟨h.call id scope hexact, ?_⟩
      unfold Counters.call
      split
      · split <;> exact .refl _
      · exact .refl _
  | read id =>
    refine ⟨h.read hexact, ?_⟩
    show c.store.Le (c.read id).store
    unfold Counters.read
    split
    · split <;> exact .refl _
    · exact .refl _
  | advance id => exact h.advance hexact

end Steps

/-! ## Reconciliation -/

/-- The candidates of a wallet: the tag of every index below some number. -/
def candidatesBelow (tag : ℕ → Fr) (n : ℕ) : List IndexedTag := (List.range n).map fun i => ⟨i, tag i⟩

/-- A source that answers for every candidate, and with the number of records that carry a tag. -/
structure Faithful (count : Fr → ℕ) (probed : List FirstOccurrence) (candidates : List IndexedTag) : Prop where
  answered : ∀ t ∈ candidates, ∃ entry ∈ probed, entry.tag = t.tag
  counted : ∀ entry ∈ probed, entry.occurrenceCount = count entry.tag

/-- Of several candidates with one tag the one with the greatest index is looked up. -/
theorem le_byTag {tag : ℕ → Fr} {n i : ℕ} (hi : i < n) :
    ∃ j, byTag (candidatesBelow tag n) (tag i) = some j ∧ i ≤ j := by
  unfold byTag candidatesBelow
  rw [← List.map_reverse, List.find?_map, Option.map_map]
  induction n with
  | zero => exact absurd hi (Nat.not_lt_zero _)
  | succ n ih =>
    rw [List.range_succ, List.reverse_append, List.reverse_singleton, List.singleton_append, List.find?_cons]
    by_cases htag : tag n = tag i
    · simp only [Function.comp_apply, htag, decide_true, Option.map_some]
      exact ⟨n, rfl, Nat.lt_succ_iff.1 hi⟩
    · have hne : i ≠ n := by
        rintro rfl
        exact htag rfl
      simp only [Function.comp_apply, htag, decide_false]
      exact ih (by omega)

/-- An occupied candidate is no higher than the highest one that is reported. -/
theorem le_highestOccupied {occupied : List ℕ} {i : ℕ} (h : i ∈ occupied) :
    (i : ℤ) ≤ highestOccupied occupied := by
  unfold highestOccupied
  have hmem : i ∈ occupied.mergeSort fun a b => a ≤ b := List.mem_mergeSort.2 h
  have hsorted : (occupied.mergeSort fun a b => a ≤ b).Pairwise (· ≤ ·) := by
    simpa using @List.pairwise_mergeSort ℕ (fun a b => decide (a ≤ b))
      (fun a b c hab hbc => by simp at *; omega) (fun a b => by simp; omega) occupied
  generalize (occupied.mergeSort fun a b => decide (a ≤ b)) = sorted at hmem hsorted
  rcases sorted.eq_nil_or_concat with rfl | ⟨init, last, rfl⟩
  · cases hmem
  · rw [List.concat_eq_append] at hmem hsorted ⊢
    rw [List.getLast?_append]
    simp only [List.getLast?_singleton, Option.some_or]
    rcases List.mem_append.1 hmem with hinit | hlast
    · exact_mod_cast (List.pairwise_append.1 hsorted).2.2 i hinit last (List.mem_singleton_self _)
    · rw [List.mem_singleton.1 hlast]

/-- The highest occupied index covers every candidate some record carries the tag of. -/
theorem occupied_le {count : Fr → ℕ} {tag : ℕ → Fr} {n i : ℕ} {probed : List FirstOccurrence}
    (h : Faithful count probed (candidatesBelow tag n)) (hi : i < n) (hcount : 0 < count (tag i)) :
    (i : ℤ) ≤ highestOccupied (occupiedTags probed (candidatesBelow tag n)) := by
  have hmem : (⟨i, tag i⟩ : IndexedTag) ∈ candidatesBelow tag n :=
    List.mem_map_of_mem (List.mem_range.2 hi)
  obtain ⟨entry, hentry, htag⟩ := h.answered _ hmem
  obtain ⟨j, hj, hle⟩ := @le_byTag tag n i hi
  have hoccupied : j ∈ occupiedTags probed (candidatesBelow tag n) := by
    unfold occupiedTags
    rw [if_neg (List.ne_nil_of_mem hmem), List.mem_dedup, List.mem_filterMap]
    refine ⟨entry, hentry, ?_⟩
    rw [h.counted entry hentry, htag, if_neg (by exact_mod_cast not_le.2 hcount)]
    exact hj
  refine le_trans ?_ (le_highestOccupied hoccupied)
  exact_mod_cast hle

/-! ## Whole runs -/

/-- No index is handed out again: the spans of a scope are disjoint, after a ratchet bases are at its
target or above, after a reconciliation they are above every occupied candidate, and a
reservation that fails changes nothing. -/
structure NeverReissued (c : Counters) : Prop where
  disjoint : c.log.Pairwise fun e e' => ∀ r r', e = .reserved r → e' = .reserved r' → r.scope = r'.scope →
    ∀ index, r.Contains index → ¬ r'.Contains index
  ratcheted : c.log.Pairwise fun e e' => ∀ scope k r, e = .done scope (.ratchet (.int k)) →
    e' = .reserved r → scope = r.scope → r.From k
  reconciled : c.log.Pairwise fun e e' => ∀ scope probed tag n count r,
    e = .done scope (.reconcile probed (candidatesBelow tag n)) → e' = .reserved r → scope = r.scope →
      Faithful count probed (candidatesBelow tag n) → ∀ i < n, 0 < count (tag i) → r.From (i + 1)
  failed : ∀ scope span e, (c.reserve scope span).1 = .error e →
    (c.reserve scope span).2.log = c.log ∧ ∀ scope', (c.reserve scope span).2.store.mark scope' = c.store.mark scope'

theorem Counters.Sound.neverReissued {c : Counters} (h : c.Sound) : NeverReissued c where
  disjoint := by
    refine h.leaves.imp ?_
    rintro e e' hleaves r r' rfl rfl
    exact hleaves
  ratcheted := by
    refine h.leaves.imp ?_
    rintro e e' hleaves scope k r rfl rfl hscope
    exact hleaves hscope k rfl
  reconciled := by
    refine h.leaves.imp_of_mem ?_
    rintro e e' he - hleaves scope probed tag n count r rfl rfl hscope hfaithful i hi hcount
    obtain ⟨⟨k, hk, hle⟩, -⟩ := h.below _ he
    obtain ⟨b, hb, hkb⟩ := hleaves hscope k hk
    have hocc := occupied_le hfaithful hi hcount
    exact ⟨b, hb, by omega⟩
  failed := by
    intro scope span e he
    unfold Counters.reserve at he ⊢
    rcases c.store.reserve_cases scope span with ⟨e', store, hreserve, hsame⟩ | ⟨n, store, -, -, -, hreserve, -⟩
    · simp only [hreserve]
      refine ⟨trivial, fun scope' => ?_⟩
      unfold CounterStore.mark
      rw [hsame]
    · simp only [hreserve] at he
      cases he

theorem sound_start {store : CounterStore} (h : ∀ scope, ∃ m, store.mark scope = .int m) :
    (Counters.start store).Sound where
  marks := h
  below := by
    intro e he
    cases he
  leaves := List.Pairwise.nil
  reaches := by
    intro id ratchet h
    cases h

theorem sound_of_run {c c' : Counters} {acts : List CounterAct} (h : c.Sound)
    (hrun : Run CounterStep c acts c') : c'.Sound ∧ c.store.Le c'.store := by
  refine hrun.invariant (P := fun _ c' => c'.Sound ∧ c.store.Le c'.store) ⟨h, .refl _⟩ ?_
  rintro acts c₁ act c₂ - ⟨hsound, hle⟩ ⟨hexact, rfl⟩
  obtain ⟨hsound', hle'⟩ := act.step_sound hsound hexact
  refine ⟨hsound', fun scope b hb => ?_⟩
  obtain ⟨b₁, hb₁, hle₁⟩ := hle scope b hb
  obtain ⟨b₂, hb₂, hle₂⟩ := hle' scope b₁ hb₁
  exact ⟨b₂, hb₂, le_trans hle₁ hle₂⟩

/-- In every run without a sum that is rounded down, on a store rebuilt from a snapshot that another such
run left: no index is handed out again, and no mark decreases as the run goes on. -/
theorem never_reissued {c₁ c₂ : Counters} {acts₁ acts₂ : List CounterAct}
    (hearlier : Run CounterStep (.start (.new fun _ => none)) acts₁ c₁)
    (hrun : Run CounterStep (.start (.new c₁.store.snapshot)) acts₂ c₂) :
    NeverReissued c₂ ∧ ∀ acts c, Run CounterStep c₂ acts c → c₂.store.Le c.store := by
  have hfirst := (sound_of_run (sound_start fun _ => ⟨0, rfl⟩) hearlier).1
  have hstart : (Counters.start (.new c₁.store.snapshot)).Sound := sound_start fun scope => hfirst.marks scope
  have hsound := (sound_of_run hstart hrun).1
  exact ⟨hsound.neverReissued, fun acts c hmore => (sound_of_run hsound hmore).2⟩

/-- Sums up to `2 ^ 53` are not rounded. -/
theorem keepsSum_of_le {s : CounterStore} {scope : String} {b n : ℤ} (hb : s.mark scope = .int b)
    (hnonneg : 0 ≤ b) (hn : 0 < n) (hle : b + n ≤ 2 ^ 53) : KeepsSum s scope (.int n) := by
  rintro b' n' hb' hn' - -
  rw [hb] at hb'
  cases hb'
  cases hn'
  exact ⟨b + n, add_of_le (by omega), le_rfl⟩

/-- The difference of two numbers up to `2 ^ 53` is exact. -/
theorem notRoundedDown_sub {k b : ℤ} (hb : 0 ≤ b) (hle : b ≤ k) (hk : k ≤ 2 ^ 53) :
    NotRoundedDown (k - b) ((Double.int k).sub (.int b)) :=
  ⟨k - b, ofInt_of_le (by omega), le_rfl⟩

/-- The base and the span of a reservation. -/
def CounterEvent.handedOut : CounterEvent → Option (Double × ℤ)
  | .reserved r => some (r.base, r.span)
  | .done _ _ => none

/-- A reservation leaves the calls under way as they are. -/
theorem Counters.reserve_ratchets (c : Counters) (scope : String) (span : Double) :
    (c.reserve scope span).2.ratchets = c.ratchets := by
  unfold Counters.reserve
  split <;> rfl

/-- A store that has handed out the indices below five. -/
def earlierCounters : Counters := (Counters.start (.new fun _ => none)).act (.reserve "self" (.int 5))

/-- A reservation, a call of `ratchetCounter` with another reservation between its two sections, and one more. -/
def laterActs : List CounterAct :=
  [.reserve "self" (.int 1), .call 0 "self" (.ratchet (.int 10)), .read 0, .reserve "self" (.int 1), .advance 0,
    .reserve "self" (.int 2)]

/-- The first of them, on the store that is rebuilt from the snapshot. -/
def laterCounters (k : ℕ) : Counters :=
  (laterActs.take k).foldl Counters.act (.start (.new earlierCounters.store.snapshot))

theorem laterCounters_succ {k : ℕ} {act : CounterAct} (h : laterActs[k]? = some act) :
    laterCounters (k + 1) = (laterCounters k).act act := by
  rw [laterCounters, List.take_add_one, h, Option.toList_some, List.foldl_append, List.foldl_cons, List.foldl_nil]
  rfl

theorem laterCounters_mark : ∀ k < 7, (laterCounters k).store.mark "self" = .int ([5, 6, 6, 6, 7, 11, 13].getD k 0) := by
  decide +kernel

/-- The call reads a mark below its target. -/
theorem laterCounters_reading : (laterCounters 2).ratchets 0 = some (.reading "self" (.ratchet (.int 10)) 10) := by
  have hidle : (laterCounters 1).ratchets 0 = none := rfl
  rw [laterCounters_succ (k := 1) rfl]
  simp [Counters.act, hidle, Counters.call, Job.target, Counters.setRatchet]

/-- It is going to reserve what is missing. -/
theorem laterCounters_reserving :
    (laterCounters 4).ratchets 0 = some (.reserving "self" (.ratchet (.int 10)) 10 (.int 4)) := by
  have hread : (laterCounters 3).ratchets 0 = some (.reserving "self" (.ratchet (.int 10)) 10 (.int 4)) := by
    have hspan : Double.sub (.int 10) (.int 6) = .int 4 := by decide +kernel
    rw [laterCounters_succ (k := 2) rfl]
    simp [Counters.act, Counters.read, laterCounters_reading, laterCounters_mark 2 (by norm_num), Double.le,
      Counters.setRatchet, hspan]
  rw [laterCounters_succ (k := 3) rfl, Counters.act, Counters.reserve_ratchets, hread]

/-- Each reservation of the run, and the ratchet between them, has its own span. -/
theorem never_reissued_sample : ∃ later,
    Run CounterStep (.start (.new fun _ => none)) [.reserve "self" (.int 5)] earlierCounters ∧
    Run CounterStep (.start (.new earlierCounters.store.snapshot)) laterActs later ∧
    later.log.filterMap CounterEvent.handedOut = [(.int 5, 1), (.int 6, 1), (.int 7, 4), (.int 11, 2)] ∧
    NeverReissued later := by
  have hearlier : Run CounterStep (.start (.new fun _ => none)) [.reserve "self" (.int 5)] earlierCounters :=
    Run.single ⟨keepsSum_of_le (b := 0) rfl le_rfl (by norm_num) (by norm_num), rfl⟩
  have hfirst : CounterStep (laterCounters 0) (.reserve "self" (.int 1)) (laterCounters 1) :=
    ⟨keepsSum_of_le (laterCounters_mark 0 (by norm_num)) (by norm_num) (by norm_num) (by norm_num), laterCounters_succ rfl⟩
  have hcall : CounterStep (laterCounters 1) (.call 0 "self" (.ratchet (.int 10))) (laterCounters 2) :=
    ⟨trivial, laterCounters_succ rfl⟩
  have hread : CounterStep (laterCounters 2) (.read 0) (laterCounters 3) := by
    refine ⟨?_, laterCounters_succ rfl⟩
    intro scope job toExclusive b hratchet hmark hlt
    rw [laterCounters_reading, Option.some.injEq, Ratchet.reading.injEq] at hratchet
    obtain ⟨rfl, rfl, rfl⟩ := hratchet
    obtain rfl := Double.int.inj ((laterCounters_mark 2 (by norm_num)).symm.trans hmark)
    exact notRoundedDown_sub (by norm_num) (by norm_num) (by norm_num)
  have hbetween : CounterStep (laterCounters 3) (.reserve "self" (.int 1)) (laterCounters 4) :=
    ⟨keepsSum_of_le (laterCounters_mark 3 (by norm_num)) (by norm_num) (by norm_num) (by norm_num), laterCounters_succ rfl⟩
  have hadvance : CounterStep (laterCounters 4) (.advance 0) (laterCounters 5) := by
    refine ⟨?_, laterCounters_succ rfl⟩
    intro scope job toExclusive span hratchet
    rw [laterCounters_reserving, Option.some.injEq, Ratchet.reserving.injEq] at hratchet
    obtain ⟨rfl, rfl, rfl, rfl⟩ := hratchet
    exact keepsSum_of_le (laterCounters_mark 4 (by norm_num)) (by norm_num) (by norm_num) (by norm_num)
  have hlast : CounterStep (laterCounters 5) (.reserve "self" (.int 2)) (laterCounters 6) :=
    ⟨keepsSum_of_le (laterCounters_mark 5 (by norm_num)) (by norm_num) (by norm_num) (by norm_num), laterCounters_succ rfl⟩
  have hlater : Run CounterStep (.start (.new earlierCounters.store.snapshot)) laterActs (laterCounters 6) :=
    (((((Run.start.snoc hfirst).snoc hcall).snoc hread).snoc hbetween).snoc hadvance).snoc hlast
  exact ⟨_, hearlier, hlater, by decide +kernel, (never_reissued hearlier hlater).1⟩

/-- Past `2 ^ 53` a store does not get on: it hands the same index out twice. -/
theorem reissued : ∃ acts : List CounterAct, ¬ NeverReissued (acts.foldl Counters.act (.start (.new fun _ => none))) := by
  refine ⟨[.reserve "self" (.int (2 ^ 53)), .reserve "self" (.int 1), .reserve "self" (.int 1)], fun h => ?_⟩
  have hlog : ([CounterAct.reserve "self" (.int (2 ^ 53)), .reserve "self" (.int 1),
      .reserve "self" (.int 1)].foldl Counters.act (.start (.new fun _ => none))).log =
        [.reserved ⟨"self", .int 0, 2 ^ 53⟩, .reserved ⟨"self", .int (2 ^ 53), 1⟩,
          .reserved ⟨"self", .int (2 ^ 53), 1⟩] := by
    have hexact : Double.add (.int 0) (.int (2 ^ 53)) = .int (2 ^ 53) := add_of_le (by norm_num)
    have hrounded : Double.add (.int (2 ^ 53)) (.int 1) = .int (2 ^ 53) := by decide +kernel
    norm_num at hexact hrounded
    simp [Counters.act, Counters.reserve, CounterStore.reserve, CounterStore.mark, CounterStore.new,
      Counters.start, hexact, hrounded]
  have hdisjoint := h.disjoint
  rw [hlog] at hdisjoint
  have hpair := (List.pairwise_cons.1 (List.pairwise_cons.1 hdisjoint).2).1 _ (List.mem_singleton_self _)
  refine hpair _ _ rfl rfl rfl (2 ^ 53) ⟨2 ^ 53, rfl, le_rfl, ?_⟩ ⟨2 ^ 53, rfl, le_rfl, ?_⟩
  · norm_num
  · norm_num

end Kakure.Wallet
