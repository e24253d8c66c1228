import Mathlib

/-!
# The message store

`packages/coordinator/src/schema.ts` and `db/store.ts`: the envelopes of all sessions in one table,
numbered within their session.

* `nextSeq_eq_zero_iff`, `lt_nextSeq` — the next number of a session;
* `mem_since` — what a reader with a cursor is answered, and in which order;
* `mem_sweepExpired` — a sweep keeps or deletes whole sessions.
-/

namespace Kakure.Coordinator

/-- `EnvelopeKind`. -/
inductive EnvelopeKind
  | dkg1 | dkg2 | proposal | nonce | share | final
  deriving DecidableEq

/-- `Envelope`. -/
structure Envelope where
  sessionId : List Char
  seq : ℕ
  kind : EnvelopeKind
  ciphertext : List Char
  deriving DecidableEq

/-- `HEX32`. -/
def isHex32 (s : List Char) : Bool :=
  s.length = 64 && s.all fun c => ('0' ≤ c && c ≤ '9') || ('a' ≤ c && c ≤ 'f') || ('A' ≤ c && c ≤ 'F')

/-- The class of `BASE64`. -/
def isBase64Char (c : Char) : Bool :=
  ('A' ≤ c && c ≤ 'Z') || ('a' ≤ c && c ≤ 'z') || ('0' ≤ c && c ≤ '9') || c = '+' || c = '/'

/-- `BASE64`: characters of the class, and up to two signs of equality at the end. -/
def isBase64 (s : List Char) : Bool :=
  let padding := s.reverse.takeWhile (· = '=')
  padding.length ≤ 2 && (s.take (s.length - padding.length)).all isBase64Char

/-- `EnvelopeSchema`. -/
def Envelope.parses (e : Envelope) : Bool :=
  isHex32 e.sessionId && (e.ciphertext.length % 4 = 0 && isBase64 e.ciphertext)

/-- A row of `messages`. `uid` numbers the inserts: the table has no such column, nothing below reads it. -/
structure Row extends Envelope where
  createdAt : ℕ
  uid : ℕ
  deriving DecidableEq

/-- `TTL_MS`. -/
def ttlMs : ℕ := 24 * 60 * 60 * 1000

/-- `MessageStore`: the rows in the order of their inserts, and how many there were. -/
structure MessageStore where
  rows : List Row
  inserts : ℕ
  ordered : rows.Pairwise fun a b => a.uid < b.uid ∧ (a.sessionId = b.sessionId → a.seq < b.seq)
  fresh : ∀ r ∈ rows, r.uid < inserts

namespace MessageStore

variable (store : MessageStore)

/-- An empty store. -/
def empty : MessageStore := ⟨[], 0, List.Pairwise.nil, by simp⟩

/-- The rows of a session. -/
def session (sessionId : List Char) : List Row := store.rows.filter fun r => r.sessionId = sessionId

/-- `nextSeq`. -/
def nextSeq (sessionId : List Char) : ℕ :=
  match ((store.session sessionId).map fun r => r.seq).max? with
  | none => 0
  | some m => m + 1

theorem mem_session {sessionId : List Char} {r : Row} :
    r ∈ store.session sessionId ↔ r ∈ store.rows ∧ r.sessionId = sessionId := by simp [session]

/-- The next number is above all numbers of the session. -/
theorem lt_nextSeq {sessionId : List Char} {r : Row} (h : r ∈ store.session sessionId) :
    r.seq < store.nextSeq sessionId := by
  rw [nextSeq]
  have hmem : r.seq ∈ (store.session sessionId).map fun r => r.seq := List.mem_map_of_mem h
  cases hmax : ((store.session sessionId).map fun r => r.seq).max? with
  | none => simp [List.max?_eq_none_iff.1 hmax] at hmem
  | some m => exact Nat.lt_succ_of_le ((List.max?_eq_some_iff.1 hmax).2 _ hmem)

theorem nextSeq_eq_zero_iff {sessionId : List Char} : store.nextSeq sessionId = 0 ↔ store.session sessionId = [] := by
  constructor
  · intro hzero
    by_contra hne
    obtain ⟨r, hr⟩ := List.exists_mem_of_ne_nil _ hne
    have := store.lt_nextSeq hr
    omega
  · intro hnil
    simp [nextSeq, hnil]

/-- The next number depends on the rows of the session only. -/
theorem nextSeq_congr {store store' : MessageStore} {sessionId : List Char}
    (h : store'.session sessionId = store.session sessionId) : store'.nextSeq sessionId = store.nextSeq sessionId := by
  rw [nextSeq, nextSeq, h]

/-- The row an append inserts. -/
def newRow (e : Envelope) (now : ℕ) : Row := ⟨e, now, store.inserts⟩

/-- `append`: the error is a `SequenceConflictError`. -/
def append (e : Envelope) (now : ℕ) : Except String MessageStore :=
  if h : e.seq = store.nextSeq e.sessionId then
    .ok {
      rows := store.rows ++ [store.newRow e now]
      inserts := store.inserts + 1
      ordered := by
        refine List.pairwise_append.2 ⟨store.ordered, List.pairwise_singleton _ _, fun a ha b hb => ?_⟩
        obtain rfl := List.mem_singleton.1 hb
        refine ⟨store.fresh a ha, fun hsession => ?_⟩
        have hlt : a.seq < store.nextSeq e.sessionId := store.lt_nextSeq (store.mem_session.2 ⟨ha, hsession⟩)
        rwa [← h] at hlt
      fresh := by
        intro r hr
        rcases List.mem_append.1 hr with hr | hr
        · exact Nat.lt_succ_of_lt (store.fresh r hr)
        · obtain rfl := List.mem_singleton.1 hr
          exact Nat.lt_succ_self _ }
  else .error s!"seq {e.seq} already exists (or is not the next seq) for session {String.ofList e.sessionId}"

/-- What a successful append changes. -/
theorem append_eq_ok {e : Envelope} {now : ℕ} {store' : MessageStore} (h : store.append e now = .ok store') :
    e.seq = store.nextSeq e.sessionId ∧ store'.rows = store.rows ++ [store.newRow e now] ∧
      store'.inserts = store.inserts + 1 := by
  rw [append] at h
  split_ifs at h with hseq
  cases h
  exact ⟨hseq, rfl, rfl⟩

/-- The rows of the sessions afterwards. -/
theorem session_append {store' : MessageStore} {row : Row} (h : store'.rows = store.rows ++ [row])
    (sessionId : List Char) : store'.session sessionId =
      store.session sessionId ++ if row.sessionId = sessionId then [row] else [] := by
  rw [session, h, List.filter_append, session]
  by_cases hrow : row.sessionId = sessionId <;> simp [hrow]

/-- `since`. -/
def since (sessionId : List Char) (n : ℤ) : List Row :=
  ((store.session sessionId).filter fun r => n < r.seq).mergeSort fun a b => a.seq ≤ b.seq

theorem session_pairwise (sessionId : List Char) :
    (store.session sessionId).Pairwise fun a b => a.uid < b.uid ∧ a.seq < b.seq := by
  refine (store.ordered.filter _).imp_of_mem fun ha hb hlt => ⟨hlt.1, hlt.2 ?_⟩
  rw [(store.mem_session.1 ha).2, (store.mem_session.1 hb).2]

/-- The order of the numbers is the order of the inserts. -/
theorem since_eq (sessionId : List Char) (n : ℤ) :
    store.since sessionId n = (store.session sessionId).filter fun r => n < r.seq := by
  rw [since]
  apply List.mergeSort_of_pairwise
  refine ((store.session_pairwise sessionId).filter _).imp fun hlt => ?_
  simpa using hlt.2.le

theorem mem_since {sessionId : List Char} {n : ℤ} {r : Row} :
    r ∈ store.since sessionId n ↔ r ∈ store.session sessionId ∧ n < r.seq := by
  simp [since_eq]

theorem since_pairwise (sessionId : List Char) (n : ℤ) :
    (store.since sessionId n).Pairwise fun a b => a.uid < b.uid ∧ a.seq < b.seq := by
  rw [since_eq]
  exact (store.session_pairwise sessionId).filter _

/-- The newest message of the session is older than the time to live. -/
def expired (now : ℕ) (sessionId : List Char) : Bool :=
  (store.session sessionId).all fun r => (r.createdAt : ℤ) < (now : ℤ) - ttlMs

/-- `sweepExpired`: the store afterwards. -/
def sweepExpired (now : ℕ) : MessageStore where
  rows := store.rows.filter fun r => !store.expired now r.sessionId
  inserts := store.inserts
  ordered := store.ordered.filter _
  fresh r hr := store.fresh r (List.mem_filter.1 hr).1

/-- The rows of a session are all deleted, or all kept. -/
theorem session_sweepExpired (now : ℕ) (sessionId : List Char) :
    (store.sweepExpired now).session sessionId = if store.expired now sessionId then [] else store.session sessionId := by
  rw [session, sweepExpired, List.filter_filter]
  split_ifs with hexpired
  · rw [List.filter_eq_nil_iff]
    intro r _ hr
    simp only [Bool.and_eq_true, decide_eq_true_eq, Bool.not_eq_true'] at hr
    rw [hr.1, hexpired] at hr
    exact absurd hr.2 (by simp)
  · refine List.filter_congr fun r _ => ?_
    by_cases hr : r.sessionId = sessionId
    · simp [hr, hexpired]
    · simp [hr]

end MessageStore

end Kakure.Coordinator
