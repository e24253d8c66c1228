import Kakure.Coordinator.Store

/-!
# The relay

`packages/coordinator/src/api/server.ts` and `packages/cli/src/coordinatorClient.ts`: clients append
to a session, retrying on a conflict, and poll it with the highest number they have seen.  A request
is sent, handled and answered in three steps; everything else can happen in between.

* `Poller.step`, `Call.step` — the loops of the clients;
* `State.step` — the server, and everybody's next step.
-/

namespace Kakure.Coordinator

/-! ## Requests -/

/-- A GET: under way, in a long poll, or answered. -/
inductive Get
  | sent (since : ℤ)
  | waiting (since : ℤ)
  | answered (batch : List Row)
  deriving DecidableEq

/-- The handler of a GET. -/
def handleGet (store : MessageStore) (sessionId : List Char) (since : ℤ) : Get :=
  let existing := store.since sessionId since
  if existing = [] then .waiting since else .answered existing

/-- The listener of a long poll. -/
def Get.publish (sessionId : List Char) (row : Row) : Get → Get
  | .waiting since => if row.sessionId = sessionId ∧ since < row.seq then .answered [row] else .waiting since
  | get => get

/-! ## Clients that poll -/

/-- A client in the loop of `collectUntil`: the envelopes it has received, in the order it has. -/
structure Poller where
  sessionId : List Char
  since : ℤ
  received : List Row
  get : Option Get
  stopped : Bool
  deriving DecidableEq

inductive PollAct
  | send | handle | timeout | reply | stop

/-- The highest number seen after a batch. -/
def cursorAfter (since : ℤ) (batch : List Row) : ℤ :=
  batch.foldl (fun since e => if since < e.seq then (e.seq : ℤ) else since) since

namespace Poller

/-- What has been sent to the client. -/
def got (p : Poller) : List Row :=
  p.received ++ match p.get with
    | some (.answered batch) => batch
    | _ => []

/-- One step of the loop. -/
def step (store : MessageStore) (p : Poller) : PollAct → Option Poller
  | .send => if p.stopped = false ∧ p.get = none then some { p with get := some (.sent p.since) } else none
  | .handle =>
    match p.get with
    | some (.sent since) => some { p with get := some (handleGet store p.sessionId since) }
    | _ => none
  | .timeout =>
    match p.get with
    | some (.waiting _) => some { p with get := some (.answered []) }
    | _ => none
  | .reply =>
    match p.get with
    | some (.answered batch) =>
      some { p with received := p.received ++ batch, since := cursorAfter p.since batch, get := none }
    | _ => none
  | .stop => if p.get = none then some { p with stopped := true } else none

/-- The listener of its long poll. -/
def publish (row : Row) (p : Poller) : Poller := { p with get := p.get.map (Get.publish p.sessionId row) }

end Poller

theorem Poller.publish_of_get_none (p : Poller) (row : Row) (h : p.get = none) : p.publish row = p := by
  cases p
  simp_all [Poller.publish]

/-! ## Clients that append -/

/-- The answer to a POST. -/
inductive Reply
  | created | conflict | badRequest
  deriving DecidableEq

/-- Where a call of `appendNext` stands. -/
inductive Phase
  | posting
  | replied (reply : Reply)
  | reading (get : Get)
  | returned (envelope : Option Envelope)
  deriving DecidableEq

/-- A call of `appendNext`. -/
structure Call where
  client : ℕ
  sessionId : List Char
  kind : EnvelopeKind
  ciphertext : List Char
  maxAttempts : ℕ
  attempt : ℕ
  nextSeq : ℕ
  phase : Phase

inductive CallAct
  | postReply | readHandle | readTimeout | readReply

namespace Call

/-- The envelope of the attempt. -/
def envelope (call : Call) : Envelope := ⟨call.sessionId, call.nextSeq, call.kind, call.ciphertext⟩

/-- The number to try after a read. -/
def nextAfter (existing : List Row) : ℕ :=
  match (existing.map fun e => e.seq).max? with
  | none => 0
  | some m => m + 1

/-- One step of the loop: the call, and the new guess of the client. -/
def step (store : MessageStore) (call : Call) : CallAct → Option (Call × Option ℕ)
  | .postReply =>
    match call.phase with
    | .replied .created => some ({ call with phase := .returned (some call.envelope) }, some (call.nextSeq + 1))
    | .replied .conflict =>
      if call.attempt + 1 = call.maxAttempts then some ({ call with phase := .returned none }, none)
      else some ({ call with phase := .reading (.sent (-1)) }, none)
    | .replied .badRequest => some ({ call with phase := .returned none }, none)
    | _ => none
  | .readHandle =>
    match call.phase with
    | .reading (.sent since) => some ({ call with phase := .reading (handleGet store call.sessionId since) }, none)
    | _ => none
  | .readTimeout =>
    match call.phase with
    | .reading (.waiting _) => some ({ call with phase := .reading (.answered []) }, none)
    | _ => none
  | .readReply =>
    match call.phase with
    | .reading (.answered existing) =>
      some ({ call with
        attempt := call.attempt + 1
        nextSeq := nextAfter existing
        phase := if call.attempt + 1 < call.maxAttempts then .posting else .returned none },
        some (nextAfter existing))
    | _ => none

/-- The listener of its long poll. -/
def publish (row : Row) (call : Call) : Call :=
  match call.phase with
  | .reading get => { call with phase := .reading (get.publish call.sessionId row) }
  | _ => call

end Call

/-! ## The system -/

/-- The server, the clients, and every insert so far with the call that made it. -/
structure State where
  now : ℕ
  store : MessageStore
  log : List (ℕ × Row)
  nextSeqGuess : ℕ → List Char → Option ℕ
  calls : ℕ → Option Call
  pollers : ℕ → Option Poller

inductive Act
  | advance (ms : ℕ)
  | sweep
  | appendNext (id client : ℕ) (sessionId : List Char) (kind : EnvelopeKind) (ciphertext : List Char) (maxAttempts : ℕ)
  | post (id : ℕ)
  | call (id : ℕ) (act : CallAct)
  | collect (id : ℕ) (sessionId : List Char)
  | poller (id : ℕ) (act : PollAct)

namespace State

/-- Nothing stored, nobody there. -/
def init : State := ⟨0, .empty, [], fun _ _ => none, fun _ => none, fun _ => none⟩

/-- The answer to a POST reaches the call. -/
def answer (σ : State) (id : ℕ) (call : Call) (reply : Reply) : State :=
  { σ with calls := Function.update σ.calls id (some { call with phase := .replied reply }) }

/-- The handler of a POST. -/
def post (σ : State) (id : ℕ) (call : Call) : State :=
  if !call.envelope.parses then σ.answer id call .badRequest
  else
    match σ.store.append call.envelope σ.now with
    | .error _ => σ.answer id call .conflict
    | .ok store =>
      let row := σ.store.newRow call.envelope σ.now
      let published := { σ with
        store := store
        log := σ.log ++ [(id, row)]
        calls := fun i => (σ.calls i).map (Call.publish row)
        pollers := fun i => (σ.pollers i).map (Poller.publish row) }
      published.answer id call .created

/-- One step of the system. -/
def step (σ : State) : Act → Option State
  | .advance ms => some { σ with now := σ.now + ms }
  | .sweep => some { σ with store := σ.store.sweepExpired σ.now }
  | .appendNext id client sessionId kind ciphertext maxAttempts =>
    if (σ.calls id).isNone then
      let phase := if 0 < maxAttempts then .posting else .returned none
      let call := ⟨client, sessionId, kind, ciphertext, maxAttempts, 0, (σ.nextSeqGuess client sessionId).getD 0, phase⟩
      some { σ with calls := Function.update σ.calls id (some call) }
    else none
  | .post id =>
    match σ.calls id with
    | none => none
    | some call => if call.phase = .posting then some (σ.post id call) else none
  | .call id act =>
    match σ.calls id with
    | none => none
    | some call =>
      match call.step σ.store act with
      | none => none
      | some (call', guess) =>
        let guesses := match guess with
          | none => σ.nextSeqGuess
          | some n => Function.update σ.nextSeqGuess call.client
            (Function.update (σ.nextSeqGuess call.client) call.sessionId (some n))
        some { σ with calls := Function.update σ.calls id (some call'), nextSeqGuess := guesses }
  | .collect id sessionId =>
    if (σ.pollers id).isNone then
      some { σ with pollers := Function.update σ.pollers id (some ⟨sessionId, -1, [], none, false⟩) }
    else none
  | .poller id act =>
    match σ.pollers id with
    | none => none
    | some p =>
      match p.step σ.store act with
      | none => none
      | some p' => some { σ with pollers := Function.update σ.pollers id (some p') }

end State

end Kakure.Coordinator
