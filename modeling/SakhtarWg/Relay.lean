import Mathlib.Logic.Function.Basic
import SakhtarWg.Streams

/-!
# A relayed session

`runConnectionSession` as four threads: itself, the two copies and the one that watches the
context. A copy holds what it has read until it has written it. What the connections do is left to
the events: how much a read or a write takes and whether it fails, which covers the deadlines.
-/

namespace SakhtarWg.Relaying
open Streams

/-- An error of a connection, and whether it is `context.Canceled`. -/
inductive RelayError
  | shortWrite
  | failed (canceled : Bool)

inductive ReadEnd
  | eof
  | error (err : RelayError)

inductive Outcome
  | completed | canceled | error

structure ConnectionSessionResult where
  clientBytes : ℕ
  backendBytes : ℕ
  duration : ℕ
  outcome : Outcome

def sessionOutcome (cancelled : Bool) : RelayError → Outcome
  | .failed true => .canceled
  | _ => if cancelled then .canceled else .error

/-! ## One direction -/

/-- Where `copyOne` is. -/
inductive CopyState
  | idle
  | reading
  | writing (data : Bytes) (ending : Option ReadEnd)
  | halfClosing
  | reporting (err : Option RelayError)
  | reported (err : Option RelayError)

/-- One direction of the session, from its source to its sink. -/
structure Flow where
  /-- What the session itself is to write before the copy starts. -/
  pre : Bytes
  /-- What the source has still to send before its end. -/
  unread : Bytes
  /-- What the sink has been sent. -/
  received : Bytes
  /-- The sink can shut down its write side. -/
  halfCloser : Bool
  shut : Bool
  count : ℕ
  copier : CopyState

inductive CopyEvent
  | read (n : ℕ) (ending : Option ReadEnd)
  | write (n : ℕ) (err : Option RelayError)
  | next

/-- What a read may return: the next bytes, the end after the last, nothing from a closed
connection. -/
def canRead (closed : Bool) (unread : Bytes) (n : ℕ) : Option ReadEnd → Bool
  | none => !closed && n ≤ 32768 && n ≤ unread.length
  | some .eof => !closed && n ≤ 32768 && n = unread.length
  | some (.error _) => n ≤ 32768 && n ≤ unread.length && (!closed || n = 0)

/-- What a write may return. -/
def canWrite (closed : Bool) (data : Bytes) (n : ℕ) (err : Option RelayError) : Bool :=
  n ≤ data.length && (!closed || (n = 0 && err.isSome))

/-- The loop of `io.Copy` when nothing is left to write. -/
def afterData : Option ReadEnd → CopyState
  | none => .reading
  | some .eof => .halfClosing
  | some (.error e) => .reporting (some e)

/-- The loop of `io.Copy` after a write. -/
def afterWrite (data : Bytes) (ending : Option ReadEnd) (n : ℕ) : Option RelayError → CopyState
  | some e => .reporting (some e)
  | none => if n = data.length then afterData ending else .reporting (some .shortWrite)

def Flow.step (sourceClosed sinkClosed : Bool) (f : Flow) (e : CopyEvent) : Flow :=
  match f.copier, e with
  | .reading, .read n ending =>
    if canRead sourceClosed f.unread n ending then
      { f with
        unread := f.unread.drop n
        copier := if n = 0 then afterData ending else .writing (f.unread.take n) ending }
    else f
  | .writing data ending, .write n err =>
    if canWrite sinkClosed data n err then
      { f with
        received := f.received ++ data.take n
        count := f.count + n
        copier := afterWrite data ending n err }
    else f
  | .halfClosing, .next =>
    { f with shut := f.shut || (f.halfCloser && !sinkClosed), copier := .reporting none }
  | _, _ => f

/-- A write of what comes before the copy. -/
def Flow.writePre (f : Flow) (n : ℕ) : Flow :=
  { f with pre := f.pre.drop n, received := f.received ++ f.pre.take n }

/-! ## The session -/

structure DirectionResult where
  clientToBackend : Bool
  bytes : ℕ
  err : Option RelayError

/-- Where `runConnectionSession` is. -/
inductive MainState
  | writing
  | awaitingFirst
  | failing (first : DirectionResult)
  | awaitingSecond (first : DirectionResult)
  | tallying (first second : DirectionResult)
  | leaving (result : ConnectionSessionResult)
  | closing (result : ConnectionSessionResult)
  | returned (result : ConnectionSessionResult)

/-- How far the function of `closeBoth` has come. -/
inductive OnceState
  | fresh | half | finished
  deriving DecidableEq

inductive WatcherState
  | waiting | closing | finished

structure Relay where
  /-- The direction from the client to the backend, and the other one. -/
  flow : Bool → Flow
  /-- Whether the client's connection is closed, and the backend's. -/
  closed : Bool → Bool
  cancelled : Bool
  /-- The channel `done` is closed. -/
  finished : Bool
  once : OnceState
  watcher : WatcherState
  results : List DirectionResult
  clientBytes : ℕ
  main : MainState

/-- One value for the client and one for the backend. -/
def sides {α : Type} (client backend : α) : Bool → α
  | true => client
  | false => backend

inductive RelayEvent
  | cancel
  /-- The owner of the session closes a connection. -/
  | close (client : Bool)
  | copy (clientToBackend : Bool) (e : CopyEvent)
  /-- The watcher's next step; when both cases of its `select` are ready it takes either. -/
  | watch (preferDone : Bool)
  | wrote (n : ℕ) (err : Option RelayError)
  /-- The session's own next step, so long after its start. -/
  | main (elapsed : ℕ)

/-- One direction is added to the result. -/
def addDirection (cancelled : Bool) (result : ConnectionSessionResult) (copied : DirectionResult) :
    ConnectionSessionResult where
  clientBytes := result.clientBytes + sides copied.bytes 0 copied.clientToBackend
  backendBytes := result.backendBytes + sides 0 copied.bytes copied.clientToBackend
  duration := result.duration
  outcome := copied.err.elim result.outcome (sessionOutcome cancelled)

namespace Relay
variable (r : Relay)

def setFlow (d : Bool) (f : Flow) : Relay := { r with flow := Function.update r.flow d f }

def close (client : Bool) : Relay := { r with closed := Function.update r.closed client true }

/-- One operation of `closeBoth`, by whichever thread is in it. -/
def closeStep : Relay :=
  match r.once with
  | .fresh => { r.close true with once := .half }
  | .half => { r.close false with once := .finished }
  | .finished => r

/-- The two copies are started. -/
def launch : Relay :=
  { r with flow := fun d => { r.flow d with copier := .reading }, main := .awaitingFirst }

/-- A copy's next step; it sends its result when it is done. -/
def copyStep (d : Bool) (e : CopyEvent) : Relay :=
  match (r.flow d).copier, e with
  | .reporting err, .next =>
    { r.setFlow d { r.flow d with copier := .reported err } with
      results := r.results ++ [⟨d, (r.flow d).count, err⟩] }
  | _, _ => r.setFlow d ((r.flow d).step (r.closed d) (r.closed !d) e)

def watchStep (preferDone : Bool) : Relay :=
  match r.watcher with
  | .waiting =>
    if r.finished && (preferDone || !r.cancelled) then { r with watcher := .finished }
    else if r.cancelled then { r with watcher := .closing }
    else r
  | .closing => if r.once = .finished then { r with watcher := .finished } else r.closeStep
  | .finished => r

/-- A write of `writeAll`. -/
def wroteStep (n : ℕ) (err : Option RelayError) : Relay :=
  if (r.flow true).pre ≠ [] ∧ canWrite (r.closed false) (r.flow true).pre n err then
    { r.setFlow true ((r.flow true).writePre n) with
      clientBytes := r.clientBytes + n
      main := match err, n with
        | some e, _ => .leaving ⟨r.clientBytes + n, 0, 0, sessionOutcome r.cancelled e⟩
        | none, 0 => .leaving ⟨r.clientBytes, 0, 0, sessionOutcome r.cancelled .shortWrite⟩
        | none, _ => .writing }
  else r

/-- The result of a session whose two copies are done. -/
def tally (first second : DirectionResult) : ConnectionSessionResult :=
  [first, second].foldl (addDirection r.cancelled) ⟨r.clientBytes, 0, 0, .completed⟩

def mainStep (elapsed : ℕ) : Relay :=
  match r.main, r.results with
  | .writing, _ => if (r.flow true).pre = [] then r.launch else r
  | .awaitingFirst, first :: rest =>
    { r with
      results := rest
      main := if first.err.isSome then .failing first else .awaitingSecond first }
  | .failing first, _ =>
    if r.once = .finished then { r with main := .awaitingSecond first } else r.closeStep
  | .awaitingSecond first, second :: rest =>
    { r with results := rest, main := .tallying first second }
  | .tallying first second, _ => { r with main := .leaving (r.tally first second) }
  | .leaving result, _ =>
    { r with finished := true, main := .closing { result with duration := elapsed } }
  | .closing result, _ =>
    if r.once = .finished then { r with main := .returned result } else r.closeStep
  | _, _ => r

def step : RelayEvent → Relay
  | .cancel => { r with cancelled := true }
  | .close client => r.close client
  | .copy d e => r.copyStep d e
  | .watch preferDone => r.watchStep preferDone
  | .wrote n err =>
    match r.main with
    | .writing => r.wroteStep n err
    | _ => r
  | .main elapsed => r.mainStep elapsed

def run (events : List RelayEvent) : Relay := events.foldl step r

end Relay

/-- A session whose sources have so much to send, after what was read from the client before. -/
def connected (pre : Bytes) (source : Bool → Bytes) (halfCloser : Bool → Bool) : Relay where
  flow d := ⟨sides pre [] d, source d, [], halfCloser d, false, 0, .idle⟩
  closed _ := false
  cancelled := false
  finished := false
  once := .fresh
  watcher := .waiting
  results := []
  clientBytes := 0
  main := .writing

end SakhtarWg.Relaying
