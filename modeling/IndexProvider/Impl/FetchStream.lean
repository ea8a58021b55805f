import IndexProvider.Library.Polling
import IndexProvider.Impl.Basic

/-!
This module contains the state machine of `RecordFetchStream`, over any input stream and any record
fetcher.
-/

namespace IndexProvider

open Polling

/--
The code a `RecordFetchStream` polls: its input stream with states `σ`, and a record fetcher with
states `F` whose futures have states `φ`. Polling the input yields `none` at its end.
-/
structure FetchEnv (V R σ φ F : Type) where
  pollInput : σ → Poll (Option (Result (Batch V))) × σ
  fetch : F → Batch V → φ × F
  pollFetch : φ → Poll (Result (List R)) × φ

structure FetchFuture (σ φ F : Type) where
  fut : φ
  input : σ
  fetcher : F

inductive FetchState (σ φ F : Type) where
  | readingInput (input : σ) (fetcher : F)
  | fetching (fut : FetchFuture σ φ F)
  | error

/--
What the stream does to the code it polls. `pending` is set where the polled code was pending.
-/
inductive FetchAction (V : Type) where
  | pollInput (pending : Bool)
  | fetch (batch : Batch V)
  | pollFetch (pending : Bool)
  deriving DecidableEq

variable {V R σ φ F : Type}

def FetchFuture.poll (env : FetchEnv V R σ φ F) (future : FetchFuture σ φ F) :
    Poll (Result (σ × F × List R)) × FetchFuture σ φ F :=
  match env.pollFetch future.fut with
  | (.ready (.ok batch), fut) =>
    (.ready (.ok (future.input, future.fetcher, batch)), { future with fut })
  | (.ready (.error e), fut) => (.ready (.error e), { future with fut })
  | (.pending, fut) => (.pending, { future with fut })

namespace RecordFetchStream

def new (input : σ) (fetcher : F) : FetchState σ φ F := .readingInput input fetcher

/--
One turn of the loop in `RecordFetchStream::poll_next`. A turn that does not put a state back leaves
the placeholder `error` behind.
-/
def pollNextTurn (env : FetchEnv V R σ φ F) :
    FetchState σ φ F →
      List (FetchAction V) × Turn (FetchState σ φ F) (Poll (Option (Result (List R))))
  | .readingInput input fetcher =>
    match env.pollInput input with
    | (.ready (some (.ok batch)), input) =>
      if batch.length > 0 then
        -- The async block is polled in the next turn, before anything else happens.
        let (fut, fetcher) := env.fetch fetcher batch
        ([.pollInput false, .fetch batch], .again (.fetching ⟨fut, input, fetcher⟩))
      else
        ([.pollInput false], .again (.readingInput input fetcher))
    | (.ready (some (.error e)), _) => ([.pollInput false], .done (.ready (some (.error e))) .error)
    | (.ready none, _) => ([.pollInput false], .done (.ready none) .error)
    | (.pending, input) => ([.pollInput true], .done .pending (.readingInput input fetcher))
  | .fetching future =>
    match future.poll env with
    | (.ready (.ok (input, fetcher, batch)), _) =>
      if batch.length > 0 then
        ([.pollFetch false], .done (.ready (some (.ok batch))) (.readingInput input fetcher))
      else
        ([.pollFetch false], .again (.readingInput input fetcher))
    | (.ready (.error e), _) => ([.pollFetch false], .done (.ready (some (.error e))) .error)
    | (.pending, future) => ([.pollFetch true], .done .pending (.fetching future))
  | .error => ([], .done (.ready none) .error)

abbrev PollNext (env : FetchEnv V R σ φ F) :=
  Returns (pollNextTurn env)

abbrev PollAll (env : FetchEnv V R σ φ F) :=
  Polls (pollNextTurn env)

end RecordFetchStream

/-!
Scripted environments: the input is a finite list of poll results, and every fetch is pending a
number of times before its result is there.
-/

abbrev InputScript (V : Type) := List (Poll (Result (Batch V)))

structure FetchScript (R : Type) where
  pends : Nat
  result : Result (List R)

/--
The scripted environment. `fetches k batch` is the script of the `k`-th call of the fetcher.
-/
def scriptEnv (fetches : Nat → Batch V → FetchScript R) :
    FetchEnv V R (InputScript V) (FetchScript R) Nat where
  pollInput
    | [] => (.ready none, [])
    | .ready item :: input => (.ready (some item), input)
    | .pending :: input => (.pending, input)
  fetch k batch := (fetches k batch, k + 1)
  pollFetch script :=
    match script.pends with
    | 0 => (.ready script.result, script)
    | pends + 1 => (.pending, { script with pends })

def InputScript.items (input : InputScript V) : List (Result (Batch V)) :=
  input.filterMap fun
    | .ready item => some item
    | .pending => none

end IndexProvider
