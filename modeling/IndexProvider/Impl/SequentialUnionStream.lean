import IndexProvider.Impl.FetchStream

/-!
This module contains the execution of `SequentialUnionExec`: the streams it opens and the state
machine of `SequentialUnionStream`, over any streams.
-/

namespace IndexProvider

open Polling

variable {V σ : Type}

-- What polling a partition stream yields: nothing yet, the next item or its end.
abbrev StreamPoll (V : Type) := Poll (Option (Result (Batch V)))

/--
An input plan as `execute` sees it: how many partitions it has, and the stream of each.
-/
structure PartitionedInput (σ : Type) where
  partitionCount : Nat
  execute : Nat → Result σ

structure SequentialUnionStream (σ : Type) where
  streams : List σ
  currentIndex : Nat

/--
`SequentialUnionExec::execute`, which creates all streams upfront.
-/
def SequentialUnionExec.executeStreams (inputs : List (PartitionedInput σ)) (partition : Nat) :
    Result (SequentialUnionStream σ) :=
  if partition ≠ 0 then
    .error <| .internal s!"SequentialUnionExec only supports partition 0, got {partition}"
  else do
    let streams ← inputs.mapM fun input => (List.range input.partitionCount).mapM input.execute
    return { streams := streams.flatten, currentIndex := 0 }

namespace SequentialUnionStream

-- What polling the current stream leaves in its place.
def put (s : SequentialUnionStream σ) (stream : σ) : SequentialUnionStream σ :=
  { s with streams := s.streams.set s.currentIndex stream }

/--
One turn of the loop in `SequentialUnionStream::poll_next`. An action is a poll of the stream with an
index, with what that poll returned.
-/
def pollNextTurn (poll : σ → StreamPoll V × σ) (s : SequentialUnionStream σ) :
    List (Nat × StreamPoll V) × Turn (SequentialUnionStream σ) (StreamPoll V) :=
  match s.streams[s.currentIndex]? with
  | none => ([], .done (.ready none) s)
  | some stream =>
    match poll stream with
    | (.ready (some batch), stream) =>
      ([(s.currentIndex, .ready (some batch))], .done (.ready (some batch)) (s.put stream))
    | (.ready none, stream) =>
      ([(s.currentIndex, .ready none)],
        .again { s.put stream with currentIndex := s.currentIndex + 1 })
    | (.pending, stream) => ([(s.currentIndex, .pending)], .done .pending (s.put stream))

abbrev PollNext (poll : σ → StreamPoll V × σ) :=
  Returns (pollNextTurn poll)

abbrev PollAll (poll : σ → StreamPoll V × σ) :=
  Polls (pollNextTurn poll)

end SequentialUnionStream

def InputScript.pollNext : InputScript V → StreamPoll V × InputScript V
  | [] => (.ready none, [])
  | .ready item :: script => (.ready (some item), script)
  | .pending :: script => (.pending, script)

def PartitionedInput.ofStreams (streams : List σ) : PartitionedInput σ where
  partitionCount := streams.length
  execute p :=
    match streams[p]? with
    | some stream => .ok stream
    | none => .error (.internal "no such partition")

end IndexProvider
