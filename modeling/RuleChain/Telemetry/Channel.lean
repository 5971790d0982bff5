import RuleChain.Telemetry.Notice

/-! # Where trace events go

  A traversal hands its events to a sink: a list without a bound, a channel with a bound and a
  receiver, or the log. A sink never holds a traversal up; a full channel loses the event and
  says so, a closed one loses it silently.
-/

namespace RuleChain

/-- A bounded channel of trace events. -/
structure TraceChannel where
  capacity : Nat
  /-- The events sent and not yet received, the oldest first. -/
  queue : List TraceEvent
  /-- Whether there still is a receiver. -/
  isOpen : Bool
deriving DecidableEq, Repr

namespace TraceChannel

/-- An open channel with room for at least one event. -/
def create (capacity : Nat) : TraceChannel := ⟨max capacity 1, [], true⟩

/-- How many events still fit. -/
def room (channel : TraceChannel) : Nat := channel.capacity - channel.queue.length

/-- Sends events in order. As many as fit are kept, and each of the others is lost with a notice; a
closed channel loses all of them without one. -/
def sendAll (channel : TraceChannel) (events : List TraceEvent) : TraceChannel × List Notice :=
  if channel.isOpen then
    ({ channel with queue := channel.queue ++ events.take channel.room },
      (events.drop channel.room).map fun _ => .traceDropped)
  else (channel, [])

/-- Sends one event. -/
def send (channel : TraceChannel) (event : TraceEvent) : TraceChannel × List Notice :=
  channel.sendAll [event]

/-- Receives the oldest event. -/
def receive (channel : TraceChannel) : Option (TraceEvent × TraceChannel) :=
  match channel.queue with
  | [] => none
  | event :: rest => some (event, { channel with queue := rest })

/-- Drops the receiver and what it had not received. -/
def close (channel : TraceChannel) : TraceChannel := { channel with queue := [], isOpen := false }

end TraceChannel

/-- Where trace events go. -/
inductive TraceSink where
  | collect (events : List TraceEvent)
  | bounded (channel : TraceChannel)
  | log
deriving DecidableEq, Repr

namespace TraceSink

/-- Hands events over in order. -/
def emitAll (sink : TraceSink) (events : List TraceEvent) : TraceSink × List Notice :=
  match sink with
  | .collect earlier => (.collect (earlier ++ events), [])
  | .bounded channel =>
    let (channel, notices) := channel.sendAll events
    (.bounded channel, notices)
  | .log => (.log, events.map .traced)

/-- Takes the events that wait in the sink. -/
def drain : TraceSink → List TraceEvent × TraceSink
  | .collect events => (events, .collect [])
  | .bounded channel => (channel.queue, .bounded { channel with queue := [] })
  | .log => ([], .log)

end TraceSink

end RuleChain
