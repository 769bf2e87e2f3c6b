import InvertibleGrammar.Failure

/-!
# Events

Reading and writing report each attempt they abandon. The report of an attempt
follows everything reported during it, and is kept when the attempt is undone.
-/

namespace InvertibleGrammar

/-- The cause that ended a repetition before its upper bound. -/
inductive Stop where
  /-- No separator could be read. -/
  | separator (failure : Failure)
  /-- No element could be read. -/
  | element (failure : Failure)
  /-- The iteration used none of the input. -/
  | noProgress

/-- How much an event matters to someone who follows a run. -/
inductive Level where
  | debug
  | trace

/-- The name under which a level is shown. -/
def Level.name : Level → String
  | debug => "DEBUG"
  | trace => "TRACE"

/-- Something worth telling about a run. -/
inductive Event where
  /-- A whole input could not be decoded. -/
  | decodeFailed (failure : Failure) (offset : Option Nat)
  /-- A whole value could not be encoded. -/
  | encodeFailed (failure : Failure)
  /-- The alternative declared at `index` could not be read. -/
  | alternativeNotRead (index : Nat) (failure : Failure)
  /-- The alternative declared at `index` could not be written. -/
  | alternativeNotWritten (index : Nat) (failure : Failure)
  /-- A repetition ended after `count` values. -/
  | repetitionStopped (count : Nat) (cause : Stop)
  /-- An optional part was taken to be absent. -/
  | optionalAbsent (failure : Failure)

namespace Event

/-- Failures of a whole operation are for debugging, abandoned attempts for tracing. -/
def level : Event → Level
  | decodeFailed .. | encodeFailed .. => .debug
  | alternativeNotRead .. | alternativeNotWritten .. => .trace
  | repetitionStopped .. | optionalAbsent .. => .trace

/-- The sentence shown for an event. -/
def message : Event → String
  | decodeFailed .. => "decode failed"
  | encodeFailed .. => "encode failed"
  | alternativeNotRead .. => "alternative failed to decode"
  | alternativeNotWritten .. => "alternative failed to encode"
  | repetitionStopped _ (.separator _) => "separator stopped repetition"
  | repetitionStopped _ (.element _) => "element stopped repetition"
  | repetitionStopped _ .noProgress => "repetition made no progress"
  | optionalAbsent _ => "optional grammar absent"

/-- A position that may be missing, as it is shown in an event. -/
def showOffset : Option Nat → String
  | some offset => "Some(" ++ toString offset ++ ")"
  | none => "None"

/-- The named details shown with an event. -/
def fields : Event → List (String × String)
  | decodeFailed failure offset => [("offset", showOffset offset), ("err", failure.message)]
  | encodeFailed failure => [("err", failure.message)]
  | alternativeNotRead index failure =>
      [("alternative", toString index), ("err", failure.message)]
  | alternativeNotWritten index failure =>
      [("alternative", toString index), ("err", failure.message)]
  | repetitionStopped count (.separator failure) =>
      [("count", toString count), ("err", failure.message)]
  | repetitionStopped count (.element failure) =>
      [("count", toString count), ("err", failure.message)]
  | repetitionStopped count .noProgress => [("count", toString count)]
  | optionalAbsent failure => [("err", failure.message)]

end Event

end InvertibleGrammar
