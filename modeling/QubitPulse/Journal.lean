/-!
# Journal

Operations note what they do as events. The events of an operation are a function of its input, kept
beside the operation and apart from its result.
-/
namespace QubitPulse

inductive Event.Level where
  | debug
  | info
  deriving DecidableEq, Repr

namespace Event.Level

def name : Event.Level → String
  | debug => "DEBUG"
  | info => "INFO"

end Event.Level

structure Event where
  level : Event.Level
  text : String
  deriving DecidableEq, Repr

namespace Event

def debug (text : String) : Event := ⟨.debug, text⟩

def info (text : String) : Event := ⟨.info, text⟩

end Event
end QubitPulse
