/-!
# Release

What the components report of themselves.
-/
namespace QubitPulse.Release

/-- Name under which the vocabulary of gates, circuits and parameters is released. -/
def coreName : String := "qproc_core"

/-- Versions of the vocabulary, of the pulses and of the devices. -/
def versions : List String := ["0.1.0", "0.1.0", "0.1.0"]

end QubitPulse.Release
