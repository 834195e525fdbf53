import EditOverlay.Error

/-! # Failures of the command

What the command reports when it gives up: a message and, behind it, the chain of causes, the
nearest one first. -/

namespace EditOverlay.Command

/-- A message with its causes. -/
structure Failure where
  message : String
  causes : List String
  deriving DecidableEq, Repr

namespace Failure

/-- A failure without causes. -/
def plain (message : String) : Failure := ⟨message, []⟩

/-- The texts of a refused operation as causes. A fault of the storage has its own text as a cause
of it. -/
def causesOf : EditError → List String
  | .storage reason => [(EditError.storage reason).message, reason]
  | e => [e.message]

/-- A refused operation as a failure. -/
def ofError (e : EditError) : Failure := ⟨e.message, (causesOf e).tail⟩

/-- A refused operation as the cause of a failure. -/
def because (message : String) (e : EditError) : Failure := ⟨message, causesOf e⟩

/-- The lines that list causes. They are numbered if there are several. -/
def causeLines : List String → List String
  | [] => []
  | [cause] => ["", "Caused by:", "    " ++ cause]
  | causes => "" :: "Caused by:" ::
      causes.zipIdx.map fun (cause, i) => s!"    {i}: {cause}"

/-- The text of a failure. -/
def report (f : Failure) : String :=
  String.join ((("Error: " ++ f.message) :: causeLines f.causes).map (· ++ "\n"))

end Failure
end EditOverlay.Command
