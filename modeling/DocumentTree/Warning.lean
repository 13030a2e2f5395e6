/-!
# Warnings

A recoverable situation is worth one line, however often it comes up. An
operation that meets one says so in its result (a `Warning`); the log
decides whether the line is printed. Two warnings count as the same when
they read the same once rendered (`Warning.key`).
-/

namespace DocumentTree

/-- A recoverable situation and the component that met it. -/
structure Warning where
  component : String
  message : String
  deriving DecidableEq, Repr, Inhabited

namespace Warning

/-- What the log remembers of a warning. -/
def key (w : Warning) : String := "[" ++ w.component ++ "] " ++ w.message

/-- The line printed for a warning, in yellow. -/
def line (w : Warning) : String :=
  "\x1b[33m[arbor " ++ w.component ++ "] ⚠ " ++ w.message ++ "\x1b[39m\n"

end Warning

/-- The keys of the warnings reported so far. -/
structure WarningLog where
  keys : List String := []
  deriving DecidableEq, Repr, Inhabited

namespace WarningLog

/-- A log in which nothing has been reported. -/
def empty : WarningLog := {}

/-- Whether a warning has been reported, or one that reads the same. -/
def hasReported (log : WarningLog) (w : Warning) : Bool := log.keys.contains w.key

/-- Report a warning: the new log, and the line to print if it is the first
of its key. -/
def report (log : WarningLog) (w : Warning) : WarningLog × Option String :=
  if log.hasReported w then (log, none) else ({ keys := w.key :: log.keys }, some w.line)

/-- Report what an operation met, if it met anything. -/
def report? (log : WarningLog) : Option Warning → WarningLog × Option String
  | none => (log, none)
  | some w => log.report w

end WarningLog

end DocumentTree
