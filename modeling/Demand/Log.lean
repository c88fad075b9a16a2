/-! The log: messages for whoever follows the work, kept from a least level on. -/

namespace Demand

/-- How much a log message matters, from least to most. -/
inductive LogLevel where
  | trace | debug | info | warning | error
deriving DecidableEq, Repr

namespace LogLevel

def rank : LogLevel → Nat
  | trace => 0
  | debug => 1
  | info => 2
  | warning => 3
  | error => 4

def name : LogLevel → String
  | trace => "trace"
  | debug => "debug"
  | info => "info"
  | warning => "warning"
  | error => "error"

instance : LT LogLevel := ⟨fun a b => a.rank < b.rank⟩
instance : LE LogLevel := ⟨fun a b => a.rank ≤ b.rank⟩

instance (a b : LogLevel) : Decidable (a < b) := inferInstanceAs (Decidable (a.rank < b.rank))
instance (a b : LogLevel) : Decidable (a ≤ b) := inferInstanceAs (Decidable (a.rank ≤ b.rank))

end LogLevel

structure LogEntry where
  level : LogLevel
  text : String
deriving DecidableEq, Repr

/-- `[level] text`. -/
def LogEntry.line (e : LogEntry) : String :=
  s!"[{e.level.name}] {e.text}"

/-- The least level that is kept, and what was kept, oldest first. -/
structure Log where
  threshold : LogLevel := .info
  entries : List LogEntry := []
deriving DecidableEq, Repr

namespace Log

/-- Whether a message of this level is kept. -/
def enabled (log : Log) (level : LogLevel) : Bool :=
  log.threshold ≤ level

/-- Keeps the message if its level is enabled. -/
def write (log : Log) (level : LogLevel) (text : String) : Log :=
  if log.enabled level then { log with entries := log.entries ++ [⟨level, text⟩] } else log

end Log

end Demand
