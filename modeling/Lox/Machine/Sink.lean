/-!
# Where output goes

A sink takes texts. It may be one that fails: from some write on, or from some flush
on. A write that fails leaves nothing behind, and every attempt counts.
-/

namespace Lox

structure Sink where
  /-- What has been written. -/
  written : String
  /-- Attempts to write and to flush so far. -/
  writes : Nat
  flushes : Nat
  /-- How many writes succeed; all do if there is no limit. -/
  writeLimit : Option Nat
  /-- How many flushes succeed; all do if there is no limit. -/
  flushLimit : Option Nat
  /-- What a failing write is reported as, and a failing flush. -/
  writeError : String
  flushError : String
  deriving DecidableEq, Repr

namespace Sink

/-- A sink that takes everything, so that neither of its messages is ever needed. -/
def unlimited : Sink := ⟨"", 0, 0, none, none, "sink write failed", "sink flush failed"⟩

/-- Whether one more attempt stays within a limit. -/
def within (limit : Option Nat) (attempts : Nat) : Bool :=
  limit.all (attempts < ·)

def flush (s : Sink) : Except String Unit × Sink :=
  let result := if within s.flushLimit s.flushes then .ok () else .error s.flushError
  (result, { s with flushes := s.flushes + 1 })

/-- Writes a text and flushes. Nothing is written for an empty text. -/
def print (s : Sink) (text : String) : Except String Unit × Sink :=
  if text.isEmpty then s.flush
  else if within s.writeLimit s.writes then
    { s with written := s.written ++ text, writes := s.writes + 1 }.flush
  else (.error s.writeError, { s with writes := s.writes + 1 })

/-- The same sink with nothing written yet. -/
def drained (s : Sink) : Sink := { s with written := "" }

end Sink

end Lox
