/-!
# Output sinks

A sink keeps what is written to it and counts its flushes. It may have room for
a limited number of characters and allow a limited number of flushes; past
either limit the operation fails with the fault the sink was made with. All
text written by programs is ASCII, so a character is a byte.

A write that does not fit keeps the part that does.
-/

namespace Abacus

inductive Fault.Reason where
  | brokenPipe
  | permissionDenied
  | timedOut
  | writeZero
  | other
  deriving DecidableEq, Repr

structure Fault where
  reason : Fault.Reason
  message : String
  deriving DecidableEq, Repr

/-- The fault of a full sink that takes nothing more but does not say why. -/
def Fault.nothingTaken : Fault := ⟨.writeZero, "failed to write whole buffer"⟩

structure Sink where
  written : String
  flushes : Nat
  /-- Characters that still fit; `none` when any number does. -/
  room : Option Nat
  /-- Flushes that will still succeed; `none` when all will. -/
  flushesLeft : Option Nat
  writeFault : Fault
  flushFault : Fault
  deriving DecidableEq, Repr

namespace Sink

/-- An empty sink with the given limits, the same fault behind both. -/
def limited (room flushesLeft : Option Nat) (fault : Fault) : Sink :=
  ⟨"", 0, room, flushesLeft, fault, fault⟩

def unlimited : Sink := limited none none ⟨.brokenPipe, "sink closed"⟩

def put (sink : Sink) (text : List Char) : Except Fault Unit × Sink :=
  match sink.room with
  | none => (.ok (), { sink with written := sink.written ++ String.ofList text })
  | some room =>
    let kept := { sink with
      written := sink.written ++ String.ofList (text.take room)
      room := some (room - text.length) }
    if text.length ≤ room then (.ok (), kept) else (.error sink.writeFault, kept)

def flush (sink : Sink) : Except Fault Unit × Sink :=
  match sink.flushesLeft with
  | none => (.ok (), { sink with flushes := sink.flushes + 1 })
  | some 0 => (.error sink.flushFault, sink)
  | some (left + 1) =>
    (.ok (), { sink with flushes := sink.flushes + 1, flushesLeft := some left })

/-- Writes a line, then flushes if all of it was written. -/
def putLine (sink : Sink) (line : List Char) : Except Fault Unit × Sink :=
  match sink.put (line ++ ['\n']) with
  | (.ok (), sink) => sink.flush
  | (.error fault, sink) => (.error fault, sink)

end Sink

end Abacus
