/-!
# The output of a program

A program hands what it prints to a writer, one text after another. The writer says of each text
whether it has taken all of it. Nothing else is known of a writer: it may keep a part of a text, and
may take texts again after it has refused one.

A sink is a writer that keeps the bytes that were written to it, and may have room for a limited
number of them.
-/

namespace Rpal

/-- Something that takes the output of a program. -/
class OutputWriter (ω : Type) where
  /-- Writes `text`, and says whether all of it was taken. -/
  write : ω → String → Bool × ω

/-- The bytes written so far, and the number of bytes that still fit, if that is limited. -/
structure Sink where
  written : ByteArray
  room : Option Nat
deriving Inhabited

namespace Sink

/-- A sink with nothing written to it. -/
def withRoom (room : Option Nat) : Sink :=
  { written := .empty, room }

/-- Writes the encoding of `text` as far as it fits, and says whether all of it did. -/
def write (s : Sink) (text : String) : Bool × Sink :=
  let bytes := text.toUTF8
  match s.room with
  | none => (true, { s with written := s.written ++ bytes })
  | some room =>
    let kept := bytes.extract 0 room
    (bytes.size ≤ room, { written := s.written ++ kept, room := some (room - kept.size) })

instance : OutputWriter Sink :=
  ⟨write⟩

/-- What a machine writes to a sink is what `Sink.write` does. -/
theorem outputWriter_write (s : Sink) (text : String) : OutputWriter.write s text = s.write text :=
  rfl

end Sink

end Rpal
