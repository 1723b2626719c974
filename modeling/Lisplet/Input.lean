import Lisplet.Text.Utf8
/-!
# Lines of input

A program reads its input line by line. The lines come from a fixed list, or from bytes that arrive in
chunks of any size and are decoded as they come. A line ends at a line feed and loses one carriage return
before it; what follows the last line feed is handed out as it is, and then there is nothing more. A read
that fails loses nothing of what has arrived.
-/
namespace Lisplet

/-- What a single read of bytes brings. No bytes at all mean the end. -/
inductive Read where
  | chunk (bytes : List UInt8)
  | failed (message : String)
deriving DecidableEq, Repr

/-- What asking for a line brings. -/
inductive LineAnswer where
  | line (text : String)
  | ended
  | failed (message : String)
  /-- No answer is known yet. -/
  | awaiting
deriving DecidableEq, Repr

/-- Bytes on their way. What has arrived is decoded at once: the text that was not handed out yet, and a character some bytes
of which are still missing. Then whether the end was seen, and the reads to come. With `live` set, reads beyond those are not
known yet; otherwise they are the end. -/
structure ByteReader where
  pending : List Char
  unfinished : Option Text.Unfinished
  ended : Bool
  reads : List Read
  live : Bool
deriving DecidableEq, Repr

namespace ByteReader

/-- Nothing has arrived. -/
def ofReads (reads : List Read) (live : Bool) : ByteReader := ⟨[], none, false, reads, live⟩

/-- A line without one carriage return at its end. -/
def withoutReturn (line : List Char) : List Char := if line.getLast? = some '\r' then line.dropLast else line

/-- What is handed out of a text, a whole line if there is one and otherwise all of it, and what is left. -/
def handOut (text : List Char) : LineAnswer × List Char :=
  let front := text.takeWhile (· != '\n')
  match text.dropWhile (· != '\n') with
  | _ :: rest => (.line (String.ofList (withoutReturn front)), rest)
  | [] => if front.isEmpty then (.ended, []) else (.line (String.ofList front), [])

/-- Hands out what has arrived. -/
def take (r : ByteReader) : LineAnswer × ByteReader :=
  let (answer, rest) := handOut r.pending
  (answer, { r with pending := rest })

/-- Reads until a line feed or the end has arrived, then hands out what there is. -/
def refill (pending : List Char) (u : Option Text.Unfinished) (live : Bool) : List Read → LineAnswer × ByteReader
  | [] =>
    if live then (.awaiting, ⟨pending, u, false, [], live⟩)
    else take ⟨pending ++ Text.decodeEnd u, none, true, [], live⟩
  | .failed message :: reads => (.failed message, ⟨pending, u, false, reads, live⟩)
  | .chunk bytes :: reads =>
    if bytes.isEmpty then take ⟨pending ++ Text.decodeEnd u, none, true, reads, live⟩
    else
      let (text, u') := Text.decodeBytes u bytes
      if text.contains '\n' then take ⟨pending ++ text, u', false, reads, live⟩
      else refill (pending ++ text) u' live reads

/-- Reads one line. -/
def readLine (r : ByteReader) : LineAnswer × ByteReader :=
  if r.ended || r.pending.contains '\n' then take r else refill r.pending r.unfinished r.live r.reads

end ByteReader

/-- Where lines come from. -/
inductive Input where
  | lines (rest : List String)
  | broken (message : String)
  | bytes (r : ByteReader)
deriving DecidableEq, Repr

namespace Input

/-- The input with more reads to come. -/
def supply (reads : List Read) : Input → Input
  | bytes r => bytes { r with reads := r.reads ++ reads }
  | other => other

/-- Reads one line. -/
def readLine : Input → LineAnswer × Input
  | lines [] => (.ended, lines [])
  | lines (l :: rest) => (.line l, lines rest)
  | broken message => (.failed message, broken message)
  | bytes r =>
    let (answer, r') := r.readLine
    (answer, bytes r')

end Input

end Lisplet
