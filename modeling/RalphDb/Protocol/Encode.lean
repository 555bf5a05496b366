import RalphDb.Protocol.Frame

/-!
# RalphDb.Protocol.Encode

The frame encoder.

A write appends to the bytes written so far, and an encoder that fails half
way has already written the half: `encodeFrame` is a computation over the
output, as the source's is over its writer.  Nulls, booleans and doubles have
a RESP2 spelling of their own; the other RESP3 types are refused under RESP2.
-/

namespace RalphDb

open Base
open Base.Fallible

variable {F : Type}

/-- Computations over the bytes written so far. -/
abbrev Write : Type := Fallible (List UInt8) IoError Unit

/-- `write!` of a formatted text. -/
def writeText (text : String) : Write := writeAll (utf8 text)

/-- The refusal of a frame that has no RESP2 spelling. -/
def requiresResp3 (kind : String) : IoError := ⟨.invalidInput, kind ++ " frames require RESP3"⟩

/-- A line: the type byte, a text, CRLF. -/
def writeLine (tag text : String) : Write := writeText (tag ++ text ++ "\r\n")

/-- A bulk string: its length line, the bytes, CRLF. -/
def writeBulk (value : List UInt8) : Write := do
  writeLine "$" (toString value.length)
  writeAll value
  writeAll [cr, lf]

/-- A verbatim string; its format tag must be three bytes. -/
def writeVerbatim (format : String) (payload : List UInt8) : Write :=
  let formatBytes := utf8 format
  if formatBytes.length ≠ 3 then
    fail ⟨.invalidInput, "verbatim format tag must be exactly 3 bytes"⟩
  else do
    writeLine "=" (toString (formatBytes.length + 1 + payload.length))
    writeAll formatBytes
    writeText ":"
    writeAll payload
    writeAll [cr, lf]

mutual
def encodeFrame [F64 F] : Frame F → ProtocolVersion → Write
  | .simpleString value, _ => writeLine "+" value
  | .error value, _ => writeLine "-" value
  | .integer value, _ => writeLine ":" (toString value.toInt)
  | .bulkString (some value), _ => writeBulk value
  | .bulkString none, _ => writeText "$-1\r\n"
  | .null, .resp3 => writeText "_\r\n"
  | .null, _ => writeText "$-1\r\n"
  | .boolean value, .resp3 => writeLine "#" (if value then "t" else "f")
  | .boolean value, _ => writeLine ":" (if value then "1" else "0")
  | .double value, .resp3 => writeLine "," (F64.toStr value)
  | .double value, _ => writeBulk (utf8 (F64.toStr value))
  | .array (some elements), version => do
      writeLine "*" (toString elements.length)
      encodeFrames elements version
  | .array none, _ => writeText "*-1\r\n"
  | .map (some entries), .resp3 => do
      writeLine "%" (toString entries.length)
      encodeEntries entries .resp3
  | .map none, .resp3 => writeText "%-1\r\n"
  | .map _, _ => fail (requiresResp3 "map")
  | .set (some elements), .resp3 => do
      writeLine "~" (toString elements.length)
      encodeFrames elements .resp3
  | .set none, .resp3 => writeText "~-1\r\n"
  | .set _, _ => fail (requiresResp3 "set")
  | .push elements, .resp3 => do
      writeLine ">" (toString elements.length)
      encodeFrames elements .resp3
  | .push _, _ => fail (requiresResp3 "push")
  | .attr attributes, .resp3 => do
      writeLine "|" (toString attributes.length)
      encodeEntries attributes .resp3
  | .attr _, _ => fail (requiresResp3 "attribute")
  | .verbatimString format payload, .resp3 => writeVerbatim format payload
  | .verbatimString _ _, _ => fail (requiresResp3 "verbatim")
  | .bigNumber value, .resp3 => writeLine "(" value
  | .bigNumber _, _ => fail (requiresResp3 "bignum")

/-- The elements of an array, a set or a push, in order. -/
def encodeFrames [F64 F] : List (Frame F) → ProtocolVersion → Write
  | [], _ => pure ()
  | item :: items, version => do
      encodeFrame item version
      encodeFrames items version

/-- The entries of a map or an attribute, each key before its value. -/
def encodeEntries [F64 F] : List (Frame F × Frame F) → ProtocolVersion → Write
  | [], _ => pure ()
  | (key, value) :: entries, version => do
      encodeFrame key version
      encodeFrame value version
      encodeEntries entries version
end

/-- A reply: its attributes first, which only RESP3 has. -/
def encodeResponse [F64 F] (frame : Frame F) (attributes : Option (List (Frame F × Frame F)))
    (version : ProtocolVersion) : Write :=
  match version, attributes with
  | .resp3, some attributes => do
      encodeFrame (.attr attributes) version
      encodeFrame frame version
  | _, _ => encodeFrame frame version

end RalphDb
