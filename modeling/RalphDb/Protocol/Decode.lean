import RalphDb.Protocol.Frame

/-!
# RalphDb.Protocol.Decode

The frame decoder.

Two styles of framing meet here.  Numbers and one-line texts are *lines*: they
end at the first line feed, and one carriage return before it is dropped.
Payloads are *counted*: a line gives their length, and a strict CRLF follows
them.  A byte that is no frame type starts an inline command, whose line is
split at blanks.

`decode_frame` and the decoders of the aggregates call each other.  The
aggregates here take the frame decoder as an argument, `decodeFrameBody` is
the source's `decode_frame` over such a decoder, and `decodeFrame` is its
fixed point: every call has read the type byte before it recurs, so
`decodeFrame_eq` is the source's recursion.
-/

namespace RalphDb

open Base
open Base.Fallible

variable {F : Type}

/-- Computations over a buffered reader. -/
abbrev Read (α : Type) : Type := Fallible Reader IoError α

/-- An `io::Error` of kind `InvalidData`. -/
def invalidData (message : String) : IoError := ⟨.invalidData, message⟩

/-! ## Lines and lengths -/

/-- The line without its terminator; the bytes of the stream up to its end are
no line. -/
def stripTerminator (buffer : List UInt8) : Except IoError (List UInt8) :=
  if [cr, lf] <:+ buffer then .ok (buffer.take (buffer.length - 2))
  else if [lf] <:+ buffer then .ok (buffer.take (buffer.length - 1))
  else .error (invalidData "missing CRLF in frame")

def readLineBytes : Read (List UInt8) := do
  let buffer ← readUntil lf
  if buffer.length = 0 then fail ⟨.unexpectedEof, "unexpected end of file"⟩
  else ofExcept (stripTerminator buffer)

/-- `String::from_utf8` with the error of the source. -/
def utf8OrInvalid (bytes : List UInt8) (message : String) : Except IoError String :=
  match fromUtf8 bytes with
  | some s => .ok s
  | none => .error (invalidData message)

def readLine : Read String := do
  let bytes ← readLineBytes
  ofExcept (utf8OrInvalid bytes "invalid UTF-8 in frame")

def parseLength (line : String) : Except IoError Int64 :=
  match parseI64 line with
  | some length => .ok length
  | none => .error (invalidData "invalid length value")

def ensureNonNegative (length max : Int64) (kind : String) : Except IoError Nat :=
  if length < 0 then .error (invalidData (kind ++ " must be non-negative"))
  else if length > max then .error (invalidData (kind ++ " exceeds maximum allowed size"))
  else .ok length.toNatClampNeg

def ensureCollectionLength (length : Int64) : Except IoError Nat :=
  ensureNonNegative length maxCollectionSize "collection length"

def ensureBulkLength (length : Int64) : Except IoError Nat :=
  ensureNonNegative length maxBulkSize "bulk length"

/-! ## Scalars -/

/-- A frame that is one line: read it, then make the frame of it. -/
def decodeLine (frameOf : String → Except IoError (Frame F)) : Read (Frame F) := do
  let line ← readLine
  ofExcept (frameOf line)

def integerOfLine (line : String) : Except IoError (Frame F) :=
  match parseI64 line with
  | some value => .ok (.integer value)
  | none => .error (invalidData "invalid integer frame")

def booleanOfLine (line : String) : Except IoError (Frame F) :=
  match line with
  | "t" => .ok (.boolean true)
  | "f" => .ok (.boolean false)
  | _ => .error (invalidData "invalid boolean")

def doubleOfLine [F64 F] (line : String) : Except IoError (Frame F) :=
  match F64.fromStr line with
  | some value => .ok (.double value)
  | none => .error (invalidData "invalid double frame")

def nullOfLine (line : String) : Except IoError (Frame F) :=
  if line = "" then .ok .null else .error (invalidData "invalid null frame")

def bignumOfLine (line : String) : Except IoError (Frame F) :=
  if line = "" then .error (invalidData "empty bignum payload") else .ok (.bigNumber line)

def decodeBignum : Read (Frame F) := decodeLine bignumOfLine

/-! ## Counted payloads -/

/-- The `length` bytes of a payload and the strict CRLF after them. -/
def readPayload (length : Nat) (message : String) : Read (List UInt8) := do
  let buffer ← readExact length
  let crlf ← readExact 2
  if crlf = [cr, lf] then pure buffer else fail (invalidData message)

def decodeBulk : Read (Frame F) := do
  let line ← readLine
  let length ← ofExcept (parseLength line)
  if length = -1 then pure (.bulkString none)
  else if length < -1 then fail (invalidData "invalid bulk length")
  else do
    let length ← ofExcept (ensureBulkLength length)
    let buffer ← readPayload length "missing CRLF after bulk data"
    pure (.bulkString (some buffer))

/-- The format tag and the payload in the body of a verbatim string. -/
def splitVerbatim (buffer : List UInt8) : Except IoError (Frame F) :=
  if buffer[3]? ≠ some 0x3A then .error (invalidData "missing colon after verbatim format")
  else match utf8OrInvalid (buffer.take 3) "invalid verbatim format tag" with
    | .error err => .error err
    | .ok format =>
      if (utf8 format).all (· < 0x80) then .ok (.verbatimString format (buffer.drop 4))
      else .error (invalidData "invalid verbatim format tag")

def decodeVerbatim : Read (Frame F) := do
  let line ← readLine
  let totalLength ← ofExcept (parseLength line)
  if totalLength < 0 then fail (invalidData "verbatim length must be non-negative")
  else do
    let totalLength ← ofExcept (ensureBulkLength totalLength)
    if totalLength < 4 then fail (invalidData "verbatim payload too short")
    else do
      let buffer ← readPayload totalLength "missing CRLF after verbatim payload"
      ofExcept (splitVerbatim buffer)

/-! ## Aggregates -/

/-- An aggregate: a length line, then that many entries.  The length `-1` is
the null of the aggregates that have one. -/
def decodeAggregate {α : Type} (null : Option (Frame F)) (message : String)
    (entry : Read α) (build : List α → Frame F) : Read (Frame F) := do
  let line ← readLine
  let length ← ofExcept (parseLength line)
  if length < 0 then
    match null with
    | some frame => if length = -1 then pure frame else fail (invalidData message)
    | none => fail (invalidData message)
  else do
    let count ← ofExcept (ensureCollectionLength length)
    let items ← times count entry
    pure (build items)

/-- A key, then its value. -/
def decodeEntry (decodeFrame : Read (Frame F)) : Read (Frame F × Frame F) := do
  let key ← decodeFrame
  let value ← decodeFrame
  pure (key, value)

def decodeArray (decodeFrame : Read (Frame F)) : Read (Frame F) :=
  decodeAggregate (some (.array none)) "invalid array length" decodeFrame
    fun items => .array (some items)

def decodeMap (decodeFrame : Read (Frame F)) : Read (Frame F) :=
  decodeAggregate (some (.map none)) "invalid map length" (decodeEntry decodeFrame)
    fun entries => .map (some entries)

def decodeSet (decodeFrame : Read (Frame F)) : Read (Frame F) :=
  decodeAggregate (some (.set none)) "invalid set length" decodeFrame
    fun items => .set (some items)

def decodePush (decodeFrame : Read (Frame F)) : Read (Frame F) :=
  decodeAggregate none "invalid push length" decodeFrame .push

def decodeAttribute (decodeFrame : Read (Frame F)) : Read (Frame F) :=
  decodeAggregate none "invalid attribute length" (decodeEntry decodeFrame) .attr

/-! ## Inline commands -/

/-- A space or a tab. -/
def isBlank (byte : UInt8) : Bool := byte == 0x20 || byte == 0x09

/-- The non-empty runs between blanks. -/
def inlineTokens (line : List UInt8) : List (List UInt8) :=
  (line.splitOnP isBlank).filter fun token => !token.isEmpty

def decodeInlineFrame (firstByte : UInt8) : Read (Frame F) := do
  let remaining ← readLineBytes
  let tokens := inlineTokens (firstByte :: remaining)
  if tokens.isEmpty then fail (invalidData "empty inline command")
  else pure (.array (some (tokens.map fun token => .bulkString (some token))))

/-! ## Frames -/

/-- The frame of a type byte; recursive calls are made to `decodeFrame`. -/
def decodeTagged [F64 F] (decodeFrame : Read (Frame F)) (tag : UInt8) : Read (Frame F) :=
  match tag with
  | 0x2B => decodeLine fun line => .ok (.simpleString line) -- '+'
  | 0x2D => decodeLine fun line => .ok (.error line) -- '-'
  | 0x3A => decodeLine integerOfLine -- ':'
  | 0x24 => decodeBulk -- '$'
  | 0x2A => decodeArray decodeFrame -- '*'
  | 0x23 => decodeLine booleanOfLine -- '#'
  | 0x2C => decodeLine doubleOfLine -- ','
  | 0x5F => decodeLine nullOfLine -- '_'
  | 0x25 => decodeMap decodeFrame -- '%'
  | 0x7E => decodeSet decodeFrame -- '~'
  | 0x3E => decodePush decodeFrame -- '>'
  | 0x7C => decodeAttribute decodeFrame -- '|'
  | 0x3D => decodeVerbatim -- '='
  | 0x28 => decodeBignum -- '('
  | other => decodeInlineFrame other

/-- `decode_frame`, with its recursive calls made to `decodeFrame`. -/
def decodeFrameBody [F64 F] (decodeFrame : Read (Frame F)) : Read (Frame F) := do
  let tag ← readByte
  decodeTagged decodeFrame tag

/-- The error of a decoder with no call depth left.  The depth below is never
exhausted, see `decodeFrame_eq`. -/
def depthExhausted : IoError := ⟨.other, "call depth exhausted"⟩

/-- `decode_frame` on a stack for `depth` nested calls. -/
def decodeFrameWithin [F64 F] (depth : Nat) : Read (Frame F) :=
  unfold decodeFrameBody depthExhausted depth

def decodeFrame [F64 F] : Read (Frame F) := fix Reader.size decodeFrameBody depthExhausted

end RalphDb
