import RalphDb.Protocol.Encode
import RalphDb.Storage.Storage

/-!
# RalphDb.Command.Command

Commands, connections and results: what a frame asks for, what a connection
remembers between two commands and what a command answers.
-/

namespace RalphDb

open Base

variable {F : Type}

/-! ## Commands -/

/-- A command: its name in upper case and its arguments. -/
structure Command where
  name : String
  args : List (List UInt8)
  deriving DecidableEq, Repr

/-- The bytes of an argument; most scalars are arguments only under RESP3. -/
def toArgBytes [F64 F] (frame : Frame F) (protocol : ProtocolVersion) :
    Except String (List UInt8) :=
  match frame, protocol with
  | .bulkString (some bytes), _ => .ok bytes
  | .bulkString none, _ => .error "ERR null bulk string not allowed"
  | .simpleString s, _ => .ok (utf8 s)
  | .integer i, _ => .ok (utf8 (toString i.toInt))
  | .boolean value, .resp3 => .ok (utf8 (if value then "true" else "false"))
  | .double value, .resp3 => .ok (utf8 (F64.toStr value))
  | .bigNumber value, .resp3 => .ok (utf8 value)
  | .verbatimString _ payload, .resp3 => .ok payload
  | _, _ => .error "ERR unsupported argument type"

/-- The arguments in order; the first that is none is the error. -/
def toArgs [F64 F] (protocol : ProtocolVersion) : List (Frame F) → Except String (List (List UInt8))
  | [] => .ok []
  | frame :: frames =>
      match toArgBytes frame protocol with
      | .error message => .error message
      | .ok arg =>
          match toArgs protocol frames with
          | .error message => .error message
          | .ok args => .ok (arg :: args)

/-- The name of a command. -/
def commandName (frame : Frame F) : Except String String :=
  match frame with
  | .simpleString s => .ok s
  | .bulkString (some bytes) =>
      match fromUtf8 bytes with
      | some name => .ok name
      | none => .error "ERR invalid command name encoding"
  | _ => .error "ERR invalid command name"

/-- `Command::from_frame_with_protocol`. -/
def Command.fromFrameWithProtocol [F64 F] (value : Frame F) (protocol : ProtocolVersion) :
    Except String Command :=
  match value with
  | .array (some []) => .error "ERR missing command"
  | .array (some (command :: rest)) =>
      match commandName command with
      | .error message => .error message
      | .ok name =>
          match toArgs protocol rest with
          | .error message => .error message
          | .ok args => .ok ⟨toAsciiUppercase name, args⟩
  | _ => .error "ERR command must be an array"

/-! ## Connections -/

structure ConnectionState where
  protocol : ProtocolVersion
  clientName : Option (List UInt8)
  clientId : Int64
  deriving DecidableEq

/-- `ConnectionState::default`, with the number drawn from the client id
counter. -/
def ConnectionState.fresh (clientId : Int64) : ConnectionState := ⟨.resp2, none, clientId⟩

/-! ## Results -/

structure CommandResult (F : Type) where
  response : Frame F
  attributes : Option (List (Frame F × Frame F))
  close : Bool

def CommandResult.ok (response : Frame F) : CommandResult F := ⟨response, none, false⟩

def CommandResult.withAttributes (response : Frame F) (attributes : List (Frame F × Frame F)) :
    CommandResult F := ⟨response, some attributes, false⟩

def CommandResult.error (message : String) : CommandResult F := ⟨.error message, none, false⟩

/-! ## Environment -/

/-- What the process reads from its environment: the variables `RALPHDB_HOST`,
`RALPHDB_PORT` and `RALPHDB_THREADS`, where they are set to valid UTF-8, and
the available parallelism. -/
structure Environment where
  host : Option String
  port : Option String
  threads : Option String
  availableParallelism : Option Nat

/-- `CARGO_PKG_NAME` and `CARGO_PKG_VERSION`. -/
def packageName : String := "ralphdb"
def packageVersion : String := "0.1.0"

end RalphDb
