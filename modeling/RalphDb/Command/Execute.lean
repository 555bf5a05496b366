import RalphDb.Command.Command

/-!
# RalphDb.Command.Execute

The command handlers and their dispatch.

A handler of a storage command is a call on the store; the others are functions
of their arguments, the connection and the environment.  `execute` puts them
side by side: a call that answers the result and the connection afterwards.
-/

namespace RalphDb

open Base

variable {F : Type}

/-! ## Connection commands -/

def ping (args : List (List UInt8)) : CommandResult F :=
  match args with
  | [] => .ok (.simpleString "PONG")
  | [message] => .ok (.bulkString (some message))
  | _ => .error "ERR wrong number of arguments for 'ping' command"

def echo (args : List (List UInt8)) : CommandResult F :=
  match args with
  | [message] => .ok (.bulkString (some message))
  | _ => .error "ERR wrong number of arguments for 'echo' command"

/-- The entries of the `HELLO 3` reply. -/
def helloPayload (state : ConnectionState) : List (Frame F × Frame F) :=
  [ (.simpleString "server", .simpleString "ralphdb"),
    (.simpleString "version", .simpleString packageVersion),
    (.simpleString "proto", .integer 3),
    (.simpleString "id", .integer state.clientId),
    (.simpleString "mode", .simpleString "standalone"),
    (.simpleString "role", .simpleString "primary"),
    (.simpleString "modules", .array (some [])) ]

/-- The protocol number asked for; without one it is 2. -/
def helloVersion (args : List (List UInt8)) : Option Nat :=
  match args with
  | [] => some 2
  | version :: _ => (fromUtf8 version).bind parseU8

def hello (args : List (List UInt8)) (state : ConnectionState) :
    CommandResult F × ConnectionState :=
  if args.length > 1 then
    (.error "ERR wrong number of arguments for 'hello' command", state)
  else match helloVersion args with
    | none => (.error "ERR unsupported RESP version", state)
    | some 3 =>
        (.ok (.map (some (helloPayload { state with protocol := .resp3 }))),
          { state with protocol := .resp3 })
    | some 2 => (.ok (.simpleString "OK"), { state with protocol := .resp2 })
    | some _ => (.error "ERR unsupported RESP version", state)

/-- The body of the `INFO` reply. -/
def infoBody : String :=
  "# Server\r\nralphdb_version:" ++ packageVersion ++
    "\r\nralphdb_mode:standalone\r\nralphdb_role:primary\r\nralphdb_id:" ++ packageName ++ "\r\n"

/-- The section `INFO` is asked for. -/
def infoSection (args : List (List UInt8)) : String :=
  match args with
  | [] => "default"
  | bytes :: _ => toAsciiLowercase (fromUtf8Lossy bytes)

def info (args : List (List UInt8)) : CommandResult F :=
  if args.length > 1 then .error "ERR wrong number of arguments for 'info'"
  else match infoSection args with
    | "default" => .ok (.bulkString (some (utf8 infoBody)))
    | "server" => .ok (.bulkString (some (utf8 infoBody)))
    | other => .error ("ERR unsupported INFO section '" ++ other ++ "'")

def clientSetname (args : List (List UInt8)) (state : ConnectionState) :
    CommandResult F × ConnectionState :=
  match args with
  | [name] => (.ok (.simpleString "OK"), { state with clientName := some name })
  | _ => (.error "ERR wrong number of arguments for 'client setname'", state)

/-- The client name as a frame. -/
def nameFrame (state : ConnectionState) : Frame F :=
  match state.clientName with
  | some name => .bulkString (some name)
  | none => .null

def clientGetname (state : ConnectionState) : CommandResult F := .ok (nameFrame state)

def clientId (args : List (List UInt8)) (state : ConnectionState) : CommandResult F :=
  match args with
  | [] => .ok (.integer state.clientId)
  | _ => .error "ERR wrong number of arguments for 'client id'"

def ProtocolVersion.text : ProtocolVersion → String
  | .resp3 => "RESP3"
  | .resp2 => "RESP2"

def clientListSummary (state : ConnectionState) : String :=
  "id=" ++ toString state.clientId.toInt ++
    (match state.clientName with
    | some name => " name=" ++ fromUtf8Lossy name
    | none => " name=(null)") ++
    " protocol=" ++ state.protocol.text

/-- The attributes of the `CLIENT LIST` reply under RESP3. -/
def clientListAttributes (state : ConnectionState) : List (Frame F × Frame F) :=
  [ (.simpleString "client",
      .push [.map (some
        [ (.simpleString "id", .integer state.clientId),
          (.simpleString "name", nameFrame state),
          (.simpleString "protocol", .simpleString "RESP3") ])]) ]

def clientList (args : List (List UInt8)) (state : ConnectionState) : CommandResult F :=
  match args with
  | [] =>
      if state.protocol = .resp3 then
        .withAttributes (.simpleString (clientListSummary state)) (clientListAttributes state)
      else .ok (.simpleString (clientListSummary state))
  | _ => .error "ERR wrong number of arguments for 'client list'"

def client (args : List (List UInt8)) (state : ConnectionState) :
    CommandResult F × ConnectionState :=
  match args with
  | [] => (.error "ERR wrong number of arguments for 'client' command", state)
  | subcommand :: rest =>
      match toAsciiUppercase (fromUtf8Lossy subcommand) with
      | "SETNAME" => clientSetname rest state
      | "GETNAME" =>
          if rest = [] then (clientGetname state, state)
          else (.error "ERR wrong number of arguments for 'client getname'", state)
      | "LIST" => (clientList rest state, state)
      | "ID" => (clientId rest state, state)
      | _ => (.error "ERR unknown CLIENT subcommand", state)

/-! ## Configuration -/

def parseThreadsEnvValue (value : String) : Option Nat :=
  (parseUsize (trim value)).filter (· > 0)

def parseHostEnvValue (value : String) : Option String :=
  if trim value = "" then none else some (trim value)

def parsePortEnvValue (value : String) : Option String :=
  (parseU16 (trim value)).map toString

def defaultThreads (env : Environment) : Nat :=
  match env.threads.bind parseThreadsEnvValue with
  | some threads => threads
  | none => env.availableParallelism.getD 1

def configEntries (env : Environment) : List (String × String) :=
  [ ("server.name", "ralphdb"),
    ("server.version", packageVersion),
    ("server.bind", (env.host.bind parseHostEnvValue).getD "127.0.0.1"),
    ("server.port", (env.port.bind parsePortEnvValue).getD "6379"),
    ("server.threads", toString (defaultThreads env)),
    ("save", "900 1 300 10 60 10000"),
    ("appendonly", "no") ]

/-- The variables of the loop in `matches_pattern`. -/
structure MatchState where
  patternIndex : Nat
  keyIndex : Nat
  starIndex : Option Nat
  starMatchIndex : Nat

/-- One round of the loop: `none` is `return false`. -/
def matchStep (pattern key : List UInt8) (s : MatchState) : Option MatchState :=
  if s.patternIndex < pattern.length ∧ pattern[s.patternIndex]? = key[s.keyIndex]? then
    some { s with patternIndex := s.patternIndex + 1, keyIndex := s.keyIndex + 1 }
  else if s.patternIndex < pattern.length ∧ pattern[s.patternIndex]? = some 0x2A then
    some { s with
      starIndex := some s.patternIndex
      patternIndex := s.patternIndex + 1
      starMatchIndex := s.keyIndex }
  else match s.starIndex with
    | some star =>
        some { s with
          patternIndex := star + 1
          starMatchIndex := s.starMatchIndex + 1
          keyIndex := s.starMatchIndex + 1 }
    | none => none

/-- The loop, for at most `rounds` rounds: the pattern index it leaves. -/
def matchLoop (pattern key : List UInt8) : Nat → MatchState → Option Nat
  | 0, s => if s.keyIndex < key.length then none else some s.patternIndex
  | rounds + 1, s =>
      if s.keyIndex < key.length then (matchStep pattern key s).bind (matchLoop pattern key rounds)
      else some s.patternIndex

/-- More rounds than the loop takes: each moves the key index on, opens a
further star of the pattern or starts the last star a byte later. -/
def matchRounds (pattern key : List UInt8) : Nat :=
  (pattern.length + key.length + 1) * (key.length + 1)

def matchesPattern (pattern key : String) : Bool :=
  if pattern = "" then false
  else
    let patternBytes := utf8 pattern
    let keyBytes := utf8 key
    match matchLoop patternBytes keyBytes (matchRounds patternBytes keyBytes) ⟨0, 0, none, 0⟩ with
    | none => false
    | some patternIndex => (patternBytes.drop patternIndex).all (· == 0x2A)

/-- The entries that `CONFIG GET pattern` selects, each key before its value. -/
def configFrames (env : Environment) (pattern : String) : List (Frame F) :=
  ((configEntries env).filter fun entry => matchesPattern pattern entry.1).flatMap fun entry =>
    [.bulkString (some (utf8 entry.1)), .bulkString (some (utf8 entry.2))]

def config (env : Environment) (args : List (List UInt8)) : CommandResult F :=
  match args with
  | [subcommand, pattern] =>
      if toAsciiUppercase (fromUtf8Lossy subcommand) ≠ "GET" then
        .error "ERR only CONFIG GET is supported"
      else match fromUtf8 pattern with
        | none => .error "ERR invalid CONFIG GET pattern"
        | some pattern => .ok (.array (some (configFrames env pattern)))
  | _ => .error "ERR wrong number of arguments for 'config' command"

/-! ## Storage commands -/

def set (args : List (List UInt8)) : StorageCall (CommandResult F) :=
  match args with
  | key :: value :: _ => do
      Storage.set key value
      pure (.ok (.simpleString "OK"))
  | _ => pure (.error "ERR wrong number of arguments for 'set'")

/-- A stored value as a frame. -/
def valueFrame (value : Option (List UInt8)) : Frame F :=
  match value with
  | some value => .bulkString (some value)
  | none => .null

def get (args : List (List UInt8)) : StorageCall (CommandResult F) :=
  match args with
  | [key] => do
      let value ← Storage.get key
      pure (.ok (valueFrame value))
  | _ => pure (.error "ERR wrong number of arguments for 'get'")

def del (args : List (List UInt8)) : StorageCall (CommandResult F) :=
  match args with
  | [] => pure (.error "ERR wrong number of arguments for 'del'")
  | keys => do
      let count ← Storage.del keys
      pure (.ok (.integer (Int64.ofNat count)))

/-- The number of arguments whose key exists. -/
def countExists : List (List UInt8) → StorageCall Nat
  | [] => pure 0
  | key :: keys => do
      let found ← Storage.existsKey key
      let count ← countExists keys
      pure ((if found then 1 else 0) + count)

def existsCommand (args : List (List UInt8)) : StorageCall (CommandResult F) :=
  match args with
  | [] => pure (.error "ERR wrong number of arguments for 'exists'")
  | keys => do
      let count ← countExists keys
      pure (.ok (.integer (Int64.ofNat count)))

/-- The reply of `INCR` and `DECR`. -/
def counterResult (value : Except StorageError Int64) : CommandResult F :=
  match value with
  | .ok value => .ok (.integer value)
  | .error _ => .error "ERR value is not an integer or out of range"

def incr (args : List (List UInt8)) : StorageCall (CommandResult F) :=
  match args with
  | [key] => do
      let value ← Storage.incr key
      pure (counterResult value)
  | _ => pure (.error "ERR wrong number of arguments for 'incr'")

def decr (args : List (List UInt8)) : StorageCall (CommandResult F) :=
  match args with
  | [key] => do
      let value ← Storage.decr key
      pure (counterResult value)
  | _ => pure (.error "ERR wrong number of arguments for 'decr'")

def mget (args : List (List UInt8)) : StorageCall (CommandResult F) :=
  match args with
  | [] => pure (.error "ERR wrong number of arguments for 'mget'")
  | keys => do
      let values ← Storage.mget keys
      pure (.ok (.array (some (values.map valueFrame))))

/-- The arguments two by two; a last odd one is left out. -/
def chunkPairs : List (List UInt8) → List (Key × List UInt8)
  | key :: value :: args => (key, value) :: chunkPairs args
  | _ => []

def mset (args : List (List UInt8)) : StorageCall (CommandResult F) :=
  if args = [] then pure (.error "ERR wrong number of arguments for 'mset'")
  else if args.length % 2 ≠ 0 then pure (.error "ERR wrong number of arguments for 'mset'")
  else do
    Storage.mset (chunkPairs args)
    pure (.ok (.simpleString "OK"))

def expire (args : List (List UInt8)) : StorageCall (CommandResult F) :=
  match args with
  | [key, secs] =>
      match (fromUtf8 secs).bind parseI64 with
      | none => pure (.error "ERR value is not an integer or out of range")
      | some seconds =>
          if seconds ≤ 0 then do
            let deleted ← Storage.del [key]
            pure (.ok (.integer (if deleted > 0 then 1 else 0)))
          else do
            let updated ← Storage.expire key seconds.toNatClampNeg
            pure (.ok (.integer (if updated then 1 else 0)))
  | _ => pure (.error "ERR wrong number of arguments for 'expire'")

def ttl (args : List (List UInt8)) : StorageCall (CommandResult F) :=
  match args with
  | [key] => do
      let value ← Storage.ttl key
      pure (.ok (.integer value))
  | _ => pure (.error "ERR wrong number of arguments for 'ttl'")

/-! ## Dispatch -/

/-- The reply of `QUIT`. -/
def quitResult : CommandResult F := ⟨.simpleString "OK", none, true⟩

/-- A storage command leaves the connection as it is. -/
def onStorage (state : ConnectionState) (call : StorageCall (CommandResult F)) :
    StorageCall (CommandResult F × ConnectionState) := do
  let result ← call
  pure (result, state)

def execute (env : Environment) (command : Command) (state : ConnectionState) :
    StorageCall (CommandResult F × ConnectionState) :=
  match command.name with
  | "PING" => pure (ping command.args, state)
  | "ECHO" => pure (echo command.args, state)
  | "HELLO" => pure (hello command.args state)
  | "INFO" => pure (info command.args, state)
  | "CONFIG" => pure (config env command.args, state)
  | "CLIENT" => pure (client command.args state)
  | "QUIT" => pure (quitResult, state)
  | "SET" => onStorage state (set command.args)
  | "GET" => onStorage state (get command.args)
  | "DEL" => onStorage state (del command.args)
  | "EXISTS" => onStorage state (existsCommand command.args)
  | "INCR" => onStorage state (incr command.args)
  | "DECR" => onStorage state (decr command.args)
  | "MGET" => onStorage state (mget command.args)
  | "MSET" => onStorage state (mset command.args)
  | "EXPIRE" => onStorage state (expire command.args)
  | "TTL" => onStorage state (ttl command.args)
  | _ => pure (.error "ERR unknown command", state)

end RalphDb
