import RalphDb.Server.Inline
import RalphDb.Server.Plan

/-!
# RalphDb.Server.Client

Clients that send storage commands as requests.

A client spells a storage command as an array of bulk strings (`bytes`).  The
store is asked just what such a client sends: the rounds of its connection ask
its commands, in order and nothing else (`plan_commands`, `script_clientJob`), up
to the first whose answer its socket does not take (`script_sessionJob`).
-/

namespace RalphDb

open Base

variable {F : Type}

namespace StorageCommand

/-- The request of a storage command. -/
def bytes (c : StorageCommand) : List UInt8 := requestBytes (utf8 c.name :: c.args)

/-- The command names a key, and its request is within the caps. -/
structure Sendable (c : StorageCommand) : Prop where
  named : c.keys ≠ []
  caps : WithinCaps (utf8 c.name :: c.args)

/-- What was meant is what is stored. -/
theorem stored_toCommand {c : StorageCommand} (h : c.keys ≠ []) : c.toCommand.stored = some c := by
  cases c with
  | del keys => exact if_neg h
  | existsKeys keys => exact if_neg h
  | mget keys => exact if_neg h
  | mset pairs =>
      have hargs : ¬ ((pairs.flatMap fun pair => [pair.1, pair.2]) = [] ∨
          (pairs.flatMap fun pair => [pair.1, pair.2]).length % 2 ≠ 0) := by
        rw [length_flatMap_pairs]
        cases pairs with
        | nil => exact absurd rfl h
        | cons pair pairs => simp
      refine (if_neg hargs).trans ?_
      rw [StorageCommand.toCommand, StorageCommand.args, chunkPairs_flatMap]
  | _ => rfl

/-- The names are in upper case. -/
theorem toAsciiUppercase_name (c : StorageCommand) : toAsciiUppercase c.name = c.name := by
  have hnames : ∀ name ∈ ["SET", "GET", "DEL", "EXISTS", "INCR", "DECR", "MGET", "MSET", "EXPIRE",
      "TTL"], toAsciiUppercase name = name := by decide
  refine hnames c.name ?_
  cases c <;> simp [name]

variable [F64 F]

/-- A request is parsed as the command it spells, under either version. -/
theorem fromFrame_bytes (c : StorageCommand) (version : ProtocolVersion) :
    Command.fromFrameWithProtocol (request (utf8 c.name :: c.args) : Frame F) version =
      .ok c.toCommand := by
  simp only [fromFrame_requestCommand, requestCommand, fromUtf8_utf8, toAsciiUppercase_name]
  rfl

theorem planFrame_bytes {c : StorageCommand} (h : c.keys ≠ []) (env : Environment)
    (state : ConnectionState) :
    planFrame env (request (utf8 c.name :: c.args) : Frame F) state =
      (.asks c.toCommand c state.protocol, some state) := by
  simp only [planFrame, fromFrame_bytes, stored_toCommand h]

end StorageCommand

/-- With an open socket every round is reached. -/
theorem reached_open (ps : List (Planned F)) (n : Nat) : reached .open ps n = ps := by
  induction ps generalizing n with
  | nil => rfl
  | cons p ps ih => exact congrArg (p :: ·) (ih (n + 1))

/-- The commands that are executed: up to the first whose answer is not sent. -/
def executed (socket : Socket) : List StorageCommand → Nat → List StorageCommand
  | [], _ => []
  | c :: cs, n => c :: if (socket n).isNone then executed socket cs (n + 1) else []

theorem executed_isPrefix (socket : Socket) (cs : List StorageCommand) (n : Nat) :
    executed socket cs n <+: cs := by
  induction cs generalizing n with
  | nil => exact List.nil_prefix
  | cons c cs ih =>
      rw [executed]
      split
      · exact List.cons_prefix_cons.mpr ⟨rfl, ih (n + 1)⟩
      · exact List.cons_prefix_cons.mpr ⟨rfl, List.nil_prefix⟩

theorem reached_asks (socket : Socket) (cs : List StorageCommand) (n : Nat) :
    reached socket (cs.map fun c => (.asks c.toCommand c .resp2 : Planned F)) n =
      (executed socket cs n).map fun c => .asks c.toCommand c .resp2 := by
  induction cs generalizing n with
  | nil => rfl
  | cons c cs ih =>
      rw [List.map_cons, reached, executed, List.map_cons]
      split
      · rw [ih]
      · rfl

variable [F64 F] (env : Environment)

/-- The plan of a connection at the end of its stream. -/
theorem plan_nil (e : Ending) (state : ConnectionState) :
    (plan env ⟨[], e⟩ state : List (Planned F)) = [] := by
  rw [plan_error (decodeFrame_nil e), if_pos (endsLoop_ending e)]

/-- **The store is asked what the client sends.** -/
theorem plan_commands {cs : List StorageCommand} (h : ∀ c ∈ cs, c.Sendable) (tail : List UInt8)
    (e : Ending) (state : ConnectionState) :
    (plan env ⟨cs.flatMap StorageCommand.bytes ++ tail, e⟩ state : List (Planned F)) =
      cs.map (fun c => .asks c.toCommand c state.protocol) ++ plan env ⟨tail, e⟩ state := by
  induction cs with
  | nil => rfl
  | cons c cs ih =>
      obtain ⟨hc, hcs⟩ := List.forall_mem_cons.mp h
      have hread := reads_request (F := F) hc.caps (cs.flatMap StorageCommand.bytes ++ tail) e
      rw [List.flatMap_cons, List.append_assoc, StorageCommand.bytes, plan_ok hread,
        StorageCommand.planFrame_bytes hc.named]
      exact congrArg _ (ih hcs)

/-- The connection of a client that sends the commands and hangs up. -/
def clientJob (cs : List StorageCommand) (clientId : Int64) : Job :=
  ⟨⟨cs.flatMap StorageCommand.bytes, .eof⟩, clientId, .open⟩

theorem plan_clientJob {cs : List StorageCommand} (h : ∀ c ∈ cs, c.Sendable) (clientId : Int64) :
    ((clientJob cs clientId).plan env : List (Planned F)) =
      cs.map fun c => .asks c.toCommand c .resp2 := by
  have hplan := plan_commands (F := F) env h [] .eof (.fresh clientId)
  rw [List.append_nil, plan_nil env, List.append_nil] at hplan
  exact hplan

theorem script_clientJob {cs : List StorageCommand} (h : ∀ c ∈ cs, c.Sendable)
    (clientId : Int64) : (clientJob cs clientId).script F env = cs := by
  rw [Job.script, plan_clientJob env h]
  show (reached .open _ 0).filterMap Planned.asked = cs
  rw [reached_open, List.filterMap_map]
  exact List.filterMap_some

/-- The answer to a storage command of a client. -/
def clientSent (exchange : StorageCommand × CommandResult F) : Sent F :=
  ⟨.result exchange.1.toCommand exchange.2,
    (Answer.result exchange.1.toCommand exchange.2).bytes .resp2⟩

/-! ## Sockets that fail -/

/-- The connection of a client that sends the commands over a socket and hangs
up. -/
def sessionJob (cs : List StorageCommand) (clientId : Int64) (socket : Socket) : Job :=
  ⟨⟨cs.flatMap StorageCommand.bytes, .eof⟩, clientId, socket⟩

/-- **The store is asked what is executed.** -/
theorem script_sessionJob {cs : List StorageCommand} (h : ∀ c ∈ cs, c.Sendable)
    (clientId : Int64) (socket : Socket) :
    (sessionJob cs clientId socket).script F env = executed socket cs 0 := by
  have hplan : ((sessionJob cs clientId socket).plan env : List (Planned F)) =
      cs.map fun c => .asks c.toCommand c .resp2 := plan_clientJob env h clientId
  rw [Job.script, hplan]
  show (reached socket _ 0).filterMap Planned.asked = executed socket cs 0
  rw [reached_asks, List.filterMap_map]
  exact List.filterMap_some

end RalphDb
