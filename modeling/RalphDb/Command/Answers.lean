import RalphDb.Command.Execute

/-!
# RalphDb.Command.Answers

What the handlers can answer.

`execute_answers` says it once: every reply is *tame*, of the types that both
protocol versions have and of texts without a line feed, but for six replies
that are named.  Everything about replies follows from it.

The payloads of tame replies are stored values, arguments, the client name and
texts of the program.  Whatever predicate `B` holds of these holds of every
payload, and likewise `N` of the length of every array.
-/

namespace RalphDb

open Base
open Base.Call

variable {F : Type}

/-! ## Tame frames -/

/-- A node of a type that both versions have, with a text of one line, a
payload in `B` and a length in `N`. -/
def Frame.Tame (B : List UInt8 → Prop) (N : Nat → Prop) : Frame F → Prop
  | .simpleString value => '\n' ∉ value.toList
  | .error value => '\n' ∉ value.toList
  | .integer _ => True
  | .bulkString (some value) => B value
  | .bulkString none => True
  | .array (some elements) => N elements.length
  | .array none => True
  | .null => True
  | _ => False

/-- A result with a tame response and nothing else. -/
structure CommandResult.Tame (B : List UInt8 → Prop) (N : Nat → Prop) (result : CommandResult F) :
    Prop where
  response : result.response.Everywhere (Frame.Tame B N)
  attributes : result.attributes = none
  close : result.close = false

/-- The bound `B` holds of the texts that the program itself stores and sends. -/
structure Covers (B : List UInt8 → Prop) (N : Nat → Prop) : Prop where
  decimal : ∀ n : Int64, B (utf8 (toString n.toInt))
  infoBody : B (utf8 infoBody)

/-- The entry holds a value in `B`. -/
def Stored (B : List UInt8 → Prop) (entry : Entry) : Prop := B entry.value

section Tame

variable {B : List UInt8 → Prop} {N : Nat → Prop}

theorem tame_simpleString {value : String} (h : '\n' ∉ value.toList) :
    (CommandResult.ok (.simpleString value) : CommandResult F).Tame B N := ⟨.leaf rfl h, rfl, rfl⟩

theorem tame_error {message : String} (h : '\n' ∉ message.toList) :
    (CommandResult.error message : CommandResult F).Tame B N := ⟨.leaf rfl h, rfl, rfl⟩

/-- A text of the program, as the characters it is written with. -/
theorem tame_fixedString {cs : List Char} (h : '\n' ∉ cs) :
    (CommandResult.ok (.simpleString (String.ofList cs)) : CommandResult F).Tame B N :=
  tame_simpleString (by rwa [String.toList_ofList])

theorem tame_fixedError {cs : List Char} (h : '\n' ∉ cs) :
    (CommandResult.error (String.ofList cs) : CommandResult F).Tame B N :=
  tame_error (by rwa [String.toList_ofList])

theorem tame_integer (n : Int64) : (CommandResult.ok (.integer n) : CommandResult F).Tame B N :=
  ⟨.leaf rfl trivial, rfl, rfl⟩

theorem tame_bulkString {value : List UInt8} (h : B value) :
    (CommandResult.ok (.bulkString (some value)) : CommandResult F).Tame B N :=
  ⟨.leaf rfl h, rfl, rfl⟩

theorem tame_valueFrame {value : Option (List UInt8)} (h : ∀ v ∈ value, B v) :
    (valueFrame value : Frame F).Everywhere (Frame.Tame B N) := by
  cases value with
  | none => exact .leaf rfl trivial
  | some value => exact .leaf rfl (h value rfl)

/-! ## Operations on the store -/

theorem upholds_look (key : Key) :
    (Storage.look key).Upholds (Stored B)
      fun answer => ∀ entry now, answer = .live entry now → B entry.value := by
  refine upholds_atomic fun now found hfound => ⟨hfound, fun entry now' hlive => ?_⟩
  cases found with
  | none => contradiction
  | some entry' =>
      rw [Storage.Found.of] at hlive
      split at hlive
      · contradiction
      · rw [← (Storage.Found.live.inj hlive).1]
        exact hfound entry' rfl

theorem upholds_remove (key : Key) :
    (Storage.remove key).Upholds (Stored B) fun _ => True :=
  upholds_atomic fun _ _ _ => ⟨fun _ hentry => by contradiction, trivial⟩

theorem upholds_set {value : List UInt8} (h : B value) (key : Key) :
    (Storage.set key value).Upholds (Stored B) fun _ => True := by
  refine upholds_atomic fun _ _ _ => ⟨fun entry hentry => ?_, trivial⟩
  rw [← Option.some.inj hentry]
  exact h

theorem upholds_get (key : Key) :
    (Storage.get key).Upholds (Stored B) fun value => ∀ v ∈ value, B v := by
  refine upholds_bind (upholds_look key) fun answer hanswer => ?_
  cases answer with
  | expired =>
      exact upholds_bind (upholds_remove key) fun _ _ => upholds_pure fun _ hv => by contradiction
  | live entry now =>
      refine upholds_pure fun v hv => ?_
      rw [← Option.some.inj hv]
      exact hanswer entry now rfl
  | absent => exact upholds_pure fun _ hv => by contradiction

theorem upholds_delKey (key : Key) : (Storage.delKey key).Upholds (Stored B) fun _ => True := by
  refine upholds_bind (upholds_look key) fun answer _ => ?_
  cases answer <;> exact upholds_bind (upholds_remove key) fun _ _ => upholds_pure trivial

theorem upholds_del (keys : List Key) : (Storage.del keys).Upholds (Stored B) fun _ => True := by
  induction keys with
  | nil => exact upholds_pure trivial
  | cons key keys ih =>
      exact upholds_bind (upholds_delKey key) fun _ _ =>
        upholds_bind ih fun _ _ => upholds_pure trivial

theorem upholds_countExists (keys : List Key) :
    (countExists keys).Upholds (Stored B) fun _ => True := by
  induction keys with
  | nil => exact upholds_pure trivial
  | cons key keys ih =>
      have hexists : (Storage.existsKey key).Upholds (Stored B) fun _ => True :=
        upholds_bind (upholds_get key) fun _ _ => upholds_pure trivial
      exact upholds_bind hexists fun _ _ => upholds_bind ih fun _ _ => upholds_pure trivial

theorem upholds_expire (key : Key) (secs : Nat) :
    (Storage.expire key secs).Upholds (Stored B) fun _ => True := by
  refine upholds_bind (P := fun _ => True) (fun _ => trivial) fun now _ => ?_
  split
  · exact upholds_pure trivial
  · next expiry _ =>
      refine upholds_bind (P := fun _ => True) (upholds_atomic fun now' found hfound => ?_)
        fun answer _ => ?_
      · cases found with
        | none => exact ⟨hfound, trivial⟩
        | some entry =>
            have hkept : Sound (Stored B) (some { entry with expiresAt := some expiry }) := by
              intro entry' hentry'
              rw [← Option.some.inj hentry']
              exact hfound entry rfl
            cases hexpired : entry.expired now' with
            | true => exact ⟨by simpa [Storage.expireEntry, hexpired] using hfound, trivial⟩
            | false => exact ⟨by simpa [Storage.expireEntry, hexpired] using hkept, trivial⟩
      · cases answer with
        | some answer => exact upholds_pure trivial
        | none => exact upholds_bind (upholds_remove key) fun _ _ => upholds_pure trivial

theorem upholds_ttl (key : Key) : (Storage.ttl key).Upholds (Stored B) fun _ => True := by
  refine upholds_bind (upholds_look key) fun answer _ => ?_
  cases answer with
  | expired => exact upholds_bind (upholds_remove key) fun _ _ => upholds_pure trivial
  | live entry now =>
      cases hexp : entry.expiresAt <;> simp only [hexp] <;> exact upholds_pure trivial
  | absent => exact upholds_pure trivial

theorem upholds_incrBy (hB : Covers B N) (key : Key) (delta : Int64) :
    (Storage.incrBy key delta).Upholds (Stored B) fun _ => True := by
  refine upholds_atomic fun now found hfound => ⟨?_, trivial⟩
  have hzero : B (utf8 "0") := hB.decimal 0
  have hentry : B (Storage.counterEntry now found).value := by
    have hbase : B (found.getD (Entry.new (utf8 "0"))).value := by
      cases found with
      | none => exact hzero
      | some entry => exact hfound entry rfl
    rw [Storage.counterEntry]
    split
    · exact hzero
    · exact hbase
  intro entry hleft
  simp only [Storage.incrEntry] at hleft
  split at hleft
  · rw [← Option.some.inj hleft]
    exact hentry
  · split at hleft
    · rw [← Option.some.inj hleft]
      exact hentry
    · rw [← Option.some.inj hleft]
      exact hB.decimal _

theorem upholds_mget (keys : List Key) :
    (Storage.mget keys).Upholds (Stored B) fun values =>
      values.length = keys.length ∧ ∀ value ∈ values, ∀ v ∈ value, B v := by
  induction keys with
  | nil => exact upholds_pure ⟨rfl, fun _ hv => absurd hv List.not_mem_nil⟩
  | cons key keys ih =>
      refine upholds_bind (upholds_get key) fun value hvalue => ?_
      refine upholds_bind ih fun values hvalues => upholds_pure ⟨?_, ?_⟩
      · simp [hvalues.1]
      · exact List.forall_mem_cons.mpr ⟨hvalue, hvalues.2⟩

theorem upholds_mset {pairs : List (Key × List UInt8)} (h : ∀ pair ∈ pairs, B pair.2) :
    (Storage.mset pairs).Upholds (Stored B) fun _ => True := by
  induction pairs with
  | nil => exact upholds_pure trivial
  | cons pair pairs ih =>
      obtain ⟨hpair, hpairs⟩ := List.forall_mem_cons.mp h
      exact upholds_bind (upholds_set hpair pair.1) fun _ _ => ih hpairs

/-! ## Storage commands -/

theorem upholds_setCommand {args : List (List UInt8)} (hargs : ∀ arg ∈ args, B arg) :
    (set args : StorageCall (CommandResult F)).Upholds (Stored B) (CommandResult.Tame B N) := by
  match args, hargs with
  | [], _ => exact tame_fixedError (by decide)
  | [_], _ => exact tame_fixedError (by decide)
  | key :: value :: _, hargs =>
      exact upholds_bind (upholds_set (hargs value (by simp)) key) fun _ _ =>
        upholds_pure (tame_fixedString (by decide))

theorem upholds_getCommand (args : List (List UInt8)) :
    (get args : StorageCall (CommandResult F)).Upholds (Stored B) (CommandResult.Tame B N) := by
  match args with
  | [key] =>
      exact upholds_bind (upholds_get key) fun _ hvalue =>
        upholds_pure ⟨tame_valueFrame hvalue, rfl, rfl⟩
  | [] => exact tame_fixedError (by decide)
  | _ :: _ :: _ => exact tame_fixedError (by decide)

theorem upholds_delCommand (args : List (List UInt8)) :
    (del args : StorageCall (CommandResult F)).Upholds (Stored B) (CommandResult.Tame B N) := by
  match args with
  | [] => exact tame_fixedError (by decide)
  | key :: keys => exact upholds_bind (upholds_del _) fun _ _ => upholds_pure (tame_integer _)

theorem upholds_existsCommand (args : List (List UInt8)) :
    (existsCommand args : StorageCall (CommandResult F)).Upholds (Stored B)
      (CommandResult.Tame B N) := by
  match args with
  | [] => exact tame_fixedError (by decide)
  | key :: keys =>
      exact upholds_bind (upholds_countExists _) fun _ _ => upholds_pure (tame_integer _)

theorem tame_counterResult (value : Except StorageError Int64) :
    (counterResult value : CommandResult F).Tame B N := by
  cases value with
  | ok value => exact tame_integer value
  | error e => exact tame_fixedError (by decide)

theorem upholds_incrCommand (hB : Covers B N) (args : List (List UInt8)) :
    (incr args : StorageCall (CommandResult F)).Upholds (Stored B) (CommandResult.Tame B N) := by
  match args with
  | [key] =>
      exact upholds_bind (upholds_incrBy hB key 1) fun _ _ => upholds_pure (tame_counterResult _)
  | [] => exact tame_fixedError (by decide)
  | _ :: _ :: _ => exact tame_fixedError (by decide)

theorem upholds_decrCommand (hB : Covers B N) (args : List (List UInt8)) :
    (decr args : StorageCall (CommandResult F)).Upholds (Stored B) (CommandResult.Tame B N) := by
  match args with
  | [key] =>
      exact upholds_bind (upholds_incrBy hB key (-1)) fun _ _ => upholds_pure (tame_counterResult _)
  | [] => exact tame_fixedError (by decide)
  | _ :: _ :: _ => exact tame_fixedError (by decide)

theorem upholds_mgetCommand {args : List (List UInt8)} (hcount : N args.length) :
    (mget args : StorageCall (CommandResult F)).Upholds (Stored B) (CommandResult.Tame B N) := by
  match args, hcount with
  | [], _ => exact tame_fixedError (by decide)
  | key :: keys, hcount =>
      refine upholds_bind (upholds_mget (key :: keys)) fun values hvalues => ?_
      refine upholds_pure ⟨⟨?_, fun c hc => ?_⟩, rfl, rfl⟩
      · show N (values.map valueFrame).length
        rw [List.length_map, hvalues.1]
        exact hcount
      · obtain ⟨value, hvalue, rfl⟩ := List.mem_map.mp hc
        exact tame_valueFrame (hvalues.2 value hvalue)

theorem mem_chunkPairs {args : List (List UInt8)} {pair : Key × List UInt8}
    (h : pair ∈ chunkPairs args) : pair.2 ∈ args := by
  fun_induction chunkPairs args with
  | case1 key value args ih =>
      rw [List.mem_cons] at h
      obtain rfl | h := h
      · simp
      · exact .tail _ (.tail _ (ih h))
  | case2 => exact absurd h List.not_mem_nil

theorem upholds_msetCommand {args : List (List UInt8)} (hargs : ∀ arg ∈ args, B arg) :
    (mset args : StorageCall (CommandResult F)).Upholds (Stored B) (CommandResult.Tame B N) := by
  rw [mset]
  split
  · exact tame_fixedError (by decide)
  · split
    · exact tame_fixedError (by decide)
    · refine upholds_bind (upholds_mset fun pair hpair => hargs pair.2 (mem_chunkPairs hpair))
        fun _ _ => ?_
      exact upholds_pure (tame_fixedString (by decide))

theorem upholds_expireCommand (args : List (List UInt8)) :
    (expire args : StorageCall (CommandResult F)).Upholds (Stored B) (CommandResult.Tame B N) := by
  match args with
  | [key, text] =>
      rw [expire]
      split
      · exact tame_fixedError (by decide)
      · split
        · exact upholds_bind (upholds_del [key]) fun _ _ => upholds_pure (tame_integer _)
        · exact upholds_bind (upholds_expire key _) fun _ _ => upholds_pure (tame_integer _)
  | [] => exact tame_fixedError (by decide)
  | [_] => exact tame_fixedError (by decide)
  | _ :: _ :: _ :: _ => exact tame_fixedError (by decide)

theorem upholds_ttlCommand (args : List (List UInt8)) :
    (ttl args : StorageCall (CommandResult F)).Upholds (Stored B) (CommandResult.Tame B N) := by
  match args with
  | [key] => exact upholds_bind (upholds_ttl key) fun _ _ => upholds_pure (tame_integer _)
  | [] => exact tame_fixedError (by decide)
  | _ :: _ :: _ => exact tame_fixedError (by decide)

end Tame

/-! ## All commands -/

/-- The answers of a command on a connection: a tame reply, or one of six that
stand out.  Only the replies to a successful `HELLO` change the version, and
only `QUIT` closes the connection. -/
inductive Answers (env : Environment) (B : List UInt8 → Prop) (N : Nat → Prop) (command : Command)
    (state : ConnectionState) : CommandResult F → ConnectionState → Prop
  | tame {result : CommandResult F} {clientName : Option (List UInt8)} (htame : result.Tame B N)
      (hhello : command.name = "HELLO" → ∃ message, result.response = .error message)
      (hquit : command.name ≠ "QUIT") :
      Answers env B N command state result { state with clientName := clientName }
  | quit (hname : command.name = "QUIT") : Answers env B N command state quitResult state
  | infoSection {bytes : List UInt8} (hname : command.name = "INFO")
      (hargs : command.args = [bytes]) :
      Answers env B N command state
        (.error ("ERR unsupported INFO section '" ++ infoSection [bytes] ++ "'")) state
  | clientList {subcommand : List UInt8} (hname : command.name = "CLIENT")
      (hargs : command.args = [subcommand])
      (hlist : toAsciiUppercase (fromUtf8Lossy subcommand) = "LIST") :
      Answers env B N command state (clientList [] state) state
  | configGet {subcommand pattern : List UInt8} {text : String} (hname : command.name = "CONFIG")
      (hargs : command.args = [subcommand, pattern])
      (hget : toAsciiUppercase (fromUtf8Lossy subcommand) = "GET")
      (htext : fromUtf8 pattern = some text) :
      Answers env B N command state (.ok (.array (some (configFrames env text)))) state
  | hello2 (hname : command.name = "HELLO") (hversion : helloVersion command.args = some 2) :
      Answers env B N command state (.ok (.simpleString "OK")) { state with protocol := .resp2 }
  | hello3 (hname : command.name = "HELLO") (hversion : helloVersion command.args = some 3) :
      Answers env B N command state
        (.ok (.map (some (helloPayload { state with protocol := .resp3 }))))
        { state with protocol := .resp3 }

section Answers

variable {env : Environment} {B : List UInt8 → Prop} {N : Nat → Prop} {command : Command}
  {state : ConnectionState}

/-- Neither `HELLO` nor `QUIT`. -/
def Command.Ordinary (command : Command) : Prop := command.name ≠ "HELLO" ∧ command.name ≠ "QUIT"

theorem ordinary_of_name {name : String} (hname : command.name = name)
    (h : name ≠ "HELLO" ∧ name ≠ "QUIT") : command.Ordinary := by
  rw [Command.Ordinary, hname]
  exact h

/-- A tame reply of a command that leaves the connection alone. -/
theorem Answers.same {result : CommandResult F} (htame : result.Tame B N)
    (h : command.Ordinary) : Answers env B N command state result state :=
  .tame htame (fun hname => absurd hname h.1) h.2

theorem tame_ping (hargs : ∀ arg ∈ command.args, B arg) :
    (ping command.args : CommandResult F).Tame B N := by
  match hcase : command.args, hargs with
  | [], _ => exact tame_fixedString (by decide)
  | [message], hargs => exact tame_bulkString (hargs message (by simp))
  | _ :: _ :: _, _ => exact tame_fixedError (by decide)

theorem tame_echo (hargs : ∀ arg ∈ command.args, B arg) :
    (echo command.args : CommandResult F).Tame B N := by
  match hcase : command.args, hargs with
  | [], _ => exact tame_fixedError (by decide)
  | [message], hargs => exact tame_bulkString (hargs message (by simp))
  | _ :: _ :: _, _ => exact tame_fixedError (by decide)

theorem answers_hello (hname : command.name = "HELLO") :
    Answers env B N command state (hello command.args state : CommandResult F × _).1
      (hello command.args state : CommandResult F × _).2 := by
  have hquit : command.name ≠ "QUIT" := by
    rw [hname]
    decide
  rw [hello]
  split
  · exact .tame (tame_fixedError (by decide)) (fun _ => ⟨_, rfl⟩) hquit
  · split
    · exact .tame (tame_fixedError (by decide)) (fun _ => ⟨_, rfl⟩) hquit
    · next hversion => exact .hello3 hname hversion
    · next hversion => exact .hello2 hname hversion
    · exact .tame (tame_fixedError (by decide)) (fun _ => ⟨_, rfl⟩) hquit

theorem answers_info (hB : Covers B N) (hname : command.name = "INFO") :
    Answers env B N command state (info command.args : CommandResult F) state := by
  have hordinary : command.Ordinary := ordinary_of_name hname (by decide)
  match hargs : command.args with
  | [] => exact .same (tame_bulkString hB.infoBody) hordinary
  | [bytes] =>
      rw [info]
      split
      · exact .same (tame_fixedError (by decide)) hordinary
      · split
        · exact .same (tame_bulkString hB.infoBody) hordinary
        · exact .same (tame_bulkString hB.infoBody) hordinary
        · exact .infoSection hname hargs
  | _ :: _ :: _ => exact .same (tame_fixedError (by decide)) hordinary

theorem answers_config (hname : command.name = "CONFIG") :
    Answers env B N command state (config env command.args : CommandResult F) state := by
  have hordinary : command.Ordinary := ordinary_of_name hname (by decide)
  match hargs : command.args with
  | [subcommand, pattern] =>
      rw [config]
      split
      · exact .same (tame_fixedError (by decide)) hordinary
      · next hget =>
          split
          · exact .same (tame_fixedError (by decide)) hordinary
          · next text htext => exact .configGet hname hargs (not_not.mp hget) htext
  | [] => exact .same (tame_fixedError (by decide)) hordinary
  | [_] => exact .same (tame_fixedError (by decide)) hordinary
  | _ :: _ :: _ :: _ => exact .same (tame_fixedError (by decide)) hordinary

theorem tame_nameFrame (hclient : ∀ name ∈ state.clientName, B name) :
    (nameFrame state : Frame F).Everywhere (Frame.Tame B N) := by
  rw [nameFrame]
  split
  · next name hname => exact .leaf rfl (hclient name hname)
  · exact .leaf rfl trivial

theorem answers_client (hclient : ∀ name ∈ state.clientName, B name)
    (hname : command.name = "CLIENT") :
    Answers env B N command state (client command.args state : CommandResult F × _).1
      (client command.args state : CommandResult F × _).2 := by
  have hordinary : command.Ordinary := ordinary_of_name hname (by decide)
  match hargs : command.args with
  | [] => exact .same (tame_fixedError (by decide)) hordinary
  | subcommand :: rest =>
      rw [client]
      split
      · unfold clientSetname
        split
        · exact .tame (tame_fixedString (by decide)) (fun hname => absurd hname hordinary.1)
            hordinary.2
        · exact .same (tame_fixedError (by decide)) hordinary
      · split
        · exact .same ⟨tame_nameFrame hclient, rfl, rfl⟩ hordinary
        · exact .same (tame_fixedError (by decide)) hordinary
      · next hlist =>
          match rest, hargs with
          | [], hargs => exact .clientList hname hargs hlist
          | _ :: _, _ => exact .same (tame_fixedError (by decide)) hordinary
      · unfold clientId
        split
        · exact .same (tame_integer _) hordinary
        · exact .same (tame_fixedError (by decide)) hordinary
      · exact .same (tame_fixedError (by decide)) hordinary

/-- A storage command answers what its call answers. -/
theorem upholds_onStorage {name : String} (hname : command.name = name)
    (hordinary : name ≠ "HELLO" ∧ name ≠ "QUIT") {call : StorageCall (CommandResult F)}
    (h : call.Upholds (Stored B) (CommandResult.Tame B N)) :
    (onStorage state call).Upholds (Stored B)
      fun answer => Answers env B N command state answer.1 answer.2 :=
  upholds_bind h fun _ htame => upholds_pure (.same htame (ordinary_of_name hname hordinary))

/-- **What `execute` can answer.** -/
theorem execute_answers (env : Environment) (hB : Covers B N) (hargs : ∀ arg ∈ command.args, B arg)
    (hcount : N command.args.length) (hclient : ∀ name ∈ state.clientName, B name) :
    (execute env command state : StorageCall (CommandResult F × ConnectionState)).Upholds
      (Stored B) fun answer => Answers env B N command state answer.1 answer.2 := by
  unfold execute
  split
  case h_1 hname => exact .same (tame_ping hargs) (ordinary_of_name hname (by decide))
  case h_2 hname => exact .same (tame_echo hargs) (ordinary_of_name hname (by decide))
  case h_3 hname => exact answers_hello hname
  case h_4 hname => exact answers_info hB hname
  case h_5 hname => exact answers_config hname
  case h_6 hname => exact answers_client hclient hname
  case h_7 hname => exact .quit hname
  case h_8 hname => exact upholds_onStorage hname (by decide) (upholds_setCommand hargs)
  case h_9 hname => exact upholds_onStorage hname (by decide) (upholds_getCommand _)
  case h_10 hname => exact upholds_onStorage hname (by decide) (upholds_delCommand _)
  case h_11 hname => exact upholds_onStorage hname (by decide) (upholds_existsCommand _)
  case h_12 hname => exact upholds_onStorage hname (by decide) (upholds_incrCommand hB _)
  case h_13 hname => exact upholds_onStorage hname (by decide) (upholds_decrCommand hB _)
  case h_14 hname => exact upholds_onStorage hname (by decide) (upholds_mgetCommand hcount)
  case h_15 hname => exact upholds_onStorage hname (by decide) (upholds_msetCommand hargs)
  case h_16 hname => exact upholds_onStorage hname (by decide) (upholds_expireCommand _)
  case h_17 hname => exact upholds_onStorage hname (by decide) (upholds_ttlCommand _)
  case h_18 => exact .same (tame_fixedError (by decide)) ⟨by assumption, by assumption⟩

end Answers

end RalphDb
