import RalphDb.Command.Execute

/-!
# RalphDb.Command.Failure

A command that fails has changed nothing.

`incr_by` is the one operation of the store that can fail, and it creates or
resets its entry before it looks at the number.  An entry it has created or
reset holds `0`, though, to which one can always be added; where it fails it
has found its entry live and left it as it was (`incrEntry_error`).  Every
other handler has checked its arguments before it touches the store or the
connection, and does not fail after that.
-/

namespace RalphDb

open Base
open Base.Call

variable {F : Type}

/-- The response is an error. -/
def CommandResult.Failed (result : CommandResult F) : Prop :=
  ∃ message, result.response = .error message

/-- A failing command changes neither the store nor the connection, which
stays open. -/
structure Harmless (state : ConnectionState)
    (call : StorageCall (CommandResult F × ConnectionState)) : Prop where
  store : call.Spares fun answer => answer.1.Failed
  connection : call.Upholds (fun _ => True) fun answer =>
    answer.1.Failed → answer.2 = state ∧ answer.1.close = false

variable {state : ConnectionState}

/-- A handler that does not use the store. -/
theorem harmless_pure {answer : CommandResult F × ConnectionState}
    (h : answer.1.Failed → answer.2 = state ∧ answer.1.close = false) :
    Harmless state (pure answer) := ⟨spares_pure _, h⟩

/-- A handler that leaves the connection alone and does not close it. -/
theorem harmless_same {result : CommandResult F} (h : result.close = false) :
    Harmless state (pure (result, state)) := harmless_pure fun _ => ⟨rfl, h⟩

/-- A storage command whose arguments are refused. -/
theorem harmless_refused (message : String) :
    Harmless state (onStorage state (pure (.error message : CommandResult F))) := harmless_same rfl

/-- A storage command that succeeds, whatever its operation answers. -/
theorem harmless_answered {α : Type} (call : StorageCall α) {f : α → Frame F}
    (h : ∀ a message, f a ≠ .error message) :
    Harmless state (onStorage state (call >>= fun a => pure (.ok (f a)))) := by
  have hok : (call >>= fun a => pure (CommandResult.ok (f a))).Upholds (fun _ => True)
      fun result => ¬ result.Failed :=
    upholds_bind (upholds_any call) fun a _ => upholds_pure fun ⟨message, hm⟩ => h a message hm
  constructor
  · exact spares_of_upholds (upholds_bind hok fun result hresult => upholds_pure hresult)
  · exact upholds_bind hok fun result hresult =>
      upholds_pure fun hfailed => absurd hfailed hresult

/-! ## Counters -/

/-- Where `incr_by` fails, the entry was live and stays what it was; one by one
a counter at zero never fails. -/
theorem incrEntry_error {delta : Int64} {now : Instant} {found : Option Entry} {e : StorageError}
    (h : (Storage.incrEntry delta now found).1 = .error e) :
    (Storage.incrEntry delta now found).2 = found := by
  have hzero : parseI64 "0" = some 0 := by decide
  -- an entry that was created or reset holds zero, and counting from zero succeeds
  have hfresh : ∀ entry, Storage.counterEntry now found = entry → entry.value = utf8 "0" →
      (Storage.incrEntry delta now found).1 ≠ .error e := by
    intro entry hentry hvalue
    simp [Storage.incrEntry, hentry, hvalue, hzero, checkedAdd_zero]
  have hkept : Storage.counterEntry now found = found.getD (Entry.new (utf8 "0")) ∨
      (Storage.counterEntry now found).value = utf8 "0" := by
    unfold Storage.counterEntry
    by_cases hexpired : (found.getD (Entry.new (utf8 "0"))).expired now <;> simp [hexpired]
  obtain hkept | hvalue := hkept
  · cases found with
    | none => exact absurd h (hfresh _ hkept rfl)
    | some entry =>
        have hleft : Storage.counterEntry now (some entry) = entry := hkept
        unfold Storage.incrEntry at h ⊢
        simp only [hleft] at h ⊢
        split at h
        · rfl
        · split at h
          · rfl
          · contradiction
  · exact absurd h (hfresh _ rfl hvalue)

theorem close_counterResult (value : Except StorageError Int64) :
    (counterResult value : CommandResult F).close = false := by
  cases value <;> rfl

theorem harmless_counter (key : Key) (delta : Int64) :
    Harmless state (onStorage state (Storage.incrBy key delta >>= fun value =>
      pure (counterResult value : CommandResult F))) := by
  constructor
  · intro now found
    cases h : (Storage.incrEntry delta now found).1 with
    | error e => exact .inl ⟨incrEntry_error h, trivial⟩
    | ok value =>
        right
        show ¬ (counterResult (Storage.incrEntry delta now found).1 : CommandResult F).Failed
        rw [h]
        rintro ⟨message, hm⟩
        contradiction
  · exact fun _ _ _ => ⟨fun _ _ => trivial, fun _ => ⟨rfl, close_counterResult _⟩⟩

/-! ## Storage commands -/

theorem harmless_set (args : List (List UInt8)) :
    Harmless state (onStorage state (set args : StorageCall (CommandResult F))) := by
  match args with
  | [] => exact harmless_refused _
  | [_] => exact harmless_refused _
  | key :: value :: _ => exact harmless_answered _ fun _ _ => by simp

theorem valueFrame_ne_error (value : Option (List UInt8)) (message : String) :
    (valueFrame value : Frame F) ≠ .error message := by
  cases value <;> simp [valueFrame]

theorem harmless_get (args : List (List UInt8)) :
    Harmless state (onStorage state (get args : StorageCall (CommandResult F))) := by
  match args with
  | [] => exact harmless_refused _
  | [key] => exact harmless_answered _ valueFrame_ne_error
  | _ :: _ :: _ => exact harmless_refused _

theorem harmless_del (args : List (List UInt8)) :
    Harmless state (onStorage state (del args : StorageCall (CommandResult F))) := by
  match args with
  | [] => exact harmless_refused _
  | key :: keys => exact harmless_answered _ fun _ _ => by simp

theorem harmless_existsCommand (args : List (List UInt8)) :
    Harmless state (onStorage state (existsCommand args : StorageCall (CommandResult F))) := by
  match args with
  | [] => exact harmless_refused _
  | key :: keys => exact harmless_answered _ fun _ _ => by simp

theorem harmless_incr (args : List (List UInt8)) :
    Harmless state (onStorage state (incr args : StorageCall (CommandResult F))) := by
  match args with
  | [] => exact harmless_refused _
  | [key] => exact harmless_counter key 1
  | _ :: _ :: _ => exact harmless_refused _

theorem harmless_decr (args : List (List UInt8)) :
    Harmless state (onStorage state (decr args : StorageCall (CommandResult F))) := by
  match args with
  | [] => exact harmless_refused _
  | [key] => exact harmless_counter key (-1)
  | _ :: _ :: _ => exact harmless_refused _

theorem harmless_mget (args : List (List UInt8)) :
    Harmless state (onStorage state (mget args : StorageCall (CommandResult F))) := by
  match args with
  | [] => exact harmless_refused _
  | key :: keys => exact harmless_answered _ fun _ _ => by simp

theorem harmless_mset (args : List (List UInt8)) :
    Harmless state (onStorage state (mset args : StorageCall (CommandResult F))) := by
  unfold mset
  by_cases hempty : args = []
  · rw [if_pos hempty]
    exact harmless_refused _
  · rw [if_neg hempty]
    by_cases hodd : args.length % 2 ≠ 0
    · rw [if_pos hodd]
      exact harmless_refused _
    · rw [if_neg hodd]
      exact harmless_answered _ fun _ _ => by simp

theorem harmless_expire (args : List (List UInt8)) :
    Harmless state (onStorage state (expire args : StorageCall (CommandResult F))) := by
  match args with
  | [] => exact harmless_refused _
  | [_] => exact harmless_refused _
  | [key, secs] =>
      rw [expire]
      split
      · exact harmless_refused _
      · split
        · exact harmless_answered _ fun _ _ => by simp
        · exact harmless_answered _ fun _ _ => by simp
  | _ :: _ :: _ :: _ => exact harmless_refused _

theorem harmless_ttl (args : List (List UInt8)) :
    Harmless state (onStorage state (ttl args : StorageCall (CommandResult F))) := by
  match args with
  | [] => exact harmless_refused _
  | [key] => exact harmless_answered _ fun _ _ => by simp
  | _ :: _ :: _ => exact harmless_refused _

/-! ## Connection commands -/

theorem not_failed_ok {f : Frame F} (h : ∀ message, f ≠ .error message) :
    ¬ (CommandResult.ok f).Failed := fun ⟨message, hm⟩ => h message hm

theorem harmless_hello (args : List (List UInt8)) :
    Harmless state (pure (hello args state : CommandResult F × ConnectionState)) := by
  unfold hello
  by_cases hcount : args.length > 1
  · rw [if_pos hcount]
    exact harmless_same rfl
  · rw [if_neg hcount]
    split
    · exact harmless_same rfl
    · exact harmless_pure fun h => absurd h (not_failed_ok (by simp))
    · exact harmless_pure fun h => absurd h (not_failed_ok (by simp))
    · exact harmless_same rfl

theorem close_clientList (args : List (List UInt8)) (state : ConnectionState) :
    (clientList args state : CommandResult F).close = false := by
  unfold clientList
  split
  · split <;> rfl
  · rfl

theorem close_clientId (args : List (List UInt8)) (state : ConnectionState) :
    (clientId args state : CommandResult F).close = false := by
  unfold clientId
  split <;> rfl

theorem harmless_client (args : List (List UInt8)) :
    Harmless state (pure (client args state : CommandResult F × ConnectionState)) := by
  match args with
  | [] => exact harmless_same rfl
  | subcommand :: rest =>
      unfold client
      simp only
      split
      · unfold clientSetname
        split
        · exact harmless_pure fun h => absurd h (not_failed_ok (by simp))
        · exact harmless_same rfl
      · split <;> exact harmless_same rfl
      · exact harmless_same (close_clientList _ _)
      · exact harmless_same (close_clientId _ _)
      · exact harmless_same rfl

/-! ## All commands -/

theorem close_ping (args : List (List UInt8)) : (ping args : CommandResult F).close = false := by
  unfold ping
  split <;> rfl

theorem close_echo (args : List (List UInt8)) : (echo args : CommandResult F).close = false := by
  unfold echo
  split <;> rfl

theorem close_info (args : List (List UInt8)) : (info args : CommandResult F).close = false := by
  unfold info
  by_cases h : args.length > 1
  · simp [h, CommandResult.error]
  · simp only [h, if_false]
    split <;> rfl

theorem close_config (env : Environment) (args : List (List UInt8)) :
    (config env args : CommandResult F).close = false := by
  unfold config
  split
  · split
    · rfl
    · split <;> rfl
  · rfl

theorem harmless_execute (env : Environment) (command : Command) (state : ConnectionState) :
    Harmless state (execute env command state : StorageCall (CommandResult F × _)) := by
  unfold execute
  split
  · exact harmless_same (close_ping _)
  · exact harmless_same (close_echo _)
  · exact harmless_hello _
  · exact harmless_same (close_info _)
  · exact harmless_same (close_config env _)
  · exact harmless_client _
  · exact harmless_pure fun h => absurd h (not_failed_ok (by simp))
  · exact harmless_set _
  · exact harmless_get _
  · exact harmless_del _
  · exact harmless_existsCommand _
  · exact harmless_incr _
  · exact harmless_decr _
  · exact harmless_mget _
  · exact harmless_mset _
  · exact harmless_expire _
  · exact harmless_ttl _
  · exact harmless_same rfl

/-- **A failed command changes nothing**: not the store, not the connection,
which stays open. -/
theorem execute_failed {env : Environment} {command : Command} {state state' : ConnectionState}
    {clock : Nat → Instant} {storage storage' : DashMap} {result : CommandResult F} {n : Nat}
    (hrun : (execute env command state).runOn clock 0 storage = ((result, state'), n, storage'))
    {message : String} (herror : result.response = .error message) :
    storage' = storage ∧ state' = state ∧ result.close = false := by
  have hharmless := harmless_execute (F := F) env command state
  have hfailed : result.Failed := ⟨message, herror⟩
  have hstore := spares_runOn hharmless.store clock 0 storage
  have hconnection := (upholds_runOn hharmless.connection (m := storage)
    (fun _ _ _ => trivial) clock 0).1
  rw [hrun] at hstore hconnection
  exact ⟨hstore hfailed, hconnection hfailed⟩

/-- Every key holds `x`, which is no number. -/
def wordStorage : DashMap := fun _ => some (Entry.new (utf8 "x"))

theorem incrEntry_word (now : Instant) :
    Storage.incrEntry 1 now (some (Entry.new (utf8 "x"))) =
      (.error .invalidInteger, some (Entry.new (utf8 "x"))) := by
  have hword : parseI64 "x" = none := by decide
  simp [Storage.incrEntry, Storage.counterEntry, Entry.new, Entry.expired, hword]

/-- `INCR` of such a key. -/
theorem execute_failed_incr :
    ∃ (result : CommandResult WholeDouble) (state' : ConnectionState) (n : Nat)
      (storage' : DashMap),
      (execute ⟨none, none, none, none⟩ ⟨"INCR", [[0x6B]]⟩ (.fresh 7)).runOn
          (fun _ => Instant.origin) 0 wordStorage = ((result, state'), n, storage') ∧
        result.response = .error "ERR value is not an integer or out of range" ∧
        storage' = wordStorage ∧ state' = .fresh 7 ∧ result.close = false := by
  have hrun : (execute ⟨none, none, none, none⟩ ⟨"INCR", [[0x6B]]⟩ (.fresh 7) :
      StorageCall (CommandResult WholeDouble × _)).runOn (fun _ => Instant.origin) 0 wordStorage =
        ((.error "ERR value is not an integer or out of range", .fresh 7), 1, wordStorage) := by
    show ((counterResult (Storage.incrEntry 1 Instant.origin (wordStorage [0x6B])).1, _), _,
      Function.update wordStorage [0x6B]
        (Storage.incrEntry 1 Instant.origin (wordStorage [0x6B])).2) = _
    rw [wordStorage, incrEntry_word]
    exact congrArg (_, 1, ·) (Function.update_eq_self [0x6B] wordStorage)
  exact ⟨_, _, _, _, hrun, rfl, execute_failed hrun rfl⟩

end RalphDb
