import RalphDb.Concurrent.Keeps
import RalphDb.Base.Ledger

/-!
# RalphDb.Concurrent.Deletion

Deletions are counted once.

`DEL` looks a key up and removes it in a second access, so two clients may both
find the key and both go on to remove it.  A removal answers what it took away,
and that alone is counted.

* **calls** — what is left of a `DEL` removes the keys it has not looked at and
  answers what it counted (`deletes_call`);
* **runs** — a removal and a reply are entries of a ledger (`Ledger.remove`,
  `Ledger.settle`), so in every reachable world the replies, the counts of the
  calls under way and the keys still present balance (`DeletionInv.turn`).
-/

namespace RalphDb

open Base
open Base.Call
open Function

variable {F ι : Type}

/-! ## The calls -/

/-- The keys a command deletes. -/
def StorageCommand.deletes : StorageCommand → List Key
  | .del keys => keys
  | _ => []

/-- What a reply to a `DEL` counts; other replies count nothing. -/
def deletedCount (c : StorageCommand) (result : CommandResult F) : Int :=
  match c, result.response with
  | .del _, .integer n => n.toInt
  | _, _ => 0

/-- What a `DEL` under way has counted, and the keys it has not removed yet. -/
structure Tally where
  counted : Nat
  left : List Key

/-- An access of a `DEL`: a look, or the removal of the next key. -/
inductive Tally.Moves : Tally → Key → Option Entry → Option Entry → Tally → Prop
  | look (s : Tally) (key : Key) (found : Option Entry) : Moves s key found found s
  | remove (counted : Nat) (key : Key) (left : List Key) (found : Option Entry) :
      Moves ⟨counted, key :: left⟩ key found none ⟨counted + if found.isSome then 1 else 0, left⟩

/-- The call deletes from here on, where nothing expires. -/
def Deletes {α : Type} (P : Tally → α → Prop) (x : StorageCall α) (s : Tally) : Prop :=
  x.Follows (fun _ => NoDeadline) Tally.Moves P s

/-- The answer counts what was removed, and no key is left. -/
def Settles (c : StorageCommand) (s : Tally) (result : CommandResult F) : Prop :=
  s.left = [] ∧ deletedCount c result = s.counted

theorem deletes_of_observes {α : Type} {O : α → Prop} {x : StorageCall α}
    (h : x.Observes (fun _ => NoDeadline) O) (s : Tally) :
    Deletes (fun s' a => s' = s ∧ O a) x s :=
  h.follows fun key found => .look s key found

/-- One key: it is removed, and counted if it was there. -/
theorem deletes_delKey (counted : Nat) (key : Key) (left : List Key) :
    Deletes (fun s n => s = ⟨counted + n, left⟩ ∧ n ≤ 1) (Storage.delKey key)
      ⟨counted, key :: left⟩ := by
  have hremove : Deletes
      (fun s removed => s = ⟨counted + if removed.isSome then 1 else 0, left⟩)
      (Storage.remove key) ⟨counted, key :: left⟩ :=
    follows_atomic fun _ found _ => ⟨_, .remove counted key left found, rfl⟩
  have hlook := observes_look (V := fun _ => NoDeadline) (fun _ _ h => h) key
  refine follows_bind (deletes_of_observes hlook _) fun s answer hanswer => ?_
  obtain ⟨rfl, hseen⟩ := hanswer
  cases answer with
  | expired => exact hseen.elim
  | absent =>
      refine follows_bind hremove fun s removed hs => follows_pure ⟨hs, ?_⟩
      cases removed <;> simp
  | live entry now =>
      refine follows_bind hremove fun s removed hs => follows_pure ⟨hs, ?_⟩
      cases removed <;> simp

/-- A list of keys, one after the other; a key may be there twice. -/
theorem deletes_del (counted : Nat) (keys left : List Key) :
    Deletes (fun s n => s = ⟨counted + n, left⟩ ∧ n ≤ keys.length) (Storage.del keys)
      ⟨counted, keys ++ left⟩ := by
  induction keys generalizing counted with
  | nil => exact follows_pure ⟨rfl, Nat.le_refl 0⟩
  | cons key keys ih =>
      refine follows_bind (deletes_delKey counted key (keys ++ left)) fun s n hn => ?_
      obtain ⟨rfl, hone⟩ := hn
      refine follows_bind (ih (counted + n)) fun s n' hn' => follows_pure ?_
      obtain ⟨rfl, hlength⟩ := hn'
      exact ⟨by rw [Nat.add_assoc], by simp; omega⟩

/-- What the clients may run: reading commands, and `DEL` of as many keys as fit
in memory. -/
def DeletesOnly (c : StorageCommand) : Prop :=
  c.Reads ∨ ∃ keys, c = .del keys ∧ keys.length < 2 ^ 63

theorem deletes_eq_nil {c : StorageCommand} (h : c.Reads) : c.deletes = [] := by
  cases c <;> first | rfl | exact h.elim

theorem deletedCount_of_reads {c : StorageCommand} (h : c.Reads) (result : CommandResult F) :
    deletedCount c result = 0 := by
  cases c <;> first | rfl | exact h.elim

/-- A command removes the keys it names and answers what it counted. -/
theorem deletes_call {c : StorageCommand} (h : DeletesOnly c) :
    Deletes (Settles c) (c.call : StorageCall (CommandResult F)) ⟨0, c.deletes⟩ := by
  obtain hreads | ⟨keys, rfl, hlength⟩ := h
  · have hobserves := observes_call_of_reads (F := F) (V := fun _ => NoDeadline)
      (fun _ _ h => h) hreads
    refine (deletes_of_observes hobserves _).imp fun s result hs => ?_
    obtain ⟨rfl, _⟩ := hs
    exact ⟨deletes_eq_nil hreads, deletedCount_of_reads hreads result⟩
  · cases keys with
    | nil => exact follows_pure ⟨rfl, rfl⟩
    | cons key keys =>
        have hdel := deletes_del 0 (key :: keys) []
        rw [List.append_nil] at hdel
        refine follows_bind hdel fun s n hn => follows_pure ?_
        obtain ⟨rfl, hn⟩ := hn
        refine ⟨rfl, ?_⟩
        show (Int64.ofNat n).toInt = ((0 + n : Nat) : Int)
        rw [Nat.zero_add]
        exact Int64.toInt_ofNat_of_lt (by omega)

/-! ## The invariant -/

/-- The keys that the commands delete, one command after the other. -/
def deletedKeys (commands : List StorageCommand) : List Key :=
  commands.flatMap StorageCommand.deletes

/-- A client that owes `owed` and has counted `counted`: it owes what is left
of its call, then what its further commands delete. -/
structure Accounts (owed : List Key) (counted : Nat) (client : Client Key Entry Instant
    StorageCommand (CommandResult F)) : Prop where
  allowed : ∀ c ∈ client.todo, DeletesOnly c
  books : match client.running with
    | none => owed = deletedKeys client.todo ∧ counted = 0
    | some r => ∃ left, owed = left ++ deletedKeys client.todo ∧
        Deletes (Settles r.command) r.rest ⟨counted, left⟩

/-- The replies to `DEL`, added up. -/
def deletedTotal (replies : List (StorageReply ι F)) : Int :=
  (replies.map fun r => deletedCount r.command r.result).sum

theorem deletedTotal_append (replies : List (StorageReply ι F)) (r : StorageReply ι F) :
    deletedTotal (replies ++ [r]) = deletedTotal replies + deletedCount r.command r.result := by
  simp [deletedTotal]

section Runs

variable [Fintype ι] {named : Finset Key} {m : DashMap} {w : Clients ι F}

/-- The clients keep the books, and the books balance. -/
def DeletionInv (named : Finset Key) (m : DashMap) (w : Clients ι F) : Prop :=
  ∃ owed counted, Ledger named m owed counted (deletedTotal w.replies) w.shared ∧
    ∀ i, Accounts (owed i) (counted i) (w.clients i)

variable [DecidableEq ι] {owed : ι → List Key} {counted : ι → Nat}

/-- Client `i` goes on with a call that deletes what the client still owes. -/
theorem deletionInv_resume
    (h : Ledger named m owed counted (deletedTotal w.replies) w.shared) {i : ι}
    (hothers : ∀ j ≠ i, Accounts (owed j) (counted j) (w.clients j))
    (hallowed : ∀ c ∈ (w.clients i).todo, DeletesOnly c) {c : StorageCommand} (began : Nat)
    (left : List Key) {rest : StorageCall (CommandResult F)}
    (howed : owed i = left ++ deletedKeys (w.clients i).todo)
    (hrest : Deletes (Settles c) rest ⟨counted i, left⟩) :
    DeletionInv named m (w.resume i c began rest) := by
  obtain ⟨result, rfl, hclients, hreplies⟩ | ⟨hclients, hreplies⟩ :=
    World.resume_cases w i c began rest
  · obtain ⟨hleft, hcount⟩ := hrest
    refine ⟨owed, update counted i 0, ?_, fun j => ?_⟩
    · rw [hreplies, deletedTotal_append, World.resume_shared]
      show Ledger _ _ _ _ (_ + deletedCount c result) _
      rw [hcount]
      exact h.settle i
    · rw [hclients]
      by_cases hj : j = i
      · subst hj
        rw [update_self, update_self]
        refine ⟨hallowed, ?_, rfl⟩
        rw [howed]
        simp_all
      · rw [update_of_ne hj, update_of_ne hj]
        exact hothers j hj
  · refine ⟨owed, counted, ?_, ?_⟩
    · rw [hreplies, World.resume_shared]
      exact h
    · rw [hclients]
      exact (forall_update_iff _ _).mpr ⟨⟨hallowed, left, howed, hrest⟩, hothers⟩

omit [DecidableEq ι] in
/-- Only removals happen, so nothing gets a deadline. -/
theorem noDeadline_of_ledger (h : Ledger named m owed counted (deletedTotal w.replies) w.shared)
    (hfresh : ∀ key, NoDeadline (m key)) (key : Key) : NoDeadline (w.shared key) := by
  obtain hsame | ⟨_, hnone⟩ := h.entries key
  · rw [hsame]
    exact hfresh key
  · simp [hnone, NoDeadline]

/-- Client `i` begins a command: it owes what it owed. -/
theorem deletionInv_begin (h : Ledger named m owed counted (deletedTotal w.replies) w.shared)
    (haccounts : ∀ j, Accounts (owed j) (counted j) (w.clients j)) {i : ι} {c : StorageCommand}
    {todo : List StorageCommand} (hclient : w.clients i = ⟨c :: todo, none⟩) (began : Nat) :
    DeletionInv named m
      ({ w with clients := update w.clients i ⟨todo, none⟩ }.resume i c began c.call) := by
  have hi := haccounts i
  rw [hclient] at hi
  obtain ⟨howed, hcounted⟩ := hi.books
  obtain ⟨hc, htodo⟩ := List.forall_mem_cons.mp hi.allowed
  refine deletionInv_resume (w := { w with clients := update w.clients i ⟨todo, none⟩ }) h
    (fun j hj => ?_) ?_ began c.deletes ?_ ?_
  · simpa [update_of_ne hj] using haccounts j
  · simpa using htodo
  · simpa [deletedKeys] using howed
  · rw [hcounted]
    exact deletes_call hc

/-- Client `i` goes on with a call: a look changes nothing, a removal is booked. -/
theorem deletionInv_advance (h : Ledger named m owed counted (deletedTotal w.replies) w.shared)
    (haccounts : ∀ j, Accounts (owed j) (counted j) (w.clients j))
    (hfresh : ∀ key, NoDeadline (m key)) {i : ι} {todo : List StorageCommand}
    {r : StorageRunning F} (hclient : w.clients i = ⟨todo, some r⟩) :
    DeletionInv named m
      ({ w with shared := (r.rest.advance w.clock w.shared).2 }.resume i r.command r.began
        (r.rest.advance w.clock w.shared).1) := by
  have hi := haccounts i
  rw [hclient] at hi
  obtain ⟨left, howed, hrest⟩ := hi.books
  have hothers := fun j (_ : j ≠ i) => haccounts j
  have hallowed : ∀ c ∈ (w.clients i).todo, DeletesOnly c := by simpa [hclient] using hi.allowed
  obtain ⟨hsame, hnext⟩ | ⟨key, entry, s, hshared, hmoves, hnext⟩ :=
    follows_advance hrest (noDeadline_of_ledger h hfresh) w.clock
  · rw [hsame]
    exact deletionInv_resume h hothers hallowed _ left (by simpa [hclient] using howed) hnext
  · rw [hshared]
    cases hmoves with
    | look =>
        rw [update_eq_self]
        exact deletionInv_resume h hothers hallowed _ left (by simpa [hclient] using howed) hnext
    | remove n key left found =>
        have hremove := h.remove howed
        refine deletionInv_resume (w := { w with shared := update w.shared key none }) hremove
          (fun j hj => ?_) hallowed _ left ?_ ?_
        · simpa [update_of_ne hj] using haccounts j
        · simp [hclient]
        · rw [update_self]
          exact hnext

theorem DeletionInv.turn (h : DeletionInv named m w) (hfresh : ∀ key, NoDeadline (m key))
    (i : ι) : DeletionInv named m (w.turn StorageCommand.call i) := by
  obtain ⟨owed, counted, hledger, haccounts⟩ := h
  obtain hidle | ⟨c, todo, hclient, hturn⟩ | ⟨todo, r, hclient, hturn⟩ :=
    World.turn_cases StorageCommand.call w i
  · rw [hidle]
    exact ⟨owed, counted, hledger, haccounts⟩
  · rw [hturn]
    exact deletionInv_begin hledger haccounts hclient _
  · rw [hturn]
    exact deletionInv_advance hledger haccounts hfresh hclient

end Runs

/-! ## Whole runs -/

/-- The keys that some command of some client deletes. -/
def namedKeys [Fintype ι] (program : ι → List StorageCommand) : Finset Key :=
  Finset.univ.biUnion fun i => (deletedKeys (program i)).toFinset

theorem mem_namedKeys [Fintype ι] {program : ι → List StorageCommand} {key : Key} :
    key ∈ namedKeys program ↔ ∃ i, key ∈ deletedKeys (program i) := by
  simp [namedKeys]

theorem deletionInv_start [Fintype ι] (m : DashMap) (t : Instant)
    {program : ι → List StorageCommand} (hprogram : ∀ i, ∀ c ∈ program i, DeletesOnly c) :
    DeletionInv (namedKeys program) m (World.start m t program : Clients ι F) := by
  refine ⟨fun i => deletedKeys (program i), fun _ => 0, ⟨fun key => .inl rfl, ?_, ?_, ?_⟩, ?_⟩
  · exact fun i key hkey => mem_namedKeys.mpr ⟨i, hkey⟩
  · exact fun key hkey => .inr (mem_namedKeys.mp hkey)
  · simp [World.start, deletedTotal]
  · exact fun i => ⟨hprogram i, rfl, rfl⟩

/-- When no client has anything left, the books are closed. -/
theorem DeletionInv.finished [Fintype ι] {named : Finset Key} {m : DashMap} {w : Clients ι F}
    (h : DeletionInv named m w) (hfinished : ∀ i, w.clients i = ⟨[], none⟩) :
    deletedTotal w.replies = (present named m).card ∧
      (∀ key ∈ named, w.shared key = none) ∧ ∀ key ∉ named, w.shared key = m key := by
  obtain ⟨owed, counted, hledger, haccounts⟩ := h
  have hbooks : ∀ i, owed i = [] ∧ counted i = 0 := by
    intro i
    have hi := (haccounts i).books
    rw [hfinished i] at hi
    exact hi
  have habsent : ∀ key ∈ named, w.shared key = none := by
    intro key hkey
    simpa [hbooks] using hledger.handled key hkey
  have hpresent : present named w.shared = ∅ := by
    simpa [present, Finset.filter_eq_empty_iff] using habsent
  refine ⟨?_, habsent, fun key hkey => ?_⟩
  · simpa [hbooks, hpresent] using hledger.count
  · simpa [hkey] using hledger.entries key

/-- **Concurrent deletions are counted once.**  Clients run any number of `DEL`
and reading commands on a store without deadlines.  When all have finished,
whatever the interleaving, the replies to `DEL` add up to the number of named
keys that were present, these keys are gone, and every other entry is as it
was.  (The length of an argument list is below `2 ^ 63`.) -/
theorem deletions_counted_once [Fintype ι] [DecidableEq ι] {m : DashMap} {t : Instant}
    {program : ι → List StorageCommand} {w : Clients ι F} (hfresh : ∀ key, NoDeadline (m key))
    (hprogram : ∀ i, ∀ c ∈ program i, DeletesOnly c)
    (hw : (World.start m t program).Reaches StorageCommand.call w)
    (hfinished : ∀ i, w.clients i = ⟨[], none⟩) :
    deletedTotal w.replies = (present (namedKeys program) m).card ∧
      (∀ key ∈ namedKeys program, w.shared key = none) ∧
      ∀ key ∉ namedKeys program, w.shared key = m key := by
  have hinv : DeletionInv (namedKeys program) m w :=
    hw.invariant_of_turn (deletionInv_start m t hprogram) (fun w t h => h) fun w i h =>
      h.turn hfresh i
  exact hinv.finished hfinished

/-- Two clients delete one key, which one of them names twice. -/
def bothDelete (i : Bool) : List StorageCommand :=
  if i then [.del [[0x6B], [0x6B]]] else [.del [[0x6B]], .get [0x6B]]

/-- A store with that key alone. -/
def oneKey : DashMap := fun key => if key = [0x6B] then some (Entry.new [0x76]) else none

/-- Both have found the key before the first of them removes it. -/
theorem deletions_counted_once_bothDelete :
    let w : Clients Bool WholeDouble := (World.start oneKey .origin bothDelete).run
      StorageCommand.call [.turn true, .turn false, .turn true, .turn false, .turn false,
        .turn true, .turn true, .turn true, .turn false, .turn false]
    deletedTotal w.replies = (present (namedKeys bothDelete) oneKey).card ∧
      (∀ key ∈ namedKeys bothDelete, w.shared key = none) ∧
      ∀ key ∉ namedKeys bothDelete, w.shared key = oneKey key := by
  refine deletions_counted_once (fun key entry hentry => ?_) (fun i c hc => ?_) ⟨_, rfl⟩
    (fun i => ?_)
  · have hkey : key = [0x6B] ∧ Entry.new [0x76] = entry := by simpa [oneKey] using hentry
    rw [← hkey.2]
    rfl
  · cases i with
    | true => exact .inr ⟨[[0x6B], [0x6B]], List.mem_singleton.mp hc, by decide⟩
    | false =>
        obtain rfl | rfl : c = .del [[0x6B]] ∨ c = .get [0x6B] := by simpa [bothDelete] using hc
        · exact .inr ⟨_, rfl, by decide⟩
        · exact .inl trivial
  · cases i <;> rfl

end RalphDb
