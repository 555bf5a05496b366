import RalphDb.Concurrent.Keeps

/-!
# RalphDb.Concurrent.Purge

Reading back a write among readers.

A reading command removes an expired entry in a second access, after the guard
of the look is gone, and the removal takes away whatever the key holds by then.
A write that falls between the two is lost (`reads_back_purged_write`).

In a schedule where no write falls there, every `GET` that begins after a `SET`
has replied gives the value back (`reads_back`).  Before the write the running
reads are wary of the key (`Call.Wary`); since none is about to remove it when
the write is made, from then on they keep it.
-/

namespace RalphDb

open Base
open Base.Call
open Function

variable {F ι : Type}

/-! ## Reading commands are wary -/

section Wary

variable {k : Key} {J : Option Entry → Prop} {α : Type}

/-- A removal of `k` is a pending change of `k`; one of another key keeps `k`. -/
theorem wary_remove_bind (key : Key) {g : Option Entry → StorageCall α}
    (hkeeps : ∀ found, (g found).Keeps k J fun _ => True) (hg : ∀ found, (g found).Wary k J) :
    (Storage.remove key >>= g).Wary k J := by
  refine wary_atomic_bind (fun htouch => ?_) hg
  have hne : key ≠ k := fun hkey =>
    htouch ⟨hkey, .origin, some (Entry.new []), fun hsame => by contradiction⟩
  exact keeps_bind (keeps_remove hne) fun found _ => hkeeps found

/-- A look is followed by a purge only of an expired entry. -/
theorem wary_get (hJ : ∀ found, J found → NoDeadline found) (key : Key) :
    (Storage.get key).Wary k J := by
  refine wary_atomic_bind (fun _ => (keeps_get hJ key).imp fun _ _ => trivial) fun answer => ?_
  cases answer with
  | expired => exact wary_remove_bind key (fun _ => keeps_pure trivial) fun _ => wary_pure _
  | live entry now => exact wary_pure _
  | absent => exact wary_pure _

theorem wary_ttl (hJ : ∀ found, J found → NoDeadline found) (key : Key) :
    (Storage.ttl key).Wary k J := by
  refine wary_atomic_bind (fun _ => keeps_ttl hJ key) fun answer => ?_
  cases answer with
  | expired => exact wary_remove_bind key (fun _ => keeps_pure trivial) fun _ => wary_pure _
  | live entry now => cases hexp : entry.expiresAt <;> simp only [hexp] <;> exact wary_pure _
  | absent => exact wary_pure _

theorem wary_mget (hJ : ∀ found, J found → NoDeadline found) (keys : List Key) :
    (Storage.mget keys).Wary k J := by
  induction keys with
  | nil => exact wary_pure _
  | cons key keys ih =>
      refine wary_bind (wary_get hJ key) (fun _ => ?_) fun _ => ?_
      · exact keeps_bind (keeps_mget hJ keys) fun _ _ => keeps_pure trivial
      · exact wary_bind ih (fun _ => keeps_pure trivial) fun _ => wary_pure _

theorem wary_countExists (hJ : ∀ found, J found → NoDeadline found) (keys : List Key) :
    (countExists keys).Wary k J := by
  induction keys with
  | nil => exact wary_pure _
  | cons key keys ih =>
      have hexists : (Storage.existsKey key).Wary k J :=
        wary_bind (wary_get hJ key) (fun _ => keeps_pure trivial) fun _ => wary_pure _
      refine wary_bind hexists (fun _ => ?_) fun _ => ?_
      · exact keeps_bind (keeps_countExists hJ keys) fun _ _ => keeps_pure trivial
      · exact wary_bind ih (fun _ => keeps_pure trivial) fun _ => wary_pure _

/-- **A reading command is wary of every key**: it changes one only to purge it. -/
theorem wary_call_of_reads (hJ : ∀ found, J found → NoDeadline found) {c : StorageCommand}
    (h : c.Reads) : (c.call : StorageCall (CommandResult F)).Wary k J := by
  cases c with
  | get key => exact wary_bind (wary_get hJ key) (fun _ => keeps_pure trivial) fun _ => wary_pure _
  | mget keys =>
      cases keys with
      | nil => exact wary_pure _
      | cons key keys =>
          exact wary_bind (wary_mget hJ _) (fun _ => keeps_pure trivial) fun _ => wary_pure _
  | existsKeys keys =>
      cases keys with
      | nil => exact wary_pure _
      | cons key keys =>
          exact wary_bind (wary_countExists hJ _) (fun _ => keeps_pure trivial) fun _ => wary_pure _
  | ttl key => exact wary_bind (wary_ttl hJ key) (fun _ => keeps_pure trivial) fun _ => wary_pure _
  | _ => exact h.elim

end Wary

/-! ## The property and the race -/

/-- What the clients may run: `SET k v` and reading commands. -/
def WritesOnly (k : Key) (v : List UInt8) (c : StorageCommand) : Prop := c = .set k v ∨ c.Reads

/-- A `SET k v` has replied before the call began. -/
def Acknowledged (k : Key) (v : List UInt8) (replies : List (StorageReply ι F)) (began : Nat) :
    Prop := ∃ s ∈ replies.take began, s.command = .set k v

/-- Every `GET k` that began after a `SET k v` had replied answers `v`. -/
def ReadsBack (k : Key) (v : List UInt8) (replies : List (StorageReply ι F)) : Prop :=
  ∀ r ∈ replies, r.command = .get k → Acknowledged k v replies r.began →
    r.result = .ok (.bulkString (some v))

/-- A reading call has found `k` expired and is about to remove it. -/
def PurgePending (k : Key) (w : Clients ι F) : Prop :=
  ∃ i r, (w.clients i).running = some r ∧ r.command.Reads ∧ r.rest.Touches k

/-- The step is not the access of a `SET k v` while a purge of `k` is pending. -/
def NotBetween (k : Key) (v : List UInt8) (w : Clients ι F) (a : Action ι Instant) : Prop :=
  ∀ i r, a = .turn i → (w.clients i).running = some r → r.command = .set k v → ¬ PurgePending k w

/-- Later replies do not change what was acknowledged when a call began. -/
theorem acknowledged_append {k : Key} {v : List UInt8} {replies : List (StorageReply ι F)}
    {began : Nat} (h : began ≤ replies.length) (r : StorageReply ι F) :
    Acknowledged k v (replies ++ [r]) began ↔ Acknowledged k v replies began :=
  repliedBefore_append h r

/-! ## The invariant -/

/-- The entry that `SET k v` leaves. -/
def Holds (v : List UInt8) (found : Option Entry) : Prop := found = some (Entry.new v)

theorem noDeadline_of_holds {v : List UInt8} {found : Option Entry} (h : Holds v found) :
    NoDeadline found := by
  intro entry hentry
  rw [h] at hentry
  rw [← Option.some.inj hentry]
  rfl

/-- What a running read may still do: before the write it is wary of the key;
after it, it keeps the key, and a `GET k` that began late enough answers `v`. -/
def ReaderOk (k : Key) (v : List UInt8) (written : Bool) (replies : List (StorageReply ι F))
    (r : StorageRunning F) : Prop :=
  match written with
  | false => r.rest.Wary k (Holds v)
  | true => r.rest.Keeps k (Holds v) fun result =>
      r.command = .get k → Acknowledged k v replies r.began → result = .ok (.bulkString (some v))

def RunningOk (k : Key) (v : List UInt8) (written : Bool) (replies : List (StorageReply ι F))
    (r : StorageRunning F) : Prop :=
  r.began ≤ replies.length ∧
    ((r.command = .set k v ∧ r.rest = (StorageCommand.set k v).call) ∨
      (r.command.Reads ∧ ReaderOk k v written replies r))

/-- Whether the write has been made, and what it left. -/
def WriteSeen (k : Key) (v : List UInt8) (written : Bool) (w : Clients ι F) : Prop :=
  match written with
  | false => ∀ s ∈ w.replies, s.command ≠ .set k v
  | true => Holds v (w.shared k)

structure PurgeInv (k : Key) (v : List UInt8) (written : Bool) (w : Clients ι F) : Prop where
  began : ∀ r ∈ w.replies, r.began ≤ w.replies.length
  readsBack : ReadsBack k v w.replies
  clients : ∀ i, (w.clients i).All (WritesOnly k v) (RunningOk k v written w.replies)
  seen : WriteSeen k v written w

/-! ## Replies -/

section Replies

variable {k : Key} {v : List UInt8} {replies : List (StorageReply ι F)}

theorem ReadsBack.append (h : ReadsBack k v replies)
    (hbegan : ∀ r ∈ replies, r.began ≤ replies.length) {r : StorageReply ι F}
    (hr : r.began ≤ replies.length) (hnew : r.command = .get k →
      Acknowledged k v replies r.began → r.result = .ok (.bulkString (some v))) :
    ReadsBack k v (replies ++ [r]) := by
  intro r' hmem hget hack
  rw [List.mem_append, List.mem_singleton] at hmem
  obtain hold | rfl := hmem
  · exact h r' hold hget ((acknowledged_append (hbegan r' hold) r).mp hack)
  · exact hnew hget ((acknowledged_append hr r').mp hack)

/-- Nothing is acknowledged before the write. -/
theorem not_acknowledged (h : ∀ s ∈ replies, s.command ≠ .set k v) (began : Nat) :
    ¬ Acknowledged k v replies began := by
  intro hack
  obtain ⟨s, hs, hset⟩ := hack
  exact h s (List.mem_of_mem_take hs) hset

theorem RunningOk.append {written : Bool} {run : StorageRunning F}
    (h : RunningOk k v written replies run) (r : StorageReply ι F) :
    RunningOk k v written (replies ++ [r]) run := by
  obtain ⟨hbegan, hrun⟩ := h
  refine ⟨by rw [List.length_append]; omega, hrun.imp id fun hreader => ⟨hreader.1, ?_⟩⟩
  cases written with
  | false => exact hreader.2
  | true =>
      refine Keeps.imp hreader.2 fun result hresult hget hack => hresult hget ?_
      exact (acknowledged_append hbegan r).mp hack

/-- A reading command, before its first access. -/
theorem readerOk_call {written : Bool} {c : StorageCommand} (hc : c.Reads) (began : Nat) :
    ReaderOk k v written replies ⟨c, began, c.call⟩ := by
  have hJ : ∀ found, Holds v found → NoDeadline found := fun _ h => noDeadline_of_holds h
  cases written with
  | false => exact wary_call_of_reads hJ hc
  | true =>
      by_cases hget : c = .get k
      · subst hget
        refine keeps_bind (keeps_get hJ k) fun value hvalue => keeps_pure fun _ _ => ?_
        obtain ⟨found, hfound, rfl⟩ := hvalue rfl
        rw [hfound]
        rfl
      · exact (keeps_call_of_reads hJ hc).imp fun _ _ heq => absurd heq hget

end Replies

/-! ## Every turn keeps the invariant -/

section Turns

variable [DecidableEq ι] {k : Key} {v : List UInt8} {written : Bool} {w : Clients ι F}

/-- Going on with a read. -/
theorem PurgeInv.resume_reads (h : PurgeInv k v written w) {i : ι} {c : StorageCommand}
    {began : Nat} {rest : StorageCall (CommandResult F)} (hbegan : began ≤ w.replies.length)
    (hc : c.Reads) (hrest : ReaderOk k v written w.replies ⟨c, began, rest⟩) :
    PurgeInv k v written (w.resume i c began rest) := by
  have hset : c ≠ .set k v := by
    rintro rfl
    exact hc
  obtain ⟨result, rfl, _, hreplies⟩ | ⟨_, hreplies⟩ := World.resume_cases w i c began rest
  · have hall : ∀ j, (w.clients j).All (WritesOnly k v)
        (RunningOk k v written (w.replies ++ [⟨i, c, began, result⟩])) :=
      fun j => (h.clients j).imp fun run _ hrun => hrun.append _
    have hresult : c = .get k → Acknowledged k v w.replies began →
        result = .ok (.bulkString (some v)) := by
      cases written with
      | false => exact fun _ hack => absurd hack (not_acknowledged h.seen began)
      | true => exact hrest
    refine ⟨?_, ?_, ?_, ?_⟩
    · rw [hreplies]
      exact began_append h.began hbegan
    · rw [hreplies]
      exact h.readsBack.append h.began hbegan hresult
    · rw [hreplies]
      exact World.all_resume hall i c began (.done result) fun hdone => absurd rfl (hdone result)
    · cases written with
      | false =>
          show ∀ s ∈ w.replies ++ [_], s.command ≠ .set k v
          simpa [or_imp, forall_and] using ⟨h.seen, hset⟩
      | true => exact h.seen
  · refine ⟨by rw [hreplies]; exact h.began, by rw [hreplies]; exact h.readsBack, ?_, ?_⟩
    · rw [hreplies]
      exact World.all_resume h.clients i c began rest fun _ => ⟨hbegan, .inr ⟨hc, hrest⟩⟩
    · cases written with
      | false =>
          show ∀ s ∈ (w.resume i c began rest).replies, s.command ≠ .set k v
          rw [hreplies]
          exact h.seen
      | true =>
          show Holds v ((w.resume i c began rest).shared k)
          rw [World.resume_shared]
          exact h.seen

theorem PurgeInv.begin (h : PurgeInv k v written w) {i : ι} {c : StorageCommand}
    {todo : List StorageCommand} (hclient : w.clients i = ⟨c :: todo, none⟩) :
    PurgeInv k v written
      ({ w with clients := update w.clients i ⟨todo, none⟩ }.resume i c w.replies.length
        c.call) := by
  obtain ⟨hc, hclients⟩ := World.all_begin h.clients hclient
  have hidle : PurgeInv k v written { w with clients := update w.clients i ⟨todo, none⟩ } :=
    ⟨h.began, h.readsBack, hclients, by cases written <;> exact h.seen⟩
  obtain rfl | hreads := hc
  · have hrun := World.all_resume hidle.clients i (.set k v) w.replies.length
      (StorageCommand.set k v).call fun _ => ⟨Nat.le_refl _, .inl ⟨rfl, rfl⟩⟩
    exact ⟨h.began, h.readsBack, hrun, by cases written <;> exact h.seen⟩
  · exact hidle.resume_reads (Nat.le_refl _) hreads (readerOk_call hreads _)

/-- The access of a `SET k v`, while no purge is pending. -/
theorem PurgeInv.write (h : PurgeInv k v written w) (hpending : ¬ PurgePending k w) (i : ι)
    {began : Nat} (hbegan : began ≤ w.replies.length) :
    PurgeInv k v true ({ w with shared := update w.shared k (some (Entry.new v)) }.resume i
      (.set k v) began (.done (.ok (.simpleString "OK")))) := by
  -- every running read keeps the key from here on
  have hkeeps : ∀ j run, (w.clients j).running = some run → RunningOk k v written w.replies run →
      RunningOk k v true w.replies run := by
    intro j run hrunning hrun
    refine ⟨hrun.1, hrun.2.imp id fun hreader => ⟨hreader.1, ?_⟩⟩
    cases written with
    | true => exact hreader.2
    | false =>
        have htouch : ¬ run.rest.Touches k := fun ht => hpending ⟨j, run, hrunning, hreader.1, ht⟩
        refine Keeps.imp (Wary.keeps hreader.2 htouch) fun result _ _ hack => ?_
        exact absurd hack (not_acknowledged h.seen run.began)
  have hall : ∀ j, (w.clients j).All (WritesOnly k v) (RunningOk k v true
      (w.replies ++ [⟨i, .set k v, began, .ok (.simpleString "OK")⟩])) :=
    fun j => (h.clients j).imp fun run hrunning hrun => (hkeeps j run hrunning hrun).append _
  refine ⟨began_append h.began hbegan, ?_, ?_, update_self k _ _⟩
  · exact h.readsBack.append h.began hbegan fun hget => by contradiction
  · exact World.all_resume hall i (.set k v) began (.done (.ok (.simpleString "OK")))
      fun hdone => absurd rfl (hdone _)

/-- An access of a reading command. -/
theorem PurgeInv.read (h : PurgeInv k v written w) {i : ι} {run : StorageRunning F}
    (hbegan : run.began ≤ w.replies.length) (hc : run.command.Reads)
    (hreader : ReaderOk k v written w.replies run) :
    PurgeInv k v written
      ({ w with shared := (run.rest.advance w.clock w.shared).2 }.resume i run.command run.began
        (run.rest.advance w.clock w.shared).1) := by
  cases written with
  | false =>
      have hafter : PurgeInv k v false
          { w with shared := (run.rest.advance w.clock w.shared).2 } :=
        ⟨h.began, h.readsBack, h.clients, h.seen⟩
      exact hafter.resume_reads hbegan hc (wary_advance hreader w.clock w.shared)
  | true =>
      obtain ⟨hsame, hkeeps⟩ := keeps_advance (m := w.shared) hreader h.seen w.clock
      have hafter : PurgeInv k v true
          { w with shared := (run.rest.advance w.clock w.shared).2 } := by
        refine ⟨h.began, h.readsBack, h.clients, ?_⟩
        show Holds v ((run.rest.advance w.clock w.shared).2 k)
        rw [hsame]
        exact h.seen
      exact hafter.resume_reads hbegan hc hkeeps

theorem PurgeInv.step (h : PurgeInv k v written w) {a : Action ι Instant}
    (hok : NotBetween k v w a) :
    ∃ written', PurgeInv k v written' (w.step StorageCommand.call a) := by
  cases a with
  | tick t =>
      refine ⟨written, ?_⟩
      show PurgeInv k v written (if w.clock ≤ t then { w with clock := t } else w)
      split
      · exact ⟨h.began, h.readsBack, h.clients, by cases written <;> exact h.seen⟩
      · exact h
  | turn i =>
      show ∃ written', PurgeInv k v written' (w.turn StorageCommand.call i)
      obtain hidle | ⟨c, todo, hclient, hturn⟩ | ⟨todo, run, hclient, hturn⟩ :=
        World.turn_cases StorageCommand.call w i
      · exact ⟨written, by rw [hidle]; exact h⟩
      · exact ⟨written, by rw [hturn]; exact h.begin hclient⟩
      · have hrunning : (w.clients i).running = some run := by rw [hclient]
        rw [hturn]
        obtain ⟨hbegan, ⟨hset, hrest⟩ | ⟨hreads, hreader⟩⟩ := (h.clients i).running run hrunning
        · have hpending := hok i run rfl hrunning hset
          rw [hset, hrest]
          exact ⟨true, h.write hpending i hbegan⟩
        · exact ⟨written, h.read hbegan hreads hreader⟩

end Turns

/-- **Reading back.**  Whatever the clients and their reads, in every run in
which no `SET k v` is made while a purge of `k` is pending, every `GET k` that
begins after a `SET k v` has replied gives `v`. -/
theorem reads_back [DecidableEq ι] {k : Key} {v : List UInt8} {m : DashMap} {t : Instant}
    {program : ι → List StorageCommand} {schedule : List (Action ι Instant)}
    (hprogram : ∀ i, ∀ c ∈ program i, WritesOnly k v c)
    (hmeets : World.Meets StorageCommand.call (NotBetween k v) schedule
      (World.start m t program : Clients ι F)) :
    ReadsBack k v
      ((World.start m t program : Clients ι F).run StorageCommand.call schedule).replies := by
  have hstart : PurgeInv k v false (World.start m t program : Clients ι F) :=
    ⟨fun _ hr => absurd hr List.not_mem_nil, fun _ hr => absurd hr List.not_mem_nil,
      fun i => ⟨hprogram i, fun _ hr => by contradiction⟩, fun _ hs => absurd hs List.not_mem_nil⟩
  have hinv : ∃ written, PurgeInv k v written
      ((World.start m t program : Clients ι F).run StorageCommand.call schedule) := by
    refine World.run_invariant_of (P := fun w => ∃ written, PurgeInv k v written w)
      hmeets ⟨false, hstart⟩ fun w a h hok => ?_
    obtain ⟨written, hwritten⟩ := h
    exact hwritten.step hok
  obtain ⟨written, hwritten⟩ := hinv
  exact hwritten.readsBack

/-- A reader and a writer meet at an expired key. -/
def expiredKey : Clients Bool WholeDouble :=
  World.start (fun key => if key = [0x6B] then some ⟨[0x6F], some .origin⟩ else none)
    .origin fun i => if i then [.set [0x6B] [0x76]] else [.get [0x6B], .get [0x6B]]

/-- Here the purge is over before the writer takes its turns. -/
theorem reads_back_expiredKey :
    ReadsBack [0x6B] [0x76] (expiredKey.run StorageCommand.call
      [.turn false, .turn false, .turn false, .turn true, .turn true, .turn false,
        .turn false]).replies := by
  refine reads_back (fun i c hc => ?_) ⟨?_, ?_, ?_, ?_, ?_, ?_, ?_, trivial⟩
  · cases i with
    | true => exact .inl (List.mem_singleton.mp hc)
    | false =>
        obtain rfl : c = .get [0x6B] := by simpa using hc
        exact .inr trivial
  all_goals
    intro i r hturn hrunning hset hpending
    cases hturn
  · contradiction
  · cases hrunning
    contradiction
  · cases hrunning
    contradiction
  · contradiction
  · obtain ⟨i, r', hrunning', hreads, _⟩ := hpending
    cases i with
    | true =>
        cases hrunning'
        exact hreads
    | false => contradiction
  · contradiction
  · cases hrunning
    contradiction

/-- The writer replies between the look and the removal: the value is gone. -/
theorem reads_back_purged_write :
    ¬ ReadsBack [0x6B] [0x76] (expiredKey.run StorageCommand.call
      [.turn false, .turn false, .turn true, .turn true, .turn false, .turn false,
        .turn false]).replies := by
  intro h
  have hlast : (⟨false, .get [0x6B], 2, .ok .null⟩ : StorageReply Bool WholeDouble) ∈
      (expiredKey.run StorageCommand.call
        [.turn false, .turn false, .turn true, .turn true, .turn false, .turn false,
          .turn false]).replies := .tail _ (.tail _ (.head _))
  have hack := h _ hlast rfl ⟨⟨true, .set [0x6B] [0x76], 0, .ok (.simpleString "OK")⟩, .head _, rfl⟩
  simp [CommandResult.ok] at hack

end RalphDb
