import RalphDb.Concurrent.Keeps

/-!
# RalphDb.Concurrent.Counter

Counters are atomic.

`INCR` and `DECR` are one access each, and everything else the clients may run
leaves the key alone.  In every reachable world the counter is its first value
plus the increments answered minus the decrements answered
(`CounterInv.value`), whatever the clients, their commands and the interleaving.

The invariant has one clause a turn could break: what is left of a running call
is either an `INCR` or `DECR` that has not been made, or keeps the key.
-/

namespace RalphDb

open Base
open Base.Call
open Function

variable {F ι : Type}

def Frame.isInteger : Frame F → Bool
  | .integer _ => true
  | _ => false

/-! ## One increment -/

/-- Counting in an entry without a deadline: the sum is stored and answered, or
it does not fit and nothing changes. -/
theorem incrEntry_cases {found : Option Entry} {n : Int64} (hfresh : NoDeadline found)
    (hn : counterValue found = some n) (delta : Int64) (now : Instant) :
    (∃ sum, checkedAdd n delta = some sum ∧ Storage.incrEntry delta now found =
        (.ok sum, some ⟨utf8 (toString sum.toInt), none⟩)) ∨
      (checkedAdd n delta = none ∧
        Storage.incrEntry delta now found = (.error .integerOutOfRange, found)) := by
  cases found with
  | none =>
      have hzero : n = 0 := (Option.some.inj hn).symm
      have hparse : parseI64 "0" = some 0 := by decide
      refine .inl ⟨delta, by rw [hzero, checkedAdd_zero], ?_⟩
      simp [Storage.incrEntry, Storage.counterEntry, Entry.new, Entry.expired, hparse,
        checkedAdd_zero]
  | some entry =>
      have hnone : entry.expiresAt = none := hfresh entry rfl
      have hlive : entry.expired now = false := by simp [Entry.expired, hnone]
      have hparse : (fromUtf8 entry.value).bind parseI64 = some n := hn
      cases hadd : checkedAdd n delta with
      | none =>
          exact .inr ⟨rfl, by simp [Storage.incrEntry, Storage.counterEntry, hlive, hparse, hadd]⟩
      | some sum =>
          refine .inl ⟨sum, rfl, ?_⟩
          simp [Storage.incrEntry, Storage.counterEntry, hlive, hparse, hadd, hnone]

/-- A printed counter is read back. -/
theorem counterValue_toString (n : Int64) :
    counterValue (some ⟨utf8 (toString n.toInt), none⟩) = some n := by
  rw [counterValue, fromUtf8_utf8, Option.bind_some, parseI64_toString]

/-- The commands that count in `k`, and what they add. -/
def Counts (k : Key) (c : StorageCommand) (delta : Int64) : Prop :=
  (c = .incr k ∧ delta = 1) ∨ (c = .decr k ∧ delta = -1)

/-- The one access of a counting command. -/
theorem advance_counts {k : Key} {c : StorageCommand} {delta : Int64} (h : Counts k c delta)
    (now : Instant) (m : DashMap) :
    (c.call : StorageCall (CommandResult F)).advance now m =
      (.done (counterResult (Storage.incrEntry delta now (m k)).1),
        update m k (Storage.incrEntry delta now (m k)).2) := by
  obtain ⟨rfl, rfl⟩ | ⟨rfl, rfl⟩ := h
  · rfl
  · rfl

/-! ## The invariant -/

/-- What the clients may run: `INCR k` and `DECR k`, reading commands, and
commands that do not name `k`. -/
def CountsOnly (k : Key) (c : StorageCommand) : Prop :=
  (∃ delta, Counts k c delta) ∨ c.Reads ∨ k ∉ c.keys

/-- The replies to a command that are an integer. -/
def answered (c : StorageCommand) (replies : List (StorageReply ι F)) :
    Nat :=
  replies.countP fun r => decide (r.command = c) && r.result.response.isInteger

/-- The counter after the replies: `n` plus increments minus decrements. -/
def countedFrom (k : Key) (n : Int64)
    (replies : List (StorageReply ι F)) : Int :=
  n.toInt + answered (.incr k) replies - answered (.decr k) replies

/-- What is left of a running call: all of a counting command, or accesses that
keep the key. -/
def InFlight (k : Key) (r : StorageRunning F) : Prop :=
  (∃ delta, Counts k r.command delta ∧ r.rest = r.command.call) ∨
    ((∀ delta, ¬ Counts k r.command delta) ∧ r.rest.Keeps k NoDeadline fun _ => True)

structure CounterInv (k : Key) (n₀ : Int64) (w : Clients ι F) : Prop where
  fresh : NoDeadline (w.shared k)
  value : ∃ n, counterValue (w.shared k) = some n ∧ n.toInt = countedFrom k n₀ w.replies
  clients : ∀ i, (w.clients i).All (CountsOnly k) (InFlight k)

theorem answered_append (c : StorageCommand)
    (replies : List (StorageReply ι F))
    (r : StorageReply ι F) :
    answered c (replies ++ [r]) =
      answered c replies +
        if decide (r.command = c) && r.result.response.isInteger then 1 else 0 := by
  simp [answered, List.countP_append, List.countP_singleton]

/-- A reply to another command counts nothing. -/
theorem countedFrom_append_of_not_counts {k : Key} {n : Int64}
    {replies : List (StorageReply ι F)}
    {r : StorageReply ι F} (h : ∀ delta, ¬ Counts k r.command delta) :
    countedFrom k n (replies ++ [r]) = countedFrom k n replies := by
  have hincr : r.command ≠ .incr k := fun heq => h 1 (.inl ⟨heq, rfl⟩)
  have hdecr : r.command ≠ .decr k := fun heq => h (-1) (.inr ⟨heq, rfl⟩)
  simp [countedFrom, answered_append, hincr, hdecr]

/-- An integer reply to a counting command counts what it adds; another reply
counts nothing. -/
theorem countedFrom_append_of_counts {k : Key} {n delta : Int64}
    {replies : List (StorageReply ι F)}
    {r : StorageReply ι F} (h : Counts k r.command delta) :
    countedFrom k n (replies ++ [r]) =
      countedFrom k n replies + if r.result.response.isInteger then delta.toInt else 0 := by
  have hone : (1 : Int64).toInt = 1 := by decide
  have hneg : (-1 : Int64).toInt = -1 := by decide
  obtain ⟨hc, rfl⟩ | ⟨hc, rfl⟩ := h
  · cases hint : r.result.response.isInteger <;>
      simp [countedFrom, answered_append, hc, hint, hone]
    omega
  · cases hint : r.result.response.isInteger <;>
      simp [countedFrom, answered_append, hc, hint, hneg]
    omega

/-- A counting access keeps the entry a counter without a deadline, and adds
what its reply says. -/
theorem incrEntry_counts {found : Option Entry} {n : Int64} (hfresh : NoDeadline found)
    (hn : counterValue found = some n) (delta : Int64) (now : Instant) :
    NoDeadline (Storage.incrEntry delta now found).2 ∧
      ∃ n', counterValue (Storage.incrEntry delta now found).2 = some n' ∧
        n'.toInt = n.toInt +
          if (counterResult
            (Storage.incrEntry delta now found).1 : CommandResult F).response.isInteger
          then delta.toInt else 0 := by
  obtain ⟨sum, hadd, hrun⟩ | ⟨_, hrun⟩ := incrEntry_cases hfresh hn delta now
  · have hstored : NoDeadline (some ⟨utf8 (toString sum.toInt), none⟩) := by
      intro entry hentry
      rw [← Option.some.inj hentry]
    rw [hrun]
    exact ⟨hstored, sum, counterValue_toString sum, checkedAdd_eq_some hadd⟩
  · rw [hrun]
    exact ⟨hfresh, n, hn, (Int.add_zero _).symm⟩

/-! ## Every turn keeps the invariant -/

theorem CounterInv.of_shared {k : Key} {n₀ : Int64} {w : Clients ι F} (h : CounterInv k n₀ w)
    {m : DashMap} (hm : m k = w.shared k) : CounterInv k n₀ { w with shared := m } := by
  refine ⟨?_, ?_, h.clients⟩
  · show NoDeadline (m k)
    rw [hm]
    exact h.fresh
  · show ∃ n, counterValue (m k) = some n ∧ n.toInt = countedFrom k n₀ w.replies
    rw [hm]
    exact h.value

section Turns

variable [DecidableEq ι] {k : Key} {n₀ : Int64} {w : Clients ι F}

/-- Going on with accesses that keep the key. -/
theorem CounterInv.resume_keeps (h : CounterInv k n₀ w) {i : ι} {c : StorageCommand} {began : Nat}
    {rest : StorageCall (CommandResult F)} (hc : ∀ delta, ¬ Counts k c delta)
    (hrest : rest.Keeps k NoDeadline fun _ => True) :
    CounterInv k n₀ (w.resume i c began rest) := by
  have hclients := World.all_resume h.clients i c began rest fun _ => .inr ⟨hc, hrest⟩
  refine ⟨by rw [World.resume_shared]; exact h.fresh, ?_, hclients⟩
  obtain ⟨result, _, _, hreplies⟩ | ⟨_, hreplies⟩ := World.resume_cases w i c began rest
  · rw [World.resume_shared, hreplies, countedFrom_append_of_not_counts hc]
    exact h.value
  · rw [World.resume_shared, hreplies]
    exact h.value

/-- A counting command is not over before its access. -/
theorem call_ne_done {c : StorageCommand} {delta : Int64} (h : Counts k c delta)
    (result : CommandResult F) : c.call ≠ .done result := by
  obtain ⟨rfl, _⟩ | ⟨rfl, _⟩ := h
  · exact fun hdone => by contradiction
  · exact fun hdone => by contradiction

theorem keeps_call_of_countsOnly {c : StorageCommand} (h : CountsOnly k c)
    (hc : ∀ delta, ¬ Counts k c delta) :
    (c.call : StorageCall (CommandResult F)).Keeps k NoDeadline fun _ => True := by
  obtain ⟨delta, hcounts⟩ | hreads | hkeys := h
  · exact absurd hcounts (hc delta)
  · exact keeps_call_of_reads (fun _ h => h) hreads
  · exact keeps_call_of_not_mem (fun _ h => h) hkeys

theorem CounterInv.begin (h : CounterInv k n₀ w) {i : ι} {c : StorageCommand}
    {todo : List StorageCommand} (hclient : w.clients i = ⟨c :: todo, none⟩) (began : Nat) :
    CounterInv k n₀
      ({ w with clients := update w.clients i ⟨todo, none⟩ }.resume i c began c.call) := by
  obtain ⟨hc, hclients⟩ := World.all_begin h.clients hclient
  have hrest : CounterInv k n₀ { w with clients := update w.clients i ⟨todo, none⟩ } :=
    ⟨h.fresh, h.value, hclients⟩
  by_cases hcounts : ∃ delta, Counts k c delta
  · obtain ⟨delta, hdelta⟩ := hcounts
    have hreplies : ({ w with clients := update w.clients i ⟨todo, none⟩ }.resume i c began
        c.call).replies = w.replies := by
      obtain ⟨result, hdone, _⟩ | ⟨_, hreplies⟩ := World.resume_cases
        { w with clients := update w.clients i ⟨todo, none⟩ } i c began (c.call : StorageCall _)
      · exact absurd hdone (call_ne_done hdelta result)
      · exact hreplies
    refine ⟨by rw [World.resume_shared]; exact h.fresh, ?_,
      World.all_resume hclients i c began c.call fun _ => .inl ⟨delta, hdelta, rfl⟩⟩
    rw [World.resume_shared, hreplies]
    exact h.value
  · have hnot : ∀ delta, ¬ Counts k c delta := fun delta hd => hcounts ⟨delta, hd⟩
    exact hrest.resume_keeps hnot (keeps_call_of_countsOnly hc hnot)

/-- The access of a counting command: it replies at once. -/
theorem CounterInv.count (h : CounterInv k n₀ w) {i : ι} {c : StorageCommand} {delta : Int64}
    (hc : Counts k c delta) (began : Nat) :
    CounterInv k n₀
      ({ w with
          shared := update w.shared k (Storage.incrEntry delta w.clock (w.shared k)).2 }.resume i c
        began (.done (counterResult (Storage.incrEntry delta w.clock (w.shared k)).1))) := by
  obtain ⟨n, hn, hcount⟩ := h.value
  obtain ⟨hfresh', n', hn', hsum⟩ := incrEntry_counts (F := F) h.fresh hn delta w.clock
  refine ⟨?_, ⟨n', ?_, ?_⟩, ?_⟩
  · show NoDeadline (update w.shared k _ k)
    rw [update_self]
    exact hfresh'
  · show counterValue (update w.shared k _ k) = some n'
    rw [update_self]
    exact hn'
  · show n'.toInt = countedFrom k n₀ (w.replies ++ [_])
    rw [countedFrom_append_of_counts hc, hsum, hcount]
  · exact World.all_resume h.clients i c began
      (.done (counterResult (Storage.incrEntry delta w.clock (w.shared k)).1))
      fun hdone => absurd rfl (hdone _)

theorem CounterInv.turn (h : CounterInv k n₀ w) (i : ι) :
    CounterInv k n₀ (w.turn StorageCommand.call i) := by
  obtain hidle | ⟨c, todo, hclient, hturn⟩ | ⟨todo, r, hclient, hturn⟩ :=
    World.turn_cases StorageCommand.call w i
  · rw [hidle]
    exact h
  · rw [hturn]
    exact h.begin hclient _
  · rw [hturn]
    obtain ⟨delta, hdelta, hrest⟩ | ⟨hnot, hkeeps⟩ :=
      (h.clients i).running r (by rw [hclient])
    · rw [hrest, advance_counts hdelta]
      exact h.count hdelta _
    · obtain ⟨hsame, hkeeps'⟩ := keeps_advance (m := w.shared) hkeeps h.fresh w.clock
      exact (h.of_shared hsame).resume_keeps hnot hkeeps'

/-- What a counting reply says: the counter right after it, or that the counter
was at its limit, where it stays. -/
def CountedExactly (limit : Int64) (before after : Option Entry) (response : Frame F) : Prop :=
  (∃ v, response = .integer v ∧ counterValue after = some v ∧ counterValue before ≠ some limit) ∨
    (∃ message, response = .error message ∧ counterValue before = some limit ∧ after = before)

/-- The limit of a counting command. -/
theorem checkedAdd_eq_none_of_counts {c : StorageCommand} {delta : Int64} (h : Counts k c delta)
    (n : Int64) : checkedAdd n delta = none ↔
      n = if c = .incr k then Int64.maxValue else Int64.minValue := by
  obtain ⟨rfl, rfl⟩ | ⟨rfl, rfl⟩ := h
  · simp [checkedAdd_one_eq_none]
  · simp [checkedAdd_neg_one_eq_none]

theorem countedExactly_of_counts {c : StorageCommand} {delta : Int64} {found : Option Entry}
    (hc : Counts k c delta) (hfresh : NoDeadline found) {n : Int64}
    (hn : counterValue found = some n) (now : Instant) :
    CountedExactly (if c = .incr k then Int64.maxValue else Int64.minValue) found
      (Storage.incrEntry delta now found).2
      (counterResult (Storage.incrEntry delta now found).1 : CommandResult F).response := by
  have hlimit := checkedAdd_eq_none_of_counts hc n
  obtain ⟨sum, hadd, hrun⟩ | ⟨hadd, hrun⟩ := incrEntry_cases hfresh hn delta now
  · rw [hrun]
    refine .inl ⟨sum, rfl, counterValue_toString sum, fun heq => ?_⟩
    rw [hn, Option.some.injEq, ← hlimit, hadd] at heq
    contradiction
  · rw [hrun]
    exact .inr ⟨_, rfl, by rw [hn, hlimit.mp hadd], rfl⟩

/-- A turn that answers a counting command has made its access. -/
theorem CounterInv.reply (h : CounterInv k n₀ w) {i : ι}
    {r : StorageReply ι F} {delta : Int64}
    (hreply : (w.turn StorageCommand.call i).replies = w.replies ++ [r])
    (hc : Counts k r.command delta) :
    CountedExactly (if r.command = .incr k then Int64.maxValue else Int64.minValue) (w.shared k)
      ((w.turn StorageCommand.call i).shared k) r.result.response := by
  obtain hidle | ⟨c, todo, hclient, hturn⟩ | ⟨todo, run, hclient, hturn⟩ :=
    World.turn_cases StorageCommand.call w i
  · rw [hidle] at hreply
    simp at hreply
  · rw [hturn] at hreply
    obtain ⟨result, hdone, _, hreplies⟩ | ⟨_, hreplies⟩ := World.resume_cases
      { w with clients := update w.clients i ⟨todo, none⟩ } i c w.replies.length
        (c.call : StorageCall _)
    · simp only [hreplies, List.append_cancel_left_eq, List.cons.injEq, and_true] at hreply
      rw [← hreply] at hc
      exact absurd hdone (call_ne_done hc result)
    · simp [hreplies] at hreply
  · obtain ⟨n, hn, _⟩ := h.value
    obtain ⟨delta', hdelta', hrest⟩ | ⟨hnot, _⟩ := (h.clients i).running run (by rw [hclient])
    · rw [hturn, hrest, advance_counts hdelta'] at hreply ⊢
      have hr : r = ⟨i, run.command, run.began, counterResult
          (Storage.incrEntry delta' w.clock (w.shared k)).1⟩ := by
        have happ : w.replies ++ [_] = w.replies ++ [r] := hreply
        exact (List.cons.inj (List.append_cancel_left happ)).1.symm
      rw [hr, World.resume_shared]
      show CountedExactly _ _ (update w.shared k _ k) _
      rw [update_self]
      exact countedExactly_of_counts hdelta' h.fresh hn w.clock
    · rw [hturn] at hreply
      obtain ⟨result, _, _, hreplies⟩ | ⟨_, hreplies⟩ := World.resume_cases
        { w with shared := (run.rest.advance w.clock w.shared).2 } i run.command run.began
          (run.rest.advance w.clock w.shared).1
      · simp only [hreplies, List.append_cancel_left_eq, List.cons.injEq, and_true] at hreply
        rw [← hreply] at hc
        exact absurd hc (hnot delta)
      · simp [hreplies] at hreply

end Turns

/-- **Counters are atomic.**  In every reachable world, whatever the clients run,
the counter is what the integer replies add up to; and every reply is the
counter right after it, or a refusal at the limit that changes nothing. -/
theorem counter_atomic [DecidableEq ι] {k : Key} {m : DashMap} {n₀ : Int64} {t : Instant}
    {program : ι → List StorageCommand} {w : Clients ι F} (hfresh : NoDeadline (m k))
    (hn : counterValue (m k) = some n₀) (hprogram : ∀ i, ∀ c ∈ program i, CountsOnly k c)
    (hw : (World.start m t program).Reaches StorageCommand.call w) :
    (∃ n, counterValue (w.shared k) = some n ∧ n.toInt = countedFrom k n₀ w.replies) ∧
      ∀ i r delta, (w.turn StorageCommand.call i).replies = w.replies ++ [r] →
        Counts k r.command delta →
        CountedExactly (if r.command = .incr k then Int64.maxValue else Int64.minValue)
          (w.shared k) ((w.turn StorageCommand.call i).shared k) r.result.response := by
  have hstart : CounterInv k n₀ (World.start m t program : Clients ι F) :=
    ⟨hfresh, ⟨n₀, hn, by simp [countedFrom, answered, World.start]⟩,
      fun i => ⟨hprogram i, fun _ hr => by contradiction⟩⟩
  have hinv : CounterInv k n₀ w :=
    hw.invariant_of_turn hstart (fun w t h => ⟨h.fresh, h.value, h.clients⟩) fun w i h => h.turn i
  exact ⟨hinv.value, fun i r delta hreply hc => hinv.reply hreply hc⟩

/-- Two clients count up and down at once. -/
def upAndDown : Clients Bool WholeDouble :=
  World.start (fun _ => none) .origin fun i =>
    if i then [.incr [0x6B], .get [0x6B]] else [.decr [0x6B], .del [[0x71]]]

/-- Both have begun, and the first has counted. -/
def countedUp : Clients Bool WholeDouble :=
  upAndDown.run StorageCommand.call [.turn true, .turn false, .turn true]

theorem counter_atomic_upAndDown :
    (∃ n, counterValue (countedUp.shared [0x6B]) = some n ∧
        n.toInt = countedFrom [0x6B] 0 countedUp.replies) ∧
      ∀ i r delta, (countedUp.turn StorageCommand.call i).replies = countedUp.replies ++ [r] →
        Counts [0x6B] r.command delta →
        CountedExactly (if r.command = .incr [0x6B] then Int64.maxValue else Int64.minValue)
          (countedUp.shared [0x6B]) ((countedUp.turn StorageCommand.call i).shared [0x6B])
          r.result.response := by
  refine counter_atomic (fun _ h => by contradiction) rfl (fun i c hc => ?_) ⟨_, rfl⟩
  cases i with
  | true =>
      obtain rfl | rfl : c = .incr [0x6B] ∨ c = .get [0x6B] := by simpa using hc
      · exact .inl ⟨1, .inl ⟨rfl, rfl⟩⟩
      · exact .inr (.inl trivial)
  | false =>
      obtain rfl | rfl : c = .decr [0x6B] ∨ c = .del [[0x71]] := by simpa using hc
      · exact .inl ⟨-1, .inr ⟨rfl, rfl⟩⟩
      · exact .inr (.inr (by decide))

end RalphDb
