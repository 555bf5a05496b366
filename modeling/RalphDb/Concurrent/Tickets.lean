import RalphDb.Base.Dispatch
import RalphDb.Concurrent.Counter

/-!
# RalphDb.Concurrent.Tickets

`INCR` as a source of numbers.

Clients that only increment a counter, read it or leave it alone use it to draw
numbers.  No number is drawn twice and none is left out: the integer replies to
`INCR k`, in the order of the replies, are the numbers after the counter's first
value (`tickets_reaches`).
-/

namespace RalphDb

open Base
open Function

variable {F ι : Type}

/-- What the clients may run: `INCR k`, reading commands, and commands that do not
name `k`. -/
def CountsUp (k : Key) (c : StorageCommand) : Prop := c = .incr k ∨ c.Reads ∨ k ∉ c.keys

theorem CountsUp.countsOnly {k : Key} {c : StorageCommand} (h : CountsUp k c) : CountsOnly k c :=
  h.imp_left fun heq => ⟨1, .inl ⟨heq, rfl⟩⟩

theorem not_countsUp_decr (k : Key) : ¬ CountsUp k (.decr k) := by
  intro h
  obtain h | h | h := h
  · contradiction
  · exact h
  · exact h (List.mem_singleton_self k)

/-- The number that a reply hands out. -/
def ticket (k : Key) (exchange : StorageCommand × CommandResult F) : Option Int :=
  if exchange.1 = .incr k then
    match exchange.2.response with
    | .integer v => some v.toInt
    | _ => none
  else none

/-- The numbers handed out, in order. -/
def tickets (k : Key) (history : List (StorageCommand × CommandResult F)) : List Int :=
  history.filterMap (ticket k)

/-- The first `n` numbers after `n₀`. -/
def numbersAfter (n₀ : Int64) (n : Nat) : List Int :=
  (List.range n).map fun j => n₀.toInt + (j + 1 : Nat)

theorem numbersAfter_succ (n₀ : Int64) (n : Nat) :
    numbersAfter n₀ (n + 1) = numbersAfter n₀ n ++ [n₀.toInt + (n + 1 : Nat)] := by
  rw [numbersAfter, List.range_succ, List.map_append]
  rfl

theorem pairwise_numbersAfter (n₀ : Int64) (n : Nat) : (numbersAfter n₀ n).Pairwise (· < ·) := by
  refine List.pairwise_map.mpr (List.pairwise_lt_range.imp fun {a b} hlt => ?_)
  omega

/-- The numbers in a reply are those of an integer reply to `INCR k`. -/
theorem tickets_append (k : Key) (history : List (StorageCommand × CommandResult F))
    (exchange : StorageCommand × CommandResult F) :
    tickets k (history ++ [exchange]) = tickets k history ++ (ticket k exchange).toList := by
  rw [tickets, List.filterMap_append]
  cases h : ticket k exchange <;> simp [tickets, h]

/-- The numbers handed out so far are the first after `n₀`. -/
def HandsOut (k : Key) (n₀ : Int64) (replies : List (StorageReply ι F)) : Prop :=
  tickets k (replies.map fun r => (r.command, r.result)) =
    numbersAfter n₀ (answered (.incr k) replies)

/-- A reply that hands out nothing. -/
theorem HandsOut.append_of_none {k : Key} {n₀ : Int64} {replies : List (StorageReply ι F)}
    (h : HandsOut k n₀ replies) {r : StorageReply ι F} (hr : ticket k (r.command, r.result) = none)
    (hcounted : (decide (r.command = .incr k) && r.result.response.isInteger) = false) :
    HandsOut k n₀ (replies ++ [r]) := by
  rw [HandsOut, List.map_append, List.map_singleton, tickets_append, hr, answered_append, hcounted,
    if_neg Bool.false_ne_true, Nat.add_zero, Option.toList_none, List.append_nil]
  exact h

section Reaches

variable [DecidableEq ι] {k : Key} {n₀ : Int64} {m : DashMap} {t : Instant}
  {program : ι → List StorageCommand} {w : Clients ι F}

/-- A turn makes at most one reply. -/
theorem replies_turn (w : Clients ι F) (i : ι) :
    (w.turn StorageCommand.call i).replies = w.replies ∨
      ∃ r, (w.turn StorageCommand.call i).replies = w.replies ++ [r] := by
  obtain hidle | ⟨c, todo, _, hturn⟩ | ⟨todo, r, _, hturn⟩ :=
    World.turn_cases StorageCommand.call w i
  · exact .inl (by rw [hidle])
  · rw [hturn]
    obtain ⟨result, _, _, hreplies⟩ | ⟨_, hreplies⟩ := World.resume_cases
      { w with clients := update w.clients i ⟨todo, none⟩ } i c w.replies.length
        (c.call : StorageCall _)
    · exact .inr ⟨_, hreplies⟩
    · exact .inl hreplies
  · rw [hturn]
    obtain ⟨result, _, _, hreplies⟩ | ⟨_, hreplies⟩ := World.resume_cases
      { w with shared := (r.rest.advance w.clock w.shared).2 } i r.command r.began
        (r.rest.advance w.clock w.shared).1
    · exact .inr ⟨_, hreplies⟩
    · exact .inl hreplies

/-- The counter in every reachable world. -/
theorem counterInv_reaches (hfresh : NoDeadline (m k)) (hn : counterValue (m k) = some n₀)
    (hprogram : ∀ i, ∀ c ∈ program i, CountsOnly k c)
    (hw : (World.start m t program).Reaches StorageCommand.call w) : CounterInv k n₀ w := by
  have hstart : CounterInv k n₀ (World.start m t program : Clients ι F) :=
    ⟨hfresh, ⟨n₀, hn, by simp [countedFrom, answered, World.start]⟩,
      fun i => ⟨hprogram i, fun _ hr => by contradiction⟩⟩
  exact hw.invariant_of_turn hstart (fun w t h => ⟨h.fresh, h.value, h.clients⟩)
    fun w i h => h.turn i

/-- Only commands of the programs are answered. -/
theorem command_mem_program (hw : (World.start m t program).Reaches StorageCommand.call w)
    {r : StorageReply ι F} (hr : r ∈ w.replies) : r.command ∈ program r.client := by
  have hmem : (r.command, r.result) ∈ exchanges w.replies r.client :=
    List.mem_map.mpr ⟨r, List.mem_filter.mpr ⟨hr, by simp⟩, rfl⟩
  rw [hw.accounts r.client]
  exact List.mem_append_left _ (List.mem_map.mpr ⟨_, hmem, rfl⟩)

/-- Nothing is decremented. -/
theorem answered_decr (hprogram : ∀ i, ∀ c ∈ program i, CountsUp k c)
    (hw : (World.start m t program).Reaches StorageCommand.call w) :
    answered (.decr k) w.replies = 0 := by
  refine List.countP_eq_zero.mpr fun r hr hcounted => ?_
  rw [Bool.and_eq_true, decide_eq_true_iff] at hcounted
  have hcommand := hprogram r.client _ (command_mem_program hw hr)
  rw [hcounted.1] at hcommand
  exact not_countsUp_decr k hcommand

/-- A reply hands out the next number, or none. -/
theorem HandsOut.reply (hprogram : ∀ i, ∀ c ∈ program i, CountsUp k c)
    (hw : (World.start m t program).Reaches StorageCommand.call w) (hinv : CounterInv k n₀ w)
    (h : HandsOut k n₀ w.replies) {i : ι} {r : StorageReply ι F}
    (hreply : (w.turn StorageCommand.call i).replies = w.replies ++ [r]) :
    HandsOut k n₀ (w.replies ++ [r]) := by
  by_cases hincr : r.command = .incr k
  · have hcounts : Counts k r.command 1 := .inl ⟨hincr, rfl⟩
    obtain ⟨v, hv, hafter, _⟩ | ⟨message, hmessage, _⟩ := hinv.reply hreply hcounts
    · -- the counter after the turn is the number
      obtain ⟨n, hn, hcount⟩ := (hinv.turn i).value
      obtain rfl : v = n := Option.some.inj (hafter.symm.trans hn)
      have hdecr : answered (.decr k) (w.replies ++ [r]) = 0 := by
        rw [← hreply]
        exact answered_decr hprogram (hw.turn i)
      have hcounted : answered (.incr k) (w.replies ++ [r]) =
          answered (.incr k) w.replies + 1 := by
        rw [answered_append, hincr, hv]
        simp [Frame.isInteger]
      rw [hreply, countedFrom, hdecr, hcounted] at hcount
      have hticket : ticket k (r.command, r.result) = some v.toInt := by simp [ticket, hincr, hv]
      rw [HandsOut, List.map_append, List.map_singleton, tickets_append, hticket, hcounted,
        numbersAfter_succ, h, hcount]
      simp
    · refine h.append_of_none ?_ ?_
      · simp [ticket, hmessage]
      · simp [Frame.isInteger, hmessage]
  · refine h.append_of_none ?_ ?_
    · simp [ticket, hincr]
    · simp [hincr]

/-- A reachable world and the numbers handed out. -/
structure Drawn (k : Key) (n₀ : Int64) (start w : Clients ι F) : Prop where
  reached : start.Reaches StorageCommand.call w
  handsOut : HandsOut k n₀ w.replies

/-- **Every number once**: in every reachable world the integer replies to `INCR k`
are the numbers after the first value of the counter, in order. -/
theorem tickets_reaches (hfresh : NoDeadline (m k)) (hn : counterValue (m k) = some n₀)
    (hprogram : ∀ i, ∀ c ∈ program i, CountsUp k c)
    (hw : (World.start m t program).Reaches StorageCommand.call w) : HandsOut k n₀ w.replies := by
  suffices hdrawn : Drawn k n₀ (World.start m t program) w from hdrawn.handsOut
  refine hw.invariant (?_ : Drawn k n₀ _ _) fun w a h => ?_
  · exact ⟨⟨[], rfl⟩, rfl⟩
  · refine ⟨h.reached.step a, ?_⟩
    cases a with
    | tick t' =>
        rw [World.step]
        split <;> exact h.handsOut
    | turn i =>
        obtain hsame | ⟨r, hreply⟩ := replies_turn w i
        · rw [World.step, hsame]
          exact h.handsOut
        · have hinv := counterInv_reaches hfresh hn (fun i c hc => (hprogram i c hc).countsOnly)
            h.reached
          rw [World.step, hreply]
          exact HandsOut.reply hprogram h.reached hinv h.handsOut hreply

end Reaches

end RalphDb
