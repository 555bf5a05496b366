import RalphDb.Protocol.Nesting
import RalphDb.Server.WaitFree
import Mathlib.Algebra.BigOperators.Fin

/-!
# RalphDb.Server.Drains

Every connection is answered.

What the server has still to do is bounded before it has read a byte: a connection
is accepted, taken and begun, and then takes a turn for each of its bytes at most
(`Server.Owes`).  Nothing adds to that, and whatever an action changes takes one
off.  So when accepting, taking and serving all come round again (`FairRound`), in
any order and with anything else in between, the server is done after as many
rounds (`serve_drains`).

The decoder calls itself for every level of a frame, and a thread that runs out of
stack takes the process with it.  So this is about connections that the stack of a
thread holds (`Job.NestsWithin`; one call for every three bytes is always enough),
and with them no thread runs out of its stack on the way (`Server.RunsWithin`).
-/

namespace RalphDb

open Base
open Function

variable {threads : Nat} {F : Type}

/-! ## The stack of a thread -/

section Stack

variable (F) [F64 F] (env : Environment)

/-- The loop of a connection comes from one reader and state to another. -/
inductive ComesTo : Reader → ConnectionState → Reader → ConnectionState → Prop
  | here (reader : Reader) (state : ConnectionState) : ComesTo reader state reader state
  | answered {reader reader' reader'' : Reader} {state state' state'' : ConnectionState}
      {frame : Frame F} (decoded : decodeFrame.run reader = (.ok frame, reader'))
      (goes : (planFrame env frame state).2 = some state')
      (rest : ComesTo reader' state' reader'' state'') : ComesTo reader state reader'' state''
  | malformed {reader reader' reader'' : Reader} {state state'' : ConnectionState} {err : IoError}
      (decoded : (decodeFrame : Read (Frame F)).run reader = (.error err, reader'))
      (goes : endsLoop err = false)
      (rest : ComesTo reader' state reader'' state'') : ComesTo reader state reader'' state''

/-- Wherever the loop of the connection decodes, a stack for `levels` calls of the
decoder inside each other is as good as an unbounded one. -/
def Job.NestsWithin (levels : Nat) (job : Job) : Prop :=
  ∀ reader state, ComesTo F env job.reader (.fresh job.clientId) reader state →
    (decodeFrameWithin levels : Read (Frame F)).run reader = decodeFrame.run reader

/-- All connections that the listener may yield nest so, whatever their client id. -/
def AllNestWithin (levels : Nat) (incoming : List (Except IoError Stream)) : Prop :=
  ∀ stream ∈ accepted incoming, ∀ clientId, (stream.job clientId).NestsWithin F env levels

/-- The action does not run a thread out of its stack: the stack of the thread that
goes on holds the connection that it is serving. -/
def Server.Survives (levels : Nat) (s : Server threads F) : ServerAction threads → Prop
  | .work (.turn i) =>
      ∀ job ∈ (s.workers.clients i).running.toList.map Running.command ++
        (s.workers.clients i).todo, job.NestsWithin F env levels
  | _ => True

/-- No action does. -/
def Server.RunsWithin (levels : Nat) : List (ServerAction threads) → Server threads F → Prop
  | [], _ => True
  | a :: actions, s => s.Survives F env levels a ∧ RunsWithin levels actions (s.step env a)

variable {F} {env}

theorem ComesTo.size_le {reader reader' : Reader} {state state' : ConnectionState}
    (h : ComesTo F env reader state reader' state') : reader'.size ≤ reader.size := by
  induction h with
  | here reader state => exact Nat.le_refl _
  | answered decoded goes rest ih =>
      have hlt := size_lt_of_run decoded fun _ heq => by contradiction
      exact Nat.le_trans ih (Nat.le_of_lt hlt)
  | malformed decoded goes rest ih =>
      have hlt := size_lt_of_run decoded fun err heq => by rw [← Except.error.inj heq, goes]
      exact Nat.le_trans ih (Nat.le_of_lt hlt)

/-- A level costs three bytes. -/
theorem nestsWithin_of_size {levels : Nat} {job : Job} (h : job.reader.size < 3 * levels) :
    job.NestsWithin F env levels :=
  fun _ _ hcomes => decodeFrameWithin_run (Nat.lt_of_le_of_lt hcomes.size_le h)

/-- The threads are given connections that the listener has yielded. -/
theorem Dispatched.survives {m : DashMap} {t : Instant} {incoming : List (Except IoError Stream)}
    {program : Fin threads → List Job} {dropped : List Stream} {s : Server threads F}
    (h : Dispatched env m t incoming program dropped s) {levels : Nat}
    (hstack : AllNestWithin F env levels incoming) (a : ServerAction threads) :
    s.Survives F env levels a := by
  cases a with
  | accept => exact trivial
  | take i k => exact trivial
  | work a =>
      cases a with
      | tick t => exact trivial
      | turn i =>
          intro job hjob
          have hgiven : job ∈ program i := by
            rw [h.workers.accounts i]
            exact List.mem_append_right _ hjob
          exact hstack job.stream (h.mem_accepted hgiven) job.clientId

/-- **No stack is overflowed** by connections that nest within it. -/
theorem runsWithin_of_reaches {m : DashMap} {t : Instant}
    {incoming : List (Except IoError Stream)} {levels : Nat}
    (hstack : AllNestWithin F env levels incoming) (actions : List (ServerAction threads))
    {s : Server threads F} (hs : (Server.new m t incoming).Reaches env s) :
    s.RunsWithin F env levels actions := by
  induction actions generalizing s with
  | nil => exact trivial
  | cons a actions ih =>
      obtain ⟨program, dropped, h⟩ := dispatched_reaches hs
      exact ⟨h.survives hstack a, ih (hs.step a)⟩

end Stack

/-! ## What the server owes -/

section Owes

/-- The turns that an item of the listener costs, at most. -/
def arrivalCost : Except IoError Stream → Nat
  | .ok stream => stream.reader.size + 3
  | .error _ => 1

/-- The turns that all of them cost. -/
def work (incoming : List (Except IoError Stream)) : Nat := (incoming.map arrivalCost).sum

/-- The turns that the queue costs. -/
def queueWork (queue : List Stream) : Nat := (queue.map fun stream => stream.reader.size + 2).sum

namespace Server

/-- Nothing is left to do. -/
structure Drained (s : Server threads F) : Prop where
  incoming : s.incoming = []
  queue : s.queue = []
  idle : ∀ i, s.workers.clients i = ⟨[], none⟩

/-- The server is done after `n` actions that change something, at most. -/
def Owes (s : Server threads F) (n : Nat) : Prop :=
  ∃ left : Fin threads → Nat,
    (∀ i, (s.workers.clients i).Owes (fun job : Job => job.reader.size) (left i)) ∧
    work s.incoming + queueWork s.queue + ∑ i, left i ≤ n

/-- But for the clock, the store and the answers. -/
structure Same (s s' : Server threads F) : Prop where
  incoming : s'.incoming = s.incoming
  queue : s'.queue = s.queue
  clients : s'.workers.clients = s.workers.clients

variable {s s' : Server threads F} {n : Nat} {i : Fin threads}

theorem Owes.mono {n' : Nat} (h : s.Owes n) (hle : n ≤ n') : s.Owes n' := by
  obtain ⟨left, hleft, hprice⟩ := h
  exact ⟨left, hleft, Nat.le_trans hprice hle⟩

theorem Owes.same (h : s.Owes n) (hsame : s.Same s') : s'.Owes n := by
  obtain ⟨left, hleft, hprice⟩ := h
  refine ⟨left, fun i => ?_, ?_⟩
  · rw [hsame.clients]
    exact hleft i
  · rwa [hsame.incoming, hsame.queue]

/-- A server that owes nothing is done. -/
theorem Owes.drained (h : s.Owes 0) : s.Drained := by
  obtain ⟨left, hleft, hprice⟩ := h
  have hincoming : work s.incoming = 0 := by omega
  have hqueue : queueWork s.queue = 0 := by omega
  have hsum : ∑ i, left i = 0 := by omega
  refine ⟨?_, ?_, fun i => ?_⟩
  · cases hs : s.incoming with
    | nil => rfl
    | cons item incoming =>
        rw [hs, work, List.map_cons, List.sum_cons] at hincoming
        cases item <;> simp [arrivalCost] at hincoming
  · cases hs : s.queue with
    | nil => rfl
    | cons stream queue =>
        rw [hs, queueWork, List.map_cons, List.sum_cons] at hqueue
        omega
  · have hzero : left i = 0 := Finset.sum_eq_zero_iff.mp hsum i (Finset.mem_univ i)
    exact (hleft i).idle hzero

theorem Drained.owes (h : s.Drained) : s.Owes 0 := by
  refine ⟨fun _ => 0, fun i => ?_, ?_⟩
  · rw [h.idle i]
    exact Client.owes_idle 0
  · rw [h.incoming, h.queue, Finset.sum_const_zero]
    exact Nat.le_refl 0

/-- At first all of it is in what the listener will yield. -/
theorem owes_new (m : DashMap) (t : Instant) (incoming : List (Except IoError Stream)) :
    (Server.new m t incoming : Server threads F).Owes (work incoming) := by
  refine ⟨fun _ => 0, fun i => Client.owes_idle 0, ?_⟩
  rw [Finset.sum_const_zero]
  exact Nat.le_refl _

/-! ### Accepting and taking -/

theorem Owes.accept (h : s.Owes n) (hne : s.incoming ≠ []) : s.accept.Owes (n - 1) := by
  obtain ⟨left, hleft, hprice⟩ := h
  obtain ⟨item, incoming, hincoming⟩ := List.exists_cons_of_ne_nil hne
  rw [hincoming, work, List.map_cons, List.sum_cons] at hprice
  rw [Server.accept, hincoming]
  cases item with
  | error err =>
      refine ⟨left, hleft, ?_⟩
      simp only [arrivalCost] at hprice
      simp only [work]
      omega
  | ok stream =>
      refine ⟨left, hleft, ?_⟩
      simp only [arrivalCost, queueWork] at hprice
      simp only [work, queueWork, List.map_append, List.map_singleton, List.sum_append,
        List.sum_singleton]
      omega

/-- One term of a sum changes. -/
theorem sum_left_update (left : Fin threads → Nat) (i : Fin threads) (k : Nat) :
    ∑ j, update left i k j + left i = ∑ j, left j + k := by
  rw [Finset.sum_update_of_mem (Finset.mem_univ i), Finset.sdiff_singleton_eq_erase]
  have herase := Finset.add_sum_erase Finset.univ left (Finset.mem_univ i)
  omega

/-- The queue without the connection at place `k`. -/
theorem queueWork_eraseIdx {queue : List Stream} {k : Nat} (hk : k < queue.length) :
    queueWork queue = queue[k].reader.size + 2 + queueWork (queue.eraseIdx k) := by
  have hperm : (queue[k] :: queue.eraseIdx k).Perm queue := List.getElem_cons_eraseIdx_perm hk
  rw [queueWork, ← (hperm.map fun stream => stream.reader.size + 2).sum_eq, List.map_cons,
    List.sum_cons]
  rfl

/-- A connection is begun, or dropped. -/
theorem Owes.handle {stream : Stream} (h : s.Owes n) (i : Fin threads) :
    (s.handle i stream).Owes (n + (stream.reader.size + 1)) := by
  obtain ⟨left, hleft, hprice⟩ := h
  rw [Server.handle]
  split
  · exact ⟨left, hleft, Nat.le_add_right_of_le hprice⟩
  · refine ⟨update left i (left i + (stream.reader.size + 1)), ?_, ?_⟩
    · show ∀ j, (World.assignTo s.workers.clients i _ j).Owes _ _
      intro j
      by_cases hj : j = i
      · subst hj
        rw [World.assignTo, update_self, update_self]
        exact (hleft j).assign _
      · rw [World.assignTo, update_of_ne hj, update_of_ne hj]
        exact hleft j
    · have hsum := sum_left_update left i (left i + (stream.reader.size + 1))
      show work s.incoming + queueWork s.queue + _ ≤ _
      omega

theorem Owes.take (h : s.Owes n) (hidle : s.workers.clients i = ⟨[], none⟩) {k : Nat}
    (hk : k < s.queue.length) : (s.take i k).Owes (n - 1) := by
  obtain ⟨left, hleft, hprice⟩ := h
  rw [queueWork_eraseIdx hk] at hprice
  have hrest : ({ s with queue := s.queue.eraseIdx k } : Server threads F).Owes
      (n - (s.queue[k].reader.size + 2)) := by
    refine ⟨left, hleft, ?_⟩
    show work s.incoming + queueWork (s.queue.eraseIdx k) + _ ≤ _
    omega
  have htake : s.take i k = { s with queue := s.queue.eraseIdx k }.handle i s.queue[k] := by
    rw [Server.take, hidle, List.getElem?_eq_getElem hk]
  rw [htake]
  exact (hrest.handle i).mono (by omega)

/-! ### Going on -/

/-- The action finds nothing to do. -/
def Stalls (s : Server threads F) : ServerAction threads → Prop
  | .accept => s.incoming = []
  | .take i k => s.workers.clients i = ⟨[], none⟩ → s.queue.length ≤ k
  | .work (.turn i) => s.workers.clients i = ⟨[], none⟩
  | .work (.tick _) => True

theorem Stalls.same {a : ServerAction threads} (h : s'.Stalls a) (hsame : s.Same s') :
    s.Stalls a := by
  cases a with
  | accept => exact hsame.incoming.symm.trans h
  | take i k => exact fun hidle => hsame.queue ▸ h (by rw [hsame.clients, hidle])
  | work a =>
      cases a with
      | tick t => exact trivial
      | turn i => exact (congrFun hsame.clients i).symm.trans h

variable [F64 F] {env : Environment}

theorem Owes.turn (h : s.Owes n) (hbusy : s.workers.clients i ≠ ⟨[], none⟩) :
    (s.step env (.work (.turn i))).Owes (n - 1) := by
  obtain ⟨left, hleft, hprice⟩ := h
  obtain ⟨k, hk⟩ : ∃ k, left i = k + 1 :=
    Nat.exists_eq_succ_of_ne_zero fun hzero => hbusy ((hleft i).idle hzero)
  refine ⟨update left i k, fun j => ?_, ?_⟩
  · show ((s.workers.turn (connectionCall env) i).clients j).Owes _ _
    by_cases hj : j = i
    · subst hj
      rw [update_self]
      exact World.owes_turn bounded_connectionCall (hk ▸ hleft j)
    · rw [update_of_ne hj, World.clients_turn_of_ne _ hj]
      exact hleft j
  · have hsum := sum_left_update left i k
    show work s.incoming + queueWork s.queue + _ ≤ _
    omega

/-- An action that stalls does nothing. -/
theorem Stalls.step {a : ServerAction threads} (h : s.Stalls a) : s.Same (s.step env a) := by
  have hrefl : s.Same s := ⟨rfl, rfl, rfl⟩
  cases a with
  | accept =>
      rw [Server.step, Server.accept, show s.incoming = [] from h]
      exact hrefl
  | take i k =>
      rw [Server.step, Server.take]
      split
      · next hidle hk =>
          rw [List.getElem?_eq_none (h hidle)] at hk
          contradiction
      · exact hrefl
  | work a =>
      cases a with
      | tick t =>
          rw [Server.step, World.step]
          split <;> exact ⟨rfl, rfl, rfl⟩
      | turn i =>
          have hturn : s.workers.turn (connectionCall env) i = s.workers := by
            rw [World.turn, show s.workers.clients i = ⟨[], none⟩ from h]
          rw [Server.step, World.step, hturn]
          exact hrefl

/-- **Every other action takes one off.** -/
theorem Owes.progress {a : ServerAction threads} (h : s.Owes n) (ha : ¬ s.Stalls a) :
    (s.step env a).Owes (n - 1) := by
  cases a with
  | accept => exact h.accept ha
  | take i k =>
      obtain ⟨hidle, hk⟩ := Classical.not_imp.mp ha
      exact h.take hidle (Nat.lt_of_not_le hk)
  | work a =>
      cases a with
      | tick t => exact absurd trivial ha
      | turn i => exact h.turn ha

theorem Owes.step (h : s.Owes n) (a : ServerAction threads) : (s.step env a).Owes n := by
  by_cases ha : s.Stalls a
  · exact h.same ha.step
  · exact (h.progress ha).mono (Nat.sub_le n 1)

theorem Owes.steps (h : s.Owes n) (actions : List (ServerAction threads)) :
    (actions.foldl (Server.step env) s).Owes n := by
  induction actions generalizing s with
  | nil => exact h
  | cons a actions ih => exact ih (h.step a)

/-- Some action that has something to do is enough, whatever comes before it. -/
theorem Owes.progress_of_mem {a : ServerAction threads} {actions : List (ServerAction threads)}
    (h : s.Owes n) (hmem : a ∈ actions) (ha : ¬ s.Stalls a) :
    (actions.foldl (Server.step env) s).Owes (n - 1) := by
  induction actions generalizing s with
  | nil => contradiction
  | cons b actions ih =>
      by_cases hb : s.Stalls b
      · have hsame : s.Same (s.step env b) := hb.step
        obtain rfl | hmem := List.mem_cons.mp hmem
        · exact absurd hb ha
        · exact ih (h.same hsame) hmem fun hstalls => ha (hstalls.same hsame)
      · exact (h.progress hb).steps actions

end Server

end Owes

/-! ## Rounds -/

/-- Actions among which the server accepts, some thread takes from the queue and
every thread goes on, in any order and with any others. -/
structure FairRound (round : List (ServerAction threads)) : Prop where
  accepts : .accept ∈ round
  takes : ∃ i, .take i 0 ∈ round
  turns : ∀ i, .work (.turn i) ∈ round

/-- Accept, take and go on. -/
def eachOnce (i : Fin threads) : List (ServerAction threads) :=
  .accept :: .take i 0 :: (List.finRange threads).map fun j => .work (.turn j)

theorem fairRound_eachOnce (i : Fin threads) : FairRound (eachOnce i) where
  accepts := List.mem_cons_self
  takes := ⟨i, List.mem_cons_of_mem _ List.mem_cons_self⟩
  turns j := List.mem_cons_of_mem _ (List.mem_cons_of_mem _
    (List.mem_map.mpr ⟨j, List.mem_finRange j, rfl⟩))

/-- A server that finds nothing to do in a whole round is done. -/
theorem FairRound.drained {s : Server threads F} {round : List (ServerAction threads)}
    (h : FairRound round) (hstalls : ∀ a ∈ round, s.Stalls a) : s.Drained := by
  have hidle : ∀ i, s.workers.clients i = ⟨[], none⟩ := fun i => hstalls _ (h.turns i)
  obtain ⟨i, htake⟩ := h.takes
  have hqueue : s.queue.length ≤ 0 := hstalls _ htake (hidle i)
  exact ⟨hstalls _ h.accepts, List.length_eq_zero_iff.mp (Nat.le_zero.mp hqueue), hidle⟩

section Rounds

variable [F64 F] {env : Environment} {m : DashMap} {t : Instant}
  {incoming : List (Except IoError Stream)} {s : Server threads F} {n : Nat}

/-- **A round takes one off.** -/
theorem FairRound.owes {round : List (ServerAction threads)} (h : FairRound round)
    (howes : s.Owes n) : (round.foldl (Server.step env) s).Owes (n - 1) := by
  by_cases hstalls : ∀ a ∈ round, s.Stalls a
  · exact ((h.drained hstalls).owes.steps round).mono (Nat.zero_le _)
  · obtain ⟨a, ha⟩ := Classical.not_forall.mp hstalls
    obtain ⟨hmem, ha⟩ := Classical.not_imp.mp ha
    exact howes.progress_of_mem hmem ha

theorem owes_rounds {rounds : List (List (ServerAction threads))}
    (hrounds : ∀ round ∈ rounds, FairRound round) (h : s.Owes n) :
    (rounds.flatten.foldl (Server.step env) s).Owes (n - rounds.length) := by
  induction rounds generalizing s n with
  | nil => exact h
  | cons round rounds ih =>
      obtain ⟨hround, hrest⟩ := List.forall_mem_cons.mp hrounds
      rw [List.flatten_cons, List.foldl_append, List.length_cons, Nat.add_comm, ← Nat.sub_sub]
      exact ih hrest (hround.owes h)

/-- What a server owes that has been reached. -/
theorem owes_reaches (hs : (Server.new m t incoming : Server threads F).Reaches env s) :
    s.Owes (work incoming) :=
  hs.invariant (P := fun s => s.Owes (work incoming)) (Server.owes_new m t incoming)
    fun _ a h => h.step a

/-- A server that is done has answered every connection, or dropped it. -/
theorem Dispatched.answered {program : Fin threads → List Job} {dropped : List Stream}
    (h : Dispatched env m t incoming program dropped s) (hs : s.Drained) :
    (together (fun i => (exchanges s.workers.replies i).map fun exchange => exchange.1.stream) ++
      dropped).Perm (accepted incoming) := by
  have hprogram : ∀ i, program i = (exchanges s.workers.replies i).map Prod.fst := by
    intro i
    have haccounts := h.workers.accounts i
    rw [hs.idle i] at haccounts
    simpa using haccounts
  have hstreams := h.streams
  simp only [hs.queue, hs.incoming, accepted, together, List.filterMap_nil, List.append_nil,
    List.map_flatMap, hprogram, List.map_map] at hstreams
  exact hstreams

/-- **The server gets done.**  Whatever connections the listener yields that the
stack of a thread holds, and whatever the server has reached: when it accepts,
takes and goes on round after round, then no thread runs out of its stack, and
after as many rounds as the connections have bytes, and three for each, every
connection has been answered once, by one thread, or was dropped because it could
not be prepared. -/
theorem serve_drains {levels : Nat} (hstack : AllNestWithin F env levels incoming)
    (hs : (Server.new m t incoming : Server threads F).Reaches env s)
    {rounds : List (List (ServerAction threads))} (hrounds : ∀ round ∈ rounds, FairRound round)
    (hwork : work incoming ≤ rounds.length) :
    s.RunsWithin F env levels rounds.flatten ∧
      (rounds.flatten.foldl (Server.step env) s).Drained ∧
      ∃ dropped : List Stream, (∀ stream ∈ dropped, ∃ err, stream.prepared = .error err) ∧
        (together (fun i => (exchanges (rounds.flatten.foldl (Server.step env) s).workers.replies
          i).map fun exchange => exchange.1.stream) ++ dropped).Perm (accepted incoming) := by
  have howes : (rounds.flatten.foldl (Server.step env) s).Owes (work incoming - rounds.length) :=
    owes_rounds hrounds (owes_reaches hs)
  rw [Nat.sub_eq_zero_of_le hwork] at howes
  have hreaches : s.Reaches env (rounds.flatten.foldl (Server.step env) s) := ⟨_, rfl⟩
  obtain ⟨program, dropped, h⟩ := dispatched_reaches (hs.trans hreaches)
  exact ⟨runsWithin_of_reaches hstack rounds.flatten hs, howes.drained, dropped, h.failed,
    h.answered howes.drained⟩

end Rounds

theorem allNestWithin_threeStreams :
    AllNestWithin WholeDouble ⟨none, none, none, none⟩ 3 threeStreams := by
  have hsizes : ∀ stream ∈ accepted threeStreams, stream.reader.size < 3 * 3 := by decide
  exact fun stream hstream clientId => nestsWithin_of_size (hsizes stream hstream)

theorem serve_drains_twoThreads :
    (twoThreads threeStreams).RunsWithin WholeDouble ⟨none, none, none, none⟩ 3
        (List.replicate 20 (eachOnce (Fin.last 1))).flatten ∧
      ((List.replicate 20 (eachOnce (Fin.last 1))).flatten.foldl
        (Server.step ⟨none, none, none, none⟩) (twoThreads threeStreams)).Drained ∧
      ∃ dropped : List Stream, (∀ stream ∈ dropped, ∃ err, stream.prepared = .error err) ∧
        (together (fun i => (exchanges ((List.replicate 20 (eachOnce (Fin.last 1))).flatten.foldl
            (Server.step ⟨none, none, none, none⟩) (twoThreads threeStreams)).workers.replies
          i).map fun exchange => exchange.1.stream) ++ dropped).Perm (accepted threeStreams) := by
  have hrounds : ∀ round ∈ List.replicate 20 (eachOnce (Fin.last 1)), FairRound round := by
    intro round hround
    rw [List.eq_of_mem_replicate hround]
    exact fairRound_eachOnce _
  have hwork : work threeStreams ≤ (List.replicate 20 (eachOnce (Fin.last 1))).length := by
    rw [List.length_replicate]
    decide
  exact serve_drains allNestWithin_threeStreams ⟨_, rfl⟩ hrounds hwork

end RalphDb
