import RalphDb.Base.Dispatch
import Mathlib.Algebra.GroupWithZero.Nat

/-!
# RalphDb.Base.Bounded

Calls of bounded length, and clients that nobody holds up.

A call is `Bounded n` if it is over after `n` steps, whatever it reads.  An
access never waits for another client, so a command is answered after as many
turns of *its own client* as its call has steps: what the others do in between
is no hindrance (`World.Due.turn`, `World.Due.step_of_ne`).

So a client has only so many turns to go (`Client.Owes`): its own lower them by
one, and with none to go it is idle.
-/

namespace Base

open Function

namespace Call

variable {κ ε τ α β ω ρ : Type} {m n : Nat}

/-- The call takes at most `n` steps, whatever it reads. -/
def Bounded : Nat → Call κ ε τ α → Prop
  | _, done _ => True
  | 0, _ => False
  | n + 1, now next => ∀ t, (next t).Bounded n
  | n + 1, access _ _ next => ∀ t entry, (next t entry).Bounded n

theorem bounded_pure (n : Nat) (a : α) : (pure a : Call κ ε τ α).Bounded n := by
  show Bounded n (done a)
  cases n <;> exact trivial

theorem bounded_readClock : (readClock : Call κ ε τ τ).Bounded 1 := fun _ => trivial

theorem bounded_atomic (key : κ) (f : τ → Option ε → α × Option ε) : (atomic key f).Bounded 1 :=
  fun _ _ => trivial

theorem Bounded.mono {x : Call κ ε τ α} (h : x.Bounded m) (hmn : m ≤ n) : x.Bounded n := by
  induction x generalizing m n with
  | done a => exact bounded_pure n a
  | now next ih =>
      obtain _ | m := m
      · exact h.elim
      · obtain _ | n := n
        · contradiction
        · exact fun t => ih t (h t) (Nat.le_of_succ_le_succ hmn)
  | access key act next ih =>
      obtain _ | m := m
      · exact h.elim
      · obtain _ | n := n
        · contradiction
        · exact fun t entry => ih t entry (h t entry) (Nat.le_of_succ_le_succ hmn)

/-- The steps of a sequence add up. -/
theorem bounded_bind {x : Call κ ε τ α} {f : α → Call κ ε τ β} (hx : x.Bounded m)
    (hf : ∀ a, (f a).Bounded n) : (x >>= f).Bounded (m + n) := by
  show (x.bind f).Bounded (m + n)
  induction x generalizing m with
  | done a => exact (hf a).mono (Nat.le_add_left n m)
  | now next ih =>
      obtain _ | m := m
      · exact hx.elim
      · rw [Nat.add_right_comm]
        exact fun t => ih t (hx t)
  | access key act next ih =>
      obtain _ | m := m
      · exact hx.elim
      · rw [Nat.add_right_comm]
        exact fun t entry => ih t entry (hx t entry)

/-- What is made of an answer takes no step. -/
theorem bounded_bind_pure {x : Call κ ε τ α} (hx : x.Bounded n) (f : α → β) :
    (x >>= fun a => pure (f a)).Bounded n :=
  bounded_bind hx fun a => bounded_pure 0 (f a)

theorem bounded_inOrder {call : ω → Call κ ε τ ρ} {cost : ω → Nat}
    (h : ∀ c, (call c).Bounded (cost c)) (cs : List ω) :
    (inOrder call cs).Bounded (cs.map cost).sum := by
  induction cs with
  | nil => exact bounded_pure _ _
  | cons c cs ih => exact bounded_bind (h c) fun _ => bounded_bind_pure ih _

/-- A call without a step left is over. -/
theorem Bounded.over {x : Call κ ε τ α} (h : x.Bounded 0) : ∃ a, x = .done a := by
  cases x with
  | done a => exact ⟨a, rfl⟩
  | now next => exact h.elim
  | access key act next => exact h.elim

/-- A call that is not over has a step left, and one less after it. -/
theorem bounded_advance [DecidableEq κ] {x : Call κ ε τ α} (h : x.Bounded n) (hlive : x.Live)
    (t : τ) (m : SharedMap κ ε) : ∃ n', n = n' + 1 ∧ (x.advance t m).1.Bounded n' := by
  cases x with
  | done a => exact absurd rfl (hlive a)
  | now next =>
      obtain _ | n := n
      · exact h.elim
      · exact ⟨n, rfl, h t⟩
  | access key act next =>
      obtain _ | n := n
      · exact h.elim
      · exact ⟨n, rfl, h t (m key)⟩

end Call

/-! ## Turns of one client -/

section Turns

variable {ι κ ε τ ω ρ : Type} {call : ω → Call κ ε τ ρ} {cost : ω → Nat} {i j : ι}
  {c : ω} {floor n : Nat} {w : World ι κ ε τ ω ρ}

namespace World

/-- Client `i` has replied to a command `c` that it began after `floor` replies,
or does so in at most `n` of its turns. -/
inductive Due (cost : ω → Nat) (i : ι) (c : ω) (floor n : Nat) (w : World ι κ ε τ ω ρ) : Prop
  | waiting (todo : List ω) (client : w.clients i = ⟨c :: todo, none⟩)
      (later : floor ≤ w.replies.length) (turns : cost c + 1 ≤ n)
  | running (todo : List ω) (began : Nat) (rest : Call κ ε τ ρ)
      (client : w.clients i = ⟨todo, some ⟨c, began, rest⟩⟩) (live : rest.Live)
      (later : floor ≤ began) (turns : rest.Bounded n)
  | replied (r : Reply ι ω ρ) (reply : r ∈ w.replies) (client : r.client = i)
      (command : r.command = c) (later : floor ≤ r.began)

/-- With no turn to go, the client has replied. -/
theorem Due.over (h : w.Due cost i c floor 0) :
    ∃ r ∈ w.replies, r.client = i ∧ r.command = c ∧ floor ≤ r.began := by
  cases h with
  | waiting todo client later turns => contradiction
  | running todo began rest client live later turns =>
      obtain ⟨a, ha⟩ := turns.over
      exact absurd ha (live a)
  | replied r reply client command later => exact ⟨r, reply, client, command, later⟩

/-- What others do is no hindrance, as long as it leaves the client and the
replies alone; the client may be given more commands. -/
theorem Due.frame {w' : World ι κ ε τ ω ρ} (h : w.Due cost i c floor n)
    (hclient : ∃ more, w'.clients i = ⟨(w.clients i).todo ++ more, (w.clients i).running⟩)
    (hreplies : w.replies ⊆ w'.replies) (hlength : w.replies.length ≤ w'.replies.length) :
    w'.Due cost i c floor n := by
  obtain ⟨more, hclient⟩ := hclient
  cases h with
  | waiting todo client later turns =>
      rw [client] at hclient
      exact .waiting (todo ++ more) hclient (later.trans hlength) turns
  | running todo began rest client live later turns =>
      rw [client] at hclient
      exact .running (todo ++ more) began rest hclient live later turns
  | replied r reply client command later =>
      exact .replied r (hreplies reply) client command later

variable [DecidableEq ι]

/-- The client goes on with the call. -/
theorem due_resume {began : Nat} {rest : Call κ ε τ ρ} (hlater : floor ≤ began)
    (hrest : rest.Bounded n) : (w.resume i c began rest).Due cost i c floor n := by
  cases rest with
  | done a => exact .replied ⟨i, c, began, a⟩ (by simp [resume]) rfl rfl hlater
  | now next =>
      exact .running _ began _ (update_self i _ _) (fun _ h => by contradiction) hlater hrest
  | access key act next =>
      exact .running _ began _ (update_self i _ _) (fun _ h => by contradiction) hlater hrest

/-- Another command for some client. -/
theorem Due.assign (h : w.Due cost i c floor n) (j : ι) (d : ω) :
    (w.assign j d).Due cost i c floor n :=
  h.frame ⟨_, assignTo_apply w.clients j i d⟩ (List.Subset.refl _) (Nat.le_refl _)

variable [DecidableEq κ]

theorem length_replies_turn (call : ω → Call κ ε τ ρ) (w : World ι κ ε τ ω ρ) (i : ι) :
    w.replies.length ≤ (w.turn call i).replies.length := by
  refine turn_preserves (P := fun w' => w.replies.length ≤ w'.replies.length) (Nat.le_refl _)
    (fun _ _ _ => Nat.le_refl _) (fun _ _ _ => Nat.le_refl _) fun w' todo c began result h _ => ?_
  rw [List.length_append]
  exact Nat.le_add_right_of_le h

/-- A turn of another client. -/
theorem Due.turn_of_ne (h : w.Due cost i c floor n) (hj : i ≠ j) :
    (w.turn call j).Due cost i c floor n := by
  refine h.frame ⟨[], ?_⟩ (replies_subset_turn call w j) (length_replies_turn call w j)
  rw [clients_turn_of_ne call hj, List.append_nil]

/-- **A turn of the client itself** is one less to go. -/
theorem Due.turn (hcost : (call c).Bounded (cost c)) (h : w.Due cost i c floor (n + 1)) :
    (w.turn call i).Due cost i c floor n := by
  cases h with
  | waiting todo client later turns =>
      rw [World.turn, client]
      exact due_resume later (hcost.mono (Nat.le_of_succ_le_succ turns))
  | running todo began rest client live later turns =>
      obtain ⟨n', hn, hrest⟩ := Call.bounded_advance turns live w.clock w.shared
      obtain rfl := Nat.succ.inj hn
      rw [World.turn, client]
      cases todo <;> exact due_resume later hrest
  | replied r reply client command later =>
      exact .replied r (replies_subset_turn call w i reply) client command later

/-- Anything but a turn of the client. -/
theorem Due.step_of_ne [LE τ] [DecidableLE τ] (h : w.Due cost i c floor n) {a : Action ι τ}
    (ha : a ≠ .turn i) : (w.step call a).Due cost i c floor n := by
  cases a with
  | tick t =>
      refine h.frame ⟨[], ?_⟩ ?_ ?_
      all_goals
        rw [World.step]
        split
      all_goals simp
  | turn j => exact h.turn_of_ne fun heq => ha (by rw [heq])

end World

end Turns

/-! ## What a client owes -/

section Owes

variable {ι κ ε τ ω ρ : Type} {call : ω → Call κ ε τ ρ} {cost : ω → Nat} {m n : Nat}
  {client : Client κ ε τ ω ρ}

/-- The client has at most `n` turns to go: what is left of its call, and for each
command that it has not begun a turn and the steps of its call. -/
def Client.Owes (cost : ω → Nat) (client : Client κ ε τ ω ρ) (n : Nat) : Prop :=
  ∃ left, (∀ r, client.running = some r → r.rest.Live ∧ r.rest.Bounded left) ∧
    left + (client.todo.map fun c => cost c + 1).sum ≤ n

theorem Client.owes_idle (n : Nat) : (⟨[], none⟩ : Client κ ε τ ω ρ).Owes cost n :=
  ⟨0, fun _ h => by contradiction, Nat.zero_le n⟩

/-- With no turn to go, a client is idle. -/
theorem Client.Owes.idle (h : client.Owes cost n) (hn : n = 0) : client = ⟨[], none⟩ := by
  obtain ⟨left, hrunning, hle⟩ := h
  subst hn
  obtain ⟨hleft, hsum⟩ := Nat.add_eq_zero_iff.mp (Nat.le_zero.mp hle)
  rcases client with ⟨todo, running⟩
  obtain rfl : todo = [] := by
    cases todo with
    | nil => rfl
    | cons c todo =>
        rw [List.map_cons, List.sum_cons] at hsum
        omega
  cases running with
  | none => rfl
  | some r =>
      obtain ⟨hlive, hbounded⟩ := hrunning r rfl
      obtain ⟨a, ha⟩ := (hleft ▸ hbounded).over
      exact absurd ha (hlive a)

/-- One more command for the client. -/
theorem Client.Owes.assign (h : client.Owes cost n) (c : ω) :
    (⟨client.todo ++ [c], client.running⟩ : Client κ ε τ ω ρ).Owes cost (n + (cost c + 1)) := by
  obtain ⟨left, hrunning, hle⟩ := h
  refine ⟨left, hrunning, ?_⟩
  simp only [List.map_append, List.map_singleton, List.sum_append, List.sum_singleton]
  omega

namespace World

variable [DecidableEq ι] {w : World ι κ ε τ ω ρ} {i : ι}

theorem owes_resume {todo : List ω} (htodo : (w.clients i).todo = todo) {c : ω} {began left : Nat}
    {rest : Call κ ε τ ρ} (hrest : rest.Bounded left)
    (hle : left + (todo.map fun c => cost c + 1).sum ≤ n) :
    ((w.resume i c began rest).clients i).Owes cost n := by
  subst htodo
  have hgoes : rest.Live → (⟨(w.clients i).todo, some ⟨c, began, rest⟩⟩ :
      Client κ ε τ ω ρ).Owes cost n := by
    refine fun hlive => ⟨left, fun r hr => ?_, hle⟩
    rw [← Option.some.inj hr]
    exact ⟨hlive, hrest⟩
  cases rest with
  | done a =>
      show (update w.clients i _ i).Owes cost n
      rw [update_self]
      exact ⟨0, fun _ h => by contradiction, by rw [Nat.zero_add]; exact Nat.le_of_add_left_le hle⟩
  | now next =>
      show (update w.clients i _ i).Owes cost n
      rw [update_self]
      exact hgoes fun _ h => by contradiction
  | access key act next =>
      show (update w.clients i _ i).Owes cost n
      rw [update_self]
      exact hgoes fun _ h => by contradiction

/-- **A turn is one less to go.** -/
theorem owes_turn [DecidableEq κ] (hcost : ∀ c, (call c).Bounded (cost c))
    (h : (w.clients i).Owes cost (n + 1)) : ((w.turn call i).clients i).Owes cost n := by
  obtain ⟨left, hrunning, hle⟩ := h
  rcases hclient : w.clients i with ⟨todo, _ | r⟩
  · cases todo with
    | nil =>
        have hturn : w.turn call i = w := by rw [World.turn, hclient]
        rw [hturn, hclient]
        exact Client.owes_idle n
    | cons c todo =>
        simp only [hclient, List.map_cons, List.sum_cons] at hle
        have hless : cost c + (todo.map fun c => cost c + 1).sum ≤ n := by omega
        rw [World.turn, hclient]
        exact owes_resume (congrArg Client.todo (update_self i _ _)) (hcost c) hless
  · obtain ⟨hlive, hbounded⟩ := hrunning r (by rw [hclient])
    obtain ⟨left', rfl, hrest⟩ := Call.bounded_advance hbounded hlive w.clock w.shared
    simp only [hclient] at hle
    have hless : left' + (todo.map fun c => cost c + 1).sum ≤ n := by omega
    rw [turn_running call hclient]
    refine owes_resume ?_ hrest hless
    rw [hclient]

end World

end Owes

end Base
