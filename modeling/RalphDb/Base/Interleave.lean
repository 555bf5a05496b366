import RalphDb.Base.Call
import Mathlib.Order.Defs.PartialOrder

/-!
# RalphDb.Base.Interleave

Clients that run calls on one shared map, step by step, in any order.

Each client has a list of commands to run; a command is a call.  A schedule is
a list of actions: the clock moves on, or one client takes a turn, in which it
starts its next command or makes one access.  A call replies in the turn that
ends it, and a reply records how many replies there were when its call began,
so that "after" can be said of calls.

`Reaches.invariant_of_turn` is the induction over schedules, one turn at a time;
`run_invariant_of` is the same for the schedules all of whose steps meet a
condition.  `At` says where one client is, to follow a schedule turn by turn.
-/

namespace Base

open Function

/-- A call under way: the command it serves, the number of replies when it
began and what is left of it. -/
structure Running (κ ε τ ω ρ : Type) where
  command : ω
  began : Nat
  rest : Call κ ε τ ρ

/-- A client: the commands it has not begun and the one it is running. -/
structure Client (κ ε τ ω ρ : Type) where
  todo : List ω
  running : Option (Running κ ε τ ω ρ)

/-- A finished call. -/
structure Reply (ι ω ρ : Type) where
  client : ι
  command : ω
  began : Nat
  result : ρ

/-- A reply to `c` came before the call that began after `began` replies. -/
def RepliedBefore {ι ω ρ : Type} (c : ω) (replies : List (Reply ι ω ρ)) (began : Nat) : Prop :=
  ∃ s ∈ replies.take began, s.command = c

/-- Later replies do not change what came before a call. -/
theorem repliedBefore_append {ι ω ρ : Type} {c : ω} {replies : List (Reply ι ω ρ)} {began : Nat}
    (h : began ≤ replies.length) (r : Reply ι ω ρ) :
    RepliedBefore c (replies ++ [r]) began ↔ RepliedBefore c replies began := by
  rw [RepliedBefore, List.take_append_of_le_length h, RepliedBefore]

/-- Calls begin after replies that have been made. -/
theorem began_append {ι ω ρ : Type} {replies : List (Reply ι ω ρ)}
    (hbegan : ∀ r ∈ replies, r.began ≤ replies.length) {r : Reply ι ω ρ}
    (hr : r.began ≤ replies.length) :
    ∀ r' ∈ replies ++ [r], r'.began ≤ (replies ++ [r]).length := by
  intro r' hmem
  rw [List.mem_append, List.mem_singleton] at hmem
  rw [List.length_append]
  obtain hold | rfl := hmem
  · exact Nat.le_add_right_of_le (hbegan r' hold)
  · exact Nat.le_add_right_of_le hr

/-- Calls began before their replies, and still do after one more. -/
theorem began_lt_append {ι ω ρ : Type} {replies : List (Reply ι ω ρ)}
    (h : ∀ s ∈ replies, s.began < replies.length) {p : Reply ι ω ρ}
    (hp : p.began ≤ replies.length) : ∀ s ∈ replies ++ [p], s.began < (replies ++ [p]).length := by
  intro s hs
  rw [List.mem_append, List.mem_singleton] at hs
  rw [List.length_append, List.length_singleton]
  obtain hs | rfl := hs
  · exact Nat.lt_succ_of_lt (h s hs)
  · exact Nat.lt_succ_of_le hp

structure World (ι κ ε τ ω ρ : Type) where
  shared : SharedMap κ ε
  clock : τ
  clients : ι → Client κ ε τ ω ρ
  replies : List (Reply ι ω ρ)

/-- What holds of the commands a client has not begun and of the call it is
running. -/
structure Client.All {κ ε τ ω ρ : Type} (T : ω → Prop) (R : Running κ ε τ ω ρ → Prop)
    (client : Client κ ε τ ω ρ) : Prop where
  todo : ∀ c ∈ client.todo, T c
  running : ∀ r, client.running = some r → R r

theorem Client.All.imp {κ ε τ ω ρ : Type} {T : ω → Prop} {R R' : Running κ ε τ ω ρ → Prop}
    {client : Client κ ε τ ω ρ} (h : client.All T R)
    (hR : ∀ r, client.running = some r → R r → R' r) : client.All T R' :=
  ⟨h.todo, fun r hr => hR r hr (h.running r hr)⟩

/-- One step of a schedule. -/
inductive Action (ι τ : Type)
  | tick (t : τ)
  | turn (i : ι)

namespace World

variable {ι κ ε τ ω ρ : Type} {w : World ι κ ε τ ω ρ}

/-- Before anything has run. -/
def start (m : SharedMap κ ε) (t : τ) (program : ι → List ω) : World ι κ ε τ ω ρ :=
  ⟨m, t, fun i => ⟨program i, none⟩, []⟩

/-! ## Going on with a call -/

section Resume

variable [DecidableEq ι]

/-- Client `i` goes on with `rest`: it replies when nothing is left. -/
def resume (w : World ι κ ε τ ω ρ) (i : ι) (command : ω) (began : Nat) (rest : Call κ ε τ ρ) :
    World ι κ ε τ ω ρ :=
  let todo := (w.clients i).todo
  match rest with
  | .done result =>
      { w with
        clients := update w.clients i ⟨todo, none⟩
        replies := w.replies ++ [⟨i, command, began, result⟩] }
  | rest => { w with clients := update w.clients i ⟨todo, some ⟨command, began, rest⟩⟩ }

@[simp] theorem resume_shared (i : ι) (c : ω) (began : Nat) (rest : Call κ ε τ ρ) :
    (w.resume i c began rest).shared = w.shared := by
  cases rest <;> rfl

theorem clients_resume_of_ne {i j : ι} (h : j ≠ i) (c : ω) (began : Nat)
    (rest : Call κ ε τ ρ) : (w.resume i c began rest).clients j = w.clients j := by
  cases rest <;> exact update_of_ne h _ _

theorem replies_subset_resume (w : World ι κ ε τ ω ρ) (i : ι) (c : ω) (began : Nat)
    (rest : Call κ ε τ ρ) : w.replies ⊆ (w.resume i c began rest).replies := by
  cases rest <;> simp [resume]

/-- A call with something left makes no reply. -/
theorem resume_cases (w : World ι κ ε τ ω ρ) (i : ι) (c : ω) (began : Nat) (rest : Call κ ε τ ρ) :
    (∃ result, rest = .done result ∧
        (w.resume i c began rest).clients = update w.clients i ⟨(w.clients i).todo, none⟩ ∧
        (w.resume i c began rest).replies = w.replies ++ [⟨i, c, began, result⟩]) ∨
      ((w.resume i c began rest).clients =
          update w.clients i ⟨(w.clients i).todo, some ⟨c, began, rest⟩⟩ ∧
        (w.resume i c began rest).replies = w.replies) := by
  cases rest with
  | done result => exact .inl ⟨result, rfl, rfl, rfl⟩
  | now next => exact .inr ⟨rfl, rfl⟩
  | access key act next => exact .inr ⟨rfl, rfl⟩

/-- What holds of every client still does when the call client `i` goes on with
meets it, or is over. -/
theorem all_resume {T : ω → Prop} {R : Running κ ε τ ω ρ → Prop}
    (h : ∀ j, (w.clients j).All T R) (i : ι) (c : ω) (began : Nat) (rest : Call κ ε τ ρ)
    (hrest : (∀ result, rest ≠ .done result) → R ⟨c, began, rest⟩) (j : ι) :
    ((w.resume i c began rest).clients j).All T R := by
  revert j
  cases rest with
  | done result =>
      exact (forall_update_iff _ _).mpr
        ⟨⟨(h i).todo, fun _ hr => by contradiction⟩, fun j _ => h j⟩
  | now next =>
      refine (forall_update_iff _ _).mpr ⟨⟨(h i).todo, fun r hr => ?_⟩, fun j _ => h j⟩
      rw [← Option.some.inj hr]
      exact hrest fun _ hdone => by contradiction
  | access key act next =>
      refine (forall_update_iff _ _).mpr ⟨⟨(h i).todo, fun r hr => ?_⟩, fun j _ => h j⟩
      rw [← Option.some.inj hr]
      exact hrest fun _ hdone => by contradiction

/-- The calls under way after client `i` has moved. -/
theorem running_update {clients : ι → Client κ ε τ ω ρ} {i : ι} {client : Client κ ε τ ω ρ}
    {P : ι → Running κ ε τ ω ρ → Prop} (hi : ∀ r, client.running = some r → P i r)
    (hother : ∀ j r, j ≠ i → (clients j).running = some r → P j r) (j : ι)
    (r : Running κ ε τ ω ρ) (hr : (update clients i client j).running = some r) : P j r := by
  by_cases hj : j = i
  · subst hj
    rw [update_self] at hr
    exact hi r hr
  · rw [update_of_ne hj] at hr
    exact hother j r hj hr

/-- The commands not begun after client `i` has moved. -/
theorem todo_update {clients : ι → Client κ ε τ ω ρ} {T : ω → Prop}
    (h : ∀ j, ∀ c ∈ (clients j).todo, T c) {i : ι} {client : Client κ ε τ ω ρ}
    (hi : client.todo ⊆ (clients i).todo) (j : ι) :
    ∀ c ∈ (update clients i client j).todo, T c := by
  by_cases hj : j = i
  · subst hj
    rw [update_self]
    exact fun c hc => h j c (hi hc)
  · rw [update_of_ne hj]
    exact h j

/-- A pending call is still under way when its client goes on with it. -/
theorem underWay_update {i : ι} {todo : List ω} {r : Running κ ε τ ω ρ} {rest : Call κ ε τ ρ}
    (hclient : w.clients i = ⟨todo, some r⟩) {p : Reply ι ω ρ}
    (h : ∃ rest, (w.clients p.client).running = some ⟨p.command, p.began, rest⟩) :
    ∃ rest', (update w.clients i ⟨todo, some { r with rest := rest }⟩ p.client).running =
      some ⟨p.command, p.began, rest'⟩ := by
  by_cases hp : p.client = i
  · obtain ⟨rest', hrest'⟩ := h
    rw [hp, hclient] at hrest'
    refine ⟨rest, ?_⟩
    rw [hp, update_self, Option.some.inj hrest']
  · rw [update_of_ne hp]
    exact h

/-- A client takes the next command off its list. -/
theorem all_begin {T : ω → Prop} {R : Running κ ε τ ω ρ → Prop}
    (h : ∀ j, (w.clients j).All T R) {i : ι} {c : ω} {todo : List ω}
    (hclient : w.clients i = ⟨c :: todo, none⟩) :
    T c ∧ ∀ j, (update w.clients i ⟨todo, none⟩ j).All T R := by
  have hi := h i
  rw [hclient] at hi
  refine ⟨hi.todo c List.mem_cons_self, (forall_update_iff _ _).mpr ⟨?_, fun j _ => h j⟩⟩
  exact ⟨fun c' hc' => hi.todo c' (List.mem_cons_of_mem c hc'), fun _ hr => by contradiction⟩

/-- What is left of the call of client `i`, or that it has replied. -/
def At (w : World ι κ ε τ ω ρ) (i : ι) (c : ω) (began : Nat) (rest : Call κ ε τ ρ) : Prop :=
  match rest with
  | .done result => ⟨i, c, began, result⟩ ∈ w.replies
  | rest => (w.clients i).running = some ⟨c, began, rest⟩

theorem at_resume (w : World ι κ ε τ ω ρ) (i : ι) (c : ω) (began : Nat) (rest : Call κ ε τ ρ) :
    (w.resume i c began rest).At i c began rest := by
  cases rest <;> simp [resume, At]

end Resume

/-! ## Turns -/

section Turn

variable [DecidableEq ι] [DecidableEq κ]

/-- A turn of client `i`. -/
def turn (call : ω → Call κ ε τ ρ) (w : World ι κ ε τ ω ρ) (i : ι) : World ι κ ε τ ω ρ :=
  match w.clients i with
  | ⟨[], none⟩ => w
  | ⟨c :: todo, none⟩ =>
      { w with clients := update w.clients i ⟨todo, none⟩ }.resume i c w.replies.length (call c)
  | ⟨_, some ⟨c, began, rest⟩⟩ =>
      let (rest, shared) := rest.advance w.clock w.shared
      { w with shared := shared }.resume i c began rest

/-- A turn does nothing, begins the next command or goes on with the one under
way. -/
theorem turn_cases (call : ω → Call κ ε τ ρ) (w : World ι κ ε τ ω ρ) (i : ι) :
    w.turn call i = w ∨
      (∃ c todo, w.clients i = ⟨c :: todo, none⟩ ∧ w.turn call i =
        { w with clients := update w.clients i ⟨todo, none⟩ }.resume i c w.replies.length
          (call c)) ∨
      ∃ todo r, w.clients i = ⟨todo, some r⟩ ∧ w.turn call i =
        { w with shared := (r.rest.advance w.clock w.shared).2 }.resume i r.command r.began
          (r.rest.advance w.clock w.shared).1 := by
  unfold turn
  split
  · exact .inl rfl
  · next c todo h => exact .inr (.inl ⟨c, todo, h, rfl⟩)
  · next todo c began rest h => exact .inr (.inr ⟨todo, ⟨c, began, rest⟩, h, rfl⟩)

/-- **A turn in small steps**: what a beginning call, an access and a reply
preserve, a turn preserves. -/
theorem turn_preserves {call : ω → Call κ ε τ ρ} {P : World ι κ ε τ ω ρ → Prop} {i : ι} (hw : P w)
    (hbegin : ∀ c todo, w.clients i = ⟨c :: todo, none⟩ →
      P { w with clients := update w.clients i ⟨todo, some ⟨c, w.replies.length, call c⟩⟩ })
    (hproceed : ∀ todo r, w.clients i = ⟨todo, some r⟩ →
      P { w with
        shared := (r.rest.advance w.clock w.shared).2
        clients := update w.clients i
          ⟨todo, some { r with rest := (r.rest.advance w.clock w.shared).1 }⟩ })
    (hreply : ∀ w todo c began result, P w → w.clients i = ⟨todo, some ⟨c, began, .done result⟩⟩ →
      P { w with
        clients := update w.clients i ⟨todo, none⟩
        replies := w.replies ++ [⟨i, c, began, result⟩] }) : P (w.turn call i) := by
  have hresume : ∀ (w' : World ι κ ε τ ω ρ) todo c began rest, (w'.clients i).todo = todo →
      P { w' with clients := update w'.clients i ⟨todo, some ⟨c, began, rest⟩⟩ } →
      P (w'.resume i c began rest) := by
    rintro w' todo c began rest rfl hrun
    cases rest with
    | done result =>
        have hdone := hreply _ _ c began result hrun (update_self i _ _)
        simp only [update_idem] at hdone
        exact hdone
    | now next => exact hrun
    | access key act next => exact hrun
  obtain hturn | ⟨c, todo, hclient, hturn⟩ | ⟨todo, r, hclient, hturn⟩ := turn_cases call w i
  · rw [hturn]
    exact hw
  · rw [hturn]
    refine hresume _ todo c _ _ (by simp) ?_
    simp only [update_idem]
    exact hbegin c todo hclient
  · rw [hturn]
    exact hresume _ todo _ _ _ (by simp [hclient]) (hproceed todo r hclient)

/-- Turns take no time. -/
theorem clock_turn (call : ω → Call κ ε τ ρ) (w : World ι κ ε τ ω ρ) (i : ι) :
    (w.turn call i).clock = w.clock :=
  turn_preserves (P := fun w' => w'.clock = w.clock) rfl (fun _ _ _ => rfl) (fun _ _ _ => rfl)
    fun _ _ _ _ _ h _ => h

/-- The other clients do not move. -/
theorem clients_turn_of_ne (call : ω → Call κ ε τ ρ) {i j : ι} (h : j ≠ i) :
    (w.turn call i).clients j = w.clients j := by
  obtain hturn | ⟨c, todo, _, hturn⟩ | ⟨todo, r, _, hturn⟩ := turn_cases call w i
  · rw [hturn]
  · rw [hturn, clients_resume_of_ne h]
    exact update_of_ne h _ _
  · rw [hturn, clients_resume_of_ne h]

theorem replies_subset_turn (call : ω → Call κ ε τ ρ) (w : World ι κ ε τ ω ρ) (i : ι) :
    w.replies ⊆ (w.turn call i).replies := by
  obtain hturn | ⟨c, todo, _, hturn⟩ | ⟨todo, r, _, hturn⟩ := turn_cases call w i
  · rw [hturn]
    exact List.Subset.refl _
  · rw [hturn]
    exact fun _ hr => replies_subset_resume _ i c _ _ hr
  · rw [hturn]
    exact fun _ hr => replies_subset_resume _ i r.command _ _ hr

/-- The other clients stay where they are. -/
theorem At.turn_of_ne {call : ω → Call κ ε τ ρ} {i j : ι} {c : ω} {began : Nat}
    {rest : Call κ ε τ ρ} (h : w.At j c began rest) (hij : j ≠ i) :
    (w.turn call i).At j c began rest := by
  have hclients : (w.turn call i).clients j = w.clients j := clients_turn_of_ne call hij
  cases rest with
  | done result => exact replies_subset_turn call w i h
  | now next => exact (congrArg Client.running hclients).trans h
  | access key act next => exact (congrArg Client.running hclients).trans h

/-- A client that is not running a call begins its next command. -/
theorem at_turn_begin (call : ω → Call κ ε τ ρ) {i : ι} {c : ω} {todo : List ω}
    (h : w.clients i = ⟨c :: todo, none⟩) :
    (w.turn call i).shared = w.shared ∧ (w.turn call i).At i c w.replies.length (call c) := by
  rw [turn, h]
  exact ⟨resume_shared i c _ _, at_resume _ i c _ _⟩

/-- A client whose call is not over goes on with it. -/
theorem At.turn (call : ω → Call κ ε τ ρ) {i : ι} {c : ω} {began : Nat} {rest : Call κ ε τ ρ}
    (h : w.At i c began rest) (hrest : ∀ result, rest ≠ .done result) :
    (w.turn call i).shared = (rest.advance w.clock w.shared).2 ∧
      (w.turn call i).At i c began (rest.advance w.clock w.shared).1 := by
  have hrunning : (w.clients i).running = some ⟨c, began, rest⟩ := by
    cases rest with
    | done result => exact absurd rfl (hrest result)
    | now next => exact h
    | access key act next => exact h
  have hclient : w.clients i = ⟨(w.clients i).todo, some ⟨c, began, rest⟩⟩ := by rw [← hrunning]
  generalize (w.clients i).todo = todo at hclient
  have hturn : w.turn call i = { w with shared := (rest.advance w.clock w.shared).2 }.resume i c
      began (rest.advance w.clock w.shared).1 := by
    rw [World.turn, hclient]
    cases todo <;> rfl
  rw [hturn]
  exact ⟨resume_shared i c _ _, at_resume _ i c _ _⟩

end Turn

/-! ## Schedules -/

section Schedule

variable [DecidableEq ι] [DecidableEq κ] [LE τ] [DecidableLE τ]

def step (call : ω → Call κ ε τ ρ) (w : World ι κ ε τ ω ρ) : Action ι τ → World ι κ ε τ ω ρ
  | .tick t => if w.clock ≤ t then { w with clock := t } else w
  | .turn i => w.turn call i

def run (call : ω → Call κ ε τ ρ) (schedule : List (Action ι τ)) (w : World ι κ ε τ ω ρ) :
    World ι κ ε τ ω ρ := schedule.foldl (step call) w

/-- Some schedule leads from the first world to the second. -/
def Reaches (call : ω → Call κ ε τ ρ) (w w' : World ι κ ε τ ω ρ) : Prop :=
  ∃ schedule, w' = w.run call schedule

/-- Every step of the schedule meets `Ok`, in the world it is taken in. -/
def Meets (call : ω → Call κ ε τ ρ) (Ok : World ι κ ε τ ω ρ → Action ι τ → Prop) :
    List (Action ι τ) → World ι κ ε τ ω ρ → Prop
  | [], _ => True
  | a :: schedule, w => Ok w a ∧ Meets call Ok schedule (w.step call a)

variable {call : ω → Call κ ε τ ρ}

/-- **Induction over schedules whose steps meet a condition.** -/
theorem run_invariant_of {Ok : World ι κ ε τ ω ρ → Action ι τ → Prop}
    {P : World ι κ ε τ ω ρ → Prop} {schedule : List (Action ι τ)}
    (hmeets : Meets call Ok schedule w) (hstart : P w)
    (hstep : ∀ w a, P w → Ok w a → P (w.step call a)) : P (w.run call schedule) := by
  induction schedule generalizing w with
  | nil => exact hstart
  | cons a schedule ih => exact ih hmeets.2 (hstep w a hstart hmeets.1)

theorem meets_true (schedule : List (Action ι τ)) : Meets call (fun _ _ => True) schedule w := by
  induction schedule generalizing w with
  | nil => exact trivial
  | cons a schedule ih => exact ⟨trivial, ih⟩

/-- **Induction over schedules.** -/
theorem Reaches.invariant {Inv : World ι κ ε τ ω ρ → Prop} {w' : World ι κ ε τ ω ρ}
    (h : w.Reaches call w') (hstart : Inv w) (hstep : ∀ w a, Inv w → Inv (w.step call a)) :
    Inv w' := by
  obtain ⟨schedule, rfl⟩ := h
  exact run_invariant_of (meets_true schedule) hstart fun w a h _ => hstep w a h

/-- **Induction over turns**, for what does not depend on the clock. -/
theorem Reaches.invariant_of_turn {Inv : World ι κ ε τ ω ρ → Prop} {w' : World ι κ ε τ ω ρ}
    (h : w.Reaches call w') (hstart : Inv w) (htick : ∀ w t, Inv w → Inv { w with clock := t })
    (hturn : ∀ w i, Inv w → Inv (w.turn call i)) : Inv w' := by
  refine h.invariant hstart fun w a hw => ?_
  cases a with
  | tick t =>
      show Inv (if w.clock ≤ t then { w with clock := t } else w)
      split
      · exact htick w t hw
      · exact hw
  | turn i => exact hturn w i hw

end Schedule

/-- The clock is not set back. -/
theorem Reaches.clock_le [DecidableEq ι] [DecidableEq κ] [Preorder τ] [DecidableLE τ]
    {call : ω → Call κ ε τ ρ} {w' : World ι κ ε τ ω ρ} (hw : w.Reaches call w') :
    w.clock ≤ w'.clock := by
  have hle : ∀ (v : World ι κ ε τ ω ρ) (a : Action ι τ), v.clock ≤ (v.step call a).clock := by
    intro v a
    cases a with
    | tick t =>
        rw [World.step]
        split
        · next hle => exact hle
        · exact le_refl _
    | turn i => rw [World.step, World.clock_turn]
  obtain ⟨schedule, rfl⟩ := hw
  exact run_invariant_of (P := fun v => w.clock ≤ v.clock) (meets_true schedule) (le_refl _)
    fun v a h _ => le_trans h (hle v a)

end World

end Base
