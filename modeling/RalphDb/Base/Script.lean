import RalphDb.Base.Interleave

/-!
# RalphDb.Base.Script

Jobs that run commands one after the other.

A job has a *script*, a list of commands, and its call runs them in order and
makes its answer of theirs (`Call.inOrder`).  Clients that run jobs are then no
more than clients that run the commands of their scripts: whatever a world of
jobs reaches, the world of the commands reaches too, with the same map, and the
answer of every job is made of the replies to its commands (`Performs`,
`scripts_reaches`).

The simulation keeps the second world *settled*: commands that answer without an
access are begun, and so answered, as soon as they come up.

Scripts compose: where the commands of a script have scripts themselves, the job
runs these one after the other (`inOrder_flatMap`).
-/

namespace Base

open Function

namespace Call

variable {κ ε τ α β ω ρ : Type}

theorem bind_done (x : Call κ ε τ α) : (x >>= fun a => pure a) = x := by
  show x.bind done = x
  induction x with
  | done a => rfl
  | now next ih => exact congrArg now (funext ih)
  | access key act next ih =>
      exact congrArg (access key act) (funext fun t => funext fun entry => ih t entry)

theorem done_bind (a : α) (f : α → Call κ ε τ β) : (pure a >>= f) = f a := rfl

/-- What comes after a call matters only at what it can answer. -/
theorem bind_congr_of_upholds {x : Call κ ε τ α} {P : α → Prop} {f g : α → Call κ ε τ β}
    (h : x.Upholds (fun _ => True) P) (hfg : ∀ a, P a → f a = g a) : (x >>= f) = x >>= g := by
  show x.bind f = x.bind g
  induction x with
  | done a => exact hfg a h
  | now next ih => exact congrArg now (funext fun t => ih t (h t))
  | access key act next ih =>
      exact congrArg (access key act) (funext fun t => funext fun entry =>
        ih t entry (h t entry fun _ _ => trivial).2)

/-- The call is not over. -/
def Live (x : Call κ ε τ α) : Prop := ∀ a, x ≠ .done a

/-- A step of a call that is not over is a step of whatever begins with it. -/
theorem advance_bind [DecidableEq κ] {x : Call κ ε τ α} (h : x.Live) (f : α → Call κ ε τ β) (t : τ)
    (m : SharedMap κ ε) :
    (x >>= f).advance t m = ((x.advance t m).1 >>= f, (x.advance t m).2) := by
  cases x with
  | done a => exact absurd rfl (h a)
  | now next => rfl
  | access key act next => rfl

theorem Live.bind {x : Call κ ε τ α} (h : x.Live) (f : α → Call κ ε τ β) : (x >>= f).Live := by
  cases x with
  | done a => exact absurd rfl (h a)
  | now next => exact fun _ heq => by contradiction
  | access key act next => exact fun _ heq => by contradiction

/-- Run the commands one after the other and collect their answers. -/
def inOrder (call : ω → Call κ ε τ ρ) : List ω → Call κ ε τ (List ρ)
  | [] => pure []
  | c :: cs => do
      let a ← call c
      let as ← inOrder call cs
      pure (a :: as)

theorem inOrder_append {call : ω → Call κ ε τ ρ} (cs cs' : List ω) :
    inOrder call (cs ++ cs') =
      inOrder call cs >>= fun as => inOrder call cs' >>= fun as' => pure (as ++ as') := by
  induction cs with
  | nil => exact (bind_done _).symm
  | cons c cs ih =>
      rw [List.cons_append, inOrder, ih, inOrder]
      simp only [bind_assoc, done_bind]
      rfl

/-- Commands that are calls with a function of their answers. -/
theorem inOrder_map {call : ω → Call κ ε τ ρ} {x : α → Call κ ε τ β} {c : α → ω} {f : β → ρ}
    (h : ∀ a, call (c a) = x a >>= fun b => pure (f b)) (as : List α) :
    inOrder call (as.map c) = inOrder x as >>= fun bs => pure (bs.map f) := by
  induction as with
  | nil => rfl
  | cons a as ih =>
      rw [List.map_cons, inOrder, h, ih, inOrder]
      simp only [bind_assoc, done_bind]
      rfl

/-- A loop that makes a call for each element and folds the answers. -/
theorem inOrder_foldr (loop : List α → Call κ ε τ β) (x : α → Call κ ε τ ρ) (f : ρ → β → β) (b : β)
    (hnil : loop [] = pure b)
    (hcons : ∀ a as, loop (a :: as) = x a >>= fun r => loop as >>= fun b => pure (f r b))
    (as : List α) : loop as = inOrder x as >>= fun rs => pure (rs.foldr f b) := by
  induction as with
  | nil => exact hnil
  | cons a as ih =>
      rw [hcons, ih, inOrder]
      simp only [bind_assoc, done_bind]
      rfl

/-- There are as many answers as commands. -/
theorem upholds_inOrder (call : ω → Call κ ε τ ρ) (cs : List ω) :
    (inOrder call cs).Upholds (fun _ => True) fun as => as.length = cs.length := by
  induction cs with
  | nil => exact upholds_pure rfl
  | cons c cs ih =>
      exact upholds_bind (upholds_any _) fun _ _ => upholds_bind ih fun _ has =>
        upholds_pure (congrArg Nat.succ has)

section Scripts

variable {ω' ρ' : Type} {call : ω → Call κ ε τ ρ} {script : ω' → List ω}
  {answer : ω' → List ρ → ρ'} {outer : ω' → Call κ ε τ ρ'}

/-- The answers of jobs, from the answers to all their commands. -/
def regroup (script : ω' → List ω) (answer : ω' → List ρ → ρ') : List ω' → List ρ → List ρ'
  | [], _ => []
  | j :: js, as => answer j (as.take (script j).length) ::
      regroup script answer js (as.drop (script j).length)

/-- **Jobs in order** are their commands in order. -/
theorem inOrder_flatMap (houter : ∀ j, outer j = inOrder call (script j) >>= fun as =>
    pure (answer j as)) (js : List ω') :
    inOrder outer js =
      inOrder call (js.flatMap script) >>= fun as => pure (regroup script answer js as) := by
  induction js with
  | nil => rfl
  | cons j js ih =>
      rw [inOrder, houter, ih, List.flatMap_cons, inOrder_append]
      simp only [bind_assoc, done_bind]
      refine bind_congr_of_upholds (upholds_inOrder call (script j)) fun as has => ?_
      simp only [regroup, List.take_left' has, List.drop_left' has]

end Scripts

/-- What is left of such a run: the call under way and the commands after it. -/
def restOf (call : ω → Call κ ε τ ρ) (running : Option (Running κ ε τ ω ρ)) (cs : List ω) :
    Call κ ε τ (List ρ) :=
  match running with
  | none => inOrder call cs
  | some r => do
      let a ← r.rest
      let as ← inOrder call cs
      pure (a :: as)

end Call

open Call

/-! ## Exchanges -/

section Exchanges

variable {ι ω ρ : Type} [DecidableEq ι]

/-- The commands of a client that have been answered, with their answers. -/
def exchanges (replies : List (Reply ι ω ρ)) (i : ι) : List (ω × ρ) :=
  (replies.filter fun r => r.client = i).map fun r => (r.command, r.result)

theorem exchanges_append_self (replies : List (Reply ι ω ρ)) (i : ι) (c : ω) (began : Nat)
    (a : ρ) : exchanges (replies ++ [⟨i, c, began, a⟩]) i = exchanges replies i ++ [(c, a)] := by
  simp [exchanges]

theorem exchanges_append_of_ne {replies : List (Reply ι ω ρ)} {r : Reply ι ω ρ} {j : ι}
    (h : j ≠ r.client) : exchanges (replies ++ [r]) j = exchanges replies j := by
  simp [exchanges, Ne.symm h]

end Exchanges

/-! ## Turns that settle -/

namespace World

variable {ι κ ε τ ω ρ : Type} [DecidableEq ι] {w w' w'' : World ι κ ε τ ω ρ} {i : ι}

/-- Only client `i` has moved, and no time has passed. -/
structure MovedBy (i : ι) (w w' : World ι κ ε τ ω ρ) : Prop where
  clock : w'.clock = w.clock
  clients : ∀ j, j ≠ i → w'.clients j = w.clients j
  exchanges : ∀ j, j ≠ i → exchanges w'.replies j = exchanges w.replies j

theorem MovedBy.refl : MovedBy i w w := ⟨rfl, fun _ _ => rfl, fun _ _ => rfl⟩

theorem MovedBy.trans (h : MovedBy i w w') (h' : MovedBy i w' w'') : MovedBy i w w'' :=
  ⟨h'.clock.trans h.clock, fun j hj => (h'.clients j hj).trans (h.clients j hj),
    fun j hj => (h'.exchanges j hj).trans (h.exchanges j hj)⟩

variable [DecidableEq κ] {call : ω → Call κ ε τ ρ}

theorem movedBy_turn (call : ω → Call κ ε τ ρ) (w : World ι κ ε τ ω ρ) (i : ι) :
    MovedBy i w (w.turn call i) := by
  refine ⟨clock_turn call w i, fun j hj => clients_turn_of_ne call hj, fun j hj => ?_⟩
  refine turn_preserves (P := fun w' => Base.exchanges w'.replies j = Base.exchanges w.replies j)
    rfl (fun _ _ _ => rfl) (fun _ _ _ => rfl) fun w' todo c began result h _ => ?_
  exact (exchanges_append_of_ne hj).trans h

/-- A command that is over at once is begun and answered in one turn. -/
theorem turn_of_done (call : ω → Call κ ε τ ρ) {c : ω} {todo : List ω} {a : ρ}
    (hclient : w.clients i = ⟨c :: todo, none⟩) (hcall : call c = .done a) :
    w.turn call i = { w with
      clients := update w.clients i ⟨todo, none⟩
      replies := w.replies ++ [⟨i, c, w.replies.length, a⟩] } := by
  rw [turn, hclient]
  simp only [hcall, resume, update_self, update_idem]

/-- Another is begun. -/
theorem turn_of_live (call : ω → Call κ ε τ ρ) {c : ω} {todo : List ω}
    (hclient : w.clients i = ⟨c :: todo, none⟩) (hcall : (call c).Live) :
    w.turn call i = { w with
      clients := update w.clients i ⟨todo, some ⟨c, w.replies.length, call c⟩⟩ } := by
  rw [turn, hclient]
  cases hc : call c with
  | done a => exact absurd hc (hcall a)
  | now next => simp only [hc, resume, update_self, update_idem]
  | access key act next => simp only [hc, resume, update_self, update_idem]

/-- A call under way makes its last step, and its client replies. -/
theorem turn_of_over (call : ω → Call κ ε τ ρ) {todo : List ω} {r : Running κ ε τ ω ρ} {a : ρ}
    {m : SharedMap κ ε} (hclient : w.clients i = ⟨todo, some r⟩)
    (hstep : r.rest.advance w.clock w.shared = (.done a, m)) :
    w.turn call i = { w with
      shared := m
      clients := update w.clients i ⟨todo, none⟩
      replies := w.replies ++ [⟨i, r.command, r.began, a⟩] } := by
  rw [turn, hclient]
  cases todo <;> simp only [hstep, resume, hclient]

/-- It makes another step. -/
theorem turn_of_step (call : ω → Call κ ε τ ρ) {todo : List ω} {r : Running κ ε τ ω ρ}
    {rest : Call κ ε τ ρ} {m : SharedMap κ ε} (hclient : w.clients i = ⟨todo, some r⟩)
    (hstep : r.rest.advance w.clock w.shared = (rest, m)) (hrest : rest.Live) :
    w.turn call i = { w with
      shared := m
      clients := update w.clients i ⟨todo, some { r with rest := rest }⟩ } := by
  rw [turn, hclient]
  cases rest with
  | done a => exact absurd rfl (hrest a)
  | now next => cases todo <;> simp only [hstep, resume, hclient]
  | access key act next => cases todo <;> simp only [hstep, resume, hclient]

section Reaches

variable [LE τ] [DecidableLE τ] {w₀ : World ι κ ε τ ω ρ}

theorem Reaches.refl (call : ω → Call κ ε τ ρ) (w : World ι κ ε τ ω ρ) : w.Reaches call w :=
  ⟨[], rfl⟩

theorem Reaches.trans {w' w'' : World ι κ ε τ ω ρ} (h : w.Reaches call w')
    (h' : w'.Reaches call w'') : w.Reaches call w'' := by
  obtain ⟨schedule, rfl⟩ := h
  obtain ⟨schedule', rfl⟩ := h'
  exact ⟨schedule ++ schedule', by rw [run, run, run, List.foldl_append]⟩

theorem Reaches.step (h : w₀.Reaches call w) (a : Action ι τ) :
    w₀.Reaches call (w.step call a) := by
  obtain ⟨schedule, rfl⟩ := h
  exact ⟨schedule ++ [a], by rw [run, run, List.foldl_append]; rfl⟩

theorem Reaches.turn (h : w₀.Reaches call w) (i : ι) : w₀.Reaches call (w.turn call i) :=
  h.step (.turn i)

end Reaches

end World

/-! ## A job under way -/

section Midway

variable {κ ε τ ω ρ : Type} {call : ω → Call κ ε τ ρ} {script cs : List ω}
  {x : Call κ ε τ (List ρ)} {played : List (ω × ρ)} {running : Option (Running κ ε τ ω ρ)}

/-- Of the commands of a script, those in `played` have been answered, one may
be running, and `cs` come after it.  The run `x` of the script has come as far;
it is settled: unless it is over, a command is running that is not. -/
structure Midway (call : ω → Call κ ε τ ρ) (script : List ω) (x : Call κ ε τ (List ρ))
    (played : List (ω × ρ)) (running : Option (Running κ ε τ ω ρ)) (cs : List ω) : Prop where
  commands : script = played.map Prod.fst ++ (running.toList.map Running.command ++ cs)
  settled : running = none → cs = []
  live : ∀ r, running = some r → r.rest.Live
  rest : x = (restOf call running cs >>= fun as => pure (played.map Prod.snd ++ as))

/-- Commands that were answered before. -/
theorem Midway.prepend (h : Midway call cs (inOrder call cs) played running script)
    (before : List (ω × ρ)) :
    Midway call (before.map Prod.fst ++ cs)
      (inOrder call cs >>= fun as => pure (before.map Prod.snd ++ as)) (before ++ played)
      running script := by
  refine ⟨?_, h.settled, h.live, ?_⟩
  · rw [List.map_append, List.append_assoc, ← h.commands]
  · rw [h.rest, bind_assoc, List.map_append]
    simp only [done_bind, List.append_assoc]

/-- When the run is over, every command has been answered. -/
theorem Midway.ended {as : List ρ} (h : Midway call script (.done as) played running cs) :
    running = none ∧ cs = [] ∧ script = played.map Prod.fst ∧ as = played.map Prod.snd := by
  cases running with
  | none =>
      obtain rfl := h.settled rfl
      exact ⟨rfl, rfl, by simpa using h.commands, by simpa using Call.done.inj h.rest⟩
  | some r => exact absurd h.rest.symm (((h.live r rfl).bind _).bind _ as)

/-- Until then, one of them is running, and the step of the run is its step. -/
theorem Midway.step [DecidableEq κ] (h : Midway call script x played running cs) (hx : x.Live)
    (t : τ) (m : SharedMap κ ε) : ∃ r, running = some r ∧ x.advance t m =
      ((r.rest.advance t m).1 >>= fun a => inOrder call cs >>= fun as =>
        pure (played.map Prod.snd ++ a :: as), (r.rest.advance t m).2) := by
  cases running with
  | none =>
      obtain rfl := h.settled rfl
      exact absurd h.rest (hx _)
  | some r =>
      have hrest : x = (r.rest >>= fun a => inOrder call cs >>= fun as =>
          pure (played.map Prod.snd ++ a :: as)) := by
        rw [h.rest, restOf]
        simp only [bind_assoc, done_bind]
      exact ⟨r, rfl, by rw [hrest, advance_bind (h.live r rfl)]⟩

/-- The commands that have been answered, and the one that is running, if it has
taken effect, are the first of the script. -/
theorem Midway.isPrefix (h : Midway call script x played running cs) {more : List (ω × ρ)}
    (hmore : more = [] ∨ ∃ r a, running = some r ∧ more = [(r.command, a)]) :
    (played ++ more).map Prod.fst <+: script := by
  rw [h.commands, List.map_append]
  obtain rfl | ⟨r, a, rfl, rfl⟩ := hmore
  · rw [List.map_nil, List.append_nil]
    exact List.prefix_append _ _
  · exact (List.prefix_append_right_inj _).mpr (List.prefix_append _ _)

end Midway

namespace World

variable {ι κ ε τ ω ρ : Type} [DecidableEq ι] [DecidableEq κ] [LE τ] [DecidableLE τ]
  {call : ω → Call κ ε τ ρ} {w₀ w : World ι κ ε τ ω ρ} {i : ι}

/-- **Settling**: a client with commands to run begins them until one makes an
access, or none is left. -/
theorem settle {cs todo : List ω} (hw : w₀.Reaches call w)
    (hclient : w.clients i = ⟨cs ++ todo, none⟩) :
    ∃ w' played running cs', w₀.Reaches call w' ∧ MovedBy i w w' ∧ w'.shared = w.shared ∧
      w'.clients i = ⟨cs' ++ todo, running⟩ ∧
      exchanges w'.replies i = exchanges w.replies i ++ played ∧
      Midway call cs (inOrder call cs) played running cs' := by
  induction cs generalizing w with
  | nil =>
      refine ⟨w, [], none, [], hw, .refl, rfl, hclient, (List.append_nil _).symm, ?_⟩
      exact ⟨rfl, fun _ => rfl, fun _ hr => by contradiction, rfl⟩
  | cons c cs ih =>
      have hmoved : MovedBy i w (w.turn call i) := movedBy_turn call w i
      by_cases hcall : ∃ a, call c = .done a
      · obtain ⟨a, ha⟩ := hcall
        have hturn := turn_of_done call hclient ha
        have hrest : (w.turn call i).clients i = ⟨cs ++ todo, none⟩ := by
          rw [hturn]
          exact update_self i _ _
        obtain ⟨w', played, running, cs', hw', hmoved', hshared, hclient', hexchanges, hmidway⟩ :=
          ih (hw.turn i) hrest
        refine ⟨w', (c, a) :: played, running, cs', hw', hmoved.trans hmoved', ?_, hclient', ?_, ?_⟩
        · rw [hshared, hturn]
        · rw [hexchanges, hturn, exchanges_append_self, List.append_assoc]
          rfl
        · have hrun : inOrder call (c :: cs) =
              (inOrder call cs >>= fun as => pure ([a] ++ as)) := by
            rw [inOrder, ha]
            rfl
          rw [hrun]
          exact hmidway.prepend [(c, a)]
      · have hlive : (call c).Live := fun a ha => hcall ⟨a, ha⟩
        have hturn := turn_of_live call hclient hlive
        refine ⟨w.turn call i, [], some ⟨c, w.replies.length, call c⟩, cs, hw.turn i, hmoved, ?_,
          ?_, ?_, ?_⟩
        · rw [hturn]
        · rw [hturn]
          exact update_self i _ _
        · rw [hturn, List.append_nil]
        · refine ⟨rfl, fun h => by contradiction, fun r hr => ?_, (bind_done _).symm⟩
          rw [← Option.some.inj hr]
          exact hlive

/-- A step of a script: the command under way takes it, and when it is over the
next one begins. -/
theorem settle_turn {script cs todo : List ω} {x : Call κ ε τ (List ρ)} {played : List (ω × ρ)}
    {running : Option (Running κ ε τ ω ρ)} (hw : w₀.Reaches call w)
    (hclient : w.clients i = ⟨cs ++ todo, running⟩)
    (hmidway : Midway call script x played running cs) (hx : x.Live) :
    ∃ w' more running' cs', w₀.Reaches call w' ∧ MovedBy i w w' ∧
      w'.shared = (x.advance w.clock w.shared).2 ∧ w'.clients i = ⟨cs' ++ todo, running'⟩ ∧
      exchanges w'.replies i = exchanges w.replies i ++ more ∧
      Midway call script (x.advance w.clock w.shared).1 (played ++ more) running' cs' := by
  obtain ⟨r, rfl, hstep⟩ := hmidway.step hx w.clock w.shared
  have hmoved : MovedBy i w (w.turn call i) := movedBy_turn call w i
  have hscript := hmidway.commands
  rw [hstep]
  obtain ⟨rest, m, hadvance⟩ : ∃ rest m, r.rest.advance w.clock w.shared = (rest, m) := ⟨_, _, rfl⟩
  rw [hadvance]
  by_cases hrest : ∃ a, rest = .done a
  · -- the command is answered
    obtain ⟨a, rfl⟩ := hrest
    have hturn := turn_of_over call hclient hadvance
    have hnext : (w.turn call i).clients i = ⟨cs ++ todo, none⟩ := by
      rw [hturn]
      exact update_self i _ _
    obtain ⟨w', more, running, cs', hw', hmoved', hshared, hclient', hexchanges, hmore⟩ :=
      settle (hw.turn i) hnext
    refine ⟨w', (r.command, a) :: more, running, cs', hw', hmoved.trans hmoved', ?_, hclient', ?_,
      ?_⟩
    · rw [hshared, hturn]
    · rw [hexchanges, hturn, exchanges_append_self, List.append_assoc]
      rfl
    · have hbefore := hmore.prepend (played ++ [(r.command, a)])
      rw [List.append_assoc] at hbefore
      have hcommands : script = (played ++ [(r.command, a)]).map Prod.fst ++ cs := by
        rw [hscript, List.map_append, List.append_assoc]
        rfl
      rw [hcommands]
      have hrun : (pure a >>= fun a => inOrder call cs >>= fun as =>
          pure (played.map Prod.snd ++ a :: as) : Call κ ε τ (List ρ)) =
            inOrder call cs >>= fun as =>
              pure ((played ++ [(r.command, a)]).map Prod.snd ++ as) := by
        simp only [done_bind, List.map_append, List.append_assoc]
        rfl
      exact hrun ▸ hbefore
  · -- it goes on
    have hlive : rest.Live := fun a ha => hrest ⟨a, ha⟩
    have hturn := turn_of_step call hclient hadvance hlive
    refine ⟨w.turn call i, [], some { r with rest := rest }, cs, hw.turn i, hmoved, ?_, ?_, ?_, ?_⟩
    · rw [hturn]
    · rw [hturn]
      exact update_self i _ _
    · rw [hturn, List.append_nil]
    · rw [List.append_nil]
      refine ⟨hscript, fun h => by contradiction, fun r' hr' => ?_, ?_⟩
      · rw [← Option.some.inj hr']
        exact hlive
      · rw [restOf]
        simp only [bind_assoc, done_bind]

end World

/-! ## Jobs and their commands -/

section Jobs

variable {ι κ ε τ ω ρ ω' ρ' : Type} {call : ω → Call κ ε τ ρ} {script : ω' → List ω}
  {answer : ω' → List ρ → ρ'} {outer : ω' → Call κ ε τ ρ'}

/-- The first client runs jobs and the second their commands; of the job under
way the commands in `played` have been answered. -/
inductive Client.Performs (call : ω → Call κ ε τ ρ) (script : ω' → List ω)
    (answer : ω' → List ρ → ρ') :
    Client κ ε τ ω' ρ' → Client κ ε τ ω ρ → List (ω × ρ) → Prop
  | idle (todo : List ω') : Performs call script answer ⟨todo, none⟩ ⟨todo.flatMap script, none⟩ []
  | busy (todo : List ω') (j : ω') (began : Nat) {x : Call κ ε τ (List ρ)}
      {played : List (ω × ρ)} {running : Option (Running κ ε τ ω ρ)} {cs : List ω}
      (h : Midway call (script j) x played running cs) :
      Performs call script answer
        ⟨todo, some ⟨j, began, x >>= fun as => pure (answer j as)⟩⟩
        ⟨cs ++ todo.flatMap script, running⟩ played

/-- A client in the midst of a job. -/
theorem Client.Performs.midway {client : Client κ ε τ ω' ρ'} {client' : Client κ ε τ ω ρ}
    {played : List (ω × ρ)} {r : Running κ ε τ ω' ρ'}
    (h : client.Performs call script answer client' played) (hr : client.running = some r) :
    ∃ x running cs, r.rest = (x >>= fun as => pure (answer r.command as)) ∧
      client' = ⟨cs ++ client.todo.flatMap script, running⟩ ∧
      Midway call (script r.command) x played running cs := by
  cases h with
  | idle _ => contradiction
  | busy todo j began hmidway =>
      rw [← Option.some.inj hr]
      exact ⟨_, _, _, rfl, rfl, hmidway⟩

/-- Nothing is played between two jobs. -/
theorem Client.Performs.played_eq_nil {client : Client κ ε τ ω' ρ'} {client' : Client κ ε τ ω ρ}
    {played : List (ω × ρ)} (h : client.Performs call script answer client' played)
    (hidle : client.running = none) : played = [] := by
  cases h with
  | idle _ => rfl
  | busy todo j began hmidway => contradiction

/-- And nothing is running. -/
theorem Client.Performs.running_eq_none {client : Client κ ε τ ω' ρ'} {client' : Client κ ε τ ω ρ}
    {played : List (ω × ρ)} (h : client.Performs call script answer client' played)
    (hidle : client.running = none) : client'.running = none := by
  cases h with
  | idle _ => rfl
  | busy todo j began hmidway => contradiction

/-- Nothing is played between two jobs, nor is a command under way. -/
theorem Client.Performs.append_eq_nil {client : Client κ ε τ ω' ρ'} {client' : Client κ ε τ ω ρ}
    {played more : List (ω × ρ)} (h : client.Performs call script answer client' played)
    (hidle : client.running = none)
    (hmore : more = [] ∨ ∃ r a, client'.running = some r ∧ more = [(r.command, a)]) :
    played ++ more = [] := by
  rw [h.played_eq_nil hidle, List.nil_append]
  obtain rfl | ⟨r, a, hr, _⟩ := hmore
  · rfl
  · rw [h.running_eq_none hidle] at hr
    contradiction

/-- What is played of a job, and its command under way, are the first commands of its
script. -/
theorem Client.Performs.isPrefix {client : Client κ ε τ ω' ρ'} {client' : Client κ ε τ ω ρ}
    {played more : List (ω × ρ)} {r : Running κ ε τ ω' ρ'}
    (h : client.Performs call script answer client' played) (hr : client.running = some r)
    (hmore : more = [] ∨ ∃ q a, client'.running = some q ∧ more = [(q.command, a)]) :
    (played ++ more).map Prod.fst <+: script r.command := by
  obtain ⟨x, running, cs, _, rfl, hmidway⟩ := h.midway hr
  exact hmidway.isPrefix hmore

/-- Of the job under way the commands in `played` have been answered, the last
perhaps only in effect: the answer that the job is going to give is made of
theirs and of those that its call has still to get. -/
def Running.Recalls (call : ω → Call κ ε τ ρ) (script : ω' → List ω) (answer : ω' → List ρ → ρ')
    (r : Running κ ε τ ω' ρ') (played : List (ω × ρ)) : Prop :=
  ∃ x answered running cs more, r.rest = (x >>= fun as => pure (answer r.command as)) ∧
    Midway call (script r.command) x answered running cs ∧ played = answered ++ more ∧
    (more = [] ∨ ∃ q a, running = some q ∧ more = [(q.command, a)])

/-- The jobs `done` were answered from the answers to their commands; these, and
the `played` ones after them, are `done'`. -/
def Tallies (script : ω' → List ω) (answer : ω' → List ρ → ρ') (done : List (ω' × ρ'))
    (done' played : List (ω × ρ)) : Prop :=
  ∃ finished : List (ω' × List ρ), done = finished.map (fun f => (f.1, answer f.1 f.2)) ∧
    (∀ f ∈ finished, f.2.length = (script f.1).length) ∧
    done' = (finished.flatMap fun f => (script f.1).zip f.2) ++ played

theorem tallies_nil : Tallies script answer [] [] [] := ⟨[], rfl, fun _ h => by contradiction, rfl⟩

/-- Further commands are answered. -/
theorem Tallies.append {done : List (ω' × ρ')} {done' played : List (ω × ρ)}
    (h : Tallies script answer done done' played) (more : List (ω × ρ)) :
    Tallies script answer done (done' ++ more) (played ++ more) := by
  obtain ⟨finished, hdone, hlengths, rfl⟩ := h
  exact ⟨finished, hdone, hlengths, List.append_assoc _ _ _⟩

/-- A job is answered. -/
theorem Tallies.finish {done : List (ω' × ρ')} {done' played : List (ω × ρ)} {j : ω'}
    (h : Tallies script answer done done' played) (hscript : script j = played.map Prod.fst) :
    Tallies script answer (done ++ [(j, answer j (played.map Prod.snd))]) done' [] := by
  obtain ⟨finished, rfl, hlengths, rfl⟩ := h
  refine ⟨finished ++ [(j, played.map Prod.snd)], by simp, ?_, ?_⟩
  · exact List.forall_mem_append.mpr
      ⟨hlengths, List.forall_mem_singleton.mpr (by simp [hscript])⟩
  · have hzip : (played.map Prod.fst).zip (played.map Prod.snd) = played := by
      rw [List.zip_map', List.map_id']
    simp [hscript, hzip]

variable [DecidableEq ι]

/-- A world of jobs and a world that performs their commands. -/
structure World.Performs (call : ω → Call κ ε τ ρ) (script : ω' → List ω)
    (answer : ω' → List ρ → ρ') (w : World ι κ ε τ ω' ρ') (w' : World ι κ ε τ ω ρ) : Prop where
  shared : w'.shared = w.shared
  clock : w'.clock = w.clock
  clients : ∀ i, ∃ played, Client.Performs call script answer (w.clients i) (w'.clients i) played ∧
    Tallies script answer (exchanges w.replies i) (exchanges w'.replies i) played

variable {w₀ w' : World ι κ ε τ ω ρ} {w : World ι κ ε τ ω' ρ'} {i : ι}

/-- Client `i` has moved in both worlds. -/
theorem World.Performs.move (h : w.Performs call script answer w') {v : World ι κ ε τ ω' ρ'}
    {v' : World ι κ ε τ ω ρ} (hv : MovedBy i w v) (hv' : MovedBy i w' v')
    (hshared : v'.shared = v.shared)
    (hi : ∃ played, Client.Performs call script answer (v.clients i) (v'.clients i) played ∧
      Tallies script answer (exchanges v.replies i) (exchanges v'.replies i) played) :
    v.Performs call script answer v' := by
  refine ⟨hshared, by rw [hv'.clock, hv.clock, h.clock], fun j => ?_⟩
  by_cases hj : j = i
  · subst hj
    exact hi
  · rw [hv.clients j hj, hv'.clients j hj, hv.exchanges j hj, hv'.exchanges j hj]
    exact h.clients j

/-- A client moves. -/
theorem movedBy_update {v : World ι κ ε τ ω ρ} {m : SharedMap κ ε} {client : Client κ ε τ ω ρ} :
    World.MovedBy i v { v with shared := m, clients := update v.clients i client } :=
  ⟨rfl, fun _ hj => update_of_ne hj _ _, fun _ _ => rfl⟩

/-- A client replies. -/
theorem movedBy_reply {v : World ι κ ε τ ω ρ} {client : Client κ ε τ ω ρ} {c : ω} {began : Nat}
    {a : ρ} : World.MovedBy i v { v with
      clients := update v.clients i client, replies := v.replies ++ [⟨i, c, began, a⟩] } :=
  ⟨rfl, fun _ hj => update_of_ne hj _ _, fun _ hj => exchanges_append_of_ne hj⟩

/-- A job is answered: all its commands have been. -/
theorem performs_reply (h : w.Performs call script answer w') {todo : List ω'} {j : ω'}
    {began : Nat} {result : ρ'}
    (hclient : w.clients i = ⟨todo, some ⟨j, began, .done result⟩⟩) :
    World.Performs call script answer
      { w with
        clients := update w.clients i ⟨todo, none⟩
        replies := w.replies ++ [⟨i, j, began, result⟩] } w' := by
  obtain ⟨played, hperforms, htallies⟩ := h.clients i
  obtain ⟨x, running, cs, hrest, hclient', hmidway⟩ :=
    hperforms.midway (r := ⟨j, began, .done result⟩) (by rw [hclient])
  by_cases hx : ∃ as, x = .done as
  · obtain ⟨as, rfl⟩ := hx
    obtain ⟨rfl, rfl, hscript, rfl⟩ := hmidway.ended
    obtain rfl : result = answer j (played.map Prod.snd) := Call.done.inj hrest
    refine h.move movedBy_reply .refl h.shared ⟨[], ?_, ?_⟩
    · rw [hclient', hclient]
      simp only [update_self]
      exact .idle todo
    · rw [exchanges_append_self]
      exact htallies.finish hscript
  · have hlive : x.Live := fun as has => hx ⟨as, has⟩
    exact absurd hrest.symm (hlive.bind _ result)

variable [DecidableEq κ] [LE τ] [DecidableLE τ]

/-- A job begins: the second client begins its commands. -/
theorem performs_begin (houter : ∀ j, outer j = inOrder call (script j) >>= fun as =>
    pure (answer j as)) (hw' : w₀.Reaches call w') (h : w.Performs call script answer w') {j : ω'}
    {todo : List ω'} (hclient : w.clients i = ⟨j :: todo, none⟩) :
    ∃ v', w₀.Reaches call v' ∧ World.Performs call script answer
      { w with clients := update w.clients i ⟨todo, some ⟨j, w.replies.length, outer j⟩⟩ } v' := by
  obtain ⟨played, hperforms, htallies⟩ := h.clients i
  rw [hclient] at hperforms
  cases hclient' : w'.clients i with
  | mk todo' running' =>
  rw [hclient'] at hperforms
  cases hperforms with
  | idle _ =>
      rw [List.flatMap_cons] at hclient'
      obtain ⟨v', more, running, cs, hv', hmoved, hshared, hv'client, hexchanges, hmidway⟩ :=
        World.settle hw' hclient'
      refine ⟨v', hv', h.move movedBy_update hmoved (hshared.trans h.shared) ⟨more, ?_, ?_⟩⟩
      · rw [hv'client]
        simp only [update_self]
        rw [houter]
        exact .busy todo j _ hmidway
      · rw [hexchanges]
        exact htallies.append more

/-- A job takes a step: the command under way takes it, and when it is over the
next one begins. -/
theorem performs_proceed (hw' : w₀.Reaches call w') (h : w.Performs call script answer w')
    {todo : List ω'} {r : Running κ ε τ ω' ρ'} (hclient : w.clients i = ⟨todo, some r⟩) :
    ∃ v', w₀.Reaches call v' ∧ World.Performs call script answer
      { w with
        shared := (r.rest.advance w.clock w.shared).2
        clients := update w.clients i
          ⟨todo, some { r with rest := (r.rest.advance w.clock w.shared).1 }⟩ } v' := by
  obtain ⟨played, hperforms, htallies⟩ := h.clients i
  obtain ⟨x, running, cs, hrest, hclient', hmidway⟩ := hperforms.midway (r := r) (by rw [hclient])
  rw [hrest, hclient] at *
  by_cases hx : ∃ as, x = .done as
  · -- nothing is left of the job
    obtain ⟨as, rfl⟩ := hx
    refine ⟨w', hw', h.move movedBy_update .refl h.shared ⟨played, ?_, htallies⟩⟩
    rw [hclient']
    simp only [update_self]
    exact .busy todo r.command r.began hmidway
  · have hlive : x.Live := fun as has => hx ⟨as, has⟩
    obtain ⟨v', more, running, cs', hv', hmoved, hshared, hv'client, hexchanges, hmidway'⟩ :=
      World.settle_turn hw' hclient' hmidway hlive
    rw [h.clock, h.shared] at hshared hmidway'
    rw [advance_bind hlive]
    refine ⟨v', hv', h.move movedBy_update hmoved hshared ⟨played ++ more, ?_, ?_⟩⟩
    · rw [hv'client]
      simp only [update_self]
      exact .busy todo r.command r.began hmidway'
    · rw [hexchanges]
      exact htallies.append more

/-- A world that performs the commands of the jobs can be reached. -/
def World.Performed (call : ω → Call κ ε τ ρ) (script : ω' → List ω) (answer : ω' → List ρ → ρ')
    (w₀ : World ι κ ε τ ω ρ) (w : World ι κ ε τ ω' ρ') : Prop :=
  ∃ w', w₀.Reaches call w' ∧ w.Performs call script answer w'

/-- What is performed stays performed, step by step. -/
theorem performs_reaches (houter : ∀ j, outer j = inOrder call (script j) >>= fun as =>
    pure (answer j as)) {v : World ι κ ε τ ω' ρ'} (h : w.Performs call script answer w')
    (hv : w.Reaches outer v) : World.Performed call script answer w' v := by
  refine hv.invariant (?_ : World.Performed call script answer w' _) fun w a h => ?_
  · exact ⟨w', ⟨[], rfl⟩, h⟩
  · obtain ⟨w', hw', h⟩ := h
    cases a with
    | tick t' =>
        refine ⟨_, hw'.step (.tick t'), ?_⟩
        rw [World.step, World.step, h.clock]
        split
        · exact ⟨h.shared, rfl, h.clients⟩
        · exact h
    | turn i =>
        refine World.turn_preserves (P := World.Performed call script answer _) ⟨w', hw', h⟩
          (fun j todo hclient => ?_) (fun todo r hclient => ?_)
          fun w todo j began result hw hclient => ?_
        · exact performs_begin houter hw' h hclient
        · exact performs_proceed hw' h hclient
        · obtain ⟨w', hw', h⟩ := hw
          exact ⟨w', hw', performs_reply h hclient⟩

/-- **Jobs are their commands.**  Whatever clients that run jobs reach, clients
that run the commands of their scripts reach with the same map at the same time;
every job was answered from the answers to its commands, and the commands
answered besides are those of the jobs under way. -/
theorem scripts_reaches (houter : ∀ j, outer j = inOrder call (script j) >>= fun as =>
    pure (answer j as)) {m : SharedMap κ ε} {t : τ} {program : ι → List ω'}
    (hw : (World.start m t program).Reaches outer w) :
    World.Performed call script answer (World.start m t fun i => (program i).flatMap script) w :=
  performs_reaches houter ⟨rfl, rfl, fun _ => ⟨[], .idle _, tallies_nil⟩⟩ hw

end Jobs

end Base
