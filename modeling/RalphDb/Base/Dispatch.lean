import RalphDb.Base.Script
import Mathlib.Data.List.Nodup
import Mathlib.Data.List.FinRange

/-!
# RalphDb.Base.Dispatch

Work that is handed out while clients run.

The programs of a world are fixed when it starts.  A dispatcher decides on the
way instead: `World.assign` gives a client one more command, `World.grant` gives
each client several.  That makes no difference to what is reached: a world in
which commands were handed out is reached from the start at which every client
has all of them (`Reaches.grant`), since a client with nothing to do does not
mind further turns.

What a client was given is what it has answered, is running and has still to run
(`Reaches.accounts`).
-/

namespace Base

open Function

namespace World

variable {ι κ ε τ ω ρ : Type} {w w₀ : World ι κ ε τ ω ρ} {i j : ι}

/-- More commands for every client. -/
def grantTo (clients : ι → Client κ ε τ ω ρ) (extra : ι → List ω) : ι → Client κ ε τ ω ρ :=
  fun i => ⟨(clients i).todo ++ extra i, (clients i).running⟩

/-- Give every client more commands. -/
def grant (w : World ι κ ε τ ω ρ) (extra : ι → List ω) : World ι κ ε τ ω ρ :=
  { w with clients := grantTo w.clients extra }

theorem start_grant (m : SharedMap κ ε) (t : τ) (program extra : ι → List ω) :
    (start m t program : World ι κ ε τ ω ρ).grant extra =
      start m t fun i => program i ++ extra i := rfl

theorem grant_nil (w : World ι κ ε τ ω ρ) : (w.grant fun _ => []) = w := by
  have hclients : grantTo w.clients (fun _ => []) = w.clients := by
    funext j
    rw [grantTo, List.append_nil]
  rw [grant, hclients]

variable [DecidableEq ι]

/-- One more command for client `i`. -/
def assignTo (clients : ι → Client κ ε τ ω ρ) (i : ι) (c : ω) : ι → Client κ ε τ ω ρ :=
  update clients i ⟨(clients i).todo ++ [c], (clients i).running⟩

/-- Give client `i` one more command. -/
def assign (w : World ι κ ε τ ω ρ) (i : ι) (c : ω) : World ι κ ε τ ω ρ :=
  { w with clients := assignTo w.clients i c }

theorem assignTo_apply (clients : ι → Client κ ε τ ω ρ) (i j : ι) (c : ω) :
    assignTo clients i c j =
      ⟨(clients j).todo ++ (if j = i then [c] else []), (clients j).running⟩ := by
  by_cases hj : j = i
  · subst hj
    simp only [assignTo, update_self, if_pos]
  · simp only [assignTo, update_of_ne hj, if_neg hj, List.append_nil]

theorem start_assign (m : SharedMap κ ε) (t : τ) (program : ι → List ω) (i : ι) (c : ω) :
    (start m t program : World ι κ ε τ ω ρ).assign i c =
      start m t (update program i (program i ++ [c])) := by
  have hclients : assignTo (fun j => (⟨program j, none⟩ : Client κ ε τ ω ρ)) i c =
      fun j => ⟨update program i (program i ++ [c]) j, none⟩ := by
    funext j
    by_cases hj : j = i
    · subst hj
      simp only [assignTo, update_self]
    · simp only [assignTo, update_of_ne hj]
  simp only [assign, start, hclients]

theorem assign_eq_grant (w : World ι κ ε τ ω ρ) (i : ι) (c : ω) :
    w.assign i c = w.grant fun j => if j = i then [c] else [] := by
  have hclients : assignTo w.clients i c =
      grantTo w.clients fun j => if j = i then [c] else [] :=
    funext fun j => assignTo_apply w.clients i j c
  rw [assign, grant, hclients]

theorem grant_assign (w : World ι κ ε τ ω ρ) (extra : ι → List ω) (i : ι) (c : ω) :
    (w.grant extra).assign i c = w.grant (update extra i (extra i ++ [c])) := by
  have hclients : assignTo (grantTo w.clients extra) i c =
      grantTo w.clients (update extra i (extra i ++ [c])) := by
    funext j
    rw [assignTo_apply]
    by_cases hj : j = i
    · subst hj
      simp only [grantTo, if_pos, update_self, List.append_assoc]
    · simp only [grantTo, if_neg hj, update_of_ne hj, List.append_nil]
  rw [assign, grant, hclients]
  rfl

/-- The commands come after those that a client has still to begin. -/
theorem grantTo_update (clients : ι → Client κ ε τ ω ρ) (extra : ι → List ω) (j : ι)
    (todo : List ω) (running : Option (Running κ ε τ ω ρ)) :
    grantTo (update clients j ⟨todo, running⟩) extra =
      update (grantTo clients extra) j ⟨todo ++ extra j, running⟩ := by
  funext k
  by_cases hk : k = j
  · subst hk
    rw [grantTo, update_self, update_self]
  · rw [grantTo, update_of_ne hk, update_of_ne hk, grantTo]

/-- A client goes on as before whoever is given commands. -/
theorem resume_grant (w : World ι κ ε τ ω ρ) (extra : ι → List ω) (j : ι) (d : ω) (began : Nat)
    (rest : Call κ ε τ ρ) :
    (w.grant extra).resume j d began rest = (w.resume j d began rest).grant extra := by
  cases rest <;> simp only [resume, grant, grantTo_update] <;> rfl

variable [DecidableEq κ] {call : ω → Call κ ε τ ρ}

/-- A turn of a client in the midst of a call. -/
theorem turn_running (call : ω → Call κ ε τ ρ) {todo : List ω} {r : Running κ ε τ ω ρ}
    (h : w.clients j = ⟨todo, some r⟩) : w.turn call j =
      { w with shared := (r.rest.advance w.clock w.shared).2 }.resume j r.command r.began
        (r.rest.advance w.clock w.shared).1 := by
  rw [turn, h]
  cases todo <;> rfl

/-- A turn of a client that has something to do. -/
theorem turn_grant (call : ω → Call κ ε τ ρ) (w : World ι κ ε τ ω ρ) (extra : ι → List ω)
    (h : w.clients j ≠ ⟨[], none⟩) :
    (w.grant extra).turn call j = (w.turn call j).grant extra := by
  have hclient : (w.grant extra).clients j = grantTo w.clients extra j := rfl
  rw [grantTo] at hclient
  rcases hw : w.clients j with ⟨todo, running⟩
  rw [hw] at hclient h
  cases running with
  | some r =>
      rw [turn_running call hclient, turn_running call hw, ← resume_grant]
      rfl
  | none =>
      cases todo with
      | nil => exact absurd rfl h
      | cons d todo =>
          rw [turn, hclient, turn, hw]
          rw [← resume_grant]
          simp only [grant, grantTo_update]
          rfl

variable [LE τ] [DecidableLE τ]

/-- The second world can be reached, but for the commands in `extra`. -/
def ReachesWith (call : ω → Call κ ε τ ρ) (w₀ : World ι κ ε τ ω ρ) (extra : ι → List ω)
    (w : World ι κ ε τ ω ρ) : Prop := w₀.Reaches call (w.grant extra)

/-- **Handing out commands on the way** reaches nothing new: the clients could
have had them before. -/
theorem Reaches.grant (h : w₀.Reaches call w) (extra : ι → List ω) :
    (w₀.grant extra).Reaches call (w.grant extra) := by
  refine h.invariant (?_ : ReachesWith call _ extra _) fun w a hw => ?_
  · exact Reaches.refl call _
  · cases a with
    | tick t' =>
        have htick : (w.step call (.tick t')).grant extra =
            (w.grant extra).step call (.tick t') := by
          have hclock : (w.grant extra).clock = w.clock := rfl
          rw [World.step, World.step, hclock]
          split <;> rfl
        rw [ReachesWith, htick]
        exact hw.step (.tick t')
    | turn j =>
        rw [ReachesWith, World.step]
        by_cases hidle : w.clients j = ⟨[], none⟩
        · have hturn : w.turn call j = w := by rw [World.turn, hidle]
          rw [hturn]
          exact hw
        · rw [← turn_grant call w extra hidle]
          exact hw.turn j

/-- A client is given a command. -/
theorem Reaches.assign (h : w₀.Reaches call w) (i : ι) (c : ω) :
    (w₀.assign i c).Reaches call (w.assign i c) := by
  rw [assign_eq_grant, assign_eq_grant]
  exact h.grant _

/-! ## Accounts -/

/-- The commands of a client are those it has answered, the one it is running and
those it has still to begin. -/
def Accounts (program : ι → List ω) (w : World ι κ ε τ ω ρ) : Prop :=
  ∀ i, program i = (exchanges w.replies i).map Prod.fst ++
    ((w.clients i).running.toList.map Running.command ++ (w.clients i).todo)

/-- **Accounts** are kept: no command is lost, and none is begun twice. -/
theorem Reaches.accounts {m : SharedMap κ ε} {t : τ} {program : ι → List ω}
    (h : (start m t program).Reaches call w) : Accounts program w := by
  refine h.invariant_of_turn (fun _ => rfl : Accounts program _) (fun _ _ hw => hw)
    fun w i hw => ?_
  refine turn_preserves (P := Accounts program) hw ?_ ?_ ?_
  · intro c todo hclient j
    by_cases hj : j = i
    · subst hj
      simpa [hclient] using hw j
    · simpa only [update_of_ne hj] using hw j
  · intro todo r hclient j
    by_cases hj : j = i
    · subst hj
      simpa [hclient] using hw j
    · simpa only [update_of_ne hj] using hw j
  · intro w todo c began result hw hclient j
    by_cases hj : j = i
    · subst hj
      simpa [hclient, exchanges_append_self] using hw j
    · simpa only [update_of_ne hj, exchanges_append_of_ne (r := ⟨i, c, began, result⟩) hj]
        using hw j

end World

/-! ## More jobs -/

section Jobs

variable {ι κ ε τ ω ρ ω' ρ' : Type} {call : ω → Call κ ε τ ρ} {script : ω' → List ω}
  {answer : ω' → List ρ → ρ'}

/-- A client is given more jobs, and the one that runs their commands these. -/
theorem Client.Performs.grant {client : Client κ ε τ ω' ρ'} {client' : Client κ ε τ ω ρ}
    {played : List (ω × ρ)} (h : client.Performs call script answer client' played)
    (more : List ω') :
    Client.Performs call script answer ⟨client.todo ++ more, client.running⟩
      ⟨client'.todo ++ more.flatMap script, client'.running⟩ played := by
  cases h with
  | idle todo =>
      rw [← List.flatMap_append]
      exact .idle (todo ++ more)
  | busy todo j began hmidway =>
      rw [List.append_assoc, ← List.flatMap_append]
      exact .busy (todo ++ more) j began hmidway

theorem World.Performs.grant [DecidableEq ι] {w : World ι κ ε τ ω' ρ'} {w' : World ι κ ε τ ω ρ}
    (h : w.Performs call script answer w') (extra : ι → List ω') :
    (w.grant extra).Performs call script answer
      (w'.grant fun i => (extra i).flatMap script) := by
  refine ⟨h.shared, h.clock, fun i => ?_⟩
  obtain ⟨played, hclient, htallies⟩ := h.clients i
  exact ⟨played, hclient.grant (extra i), htallies⟩

end Jobs

/-! ## All clients together -/

section Together

variable {n : Nat} {α ω ρ : Type}

/-- The lists of all clients. -/
def together (f : Fin n → List α) : List α := (List.finRange n).flatMap f

@[simp] theorem together_nil : together (fun _ : Fin n => ([] : List α)) = [] :=
  List.flatMap_eq_nil_iff.mpr fun _ _ => rfl

theorem mem_together {f : Fin n → List α} {i : Fin n} {a : α} (h : a ∈ f i) : a ∈ together f :=
  List.mem_flatMap.mpr ⟨i, List.mem_finRange i, h⟩

/-- One of the lists gets longer. -/
theorem perm_together_update (f : Fin n → List α) (i : Fin n) (a : α) :
    (together (update f i (f i ++ [a]))).Perm (together f ++ [a]) := by
  have hnodup := List.nodup_finRange n
  obtain ⟨before, after, heq⟩ := List.append_of_mem (List.mem_finRange i)
  rw [heq] at hnodup
  obtain ⟨hnot, _⟩ := List.nodup_cons.mp (List.nodup_middle.mp hnodup)
  have hothers : ∀ j ∈ before ++ after, update f i (f i ++ [a]) j = f j := by
    intro j hj
    refine update_of_ne ?_ _ _
    rintro rfl
    exact hnot hj
  have hbefore := List.flatMap_congr fun j hj => hothers j (List.mem_append_left after hj)
  have hafter := List.flatMap_congr fun j hj => hothers j (List.mem_append_right before hj)
  simp only [together, heq, List.flatMap_append, List.flatMap_cons, update_self, hbefore, hafter,
    List.append_assoc]
  refine List.Perm.append_left _ (List.Perm.append_left _ ?_)
  exact List.perm_append_comm

end Together

end Base
