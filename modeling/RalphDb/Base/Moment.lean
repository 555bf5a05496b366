import RalphDb.Base.Interleave
import Mathlib.Data.List.Induction

/-!
# RalphDb.Base.Moment

What an answer says of a moment of its call.

Between the accesses of a call other calls run, so its answer cannot say what
the map is by now, nor what it was when the call began.  It can say what the map
was at one of its accesses: `Dated Q` are the calls of which every answer stands
in `Q` to the clock and the map at some access.  Whatever the other clients do,
a reply to such a call then stands in `Q` to a moment of the schedule at which
the call was under way (`dated_reply`).
-/

namespace Base

namespace Call

variable {κ ε τ α β : Type} {Q : α → τ → SharedMap κ ε → Prop}

/-- Every answer stands in `Q` to the clock and the map at some access. -/
def Dated (Q : α → τ → SharedMap κ ε → Prop) : Call κ ε τ α → Prop
  | done _ => False
  | now next => ∀ t, (next t).Dated Q
  | access key _ next => ∀ t m,
      (next t (m key)).Upholds (fun _ => True) (fun a => Q a t m) ∨ (next t (m key)).Dated Q

theorem dated_atomic {key : κ} {f : τ → Option ε → α × Option ε}
    (h : ∀ t m, Q (f t (m key)).1 t m) : (atomic key f).Dated Q := fun t m => .inl (h t m)

/-- The answer is settled by the first part of the call. -/
theorem dated_bind {x : Call κ ε τ α} {f : α → Call κ ε τ β} {R : β → τ → SharedMap κ ε → Prop}
    (hx : x.Dated Q)
    (hf : ∀ a t m, Q a t m → (f a).Upholds (fun _ => True) fun b => R b t m) :
    (x >>= f).Dated R := by
  show (x.bind f).Dated R
  induction x with
  | done a => exact hx.elim
  | now next ih => exact fun t => ih t (hx t)
  | access key act next ih =>
      intro t m
      obtain hsettled | hdated := hx t m
      · exact .inl (upholds_bind hsettled fun a ha => hf a t m ha)
      · exact .inr (ih t (m key) hdated)

/-- The answer is settled by what comes after. -/
theorem dated_bind_of_forall (x : Call κ ε τ β) {f : β → Call κ ε τ α} (hf : ∀ b, (f b).Dated Q) :
    (x >>= f).Dated Q := by
  show (x.bind f).Dated Q
  induction x with
  | done b => exact hf b
  | now next ih => exact fun t => ih t
  | access key act next ih => exact fun t m => .inr (ih t (m key))

theorem dated_advance [DecidableEq κ] {x : Call κ ε τ α} (h : x.Dated Q) (t : τ)
    (m : SharedMap κ ε) :
    (x.advance t m).1.Upholds (fun _ => True) (fun a => Q a t m) ∨ (x.advance t m).1.Dated Q := by
  cases x with
  | done a => exact h.elim
  | now next => exact .inr (h t)
  | access key act next => exact h t m

/-- What the answer will satisfy it still will after a step. -/
theorem upholds_advance [DecidableEq κ] {P : α → Prop} {x : Call κ ε τ α}
    (h : x.Upholds (fun _ => True) P) (t : τ) (m : SharedMap κ ε) :
    (x.advance t m).1.Upholds (fun _ => True) P := by
  cases x with
  | done a => exact h
  | now next => exact h t
  | access key act next => exact (h t (m key) fun _ _ => trivial).2

end Call

namespace World

open Function

variable {ι κ ε τ ω ρ : Type} [DecidableEq ι] [DecidableEq κ] [LE τ] [DecidableLE τ]
  {call : ω → Call κ ε τ ρ} {start : World ι κ ε τ ω ρ} {schedule : List (Action ι τ)}

/-- At some moment of the schedule the call of the reply was under way, and the
clock and the map stood in `Q`. -/
def Moment (call : ω → Call κ ε τ ρ) (start : World ι κ ε τ ω ρ) (schedule : List (Action ι τ))
    (r : Reply ι ω ρ) (Q : τ → SharedMap κ ε → Prop) : Prop :=
  ∃ before after, schedule = before ++ after ∧
    (∃ rest, ((start.run call before).clients r.client).running =
      some ⟨r.command, r.began, rest⟩) ∧
    Q (start.run call before).clock (start.run call before).shared

theorem Moment.imp {r : Reply ι ω ρ} {Q Q' : τ → SharedMap κ ε → Prop}
    (h : Moment call start schedule r Q)
    (hQ : ∀ w, start.Reaches call w → Q w.clock w.shared → Q' w.clock w.shared) :
    Moment call start schedule r Q' := by
  obtain ⟨before, after, hschedule, hrunning, hmoment⟩ := h
  exact ⟨before, after, hschedule, hrunning, hQ _ ⟨before, rfl⟩ hmoment⟩

theorem Moment.append {r : Reply ι ω ρ} {Q : τ → SharedMap κ ε → Prop}
    (h : Moment call start schedule r Q) (a : Action ι τ) :
    Moment call start (schedule ++ [a]) r Q := by
  obtain ⟨before, after, rfl, hmoment⟩ := h
  exact ⟨before, after ++ [a], List.append_assoc _ _ _, hmoment⟩

/-- The moments of the replies to `c`, and of its calls under way as soon as
their answer is settled. -/
structure MomentInv (call : ω → Call κ ε τ ρ) (c : ω) (Q : ρ → τ → SharedMap κ ε → Prop)
    (start : World ι κ ε τ ω ρ) (schedule : List (Action ι τ)) (w : World ι κ ε τ ω ρ) : Prop where
  replies : ∀ r ∈ w.replies, r.command = c → Moment call start schedule r (Q r.result)
  running : ∀ i r, (w.clients i).running = some r → r.command = c →
    r.rest.Upholds (fun _ => True) (fun a =>
      Moment call start schedule ⟨i, c, r.began, a⟩ (Q a)) ∨ r.rest.Dated Q

variable {c : ω} {Q : ρ → τ → SharedMap κ ε → Prop} {w : World ι κ ε τ ω ρ}

theorem MomentInv.append (h : MomentInv call c Q start schedule w) (a : Action ι τ) :
    MomentInv call c Q start (schedule ++ [a]) w := by
  refine ⟨fun r hr hc => (h.replies r hr hc).append a, fun i r hr hc => ?_⟩
  exact (h.running i r hr hc).imp_left fun hsettled =>
    hsettled.imp fun _ hmoment => hmoment.append a

/-- The clock moves on. -/
theorem MomentInv.tick (h : MomentInv call c Q start schedule w) (t : τ) :
    MomentInv call c Q start schedule { w with clock := t } := ⟨h.replies, h.running⟩

/-- A turn, in the world that the schedule has led to. -/
theorem MomentInv.turn (hc : (call c).Dated Q)
    (h : MomentInv call c Q start schedule (start.run call schedule)) (i : ι) :
    MomentInv call c Q start (schedule ++ [.turn i]) ((start.run call schedule).turn call i) := by
  have hold := h.append (.turn i)
  refine turn_preserves hold (fun c' todo _ => ?_) (fun todo r hclient => ?_)
    fun w todo c' began result hw hclient => ?_
  · refine ⟨hold.replies, running_update (fun r hr hcommand => .inr ?_)
      fun j r _ hr => hold.running j r hr⟩
    obtain rfl := Option.some.inj hr
    obtain rfl : c' = c := hcommand
    exact hc
  · refine ⟨hold.replies, running_update (fun r' hr hcommand => ?_)
      fun j r _ hr => hold.running j r hr⟩
    obtain rfl := Option.some.inj hr
    obtain rfl : r.command = c := hcommand
    obtain hsettled | hdated := hold.running i r (by rw [hclient]) rfl
    · exact .inl (Call.upholds_advance hsettled _ _)
    · refine (Call.dated_advance hdated _ _).imp_left fun hsettled => hsettled.imp fun a ha => ?_
      exact ⟨schedule, [.turn i], rfl, ⟨r.rest, by rw [hclient]⟩, ha⟩
  · refine ⟨fun r hr hcommand => ?_, running_update (fun _ hr => by contradiction)
      fun j r _ hr => hw.running j r hr⟩
    rw [List.mem_append, List.mem_singleton] at hr
    obtain hr | rfl := hr
    · exact hw.replies r hr hcommand
    · obtain rfl : c' = c := hcommand
      obtain hsettled | hdated := hw.running i _ (by rw [hclient]) rfl
      · exact hsettled
      · exact hdated.elim

/-- **The moment of a reply.**  Whatever the clients and the schedule, every
reply to a dated call stands in `Q` to a moment at which the call was under
way. -/
theorem dated_reply (hc : (call c).Dated Q) (m : SharedMap κ ε) (t : τ) (program : ι → List ω)
    (schedule : List (Action ι τ)) {r : Reply ι ω ρ}
    (hr : r ∈ ((World.start m t program).run call schedule).replies) (hcommand : r.command = c) :
    Moment call (World.start m t program) schedule r (Q r.result) := by
  suffices hinv : MomentInv call c Q (World.start m t program) schedule
      ((World.start m t program).run call schedule) from hinv.replies r hr hcommand
  clear hr
  induction schedule using List.reverseRecOn with
  | nil => exact ⟨fun _ hr => by contradiction, fun _ _ hr => by contradiction⟩
  | append_singleton schedule a ih =>
      rw [World.run, List.foldl_append]
      cases a with
      | tick t' =>
          show MomentInv _ _ _ _ _ (if _ then _ else _)
          split
          · exact (ih.append _).tick t'
          · exact ih.append _
      | turn i => exact ih.turn hc i

end World

end Base
