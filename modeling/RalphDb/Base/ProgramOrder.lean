import RalphDb.Base.Dispatch
import RalphDb.Base.Linear
import Mathlib.Data.List.Pairwise

/-!
# RalphDb.Base.ProgramOrder

A linearization keeps the order of every client.

A client makes its calls one after the other: when it begins one, it has replied
to all earlier ones (`World.Ordered`).  A linearization puts no call before one
that had replied when it began; so the calls of a client stand in it in the
order in which the client made them (`Linearization.exchanges_eq`).

Where the clients run jobs whose commands linearize, the run is a history of the
commands, and each client has asked its share of it (`World.Chronicle`); what is
reached later has a history that begins with it (`World.Performs.chronicles`).
-/

namespace Base

open Function

/-! ## Two orders of one list -/

/-- A permutation that turns no pair around is the identity. -/
theorem eq_of_perm_of_order {α : Type} {R : α → α → Prop} {l l' : List α} (h : l.Perm l')
    (hasymm : ∀ a b, R a b → ¬ R b a) (hl : l.Pairwise fun a b => ¬ R b a) (hl' : l'.Pairwise R) :
    l = l' := by
  have hkeeps : l'.Pairwise fun a b => ¬ R b a := hl'.imp fun hR => hasymm _ _ hR
  refine List.Perm.eq_of_pairwise (fun a b ha hb hab hba => ?_) hl hkeeps h
  by_contra hne
  have hsymm : Std.Symm fun a b => R a b ∨ R b a := ⟨fun _ _ => Or.symm⟩
  have hone : l'.Pairwise fun a b => R a b ∨ R b a := hl'.imp .inl
  exact (hone.forall (h.subset ha) hb hne).elim hba hab

namespace World

variable {ι κ ε τ ω ρ : Type} {w : World ι κ ε τ ω ρ} {i : ι}

/-- A call of client `i` that began after all the replies to this client. -/
structure Follows (replies : List (Reply ι ω ρ)) (i : ι) (r : Running κ ε τ ω ρ) : Prop where
  began : r.began ≤ replies.length
  after : ∀ s ∈ replies, s.client = i → s ∈ replies.take r.began

/-- The replies of a client come one before the other began, and before the call
that it is running began. -/
structure Ordered (w : World ι κ ε τ ω ρ) : Prop where
  began : ∀ n, ∀ s ∈ w.replies.take n, s.began < n
  replied : w.replies.Pairwise fun r s => r.client = s.client → r ∈ w.replies.take s.began
  running : ∀ i r, (w.clients i).running = some r → Follows w.replies i r

/-- Further replies come last. -/
theorem mem_take_append {l : List (Reply ι ω ρ)} {n : Nat} {s : Reply ι ω ρ} (h : s ∈ l.take n)
    (l' : List (Reply ι ω ρ)) : s ∈ (l ++ l').take n := by
  rw [List.take_append]
  exact List.mem_append_left _ h

/-- A reply to a call that is running. -/
theorem Ordered.append [DecidableEq ι] (h : w.Ordered) {todo : List ω} {r : Running κ ε τ ω ρ}
    (hclient : w.clients i = ⟨todo, some r⟩) (result : ρ) :
    Ordered { w with
      clients := update w.clients i ⟨todo, none⟩
      replies := w.replies ++ [⟨i, r.command, r.began, result⟩] } := by
  obtain ⟨hbegan, hafter⟩ := h.running i r (by rw [hclient])
  refine ⟨fun n s hs => ?_, ?_, running_update (fun _ hr => by contradiction)
    fun j q hj hq => ⟨?_, fun s hs hsame => ?_⟩⟩
  · rw [List.take_append, List.mem_append] at hs
    obtain hs | hs := hs
    · exact h.began n s hs
    · obtain rfl := List.mem_singleton.mp (List.mem_of_mem_take hs)
      have hlt : 0 < n - w.replies.length := by
        by_contra hnot
        rw [Nat.eq_zero_of_not_pos hnot] at hs
        contradiction
      exact Nat.lt_of_le_of_lt hbegan (Nat.lt_of_sub_pos hlt)
  · refine List.pairwise_append.mpr ⟨?_, List.pairwise_singleton _ _, fun s hs q hq hsame => ?_⟩
    · exact h.replied.imp fun hR hclient => mem_take_append (hR hclient) _
    · obtain rfl := List.mem_singleton.mp hq
      exact mem_take_append (hafter s hs hsame) _
  · rw [List.length_append]
    exact Nat.le_add_right_of_le (h.running j q hq).began
  · rw [List.mem_append, List.mem_singleton] at hs
    obtain hs | rfl := hs
    · exact mem_take_append ((h.running j q hq).after s hs hsame) _
    · exact absurd hsame.symm hj

/-- **Clients are in order** in every world that is reached. -/
theorem Reaches.ordered [DecidableEq ι] [DecidableEq κ] [LE τ] [DecidableLE τ]
    {call : ω → Call κ ε τ ρ} {m : SharedMap κ ε} {t : τ} {program : ι → List ω}
    (h : (start m t program).Reaches call w) : w.Ordered := by
  refine h.invariant_of_turn ⟨fun n s hs => ?_, .nil, fun _ _ hr => by contradiction⟩
    (fun w _ hw => ⟨hw.began, hw.replied, hw.running⟩) fun w i hw => ?_
  · rw [start, List.take_nil] at hs
    contradiction
  · refine turn_preserves (P := Ordered) hw (fun c todo hclient => ?_) (fun todo r hclient => ?_)
      fun w todo c began result hw hclient => hw.append hclient result
    · refine ⟨hw.began, hw.replied, running_update (fun r hr => ?_)
        fun j r _ hr => hw.running j r hr⟩
      obtain rfl := Option.some.inj hr
      refine ⟨Nat.le_refl _, fun s hs _ => ?_⟩
      rwa [List.take_length]
    · refine ⟨hw.began, hw.replied, running_update (fun q hq => ?_)
        fun j q _ hq => hw.running j q hq⟩
      obtain rfl := Option.some.inj hq
      have hr := hw.running i r (by rw [hclient])
      exact ⟨hr.began, hr.after⟩

/-! ## The calls of a client in a linearization -/

section Linearized

variable [LE τ] {spec : Spec κ ε τ ω ρ} {t₀ : τ} {m₀ : SharedMap κ ε}
  {effects : List (Effect ι τ ω ρ)} {pending : List (Reply ι ω ρ)}

/-- Commands that are still to be begun do not matter. -/
theorem Linearization.of_grant {extra : ι → List ω}
    (h : (w.grant extra).Linearization spec t₀ m₀ effects pending) :
    w.Linearization spec t₀ m₀ effects pending :=
  ⟨h.legal, h.complete, h.underWay, h.once, h.order⟩

variable [DecidableEq ι]

/-- **Program order**: a linearization has the calls of a client in the order in
which the client made them, the pending one last. -/
theorem Linearization.calls_eq (h : w.Linearization spec t₀ m₀ effects pending) (hw : w.Ordered)
    (i : ι) : (effects.map Effect.call).filter (fun r => r.client = i) =
      w.replies.filter (fun r => r.client = i) ++ pending.filter (fun r => r.client = i) := by
  rw [← List.filter_append]
  refine eq_of_perm_of_order (R := fun r s => r ∈ w.replies.take s.began) (h.complete.filter _)
    (fun r s hrs hsr => ?_) ?_ ?_
  · exact Nat.lt_asymm (hw.began _ r hrs) (hw.began _ s hsr)
  · exact (List.pairwise_map.mpr h.order).filter _
  · rw [List.filter_append]
    have hreplied := (hw.replied.filter fun r => decide (r.client = i)).imp_of_mem
      (S := fun r s => r ∈ w.replies.take s.began) fun hr hs hR => hR (by
        rw [List.mem_filter, decide_eq_true_iff] at hr hs
        exact hr.2.trans hs.2.symm)
    refine List.pairwise_append.mpr ⟨hreplied, ?_, fun r hr p hp => ?_⟩
    · have honce := (List.pairwise_map.mp h.once).filter fun r => decide (r.client = i)
      refine honce.imp_of_mem fun {p q} hp hq hne => absurd ?_ hne
      rw [List.mem_filter, decide_eq_true_iff] at hp hq
      exact hp.2.trans hq.2.symm
    · rw [List.mem_filter, decide_eq_true_iff] at hr hp
      obtain ⟨rest, hrest⟩ := h.underWay p hp.1
      exact (hw.running _ _ hrest).after r hr.1 (hr.2.trans hp.2.symm)

/-- What a client has got answered, and its pending call. -/
theorem Linearization.exchanges_eq (h : w.Linearization spec t₀ m₀ effects pending)
    (hw : w.Ordered) (i : ι) : exchanges (effects.map Effect.call) i =
      exchanges w.replies i ++ exchanges pending i := by
  rw [exchanges, h.calls_eq hw i, List.map_append]
  rfl

/-- Only the call that a client is running is pending. -/
theorem Linearization.pending_cases (h : w.Linearization spec t₀ m₀ effects pending) (i : ι) :
    exchanges pending i = [] ∨
      ∃ r a, (w.clients i).running = some r ∧ exchanges pending i = [(r.command, a)] := by
  have honce : (pending.filter fun p => p.client = i).Pairwise fun _ _ => False := by
    refine ((List.pairwise_map.mp h.once).filter fun p => decide (p.client = i)).imp_of_mem
      fun {p q} hp hq hne => hne ?_
    rw [List.mem_filter, decide_eq_true_iff] at hp hq
    exact hp.2.trans hq.2.symm
  rcases hfilter : pending.filter fun p => p.client = i with _ | ⟨p, _ | ⟨q, ps⟩⟩
  · exact .inl (by rw [exchanges, hfilter, List.map_nil])
  · have hp : p ∈ pending.filter fun p => p.client = i := by rw [hfilter]; exact List.mem_cons_self
    rw [List.mem_filter, decide_eq_true_iff] at hp
    obtain ⟨rest, hrest⟩ := h.underWay p hp.1
    rw [hp.2] at hrest
    exact .inr ⟨_, p.result, hrest, by rw [exchanges, hfilter]; rfl⟩
  · rw [hfilter] at honce
    exact absurd ((List.pairwise_cons.mp honce).1 q List.mem_cons_self) not_false

end Linearized

/-! ## The commands of jobs in a linearization -/

section Jobs

variable {ω' ρ' : Type} {call : ω → Call κ ε τ ρ} {script : ω' → List ω}
  {answer : ω' → List ρ → ρ'} {outer : ω' → Call κ ε τ ρ'}

variable [DecidableEq ι]

/-- The commands of the jobs that client `i` has answered, with the answers that
these were made of, and of the job it is running, as far as it has got. -/
def Recounts (call : ω → Call κ ε τ ρ) (script : ω' → List ω) (answer : ω' → List ρ → ρ')
    (w : World ι κ ε τ ω' ρ') (i : ι) (history : List (ω × ρ)) : Prop :=
  ∃ (finished : List (ω' × List ρ)) (played : List (ω × ρ)),
    exchanges w.replies i = finished.map (fun f => (f.1, answer f.1 f.2)) ∧
    (∀ f ∈ finished, f.2.length = (script f.1).length) ∧
    history = (finished.flatMap fun f => (script f.1).zip f.2) ++ played ∧
    ((w.clients i).running = none → played = []) ∧
    ∀ r, (w.clients i).running = some r →
      played.map Prod.fst <+: script r.command ∧ r.Recalls call script answer played

/-- What the commands have been answered, and possibly the command under way, is
the history of the jobs. -/
theorem Performs.recounts {w : World ι κ ε τ ω' ρ'} {v : World ι κ ε τ ω ρ}
    (h : w.Performs call script answer v) (i : ι) {more : List (ω × ρ)}
    (hmore : more = [] ∨ ∃ r a, (v.clients i).running = some r ∧ more = [(r.command, a)]) :
    w.Recounts call script answer i (exchanges v.replies i ++ more) := by
  obtain ⟨played, hclient, finished, hdone, hlengths, hdone'⟩ := h.clients i
  refine ⟨finished, played ++ more, hdone, hlengths, ?_, fun hidle => ?_, fun r hr => ?_⟩
  · rw [hdone', List.append_assoc]
  · exact hclient.append_eq_nil hidle hmore
  · obtain ⟨x, running, cs, hrest, hclient', hmidway⟩ := hclient.midway hr
    rw [hclient'] at hmore
    exact ⟨hmidway.isPrefix hmore, x, played, running, cs, more, hrest, hmidway, rfl, hmore⟩

/-- One legal history of commands that ends in the shared map, of which each
client has asked its share: a linearization of clients that run the commands of
the jobs in `program` and are as far as these. -/
structure Chronicle [DecidableEq κ] [LE τ] [DecidableLE τ] (spec : Spec κ ε τ ω ρ) (t₀ : τ)
    (m₀ : SharedMap κ ε) (call : ω → Call κ ε τ ρ) (script : ω' → List ω)
    (answer : ω' → List ρ → ρ') (program : ι → List ω') (w : World ι κ ε τ ω' ρ')
    (effects : List (Effect ι τ ω ρ)) : Prop where
  legal : ∃ t, t ≤ w.clock ∧ Legal spec t₀ m₀ effects t w.shared
  recounts : ∀ i, w.Recounts call script answer i (exchanges (effects.map Effect.call) i)
  performed : ∃ v pending, (start m₀ t₀ fun i => (program i).flatMap script).Reaches call v ∧
    w.Performs call script answer v ∧ v.Linearization spec t₀ m₀ effects pending

variable [DecidableEq κ]

/-- A linearization of the commands is a history of the jobs. -/
theorem Linearization.chronicle [LE τ] [DecidableLE τ] {spec : Spec κ ε τ ω ρ} {t₀ : τ}
    {m₀ : SharedMap κ ε} {program : ι → List ω'} {w : World ι κ ε τ ω' ρ'}
    {v : World ι κ ε τ ω ρ} {effects : List (Effect ι τ ω ρ)} {pending : List (Reply ι ω ρ)}
    (h : v.Linearization spec t₀ m₀ effects pending)
    (hv : (start m₀ t₀ fun i => (program i).flatMap script).Reaches call v)
    (hperforms : w.Performs call script answer v) :
    w.Chronicle spec t₀ m₀ call script answer program effects := by
  refine ⟨?_, fun i => ?_, v, pending, hv, hperforms, h⟩
  · rw [← hperforms.clock, ← hperforms.shared]
    exact h.legal
  · rw [h.exchanges_eq hv.ordered i]
    exact hperforms.recounts i (h.pending_cases i)

/-- **Jobs whose commands linearize** have one history, and what they lead to, when
the clients are given more jobs, has one that begins with it. -/
theorem Performs.chronicles [PartialOrder τ] [DecidableLE τ]
    {spec : Spec κ ε τ ω ρ} {t₀ last : τ} {m₀ : SharedMap κ ε} {V : κ → Option ε → Prop}
    {program extra : ι → List ω'} {w w' : World ι κ ε τ ω' ρ'} {v : World ι κ ε τ ω ρ}
    (houter : ∀ j, outer j = Call.inOrder call (script j) >>= fun as => pure (answer j as))
    (hm : ∀ key, V key (m₀ key))
    (hprogram : ∀ i, ∀ c ∈ (program i ++ extra i).flatMap script,
      (call c).Linearizes last V (spec c))
    (hv : (start m₀ t₀ fun i => (program i).flatMap script).Reaches call v)
    (h : w.Performs call script answer v) (hw' : (w.grant extra).Reaches outer w')
    (hclock : w'.clock ≤ last) :
    ∃ effects more, w.Chronicle spec t₀ m₀ call script answer program effects ∧
      w'.Chronicle spec t₀ m₀ call script answer (fun i => program i ++ extra i)
        (effects ++ more) := by
  have hgranted := hv.grant fun i => (extra i).flatMap script
  simp only [start_grant, ← List.flatMap_append] at hgranted
  obtain ⟨v', hv', h'⟩ := performs_reaches houter (h.grant extra) hw'
  rw [← h'.clock] at hclock
  obtain ⟨effects, pending, more, pending', heffects, heffects'⟩ :=
    linearizable_extends hm hprogram hgranted hv' hclock
  exact ⟨effects, more, heffects.of_grant.chronicle hv h,
    heffects'.chronicle (hgranted.trans hv') h'⟩

end Jobs

end World

end Base
