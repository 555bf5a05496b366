import RalphDb.Base.Interleave
import Mathlib.Data.List.Nodup

/-!
# RalphDb.Base.Linear

Linearizability, from linearization points.

A call *linearizes* when it takes effect at one access: before it the call has
changed nothing, there it changes and will answer what a sequential
specification does in one piece, and after it it changes nothing more
(`Call.Linearizes`).  Clients that run such calls have, in every reachable
world, a *linearization* (`World.Linearization`): a sequential history of the
calls that have taken effect, legal for the specification and ending in the
shared map, in which

* every call that has replied occurs once, with its answer;
* besides these there is at most the call that each client is running;
* no call comes before one that had replied when it began.

The history is built along the schedule: a call enters it with the access at
which it takes effect, and what is in it stays there (`linearizable_extends`).
-/

namespace Base

open Call Function

/-- What a command does to the whole map at an instant, and what it answers. -/
abbrev Spec (κ ε τ ω ρ : Type) : Type := ω → τ → SharedMap κ ε → ρ × SharedMap κ ε

/-! ## Linearization points -/

namespace Call

variable {κ ε τ α β : Type} [DecidableEq κ] [LE τ] {last : τ} {V : κ → Option ε → Prop}
  {spec : τ → SharedMap κ ε → α × SharedMap κ ε}

/-- Up to the instant `last` and on entries in `V`, the call takes effect at one
access, as `spec` says. -/
def Linearizes (last : τ) (V : κ → Option ε → Prop) (spec : τ → SharedMap κ ε → α × SharedMap κ ε) :
    Call κ ε τ α → Prop
  | done a => ∀ t m, t ≤ last → (∀ key, V key (m key)) → spec t m = (a, m)
  | now next => ∀ t, t ≤ last → (next t).Linearizes last V spec
  | access key act next => ∀ t m, t ≤ last → (∀ key, V key (m key)) →
      (act t (m key) = m key ∧ (next t (m key)).Linearizes last V spec) ∨
        ∃ a, spec t m = (a, update m key (act t (m key))) ∧ V key (act t (m key)) ∧
          (next t (m key)).Observes V (· = a)

/-- A call that takes effect when it begins. -/
theorem linearizes_pure {a : α} (h : ∀ t m, spec t m = (a, m)) :
    (pure a : Call κ ε τ α).Linearizes last V spec := fun t m _ _ => h t m

/-- An access that changes nothing, before the effect. -/
theorem linearizes_read_bind {key : κ} {f : τ → Option ε → α × Option ε} {g : α → Call κ ε τ β}
    {spec : τ → SharedMap κ ε → β × SharedMap κ ε} (hread : ∀ t entry, (f t entry).2 = entry)
    (h : ∀ t entry, t ≤ last → V key entry → (g (f t entry).1).Linearizes last V spec) :
    (atomic key f >>= g).Linearizes last V spec :=
  fun t m ht hm => .inl ⟨hread t (m key), h t (m key) ht (hm key)⟩

/-- The access of the effect, after which the answer is known. -/
theorem linearizes_effect_bind {key : κ} {f : τ → Option ε → α × Option ε} {g : α → Call κ ε τ β}
    (h : ∀ t entry, t ≤ last → V key entry →
      V key (f t entry).2 ∧ ∃ b, g (f t entry).1 = pure b) :
    (atomic key f >>= g).Linearizes last V fun t m => (atomic key f >>= g).runAt t m := by
  intro t m ht hm
  obtain ⟨hleft, b, hb⟩ := h t (m key) ht (hm key)
  refine .inr ⟨b, ?_, hleft, ?_⟩
  · simp only [runAt_bind, runAt_atomic, hb, runAt_pure]
  · show (g (f t (m key)).1).Observes V (· = b)
    rw [hb]
    exact observes_pure rfl

/-- The specification matters on admissible instants and maps only. -/
theorem Linearizes.congr {x : Call κ ε τ α} {spec' : τ → SharedMap κ ε → α × SharedMap κ ε}
    (h : x.Linearizes last V spec)
    (hspec : ∀ t m a m', t ≤ last → (∀ key, V key (m key)) → (∀ key, V key (m' key)) →
      spec t m = (a, m') → spec' t m = (a, m')) : x.Linearizes last V spec' := by
  induction x with
  | done a => exact fun t m ht hm => hspec t m a m ht hm hm (h t m ht hm)
  | now next ih => exact fun t ht => ih t (h t ht)
  | access key act next ih =>
      intro t m ht hm
      obtain ⟨hsame, hnext⟩ | ⟨a, heffect, hleft, hrest⟩ := h t m ht hm
      · exact .inl ⟨hsame, ih t (m key) hnext⟩
      · refine .inr ⟨a, hspec t m a _ ht hm ?_ heffect, hleft, hrest⟩
        exact (forall_update_iff m _).mpr ⟨hleft, fun key' _ => hm key'⟩

/-- One step: nothing changes, or it is the effect. -/
theorem linearizes_advance {x : Call κ ε τ α} {t : τ} {m : SharedMap κ ε}
    (h : x.Linearizes last V spec) (ht : t ≤ last) (hm : ∀ key, V key (m key)) :
    ((x.advance t m).2 = m ∧ (x.advance t m).1.Linearizes last V spec) ∨
      ∃ a, spec t m = (a, (x.advance t m).2) ∧ (∀ key, V key ((x.advance t m).2 key)) ∧
        (x.advance t m).1.Observes V (· = a) := by
  cases x with
  | done a => exact .inl ⟨rfl, h⟩
  | now next => exact .inl ⟨rfl, h t ht⟩
  | access key act next =>
      obtain ⟨hsame, hnext⟩ | ⟨a, heffect, hleft, hrest⟩ := h t m ht hm
      · refine .inl ⟨?_, hnext⟩
        show update m key (act t (m key)) = m
        rw [hsame, update_eq_self]
      · exact .inr ⟨a, heffect, (forall_update_iff m _).mpr ⟨hleft, fun key' _ => hm key'⟩, hrest⟩

end Call

/-! ## Histories -/

/-- A call that has taken effect, and the instant at which it did. -/
structure Effect (ι τ ω ρ : Type) where
  call : Reply ι ω ρ
  instant : τ

section History

variable {ι κ ε τ ω ρ : Type} [LE τ]

/-- The effects follow one another: each at an instant not before the last, with
the answer and the map that the specification gives. -/
inductive Legal (spec : Spec κ ε τ ω ρ) (t₀ : τ) (m₀ : SharedMap κ ε) :
    List (Effect ι τ ω ρ) → τ → SharedMap κ ε → Prop
  | nil : Legal spec t₀ m₀ [] t₀ m₀
  | snoc {effects : List (Effect ι τ ω ρ)} {t : τ} {m m' : SharedMap κ ε}
      (legal : Legal spec t₀ m₀ effects t m) (e : Effect ι τ ω ρ) (later : t ≤ e.instant)
      (answers : spec e.call.command e.instant m = (e.call.result, m')) :
      Legal spec t₀ m₀ (effects ++ [e]) e.instant m'

/-- A sequential history of the calls that have taken effect; `pending` are those
of them that have not replied. -/
structure World.Linearization (spec : Spec κ ε τ ω ρ) (t₀ : τ) (m₀ : SharedMap κ ε)
    (w : World ι κ ε τ ω ρ) (effects : List (Effect ι τ ω ρ)) (pending : List (Reply ι ω ρ)) :
    Prop where
  legal : ∃ t, t ≤ w.clock ∧ Legal spec t₀ m₀ effects t w.shared
  complete : (effects.map Effect.call).Perm (w.replies ++ pending)
  underWay : ∀ p ∈ pending, ∃ rest,
    (w.clients p.client).running = some ⟨p.command, p.began, rest⟩
  once : (pending.map Reply.client).Nodup
  order : effects.Pairwise fun e e' => e'.call ∉ w.replies.take e.call.began

end History

/-! ## The history of a schedule -/

section Invariant

variable {ι κ ε τ ω ρ : Type} [DecidableEq κ] [Preorder τ] {t₀ last : τ}
  {m₀ : SharedMap κ ε} {V : κ → Option ε → Prop} {spec : Spec κ ε τ ω ρ}
  {call : ω → Call κ ε τ ρ} {w : World ι κ ε τ ω ρ} {effects : List (Effect ι τ ω ρ)}
  {pending : List (Reply ι ω ρ)}

/-- A call under way: it began after all earlier calls of its client had
replied, and it is pending or has not taken effect. -/
structure Flight (last : τ) (V : κ → Option ε → Prop) (spec : Spec κ ε τ ω ρ)
    (replies pending : List (Reply ι ω ρ)) (i : ι) (r : Running κ ε τ ω ρ) : Prop where
  began : r.began ≤ replies.length
  after : ∀ s ∈ replies, s.client = i → s.began < r.began
  point : (∃ p ∈ pending, p.client = i ∧ p.command = r.command ∧ p.began = r.began ∧
      r.rest.Observes V (· = p.result)) ∨
    ((∀ p ∈ pending, p.client ≠ i) ∧ r.rest.Linearizes last V (spec r.command))

structure LinearInv (t₀ last : τ) (m₀ : SharedMap κ ε) (V : κ → Option ε → Prop)
    (spec : Spec κ ε τ ω ρ) (call : ω → Call κ ε τ ρ) (w : World ι κ ε τ ω ρ)
    (effects : List (Effect ι τ ω ρ)) (pending : List (Reply ι ω ρ)) : Prop
    extends w.Linearization spec t₀ m₀ effects pending where
  sound : ∀ key, V key (w.shared key)
  began : ∀ e ∈ effects, e.call.began ≤ w.replies.length
  replied : ∀ s ∈ w.replies, s.began < w.replies.length
  todo : ∀ i, ∀ c ∈ (w.clients i).todo, (call c).Linearizes last V (spec c)
  flight : ∀ i r, (w.clients i).running = some r → Flight last V spec w.replies pending i r

/-- A call under way is none of the replies. -/
theorem Flight.not_mem {i : ι} {r : Running κ ε τ ω ρ}
    (h : Flight last V spec w.replies pending i r) (result : ρ) :
    ⟨i, r.command, r.began, result⟩ ∉ w.replies :=
  fun hmem => Nat.lt_irrefl _ (h.after _ hmem rfl)

/-- The flights of the other clients do not mind what client `i` does. -/
theorem Flight.append {i j : ι} {r : Running κ ε τ ω ρ} {p : Reply ι ω ρ}
    (h : Flight last V spec w.replies pending j r) (hp : p.client = i) (hj : j ≠ i) :
    Flight last V spec w.replies (pending ++ [p]) j r := by
  refine ⟨h.began, h.after, ?_⟩
  obtain ⟨q, hq, hpoint⟩ | ⟨hnone, hrest⟩ := h.point
  · exact .inl ⟨q, List.mem_append_left _ hq, hpoint⟩
  · refine .inr ⟨fun q hq => ?_, hrest⟩
    rw [List.mem_append, List.mem_singleton] at hq
    obtain hq | rfl := hq
    · exact hnone q hq
    · rw [hp]
      exact Ne.symm hj

/-- Nor that client `i` replies. -/
theorem Flight.reply {i j : ι} {r : Running κ ε τ ω ρ} {replies before after : List (Reply ι ω ρ)}
    {p : Reply ι ω ρ} (h : Flight last V spec replies (before ++ p :: after) j r)
    (hp : p.client = i) (hj : j ≠ i) :
    Flight last V spec (replies ++ [p]) (before ++ after) j r := by
  have hsubset : before ++ after ⊆ before ++ p :: after :=
    (List.sublist_cons_self p after).append_left before |>.subset
  refine ⟨?_, fun s hs hclient => ?_, ?_⟩
  · rw [List.length_append]
    exact Nat.le_add_right_of_le h.began
  · rw [List.mem_append, List.mem_singleton] at hs
    obtain hs | rfl := hs
    · exact h.after s hs hclient
    · exact absurd (hclient.symm.trans hp) hj
  · obtain ⟨q, hq, hclient, hpoint⟩ | ⟨hnone, hrest⟩ := h.point
    · refine .inl ⟨q, ?_, hclient, hpoint⟩
      rw [List.mem_append, List.mem_cons] at hq
      rw [List.mem_append]
      obtain hq | rfl | hq := hq
      · exact .inl hq
      · exact absurd (hclient.symm.trans hp) hj
      · exact .inr hq
    · exact .inr ⟨fun q hq => hnone q (hsubset hq), hrest⟩

/-- Before anything has run, the history is empty. -/
theorem linearInv_start {program : ι → List ω} (hm : ∀ key, V key (m₀ key))
    (hprogram : ∀ i, ∀ c ∈ program i, (call c).Linearizes last V (spec c)) :
    LinearInv t₀ last m₀ V spec call (World.start m₀ t₀ program) [] [] :=
  ⟨⟨⟨t₀, le_refl _, .nil⟩, .refl _, fun _ hp => by contradiction, .nil, .nil⟩, hm,
    fun _ he => by contradiction, fun _ hs => by contradiction, hprogram,
    fun _ _ hr => by contradiction⟩

/-- Up to the instant `last` there is a linearization that goes on from `effects`. -/
def LinearUpTo (t₀ last : τ) (m₀ : SharedMap κ ε) (V : κ → Option ε → Prop)
    (spec : Spec κ ε τ ω ρ) (call : ω → Call κ ε τ ρ) (effects : List (Effect ι τ ω ρ))
    (w : World ι κ ε τ ω ρ) : Prop :=
  w.clock ≤ last → ∃ more pending, LinearInv t₀ last m₀ V spec call w (effects ++ more) pending

theorem LinearUpTo.tick (h : LinearUpTo t₀ last m₀ V spec call effects w) {t : τ}
    (hle : w.clock ≤ t) : LinearUpTo t₀ last m₀ V spec call effects { w with clock := t } := by
  intro hlast
  obtain ⟨more, pending, hinv⟩ := h (le_trans hle hlast)
  obtain ⟨t', ht', hlegal⟩ := hinv.legal
  exact ⟨more, pending, { hinv with legal := ⟨t', le_trans ht' hle, hlegal⟩ }⟩

variable [DecidableEq ι]

/-! ## What a turn does to the history -/

theorem LinearInv.begin (h : LinearInv t₀ last m₀ V spec call w effects pending) {i : ι} {c : ω}
    {todo : List ω} (hclient : w.clients i = ⟨c :: todo, none⟩) :
    LinearInv t₀ last m₀ V spec call
      { w with clients := update w.clients i ⟨todo, some ⟨c, w.replies.length, call c⟩⟩ }
      effects pending := by
  have hidle : ∀ p ∈ pending, p.client ≠ i := by
    intro p hp heq
    obtain ⟨rest, hrest⟩ := h.underWay p hp
    rw [heq, hclient] at hrest
    contradiction
  have hc : (call c).Linearizes last V (spec c) := h.todo i c (by simp [hclient])
  refine ⟨⟨h.legal, h.complete, fun p hp => ?_, h.once, h.order⟩, h.sound, h.began, h.replied,
    World.todo_update h.todo (by simp [hclient]), World.running_update (fun r hr => ?_)
      fun j r _ hr => h.flight j r hr⟩
  · simp only [update_of_ne (hidle p hp)]
    exact h.underWay p hp
  · obtain rfl := Option.some.inj hr
    exact ⟨Nat.le_refl _, fun s hs _ => h.replied s hs, .inr ⟨hidle, hc⟩⟩

/-- A step that changes nothing. -/
theorem LinearInv.silent (h : LinearInv t₀ last m₀ V spec call w effects pending) {i : ι}
    {todo : List ω} {r : Running κ ε τ ω ρ} {rest : Call κ ε τ ρ}
    (hclient : w.clients i = ⟨todo, some r⟩)
    (hrest : Flight last V spec w.replies pending i { r with rest := rest }) :
    LinearInv t₀ last m₀ V spec call
      { w with clients := update w.clients i ⟨todo, some { r with rest := rest }⟩ }
      effects pending := by
  refine ⟨⟨h.legal, h.complete, fun p hp => ?_, h.once, h.order⟩, h.sound, h.began, h.replied,
    World.todo_update h.todo (by simp [hclient]), World.running_update (fun r hr => ?_)
      fun j r _ hr => h.flight j r hr⟩
  · exact World.underWay_update hclient (h.underWay p hp)
  · obtain rfl := Option.some.inj hr
    exact hrest

/-- The step at which a call takes effect. -/
theorem LinearInv.effect (h : LinearInv t₀ last m₀ V spec call w effects pending) {i : ι}
    {todo : List ω} {r : Running κ ε τ ω ρ} {rest : Call κ ε τ ρ} {m : SharedMap κ ε} {a : ρ}
    (hclient : w.clients i = ⟨todo, some r⟩) (hnone : ∀ p ∈ pending, p.client ≠ i)
    (heffect : spec r.command w.clock w.shared = (a, m)) (hm : ∀ key, V key (m key))
    (hrest : rest.Observes V (· = a)) :
    LinearInv t₀ last m₀ V spec call
      { w with
        shared := m
        clients := update w.clients i ⟨todo, some { r with rest := rest }⟩ }
      (effects ++ [⟨⟨i, r.command, r.began, a⟩, w.clock⟩])
      (pending ++ [⟨i, r.command, r.began, a⟩]) := by
  have hflight : Flight last V spec w.replies pending i r := h.flight i r (by rw [hclient])
  obtain ⟨t, ht, hlegal⟩ := h.legal
  refine ⟨⟨⟨w.clock, le_refl _, hlegal.snoc _ ht heffect⟩, ?_, ?_, ?_, ?_⟩, hm, ?_, h.replied,
    World.todo_update h.todo (by simp [hclient]), World.running_update (fun r hr => ?_)
      fun j r hj hr => (h.flight j r hr).append rfl hj⟩
  · rw [List.map_append, ← List.append_assoc]
    exact h.complete.append_right _
  · intro p hp
    rw [List.mem_append, List.mem_singleton] at hp
    obtain hp | rfl := hp
    · exact World.underWay_update hclient (h.underWay p hp)
    · exact ⟨rest, by simp only [update_self]⟩
  · rw [List.map_append, List.map_singleton]
    refine List.nodup_append.mpr ⟨h.once, List.nodup_singleton _, ?_⟩
    rintro x hx y hy rfl
    obtain ⟨p, hp, rfl⟩ := List.mem_map.mp hx
    exact hnone p hp (List.mem_singleton.mp hy)
  · refine List.pairwise_append.mpr ⟨h.order, List.pairwise_singleton _ _, fun e _ e' he' => ?_⟩
    rw [List.mem_singleton.mp he']
    exact fun hmem => hflight.not_mem a (List.mem_of_mem_take hmem)
  · intro e he
    rw [List.mem_append, List.mem_singleton] at he
    obtain he | rfl := he
    · exact h.began e he
    · exact hflight.began
  · obtain rfl := Option.some.inj hr
    exact ⟨hflight.began, hflight.after,
      .inl ⟨_, List.mem_append_right _ (List.mem_singleton_self _), rfl, rfl, rfl, hrest⟩⟩

/-- A step of a call under way. -/
theorem LinearInv.proceed (h : LinearInv t₀ last m₀ V spec call w effects pending)
    (hclock : w.clock ≤ last) {i : ι} {todo : List ω} {r : Running κ ε τ ω ρ}
    (hclient : w.clients i = ⟨todo, some r⟩) :
    ∃ more pending', LinearInv t₀ last m₀ V spec call
      { w with
        shared := (r.rest.advance w.clock w.shared).2
        clients := update w.clients i
          ⟨todo, some { r with rest := (r.rest.advance w.clock w.shared).1 }⟩ }
      (effects ++ more) pending' := by
  obtain ⟨hbegan, hafter, ⟨p, hp, hpoint⟩ | ⟨hnone, hrest⟩⟩ := h.flight i r (by rw [hclient])
  · obtain ⟨hclientp, hcommand, hbeganp, hrest⟩ := hpoint
    obtain ⟨hsame, hrest'⟩ := observes_advance hrest h.sound w.clock
    rw [hsame]
    refine ⟨[], pending, ?_⟩
    rw [List.append_nil]
    exact h.silent hclient ⟨hbegan, hafter, .inl ⟨p, hp, hclientp, hcommand, hbeganp, hrest'⟩⟩
  · obtain ⟨hsame, hrest'⟩ | ⟨a, heffect, hm, hrest'⟩ := linearizes_advance hrest hclock h.sound
    · rw [hsame]
      refine ⟨[], pending, ?_⟩
      rw [List.append_nil]
      exact h.silent hclient ⟨hbegan, hafter, .inr ⟨hnone, hrest'⟩⟩
    · exact ⟨_, _, h.effect hclient hnone heffect hm hrest'⟩

/-- The reply to a call that has taken effect. -/
theorem LinearInv.settle (h : LinearInv t₀ last m₀ V spec call w effects pending) {i : ι}
    {todo : List ω} {c : ω} {began : Nat} {result : ρ}
    (hclient : w.clients i = ⟨todo, some ⟨c, began, .done result⟩⟩)
    (hmem : ⟨i, c, began, result⟩ ∈ pending) :
    ∃ pending', LinearInv t₀ last m₀ V spec call
      { w with
        clients := update w.clients i ⟨todo, none⟩
        replies := w.replies ++ [⟨i, c, began, result⟩] }
      effects pending' := by
  have hflight := h.flight i _ (by rw [hclient])
  obtain ⟨before, after, rfl⟩ := List.append_of_mem hmem
  have honce := h.once
  rw [List.map_append, List.map_cons, List.nodup_middle, List.nodup_cons, ← List.map_append]
    at honce
  have hothers : ∀ p ∈ before ++ after, p.client ≠ i :=
    fun p hp heq => honce.1 (List.mem_map.mpr ⟨p, hp, heq⟩)
  refine ⟨before ++ after, ⟨⟨h.legal, ?_, fun p hp => ?_, honce.2, ?_⟩, h.sound,
    fun e he => ?_, began_lt_append h.replied hflight.began,
    World.todo_update h.todo (by simp [hclient]),
    World.running_update (fun _ hr => by contradiction)
      fun j r hj hr => (h.flight j r hr).reply rfl hj⟩⟩
  · refine h.complete.trans ?_
    rw [List.append_assoc, List.singleton_append]
    exact List.Perm.append_left _ List.perm_middle
  · simp only [update_of_ne (hothers p hp)]
    refine h.underWay p ?_
    rw [List.mem_append, List.mem_cons]
    rw [List.mem_append] at hp
    exact hp.imp_right .inr
  · refine h.order.imp_of_mem fun {e e'} he _ hnot => ?_
    rwa [List.take_append_of_le_length (h.began e he)]
  · rw [List.length_append]
    exact Nat.le_add_right_of_le (h.began e he)

/-- A reply. -/
theorem LinearInv.reply (h : LinearInv t₀ last m₀ V spec call w effects pending)
    (hclock : w.clock ≤ last) {i : ι} {todo : List ω} {c : ω} {began : Nat} {result : ρ}
    (hclient : w.clients i = ⟨todo, some ⟨c, began, .done result⟩⟩) :
    ∃ more pending', LinearInv t₀ last m₀ V spec call
      { w with
        clients := update w.clients i ⟨todo, none⟩
        replies := w.replies ++ [⟨i, c, began, result⟩] }
      (effects ++ more) pending' := by
  obtain ⟨_, _, ⟨p, hp, rfl, rfl, rfl, hresult⟩ | ⟨hnone, hrest⟩⟩ := h.flight i _ (by rw [hclient])
  · obtain rfl : result = p.result := hresult
    refine ⟨[], ?_⟩
    rw [List.append_nil]
    exact h.settle hclient hp
  · -- the call has made no access that matters: it takes effect as it replies
    have hobserves : (.done result : Call κ ε τ ρ).Observes V (· = result) := observes_pure rfl
    have heffect := h.effect hclient hnone (hrest _ _ hclock h.sound) h.sound hobserves
    rw [← hclient, update_eq_self] at heffect
    exact ⟨_, heffect.settle hclient (List.mem_append_right _ (List.mem_singleton_self _))⟩

/-- A turn extends the history. -/
theorem LinearUpTo.turn (h : LinearUpTo t₀ last m₀ V spec call effects w) (i : ι) :
    LinearUpTo t₀ last m₀ V spec call effects (w.turn call i) := by
  intro hlast
  rw [World.clock_turn] at hlast
  have hstart := h hlast
  refine (World.turn_preserves (P := fun w' => w'.clock = w.clock ∧ ∃ more pending,
    LinearInv t₀ last m₀ V spec call w' (effects ++ more) pending) ⟨rfl, hstart⟩ ?_ ?_ ?_).2
  · rintro c todo hclient
    obtain ⟨more, pending, hinv⟩ := hstart
    exact ⟨rfl, more, pending, hinv.begin hclient⟩
  · rintro todo r hclient
    obtain ⟨more, pending, hinv⟩ := hstart
    obtain ⟨more', pending', hinv'⟩ := hinv.proceed hlast hclient
    rw [List.append_assoc] at hinv'
    exact ⟨rfl, more ++ more', pending', hinv'⟩
  · rintro w' todo c began result ⟨hclock', more, pending, hinv⟩ hclient
    obtain ⟨more', pending', hinv'⟩ := hinv.reply (hclock' ▸ hlast) hclient
    rw [List.append_assoc] at hinv'
    exact ⟨hclock', more ++ more', pending', hinv'⟩

variable [DecidableLE τ]

/-- **The history only grows.** -/
theorem LinearInv.reaches (h : LinearInv t₀ last m₀ V spec call w effects pending)
    {w' : World ι κ ε τ ω ρ} (hw : w.Reaches call w') (hclock : w'.clock ≤ last) :
    ∃ more pending', LinearInv t₀ last m₀ V spec call w' (effects ++ more) pending' := by
  suffices hinv : LinearUpTo t₀ last m₀ V spec call effects w' from hinv hclock
  refine hw.invariant (?_ : LinearUpTo t₀ last m₀ V spec call effects _) fun w a h => ?_
  · refine fun _ => ⟨[], pending, ?_⟩
    rw [List.append_nil]
    exact h
  · cases a with
    | tick t =>
        rw [World.step]
        split
        · next hle => exact h.tick hle
        · exact h
    | turn i => exact h.turn i

/-- **Linearizability.**  Of clients whose calls linearize, every reachable
world up to the instant `last` has a linearization. -/
theorem linearizable {program : ι → List ω}
    (hm : ∀ key, V key (m₀ key))
    (hprogram : ∀ i, ∀ c ∈ program i, (call c).Linearizes last V (spec c))
    (hw : (World.start m₀ t₀ program).Reaches call w) (hclock : w.clock ≤ last) :
    ∃ effects pending, w.Linearization spec t₀ m₀ effects pending := by
  obtain ⟨more, pending, h⟩ := (linearInv_start hm hprogram).reaches hw hclock
  exact ⟨_, pending, h.toLinearization⟩

/-- **The past is not revised.**  What a world leads to has a linearization that
begins with one of the world itself. -/
theorem linearizable_extends {program : ι → List ω} {w' : World ι κ ε τ ω ρ}
    (hm : ∀ key, V key (m₀ key))
    (hprogram : ∀ i, ∀ c ∈ program i, (call c).Linearizes last V (spec c))
    (hw : (World.start m₀ t₀ program).Reaches call w) (hw' : w.Reaches call w')
    (hclock : w'.clock ≤ last) :
    ∃ effects pending more pending', w.Linearization spec t₀ m₀ effects pending ∧
      w'.Linearization spec t₀ m₀ (effects ++ more) pending' := by
  obtain ⟨effects, pending, h⟩ :=
    (linearInv_start hm hprogram).reaches hw (le_trans hw'.clock_le hclock)
  obtain ⟨more, pending', h'⟩ := h.reaches hw' hclock
  exact ⟨_, pending, more, pending', h.toLinearization, h'.toLinearization⟩

end Invariant

end Base
