import RalphDb.Base.Rely
import RalphDb.Base.Script
import Mathlib.Order.Defs.PartialOrder

/-!
# RalphDb.Base.Footprint

Calls that stay within a set of keys.

A call `Within K` accesses keys in `K` only.  What it answers depends on the map
at these keys, and other keys it leaves alone.  So a client whose call stays
within `K`, beside clients that stay outside, is answered as if nobody else were
there: its answer is that of a sequential run from the first map
(`alone_reaches`), with the readings of the clock that its accesses took.
-/

namespace Base

open Function

namespace Call

variable {κ ε τ α β : Type} {K : κ → Prop} {x : Call κ ε τ α} {m m' : SharedMap κ ε}

/-- Every access is to a key in `K`. -/
def Within (K : κ → Prop) : Call κ ε τ α → Prop
  | done _ => True
  | now next => ∀ t, (next t).Within K
  | access key _ next => K key ∧ ∀ t entry, (next t entry).Within K

theorem within_pure (a : α) : (pure a : Call κ ε τ α).Within K := trivial

theorem within_atomic {key : κ} (h : K key) (f : τ → Option ε → α × Option ε) :
    (atomic key f).Within K := ⟨h, fun _ _ => trivial⟩

theorem within_bind {f : α → Call κ ε τ β} (hx : x.Within K) (hf : ∀ a, (f a).Within K) :
    (x >>= f).Within K := by
  show (x.bind f).Within K
  induction x with
  | done a => exact hf a
  | now next ih => exact fun t => ih t (hx t)
  | access key act next ih => exact ⟨hx.1, fun t entry => ih t entry (hx.2 t entry)⟩

theorem within_inOrder {ω ρ : Type} {call : ω → Call κ ε τ ρ} {cs : List ω}
    (h : ∀ c ∈ cs, (call c).Within K) : (inOrder call cs).Within K := by
  induction cs with
  | nil => exact within_pure []
  | cons c cs ih =>
      obtain ⟨hc, hcs⟩ := List.forall_mem_cons.mp h
      exact within_bind hc fun _ => within_bind (ih hcs) fun _ => within_pure _

/-- The maps hold the same for the keys in `K`. -/
def AgreeOn (K : κ → Prop) (m m' : SharedMap κ ε) : Prop := ∀ key, K key → m' key = m key

theorem AgreeOn.trans {m'' : SharedMap κ ε} (h : AgreeOn K m m') (h' : AgreeOn K m' m'') :
    AgreeOn K m m'' := fun key hkey => (h' key hkey).trans (h key hkey)

variable [DecidableEq κ]

theorem within_advance (h : x.Within K) (t : τ) (m : SharedMap κ ε) :
    (x.advance t m).1.Within K := by
  cases x with
  | done a => exact trivial
  | now next => exact h t
  | access key act next => exact h.2 t (m key)

/-- The same step on maps that agree. -/
theorem advance_agreeOn (h : x.Within K) (hm : AgreeOn K m m') (t : τ) :
    (x.advance t m').1 = (x.advance t m).1 ∧ AgreeOn K (x.advance t m).2 (x.advance t m').2 := by
  cases x with
  | done a => exact ⟨rfl, hm⟩
  | now next => exact ⟨rfl, hm⟩
  | access key act next =>
      have hkey : m' key = m key := hm key h.1
      refine ⟨by rw [advance, advance, hkey], fun key' hkey' => ?_⟩
      simp only [advance, hkey]
      by_cases heq : key' = key
      · rw [heq, update_self, update_self]
      · rw [update_of_ne heq, update_of_ne heq]
        exact hm key' hkey'

/-- **Frame**: a step outside `K` leaves the map alone there. -/
theorem advance_outside (h : x.Within fun key => ¬ K key) (t : τ) (m : SharedMap κ ε) :
    AgreeOn K m (x.advance t m).2 := by
  cases x with
  | done a => exact fun _ _ => rfl
  | now next => exact fun _ _ => rfl
  | access key act next =>
      refine fun key' hkey' => update_of_ne (fun heq => ?_) _ _
      exact h.1 (heq ▸ hkey')

/-- A call within `K` obeys what allows any change there. -/
theorem obeys_of_within {T : τ → Prop} {R : SharedMap κ ε → SharedMap κ ε → Prop}
    (h : x.Within K) (hR : ∀ m key left, K key → R m (update m key left)) (m : SharedMap κ ε) :
    x.Obeys T R (fun _ _ => True) m := by
  induction x generalizing m with
  | done a => exact trivial
  | now next ih => exact fun t _ => ih t (h t) m
  | access key act next ih =>
      exact fun m' t _ _ => ⟨hR m' key _ h.1, ih t (m' key) (h.2 t (m' key)) _⟩

/-! ## Steps with given readings -/

/-- Steps at the instants in the list. -/
def advances (ts : List τ) (x : Call κ ε τ α) (m : SharedMap κ ε) :
    Call κ ε τ α × SharedMap κ ε :=
  ts.foldl (fun p t => p.1.advance t p.2) (x, m)

theorem advances_cons (t : τ) (ts : List τ) (x : Call κ ε τ α) (m : SharedMap κ ε) :
    advances (t :: ts) x m = advances ts (x.advance t m).1 (x.advance t m).2 := rfl

theorem advances_append (ts : List τ) (t : τ) (x : Call κ ε τ α) (m : SharedMap κ ε) :
    advances (ts ++ [t]) x m = (advances ts x m).1.advance t (advances ts x m).2 := by
  rw [advances, List.foldl_append]
  rfl

theorem within_advances (h : x.Within K) (ts : List τ) (m : SharedMap κ ε) :
    (advances ts x m).1.Within K := by
  induction ts generalizing x m with
  | nil => exact h
  | cons t ts ih => exact ih (within_advance h t m) _

theorem advances_done (ts : List τ) (a : α) (m : SharedMap κ ε) :
    advances ts (.done a) m = (.done a, m) := by
  induction ts with
  | nil => rfl
  | cons t ts ih => exact ih

/-- Steps that end a call are its sequential run. -/
theorem runOn_of_advances {ts : List τ} {a : α} {clock : Nat → τ} {n : Nat}
    (h : advances ts x m = (.done a, m')) (hclock : ∀ k t, ts[k]? = some t → clock (n + k) = t) :
    (x.runOn clock n m).1 = a := by
  induction ts generalizing x m n with
  | nil =>
      obtain rfl : x = .done a := (Prod.mk.inj h).1
      rfl
  | cons t ts ih =>
      have hfirst : clock n = t := hclock 0 t rfl
      have hrest : ∀ k t', ts[k]? = some t' → clock (n + 1 + k) = t' := fun k t' hk => by
        rw [Nat.add_assoc, Nat.add_comm 1 k]
        exact hclock (k + 1) t' hk
      rw [advances_cons] at h
      cases x with
      | done b =>
          rw [advance, advances_done] at h
          exact Call.done.inj (Prod.mk.inj h).1
      | now next =>
          rw [runOn, hfirst]
          exact ih h hrest
      | access key act next =>
          rw [runOn, hfirst]
          exact ih h hrest

end Call

open Call

/-! ## A client alone -/

section Alone

variable {ι κ ε τ ω ρ : Type} [DecidableEq ι] [DecidableEq κ] {call : ω → Call κ ε τ ρ}
  {K : κ → Prop} {m₀ m : SharedMap κ ε} {c : ω} {i : ι} {w : World ι κ ε τ ω ρ} {ts : List τ}

/-- A client that runs the one command `c`, and what it has been answered: the
call has made the steps it makes from `m₀` at the instants `ts`, with nobody
else there, which lead to `m`. -/
inductive Client.Alone (call : ω → Call κ ε τ ρ) (c : ω) (m₀ : SharedMap κ ε) :
    Client κ ε τ ω ρ → List (ω × ρ) → List τ → SharedMap κ ε → Prop
  | waiting : Alone call c m₀ ⟨[c], none⟩ [] [] m₀
  | running {began : Nat} {rest : Call κ ε τ ρ} {ts : List τ} {m : SharedMap κ ε}
      (h : advances ts (call c) m₀ = (rest, m)) :
      Alone call c m₀ ⟨[], some ⟨c, began, rest⟩⟩ [] ts m
  | finished {a : ρ} {ts : List τ} {m : SharedMap κ ε}
      (h : advances ts (call c) m₀ = (.done a, m)) :
      Alone call c m₀ ⟨[], none⟩ [(c, a)] ts m

/-- Client `i` is alone with the keys in `K`. -/
structure AloneInv [LE τ] (call : ω → Call κ ε τ ρ) (K : κ → Prop) (m₀ : SharedMap κ ε) (c : ω)
    (i : ι) (w : World ι κ ε τ ω ρ) : Prop where
  others : ∀ j, j ≠ i → (w.clients j).All (fun c => (call c).Within fun key => ¬ K key)
    fun r => r.rest.Within fun key => ¬ K key
  own : ∃ ts m, Client.Alone call c m₀ (w.clients i) (exchanges w.replies i) ts m ∧
    AgreeOn K m w.shared ∧ ts.Pairwise (· ≤ ·) ∧ ∀ t ∈ ts, t ≤ w.clock

variable [Preorder τ]

/-- The client that is alone moves, to no later instant. -/
theorem AloneInv.move (h : AloneInv call K m₀ c i w) {v : World ι κ ε τ ω ρ}
    (hmoved : World.MovedBy i w v)
    (hown : ∃ ts m, Client.Alone call c m₀ (v.clients i) (exchanges v.replies i) ts m ∧
      AgreeOn K m v.shared ∧ ts.Pairwise (· ≤ ·) ∧ ∀ t ∈ ts, t ≤ v.clock) :
    AloneInv call K m₀ c i v := by
  refine ⟨fun j hj => ?_, hown⟩
  rw [hmoved.clients j hj]
  exact h.others j hj

/-- Another client moves. -/
theorem AloneInv.other (h : AloneInv call K m₀ c i w) {j : ι} (hj : j ≠ i)
    {v : World ι κ ε τ ω ρ} (hmoved : World.MovedBy j w v) (hshared : AgreeOn K w.shared v.shared)
    (hclient : (v.clients j).All (fun c => (call c).Within fun key => ¬ K key)
      fun r => r.rest.Within fun key => ¬ K key) : AloneInv call K m₀ c i v := by
  refine ⟨fun j' hj' => ?_, ?_⟩
  · by_cases heq : j' = j
    · rw [heq]
      exact hclient
    · rw [hmoved.clients j' heq]
      exact h.others j' hj'
  · rw [hmoved.clients i (Ne.symm hj), hmoved.exchanges i (Ne.symm hj), hmoved.clock]
    obtain ⟨ts, m, halone, hagree, hts⟩ := h.own
    exact ⟨ts, m, halone, hagree.trans hshared, hts⟩

/-- A turn of the client that is alone. -/
theorem AloneInv.turn_self (hc : (call c).Within K) (h : AloneInv call K m₀ c i w) :
    AloneInv call K m₀ c i (w.turn call i) := by
  refine World.turn_preserves h (fun c' todo hclient => ?_) (fun todo r hclient => ?_)
    fun w todo c' began result h hclient => ?_
  · obtain ⟨ts, m, halone, hagree, hts⟩ := h.own
    refine h.move movedBy_update ⟨ts, m, ?_, hagree, hts⟩
    simp only [update_self]
    rw [hclient] at halone
    generalize exchanges w.replies i = done at halone ⊢
    cases halone with
    | waiting => exact .running rfl
  · obtain ⟨ts, m, halone, hagree, hsorted, hts⟩ := h.own
    rw [hclient] at halone
    obtain ⟨command, began, rest⟩ := r
    generalize hdone : exchanges w.replies i = done at halone
    cases halone with
    | running hrun =>
        have hwithin := within_advances hc ts m₀
        rw [hrun] at hwithin
        obtain ⟨hrest, hagree'⟩ := advance_agreeOn hwithin hagree w.clock
        refine h.move movedBy_update ⟨ts ++ [w.clock], (rest.advance w.clock m).2, ?_, hagree', ?_,
          ?_⟩
        · simp only [update_self, hdone]
          refine .running ?_
          rw [advances_append, hrun, hrest]
        · exact List.pairwise_append.mpr ⟨hsorted, List.pairwise_singleton _ _, fun t ht t' ht' =>
            (List.mem_singleton.mp ht') ▸ hts t ht⟩
        · exact List.forall_mem_append.mpr ⟨hts, List.forall_mem_singleton.mpr (le_refl _)⟩
  · obtain ⟨ts, m, halone, hagree, hts⟩ := h.own
    refine h.move movedBy_reply ⟨ts, m, ?_, hagree, hts⟩
    rw [hclient] at halone
    rw [exchanges_append_self]
    simp only [update_self]
    generalize exchanges w.replies i = done at halone ⊢
    cases halone with
    | running hrun => exact .finished hrun

/-- A turn of another client. -/
theorem AloneInv.turn_other (h : AloneInv call K m₀ c i w) {j : ι} (hj : j ≠ i) :
    AloneInv call K m₀ c i (w.turn call j) := by
  refine World.turn_preserves h (fun c' todo hclient => ?_) (fun todo r hclient => ?_)
    fun w todo c' began result h hclient => ?_
  · have hall := h.others j hj
    rw [hclient] at hall
    refine h.other hj movedBy_update (fun _ _ => rfl) ?_
    simp only [update_self]
    refine ⟨fun c'' hc'' => hall.todo c'' (List.mem_cons_of_mem _ hc''), fun r hr => ?_⟩
    obtain rfl := Option.some.inj hr
    exact hall.todo c' List.mem_cons_self
  · have hall := h.others j hj
    rw [hclient] at hall
    have hrest := hall.running r rfl
    refine h.other hj movedBy_update (advance_outside hrest w.clock w.shared) ?_
    simp only [update_self]
    refine ⟨hall.todo, fun r' hr' => ?_⟩
    obtain rfl := Option.some.inj hr'
    exact within_advance hrest w.clock w.shared
  · have hall := h.others j hj
    rw [hclient] at hall
    refine h.other hj movedBy_reply (fun _ _ => rfl) ?_
    simp only [update_self]
    exact ⟨hall.todo, fun _ hr => by contradiction⟩

/-- The readings that some accesses took, and the last one from then on. -/
def readings (ts : List τ) (last : τ) (n : Nat) : τ := (ts[n]?).getD last

theorem readings_mono {last : τ} (hsorted : ts.Pairwise (· ≤ ·)) (hlast : ∀ t ∈ ts, t ≤ last)
    {a b : Nat} (hab : a ≤ b) : readings ts last a ≤ readings ts last b := by
  by_cases hb : b < ts.length
  · have ha : a < ts.length := Nat.lt_of_le_of_lt hab hb
    simp only [readings, List.getElem?_eq_getElem ha, List.getElem?_eq_getElem hb,
      Option.getD_some]
    obtain hlt | rfl := Nat.lt_or_eq_of_le hab
    · exact List.pairwise_iff_getElem.mp hsorted a b ha hb hlt
    · exact le_refl _
  · rw [readings, readings, List.getElem?_eq_none (Nat.le_of_not_lt hb), Option.getD_none]
    cases ha : ts[a]? with
    | none => exact le_refl _
    | some t => exact hlast t (List.mem_of_getElem? ha)

variable [DecidableLE τ]

/-- **A client among strangers is answered as if it were alone.**  Beside
clients that stay outside `K`, the answer to a call that stays within `K` is
that of its sequential run from the first map, with readings of the clock that
do not go back. -/
theorem alone_reaches {t : τ} {program : ι → List ω} (hown : program i = [c])
    (hc : (call c).Within K)
    (hothers : ∀ j, j ≠ i → ∀ c ∈ program j, (call c).Within fun key => ¬ K key)
    (hw : (World.start m₀ t program).Reaches call w) {r : Reply ι ω ρ} (hr : r ∈ w.replies)
    (hi : r.client = i) :
    ∃ clock : Nat → τ, (∀ a b, a ≤ b → clock a ≤ clock b) ∧
      r.result = ((call c).runOn clock 0 m₀).1 := by
  have hinv : AloneInv call K m₀ c i w := by
    refine hw.invariant ⟨fun j hj => ⟨hothers j hj, fun _ hr => by contradiction⟩, [], m₀, ?_,
      fun _ _ => rfl, .nil, fun _ h => by contradiction⟩ fun w a h => ?_
    · show Client.Alone call c m₀ ⟨program i, none⟩ [] [] m₀
      rw [hown]
      exact .waiting
    · cases a with
      | tick t' =>
          rw [World.step]
          split
          · next hle =>
              obtain ⟨ts, m, halone, hagree, hsorted, hts⟩ := h.own
              exact ⟨h.others, ts, m, halone, hagree, hsorted, fun t ht => le_trans (hts t ht) hle⟩
          · exact h
      | turn j =>
          by_cases hj : j = i
          · subst hj
            exact h.turn_self hc
          · exact h.turn_other hj
  obtain ⟨ts, m, halone, _, hsorted, hts⟩ := hinv.own
  refine ⟨readings ts w.clock, fun a b hab => readings_mono hsorted hts hab, ?_⟩
  have hmem : (r.command, r.result) ∈ exchanges w.replies i :=
    List.mem_map_of_mem (List.mem_filter.mpr ⟨hr, decide_eq_true hi⟩)
  generalize exchanges w.replies i = done at halone hmem
  generalize w.clients i = client at halone
  cases halone with
  | waiting => contradiction
  | running h => contradiction
  | finished h =>
      obtain ⟨_, rfl⟩ := Prod.mk.inj (List.mem_singleton.mp hmem)
      refine (runOn_of_advances h fun k t hk => ?_).symm
      rw [readings, Nat.zero_add, hk]
      rfl

end Alone

end Base
