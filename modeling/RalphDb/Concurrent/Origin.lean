import RalphDb.Concurrent.Counter
import RalphDb.Concurrent.Obeys

/-!
# RalphDb.Concurrent.Origin

Where values come from.

A value gets into the map by a `SET` or an `MSET` that names it with its key, or
by counting in its key, and then the number is what `INCR` or `DECR` answers.
Nothing else that the commands do, alone or between each other's accesses, makes
up a value or carries one from a key to another: whatever is stored under a key,
and whatever `GET` and `MGET` answer for it, was there in the first map, is
written by a command of some client or had been counted to (`values_written`).

The number and the answer appear in one access.  So the values that a call may
have met grow with the replies, and a call under way is sound for any set of
values that contains those met so far (`Carries`).
-/

namespace RalphDb

open Base
open Base.Call
open Function

variable {F ι : Type} {T : Instant → Prop} {R : DashMap → DashMap → Prop}
  {V : Key → List UInt8 → Prop} {m : DashMap}

/-- The commands that name the value with the key. -/
def StorageCommand.Writes (key : Key) (value : List UInt8) : StorageCommand → Prop
  | .set key' value' => key' = key ∧ value' = value
  | .mset pairs => (key, value) ∈ pairs
  | _ => False

/-- `INCR` and `DECR`, of any key. -/
def StorageCommand.CountsIn (c : StorageCommand) : Prop := ∃ key delta, Counts key c delta

/-- The value is the text of a number that counting in the key was answered. -/
def Counted (replies : List (StorageReply ι F)) (key : Key) (value : List UInt8) : Prop :=
  ∃ r ∈ replies, (∃ delta, Counts key r.command delta) ∧
    ∃ n : Int64, r.result.response = .integer n ∧ value = utf8 (toString n.toInt)

/-- Where the values come from when there have been these replies. -/
def Sourced (V : Key → List UInt8 → Prop) (replies : List (StorageReply ι F)) (key : Key)
    (value : List UInt8) : Prop := V key value ∨ Counted replies key value

theorem Sourced.append {replies : List (StorageReply ι F)} {key : Key} {value : List UInt8}
    (h : Sourced V replies key value) (more : List (StorageReply ι F)) :
    Sourced V (replies ++ more) key value := by
  obtain h | ⟨r, hr, h⟩ := h
  · exact .inl h
  · exact .inr ⟨r, List.mem_append_left more hr, h⟩

/-- Each value is in `V` with its key. -/
def ValuesIn (V : Key → List UInt8 → Prop) (m : DashMap) : Prop :=
  ∀ key entry, m key = some entry → V key entry.value

theorem ValuesIn.imp {S : Key → List UInt8 → Prop} (h : ValuesIn V m)
    (hS : ∀ key value, V key value → S key value) : ValuesIn S m :=
  fun key entry hentry => hS key _ (h key entry hentry)

/-- What holds values in `V` still does. -/
def Preserves (V : Key → List UInt8 → Prop) (m m' : DashMap) : Prop := ValuesIn V m → ValuesIn V m'

theorem valuesIn_update (h : ValuesIn V m) {key : Key} {found : Option Entry}
    (hfound : ∀ entry, found = some entry → V key entry.value) :
    ValuesIn V (update m key found) := by
  intro key' entry hentry
  by_cases hkey : key' = key
  · subst hkey
    rw [update_self] at hentry
    exact hfound entry hentry
  · rw [update_of_ne hkey] at hentry
    exact h key' entry hentry

/-- A deadline leaves the value alone. -/
theorem value_expireEntry {expiry now : Instant} {found : Option Entry} {left : Entry}
    (h : (Storage.expireEntry expiry now found).2 = some left) :
    ∃ entry, found = some entry ∧ left.value = entry.value := by
  unfold Storage.expireEntry at h
  split at h
  · next entry =>
      split at h
      · exact ⟨entry, rfl, by rw [← Option.some.inj h]⟩
      · exact ⟨entry, rfl, by rw [← Option.some.inj h]⟩
  · contradiction

theorem lenient_preserves : Lenient T (Preserves V) where
  refl _ := id
  trans _ _ _ h h' := fun hm => h' (h hm)
  remove m key := fun hm => valuesIn_update hm fun _ h => by contradiction
  expire m key expiry now _ := fun hm => by
    refine valuesIn_update hm fun left hleft => ?_
    obtain ⟨entry, hentry, hvalue⟩ := value_expireEntry hleft
    rw [hvalue]
    exact hm key entry hentry

/-! ## Operations -/

theorem obeys_set_of_writes {key : Key} {value : List UInt8} (h : V key value) :
    (Storage.set key value).Obeys T (Preserves V) (fun _ _ => True) m := by
  refine obeys_atomic fun m' _ _ _ => ⟨fun hm => valuesIn_update hm fun entry hentry => ?_, trivial⟩
  rw [← Option.some.inj hentry]
  exact h

theorem obeys_mset_of_writes {pairs : List (Key × List UInt8)}
    (h : ∀ pair ∈ pairs, V pair.1 pair.2) :
    (Storage.mset pairs).Obeys T (Preserves V) (fun _ _ => True) m := by
  induction pairs generalizing m with
  | nil => exact obeys_pure trivial
  | cons pair pairs ih =>
      obtain ⟨hpair, hpairs⟩ := List.forall_mem_cons.mp h
      have hR : Lenient T (Preserves V) := lenient_preserves
      exact obeys_bind hR.refl hR.trans (obeys_set_of_writes hpair) fun _ _ _ _ => ih hpairs

/-- The entry that is counted in holds what it held, or the number that is
answered. -/
theorem value_incrEntry {delta : Int64} {now : Instant} {found : Option Entry} {left : Entry}
    (h : (Storage.incrEntry delta now found).2 = some left) :
    (∃ entry, found = some entry ∧ left.value = entry.value) ∨
      ∃ n : Int64, (Storage.incrEntry delta now found).1 = .ok n ∧
        left.value = utf8 (toString n.toInt) := by
  have hcounter : (∃ entry, found = some entry ∧
      (Storage.counterEntry now found).value = entry.value) ∨
        (Storage.counterEntry now found).value = utf8 "0" := by
    unfold Storage.counterEntry
    cases found with
    | none => exact .inr rfl
    | some entry =>
        simp only [Option.getD_some]
        split
        · exact .inr rfl
        · exact .inl ⟨entry, rfl, rfl⟩
  unfold Storage.incrEntry at h ⊢
  obtain ⟨entry, hentry, hvalue⟩ | hzero := hcounter
  · simp only at h ⊢
    split at h
    · rw [← Option.some.inj h]
      exact .inl ⟨entry, hentry, hvalue⟩
    · split at h
      · rw [← Option.some.inj h]
        exact .inl ⟨entry, hentry, hvalue⟩
      · rw [← Option.some.inj h]
        exact .inr ⟨_, rfl, rfl⟩
  · -- counting from zero never fails
    have hparse : parseI64 "0" = some 0 := by decide
    simp only [hzero, fromUtf8_utf8, Option.bind_some, hparse, checkedAdd_zero] at h ⊢
    rw [← Option.some.inj h]
    exact .inr ⟨delta, rfl, rfl⟩

/-! ## Commands -/

/-- The values that a reply tells are in `V` with the keys they are told for. -/
def Tells (V : Key → List UInt8 → Prop) (c : StorageCommand) (result : CommandResult F) : Prop :=
  match c with
  | .get key => ∃ value, result = .ok (valueFrame value) ∧ ∀ v ∈ value, V key v
  | .mget (key :: keys) => ∃ values, result = .ok (.array (some (values.map valueFrame))) ∧
      List.Forall₂ (fun key value => ∀ v ∈ value, V key v) (key :: keys) values
  | _ => True

/-- What was seen of a key is in `V`. -/
theorem SeenAlong.of_valuesIn (hm : ValuesIn V m) {key : Key} {value : Option (List UInt8)}
    (h : SeenAlong T (Preserves V) m (fun _ ref => Reference.value key ref) value) :
    ∀ v ∈ value, V key v := by
  obtain ⟨m', now, hm', _, rfl⟩ := h
  intro v hv
  obtain ⟨entry, hentry, rfl⟩ := Option.map_eq_some_iff.mp hv
  exact hm' hm key entry (Option.filter_eq_some_iff.mp hentry).1

/-- **A command writes what it names**, unless it counts, and tells what is
held. -/
theorem obeys_call_of_writes {c : StorageCommand} (hcounts : ¬ c.CountsIn)
    (h : ∀ key value, c.Writes key value → V key value) (hm : ValuesIn V m) :
    (c.call : StorageCall (CommandResult F)).Obeys T (Preserves V)
      (fun result _ => Tells V c result) m := by
  have hR : Lenient T (Preserves V) := lenient_preserves
  cases c with
  | set key value =>
      exact obeys_bind hR.refl hR.trans (obeys_set_of_writes (h key value ⟨rfl, rfl⟩))
        fun _ _ _ _ => obeys_pure trivial
  | get key =>
      exact obeys_bind hR.refl hR.trans (obeys_get hR.purging key) fun value _ _ hseen =>
        obeys_pure ⟨value, rfl, hseen.of_valuesIn hm⟩
  | del keys =>
      cases keys with
      | nil => exact obeys_pure trivial
      | cons key keys =>
          exact obeys_bind hR.refl hR.trans (obeys_del_of_lenient hR (key :: keys)) fun _ _ _ _ =>
            obeys_pure trivial
  | existsKeys keys =>
      have hreads : (StorageCommand.existsKeys keys).Reads := trivial
      exact (obeys_of_reads hR.purging hreads).imp fun _ _ _ => trivial
  | incr key => exact absurd ⟨key, 1, .inl ⟨rfl, rfl⟩⟩ hcounts
  | decr key => exact absurd ⟨key, -1, .inr ⟨rfl, rfl⟩⟩ hcounts
  | mget keys =>
      cases keys with
      | nil => exact obeys_pure trivial
      | cons key keys =>
          exact obeys_bind hR.refl hR.trans (obeys_mget hR.purging (key :: keys))
            fun values _ _ hseen =>
              obeys_pure ⟨values, rfl, hseen.imp fun _ _ hs => hs.of_valuesIn hm⟩
  | mset pairs =>
      cases pairs with
      | nil => exact obeys_pure trivial
      | cons pair pairs =>
          rw [StorageCommand.call_mset (List.cons_ne_nil pair pairs)]
          exact obeys_bind hR.refl hR.trans (obeys_mset_of_writes fun pair hpair => h _ _ hpair)
            fun _ _ _ _ => obeys_pure trivial
  | expire key text => exact (obeys_expire_of_lenient hR key text).imp fun _ _ _ => trivial
  | ttl key =>
      have hreads : (StorageCommand.ttl key).Reads := trivial
      exact (obeys_of_reads hR.purging hreads).imp fun _ _ _ => trivial

/-! ## Every turn keeps the values sourced -/

/-- What is left of a call: all of a counting command, or accesses that are sound
for any values among which are those there have been. -/
def Carries (V : Key → List UInt8 → Prop) (replies : List (StorageReply ι F)) (m : DashMap)
    (r : StorageRunning F) : Prop :=
  (r.command.CountsIn ∧ r.rest = r.command.call) ∨
    ∀ S : Key → List UInt8 → Prop, (∀ key value, Sourced V replies key value → S key value) →
      r.rest.Obeys (fun _ => True) (Preserves S) (fun result _ => Tells S r.command result) m

/-- The replies are told what has been there before them. -/
def ToldBefore (V : Key → List UInt8 → Prop) (replies : List (StorageReply ι F)) : Prop :=
  ∀ (n : Nat) (r : StorageReply ι F), replies[n]? = some r →
    Tells (Sourced V (replies.take n)) r.command r.result

theorem ToldBefore.append {replies : List (StorageReply ι F)} (h : ToldBefore V replies)
    {r : StorageReply ι F} (hr : Tells (Sourced V replies) r.command r.result) :
    ToldBefore V (replies ++ [r]) := by
  intro n s hs
  obtain hlt | rfl | hlt := Nat.lt_trichotomy n replies.length
  · rw [List.getElem?_append_left hlt] at hs
    rw [List.take_append_of_le_length (Nat.le_of_lt hlt)]
    exact h n s hs
  · rw [List.getElem?_concat_length] at hs
    rw [List.take_left, ← Option.some.inj hs]
    exact hr
  · have hover : (replies ++ [r]).length ≤ n := by
      rw [List.length_append]
      exact hlt
    rw [List.getElem?_eq_none hover] at hs
    contradiction

/-- Stored values are sourced, calls under way go on so, and replies are told
what has been there. -/
structure Traced (V : Key → List UInt8 → Prop) (w : Clients ι F) : Prop where
  held : ValuesIn (Sourced V w.replies) w.shared
  clients : ∀ i, (w.clients i).All (fun c => ∀ key value, c.Writes key value → V key value)
    (Carries V w.replies w.shared)
  told : ToldBefore V w.replies

/-- What others do leaves a call as it is. -/
theorem Carries.mono {replies : List (StorageReply ι F)} {r : StorageRunning F}
    (h : Carries V replies m r) (more : List (StorageReply ι F)) {m' : DashMap}
    (hm' : ValuesIn (Sourced V (replies ++ more)) m') : Carries V (replies ++ more) m' r := by
  obtain h | h := h
  · exact .inl h
  · refine .inr fun S hS => ?_
    have hR : Lenient (fun _ => True) (Preserves S) := lenient_preserves
    exact (h S fun key value hs => hS key value (hs.append more)).mono hR.trans fun _ => hm'.imp hS

section Turns

variable [DecidableEq ι] {w : Clients ι F} {i : ι}

/-- Client `i` moves, and there may be a reply. -/
theorem Traced.move (h : Traced V w) {m' : DashMap} {todo : List StorageCommand}
    {running : Option (StorageRunning F)} {replies : List (StorageReply ι F)}
    (hgrown : w.replies <+: replies) (hheld : ValuesIn (Sourced V replies) m')
    (htold : ToldBefore V replies) (htodo : todo ⊆ (w.clients i).todo)
    (hrunning : ∀ r, running = some r → Carries V replies m' r) :
    Traced V ⟨m', w.clock, update w.clients i ⟨todo, running⟩, replies⟩ := by
  obtain ⟨more, rfl⟩ := hgrown
  refine ⟨hheld, (forall_update_iff _ _).mpr ⟨?_, fun j _ => ?_⟩, htold⟩
  · exact ⟨fun c hc => (h.clients i).todo c (htodo hc), hrunning⟩
  · exact (h.clients j).imp fun r _ hr => hr.mono more hheld

/-- Client `i` goes on with what tells, once it is over, what has been there. -/
theorem Traced.resume (h : Traced V w) {m' : DashMap} {c : StorageCommand} {began : Nat}
    {rest : StorageCall (CommandResult F)}
    (hdone : ∀ result, rest = .done result → Tells (Sourced V w.replies) c result ∧
      ValuesIn (Sourced V (w.replies ++ [⟨i, c, began, result⟩])) m')
    (hlive : (∀ result, rest ≠ .done result) → ValuesIn (Sourced V w.replies) m' ∧
      Carries V w.replies m' ⟨c, began, rest⟩) :
    Traced V ({ w with shared := m' }.resume i c began rest) := by
  have hgoes : (∀ result, rest ≠ .done result) → Traced V { w with
      shared := m'
      clients := update w.clients i ⟨(w.clients i).todo, some ⟨c, began, rest⟩⟩ } := by
    intro hrest
    obtain ⟨hheld, hcarries⟩ := hlive hrest
    refine h.move (List.prefix_refl _) hheld h.told (List.Subset.refl _) fun r hr => ?_
    exact Option.some.inj hr ▸ hcarries
  cases rest with
  | done result =>
      obtain ⟨htells, hheld⟩ := hdone result rfl
      exact h.move (List.prefix_append _ _) hheld (h.told.append htells) (List.Subset.refl _)
        fun _ hr => by contradiction
  | now next => exact hgoes fun _ hdone => by contradiction
  | access key act next => exact hgoes fun _ hdone => by contradiction

/-- Going on with accesses that are sound for the values met so far. -/
theorem Traced.resume_carries (h : Traced V w) {m' : DashMap} {c : StorageCommand} {began : Nat}
    {rest : StorageCall (CommandResult F)} (hheld : ValuesIn (Sourced V w.replies) m')
    (hrest : ∀ S : Key → List UInt8 → Prop,
      (∀ key value, Sourced V w.replies key value → S key value) →
        rest.Obeys (fun _ => True) (Preserves S) (fun result _ => Tells S c result) m') :
    Traced V ({ w with shared := m' }.resume i c began rest) := by
  refine h.resume (fun result hdone => ⟨?_, ?_⟩) fun _ => ⟨hheld, .inr hrest⟩
  · have hover := hrest _ fun _ _ hs => hs
    rw [hdone] at hover
    exact hover
  · exact hheld.imp fun _ _ hs => hs.append _

/-- A counting command tells no value. -/
theorem tells_of_counts {k : Key} {c : StorageCommand} {delta : Int64} (h : Counts k c delta)
    (result : CommandResult F) : Tells V c result := by
  obtain ⟨rfl, _⟩ | ⟨rfl, _⟩ := h
  · trivial
  · trivial

/-- The access of a counting command: the number stored is the one answered. -/
theorem Traced.count (h : Traced V w) {k : Key} {c : StorageCommand} {delta : Int64}
    (hc : Counts k c delta) (began : Nat) :
    Traced V
      ({ w with
          shared := update w.shared k (Storage.incrEntry delta w.clock (w.shared k)).2 }.resume i c
        began (.done (counterResult (Storage.incrEntry delta w.clock (w.shared k)).1))) := by
  refine h.resume (fun result hdone => ⟨tells_of_counts hc result, ?_⟩) fun hlive =>
    absurd rfl (hlive _)
  refine valuesIn_update (h.held.imp fun _ _ hs => hs.append _) fun left hleft => ?_
  obtain ⟨entry, hentry, hvalue⟩ | ⟨n, hn, hvalue⟩ := value_incrEntry hleft
  · rw [hvalue]
    exact (h.held k entry hentry).append _
  · rw [hn] at hdone
    refine .inr ⟨_, List.mem_concat_self, ⟨delta, hc⟩, n, ?_, hvalue⟩
    rw [← Call.done.inj hdone]
    rfl

theorem Traced.begin (h : Traced V w) {c : StorageCommand} {todo : List StorageCommand}
    (hclient : w.clients i = ⟨c :: todo, none⟩) (began : Nat) :
    Traced V ({ w with clients := update w.clients i ⟨todo, none⟩ }.resume i c began c.call) := by
  obtain ⟨hc, hclients⟩ := World.all_begin h.clients hclient
  have hrest : Traced V { w with clients := update w.clients i ⟨todo, none⟩ } :=
    ⟨h.held, hclients, h.told⟩
  by_cases hcounts : c.CountsIn
  · obtain ⟨key, delta, hdelta⟩ := hcounts
    refine hrest.resume (fun result hdone => ?_) fun _ => ⟨h.held, .inl ⟨⟨key, delta, hdelta⟩, rfl⟩⟩
    exact absurd hdone (call_ne_done hdelta result)
  · exact hrest.resume_carries h.held fun S hS => obeys_call_of_writes hcounts
      (fun key value hwrites => hS key value (.inl (hc key value hwrites))) (h.held.imp hS)

theorem Traced.turn (h : Traced V w) (i : ι) : Traced V (w.turn StorageCommand.call i) := by
  obtain hidle | ⟨c, todo, hclient, hturn⟩ | ⟨todo, r, hclient, hturn⟩ :=
    World.turn_cases StorageCommand.call w i
  · rw [hidle]
    exact h
  · rw [hturn]
    exact h.begin hclient _
  · rw [hturn]
    obtain ⟨⟨key, delta, hdelta⟩, hrest⟩ | hcarries := (h.clients i).running r (by rw [hclient])
    · rw [hrest, advance_counts hdelta]
      exact h.count hdelta _
    · have hmoves := fun S hS =>
        obeys_advance (t := w.clock) (fun _ hm => hm) (hcarries S hS) trivial
      exact h.resume_carries ((hmoves _ fun _ _ hs => hs).1 h.held) fun S hS => (hmoves S hS).2

end Turns

/-- **Values come from somewhere.**  Whatever the clients and the interleaving: every
value that is stored is in `V` with its key, where the first map's are and those
that `SET` and `MSET` name, or is a number that counting in its key was answered;
and so is every value that a reply tells, counted to before. -/
theorem values_written [DecidableEq ι] {since : Instant} {program : ι → List StorageCommand}
    (hm : ValuesIn V m)
    (hprogram : ∀ i, ∀ c ∈ program i, ∀ key value, c.Writes key value → V key value)
    {w : Clients ι F} (hw : (World.start m since program).Reaches StorageCommand.call w) :
    ValuesIn (Sourced V w.replies) w.shared ∧ ToldBefore V w.replies := by
  have hstart : Traced V (World.start m since program : Clients ι F) :=
    ⟨hm.imp fun _ _ => .inl, fun i => ⟨hprogram i, fun _ hr => by contradiction⟩,
      fun n r hr => by contradiction⟩
  have htraced : Traced V w :=
    hw.invariant_of_turn hstart (fun w t h => ⟨h.held, h.clients, h.told⟩) fun w i h => h.turn i
  exact ⟨htraced.held, htraced.told⟩

end RalphDb
