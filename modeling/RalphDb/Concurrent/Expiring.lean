import RalphDb.Concurrent.Fresh
import RalphDb.Concurrent.Missing
import RalphDb.Concurrent.Within

/-!
# RalphDb.Concurrent.Expiring

Keys expire on time.

An expired entry stays in the map until somebody looks at it.  Nobody can tell:
as long as the clients only read a key, what shows of it is at every instant what
the first map shows of it at this instant, whatever they remove on the way and
whatever happens to other keys.  So each of their replies is the one that the
clock and the first map give at a moment of its call: the value up to the
deadline, with the seconds that are left, and nothing from the deadline on
(`expires_on_time`).
-/

namespace RalphDb

open Base
open Base.Call
open Function

variable {F ι : Type} {last : Instant} {k : Key} {m m' : DashMap}

/-! ## Fading keys -/

/-- The key holds what it did, or this has been removed and has expired by
`last`. -/
def Fades (last : Instant) (k : Key) (m m' : DashMap) : Prop :=
  m' k = m k ∨ Gone last (m k) ∧ m' k = none

theorem Fades.trans {m'' : DashMap} (h : Fades last k m m') (h' : Fades last k m' m'') :
    Fades last k m m'' := by
  obtain hsame | ⟨hgone, hnone⟩ := h
  · obtain hsame' | ⟨hgone', hnone'⟩ := h'
    · exact .inl (hsame'.trans hsame)
    · exact .inr ⟨hsame ▸ hgone', hnone'⟩
  · obtain hsame' | ⟨_, hnone'⟩ := h'
    · exact .inr ⟨hgone, hsame'.trans hnone⟩
    · exact .inr ⟨hgone, hnone'⟩

/-- What is found expired has expired by `last`. -/
theorem gone_of_found {now : Instant} {found : Option Entry} (hle : now ≤ last)
    (h : Storage.Found.of now found = .expired) : Gone last found := by
  intro entry hentry
  subst hentry
  unfold Storage.Found.of at h
  split at h
  · contradiction
  · next heq =>
      split at h
      · next hexp => exact Option.some.inj heq ▸ expired_mono hle hexp
      · contradiction

theorem purging_fades : Purging (· ≤ last) (Fades last k) where
  refl _ := .inl rfl
  trans _ _ _ := Fades.trans
  purge m m' key now hnow hfound hm := by
    by_cases hkey : key = k
    · subst hkey
      have hgone : Gone last (m key) := gone_of_found hnow hfound
      refine .inr ⟨?_, update_self _ _ _⟩
      obtain hsame | ⟨_, hnone⟩ := hm
      · exact hsame ▸ hgone
      · exact hnone ▸ gone_none
    · exact .inl (update_of_ne (Ne.symm hkey) _ _)

/-- At `last` the key shows the same. -/
theorem Fades.visible_eq (h : Fades last k m m') : visible last m' k = visible last m k := by
  obtain hsame | ⟨hgone, hnone⟩ := h
  · rw [visible, visible, hsame]
  · cases hfound : m k with
    | none => simp [visible, hfound, hnone]
    | some entry => simp [visible, hfound, hnone, Option.filter_some, hgone entry hfound]

/-- The commands that name the key read it. -/
def StorageCommand.OnlyReads (k : Key) (c : StorageCommand) : Prop := k ∈ c.keys → c.Reads

theorem obeys_of_onlyReads {c : StorageCommand} (h : c.OnlyReads k) :
    (c.call : StorageCall (CommandResult F)).Obeys (· ≤ last) (Fades last k) (fun _ _ => True)
      m := by
  by_cases hk : k ∈ c.keys
  · exact obeys_of_reads purging_fades (h hk)
  · have hwithin : (c.call : StorageCall (CommandResult F)).Within fun key => k ≠ key :=
      within_call fun key hkey heq => hk (heq ▸ hkey)
    exact obeys_of_within hwithin (fun m key left hne => .inl (update_of_ne hne _ _)) m

variable [DecidableEq ι] {since : Instant} {program : ι → List StorageCommand}

/-- **What shows of a key that is only read** is what the first map shows at the
time. -/
theorem visible_of_onlyReads (hprogram : ∀ i, ∀ c ∈ program i, c.OnlyReads k) {w : Clients ι F}
    (hw : (World.start m since program).Reaches StorageCommand.call w) :
    visible w.clock w.shared k = visible w.clock m k := by
  have hR : Purging (· ≤ w.clock) (Fades w.clock k) := purging_fades
  obtain ⟨hfades, _⟩ := World.obeys_reaches (P := fun _ _ => True) hR.refl hR.trans
    (fun _ _ h => h) (fun i c hc _ _ => obeys_of_onlyReads (hprogram i c hc)) hw
  exact hfades.visible_eq

/-- The answer to a glance at a key depends on this key alone. -/
theorem step_congr {c : StorageCommand} (h : c.Glances) (hkeys : c.keys = [k])
    {ref ref' : Reference} (heq : ref k = ref' k) (now : Instant) :
    (Reference.step now c ref : CommandResult F × Reference).1 = (Reference.step now c ref').1 := by
  cases c with
  | get key =>
      obtain rfl : key = k := List.singleton_inj.mp hkeys
      simp [Reference.step, Reference.value, heq]
  | existsKeys keys =>
      obtain rfl : keys = [k] := hkeys
      simp [Reference.step, heq]
  | incr key =>
      obtain rfl : key = k := List.singleton_inj.mp hkeys
      simp only [Reference.step, Reference.adjust, heq]
      grind
  | decr key =>
      obtain rfl : key = k := List.singleton_inj.mp hkeys
      simp only [Reference.step, Reference.adjust, heq]
      grind
  | ttl key =>
      obtain rfl : key = k := List.singleton_inj.mp hkeys
      simp [Reference.step, Reference.remaining, heq]
  | _ => exact h.elim

/-- **Keys expire on time.**  As long as the clients only read a key, whatever they
do to others and however they are interleaved: what shows of it is what the first
map shows of it at the time, and every `GET`, `TTL` and `EXISTS` of just this key
was answered as by the first map at a moment of its call, as was each of its values
in an `MGET`. -/
theorem expires_on_time (m : DashMap) (since : Instant) (k : Key)
    (program : ι → List StorageCommand) (hprogram : ∀ i, ∀ c ∈ program i, c.OnlyReads k)
    (schedule : List (Action ι Instant)) {w : Clients ι F}
    (hw : w = (World.start m since program).run StorageCommand.call schedule) :
    visible w.clock w.shared k = visible w.clock m k ∧ ∀ r ∈ w.replies,
      (r.command.Glances → r.command.keys = [k] →
        World.Moment StorageCommand.call (World.start m since program) schedule r fun now _ =>
          r.result = (Reference.step now r.command (visible now m)).1) ∧
      ∀ (keys : List Key) (j : Nat), r.command = .mget keys → keys[j]? = some k →
        World.Moment StorageCommand.call (World.start m since program) schedule r fun now _ =>
          ∃ values, r.result.response = .array (some values) ∧
            values[j]? = some (valueFrame (Reference.value k (visible now m))) := by
  subst hw
  refine ⟨visible_of_onlyReads hprogram ⟨schedule, rfl⟩, fun r hr => ⟨?_, ?_⟩⟩
  · intro hglances hkeys
    refine (World.dated_reply (dated_call hglances) m since program schedule hr rfl).imp
      fun w hw hresult => hresult.trans ?_
    exact step_congr hglances hkeys (visible_of_onlyReads hprogram hw) w.clock
  · intro keys j hcommand hkey
    refine (World.dated_reply (dated_mgetCommand hkey) m since program schedule hr hcommand).imp
      fun w hw hvalues => ?_
    obtain ⟨values, hresponse, hvalue⟩ := hvalues
    refine ⟨values, hresponse, hvalue.trans ?_⟩
    rw [Reference.value, Reference.value, visible_of_onlyReads hprogram hw]

/-- Two clients that read a key that has expired. -/
def readTwice : Clients Bool WholeDouble :=
  World.start (fun _ => some ⟨[0x75], some .origin⟩) .origin fun _ => [.get [0x6B]]

/-- Both look at it before one removes it. -/
def bothLook : List (Action Bool Instant) :=
  [.turn true, .turn true, .turn false, .turn false, .turn true, .turn false]

theorem expires_on_time_readTwice :
    World.Moment StorageCommand.call readTwice bothLook ⟨false, .get [0x6B], 0, .ok .null⟩
      fun now _ => (.ok .null : CommandResult WholeDouble) =
        (Reference.step now (.get [0x6B]) (visible now fun _ => some ⟨[0x75], some .origin⟩)).1 :=
  ((expires_on_time _ .origin [0x6B] (fun _ => [.get [0x6B]])
    (fun _ c hc => by rw [List.mem_singleton.mp hc]; exact fun _ => trivial) bothLook rfl).2 _
    (.tail _ (.head _))).1 trivial rfl

end RalphDb
