import RalphDb.Concurrent.Obeys
import Mathlib.Order.Fin.Basic

/-!
# RalphDb.Concurrent.Missing

A key that is missing stays missing until it is written.

Once a key is absent, or its deadline has passed, only `SET`, `MSET`, `INCR` and
`DECR` bring it back.  An `EXPIRE` that meets the expired entry tests it again
under its guard and does not give it a new deadline.  So as long as no client
writes the key, whatever else the clients do and however their accesses
interleave, every reply to a command on the key is the reply of an empty store.
-/

namespace RalphDb

open Base
open Base.Call
open Function

variable {F ι : Type} {since : Instant} {k : Key} {m : DashMap}

/-- The key holds nothing, or something that has expired by `since`. -/
def Gone (since : Instant) (found : Option Entry) : Prop :=
  ∀ entry, found = some entry → entry.expired since = true

/-- A key that is gone is left alone or removed. -/
def Unrevived (since : Instant) (k : Key) (m m' : DashMap) : Prop :=
  Gone since (m k) → m' k = m k ∨ m' k = none

/-- The commands that write the key. -/
def StorageCommand.Revives (k : Key) : StorageCommand → Prop
  | .set key _ => key = k
  | .incr key => key = k
  | .decr key => key = k
  | .mset pairs => k ∈ pairs.map Prod.fst
  | _ => False

theorem gone_none : Gone since none := fun _ h => by contradiction

theorem Unrevived.gone {m' : DashMap} (h : Unrevived since k m m') (hgone : Gone since (m k)) :
    Gone since (m' k) := by
  obtain hsame | hnone := h hgone
  · rw [hsame]
    exact hgone
  · rw [hnone]
    exact gone_none

/-- A step on another key. -/
theorem unrevived_update_ne {key : Key} (h : key ≠ k) (m : DashMap) (left : Option Entry) :
    Unrevived since k m (update m key left) := fun _ => .inl (update_of_ne (Ne.symm h) _ _)

theorem lenient_unrevived : Lenient (since ≤ ·) (Unrevived since k) where
  refl _ := fun _ => .inl rfl
  trans a b c hab hbc := by
    intro hgone
    obtain hb | hb := hab hgone
    · rw [← hb]
      exact hbc (hb ▸ hgone)
    · obtain hc | hc := hbc (hb ▸ gone_none)
      · exact .inr (hc.trans hb)
      · exact .inr hc
  remove m key := by
    by_cases hkey : key = k
    · subst hkey
      exact fun _ => .inr (update_self key _ _)
    · exact unrevived_update_ne hkey m none
  expire m key expiry now hnow := by
    by_cases hkey : key = k
    · subst hkey
      intro hgone
      left
      rw [update_self]
      cases hfound : m key with
      | none => rfl
      | some entry =>
          have hexp : entry.expired now = true := expired_mono hnow (hgone entry hfound)
          simp [Storage.expireEntry, hexp]
    · exact unrevived_update_ne hkey m _

/-- No map that comes after shows the key. -/
theorem visible_eq_none {m' : DashMap} {now : Instant} (hgone : Gone since (m k))
    (hm : Unrevived since k m m') (hnow : since ≤ now) : visible now m' k = none := by
  cases hfound : m' k with
  | none => simp [visible, hfound]
  | some entry =>
      have hexp : entry.expired now = true := expired_mono hnow (hm.gone hgone entry hfound)
      simp [visible, hfound, Option.filter_some, hexp]

/-! ## Operations -/

section Operations

/-- What was seen of the key is what an empty store shows. -/
theorem SeenAlong.missing {α : Type} {f : Option Entry → α} {answer : α}
    (h : SeenAlong (since ≤ ·) (Unrevived since k) m (fun _ ref => f (ref k)) answer)
    (hgone : Gone since (m k)) : answer = f none := by
  obtain ⟨m', now, hm, hnow, rfl⟩ := h
  exact congrArg f (visible_eq_none hgone hm hnow)

theorem obeys_set_ne {key : Key} (h : key ≠ k) (value : List UInt8) :
    (Storage.set key value).Obeys (since ≤ ·) (Unrevived since k) (fun _ _ => True) m :=
  obeys_atomic fun m' _ _ _ => ⟨unrevived_update_ne h m' _, trivial⟩

theorem obeys_incrBy_ne {key : Key} (h : key ≠ k) (delta : Int64) :
    (Storage.incrBy key delta).Obeys (since ≤ ·) (Unrevived since k) (fun _ _ => True) m :=
  obeys_atomic fun m' _ _ _ => ⟨unrevived_update_ne h m' _, trivial⟩

theorem obeys_mset_ne {pairs : List (Key × List UInt8)} (h : k ∉ pairs.map Prod.fst) :
    (Storage.mset pairs).Obeys (since ≤ ·) (Unrevived since k) (fun _ _ => True) m := by
  induction pairs generalizing m with
  | nil => exact obeys_pure trivial
  | cons pair pairs ih =>
      obtain ⟨hkey, hkeys⟩ := List.ne_and_not_mem_of_not_mem_cons h
      exact obeys_bind lenient_unrevived.refl lenient_unrevived.trans
        (obeys_set_ne (Ne.symm hkey) pair.2) fun _ _ _ _ => ih hkeys

/-- The missing key is not counted: where the look finds nothing, nothing comes
before the removal. -/
theorem obeys_delKey (hgone : Gone since (m k)) (key : Key) :
    (Storage.delKey key).Obeys (since ≤ ·) (Unrevived since k)
      (fun counted _ => key = k → counted = 0) m := by
  have hR : Lenient (since ≤ ·) (Unrevived since k) := lenient_unrevived
  refine obeys_bind hR.refl hR.trans (obeys_look hR.purging key) fun found m' hm hfound => ?_
  obtain ⟨now, hnow, rfl⟩ := hfound
  have hremove : (key = k → m' k = none) → (Storage.remove key >>= fun removed =>
      pure (if removed.isSome then 1 else 0)).Obeys (since ≤ ·) (Unrevived since k)
        (fun counted _ => key = k → counted = 0) m' := by
    intro habsent
    refine obeys_bind hR.refl hR.trans (P := fun removed _ => key = k → removed = none)
      (obeys_atomic fun m'' _ hm' _ => ⟨hR.remove m'' key, fun hkey => ?_⟩)
      fun removed _ _ hremoved => obeys_pure fun hkey => by rw [hremoved hkey]; rfl
    have hnone : m' k = none := habsent hkey
    obtain hsame | hgone' := hm' (hnone ▸ gone_none)
    · rw [hkey, hsame, hnone]
    · rw [hkey, hgone']
  obtain ⟨heq, habsent, _⟩ | ⟨heq, _⟩ | ⟨entry, heq, _, hvis⟩ := found_cases now m' key
  · rw [heq]
    exact hremove fun hkey => hkey ▸ habsent
  · rw [heq]
    exact obeys_bind hR.refl hR.trans (obeys_remove hR key) fun _ _ _ _ => obeys_pure fun _ => rfl
  · rw [heq]
    refine hremove fun hkey => ?_
    rw [hkey, visible_eq_none hgone hm hnow] at hvis
    contradiction

theorem obeys_del (hgone : Gone since (m k)) (keys : List Key) :
    (Storage.del keys).Obeys (since ≤ ·) (Unrevived since k)
      (fun count _ => (∀ key ∈ keys, key = k) → count = 0) m := by
  induction keys generalizing m with
  | nil => exact obeys_pure fun _ => rfl
  | cons key keys ih =>
      refine obeys_bind lenient_unrevived.refl lenient_unrevived.trans (obeys_delKey hgone key)
        fun counted m' hm hcounted => ?_
      refine obeys_bind lenient_unrevived.refl lenient_unrevived.trans (ih (hm.gone hgone))
        fun count _ _ hcount => obeys_pure fun hkeys => ?_
      obtain ⟨hkey, hrest⟩ := List.forall_mem_cons.mp hkeys
      rw [hcounted hkey, hcount hrest]

end Operations

/-! ## Commands -/

/-- Where all its keys are `k`, the command is answered as by an empty store. -/
def AsIfEmpty (k : Key) (c : StorageCommand) (result : CommandResult F) : Prop :=
  (∀ key ∈ c.keys, key = k) → ∀ now, result = (Reference.step now c fun _ => none).1

theorem countDistinct_empty (keys : List Key) :
    Reference.countDistinct keys (fun _ => none) = 0 := by
  simp [Reference.countDistinct]

/-- Counting keys that are not there. -/
theorem obeys_countExists_missing (hgone : Gone since (m k)) (keys : List Key) :
    (countExists keys).Obeys (since ≤ ·) (Unrevived since k)
      (fun count _ => (∀ key ∈ keys, key = k) → count = 0) m := by
  refine (obeys_countExists lenient_unrevived.purging keys).imp fun count _ hcount hkeys => ?_
  obtain ⟨found, rfl, hfound⟩ := hcount
  induction hfound with
  | nil => rfl
  | cons hseen _ ih =>
      obtain ⟨rfl, hrest⟩ := List.forall_mem_cons.mp hkeys
      rw [List.countP_cons, ih hrest, hseen.missing hgone]
      rfl

/-- Reading keys that are not there. -/
theorem obeys_mget_missing (hgone : Gone since (m k)) (keys : List Key) :
    (Storage.mget keys).Obeys (since ≤ ·) (Unrevived since k)
      (fun values _ => (∀ key ∈ keys, key = k) → values = keys.map fun _ => none) m := by
  refine (obeys_mget lenient_unrevived.purging keys).imp fun values _ hvalues hkeys => ?_
  induction hvalues with
  | nil => rfl
  | cons hseen _ ih =>
      obtain ⟨rfl, hrest⟩ := List.forall_mem_cons.mp hkeys
      rw [ih hrest, List.map_cons, hseen.missing hgone]
      rfl

theorem obeys_expireCommand (hgone : Gone since (m k)) (key : Key) (text : List UInt8) :
    (RalphDb.expire [key, text] : StorageCall (CommandResult F)).Obeys (since ≤ ·)
      (Unrevived since k) (fun result _ => AsIfEmpty k (.expire key text) result) m := by
  have hR : Lenient (since ≤ ·) (Unrevived since k) := lenient_unrevived
  rw [RalphDb.expire]
  cases hparse : (fromUtf8 text).bind parseI64 with
  | none => exact obeys_pure fun _ _ => by simp [Reference.step, hparse]
  | some seconds =>
      by_cases hle : seconds ≤ 0
      · simp only [if_pos hle]
        refine obeys_bind hR.refl hR.trans (obeys_del hgone [key]) fun deleted _ _ hdeleted =>
          obeys_pure fun hkeys _ => ?_
        rw [hdeleted hkeys]
        simp [Reference.step, hparse, hle, Reference.expireNow]
      · simp only [if_neg hle]
        refine obeys_bind hR.refl hR.trans (obeys_expire hR key _) fun updated _ _ hupdated =>
          obeys_pure fun hkeys _ => ?_
        have hno : updated = false := by
          cases updated with
          | false => rfl
          | true =>
              obtain rfl : key = k := hkeys key (List.mem_singleton_self key)
              have hnone := (hupdated rfl).missing hgone
              contradiction
        simp [hno, Reference.step, hparse, hle, Reference.setDeadline]

/-- **A command that does not write the key** leaves it missing, and misses
it. -/
theorem obeys_call (hgone : Gone since (m k)) {c : StorageCommand} (h : ¬ c.Revives k) :
    (c.call : StorageCall (CommandResult F)).Obeys (since ≤ ·) (Unrevived since k)
      (fun result _ => AsIfEmpty k c result) m := by
  have hR : Lenient (since ≤ ·) (Unrevived since k) := lenient_unrevived
  cases c with
  | set key value =>
      exact obeys_bind hR.refl hR.trans (obeys_set_ne h value) fun _ _ _ _ =>
        obeys_pure fun _ _ => rfl
  | get key =>
      refine obeys_bind hR.refl hR.trans (obeys_get hR.purging key) fun value _ _ hseen =>
        obeys_pure fun hkeys _ => ?_
      obtain rfl : key = k := hkeys key (List.mem_singleton_self key)
      rw [hseen.missing hgone]
      rfl
  | del keys =>
      cases keys with
      | nil => exact obeys_pure fun _ _ => rfl
      | cons key keys =>
          refine obeys_bind hR.refl hR.trans (obeys_del hgone (key :: keys)) fun _ _ _ hcount =>
            obeys_pure fun hkeys _ => ?_
          rw [hcount hkeys, Reference.step, countDistinct_empty]
          exact List.cons_ne_nil key keys
  | existsKeys keys =>
      cases keys with
      | nil => exact obeys_pure fun _ _ => rfl
      | cons key keys =>
          refine obeys_bind hR.refl hR.trans (obeys_countExists_missing hgone (key :: keys))
            fun _ _ _ hcount => obeys_pure fun hkeys _ => ?_
          rw [hcount hkeys]
          simp [Reference.step]
  | incr key =>
      exact obeys_bind hR.refl hR.trans (obeys_incrBy_ne h 1) fun _ _ _ _ =>
        obeys_pure fun hkeys => absurd (hkeys key (List.mem_singleton_self key)) h
  | decr key =>
      exact obeys_bind hR.refl hR.trans (obeys_incrBy_ne h (-1)) fun _ _ _ _ =>
        obeys_pure fun hkeys => absurd (hkeys key (List.mem_singleton_self key)) h
  | mget keys =>
      cases keys with
      | nil => exact obeys_pure fun _ _ => rfl
      | cons key keys =>
          refine obeys_bind hR.refl hR.trans (obeys_mget_missing hgone (key :: keys))
            fun _ _ _ hvalues => obeys_pure fun hkeys _ => ?_
          rw [hvalues hkeys]
          simp [Reference.step, Reference.value]
  | mset pairs =>
      cases pairs with
      | nil => exact obeys_pure fun _ _ => rfl
      | cons pair pairs =>
          rw [StorageCommand.call_mset (List.cons_ne_nil pair pairs)]
          exact obeys_bind hR.refl hR.trans (obeys_mset_ne h) fun _ _ _ _ =>
            obeys_pure fun _ _ => rfl
  | expire key text => exact obeys_expireCommand hgone key text
  | ttl key =>
      refine obeys_bind hR.refl hR.trans (obeys_ttl hR.purging key) fun value _ _ hseen =>
        obeys_pure fun hkeys _ => ?_
      obtain rfl : key = k := hkeys key (List.mem_singleton_self key)
      obtain ⟨m', now, hm, hnow, rfl⟩ := hseen
      simp [Reference.remaining, visible_eq_none hgone hm hnow, Reference.step]

/-- **A missing key stays missing until it is written.**  From a key that is
absent or has expired, and as long as no client sets or counts in it, the key is
missing in every reachable world, and every command on the key alone is answered
as by an empty store. -/
theorem missing_until_written [DecidableEq ι] (m : DashMap) (since : Instant) (k : Key)
    (program : ι → List StorageCommand) (hgone : Gone since (m k))
    (hprogram : ∀ i, ∀ c ∈ program i, ¬ c.Revives k) {w : Clients ι F}
    (hw : (World.start m since program).Reaches StorageCommand.call w) :
    visible w.clock w.shared k = none ∧
      ∀ r ∈ w.replies, (∀ key ∈ r.command.keys, key = k) →
        ∀ now, r.result = (Reference.step now r.command fun _ => none).1 := by
  have hR : Lenient (since ≤ ·) (Unrevived since k) := lenient_unrevived
  obtain ⟨hmoved, hreplies⟩ := World.obeys_reaches (P := AsIfEmpty k) hR.refl hR.trans
    (fun _ h _ => h) (fun i c hc m' hm' => obeys_call (hm'.gone hgone) (hprogram i c hc)) hw
  exact ⟨visible_eq_none hgone hmoved hw.clock_le, hreplies⟩

/-- A read of an expired key, and an `EXPIRE` of it that began before. -/
theorem missing_until_written_expire :
    (.ok (.integer 0) : CommandResult WholeDouble) =
      (Reference.step .origin (.expire [0x6B] [0x39]) fun _ => none).1 :=
  (missing_until_written (fun _ => some ⟨[0x75], some ⟨1, by decide⟩⟩) ⟨2, by decide⟩ [0x6B]
    (fun i => if i then [.get [0x6B]] else [.expire [0x6B] [0x39]])
    (fun _ h => by rw [← Option.some.inj h]; decide)
    (fun i c hc => by cases i <;> (rw [List.mem_singleton.mp hc]; exact not_false))
    ⟨[.turn false, .turn false, .turn true, .turn true, .turn true, .turn false, .turn false],
      rfl⟩).2 ⟨false, .expire [0x6B] [0x39], 0, .ok (.integer 0)⟩
    (.tail _ (.head _)) (fun _ h => List.mem_singleton.mp h) .origin

end RalphDb
