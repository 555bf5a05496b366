import RalphDb.Base.Rely
import RalphDb.Command.Expiry
import RalphDb.Concurrent.Keeps

/-!
# RalphDb.Concurrent.Obeys

The operations of the store as calls that obey a relation.

Reading operations look, and may remove what they have found expired.  A relation
that allows this (`Purging`) they obey, and each answer is what the reference
would have answered of a map that the relation leads to.  `expire` besides sets a
deadline, which a `Lenient` relation allows.  Storing and counting are steps that
each relation has to allow by itself.
-/

namespace RalphDb

open Base
open Base.Call
open Function

variable {F : Type} {T : Instant → Prop} {R : DashMap → DashMap → Prop} {m : DashMap}

/-- The relation is a preorder that allows a key to be removed after it has been
found expired. -/
structure Purging (T : Instant → Prop) (R : DashMap → DashMap → Prop) : Prop where
  refl : ∀ m, R m m
  trans : ∀ a b c, R a b → R b c → R a c
  purge : ∀ m m' key now, T now → Storage.Found.of now (m key) = .expired → R m m' →
    R m' (update m' key none)

/-- The relation is a preorder that allows any key to be removed and a deadline to
be set. -/
structure Lenient (T : Instant → Prop) (R : DashMap → DashMap → Prop) : Prop where
  refl : ∀ m, R m m
  trans : ∀ a b c, R a b → R b c → R a c
  remove : ∀ m key, R m (update m key none)
  expire : ∀ m key expiry now, T now →
    R m (update m key (Storage.expireEntry expiry now (m key)).2)

theorem Lenient.purging (hR : Lenient T R) : Purging T R :=
  ⟨hR.refl, hR.trans, fun _ m' key _ _ _ _ => hR.remove m' key⟩

/-- An answer about a key that is true of a map that `R` leads to. -/
def SeenAlong (T : Instant → Prop) (R : DashMap → DashMap → Prop) (m : DashMap) {α : Type}
    (f : Instant → Reference → α) (answer : α) : Prop :=
  ∃ m' now, R m m' ∧ T now ∧ answer = f now (visible now m')

/-- It is also one from any map before. -/
theorem SeenAlong.mono (hR : Purging T R) {m' : DashMap} {α : Type}
    {f : Instant → Reference → α} {answer : α} (h : SeenAlong T R m' f answer) (hm : R m m') :
    SeenAlong T R m f answer := by
  obtain ⟨m'', now, hm', hnow, heq⟩ := h
  exact ⟨m'', now, hR.trans _ _ _ hm hm', hnow, heq⟩

theorem obeys_look (hR : Purging T R) (key : Key) :
    (Storage.look key).Obeys T R (fun found m' => ∃ now, T now ∧ found = .of now (m' key)) m :=
  obeys_atomic_read hR.refl (fun _ _ => rfl) fun _ now _ hnow => ⟨now, hnow, rfl⟩

/-- The removal after a look. -/
theorem obeys_purge (hR : Purging T R) {key : Key} {now : Instant} (hnow : T now)
    (h : Storage.Found.of now (m key) = .expired) :
    (Storage.remove key).Obeys T R (fun _ _ => True) m :=
  obeys_atomic fun m' _ hm _ => ⟨hR.purge m m' key now hnow h hm, trivial⟩

theorem obeys_remove (hR : Lenient T R) (key : Key) :
    (Storage.remove key).Obeys T R (fun _ _ => True) m :=
  obeys_atomic fun m' _ _ _ => ⟨hR.remove m' key, trivial⟩

theorem obeys_get (hR : Purging T R) (key : Key) :
    (Storage.get key).Obeys T R (fun value _ =>
      SeenAlong T R m (fun _ ref => Reference.value key ref) value) m := by
  refine obeys_bind hR.refl hR.trans (obeys_look hR key) fun found m' hm hfound => ?_
  obtain ⟨now, hnow, rfl⟩ := hfound
  obtain ⟨heq, _, hvis⟩ | ⟨heq, hvis⟩ | ⟨entry, heq, _, hvis⟩ := found_cases now m' key
  · rw [heq]
    exact obeys_pure ⟨m', now, hm, hnow, by simp [Reference.value, hvis]⟩
  · rw [heq]
    exact obeys_bind hR.refl hR.trans (obeys_purge hR hnow heq) fun _ _ _ _ =>
      obeys_pure ⟨m', now, hm, hnow, by simp [Reference.value, hvis]⟩
  · rw [heq]
    exact obeys_pure ⟨m', now, hm, hnow, by simp [Reference.value, hvis]⟩

theorem obeys_ttl (hR : Purging T R) (key : Key) :
    (Storage.ttl key).Obeys T R (fun value _ =>
      SeenAlong T R m (fun now ref => Reference.remaining key now ref) value) m := by
  refine obeys_bind hR.refl hR.trans (obeys_look hR key) fun found m' hm hfound => ?_
  obtain ⟨now, hnow, rfl⟩ := hfound
  obtain ⟨heq, _, hvis⟩ | ⟨heq, hvis⟩ | ⟨entry, heq, _, hvis⟩ := found_cases now m' key
  · rw [heq]
    exact obeys_pure ⟨m', now, hm, hnow, by simp [Reference.remaining, hvis]⟩
  · rw [heq]
    exact obeys_bind hR.refl hR.trans (obeys_purge hR hnow heq) fun _ _ _ _ =>
      obeys_pure ⟨m', now, hm, hnow, by simp [Reference.remaining, hvis]⟩
  · rw [heq]
    cases hexp : entry.expiresAt <;> simp only [hexp] <;>
      exact obeys_pure ⟨m', now, hm, hnow, by simp [Reference.remaining, hvis, hexp]⟩

theorem obeys_mget (hR : Purging T R) (keys : List Key) :
    (Storage.mget keys).Obeys T R (fun values _ => List.Forall₂ (fun key value =>
      SeenAlong T R m (fun _ ref => Reference.value key ref) value) keys values) m := by
  induction keys generalizing m with
  | nil => exact obeys_pure .nil
  | cons key keys ih =>
      refine obeys_bind hR.refl hR.trans (obeys_get hR key) fun value m' hm hvalue => ?_
      refine obeys_bind hR.refl hR.trans ih fun values _ _ hvalues => obeys_pure (.cons hvalue ?_)
      exact hvalues.imp fun _ _ hseen => hseen.mono hR hm

/-- The keys counted, one by one. -/
theorem obeys_countExists (hR : Purging T R) (keys : List Key) :
    (countExists keys).Obeys T R (fun count _ => ∃ found : List Bool, count = found.countP id ∧
      List.Forall₂ (fun key found => SeenAlong T R m (fun _ ref => (ref key).isSome) found)
        keys found) m := by
  induction keys generalizing m with
  | nil => exact obeys_pure ⟨[], rfl, .nil⟩
  | cons key keys ih =>
      have hexists : (Storage.existsKey key).Obeys T R (fun found _ =>
          SeenAlong T R m (fun _ ref => (ref key).isSome) found) m := by
        refine obeys_bind hR.refl hR.trans (obeys_get hR key) fun value _ _ hvalue => ?_
        obtain ⟨m', now, hm, hnow, rfl⟩ := hvalue
        exact obeys_pure ⟨m', now, hm, hnow, by simp [Reference.value]⟩
      refine obeys_bind hR.refl hR.trans hexists fun found m' hm hfound => ?_
      refine obeys_bind hR.refl hR.trans ih fun count _ _ hcount => obeys_pure ?_
      obtain ⟨rest, rfl, hrest⟩ := hcount
      refine ⟨found :: rest, ?_, .cons hfound (hrest.imp fun _ _ hseen => hseen.mono hR hm)⟩
      rw [List.countP_cons, Nat.add_comm]
      rfl

/-- A deadline is set on a present key only. -/
theorem obeys_expire (hR : Lenient T R) (key : Key) (secs : Nat) :
    (Storage.expire key secs).Obeys T R (fun updated _ => updated = true →
      SeenAlong T R m (fun _ ref => (ref key).isSome) true) m := by
  have hentry : ∀ m' expiry, R m m' → (atomic key (Storage.expireEntry expiry)).Obeys T R
      (fun answer _ => answer = some true →
        SeenAlong T R m (fun _ ref => (ref key).isSome) true) m' := by
    intro m' expiry hm
    refine obeys_atomic fun m'' now hm' hnow => ⟨hR.expire m'' key expiry now hnow, fun heq => ?_⟩
    refine ⟨m'', now, hR.trans _ _ _ hm hm', hnow, ?_⟩
    cases hfound : m'' key with
    | none => simp [Storage.expireEntry, hfound] at heq
    | some entry =>
        cases hexp : entry.expired now with
        | true => simp [Storage.expireEntry, hfound, hexp] at heq
        | false => simp [visible, hfound, Option.filter_some, hexp]
  refine obeys_bind hR.refl hR.trans (P := fun _ _ => True) (fun _ _ => trivial)
    fun now m' hm _ => ?_
  split
  · exact obeys_pure fun h => by contradiction
  · next expiry _ =>
      refine obeys_bind hR.refl hR.trans (hentry m' expiry hm) fun answer m'' hm' hanswer => ?_
      cases answer with
      | some answer => exact obeys_pure fun h => hanswer (by rw [h])
      | none =>
          exact obeys_bind hR.refl hR.trans (obeys_remove hR key) fun _ _ _ _ =>
            obeys_pure fun h => by contradiction

/-- Keys may be removed. -/
theorem obeys_del_of_lenient (hR : Lenient T R) (keys : List Key) :
    (Storage.del keys).Obeys T R (fun _ _ => True) m := by
  induction keys generalizing m with
  | nil => exact obeys_pure trivial
  | cons key keys ih =>
      have hkey : ∀ m, (Storage.delKey key).Obeys T R (fun _ _ => True) m := by
        refine fun m =>
          obeys_bind hR.refl hR.trans (obeys_look hR.purging key) fun found _ _ _ => ?_
        cases found <;> exact obeys_bind hR.refl hR.trans (obeys_remove hR key) fun _ _ _ _ =>
          obeys_pure trivial
      exact obeys_bind hR.refl hR.trans (hkey m) fun _ _ _ _ =>
        obeys_bind hR.refl hR.trans ih fun _ _ _ _ => obeys_pure trivial

/-! ## Commands -/

/-- A command that reads obeys a relation that allows to purge. -/
theorem obeys_of_reads (hR : Purging T R) {c : StorageCommand} (h : c.Reads) :
    (c.call : StorageCall (CommandResult F)).Obeys T R (fun _ _ => True) m := by
  cases c with
  | get key =>
      exact obeys_bind hR.refl hR.trans (obeys_get hR key) fun _ _ _ _ => obeys_pure trivial
  | mget keys =>
      cases keys with
      | nil => exact obeys_pure trivial
      | cons key keys =>
          exact obeys_bind hR.refl hR.trans (obeys_mget hR (key :: keys)) fun _ _ _ _ =>
            obeys_pure trivial
  | existsKeys keys =>
      cases keys with
      | nil => exact obeys_pure trivial
      | cons key keys =>
          exact obeys_bind hR.refl hR.trans (obeys_countExists hR (key :: keys)) fun _ _ _ _ =>
            obeys_pure trivial
  | ttl key =>
      exact obeys_bind hR.refl hR.trans (obeys_ttl hR key) fun _ _ _ _ => obeys_pure trivial
  | _ => exact h.elim

/-- `EXPIRE` removes its key or sets its deadline. -/
theorem obeys_expire_of_lenient (hR : Lenient T R) (key : Key) (text : List UInt8) :
    (RalphDb.expire [key, text] : StorageCall (CommandResult F)).Obeys T R (fun _ _ => True) m := by
  rw [RalphDb.expire]
  split
  · exact obeys_pure trivial
  · split
    · exact obeys_bind hR.refl hR.trans (obeys_del_of_lenient hR [key]) fun _ _ _ _ =>
        obeys_pure trivial
    · exact obeys_bind hR.refl hR.trans (obeys_expire hR key _) fun _ _ _ _ => obeys_pure trivial

end RalphDb
