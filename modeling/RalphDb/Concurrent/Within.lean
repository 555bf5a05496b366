import RalphDb.Base.Footprint
import RalphDb.Command.StorageCommand

/-!
# RalphDb.Concurrent.Within

The keys that a storage command accesses.

A storage command accesses the keys it names and no other (`within_call`).
-/

namespace RalphDb

open Base
open Base.Call

variable {F : Type} {K : Key → Prop}

/-! ## Storage operations -/

theorem within_look {key : Key} (h : K key) : (Storage.look key).Within K := within_atomic h _

theorem within_remove {key : Key} (h : K key) : (Storage.remove key).Within K := within_atomic h _

theorem within_get {key : Key} (h : K key) : (Storage.get key).Within K := by
  refine within_bind (within_look h) fun found => ?_
  cases found with
  | absent => exact within_pure _
  | expired => exact within_bind (within_remove h) fun _ => within_pure _
  | live entry now => exact within_pure _

theorem within_ttl {key : Key} (h : K key) : (Storage.ttl key).Within K := by
  refine within_bind (within_look h) fun found => ?_
  cases found with
  | absent => exact within_pure _
  | expired => exact within_bind (within_remove h) fun _ => within_pure _
  | live entry now => cases hexp : entry.expiresAt <;> simp only [hexp] <;> exact within_pure _

theorem within_delKey {key : Key} (h : K key) : (Storage.delKey key).Within K := by
  refine within_bind (within_look h) fun found => ?_
  cases found <;> exact within_bind (within_remove h) fun _ => within_pure _

theorem within_del {keys : List Key} (h : ∀ key ∈ keys, K key) : (Storage.del keys).Within K := by
  induction keys with
  | nil => exact within_pure _
  | cons key keys ih =>
      obtain ⟨hkey, hkeys⟩ := List.forall_mem_cons.mp h
      exact within_bind (within_delKey hkey) fun _ => within_bind (ih hkeys) fun _ => within_pure _

theorem within_countExists {keys : List Key} (h : ∀ key ∈ keys, K key) :
    (countExists keys).Within K := by
  induction keys with
  | nil => exact within_pure _
  | cons key keys ih =>
      obtain ⟨hkey, hkeys⟩ := List.forall_mem_cons.mp h
      exact within_bind (within_bind (within_get hkey) fun _ => within_pure _) fun _ =>
        within_bind (ih hkeys) fun _ => within_pure _

theorem within_mget {keys : List Key} (h : ∀ key ∈ keys, K key) : (Storage.mget keys).Within K := by
  induction keys with
  | nil => exact within_pure _
  | cons key keys ih =>
      obtain ⟨hkey, hkeys⟩ := List.forall_mem_cons.mp h
      exact within_bind (within_get hkey) fun _ => within_bind (ih hkeys) fun _ => within_pure _

theorem within_mset {pairs : List (Key × List UInt8)} (h : ∀ key ∈ pairs.map Prod.fst, K key) :
    (Storage.mset pairs).Within K := by
  induction pairs with
  | nil => exact within_pure _
  | cons pair pairs ih =>
      obtain ⟨hkey, hkeys⟩ := List.forall_mem_cons.mp h
      exact within_bind (within_atomic hkey _) fun _ => ih hkeys

theorem within_expire {key : Key} (h : K key) (secs : Nat) :
    (Storage.expire key secs).Within K := by
  refine within_bind (fun _ => trivial) fun now => ?_
  split
  · exact within_pure _
  · refine within_bind (within_atomic h _) fun answer => ?_
    cases answer with
    | some answer => exact within_pure _
    | none => exact within_bind (within_remove h) fun _ => within_pure _

/-! ## Commands -/

/-- **A storage command accesses the keys it names.** -/
theorem within_call {c : StorageCommand} (h : ∀ key ∈ c.keys, K key) :
    (c.call : StorageCall (CommandResult F)).Within K := by
  cases c with
  | set key value =>
      exact within_bind (within_atomic (h key List.mem_cons_self) _) fun _ => within_pure _
  | get key => exact within_bind (within_get (h key List.mem_cons_self)) fun _ => within_pure _
  | del keys =>
      cases keys with
      | nil => exact within_pure _
      | cons key keys => exact within_bind (within_del h) fun _ => within_pure _
  | existsKeys keys =>
      cases keys with
      | nil => exact within_pure _
      | cons key keys => exact within_bind (within_countExists h) fun _ => within_pure _
  | incr key =>
      exact within_bind (within_atomic (h key List.mem_cons_self) _) fun _ => within_pure _
  | decr key =>
      exact within_bind (within_atomic (h key List.mem_cons_self) _) fun _ => within_pure _
  | mget keys =>
      cases keys with
      | nil => exact within_pure _
      | cons key keys => exact within_bind (within_mget h) fun _ => within_pure _
  | mset pairs =>
      cases pairs with
      | nil => exact within_pure _
      | cons pair pairs =>
          rw [StorageCommand.call_mset (List.cons_ne_nil pair pairs)]
          exact within_bind (within_mset h) fun _ => within_pure _
  | expire key text =>
      have hkey : K key := h key List.mem_cons_self
      show (RalphDb.expire [key, text] : StorageCall (CommandResult F)).Within K
      rw [RalphDb.expire]
      cases (fromUtf8 text).bind parseI64 with
      | none => exact within_pure _
      | some seconds =>
          by_cases hle : seconds ≤ 0
          · simp only [if_pos hle]
            exact within_bind (within_del h) fun _ => within_pure _
          · simp only [if_neg hle]
            exact within_bind (within_expire hkey _) fun _ => within_pure _
  | ttl key => exact within_bind (within_ttl (h key List.mem_cons_self)) fun _ => within_pure _

end RalphDb
