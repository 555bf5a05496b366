import RalphDb.Base.Script
import RalphDb.Concurrent.Linear

/-!
# RalphDb.Concurrent.Pieces

Commands on several keys, as commands on one.

`MSET` is the `SET`s of its pairs one after the other, `MGET` the `GET`s of its
keys, and `DEL` and `EXISTS` are the `DEL`s and `EXISTS`s of each of their keys;
the reply is made of the replies to these (`call_pieces`).  Every command that
sets no deadline is thus made of commands that are atomic
(`atomic_of_mem_pieces`), and it is no more atomic than they are together.
-/

namespace RalphDb

open Base
open Base.Call

variable {F : Type}

/-! ## Loops over keys -/

theorem del_eq_inOrder (keys : List Key) : Storage.del keys =
    inOrder Storage.delKey keys >>= fun counts => pure (counts.foldr (· + ·) 0) :=
  inOrder_foldr Storage.del Storage.delKey (· + ·) 0 rfl (fun _ _ => rfl) keys

theorem countExists_eq_inOrder (keys : List Key) : countExists keys =
    inOrder Storage.existsKey keys >>= fun found =>
      pure (found.foldr (fun found count => (if found then 1 else 0) + count) 0) :=
  inOrder_foldr countExists Storage.existsKey _ 0 rfl (fun _ _ => rfl) keys

theorem mget_eq_inOrder (keys : List Key) : Storage.mget keys = inOrder Storage.get keys := by
  have hloop := inOrder_foldr Storage.mget Storage.get List.cons [] rfl (fun _ _ => rfl) keys
  simpa only [List.foldr_cons_nil, bind_done] using hloop

theorem mset_eq_inOrder (pairs : List (Key × List UInt8)) : Storage.mset pairs =
    inOrder (fun pair => Storage.set pair.1 pair.2) pairs >>= fun _ => pure () := by
  refine inOrder_foldr Storage.mset _ (fun _ stored => stored) () rfl (fun pair pairs => ?_) pairs
  rw [bind_done]
  rfl

/-! ## Commands -/

/-- The command sets no deadline. -/
def StorageCommand.SetsNoDeadline : StorageCommand → Prop
  | .expire key text => (StorageCommand.expire key text).Atomic
  | _ => True

/-- The commands on one key that a command is made of. -/
def StorageCommand.pieces : StorageCommand → List StorageCommand
  | .del keys => keys.map fun key => .del [key]
  | .existsKeys keys => keys.map fun key => .existsKeys [key]
  | .mget keys => keys.map .get
  | .mset pairs => pairs.map fun pair => .set pair.1 pair.2
  | c => [c]

/-- What integer replies add up to. -/
def total (results : List (CommandResult F)) : Int64 :=
  results.foldr (fun result sum =>
    (match result.response with
      | .integer n => n
      | _ => 0) + sum) 0

/-- The reply to a command, from the replies to its pieces. -/
def StorageCommand.assemble (c : StorageCommand) (results : List (CommandResult F)) :
    CommandResult F :=
  match c with
  | .del [] => .error "ERR wrong number of arguments for 'del'"
  | .del (_ :: _) => .ok (.integer (total results))
  | .existsKeys [] => .error "ERR wrong number of arguments for 'exists'"
  | .existsKeys (_ :: _) => .ok (.integer (total results))
  | .mget [] => .error "ERR wrong number of arguments for 'mget'"
  | .mget (_ :: _) => .ok (.array (some (results.map CommandResult.response)))
  | .mset [] => .error "ERR wrong number of arguments for 'mset'"
  | .mset (_ :: _) => .ok (.simpleString "OK")
  | _ => results.headD (.ok .null)

/-- Counts add up, modulo the width of the reply. -/
theorem total_map {α : Type} (count : α → Nat) (as : List α) :
    total (F := F) (as.map fun a => .ok (.integer (Int64.ofNat (count a)))) =
      Int64.ofNat (as.foldr (fun a sum => count a + sum) 0) := by
  induction as with
  | nil => rfl
  | cons a as ih =>
      rw [List.foldr_cons, Int64.ofNat_add, ← ih]
      rfl

theorem atomic_of_mem_pieces {c p : StorageCommand} (h : c.SetsNoDeadline) (hp : p ∈ c.pieces) :
    p.Atomic := by
  have hsingle : ∀ {α : Type} (piece : α → StorageCommand) (as : List α),
      (∀ a, (piece a).Atomic) → p ∈ as.map piece → p.Atomic := by
    intro α piece as hpiece hp
    obtain ⟨a, _, rfl⟩ := List.mem_map.mp hp
    exact hpiece a
  cases c with
  | del keys => exact hsingle (fun key => .del [key]) keys (fun _ => Nat.le_refl 1) hp
  | existsKeys keys =>
      exact hsingle (fun key => .existsKeys [key]) keys (fun _ => Nat.le_refl 1) hp
  | mget keys => exact hsingle .get keys (fun _ => trivial) hp
  | mset pairs =>
      exact hsingle (fun pair : Key × _ => .set pair.1 pair.2) pairs (fun _ => trivial) hp
  | expire key text =>
      rw [List.mem_singleton.mp hp]
      exact h
  | _ =>
      rw [List.mem_singleton.mp hp]
      exact trivial

/-! ## Calls -/

theorem call_pieces_del (keys : List Key) : (inOrder StorageCommand.call
    (keys.map fun key => StorageCommand.del [key]) : StorageCall (List (CommandResult F))) =
      inOrder Storage.delKey keys >>= fun counts =>
        pure (counts.map fun count => .ok (.integer (Int64.ofNat (count + 0)))) :=
  inOrder_map (fun key => by
    show RalphDb.del [key] = _
    simp only [RalphDb.del, Storage.del, bind_assoc, done_bind]) keys

theorem call_pieces_exists (keys : List Key) : (inOrder StorageCommand.call
    (keys.map fun key => StorageCommand.existsKeys [key]) : StorageCall (List (CommandResult F))) =
      inOrder Storage.existsKey keys >>= fun found =>
        pure (found.map fun found => .ok (.integer (Int64.ofNat ((if found then 1 else 0) + 0)))) :=
  inOrder_map (fun key => by
    show existsCommand [key] = _
    simp only [existsCommand, countExists, bind_assoc, done_bind]) keys

theorem call_pieces_mget (keys : List Key) : (inOrder StorageCommand.call
    (keys.map StorageCommand.get) : StorageCall (List (CommandResult F))) =
      inOrder Storage.get keys >>= fun values =>
        pure (values.map fun value => .ok (valueFrame value)) := by
  refine inOrder_map (fun _ => ?_) keys
  rfl

theorem call_pieces_mset (pairs : List (Key × List UInt8)) : (inOrder StorageCommand.call
    (pairs.map fun pair => StorageCommand.set pair.1 pair.2) :
      StorageCall (List (CommandResult F))) =
        inOrder (fun pair => Storage.set pair.1 pair.2) pairs >>= fun stored =>
          pure (stored.map fun _ => .ok (.simpleString "OK")) := by
  refine inOrder_map (fun _ => ?_) pairs
  rfl

/-- Other commands are in one piece. -/
theorem call_pieces_self {c : StorageCommand} (hpieces : c.pieces = [c])
    (h : ∀ result : CommandResult F, c.assemble [result] = result) :
    (c.call : StorageCall (CommandResult F)) =
      inOrder StorageCommand.call c.pieces >>= fun results => pure (c.assemble results) := by
  rw [hpieces, inOrder, inOrder]
  simp only [bind_assoc, done_bind, h, bind_done]

/-- **A command is its pieces**, one after the other. -/
theorem call_pieces (c : StorageCommand) : (c.call : StorageCall (CommandResult F)) =
    inOrder StorageCommand.call c.pieces >>= fun results => pure (c.assemble results) := by
  cases c with
  | del keys =>
      cases keys with
      | nil => rfl
      | cons key keys =>
          rw [StorageCommand.pieces, call_pieces_del]
          show (Storage.del (key :: keys) >>= fun _ => _) = _
          rw [del_eq_inOrder]
          simp only [bind_assoc, done_bind, StorageCommand.assemble, total_map]
          rfl
  | existsKeys keys =>
      cases keys with
      | nil => rfl
      | cons key keys =>
          rw [StorageCommand.pieces, call_pieces_exists]
          show (countExists (key :: keys) >>= fun _ => _) = _
          rw [countExists_eq_inOrder]
          simp only [bind_assoc, done_bind, StorageCommand.assemble, total_map]
          rfl
  | mget keys =>
      cases keys with
      | nil => rfl
      | cons key keys =>
          rw [StorageCommand.pieces, call_pieces_mget]
          show (Storage.mget (key :: keys) >>= fun _ => _) = _
          rw [mget_eq_inOrder]
          simp only [bind_assoc, done_bind, StorageCommand.assemble, List.map_map]
          rfl
  | mset pairs =>
      cases pairs with
      | nil => rfl
      | cons pair pairs =>
          rw [StorageCommand.pieces, call_pieces_mset,
            StorageCommand.call_mset (List.cons_ne_nil pair pairs), mset_eq_inOrder]
          simp only [bind_assoc, done_bind, StorageCommand.assemble]
  | set key value => exact call_pieces_self rfl fun _ => rfl
  | get key => exact call_pieces_self rfl fun _ => rfl
  | incr key => exact call_pieces_self rfl fun _ => rfl
  | decr key => exact call_pieces_self rfl fun _ => rfl
  | expire key text => exact call_pieces_self rfl fun _ => rfl
  | ttl key => exact call_pieces_self rfl fun _ => rfl

end RalphDb
