import RalphDb.Concurrent.Within
import RalphDb.Server.Client
import Mathlib.Order.Fin.Basic

/-!
# RalphDb.Server.Apart

Connections that share no key.

A storage command accesses the keys it names (`within_call`), so a connection
accesses the keys that its commands name.  If no other connection names one of
them, it is answered byte for byte as by `handle_connection` on a server with no
other connection, however the connections are interleaved
(`connection_apart`).
-/

namespace RalphDb

open Base
open Base.Call

variable {F : Type} {K : Key → Prop}

/-! ## Connections -/

/-- The keys that the storage commands of a connection name. -/
def Job.keys (F : Type) [F64 F] (env : Environment) (job : Job) : List Key :=
  (job.script F env).flatMap StorageCommand.keys

theorem within_connectionCall [F64 F] {env : Environment} {job : Job}
    (h : ∀ key ∈ job.keys F env, K key) :
    (connectionCall env job : StorageCall (Transcript F)).Within K := by
  rw [connectionCall_eq]
  refine within_bind (within_inOrder fun c hc => within_call fun key hkey => h key ?_) fun _ =>
    within_pure _
  exact List.mem_flatMap.mpr ⟨c, hc, hkey⟩

/-- **Connections that share no key do not notice each other.**  However the
connections are interleaved, whatever the others send and as long as the stacks of
the threads hold it: a connection over a socket that takes all answers, none of
whose keys another one names, gets, byte for byte, the answers of
`handle_connection` on an idle server with the first store, for some readings of
the clock. -/
theorem connection_apart [F64 F] {ι : Type} [DecidableEq ι] {env : Environment} {m : DashMap}
    {t : Instant} {program : ι → List Job} {i : ι} {reader : Reader} {clientId : Int64}
    (hown : program i = [⟨reader, clientId, .open⟩])
    (hothers : ∀ j, j ≠ i → ∀ other ∈ program j, ∀ key ∈ other.keys F env,
      key ∉ (⟨reader, clientId, .open⟩ : Job).keys F env)
    {w : Connections ι F} (hw : (World.start m t program).Reaches (connectionCall env) w)
    {r : Reply ι Job (Transcript F)} (hr : r ∈ w.replies) (hi : r.client = i) :
    ∃ clock : Nat → Instant, (∀ a b, a ≤ b → clock a ≤ clock b) ∧
      let after := handleConnection (F := F) env clock
        ⟨reader, ⟨.fresh clientId, m, 0⟩, []⟩
      r.result = ⟨after.1.sent, after.2⟩ := by
  obtain ⟨clock, hclock, hresult⟩ := alone_reaches
    (K := (· ∈ (⟨reader, clientId, .open⟩ : Job).keys F env)) hown
    (within_connectionCall fun _ hkey => hkey)
    (fun j hj other hother => within_connectionCall (hothers j hj other hother)) hw hr hi
  refine ⟨clock, hclock, hresult.trans ?_⟩
  rw [connectionCall_runOn]

/-- `INCR a` and `SET b x`, on two connections. -/
def incrBesideSet : Bool → List Job := fun i =>
  if i then [clientJob [.incr [0x61]] 1] else [clientJob [.set [0x62] [0x78]] 2]

theorem sendable_incrBesideSet :
    (StorageCommand.incr [0x61]).Sendable ∧ (StorageCommand.set [0x62] [0x78]).Sendable := by
  have hcaps : 4 ≤ collectionLimit ∧ 4 ≤ bulkLimit := by decide
  have hsizes : (∀ arg ∈ [utf8 "INCR", [0x61]], arg.length ≤ 4) ∧
      ∀ arg ∈ [utf8 "SET", [0x62], [0x78]], arg.length ≤ 4 := by decide
  refine ⟨⟨by decide, ⟨?_, fun arg harg => (hsizes.1 arg harg).trans hcaps.2⟩⟩,
    ⟨by decide, ⟨?_, fun arg harg => (hsizes.2 arg harg).trans hcaps.2⟩⟩⟩
  · exact Nat.le_trans (by decide) hcaps.1
  · exact Nat.le_trans (by decide) hcaps.1

/-- The first is answered. -/
theorem connection_apart_incrBesideSet :
    ∃ r : Reply Bool Job (Transcript WholeDouble), r.client = true ∧
      ∃ clock : Nat → Instant, (∀ a b, a ≤ b → clock a ≤ clock b) ∧
        let after := handleConnection (F := WholeDouble) ⟨none, none, none, none⟩ clock
          ⟨⟨[StorageCommand.incr [0x61]].flatMap StorageCommand.bytes, .eof⟩,
            ⟨.fresh 1, fun _ => none, 0⟩, []⟩
        r.result = ⟨after.1.sent, after.2⟩ := by
  let env : Environment := ⟨none, none, none, none⟩
  let w : Connections Bool WholeDouble := World.start (fun _ => none) .origin incrBesideSet
  obtain ⟨hincr, hset⟩ := sendable_incrBesideSet
  have hscript := script_clientJob (F := WholeDouble) env
    (List.forall_mem_singleton.mpr hincr) 1
  have hcall : (connectionCall env (clientJob [.incr [0x61]] 1) :
      StorageCall (Transcript WholeDouble)) =
        (inOrder StorageCommand.call [.incr [0x61]] >>= fun results =>
          pure ((clientJob [.incr [0x61]] 1).transcript env results)) := by
    rw [connectionCall_eq, hscript]
  have hbegun := World.turn_of_live (connectionCall env) (w := w) (i := true) rfl
    (by rw [hcall]; exact fun _ h => by cases h)
  have hclient : (w.turn (connectionCall env) true).clients true =
      ⟨[], some ⟨clientJob [.incr [0x61]] 1, 0,
        connectionCall env (clientJob [.incr [0x61]] 1)⟩⟩ := by
    rw [hbegun]
    simp only [Function.update_self]
    rfl
  have hover := World.turn_of_over (connectionCall env) hclient (by rw [hcall]; rfl)
  have hreach : w.Reaches (connectionCall env)
      ((w.turn (connectionCall env) true).turn (connectionCall env) true) :=
    ⟨[.turn true, .turn true], rfl⟩
  have hown : incrBesideSet true = [clientJob [.incr [0x61]] 1] := rfl
  have hothers : ∀ j, j ≠ true → ∀ other ∈ incrBesideSet j,
      ∀ key ∈ other.keys WholeDouble env,
        key ∉ (clientJob [.incr [0x61]] 1).keys WholeDouble env := by
    intro j hj other hother key hkey
    obtain rfl : j = false := Bool.eq_false_of_not_eq_true hj
    obtain rfl : other = clientJob [.set [0x62] [0x78]] 2 := List.mem_singleton.mp hother
    rw [Job.keys, script_clientJob env (List.forall_mem_singleton.mpr hset)] at hkey
    rw [Job.keys, hscript]
    obtain rfl : key = [0x62] := List.mem_singleton.mp hkey
    decide
  obtain ⟨result, hmem⟩ : ∃ result, (⟨true, clientJob [.incr [0x61]] 1, 0, result⟩ :
      Reply Bool Job (Transcript WholeDouble)) ∈
        ((w.turn (connectionCall env) true).turn (connectionCall env) true).replies := by
    rw [hover]
    exact ⟨_, List.mem_append_right _ (List.mem_singleton_self _)⟩
  exact ⟨_, rfl, connection_apart hown hothers hreach hmem rfl⟩

end RalphDb
