import RalphDb.Concurrent.Keeps
import Mathlib.Data.List.Forall2

/-!
# RalphDb.Concurrent.Mset

`MGET` while `MSET` is under way.

`MSET` and `MGET` are loops of accesses, one for each key, and nothing holds the
keys together: an `MGET` that meets an `MSET` may answer new values for some
keys and old ones for others (`mget_torn`).

What it answers for each key is a value the key had before the `MSET` or has
after it (`mget_during_mset`).  An `MGET` that replied before the `MSET` began
answers the old values, and one that began after the `MSET` replied the new
ones.  All three are one statement, about the entries a reader may meet
(`Sees`).

Nothing more can be said: for any choice of old and new values some schedule
makes an `MGET` answer them (`mixture_occurs`).
-/

namespace RalphDb

open Base
open Base.Call
open Function

variable {F ι : Type}

/-! ## Before and after -/

/-- The store after the pairs have been stored, one after the other. -/
def stored (pairs : List (Key × List UInt8)) (m : DashMap) : DashMap :=
  pairs.foldl (fun m pair => update m pair.1 (some (Entry.new pair.2))) m

/-- The value of a key. -/
def valueIn (m : DashMap) (key : Key) : Option (List UInt8) := (m key).map Entry.value

/-- The values of some keys. -/
def valuesIn (m : DashMap) (keys : List Key) : List (Option (List UInt8)) := keys.map (valueIn m)

/-- The reply of an `MGET` that has read these values. -/
def mgetResult (values : List (Option (List UInt8))) : CommandResult F :=
  if values = [] then .error "ERR wrong number of arguments for 'mget'"
  else .ok (.array (some (values.map valueFrame)))

@[simp] theorem runAt_mset (pairs : List (Key × List UInt8)) (t : Instant) (m : DashMap) :
    (Storage.mset pairs).runAt t m = ((), stored pairs m) := by
  induction pairs generalizing m with
  | nil => rfl
  | cons pair pairs ih => exact ih _

theorem stored_append (done left : List (Key × List UInt8)) (m : DashMap) :
    stored (done ++ left) m = stored left (stored done m) := by
  simp [stored]

theorem stored_of_not_mem {pairs : List (Key × List UInt8)} {key : Key}
    (h : key ∉ pairs.map Prod.fst) (m : DashMap) : stored pairs m key = m key := by
  induction pairs generalizing m with
  | nil => rfl
  | cons pair pairs ih =>
      obtain ⟨hkey, hkeys⟩ := List.ne_and_not_mem_of_not_mem_cons h
      rw [stored, List.foldl_cons]
      exact (ih hkeys _).trans (update_of_ne hkey _ m)

/-- While distinct keys are stored, each has its old entry or its new one. -/
theorem stored_prefix {done left : List (Key × List UInt8)}
    (h : ((done ++ left).map Prod.fst).Nodup) (m : DashMap) (key : Key) :
    stored done m key = m key ∨ stored done m key = stored (done ++ left) m key := by
  rw [List.map_append, List.nodup_append] at h
  by_cases hkey : key ∈ left.map Prod.fst
  · have hdone : key ∉ done.map Prod.fst := fun hmem => h.2.2 key hmem key hkey rfl
    exact .inl (stored_of_not_mem hdone m)
  · rw [stored_append]
    exact .inr (stored_of_not_mem hkey _).symm

theorem noDeadline_stored {m : DashMap} (h : ∀ key, NoDeadline (m key))
    (pairs : List (Key × List UInt8)) (key : Key) : NoDeadline (stored pairs m key) := by
  induction pairs generalizing m with
  | nil => exact h key
  | cons pair pairs ih =>
      refine ih fun key' => ?_
      by_cases hkey : key' = pair.1
      · simp [hkey, NoDeadline, Entry.new]
      · simpa [update_of_ne hkey] using h key'

/-! ## What a reader may meet -/

/-- The entries a reader may meet, key by key. -/
abbrev View : Type := Key → Option Entry → Prop

/-- What the keys held before the `MSET`. -/
def Before (m : DashMap) : View := fun key found => found = m key

/-- What they hold after it. -/
def After (pairs : List (Key × List UInt8)) (m : DashMap) : View :=
  Before (stored pairs m)

def Either (pairs : List (Key × List UInt8)) (m : DashMap) : View :=
  fun key found => Before m key found ∨ After pairs m key found

/-- `K` holds of the view that a call has which began after `began` replies: it
meets old and new entries, only old ones until the `MSET` begins, only new ones
if the `MSET` had replied. -/
structure Sees (pairs : List (Key × List UInt8)) (m : DashMap) (begun : Bool)
    (replies : List (StorageReply ι F)) (began : Nat) (K : View → Prop) : Prop where
  either : K (Either pairs m)
  before : begun = false → K (Before m)
  after : RepliedBefore (.mset pairs) replies began → K (After pairs m)

section Sees

variable {pairs : List (Key × List UInt8)} {m : DashMap} {begun : Bool}
  {replies : List (StorageReply ι F)} {began : Nat} {K K' K'' : View → Prop}

theorem Sees.imp₂ (h : Sees pairs m begun replies began K)
    (h' : Sees pairs m begun replies began K') (hK : ∀ V, K V → K' V → K'' V) :
    Sees pairs m begun replies began K'' :=
  ⟨hK _ h.either h'.either, fun hb => hK _ (h.before hb) (h'.before hb),
    fun ha => hK _ (h.after ha) (h'.after ha)⟩

/-- The `MSET` begins. -/
theorem Sees.begin (h : Sees pairs m begun replies began K) :
    Sees pairs m true replies began K :=
  ⟨h.either, fun hb => by contradiction, h.after⟩

theorem Sees.append (h : Sees pairs m begun replies began K) (hbegan : began ≤ replies.length)
    (r : StorageReply ι F) : Sees pairs m begun (replies ++ [r]) began K :=
  ⟨h.either, h.before, fun ha => h.after ((repliedBefore_append hbegan r).mp ha)⟩

/-- What holds of every view without deadlines. -/
theorem sees_of_forall (hfresh : ∀ key, NoDeadline (m key))
    (h : ∀ V : View, (∀ key found, V key found → NoDeadline found) → K V) :
    Sees pairs m begun replies began K := by
  have hbefore : ∀ key found, Before m key found → NoDeadline found := by
    rintro key found rfl
    exact hfresh key
  have hafter : ∀ key found, After pairs m key found → NoDeadline found := by
    rintro key found rfl
    exact noDeadline_stored hfresh pairs key
  exact ⟨h _ fun key found hf => hf.elim (hbefore key found) (hafter key found),
    fun _ => h _ hbefore, fun _ => h _ hafter⟩

end Sees

/-! ## The calls -/

/-- An `MGET` answers what it may meet. -/
def AnswersFrom (V : View) (c : StorageCommand) (result : CommandResult F) : Prop :=
  ∀ keys, c = .mget keys →
    ∃ values, List.Forall₂ (ReadFrom V) keys values ∧ result = mgetResult values

theorem observes_answersFrom {V : View} (hV : ∀ key found, V key found → NoDeadline found)
    {c : StorageCommand} (h : c.Reads) :
    (c.call : StorageCall (CommandResult F)).Observes V (AnswersFrom V c) := by
  by_cases hmget : ∃ keys, c = .mget keys
  · obtain ⟨keys, rfl⟩ := hmget
    cases keys with
    | nil =>
        refine observes_pure fun keys heq => ⟨[], ?_, rfl⟩
        obtain rfl : keys = [] := by simpa using heq.symm
        exact .nil
    | cons key keys =>
        refine observes_bind (observes_mget hV (key :: keys)) fun values hvalues => ?_
        refine observes_pure fun keys' heq => ⟨values, ?_, ?_⟩
        · obtain rfl : key :: keys = keys' := by simpa using heq
          exact hvalues
        · have hne : values ≠ [] := by
            rintro rfl
            cases hvalues
          simp [mgetResult, hne]
  · exact (observes_call_of_reads hV h).imp fun _ _ keys heq => absurd ⟨keys, heq⟩ hmget

/-- The accesses of an `MSET`: the next pair is inserted. -/
inductive Inserts : List (Key × List UInt8) → Key → Option Entry → Option Entry →
    List (Key × List UInt8) → Prop
  | insert (key : Key) (value : List UInt8) (left : List (Key × List UInt8))
      (found : Option Entry) :
      Inserts ((key, value) :: left) key found (some (Entry.new value)) left

/-- The call inserts the pairs that are left, and then it is over. -/
def Stores {α : Type} (x : StorageCall α) (left : List (Key × List UInt8)) : Prop :=
  x.Follows (fun _ _ => True) Inserts (fun left _ => left = []) left

theorem stores_mset (pairs : List (Key × List UInt8)) : Stores (Storage.mset pairs) pairs := by
  induction pairs with
  | nil => exact follows_pure rfl
  | cons pair pairs ih =>
      have hset : (Storage.set pair.1 pair.2).Follows (fun _ _ => True) Inserts
          (fun left _ => left = pairs) (pair :: pairs) :=
        follows_atomic fun _ found _ => ⟨pairs, .insert _ _ _ found, rfl⟩
      refine follows_bind hset fun left _ hleft => ?_
      rw [hleft]
      exact ih

theorem stores_call (pairs : List (Key × List UInt8)) :
    Stores ((StorageCommand.mset pairs).call : StorageCall (CommandResult F)) pairs := by
  cases pairs with
  | nil => exact follows_pure rfl
  | cons pair pairs =>
      rw [StorageCommand.call_mset (List.cons_ne_nil pair pairs)]
      exact follows_bind (stores_mset (pair :: pairs)) fun left _ hleft => follows_pure hleft

/-! ## The invariant -/

/-- How far the `MSET` is: the pairs before `left` are in the store, and every
reply agrees with what its call could meet. -/
structure Progress (pairs : List (Key × List UInt8)) (m : DashMap) (begun : Bool)
    (left : List (Key × List UInt8)) (shared : DashMap) (replies : List (StorageReply ι F)) :
    Prop where
  store : ∃ done, pairs = done ++ left ∧ shared = stored done m ∧ (begun = false → done = [])
  began : ∀ r ∈ replies, r.began ≤ replies.length
  sees : ∀ r ∈ replies, Sees pairs m begun replies r.began fun V => AnswersFrom V r.command r.result
  replied : ∀ r ∈ replies, r.command = .mset pairs → left = []

/-- The client that runs the `MSET`. -/
def Writing (pairs : List (Key × List UInt8)) (begun : Bool) (left : List (Key × List UInt8))
    (replies : List (StorageReply ι F))
    (client : Client Key Entry Instant StorageCommand (CommandResult F)) : Prop :=
  match begun with
  | false => client = ⟨[.mset pairs], none⟩
  | true => client.todo = [] ∧
      match client.running with
      | none => left = []
      | some r => r.command = .mset pairs ∧ r.began ≤ replies.length ∧ Stores r.rest left

/-- A client that runs reading commands. -/
def Reading (pairs : List (Key × List UInt8)) (m : DashMap) (begun : Bool)
    (replies : List (StorageReply ι F))
    (client : Client Key Entry Instant StorageCommand (CommandResult F)) : Prop :=
  client.All StorageCommand.Reads fun r => r.command.Reads ∧ r.began ≤ replies.length ∧
    Sees pairs m begun replies r.began fun V => r.rest.Observes V (AnswersFrom V r.command)

def Role [DecidableEq ι] (writer : ι) (pairs : List (Key × List UInt8)) (m : DashMap)
    (begun : Bool) (left : List (Key × List UInt8)) (replies : List (StorageReply ι F)) (i : ι)
    (client : Client Key Entry Instant StorageCommand (CommandResult F)) : Prop :=
  if i = writer then Writing pairs begun left replies client
  else Reading pairs m begun replies client

def MsetInv [DecidableEq ι] (writer : ι) (pairs : List (Key × List UInt8)) (m : DashMap)
    (w : Clients ι F) : Prop :=
  ∃ begun left, Progress pairs m begun left w.shared w.replies ∧
    ∀ i, Role writer pairs m begun left w.replies i (w.clients i)

section Invariant

variable {pairs left : List (Key × List UInt8)} {m shared : DashMap} {begun : Bool}
  {replies : List (StorageReply ι F)}
  {client : Client Key Entry Instant StorageCommand (CommandResult F)}

/-- The store is one that every view allows. -/
theorem Progress.view (h : Progress pairs m begun left shared replies)
    (hkeys : (pairs.map Prod.fst).Nodup) (began : Nat) :
    Sees pairs m begun replies began fun V => ∀ key, V key (shared key) := by
  obtain ⟨done, hpairs, rfl, hbegun⟩ := h.store
  refine ⟨fun key => ?_, fun hb key => ?_, fun ha key => ?_⟩
  · rw [hpairs] at hkeys
    rw [Either, Before, After, Before, hpairs]
    exact stored_prefix hkeys m key
  · rw [hbegun hb]
    rfl
  · obtain ⟨r, hr, hmset⟩ := ha
    have hleft := h.replied r (List.mem_of_mem_take hr) hmset
    rw [After, Before, hpairs, hleft, List.append_nil]

/-- The next pair is stored. -/
theorem Progress.insert {key : Key} {value : List UInt8}
    (h : Progress pairs m true ((key, value) :: left) shared replies) :
    Progress pairs m true left (update shared key (some (Entry.new value))) replies := by
  obtain ⟨done, hpairs, rfl, _⟩ := h.store
  refine ⟨⟨done ++ [(key, value)], ?_, ?_, fun hb => by contradiction⟩, h.began, h.sees, ?_⟩
  · simpa using hpairs
  · rw [stored_append]
    rfl
  · exact fun r hr hmset => absurd (h.replied r hr hmset) (List.cons_ne_nil _ _)

theorem Progress.append (h : Progress pairs m begun left shared replies) {r : StorageReply ι F}
    (hbegan : r.began ≤ replies.length)
    (hsees : Sees pairs m begun replies r.began fun V => AnswersFrom V r.command r.result)
    (hreplied : r.command = .mset pairs → left = []) :
    Progress pairs m begun left shared (replies ++ [r]) := by
  refine ⟨h.store, began_append h.began hbegan, ?_, ?_⟩
  · simp only [List.forall_mem_append, List.forall_mem_singleton]
    exact ⟨fun r' hr' => (h.sees r' hr').append (h.began r' hr') r, hsees.append hbegan r⟩
  · simp only [List.forall_mem_append, List.forall_mem_singleton]
    exact ⟨h.replied, hreplied⟩

theorem Reading.append (h : Reading pairs m begun replies client) (r : StorageReply ι F) :
    Reading pairs m begun (replies ++ [r]) client := by
  refine h.imp fun run _ hrun => ⟨hrun.1, ?_, hrun.2.2.append hrun.2.1 r⟩
  simp
  omega

theorem Writing.append (h : Writing pairs begun left replies client) (r : StorageReply ι F) :
    Writing pairs begun left (replies ++ [r]) client := by
  cases begun with
  | false => exact h
  | true =>
      obtain ⟨htodo, hrunning⟩ := h
      refine ⟨htodo, ?_⟩
      cases hrun : client.running with
      | none => simpa [hrun] using hrunning
      | some run =>
          obtain ⟨hcommand, hbegan, hrest⟩ : _ ∧ _ ∧ _ := by simpa [hrun] using hrunning
          exact ⟨hcommand, by simp; omega, hrest⟩

end Invariant

/-! ## Every turn keeps the invariant -/

section Turns

variable [DecidableEq ι] {writer i : ι} {pairs left : List (Key × List UInt8)} {m : DashMap}
  {begun : Bool} {w : Clients ι F}

theorem role_writer {replies : List (StorageReply ι F)}
    {client : Client Key Entry Instant StorageCommand (CommandResult F)} :
    Role writer pairs m begun left replies writer client ↔
      Writing pairs begun left replies client := by
  rw [Role, if_pos rfl]

theorem role_reader (hi : i ≠ writer) {replies : List (StorageReply ι F)}
    {client : Client Key Entry Instant StorageCommand (CommandResult F)} :
    Role writer pairs m begun left replies i client ↔ Reading pairs m begun replies client := by
  rw [Role, if_neg hi]

theorem Role.append {replies : List (StorageReply ι F)}
    {client : Client Key Entry Instant StorageCommand (CommandResult F)}
    (h : Role writer pairs m begun left replies i client) (r : StorageReply ι F) :
    Role writer pairs m begun left (replies ++ [r]) i client := by
  by_cases hi : i = writer
  · subst hi
    rw [role_writer] at h ⊢
    exact h.append r
  · rw [role_reader hi] at h ⊢
    exact h.append r

/-- Client `i` goes on with a call. -/
theorem msetInv_resume (h : Progress pairs m begun left w.shared w.replies)
    (hothers : ∀ j ≠ i, Role writer pairs m begun left w.replies j (w.clients j))
    {c : StorageCommand} {began : Nat} (hbegan : began ≤ w.replies.length)
    {rest : StorageCall (CommandResult F)}
    (hrunning : Role writer pairs m begun left w.replies i
      ⟨(w.clients i).todo, some ⟨c, began, rest⟩⟩)
    (hover : ∀ result, rest = .done result →
      Sees pairs m begun w.replies began (fun V => AnswersFrom V c result) ∧
        (c = .mset pairs → left = []) ∧
        Role writer pairs m begun left w.replies i ⟨(w.clients i).todo, none⟩) :
    MsetInv writer pairs m (w.resume i c began rest) := by
  obtain ⟨result, hdone, hclients, hreplies⟩ | ⟨hclients, hreplies⟩ :=
    World.resume_cases w i c began rest
  · obtain ⟨hsees, hreplied, hrole⟩ := hover result hdone
    refine ⟨begun, left, ?_, ?_⟩
    · rw [hreplies, World.resume_shared]
      exact h.append hbegan hsees hreplied
    · rw [hclients, hreplies]
      exact (forall_update_iff _ _).mpr
        ⟨hrole.append _, fun j hj => (hothers j hj).append _⟩
  · refine ⟨begun, left, ?_, ?_⟩
    · rw [hreplies, World.resume_shared]
      exact h
    · rw [hclients, hreplies]
      exact (forall_update_iff _ _).mpr ⟨hrunning, hothers⟩

/-- A reader goes on. -/
theorem msetInv_resume_reader (h : Progress pairs m begun left w.shared w.replies)
    (hroles : ∀ j ≠ i, Role writer pairs m begun left w.replies j (w.clients j))
    (hi : i ≠ writer) (htodo : ∀ c ∈ (w.clients i).todo, c.Reads) {c : StorageCommand}
    (hc : c.Reads) {began : Nat} (hbegan : began ≤ w.replies.length)
    {rest : StorageCall (CommandResult F)}
    (hrest : Sees pairs m begun w.replies began fun V => rest.Observes V (AnswersFrom V c)) :
    MsetInv writer pairs m (w.resume i c began rest) := by
  refine msetInv_resume h hroles hbegan ?_ ?_
  · rw [role_reader hi]
    refine ⟨htodo, fun r hr => ?_⟩
    obtain rfl := Option.some.inj hr
    exact ⟨hc, hbegan, hrest⟩
  · rintro result rfl
    refine ⟨hrest, ?_, ?_⟩
    · rintro rfl
      exact hc.elim
    · rw [role_reader hi]
      exact ⟨htodo, fun _ hr => by contradiction⟩

/-- The writer goes on. -/
theorem msetInv_resume_writer (h : Progress pairs m true left w.shared w.replies)
    (hroles : ∀ j ≠ writer, Role writer pairs m true left w.replies j (w.clients j))
    (htodo : (w.clients writer).todo = []) {began : Nat} (hbegan : began ≤ w.replies.length)
    {rest : StorageCall (CommandResult F)} (hrest : Stores rest left) :
    MsetInv writer pairs m (w.resume writer (.mset pairs) began rest) := by
  refine msetInv_resume h hroles hbegan ?_ ?_
  · rw [role_writer]
    exact ⟨htodo, rfl, hbegan, hrest⟩
  · rintro result rfl
    refine ⟨⟨?_, ?_, ?_⟩, fun _ => hrest, ?_⟩
    · exact fun keys heq => by contradiction
    · exact fun _ keys heq => by contradiction
    · exact fun _ keys heq => by contradiction
    · rw [role_writer]
      exact ⟨htodo, hrest⟩

/-- A reader begins its next command. -/
theorem msetInv_begin_reader (hfresh : ∀ key, NoDeadline (m key))
    (h : Progress pairs m begun left w.shared w.replies)
    (hroles : ∀ j, Role writer pairs m begun left w.replies j (w.clients j)) (hi : i ≠ writer)
    {c : StorageCommand} {todo : List StorageCommand}
    (hclient : w.clients i = ⟨c :: todo, none⟩) :
    MsetInv writer pairs m ({ w with clients := update w.clients i ⟨todo, none⟩ }.resume i c
      w.replies.length c.call) := by
  have hreading := (role_reader hi).mp (hroles i)
  rw [hclient] at hreading
  obtain ⟨hc, htodo⟩ := List.forall_mem_cons.mp hreading.todo
  refine msetInv_resume_reader (w := { w with clients := update w.clients i ⟨todo, none⟩ }) h
    (fun j hj => ?_) hi ?_ hc (Nat.le_refl _) ?_
  · simpa [update_of_ne hj] using hroles j
  · simpa using htodo
  · exact sees_of_forall hfresh fun V hV => observes_answersFrom hV hc

/-- The writer begins: readers may meet new entries from here on. -/
theorem msetInv_begin_writer (h : Progress pairs m begun left w.shared w.replies)
    (hroles : ∀ j, Role writer pairs m begun left w.replies j (w.clients j))
    {c : StorageCommand} {todo : List StorageCommand}
    (hclient : w.clients writer = ⟨c :: todo, none⟩) :
    MsetInv writer pairs m ({ w with clients := update w.clients writer ⟨todo, none⟩ }.resume
      writer c w.replies.length c.call) := by
  have hwriting := role_writer.mp (hroles writer)
  rw [hclient] at hwriting
  cases begun with
  | true => exact absurd hwriting.1 (List.cons_ne_nil c todo)
  | false =>
      obtain ⟨rfl, rfl⟩ : c = .mset pairs ∧ todo = [] := by simpa [Writing] using hwriting
      obtain ⟨done, hpairs, hshared, hdone⟩ := h.store
      obtain rfl : pairs = left := by simpa [hdone rfl] using hpairs
      have hbegun : Progress pairs m true pairs w.shared w.replies :=
        ⟨⟨done, hpairs, hshared, fun hb => by contradiction⟩, h.began,
          fun r hr => (h.sees r hr).begin, h.replied⟩
      refine msetInv_resume_writer (w := { w with clients := update w.clients writer ⟨[], none⟩ })
        hbegun (fun j hj => ?_) (by simp) (Nat.le_refl _) (stores_call pairs)
      have hj' := (role_reader hj).mp (hroles j)
      rw [role_reader hj]
      show Reading pairs m true w.replies (update w.clients writer ⟨[], none⟩ j)
      rw [update_of_ne hj]
      exact hj'.imp fun run _ hrun => ⟨hrun.1, hrun.2.1, hrun.2.2.begin⟩

/-- An access of a reader changes nothing. -/
theorem msetInv_advance_reader (hkeys : (pairs.map Prod.fst).Nodup)
    (h : Progress pairs m begun left w.shared w.replies)
    (hroles : ∀ j, Role writer pairs m begun left w.replies j (w.clients j)) (hi : i ≠ writer)
    {todo : List StorageCommand} {r : StorageRunning F}
    (hclient : w.clients i = ⟨todo, some r⟩) :
    MsetInv writer pairs m
      ({ w with shared := (r.rest.advance w.clock w.shared).2 }.resume i r.command r.began
        (r.rest.advance w.clock w.shared).1) := by
  have hreading := (role_reader hi).mp (hroles i)
  obtain ⟨hc, hbegan, hrest⟩ := hreading.running r (by rw [hclient])
  have hstep := hrest.imp₂ (h.view hkeys r.began) fun V hobserves hV =>
    observes_advance hobserves hV w.clock
  rw [hstep.either.1]
  exact msetInv_resume_reader h (fun j _ => hroles j) hi hreading.todo hc hbegan
    (hstep.imp₂ hstep fun V hV _ => hV.2)

/-- An access of the writer stores the next pair. -/
theorem msetInv_advance_writer (h : Progress pairs m begun left w.shared w.replies)
    (hroles : ∀ j, Role writer pairs m begun left w.replies j (w.clients j))
    {todo : List StorageCommand} {r : StorageRunning F}
    (hclient : w.clients writer = ⟨todo, some r⟩) :
    MsetInv writer pairs m
      ({ w with shared := (r.rest.advance w.clock w.shared).2 }.resume writer r.command r.began
        (r.rest.advance w.clock w.shared).1) := by
  have hwriting := role_writer.mp (hroles writer)
  rw [hclient] at hwriting
  cases begun with
  | false => exact absurd (congrArg Client.running hwriting) (by simp)
  | true =>
      obtain ⟨htodo, hcommand, hbegan, hrest⟩ := hwriting
      have htodo' : (w.clients writer).todo = [] := by rw [hclient]; exact htodo
      rw [hcommand]
      obtain ⟨hsame, hnext⟩ | ⟨key, entry, left', hshared, hinserts, hnext⟩ :=
        follows_advance hrest (fun _ => trivial) w.clock
      · rw [hsame]
        exact msetInv_resume_writer h (fun j _ => hroles j) htodo' hbegan hnext
      · rw [hshared]
        cases hinserts with
        | insert key value left found =>
            have hprogress := h.insert
            refine msetInv_resume_writer
              (w := { w with shared := update w.shared key (some (Entry.new value)) })
              hprogress (fun j hj => ?_) htodo' hbegan hnext
            exact (role_reader hj).mpr ((role_reader hj).mp (hroles j))

theorem MsetInv.turn (h : MsetInv writer pairs m w) (hkeys : (pairs.map Prod.fst).Nodup)
    (hfresh : ∀ key, NoDeadline (m key)) (i : ι) :
    MsetInv writer pairs m (w.turn StorageCommand.call i) := by
  obtain ⟨begun, left, hprogress, hroles⟩ := h
  obtain hidle | ⟨c, todo, hclient, hturn⟩ | ⟨todo, r, hclient, hturn⟩ :=
    World.turn_cases StorageCommand.call w i
  · rw [hidle]
    exact ⟨begun, left, hprogress, hroles⟩
  · rw [hturn]
    by_cases hi : i = writer
    · subst hi
      exact msetInv_begin_writer hprogress hroles hclient
    · exact msetInv_begin_reader hfresh hprogress hroles hi hclient
  · rw [hturn]
    by_cases hi : i = writer
    · subst hi
      exact msetInv_advance_writer hprogress hroles hclient
    · exact msetInv_advance_reader hkeys hprogress hroles hi hclient

end Turns

/-! ## Whole runs -/

theorem msetInv_start [DecidableEq ι] {writer : ι} {pairs : List (Key × List UInt8)}
    (m : DashMap) (t : Instant) {program : ι → List StorageCommand}
    (hwriter : program writer = [.mset pairs])
    (hreaders : ∀ i ≠ writer, ∀ c ∈ program i, c.Reads) :
    MsetInv writer pairs m (World.start m t program : Clients ι F) := by
  refine ⟨false, pairs, ⟨⟨[], rfl, rfl, fun _ => rfl⟩, ?_, ?_, ?_⟩, fun i => ?_⟩
  · simp [World.start]
  · simp [World.start]
  · simp [World.start]
  · by_cases hi : i = writer
    · subst hi
      rw [role_writer]
      simp [Writing, World.start, hwriter]
    · rw [role_reader hi]
      exact ⟨hreaders i hi, fun _ hr => by contradiction⟩

/-- Reads of an unchanged store. -/
theorem eq_valuesIn_of_readFrom {m : DashMap} {keys : List Key}
    {values : List (Option (List UInt8))}
    (h : List.Forall₂ (ReadFrom (Before m)) keys values) : values = valuesIn m keys := by
  induction h with
  | nil => rfl
  | cons hread _ ih =>
      obtain ⟨found, rfl, rfl⟩ := hread
      simp [valuesIn, valueIn, ih]

theorem mgetResult_of_answersFrom {m : DashMap} {keys : List Key} {result : CommandResult F}
    (h : AnswersFrom (Before m) (.mget keys) result) :
    result = mgetResult (valuesIn m keys) := by
  obtain ⟨values, hvalues, hresult⟩ := h keys rfl
  rw [hresult, eq_valuesIn_of_readFrom hvalues]

/-- **`MGET` while `MSET` is under way.**  One client runs an `MSET` of distinct
keys and the others run reading commands, on a store without deadlines.  An
`MGET` answers for each key its value before the `MSET` or its value after it;
the values before it if it replies before the `MSET` begins, and the values
after it if it begins after the `MSET` has replied. -/
theorem mget_during_mset [DecidableEq ι] (writer : ι) {pairs : List (Key × List UInt8)}
    {m : DashMap} {t : Instant} {program : ι → List StorageCommand} {w : Clients ι F}
    (hkeys : (pairs.map Prod.fst).Nodup) (hfresh : ∀ key, NoDeadline (m key))
    (hwriter : program writer = [.mset pairs])
    (hreaders : ∀ i ≠ writer, ∀ c ∈ program i, c.Reads)
    (hw : (World.start m t program).Reaches StorageCommand.call w)
    {r : StorageReply ι F} (hr : r ∈ w.replies) {keys : List Key} (hmget : r.command = .mget keys) :
    (∃ values, r.result = mgetResult values ∧ List.Forall₂ (fun key value =>
        value = valueIn m key ∨ value = valueIn (stored pairs m) key) keys values) ∧
      ((w.clients writer).todo = [.mset pairs] → r.result = mgetResult (valuesIn m keys)) ∧
      (RepliedBefore (.mset pairs) w.replies r.began →
        r.result = mgetResult (valuesIn (stored pairs m) keys)) := by
  have hinv : MsetInv writer pairs m w :=
    hw.invariant_of_turn (msetInv_start m t hwriter hreaders) (fun w t h => h) fun w i h =>
      h.turn hkeys hfresh i
  obtain ⟨begun, left, hprogress, hroles⟩ := hinv
  have hsees := hprogress.sees r hr
  rw [hmget] at hsees
  refine ⟨?_, fun htodo => ?_, fun hreplied => ?_⟩
  · obtain ⟨values, hvalues, hresult⟩ := hsees.either keys rfl
    refine ⟨values, hresult, hvalues.imp fun {key value} hread => ?_⟩
    obtain ⟨found, rfl | rfl, rfl⟩ := hread
    · exact .inl rfl
    · exact .inr rfl
  · have hbegun : begun = false := by
      have hwriting := role_writer.mp (hroles writer)
      cases begun with
      | false => rfl
      | true => exact absurd (htodo.symm.trans hwriting.1) (List.cons_ne_nil _ _)
    exact mgetResult_of_answersFrom (hsees.before hbegun)
  · exact mgetResult_of_answersFrom (hsees.after hreplied)

/-- `MSET a 1 b 2` and `MGET a b`. -/
def twoPairs : List (Key × List UInt8) := [([0x61], [0x31]), ([0x62], [0x32])]

def msetMget (i : Bool) : List StorageCommand :=
  if i then [.mset twoPairs] else [.mget [[0x61], [0x62]]]

/-- The reader takes its turns between the two insertions. -/
def tornRead : Clients Bool WholeDouble :=
  (World.start (fun _ => none) .origin msetMget).run StorageCommand.call
    [.turn true, .turn true, .turn false, .turn false, .turn false]

/-- It answers the new value of one key and the old one of the other. -/
def tornReply : StorageReply Bool WholeDouble :=
  ⟨false, .mget [[0x61], [0x62]], 0, .ok (.array (some [.bulkString (some [0x31]), .null]))⟩

theorem tornReply_mem : tornReply ∈ tornRead.replies := .head _

theorem mget_during_mset_tornRead :
    ∃ values, tornReply.result = mgetResult values ∧ List.Forall₂ (fun key value =>
      value = valueIn (fun _ => none) key ∨ value = valueIn (stored twoPairs fun _ => none) key)
        [[0x61], [0x62]] values := by
  refine (mget_during_mset true (by decide) (fun _ _ hentry => by contradiction) rfl
    (fun i hi c hc => ?_) ⟨_, rfl⟩ tornReply_mem rfl).1
  cases i with
  | true => exact absurd rfl hi
  | false =>
      obtain rfl : c = .mget [[0x61], [0x62]] := List.mem_singleton.mp hc
      exact trivial

/-- The reply is neither the old values nor the new ones. -/
theorem mget_torn : ¬ ∀ r ∈ tornRead.replies, r.command = .mget [[0x61], [0x62]] →
    r.result = mgetResult (valuesIn (fun _ => none) [[0x61], [0x62]]) ∨
      r.result = mgetResult (valuesIn (stored twoPairs fun _ => none) [[0x61], [0x62]]) := by
  intro h
  have huntorn := h tornReply tornReply_mem rfl
  simp [tornReply, mgetResult, valuesIn, valueIn, valueFrame, stored, twoPairs, CommandResult.ok,
    Entry.new] at huntorn

/-! ## Every mixture occurs -/

/-- The next read of an `MGET`. -/
theorem advance_mget_cons {α : Type} {key : Key} {m : DashMap} (h : NoDeadline (m key))
    (keys : List Key) (f : List (Option (List UInt8)) → StorageCall α) (t : Instant) :
    (Storage.mget (key :: keys) >>= f).advance t m =
      (Storage.mget keys >>= fun values => f (valueIn m key :: values), m) := by
  rw [Storage.mget, bind_assoc, Storage.get, bind_assoc, Storage.look, advance_atomic_bind]
  simp only [bind_assoc, update_eq_self, valueIn]
  cases hfound : m key with
  | none => rfl
  | some entry =>
      have hnone : entry.expiresAt = none := h entry hfound
      simp [Storage.Found.of, Entry.expired, hnone]
      rfl

/-- The values of the keys of some pairs: the new one where `choice` says so. -/
def mixture (m : DashMap) (choice : List Bool) (pairs : List (Key × List UInt8)) :
    List (Option (List UInt8)) :=
  List.zipWith (fun new pair => if new then some pair.2 else valueIn m pair.1) choice pairs

/-- A schedule that makes the choice: it writes each pair before or after it
reads its key. -/
def mixing : List Bool → List (Action Bool Instant)
  | [] => []
  | new :: choice => .turn new :: .turn (!new) :: mixing choice

theorem mixture_update {key : Key} {pairs : List (Key × List UInt8)}
    (h : key ∉ pairs.map Prod.fst) (choice : List Bool) (m : DashMap) (found : Option Entry) :
    mixture (update m key found) choice pairs = mixture m choice pairs := by
  induction pairs generalizing choice with
  | nil => simp [mixture]
  | cons pair pairs ih =>
      obtain ⟨hkey, hkeys⟩ := List.ne_and_not_mem_of_not_mem_cons h
      cases choice with
      | nil => rfl
      | cons new choice =>
          have hrest := ih hkeys choice
          simp_all [mixture, valueIn, update_of_ne (Ne.symm hkey)]

section Turns

variable {w : Clients Bool F} {c : StorageCommand} {began : Nat}
  {f : Unit → StorageCall (CommandResult F)}
  {g : List (Option (List UInt8)) → StorageCall (CommandResult F)}
  {key : Key} {keys : List Key} {value : List UInt8} {pairs : List (Key × List UInt8)}

/-- The writer stores the next pair. -/
theorem turn_writer (hwriter : w.At true c began (Storage.mset ((key, value) :: pairs) >>= f)) :
    (w.turn StorageCommand.call true).shared = update w.shared key (some (Entry.new value)) ∧
      (w.turn StorageCommand.call true).At true c began (Storage.mset pairs >>= f) :=
  hwriter.turn StorageCommand.call fun _ hdone => by contradiction

/-- The reader reads the next key. -/
theorem turn_reader (hfresh : NoDeadline (w.shared key))
    (hreader : w.At false c began (Storage.mget (key :: keys) >>= g)) :
    (w.turn StorageCommand.call false).shared = w.shared ∧
      (w.turn StorageCommand.call false).At false c began
        (Storage.mget keys >>= fun values => g (valueIn w.shared key :: values)) := by
  have hturn := hreader.turn StorageCommand.call fun _ hdone => by contradiction
  rwa [advance_mget_cons hfresh] at hturn

end Turns

/-- **The schedule makes the choice**, from wherever the two calls are. -/
theorem at_mixing {pairs : List (Key × List UInt8)} (hkeys : (pairs.map Prod.fst).Nodup)
    {choice : List Bool} (hlength : choice.length = pairs.length) {w : Clients Bool F}
    (hfresh : ∀ key, NoDeadline (w.shared key)) {c c' : StorageCommand} {began began' : Nat}
    {f : Unit → StorageCall (CommandResult F)}
    {g : List (Option (List UInt8)) → CommandResult F}
    (hwriter : w.At true c began (Storage.mset pairs >>= f))
    (hreader : w.At false c' began' (Storage.mget (pairs.map Prod.fst) >>= fun values =>
      pure (g values))) :
    ⟨false, c', began', g (mixture w.shared choice pairs)⟩ ∈
      (w.run StorageCommand.call (mixing choice)).replies := by
  induction pairs generalizing choice w g with
  | nil =>
      obtain rfl : choice = [] := by simpa using hlength
      exact hreader
  | cons pair pairs ih =>
      obtain ⟨key, value⟩ := pair
      obtain ⟨hkey, hnodup⟩ := List.nodup_cons.mp hkeys
      cases choice with
      | nil => simp at hlength
      | cons new choice =>
          have hlength' : choice.length = pairs.length := by simpa using hlength
          have hstored : ∀ key', NoDeadline (update w.shared key (some (Entry.new value)) key') :=
            noDeadline_stored hfresh [(key, value)]
          have hwriter₁ : true ≠ false := by decide
          have hreader₁ : false ≠ true := by decide
          have hmixture := mixture_update hkey choice w.shared (some (Entry.new value))
          cases new with
          | true =>
              obtain ⟨hshared, hwriter'⟩ := turn_writer hwriter
              obtain ⟨hshared', hreader'⟩ :=
                turn_reader (by rw [hshared]; exact hstored key) (hreader.turn_of_ne hreader₁)
              have hrun := ih hnodup hlength' (by rw [hshared', hshared]; exact hstored)
                (hwriter'.turn_of_ne hwriter₁) hreader'
              have hvalue : valueIn (update w.shared key (some (Entry.new value))) key =
                  some value := by simp [valueIn, Entry.new]
              rw [hshared', hshared, hmixture, hvalue] at hrun
              exact hrun
          | false =>
              obtain ⟨hshared, hreader'⟩ := turn_reader (hfresh key) hreader
              obtain ⟨hshared', hwriter'⟩ := turn_writer (hwriter.turn_of_ne hwriter₁)
              have hrun := ih hnodup hlength' (by rw [hshared', hshared]; exact hstored) hwriter'
                (hreader'.turn_of_ne hreader₁)
              rw [hshared', hshared, hmixture] at hrun
              exact hrun

/-- **Every mixture occurs.**  On a store without deadlines, for any distinct
keys and any choice of the old or the new value for each of them, some schedule
makes the `MGET` answer the values chosen. -/
theorem mixture_occurs {pairs : List (Key × List UInt8)} (hkeys : (pairs.map Prod.fst).Nodup)
    {m : DashMap} (hfresh : ∀ key, NoDeadline (m key)) (t : Instant) {choice : List Bool}
    (hlength : choice.length = pairs.length) :
    ∃ schedule, ∃ r ∈ ((World.start m t fun i =>
        if i then [.mset pairs] else [.mget (pairs.map Prod.fst)] : Clients Bool F).run
          StorageCommand.call schedule).replies,
      r.command = .mget (pairs.map Prod.fst) ∧ r.result = mgetResult (mixture m choice pairs) := by
  cases pairs with
  | nil =>
      obtain rfl : choice = [] := by simpa using hlength
      exact ⟨[.turn false], _, .head _, rfl, rfl⟩
  | cons pair pairs =>
      let w : Clients Bool F := World.start m t fun i =>
        if i then [.mset (pair :: pairs)] else [.mget ((pair :: pairs).map Prod.fst)]
      obtain ⟨hshared, hwriter⟩ : _ ∧ (w.turn StorageCommand.call true).At true _ _ _ :=
        World.at_turn_begin StorageCommand.call rfl
      have hclient : (w.turn StorageCommand.call true).clients false =
          ⟨[.mget ((pair :: pairs).map Prod.fst)], none⟩ :=
        World.clients_turn_of_ne StorageCommand.call (by decide)
      obtain ⟨hshared', hreader⟩ := World.at_turn_begin StorageCommand.call hclient
      rw [StorageCommand.call_mset (List.cons_ne_nil pair pairs)] at hwriter
      have hrun := at_mixing hkeys hlength (by rw [hshared', hshared]; exact hfresh)
        (hwriter.turn_of_ne (by decide)) hreader
      have hshared₂ := hshared'.trans hshared
      rw [hshared₂] at hrun
      refine ⟨.turn true :: .turn false :: mixing choice, _, hrun, rfl, ?_⟩
      have hne : mixture m choice (pair :: pairs) ≠ [] := by
        cases choice with
        | nil => simp at hlength
        | cons new choice => simp [mixture]
      rw [mgetResult, if_neg hne]
      rfl
end RalphDb
