import RalphDb.Base.Fallible

/-!
# RalphDb.Base.Io

Buffered reading and writing of bytes, as `std::io` documents it.

A `Reader` is the bytes that are still to come and what a read meets after the
last of them: the end of the stream, or a socket that stays silent until its
timeout.  Refills of the buffer are invisible to the callers of `readExact`
and `readUntil`, so the model has none.

* **reads** — `readByte`, `readExact`, `readUntil`; a read that meets the end
  has consumed what was left;
* **known pieces** — `Reads x w a`: `x` reads `w` as `a` whatever follows.
  Pieces of a sequence concatenate (`reads_bind`);
* **self-delimiting readers** — a reader that succeeds by taking the piece `w`
  takes exactly `w` whatever follows, and fails at the end of the stream on
  every strict prefix of `w`.  The property is closed under sequencing
  (`selfDelimiting_bind`) and repetition (`selfDelimiting_times`), so a parser
  built from such reads has it;
* **languages** — `Takes x W`: where `x` succeeds it has taken a piece of the
  language `W` of its answer.  With `Reads` for every piece of `W` this says
  exactly what `x` accepts;
* **writes** — a write appends to the bytes already written; `Writes x w` says
  that `x` writes `w`.
-/

namespace Base

open Fallible

/-! ## Errors -/

/-- The error kinds of `std::io` that a reader or a writer produces or tests. -/
inductive ErrorKind
  | unexpectedEof
  | invalidData
  | invalidInput
  | wouldBlock
  | timedOut
  | other
  deriving DecidableEq, Repr

/-- An `io::Error`: its kind and its text. -/
structure IoError where
  kind : ErrorKind
  message : String
  deriving DecidableEq, Repr

/-! ## Readers -/

/-- What a read meets after the last byte. -/
inductive Ending
  | eof
  | wouldBlock
  | timedOut
  deriving DecidableEq, Repr

/-- A buffered byte stream: the bytes to come and how it ends. -/
structure Reader where
  unread : List UInt8
  ending : Ending
  deriving DecidableEq, Repr

/-- The error of a read that needs a byte after the last one. -/
def Ending.error : Ending → IoError
  | .eof => ⟨.unexpectedEof, "failed to fill whole buffer"⟩
  | .wouldBlock => ⟨.wouldBlock, "resource temporarily unavailable"⟩
  | .timedOut => ⟨.timedOut, "timed out"⟩

/-- Bytes still to come. -/
def Reader.size (r : Reader) : Nat := r.unread.length

/-- The reader of one byte (`read_exact` into a buffer of length one). -/
def readByte : Fallible Reader IoError UInt8 := ⟨fun r =>
  match r.unread with
  | [] => (.error r.ending.error, r)
  | b :: bs => (.ok b, ⟨bs, r.ending⟩)⟩

/-- `read_exact` into a buffer of length `n`. -/
def readExact (n : Nat) : Fallible Reader IoError (List UInt8) := ⟨fun r =>
  if n ≤ r.unread.length then (.ok (r.unread.take n), ⟨r.unread.drop n, r.ending⟩)
  else (.error r.ending.error, ⟨[], r.ending⟩)⟩

/-- Split after the first `d`. -/
def splitAfter (d : UInt8) : List UInt8 → Option (List UInt8 × List UInt8)
  | [] => none
  | b :: bs => if b = d then some ([b], bs) else
      (splitAfter d bs).map fun (line, rest) => (b :: line, rest)

/-- `read_until`: the bytes up to and including the first `d`, or all of them
when the stream ends first. -/
def readUntil (d : UInt8) : Fallible Reader IoError (List UInt8) := ⟨fun r =>
  match splitAfter d r.unread with
  | some (line, rest) => (.ok line, ⟨rest, r.ending⟩)
  | none => match r.ending with
    | .eof => (.ok r.unread, ⟨[], .eof⟩)
    | e => (.error e.error, ⟨[], e⟩)⟩

/-! ## Splitting at a delimiter -/

theorem splitAfter_append {d : UInt8} {line : List UInt8} (h : d ∉ line) (rest : List UInt8) :
    splitAfter d (line ++ d :: rest) = some (line ++ [d], rest) := by
  induction line with
  | nil => simp [splitAfter]
  | cons b bs ih =>
      obtain ⟨hb, hbs⟩ : d ≠ b ∧ d ∉ bs := by simpa using h
      simp [splitAfter, hb.symm, ih hbs]

theorem splitAfter_eq_none {d : UInt8} {bs : List UInt8} :
    splitAfter d bs = none ↔ d ∉ bs := by
  induction bs with
  | nil => simp [splitAfter]
  | cons b bs ih =>
      by_cases hb : b = d
      · simp [splitAfter, hb]
      · simp [splitAfter, hb, Ne.symm hb, ih]

/-- What `splitAfter` answers is the first line of its input. -/
theorem splitAfter_eq_some {d : UInt8} {bs l rest : List UInt8}
    (h : splitAfter d bs = some (l, rest)) :
    ∃ line, d ∉ line ∧ l = line ++ [d] ∧ bs = line ++ d :: rest := by
  induction bs generalizing l with
  | nil => simp [splitAfter] at h
  | cons b bs ih =>
      by_cases hb : b = d
      · simp only [splitAfter, hb, if_true, Option.some.injEq, Prod.mk.injEq] at h
        exact ⟨[], by simp, by simp [← h.1], by simp [hb, h.2]⟩
      · simp only [splitAfter, hb, if_false, Option.map_eq_some_iff] at h
        obtain ⟨⟨l', rest'⟩, h', heq⟩ := h
        obtain ⟨rfl, rfl⟩ : b :: l' = l ∧ rest' = rest := by simpa using heq
        obtain ⟨line, hline, hl, hbs⟩ := ih h'
        exact ⟨b :: line, by simp [Ne.symm hb, hline], by simp [hl], by simp [hbs]⟩

/-! ## Running the reads -/

@[simp] theorem readByte_cons (b : UInt8) (bs : List UInt8) (e : Ending) :
    readByte.run ⟨b :: bs, e⟩ = (.ok b, ⟨bs, e⟩) := rfl

@[simp] theorem readByte_nil (e : Ending) :
    readByte.run ⟨[], e⟩ = (.error e.error, ⟨[], e⟩) := rfl

theorem readExact_append {n : Nat} {w : List UInt8} (h : w.length = n) (rest : List UInt8)
    (e : Ending) : (readExact n).run ⟨w ++ rest, e⟩ = (.ok w, ⟨rest, e⟩) := by
  subst h
  simp [readExact]

theorem readExact_short {n : Nat} {bs : List UInt8} (h : bs.length < n) (e : Ending) :
    (readExact n).run ⟨bs, e⟩ = (.error e.error, ⟨[], e⟩) := by
  have hn : ¬ n ≤ bs.length := by omega
  simp [readExact, hn]

theorem readUntil_append {d : UInt8} {line : List UInt8} (h : d ∉ line) (rest : List UInt8)
    (e : Ending) : (readUntil d).run ⟨line ++ d :: rest, e⟩ = (.ok (line ++ [d]), ⟨rest, e⟩) := by
  simp [readUntil, splitAfter_append h]

/-- A measure that no read raises. -/
structure ReadMeasure (μ : Reader → Nat) : Prop where
  readByte : Shrinks μ readByte
  readExact : ∀ n, Shrinks μ (readExact n)
  readUntil : ∀ d, Shrinks μ (readUntil d)

/-- The bytes still to come. -/
theorem readMeasure_size : ReadMeasure Reader.size where
  readByte := by
    rintro ⟨_ | ⟨b, bs⟩, e⟩ <;> simp [Reader.size]
  readExact := by
    rintro n ⟨bs, e⟩
    by_cases h : n ≤ bs.length <;> simp [Base.readExact, Reader.size, h]
  readUntil := by
    rintro d ⟨bs, e⟩
    cases hs : splitAfter d bs with
    | none => cases e <;> simp [Base.readUntil, hs, Reader.size]
    | some p =>
        obtain ⟨l, rest⟩ := p
        obtain ⟨line, _, _, rfl⟩ := splitAfter_eq_some hs
        simp only [Base.readUntil, hs, Reader.size, List.length_append, List.length_cons]
        omega

/-- No read changes how the stream ends. -/
theorem readMeasure_ending (e : Ending) :
    ReadMeasure fun r => if r.ending = e then 0 else 1 where
  readByte := by
    rintro ⟨_ | ⟨b, bs⟩, e'⟩ <;> exact Nat.le_refl _
  readExact := by
    rintro n ⟨bs, e'⟩
    by_cases h : n ≤ bs.length <;> simp [Base.readExact, h]
  readUntil := by
    rintro d ⟨bs, e'⟩
    cases hs : splitAfter d bs <;> cases e' <;> simp [Base.readUntil, hs]

/-- A computation that first takes a byte may recur: afterwards the reader is
smaller. -/
theorem agree_readByte_bind {α : Type} {n : Nat} {f g : UInt8 → Fallible Reader IoError α}
    (h : ∀ b, Agree Reader.size n (f b) (g b)) :
    Agree Reader.size (n + 1) (readByte >>= f) (readByte >>= g) := by
  rintro ⟨_ | ⟨b, bs⟩, e⟩ hs
  · rfl
  · simp only [bind_run, readByte_cons]
    simp only [Reader.size, List.length_cons] at hs
    exact h b ⟨bs, e⟩ (by simp only [Reader.size]; omega)

/-! ## Reading a known piece -/

section Reads

variable {α β : Type}

/-- `x` reads the piece `w` as `a`, whatever follows it. -/
def Reads (x : Fallible Reader IoError α) (w : List UInt8) (a : α) : Prop :=
  ∀ rest e, x.run ⟨w ++ rest, e⟩ = (.ok a, ⟨rest, e⟩)

/-- A stream that is the piece alone is used up. -/
theorem Reads.whole {x : Fallible Reader IoError α} {w : List UInt8} {a : α} (h : Reads x w a)
    (e : Ending) : x.run ⟨w, e⟩ = (.ok a, ⟨[], e⟩) := by
  have hread := h [] e
  rw [List.append_nil] at hread
  exact hread

theorem reads_pure (a : α) : Reads (pure a : Fallible Reader IoError α) [] a := fun _ _ => rfl

theorem reads_bind {x : Fallible Reader IoError α} {f : α → Fallible Reader IoError β}
    {w w' : List UInt8} {a : α} {b : β} (hx : Reads x w a) (hf : Reads (f a) w' b) :
    Reads (x >>= f) (w ++ w') b := by
  intro rest e
  rw [List.append_assoc, bind_run_ok (hx _ _), hf]

/-- A step that reads nothing. -/
theorem reads_ofExcept_bind {res : Except IoError α} {f : α → Fallible Reader IoError β}
    {w : List UInt8} {a : α} {b : β} (hres : res = .ok a) (hf : Reads (f a) w b) :
    Reads (ofExcept res >>= f) w b := by
  rw [hres]
  exact hf

/-- A last step that reads nothing. -/
theorem reads_bind_pure {x : Fallible Reader IoError α} {w : List UInt8} {a : α} (f : α → β)
    (hx : Reads x w a) : Reads (x >>= fun a => pure (f a)) w (f a) := by
  intro rest e
  rw [bind_run_ok (hx rest e), pure_run]

theorem reads_readByte (b : UInt8) : Reads readByte [b] b := fun _ _ => rfl

theorem reads_readExact {w : List UInt8} {n : Nat} (h : w.length = n) : Reads (readExact n) w w :=
  fun rest e => readExact_append h rest e

end Reads

/-! ## Self-delimiting readers -/

section SelfDelimiting

variable {α β : Type}

/-- A prefix of an append ends in its first part or reaches into the second. -/
theorem prefix_append_cases {p xs ys : List α} (h : p <+: xs ++ ys) :
    p <+: xs ∨ ∃ q, p = xs ++ q ∧ q <+: ys := by
  obtain ⟨t, ht⟩ := h
  rcases List.append_eq_append_iff.mp ht with ⟨c, hc, _⟩ | ⟨c, hc, hy⟩
  · exact .inl ⟨c, hc.symm⟩
  · exact .inr ⟨c, hc, t, hy.symm⟩

/-- Where `x` succeeds it has taken a piece `w` that `y` takes, with the same
answer, whatever follows, and every strict prefix of which `y` fails on at the
end of the stream. -/
def SelfDelimiting (x y : Fallible Reader IoError α) : Prop :=
  ∀ b e a r, x.run ⟨b, e⟩ = (.ok a, r) → ∃ w rest, b = w ++ rest ∧ r = ⟨rest, e⟩ ∧
    Reads y w a ∧ ∀ p, p <+: w → p ≠ w → ∀ e', ∃ err, y.run ⟨p, e'⟩ = (.error err, ⟨[], e'⟩)

theorem selfDelimiting_pure (a : α) :
    SelfDelimiting (pure a : Fallible Reader IoError α) (pure a) := by
  intro b e a' r h
  obtain ⟨rfl, rfl⟩ : a = a' ∧ ⟨b, e⟩ = r := by simpa using h
  exact ⟨[], b, rfl, rfl, fun _ _ => rfl, fun p hp hne => absurd (List.prefix_nil.mp hp) hne⟩

theorem selfDelimiting_fail (err : IoError) (y : Fallible Reader IoError α) :
    SelfDelimiting (fail err) y := by
  intro b e a r h
  simp at h

theorem selfDelimiting_ofExcept (res : Except IoError α) :
    SelfDelimiting (ofExcept res) (ofExcept res) := by
  cases res with
  | error err => exact selfDelimiting_fail err _
  | ok a => exact selfDelimiting_pure a

/-- Sequencing: a strict prefix of the two pieces stops inside the first or
inside the second. -/
theorem selfDelimiting_bind {x y : Fallible Reader IoError α}
    {f g : α → Fallible Reader IoError β} (hx : SelfDelimiting x y)
    (hf : ∀ a, SelfDelimiting (f a) (g a)) : SelfDelimiting (x >>= f) (y >>= g) := by
  intro b e c r h
  obtain ⟨a, s, hxa, hfa⟩ := bind_eq_ok.mp h
  obtain ⟨w₁, rest₁, rfl, rfl, hy₁, hp₁⟩ := hx b e a s hxa
  obtain ⟨w₂, rest₂, rfl, rfl, hy₂, hp₂⟩ := hf a rest₁ e c r hfa
  refine ⟨w₁ ++ w₂, rest₂, (List.append_assoc ..).symm, rfl, ?_, ?_⟩
  · intro t e'
    rw [List.append_assoc, bind_run_ok (hy₁ _ _), hy₂]
  · intro p hp hne e'
    rcases prefix_append_cases hp with hp | ⟨p₂, rfl, hp₂'⟩
    · by_cases heq : p = w₁
      · subst heq
        have hw₂ : [] ≠ w₂ := by
          rintro rfl
          simp at hne
        obtain ⟨err, herr⟩ := hp₂ [] List.nil_prefix hw₂ e'
        have h₁ := hy₁ [] e'
        rw [List.append_nil] at h₁
        exact ⟨err, by rw [bind_run_ok h₁, herr]⟩
      · obtain ⟨err, herr⟩ := hp₁ p hp heq e'
        exact ⟨err, bind_run_error herr _⟩
    · have hne₂ : p₂ ≠ w₂ := fun heq => hne (by rw [heq])
      obtain ⟨err, herr⟩ := hp₂ p₂ hp₂' hne₂ e'
      exact ⟨err, by rw [bind_run_ok (hy₁ _ _), herr]⟩

theorem selfDelimiting_times {x y : Fallible Reader IoError α} (hx : SelfDelimiting x y) (n : Nat) :
    SelfDelimiting (times n x) (times n y) := by
  induction n with
  | zero => exact selfDelimiting_pure _
  | succ n ih =>
      exact selfDelimiting_bind hx fun _ => selfDelimiting_bind ih fun _ => selfDelimiting_pure _

theorem selfDelimiting_readByte : SelfDelimiting readByte readByte := by
  rintro (_ | ⟨b, bs⟩) e a r h
  · simp at h
  · obtain ⟨rfl, rfl⟩ : b = a ∧ ⟨bs, e⟩ = r := by simpa using h
    refine ⟨[b], bs, rfl, rfl, fun _ _ => rfl, ?_⟩
    intro p hp hne e'
    obtain rfl : p = [] := by
      rcases List.prefix_cons_iff.mp hp with hp | ⟨p', rfl, hp'⟩
      · exact hp
      · exact absurd (by rw [List.prefix_nil.mp hp']) hne
    exact ⟨_, rfl⟩

theorem selfDelimiting_readExact (n : Nat) : SelfDelimiting (readExact n) (readExact n) := by
  intro b e a r h
  by_cases hn : n ≤ b.length
  · obtain ⟨rfl, rfl⟩ : b.take n = a ∧ ⟨b.drop n, e⟩ = r := by simpa [readExact, hn] using h
    have hlen : (b.take n).length = n := by simp [hn]
    refine ⟨b.take n, b.drop n, (List.take_append_drop n b).symm, rfl,
      fun t e' => readExact_append hlen t e', ?_⟩
    intro p hp hne e'
    have hlt : p.length < n := by
      rcases Nat.lt_or_ge p.length n with hlt | hge
      · exact hlt
      · exact absurd (hp.eq_of_length (Nat.le_antisymm hp.length_le (by omega))) hne
    exact ⟨_, readExact_short hlt e'⟩
  · simp [readExact, hn] at h

end SelfDelimiting

/-! ## What a reader takes -/

section Takes

variable {α β : Type}

/-- Where `x` succeeds, it has taken a piece of the language `W` of its answer,
and nothing else. -/
def Takes (x : Fallible Reader IoError α) (W : α → List UInt8 → Prop) : Prop :=
  ∀ b e a r, x.run ⟨b, e⟩ = (.ok a, r) → ∃ w rest, b = w ++ rest ∧ r = ⟨rest, e⟩ ∧ W a w

/-- The concatenation of one piece for each item. -/
inductive Pieces (W : α → List UInt8 → Prop) : List α → List UInt8 → Prop
  | nil : Pieces W [] []
  | cons {a : α} {as : List α} {w ws : List UInt8} (head : W a w) (tail : Pieces W as ws) :
      Pieces W (a :: as) (w ++ ws)

/-- Each item has its piece, which is no longer than the whole. -/
theorem Pieces.exists_of_mem {W : α → List UInt8 → Prop} {as : List α} {w : List UInt8}
    (h : Pieces W as w) {a : α} (ha : a ∈ as) : ∃ v, W a v ∧ v.length ≤ w.length := by
  induction h with
  | nil => simp at ha
  | @cons a' as w ws head tail ih =>
      rw [List.length_append]
      obtain rfl | ha := List.mem_cons.mp ha
      · exact ⟨w, head, by omega⟩
      · obtain ⟨v, hv, hle⟩ := ih ha
        exact ⟨v, hv, by omega⟩

/-- The pieces add up. -/
theorem Pieces.mul_length_le {W : α → List UInt8 → Prop} {as : List α} {w : List UInt8} {n : Nat}
    (h : Pieces W as w) (hW : ∀ a v, W a v → n ≤ v.length) : n * as.length ≤ w.length := by
  induction h with
  | nil => simp
  | @cons a as w ws head tail ih =>
      have hhead := hW a w head
      rw [List.length_cons, List.length_append, Nat.mul_add, Nat.mul_one]
      omega

theorem takes_pure {W : α → List UInt8 → Prop} {a : α} (h : W a []) :
    Takes (pure a : Fallible Reader IoError α) W := by
  intro b e a' r hrun
  obtain ⟨rfl, rfl⟩ : a = a' ∧ ⟨b, e⟩ = r := by simpa using hrun
  exact ⟨[], b, rfl, rfl, h⟩

theorem takes_fail {W : α → List UInt8 → Prop} (err : IoError) : Takes (fail err) W := by
  intro b e a r hrun
  simp at hrun

theorem takes_ofExcept {W : α → List UInt8 → Prop} {res : Except IoError α}
    (h : ∀ a, res = .ok a → W a []) : Takes (ofExcept res) W := by
  cases res with
  | error err => exact takes_fail err
  | ok a => exact takes_pure (h a rfl)

/-- Sequencing: the rest takes what completes the first piece. -/
theorem takes_bind {x : Fallible Reader IoError α} {f : α → Fallible Reader IoError β}
    {V : α → List UInt8 → Prop} {W : β → List UInt8 → Prop} (hx : Takes x V)
    (hf : ∀ a v, V a v → Takes (f a) fun b w => W b (v ++ w)) : Takes (x >>= f) W := by
  intro b e c r hrun
  obtain ⟨a, s, hxa, hfa⟩ := bind_eq_ok.mp hrun
  obtain ⟨v, rest₁, rfl, rfl, hv⟩ := hx b e a s hxa
  obtain ⟨w, rest₂, rfl, rfl, hw⟩ := hf a v hv rest₁ e c r hfa
  exact ⟨v ++ w, rest₂, (List.append_assoc ..).symm, rfl, hw⟩

/-- A step that reads nothing. -/
theorem takes_ofExcept_bind {res : Except IoError α} {f : α → Fallible Reader IoError β}
    {W : β → List UInt8 → Prop} (h : ∀ a, res = .ok a → Takes (f a) W) :
    Takes (ofExcept res >>= f) W :=
  takes_bind (V := fun a v => res = .ok a ∧ v = []) (takes_ofExcept fun _ ha => ⟨ha, rfl⟩)
    (by rintro a _ ⟨ha, rfl⟩; exact h a ha)

theorem takes_times {x : Fallible Reader IoError α} {W : α → List UInt8 → Prop} (hx : Takes x W)
    (n : Nat) : Takes (times n x) fun as w => as.length = n ∧ Pieces W as w := by
  induction n with
  | zero => exact takes_pure ⟨rfl, .nil⟩
  | succ n ih =>
      refine takes_bind hx fun a v hv => takes_bind ih fun as w hw => takes_pure ?_
      rw [List.append_nil]
      exact ⟨congrArg (· + 1) hw.1, .cons hv hw.2⟩

theorem takes_readByte : Takes readByte fun b w => w = [b] := by
  rintro (_ | ⟨b, bs⟩) e a r hrun
  · simp at hrun
  · obtain ⟨rfl, rfl⟩ : b = a ∧ ⟨bs, e⟩ = r := by simpa using hrun
    exact ⟨[b], bs, rfl, rfl, rfl⟩

theorem takes_readExact (n : Nat) : Takes (readExact n) fun bs w => bs.length = n ∧ w = bs := by
  intro b e a r hrun
  by_cases hn : n ≤ b.length
  · obtain ⟨rfl, rfl⟩ : b.take n = a ∧ ⟨b.drop n, e⟩ = r := by simpa [readExact, hn] using hrun
    exact ⟨b.take n, b.drop n, by simp, rfl, by simp [hn], rfl⟩
  · simp [readExact, hn] at hrun

/-- Pieces that are each read as their item are read one after the other. -/
theorem reads_times {x : Fallible Reader IoError α} {W : α → List UInt8 → Prop} {as : List α}
    {w : List UInt8} (h : Pieces W as w) (hx : ∀ a ∈ as, ∀ v, W a v → Reads x v a) :
    Reads (times as.length x) w as := by
  induction h with
  | nil => exact reads_pure _
  | @cons a as w ws head tail ih =>
      have htail := ih fun a' ha' => hx a' (List.mem_cons_of_mem _ ha')
      exact reads_bind (hx a List.mem_cons_self w head) (reads_bind_pure (a :: ·) htail)

end Takes
/-! ## Writing -/

/-- `write_all`: append to what is already written. -/
def writeAll (bytes : List UInt8) : Fallible (List UInt8) IoError Unit :=
  ⟨fun out => (.ok (), out ++ bytes)⟩

/-- `x` succeeds and writes `w`, whatever was written before. -/
def Writes (x : Fallible (List UInt8) IoError Unit) (w : List UInt8) : Prop :=
  ∀ out, x.run out = (.ok (), out ++ w)

theorem writes_pure : Writes (pure ()) [] := fun out => by rw [pure_run, List.append_nil]

theorem writes_writeAll (bytes : List UInt8) : Writes (writeAll bytes) bytes := fun _ => rfl

theorem writes_bind {x y : Fallible (List UInt8) IoError Unit} {w w' : List UInt8}
    (hx : Writes x w) (hy : Writes y w') : Writes (x >>= fun _ => y) (w ++ w') := by
  intro out
  rw [bind_run_ok (hx out), hy, List.append_assoc]

/-- What a computation writes is determined by it. -/
theorem Writes.unique {x : Fallible (List UInt8) IoError Unit} {w w' : List UInt8}
    (h : Writes x w) (h' : Writes x w') : w = w' := by
  have heq : (Except.ok (), [] ++ w) = ((Except.ok (), [] ++ w') : Except IoError Unit × _) :=
    (h []).symm.trans (h' [])
  exact (Prod.mk.inj heq).2

end Base
