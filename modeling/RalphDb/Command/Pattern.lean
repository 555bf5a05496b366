import RalphDb.Base.Loop
import RalphDb.Base.Wildcard
import RalphDb.Command.Execute

/-!
# RalphDb.Command.Pattern

The pattern matcher of `CONFIG GET`.

Both indices of the matcher move back on a mismatch.  The place where the last
star began to match only moves on, though, and between two moves of it every
round moves on in the pattern, so the loop ends (`rank_goes`); on the way its
indices stay in range (`bounded_goes`).

On a key without a star the matcher is wildcard matching
(`matchesPattern_iff`).  What is left to match is kept in `Faithful`: before the
first star it is the rest of the pattern and of the key, afterwards the pattern
from the last star on and the key from the place where that star began to
match.  That earlier stars can be forgotten is `Base.wild_next_star`.
-/

namespace RalphDb

open Base

variable {pattern key : List UInt8} {s t : MatchState}

/-- The byte `*`. -/
def wildcard : UInt8 := 0x2A

/-! ## Rounds of the loop -/

/-- The state before the first round. -/
def MatchState.start : MatchState := ⟨0, 0, none, 0⟩

/-- The loop goes on from `s` to `t`. -/
def MatchState.Goes (pattern key : List UInt8) (s t : MatchState) : Prop :=
  s.keyIndex < key.length ∧ matchStep pattern key s = some t

/-- Neither a star of the pattern nor the byte of the key. -/
def MatchState.Mismatch (pattern key : List UInt8) (s : MatchState) : Prop :=
  pattern[s.patternIndex]? ≠ some wildcard ∧ pattern[s.patternIndex]? ≠ key[s.keyIndex]?

/-- In a round, the comparisons imply the tests of the pattern index. -/
theorem matchStep_eq (h : s.keyIndex < key.length) :
    matchStep pattern key s =
      if pattern[s.patternIndex]? = key[s.keyIndex]? then
        some { s with patternIndex := s.patternIndex + 1, keyIndex := s.keyIndex + 1 }
      else if pattern[s.patternIndex]? = some wildcard then
        some { s with
          starIndex := some s.patternIndex
          patternIndex := s.patternIndex + 1
          starMatchIndex := s.keyIndex }
      else s.starIndex.map fun star =>
        { s with
          patternIndex := star + 1
          starMatchIndex := s.starMatchIndex + 1
          keyIndex := s.starMatchIndex + 1 } := by
  have hbyte : (s.patternIndex < pattern.length ∧ pattern[s.patternIndex]? = key[s.keyIndex]?) ↔
      pattern[s.patternIndex]? = key[s.keyIndex]? := by grind
  have hstar : (s.patternIndex < pattern.length ∧ pattern[s.patternIndex]? = some 0x2A) ↔
      pattern[s.patternIndex]? = some 0x2A := by grind
  simp only [matchStep, wildcard, hbyte, hstar]
  cases s.starIndex <;> rfl

/-- What a round can do. -/
theorem goes_cases (h : s.Goes pattern key t) :
    (∃ b, pattern[s.patternIndex]? = some b ∧ key[s.keyIndex]? = some b ∧
      t = { s with patternIndex := s.patternIndex + 1, keyIndex := s.keyIndex + 1 }) ∨
    (pattern[s.patternIndex]? = some wildcard ∧
      t = { s with
        starIndex := some s.patternIndex
        patternIndex := s.patternIndex + 1
        starMatchIndex := s.keyIndex }) ∨
    (∃ star, s.starIndex = some star ∧ s.Mismatch pattern key ∧
      t = { s with
        patternIndex := star + 1
        starMatchIndex := s.starMatchIndex + 1
        keyIndex := s.starMatchIndex + 1 }) := by
  obtain ⟨hkey, hstep⟩ := h
  rw [matchStep_eq hkey] at hstep
  by_cases hbyte : pattern[s.patternIndex]? = key[s.keyIndex]?
  · rw [if_pos hbyte] at hstep
    have hread := List.getElem?_eq_getElem hkey
    exact .inl ⟨_, hbyte.trans hread, hread, (Option.some.inj hstep).symm⟩
  · rw [if_neg hbyte] at hstep
    by_cases hstar : pattern[s.patternIndex]? = some wildcard
    · rw [if_pos hstar] at hstep
      exact .inr (.inl ⟨hstar, (Option.some.inj hstep).symm⟩)
    · rw [if_neg hstar] at hstep
      obtain ⟨star, hrecorded, ht⟩ := Option.map_eq_some_iff.mp hstep
      exact .inr (.inr ⟨star, hrecorded, ⟨hstar, hbyte⟩, ht.symm⟩)

/-- Where the loop returns `false`. -/
theorem matchStep_none (hkey : s.keyIndex < key.length) (h : matchStep pattern key s = none) :
    s.starIndex = none ∧ s.Mismatch pattern key := by
  rw [matchStep_eq hkey] at h
  split at h
  · contradiction
  · next hbyte =>
      split at h
      · contradiction
      · next hstar => exact ⟨Option.map_eq_none_iff.mp h, hstar, hbyte⟩

/-! ## The loop stays in range and ends -/

/-- `pattern_index < pattern_bytes.len() && pattern_bytes[pattern_index] ==
key_bytes[key_index]`, where `none` is the panic of an index out of range. -/
def byteTest (pattern key : List UInt8) (s : MatchState) : Option Bool :=
  if s.patternIndex < pattern.length then do
    let patternByte ← pattern[s.patternIndex]?
    let keyByte ← key[s.keyIndex]?
    pure (patternByte == keyByte)
  else pure false

/-- `pattern_index < pattern_bytes.len() && pattern_bytes[pattern_index] == b'*'`. -/
def starTest (pattern : List UInt8) (s : MatchState) : Option Bool :=
  if s.patternIndex < pattern.length then do
    let patternByte ← pattern[s.patternIndex]?
    pure (patternByte == 0x2A)
  else pure false

/-- The body of the loop with its accesses as they are made: `none` is a panic,
`some none` is `return false`. -/
def matchRound (pattern key : List UInt8) (s : MatchState) : Option (Option MatchState) := do
  let byte ← byteTest pattern key s
  if byte then
    pure (some { s with patternIndex := s.patternIndex + 1, keyIndex := s.keyIndex + 1 })
  else do
    let star ← starTest pattern s
    if star then
      pure (some { s with
        starIndex := some s.patternIndex
        patternIndex := s.patternIndex + 1
        starMatchIndex := s.keyIndex })
    else match s.starIndex with
      | some star =>
          pure (some { s with
            patternIndex := star + 1
            starMatchIndex := s.starMatchIndex + 1
            keyIndex := s.starMatchIndex + 1 })
      | none => pure none

/-- No access of a round panics. -/
theorem matchRound_eq (h : s.keyIndex < key.length) :
    matchRound pattern key s = some (matchStep pattern key s) := by
  by_cases hpattern : s.patternIndex < pattern.length
  · by_cases hbyte : pattern[s.patternIndex] = key[s.keyIndex]
    · simp [matchRound, matchStep, byteTest, h, hpattern, hbyte]
    · by_cases hstar : pattern[s.patternIndex] = 0x2A
      · rw [hstar] at hbyte
        simp [matchRound, matchStep, byteTest, starTest, h, hpattern, hbyte, hstar]
      · cases hrecorded : s.starIndex <;>
          simp [matchRound, matchStep, byteTest, starTest, h, hpattern, hbyte, hstar, hrecorded]
  · cases hrecorded : s.starIndex <;>
      simp [matchRound, matchStep, byteTest, starTest, hpattern, hrecorded]

/-- The indices are in range and in order. -/
structure MatchState.Bounded (pattern key : List UInt8) (s : MatchState) : Prop where
  starMatch : s.starMatchIndex ≤ s.keyIndex
  key : s.keyIndex ≤ key.length
  pattern : s.patternIndex ≤ pattern.length
  star : ∀ star ∈ s.starIndex, star < s.patternIndex

theorem bounded_start (pattern key : List UInt8) : MatchState.start.Bounded pattern key where
  starMatch := Nat.le_refl 0
  key := Nat.zero_le _
  pattern := Nat.zero_le _
  star := by simp [MatchState.start]

theorem bounded_goes (hs : s.Bounded pattern key) (h : s.Goes pattern key t) :
    t.Bounded pattern key := by
  obtain ⟨hstarMatch, -, hpattern, hstar⟩ := hs
  have hkey := h.1
  rcases goes_cases h with ⟨b, hb, -, rfl⟩ | ⟨hb, rfl⟩ | ⟨star, hrecorded, -, rfl⟩
  · have hlt := (List.getElem?_eq_some_iff.mp hb).1
    exact ⟨by simp only; omega, hkey, hlt, fun star hmem => Nat.lt_succ_of_lt (hstar star hmem)⟩
  · have hlt := (List.getElem?_eq_some_iff.mp hb).1
    refine ⟨Nat.le_refl _, Nat.le_of_lt hkey, hlt, fun star hmem => ?_⟩
    obtain rfl := Option.some.inj hmem
    exact Nat.lt_succ_self _
  · have hlt := hstar star hrecorded
    refine ⟨Nat.le_refl _, by simp only; omega, by simp only; omega, fun star' hmem => ?_⟩
    obtain rfl := Option.some.inj (hrecorded.symm.trans hmem)
    exact Nat.lt_succ_self _

/-- What the last star can still skip, then what is left of the pattern. -/
def MatchState.rank (pattern key : List UInt8) (s : MatchState) : Nat :=
  (key.length - s.starMatchIndex) * (pattern.length + 1) + (pattern.length - s.patternIndex)

theorem rank_goes (hs : s.Bounded pattern key) (h : s.Goes pattern key t) :
    t.rank pattern key < s.rank pattern key := by
  obtain ⟨hstarMatch, -, hpattern, -⟩ := hs
  have hkey := h.1
  simp only [MatchState.rank]
  rcases goes_cases h with ⟨b, hb, -, rfl⟩ | ⟨hb, rfl⟩ | ⟨star, -, -, rfl⟩
  · have hlt := (List.getElem?_eq_some_iff.mp hb).1
    simp only
    omega
  · have hlt := (List.getElem?_eq_some_iff.mp hb).1
    have hskip : (key.length - s.keyIndex) * (pattern.length + 1) ≤
        (key.length - s.starMatchIndex) * (pattern.length + 1) :=
      Nat.mul_le_mul_right _ (by omega)
    simp only
    omega
  · -- the star skips a byte, which outweighs all of the pattern
    have hskip : (key.length - s.starMatchIndex) * (pattern.length + 1) =
        (key.length - (s.starMatchIndex + 1)) * (pattern.length + 1) + (pattern.length + 1) := by
      rw [← Nat.succ_mul]
      congr 1
      omega
    simp only
    omega

/-- The rounds are counted by the rank. -/
theorem rounds_le {n : Nat} (hrun : Rounds (MatchState.Goes pattern key) n .start t) :
    n ≤ key.length * (pattern.length + 1) + pattern.length :=
  Nat.le_of_add_right_le
    (hrun.add_le (fun _ _ => bounded_goes) (fun _ _ => rank_goes) (bounded_start pattern key))

/-- The loop comes to its end. -/
theorem exists_final (pattern key : List UInt8) :
    ∃ n t, Rounds (MatchState.Goes pattern key) n .start t ∧ ∀ u, ¬ t.Goes pattern key u :=
  exists_last (MatchState.Goes pattern key) (MatchState.rank pattern key) (fun _ _ => bounded_goes)
    (fun _ _ => rank_goes) .start (bounded_start pattern key)

/-- The loop does not go on from a key index in range where it returns `false`. -/
theorem matchStep_last (hlast : ∀ u, ¬ s.Goes pattern key u) (hkey : s.keyIndex < key.length) :
    matchStep pattern key s = none :=
  Option.eq_none_iff_forall_ne_some.mpr fun u hu => hlast u ⟨hkey, hu⟩

/-- The loop, with rounds to spare. -/
theorem matchLoop_rounds {n : Nat} (hrun : Rounds (MatchState.Goes pattern key) n s t)
    (hlast : ∀ u, ¬ t.Goes pattern key u) (m : Nat) :
    matchLoop pattern key (n + m) s =
      if t.keyIndex < key.length then none else some t.patternIndex := by
  induction hrun with
  | refl s =>
      by_cases hkey : s.keyIndex < key.length
      · have hstep := matchStep_last hlast hkey
        cases m <;> simp [matchLoop, hkey, hstep]
      · cases m <;> simp [matchLoop, hkey]
  | @head n s t u round rest ih =>
      have hstep : matchLoop pattern key (n + 1 + m) s = matchLoop pattern key (n + m) t := by
        rw [Nat.add_right_comm, matchLoop, if_pos round.1, round.2]
        rfl
      rw [hstep, ih hlast]

/-- `matchesPattern` gives the loop more rounds than it takes. -/
theorem matchLoop_final {n : Nat} (hrun : Rounds (MatchState.Goes pattern key) n .start t)
    (hlast : ∀ u, ¬ t.Goes pattern key u) :
    matchLoop pattern key (matchRounds pattern key) .start =
      if t.keyIndex < key.length then none else some t.patternIndex := by
  have hrounds : n ≤ matchRounds pattern key := by
    calc
      n ≤ key.length * (pattern.length + 1) + pattern.length := rounds_le hrun
      _ ≤ (pattern.length + key.length + 1) * (key.length + 1) := by grind
  rw [← Nat.add_sub_cancel' hrounds]
  exact matchLoop_rounds hrun hlast _

/-- **The wildcard loop is safe**: at the head of every round the indices are
in range and in order, no access panics, and the loop ends. -/
theorem matchLoop_safe (pattern key : List UInt8) :
    (∀ n s, Rounds (MatchState.Goes pattern key) n .start s →
      s.Bounded pattern key ∧
        (s.keyIndex < key.length → matchRound pattern key s = some (matchStep pattern key s)) ∧
        n ≤ key.length * (pattern.length + 1) + pattern.length) ∧
    ∃ n t, Rounds (MatchState.Goes pattern key) n .start t ∧ (∀ u, ¬ t.Goes pattern key u) ∧
      matchLoop pattern key (matchRounds pattern key) .start =
        if t.keyIndex < key.length then none else some t.patternIndex := by
  constructor
  · intro n s hrun
    exact ⟨hrun.preserves (fun _ _ => bounded_goes) (bounded_start pattern key), matchRound_eq,
      rounds_le hrun⟩
  · obtain ⟨n, t, hrun, hlast⟩ := exists_final pattern key
    exact ⟨n, t, hrun, hlast, matchLoop_final hrun hlast⟩

/-! ## What is left to match -/

/-- What is left to match: before the first star the rest of both, afterwards
the pattern from the last star on and the key from where that star began to
match, with the segment matched since then. -/
inductive MatchState.Faithful (pattern key : List UInt8) : MatchState → Prop
  | unstarred {i j m : Nat}
      (left : Wild wildcard pattern key ↔ Wild wildcard (pattern.drop i) (key.drop j)) :
      Faithful pattern key ⟨i, j, none, m⟩
  | starred {i j star m : Nat} (segment : List UInt8)
      (left : Wild wildcard pattern key ↔ Wild wildcard (pattern.drop star) (key.drop m))
      (inPattern : pattern.drop star = wildcard :: (segment ++ pattern.drop i))
      (inKey : key.drop m = segment ++ key.drop j) : Faithful pattern key ⟨i, j, some star, m⟩

theorem faithful_start (pattern key : List UInt8) : MatchState.start.Faithful pattern key :=
  .unstarred Iff.rfl

theorem drop_of_getElem? {bytes : List UInt8} {i : Nat} {b : UInt8} (h : bytes[i]? = some b) :
    bytes.drop i = b :: bytes.drop (i + 1) := by
  obtain ⟨hlt, rfl⟩ := List.getElem?_eq_some_iff.mp h
  exact List.drop_eq_getElem_cons hlt

/-- A segment of a key without stars has none. -/
theorem segment_solid {segment rest : List UInt8} {m : Nat} (hkey : wildcard ∉ key)
    (h : key.drop m = segment ++ rest) : wildcard ∉ segment := by
  intro hmem
  have hdrop : wildcard ∈ key.drop m := by simp [h, hmem]
  exact hkey (List.mem_of_mem_drop hdrop)

/-- On a mismatch the pattern does not match the key from here. -/
theorem not_wild_of_mismatch (hkey : s.keyIndex < key.length) (h : s.Mismatch pattern key) :
    ¬ Wild wildcard (pattern.drop s.patternIndex) (key.drop s.keyIndex) := by
  rw [drop_of_getElem? (List.getElem?_eq_getElem hkey)]
  rcases hread : pattern[s.patternIndex]? with _ | a
  · rw [List.drop_eq_nil_iff.mpr (List.getElem?_eq_none_iff.mp hread)]
    simp [hkey]
  · obtain ⟨hstar, hbyte⟩ := h
    rw [hread] at hstar hbyte
    rw [drop_of_getElem? hread, wild_letter_cons (by simpa using hstar)]
    simp_all

/-- A byte of the key is matched.  It is no star, for the key has none. -/
theorem faithful_byte {b : UInt8} (hkey : wildcard ∉ key) (hs : s.Faithful pattern key)
    (hb : pattern[s.patternIndex]? = some b) (hread : key[s.keyIndex]? = some b) :
    MatchState.Faithful pattern key
      { s with patternIndex := s.patternIndex + 1, keyIndex := s.keyIndex + 1 } := by
  have hne : b ≠ wildcard := by
    rintro rfl
    exact hkey (List.mem_of_getElem? hread)
  have hpattern := drop_of_getElem? hb
  have hrest := drop_of_getElem? hread
  cases hs with
  | unstarred left => exact .unstarred (by simp [left, hpattern, hrest, wild_letter_cons hne])
  | starred segment left inPattern inKey =>
      exact .starred (segment ++ [b]) left (by simp [inPattern, hpattern]) (by simp [inKey, hrest])

/-- A further star is passed; the one before it is forgotten. -/
theorem faithful_star (hkey : wildcard ∉ key) (hs : s.Faithful pattern key)
    (hstar : pattern[s.patternIndex]? = some wildcard) :
    MatchState.Faithful pattern key { s with
      starIndex := some s.patternIndex
      patternIndex := s.patternIndex + 1
      starMatchIndex := s.keyIndex } := by
  have hpattern := drop_of_getElem? hstar
  cases hs with
  | unstarred left => exact .starred [] left hpattern rfl
  | starred segment left inPattern inKey =>
      have hsolid := segment_solid hkey inKey
      refine .starred [] ?_ hpattern rfl
      rw [left, inPattern, inKey, hpattern, wild_next_star hsolid]

/-- The last star skips a byte more. -/
theorem faithful_retry {star : Nat} (hkey : wildcard ∉ key) (hs : s.Faithful pattern key)
    (hrecorded : s.starIndex = some star) (hlt : s.keyIndex < key.length)
    (hmismatch : s.Mismatch pattern key) :
    MatchState.Faithful pattern key { s with
      patternIndex := star + 1
      starMatchIndex := s.starMatchIndex + 1
      keyIndex := s.starMatchIndex + 1 } := by
  have hstops := not_wild_of_mismatch hlt hmismatch
  cases hs with
  | unstarred left => contradiction
  | @starred i j star' m segment left inPattern inKey =>
      obtain rfl := Option.some.inj hrecorded
      have hsolid := segment_solid hkey inKey
      obtain ⟨b, rest, hrest⟩ : ∃ b rest, segment ++ key.drop j = b :: rest := by
        rw [← List.ne_nil_iff_exists_cons]
        simp [hlt]
      have hnext : key.drop (m + 1) = rest := by
        rw [← List.tail_drop, inKey, hrest, List.tail_cons]
      have hpattern : pattern.drop (star' + 1) = segment ++ pattern.drop i := by
        rw [← List.tail_drop, inPattern, List.tail_cons]
      refine .starred [] ?_ (by simp [inPattern, hpattern]) rfl
      rw [left, inPattern, inKey, hnext, wild_retry hsolid hstops hrest]

/-- A round leaves the same to match. -/
theorem faithful_goes (hkey : wildcard ∉ key) (hs : s.Faithful pattern key)
    (h : s.Goes pattern key t) : t.Faithful pattern key := by
  rcases goes_cases h with ⟨b, hb, hread, rfl⟩ | ⟨hstar, rfl⟩ | ⟨star, hrecorded, hmismatch, rfl⟩
  · exact faithful_byte hkey hs hb hread
  · exact faithful_star hkey hs hstar
  · exact faithful_retry hkey hs hrecorded h.1 hmismatch

/-- At the end of the key the rest of the pattern is stars. -/
theorem wild_of_faithful (hkey : wildcard ∉ key) (hs : s.Faithful pattern key)
    (hend : key.length ≤ s.keyIndex) :
    Wild wildcard pattern key ↔ ∀ b ∈ pattern.drop s.patternIndex, b = wildcard := by
  have hnil := List.drop_eq_nil_iff.mpr hend
  rw [← wild_to_nil]
  cases hs with
  | unstarred left => rw [left, hnil]
  | starred segment left inPattern inKey =>
      rw [hnil, List.append_nil] at inKey
      have hsolid := segment_solid hkey (by rw [inKey, List.append_nil])
      rw [left, inPattern, inKey, wild_last hsolid]

/-- Where the loop returns `false` the pattern does not match. -/
theorem not_wild_of_faithful (hs : s.Faithful pattern key) (hkey : s.keyIndex < key.length)
    (hstep : matchStep pattern key s = none) : ¬ Wild wildcard pattern key := by
  obtain ⟨hunstarred, hmismatch⟩ := matchStep_none hkey hstep
  have hstops := not_wild_of_mismatch hkey hmismatch
  cases hs with
  | unstarred left => rwa [left]
  | starred => contradiction

/-! ## Wildcard matching -/

/-- On a key without a star the matcher is wildcard matching; only the empty
pattern is refused outright. -/
theorem matchesPattern_wild {pattern key : String} (hkey : wildcard ∉ utf8 key) :
    matchesPattern pattern key = true ↔
      pattern ≠ "" ∧ Wild wildcard (utf8 pattern) (utf8 key) := by
  by_cases hempty : pattern = ""
  · simp [matchesPattern, hempty]
  · obtain ⟨n, t, hrun, hlast⟩ := exists_final (utf8 pattern) (utf8 key)
    have hfaithful : t.Faithful (utf8 pattern) (utf8 key) :=
      hrun.preserves (fun _ _ => faithful_goes hkey) (faithful_start _ _)
    have hloop := matchLoop_final hrun hlast
    rw [MatchState.start] at hloop
    simp only [matchesPattern, hempty, if_false, hloop, ne_eq, not_false_eq_true, true_and]
    by_cases hend : t.keyIndex < (utf8 key).length
    · have hwild := not_wild_of_faithful hfaithful hend (matchStep_last hlast hend)
      simp [hend, hwild]
    · rw [wild_of_faithful hkey hfaithful (Nat.le_of_not_lt hend)]
      simp [hend, wildcard]

/-- No key of the table has a star, whatever the environment. -/
theorem wildcard_not_mem_configEntries {env : Environment} {entry : String × String}
    (h : entry ∈ configEntries env) : wildcard ∉ utf8 entry.1 := by
  have hkeys : ∀ key ∈ (configEntries env).map Prod.fst, wildcard ∉ utf8 key := by
    simp only [configEntries, List.map_cons, List.map_nil]
    decide
  exact hkeys _ (List.mem_map_of_mem h)

/-- **`CONFIG GET` is wildcard matching**: the matcher is, on every key without
a star, and the reply is the entries whose key matches, in the order of the
table. -/
theorem configGet_wild {F : Type} :
    (∀ pattern key : String, wildcard ∉ utf8 key →
      (matchesPattern pattern key = true ↔
        pattern ≠ "" ∧ Wild wildcard (utf8 pattern) (utf8 key))) ∧
    ∀ (env : Environment) (subcommand : List UInt8) (pattern : String),
      toAsciiUppercase (fromUtf8Lossy subcommand) = "GET" →
      (config env [subcommand, utf8 pattern] : CommandResult F) =
        .ok (.array (some (((configEntries env).filter fun entry =>
            pattern ≠ "" ∧ Wild wildcard (utf8 pattern) (utf8 entry.1)).flatMap fun entry =>
          [.bulkString (some (utf8 entry.1)), .bulkString (some (utf8 entry.2))]))) := by
  refine ⟨fun pattern key => matchesPattern_wild, fun env subcommand pattern hget => ?_⟩
  have hselect : ((configEntries env).filter fun entry => matchesPattern pattern entry.1) =
      (configEntries env).filter fun entry =>
        pattern ≠ "" ∧ Wild wildcard (utf8 pattern) (utf8 entry.1) := by
    refine List.filter_congr fun entry hentry => ?_
    rw [Bool.eq_iff_iff, matchesPattern_wild (wildcard_not_mem_configEntries hentry)]
    simp
  simp [config, hget, configFrames, hselect]

/-- On `server.port` the `r.` of the second pattern is first tried in `ser`. -/
theorem configGet_wild_port :
    matchesPattern "*er*r.*t" "server.port" = true ∧
      (config ⟨none, none, none, none⟩ [utf8 "get", utf8 "*e*r.*t"] : CommandResult Unit) =
        .ok (.array (some [.bulkString (some (utf8 "server.port")),
          .bulkString (some (utf8 "6379"))])) := by
  constructor
  · exact (configGet_wild (F := Unit).1 "*er*r.*t" "server.port" (by decide)).mpr (by decide)
  · have hselect : ((configEntries ⟨none, none, none, none⟩).filter fun entry =>
        "*e*r.*t" ≠ "" ∧ Wild wildcard (utf8 "*e*r.*t") (utf8 entry.1)) =
          [("server.port", "6379")] := by decide
    rw [configGet_wild.2 _ (utf8 "get") "*e*r.*t" (by decide), hselect]
    rfl

end RalphDb
