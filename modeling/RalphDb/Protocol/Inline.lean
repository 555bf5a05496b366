import Mathlib.Data.List.TakeWhile
import RalphDb.Protocol.Grammar

/-!
# RalphDb.Protocol.Inline

Inline commands, line by line.

An inline command ought to be one line: the bytes up to the first line feed of
the stream, and its tokens the maximal runs of non-blank bytes in them
(`OneLine`).  The dispatch has taken the first byte before the line is read,
though, so a stream that opens with a line terminator is not seen to: after a
leading line feed the *next* line is read and the two are one command, and the
carriage return of a leading CRLF is a token (`oneLine_iff`).
-/

namespace RalphDb

open Base
open Base.Fallible

variable {F : Type}

/-! ## Maximal runs -/

/-- `tokens` are the maximal runs of non-blank bytes of `content`, in order:
each is followed by a blank or by the end. -/
inductive Runs : List UInt8 → List (List UInt8) → Prop
  | nil : Runs [] []
  | blank {b : UInt8} {bs : List UInt8} {tokens : List (List UInt8)} (blank : isBlank b = true)
      (rest : Runs bs tokens) : Runs (b :: bs) tokens
  | last {token : List UInt8} (nonempty : token ≠ []) (solid : ∀ b ∈ token, isBlank b = false) :
      Runs token [token]
  | run {token bs : List UInt8} {b : UInt8} {tokens : List (List UInt8)} (nonempty : token ≠ [])
      (solid : ∀ b ∈ token, isBlank b = false) (blank : isBlank b = true)
      (rest : Runs bs tokens) : Runs (token ++ b :: bs) (token :: tokens)

theorem inlineTokens_append_blank {token bs : List UInt8} {b : UInt8}
    (solid : ∀ b ∈ token, isBlank b = false) (blank : isBlank b = true) :
    inlineTokens (token ++ b :: bs) =
      if token = [] then inlineTokens bs else token :: inlineTokens bs := by
  rw [inlineTokens, List.splitOnP_append_cons_of_forall_mem solid b blank]
  by_cases h : token = [] <;> simp [inlineTokens, h]

theorem inlineTokens_solid {token : List UInt8} (solid : ∀ b ∈ token, isBlank b = false) :
    inlineTokens token = if token = [] then [] else [token] := by
  rw [inlineTokens, List.splitOnP_eq_singleton solid]
  by_cases h : token = [] <;> simp [h]

/-- A content is its first run, then nothing or a blank and the rest. -/
theorem runs_inlineTokens (content : List UInt8) : Runs content (inlineTokens content) := by
  induction h : content.length using Nat.strong_induction_on generalizing content with
  | h n ih =>
    have hsolid : ∀ b ∈ content.takeWhile (!isBlank ·), isBlank b = false := fun b hb => by
      simpa using List.mem_takeWhile_imp hb
    have hsplit := List.takeWhile_append_dropWhile (p := (!isBlank ·)) (l := content)
    generalize content.takeWhile (!isBlank ·) = token at hsolid hsplit
    cases hdrop : content.dropWhile (!isBlank ·) with
    | nil =>
        rw [hdrop, List.append_nil] at hsplit
        rw [← hsplit, inlineTokens_solid hsolid]
        by_cases hne : token = []
        · simpa [hne] using Runs.nil
        · simpa [hne] using Runs.last hne hsolid
    | cons b bs =>
        have hblank : isBlank b = true := by
          have hhead := List.head?_dropWhile_not (!isBlank ·) content
          simpa [hdrop] using hhead
        rw [hdrop] at hsplit
        have hlt : bs.length < n := by
          rw [← h, ← hsplit]
          simp
          omega
        have hrest := ih bs.length hlt bs rfl
        rw [← hsplit, inlineTokens_append_blank hsolid hblank]
        by_cases hne : token = []
        · simpa [hne] using Runs.blank hblank hrest
        · simpa [hne] using Runs.run hne hsolid hblank hrest

/-- **The tokens are the maximal runs**, and only they are. -/
theorem runs_iff {content : List UInt8} {tokens : List (List UInt8)} :
    Runs content tokens ↔ tokens = inlineTokens content := by
  constructor
  · intro h
    induction h with
    | nil => rfl
    | @blank b bs tokens blank rest ih =>
        have hb : inlineTokens ([] ++ b :: bs) = inlineTokens bs :=
          inlineTokens_append_blank (by simp) blank
        rw [ih, ← hb]
        rfl
    | last nonempty solid => simp [inlineTokens_solid solid, nonempty]
    | run nonempty solid blank rest ih =>
        simp [inlineTokens_append_blank solid blank, nonempty, ih]
  · rintro rfl
    exact runs_inlineTokens content

/-- A byte that is no blank is in some token. -/
theorem inlineTokens_ne_nil {content : List UInt8} {b : UInt8} (hb : b ∈ content)
    (hsolid : isBlank b = false) : inlineTokens content ≠ [] := by
  have hruns : ∀ {tokens}, Runs content tokens → tokens ≠ [] := by
    intro tokens h
    induction h with
    | nil => simp at hb
    | blank blank rest ih =>
        obtain rfl | hb := List.mem_cons.mp hb
        · simp [blank] at hsolid
        · exact ih hb
    | last nonempty solid => simp
    | run nonempty solid blank rest ih => simp
  exact hruns (runs_inlineTokens content)

/-! ## One line, one command -/

/-- The answer to an inline command with these tokens. -/
def inlineOutcome (tokens : List (List UInt8)) : Except IoError (Frame F) :=
  if tokens = [] then .error (invalidData "empty inline command")
  else .ok (.array (some (tokens.map fun token => .bulkString (some token))))

/-- The stream `b` is read as one line: the bytes up to its first line feed,
whose content is split into its maximal runs. -/
def OneLine (F : Type) [F64 F] (b : List UInt8) (e : Ending) : Prop :=
  ∀ line rest tokens, b = line ++ lf :: rest → lf ∉ line → Runs (dropCr line) tokens →
    (decodeFrame : Read (Frame F)).run ⟨b, e⟩ = (inlineOutcome tokens, ⟨rest, e⟩)

theorem inlineOutcome_ne {tokens : List (List UInt8)} (h : tokens ≠ []) :
    (inlineOutcome tokens : Except IoError (Frame F)) ≠ inlineOutcome [] := by
  simp [inlineOutcome, h]

section OneLine

variable [F64 F]

/-- What the decoder does: its line starts after the first byte. -/
theorem decodeFrame_untagged {tag : UInt8} {line : List UInt8} (htag : tag ∉ typeBytes)
    (hlf : lf ∉ line) (rest : List UInt8) (e : Ending) :
    (decodeFrame : Read (Frame F)).run ⟨tag :: (line ++ lf :: rest), e⟩ =
      (inlineOutcome (inlineTokens (tag :: dropCr line)), ⟨rest, e⟩) := by
  rw [decodeFrame_cons, decodeTagged_inline htag, decodeInlineFrame,
    bind_run_ok (readLineBytes_lf hlf rest e), inlineOutcome]
  by_cases h : inlineTokens (tag :: dropCr line) = [] <;> simp [h]

/-- A first line that is not a bare terminator keeps its first byte. -/
theorem dropCr_cons {tag : UInt8} {line : List UInt8} (h : tag :: line ≠ [cr]) :
    dropCr (tag :: line) = tag :: dropCr line := by
  unfold dropCr
  cases line with
  | nil =>
      have hne : ¬ [cr] <:+ [tag] := by
        intro hsuf
        exact h (hsuf.eq_of_length rfl).symm
      rw [if_neg hne, if_neg (by simp)]
  | cons b bs =>
      have hsuf : [cr] <:+ tag :: b :: bs ↔ [cr] <:+ b :: bs := by
        rw [List.suffix_cons_iff]
        simp
      by_cases hcr : [cr] <:+ b :: bs
      · rw [if_pos (hsuf.mpr hcr), if_pos hcr]
        rfl
      · rw [if_neg (fun hc => hcr (hsuf.mp hc)), if_neg hcr]

/-- The carriage return of a leading CRLF is taken for a token. -/
theorem not_oneLine_crlf (rest : List UInt8) (e : Ending) : ¬ OneLine F (cr :: lf :: rest) e := by
  intro h
  have hread := h [cr] rest [] rfl (by decide) .nil
  have hcr : cr ∉ typeBytes := by decide
  have hrun := decodeFrame_untagged (F := F) hcr List.not_mem_nil rest e
  have htokens : inlineTokens (cr :: dropCr []) ≠ [] :=
    inlineTokens_ne_nil List.mem_cons_self (by decide)
  exact inlineOutcome_ne htokens (Prod.mk.inj (hrun.symm.trans hread)).1

/-- After a leading line feed the next line is read, or the stream ends. -/
theorem not_oneLine_lf (rest : List UInt8) (e : Ending) : ¬ OneLine F (lf :: rest) e := by
  intro h
  have hread := h [] rest [] rfl List.not_mem_nil .nil
  have hlf : lf ∉ typeBytes := by decide
  by_cases hmem : lf ∈ rest
  · obtain ⟨line, rest', rfl, hline⟩ := List.eq_append_cons_of_mem hmem
    have hrun := decodeFrame_untagged (F := F) hlf hline rest' e
    have htokens : inlineTokens (lf :: dropCr line) ≠ [] :=
      inlineTokens_ne_nil List.mem_cons_self (by decide)
    exact inlineOutcome_ne htokens (Prod.mk.inj (hrun.symm.trans hread)).1
  · obtain ⟨err, herr⟩ := readLineBytes_no_lf hmem e
    have hrun : (decodeFrame : Read (Frame F)).run ⟨lf :: rest, e⟩ = (.error err, ⟨[], e⟩) := by
      rw [decodeFrame_cons, decodeTagged_inline hlf]
      exact bind_run_error herr _
    obtain ⟨herror, hleft⟩ := Prod.mk.inj (hrun.symm.trans hread)
    -- nothing is left, so nothing followed, and the end of the stream is reported
    obtain rfl : [] = rest := congrArg Reader.unread hleft
    obtain rfl : err = invalidData "empty inline command" := Except.error.inj herror
    cases e <;> cases herr

/-- **Exactly when an inline command is one line**: when the stream does not
open with a line terminator. -/
theorem oneLine_iff {b : List UInt8} (hlf : lf ∈ b) (htag : ∀ tag ∈ b.head?, tag ∉ typeBytes)
    (e : Ending) : OneLine F b e ↔ ¬ [lf] <+: b ∧ ¬ [cr, lf] <+: b := by
  constructor
  · intro h
    constructor
    · rintro ⟨rest, rfl⟩
      exact not_oneLine_lf rest e h
    · rintro ⟨rest, rfl⟩
      exact not_oneLine_crlf rest e h
  · rintro ⟨hnolf, hnocrlf⟩ line rest tokens rfl hline hruns
    cases line with
    | nil => exact absurd ⟨rest, rfl⟩ hnolf
    | cons tag line =>
        obtain ⟨hne, hline'⟩ : lf ≠ tag ∧ lf ∉ line := by simpa using hline
        have hcr : tag :: line ≠ [cr] := by
          intro hc
          exact hnocrlf ⟨rest, by rw [hc]; rfl⟩
        rw [runs_iff.mp hruns, dropCr_cons hcr]
        exact decodeFrame_untagged (htag tag rfl) hline' rest e

end OneLine

/-- A line feed, then `PING`. -/
def blankThenPing : List UInt8 := [0x0A, 0x50, 0x49, 0x4E, 0x47, 0x0A]

/-- The blank line is not refused: it is merged with the command after it. -/
theorem blankThenPing_merged :
    (decodeFrame : Read (Frame WholeDouble)).run ⟨blankThenPing, .eof⟩ =
      (.ok (.array (some [.bulkString (some [0x0A, 0x50, 0x49, 0x4E, 0x47])])), ⟨[], .eof⟩) ∧
    ¬ ∀ (b : List UInt8) (e : Ending), lf ∈ b → (∀ tag ∈ b.head?, tag ∉ typeBytes) →
      OneLine WholeDouble b e := by
  constructor
  · have hline : lf ∉ ([0x50, 0x49, 0x4E, 0x47] : List UInt8) := by decide
    have hlf : lf ∉ typeBytes := by decide
    have hrun := decodeFrame_untagged (F := WholeDouble) hlf hline [] .eof
    have htokens : inlineTokens (lf :: dropCr [0x50, 0x49, 0x4E, 0x47]) =
        [[0x0A, 0x50, 0x49, 0x4E, 0x47]] := by decide
    rw [htokens] at hrun
    exact hrun
  · intro h
    have htag : ∀ tag ∈ blankThenPing.head?, tag ∉ typeBytes := by simp [blankThenPing, typeBytes]
    exact not_oneLine_lf _ .eof (h blankThenPing .eof (by decide) htag)

theorem oneLine_iff_ping : OneLine WholeDouble [0x50, 0x49, 0x4E, 0x47, 0x0A] .eof ↔
    ¬ [lf] <+: [0x50, 0x49, 0x4E, 0x47, 0x0A] ∧ ¬ [cr, lf] <+: [0x50, 0x49, 0x4E, 0x47, 0x0A] :=
  oneLine_iff (by decide) (by simp [typeBytes]) .eof

end RalphDb
