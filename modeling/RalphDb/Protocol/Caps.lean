import RalphDb.Protocol.Shape

/-!
# RalphDb.Protocol.Caps

Which accepted frames are within the caps.

The length-prefixed decoders check every length before they read, so their
frames are within the caps.  The inline command path checks nothing: the frame
of an accepted stream is within the caps exactly when every inline command
that was read on the way is (`capped_iff`), and one that is not is easily
written down (`decodeFrame_letters_not_capped`).
-/

namespace RalphDb

open Base
open Base.Fallible

variable {F : Type}

/-- An inline command within the caps: its tokens are short and few. -/
def InlineWithinCaps (line : List UInt8) : Prop :=
  (inlineTokens line).length ≤ collectionLimit ∧
    ∀ token ∈ inlineTokens line, token.length ≤ bulkLimit

theorem inlineFrame_capped_iff {line : List UInt8} :
    (inlineFrame line : Frame F).Everywhere Frame.Capped ↔ InlineWithinCaps line := by
  rw [Frame.everywhere_iff, InlineWithinCaps]
  have hhere : (inlineFrame line : Frame F).Capped ↔
      (inlineTokens line).length ≤ collectionLimit := by
    show (List.map _ (inlineTokens line)).length ≤ collectionLimit ↔ _
    rw [List.length_map]
  have hchild : (∀ c ∈ (inlineFrame line : Frame F).children, c.Everywhere Frame.Capped) ↔
      ∀ token ∈ inlineTokens line, token.length ≤ bulkLimit := by
    show (∀ c ∈ (inlineTokens line).map fun token => Frame.bulkString (some token),
      c.Everywhere Frame.Capped) ↔ _
    rw [List.forall_mem_map]
    constructor
    · exact fun hall token htoken => (hall token htoken).here
    · exact fun hall token htoken => .leaf rfl (hall token htoken)
  rw [hhere, hchild]

/-- The calls made on a reader that opens no aggregate. -/
theorem Calls.eq_of_closed [F64 F] {r s : Reader} (h : Calls F r s)
    (hclosed : ∀ n body, ¬ Opens r n body) : s = r := by
  cases h with
  | self => rfl
  | element opens => exact absurd opens (hclosed _ _)

/-- **Exactly when an accepted frame is within the caps**: when every inline
command read on the way is. -/
theorem capped_iff [F64 F] {r r' : Reader} {f : Frame F} (h : decodeFrame.run r = (.ok f, r')) :
    f.Everywhere Frame.Capped ↔
      ∀ s line, Calls F r s → InlineLine s line → InlineWithinCaps line := by
  induction f using Frame.child_induction generalizing r r' with
  | h f ih =>
    cases shape_of_decodeFrame h with
    | leaf childless capped closed tagged =>
        constructor
        · intro _ s line hcalls hline
          rw [hcalls.eq_of_closed closed] at hline
          exact absurd hline (tagged line)
        · exact fun _ => .leaf childless capped
    | inline line before frame =>
        rw [frame, inlineFrame_capped_iff]
        constructor
        · intro hcap s line' hcalls hline'
          rw [hcalls.eq_of_closed fun _ _ => before.not_opens] at hline'
          rw [← before.unique hline']
          exact hcap
        · exact fun hall => hall r line (.self r) before
    | aggregate body opens items capped =>
        constructor
        · intro hcap s line hcalls hline
          cases hcalls with
          | self => exact absurd opens hline.not_opens
          | element opens' lt before inside =>
              obtain ⟨hn, hbody⟩ := opens.unique opens'
              rw [← hn] at lt
              obtain ⟨c, s₁, s₂, hbefore, hc, hget⟩ := times_run_split items lt
              rw [hbody, before, Prod.mk.injEq] at hbefore
              rw [← hbefore.2] at hc
              have hmem : c ∈ f.children := List.mem_of_getElem? hget
              exact (ih c hmem hc).mp (hcap.child hmem) s line inside hline
        · intro hall
          refine ⟨capped, fun c hc => ?_⟩
          obtain ⟨k, hk, hget⟩ := List.mem_iff_getElem.mp hc
          obtain ⟨c', s₁, s₂, hbefore, hrun, hget'⟩ := times_run_split items hk
          rw [List.getElem?_eq_getElem hk, hget, Option.some.injEq] at hget'
          rw [← hget'] at hrun
          exact (ih c hc hrun).mpr fun s line hcalls hline =>
            hall s line (.element opens hk hbefore hcalls) hline

/-! ## A frame above the caps -/

/-- A line of `n + 1` letters, and a line feed. -/
def letters (n : Nat) : List UInt8 := List.replicate (n + 1) 0x61 ++ [lf]

theorem inlineTokens_replicate (n : Nat) :
    inlineTokens (List.replicate (n + 1) 0x61) = [List.replicate (n + 1) 0x61] := by
  have hblank : ∀ b ∈ List.replicate (n + 1) (0x61 : UInt8), isBlank b = false := by
    intro b hb
    rw [List.eq_of_mem_replicate hb]
    decide
  rw [inlineTokens, List.splitOnP_eq_singleton hblank]
  rfl

/-- The decoder accepts a token of any length. -/
theorem decodeFrame_letters [F64 F] (n : Nat) (e : Ending) :
    decodeFrame.run ⟨letters n, e⟩ =
      (.ok (.array (some [.bulkString (some (List.replicate (n + 1) 0x61))]) : Frame F),
        ⟨[], e⟩) := by
  have hlf : lf ∉ List.replicate n (0x61 : UInt8) :=
    fun h => absurd (List.eq_of_mem_replicate h) (by decide)
  have hcr : dropCr (List.replicate n 0x61) = List.replicate n 0x61 := by
    rw [dropCr, if_neg]
    exact fun h => absurd (List.eq_of_mem_replicate (h.subset List.mem_cons_self)) (by decide)
  have htokens : inlineTokens (0x61 :: dropCr (List.replicate n 0x61)) =
      [List.replicate (n + 1) 0x61] := by
    rw [hcr, ← List.replicate_succ, inlineTokens_replicate]
  exact decodeFrame_inline rfl hlf htokens (List.cons_ne_nil _ _) [] e

theorem capped_iff_letters :
    (.array (some [.bulkString (some (List.replicate 3 0x61))]) : Frame WholeDouble).Everywhere
        Frame.Capped ↔
      ∀ s line, Calls WholeDouble ⟨letters 2, .eof⟩ s → InlineLine s line →
        InlineWithinCaps line :=
  capped_iff (decodeFrame_letters 2 .eof)

/-- **The decoder accepts a bulk string above the cap**: an inline token of
`bulkLimit + 1` bytes. -/
theorem decodeFrame_letters_not_capped :
    ¬ ∀ (r r' : Reader) (f : Frame WholeDouble), decodeFrame.run r = (.ok f, r') →
      f.Everywhere Frame.Capped := by
  intro h
  have hcap := (h _ _ _ (decodeFrame_letters bulkLimit .eof)).child (List.mem_singleton_self _)
  have hlen : (List.replicate (bulkLimit + 1) (0x61 : UInt8)).length ≤ bulkLimit := hcap.here
  rw [List.length_replicate] at hlen
  omega

end RalphDb
