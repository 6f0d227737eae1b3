/-
# `LightningNode.Ledger.Confirmation` — the question before an offer is paid

The loop of lines 187 to 207 on what stands on the standard input.  Each answer is
appended to the line of the command, which is never cleared: whatever is typed,
what the loop looks at starts with `sendpayment`, and at the end of the input it
is not empty.

    first line with       the loop is to      the loop does
    `Y`                   pay                 ask again
    `N`                   decline             ask again
    neither, at the end   leave the prompt    ask again

Only a `read_line` that fails ends it, which of the lines those do that are no
text.
-/
import LightningNode.Ledger.Sendpayment

namespace LightningNode

open Conc LedgerProg LedgerAct Text

namespace Sendpayment

/-! ## Standard input -/

/-- `read_until(b'\n')`: what it reads and what is left. -/
def readUntil : List UInt8 → List UInt8 × List UInt8
  | [] => ([], [])
  | b :: bs => if b = 10 then ([b], bs) else (b :: (readUntil bs).1, (readUntil bs).2)

/-- What `read_line` makes of the bytes of a line. -/
def answer (l : List UInt8) : ReadLine := ((ofUtf8 l).map .read).getD .failed

/-- The first `n` answers; at the end of the input they are empty. -/
def readLines : Nat → List UInt8 → List ReadLine
  | 0, _ => []
  | n + 1, stdin => answer (readUntil stdin).1 :: readLines n (readUntil stdin).2

/-- The lines of the input, each with the line feed that ends it. -/
def stdinLines : List UInt8 → List (List UInt8)
  | [] => []
  | b :: bs =>
      if b = 10 then [b] :: stdinLines bs
      else match stdinLines bs with
        | [] => [[b]]
        | l :: ls => (b :: l) :: ls

theorem stdinLines_eq {stdin : List UInt8} (h : stdin ≠ []) :
    stdinLines stdin = (readUntil stdin).1 :: stdinLines (readUntil stdin).2 := by
  induction stdin with
  | nil => exact absurd rfl h
  | cons b bs ih =>
      rw [stdinLines, readUntil]
      split
      · rfl
      · cases bs with
        | nil => rfl
        | cons b' bs => simp only [ih (List.cons_ne_nil _ _)]

theorem answer_failed {l : List UInt8} : answer l = .failed ↔ ofUtf8 l = none := by
  unfold answer
  cases ofUtf8 l with
  | none => simp
  | some text => simp

theorem answer_nil : answer [] ≠ .failed := by
  rw [Ne, answer_failed]
  exact fun h => absurd ((ofUtf8_utf8 "").symm.trans h) nofun

/-- One of the first answers is an error if one of the first lines is no text. -/
theorem failed_mem_readLines {n : Nat} {stdin : List UInt8} :
    .failed ∈ readLines n stdin ↔ ∃ l ∈ (stdinLines stdin).take n, ofUtf8 l = none := by
  induction n generalizing stdin with
  | zero => simp [readLines]
  | succ n ih =>
      rw [readLines, List.mem_cons, ih]
      by_cases h : stdin = []
      · subst h
        simp [readUntil, stdinLines, answer_nil.symm]
      · rw [stdinLines_eq h, List.take_succ_cons, List.exists_mem_cons_iff, ← answer_failed]
        exact or_congr_left eq_comm

/-! ## The loop -/

/-- Where the line starts with neither letter the answers do not matter, up to
the first that is an error. -/
theorem confirm_eq {c : Char} (hY : c ≠ 'Y') (hN : c ≠ 'N') (input : List ReadLine) :
    ∀ {line : String}, line.toList.head? = some c →
      confirm line input = some (if .failed ∈ input then .stopped else .asking) := by
  induction input with
  | nil => exact fun _ => rfl
  | cons answer input ih =>
      intro line hline
      cases answer with
      | failed => rw [confirm, if_pos List.mem_cons_self]
      | read text =>
          have hcat : (line ++ text).toList.head? = some c := by
            rw [String.toList_append, List.head?_append, hline]
            rfl
          have hne : line ++ text ≠ "" := by
            intro h
            rw [h] at hcat
            cases hcat
          have hiff : ReadLine.failed ∈ ReadLine.read text :: input ↔ .failed ∈ input := by simp
          rw [confirm, if_neg hne, hcat, if_neg (hY ∘ Option.some.inj),
            if_neg (hN ∘ Option.some.inj), ih hcat]
          simp only [hiff]

/-- A line of a command starts with it, or with white space. -/
theorem head_of_splitWhitespace {line w : String} {ws : List String}
    (h : splitWhitespace line = w :: ws) :
    ∃ c, line.toList.head? = some c ∧ (isWhitespace c = true ∨ w.toList.head? = some c) := by
  unfold splitWhitespace at h
  cases hl : line.toList with
  | nil =>
      rw [hl, List.splitOnP_nil] at h
      simp at h
  | cons c cs =>
      refine ⟨c, rfl, ?_⟩
      cases hc : isWhitespace c with
      | true => exact .inl rfl
      | false =>
          right
          rw [hl, List.splitOnP_cons_eq_if_modifyHead, if_neg (by simp [hc])] at h
          cases hcs : cs.splitOnP isWhitespace with
          | nil => exact absurd hcs (List.splitOnP_ne_nil _ _)
          | cons x xs =>
              rw [hcs] at h
              simp at h
              rw [← h.1]
              simp

/-! ## The prompt -/

/-- What the answers are to come to: the first that starts with `Y` or `N` decides,
and without one the end of the input does.  `none` is a yes. -/
def verdict : List (List UInt8) → Option Ending
  | [] => some .stopped
  | l :: ls =>
      if l.head? = some 'Y'.toUInt8 then none
      else if l.head? = some 'N'.toUInt8 then some .declined
      else verdict ls

theorem verdict_stopped {ls : List (List UInt8)} :
    verdict ls = some .stopped ↔
      ∀ l ∈ ls, l.head? ≠ some 'Y'.toUInt8 ∧ l.head? ≠ some 'N'.toUInt8 := by
  induction ls with
  | nil => simp [verdict]
  | cons l ls ih =>
      rw [List.forall_mem_cons, ← ih, verdict]
      split
      · simp_all
      · split
        · simp_all
        · simp_all

theorem verdict_ne_asking {ls : List (List UInt8)} : verdict ls ≠ some .asking := by
  induction ls with
  | nil => nofun
  | cons l ls ih =>
      unfold verdict
      split
      · nofun
      · split
        · nofun
        · exact ih

/-- What follows the prompt. -/
def afterPrompt (offer : Offer) (randomBytes : Vector UInt8 32) (amtMsat : UInt64) :
    Option Ending → LedgerProg Ending
  | some ending => return ending
  | none => do
      let out ← payOffer offer ⟨randomBytes⟩ amtMsat
      return .paid out

/-- After finitely many answers the command goes on as the lines of the input say. -/
def PromptEnds (parse : Parsers) (ldk : Ldk) (line : String) (stdin : List UInt8)
    (randomBytes : Vector UInt8 32) (offer : Offer) (amtMsat : UInt64) : Prop :=
  ∃ n, sendpayment parse ldk line (readLines n stdin) randomBytes =
    afterPrompt offer randomBytes amtMsat (verdict (stdinLines stdin))

section

variable {parse : Parsers} {ldk : Ldk} {line word : String} {offer : Offer} {a : UInt64}

theorem sendpayment_prompt (hwords : splitWhitespace line = ["sendpayment", word])
    (hoffer : parse.offer word = some offer) (ha : bitcoinAmount offer = some a)
    (input : List ReadLine) (randomBytes : Vector UInt8 32) :
    sendpayment parse ldk line input randomBytes =
      afterPrompt offer randomBytes a (confirm line input) := by
  have hamt : offerAmountMsat offer none = .ok a := by
    unfold bitcoinAmount at ha
    unfold offerAmountMsat
    split at ha
    · rename_i b hb
      rw [hb]
      simpa using ha
    · cases ha
  simp only [sendpayment, hwords, List.tail_cons, userProvidedAmt, hoffer, hamt, confirmIfUnset]
  cases confirm line input <;> rfl

/-- The command asks on, or a line that is no text has made it leave. -/
theorem sendpayment_asks (hwords : splitWhitespace line = ["sendpayment", word])
    (hoffer : parse.offer word = some offer) (ha : bitcoinAmount offer = some a) (n : Nat)
    (stdin : List UInt8) (randomBytes : Vector UInt8 32) :
    sendpayment parse ldk line (readLines n stdin) randomBytes =
      .ret (if ∃ l ∈ (stdinLines stdin).take n, ofUtf8 l = none then .stopped else .asking) := by
  obtain ⟨c, hc, hhead⟩ := head_of_splitWhitespace hwords
  have hletter : c ≠ 'Y' ∧ c ≠ 'N' := by
    obtain hw | hs := hhead
    · exact ⟨fun h => absurd (h ▸ hw) (by decide), fun h => absurd (h ▸ hw) (by decide)⟩
    · have hs : 's' = c := Option.some.inj hs
      exact hs ▸ ⟨by decide, by decide⟩
  rw [sendpayment_prompt hwords hoffer ha, confirm_eq hletter.1 hletter.2 _ hc]
  simp only [failed_mem_readLines]
  rfl

/-- The prompt ends as it should exactly where it ends at all and no letter was
typed: where a line is no text, and none starts with `Y` or `N`. -/
theorem prompt_ends_iff (hwords : splitWhitespace line = ["sendpayment", word])
    (hoffer : parse.offer word = some offer) (ha : bitcoinAmount offer = some a)
    (stdin : List UInt8) (randomBytes : Vector UInt8 32) :
    PromptEnds parse ldk line stdin randomBytes offer a ↔
      (∃ l ∈ stdinLines stdin, ofUtf8 l = none) ∧
        ∀ l ∈ stdinLines stdin, l.head? ≠ some 'Y'.toUInt8 ∧ l.head? ≠ some 'N'.toUInt8 := by
  unfold PromptEnds
  simp only [sendpayment_asks hwords hoffer ha]
  constructor
  · rintro ⟨n, hn⟩
    -- the program that pays performs an action, and no answer is that it asks on
    cases hv : verdict (stdinLines stdin) with
    | none =>
        rw [hv] at hn
        cases hn
    | some ending =>
        have hend := hn.trans (congrArg (afterPrompt offer randomBytes a) hv)
        injection hend with hend
        subst hend
        split at hv
        · rename_i hbad
          obtain ⟨l, hl, hnone⟩ := hbad
          exact ⟨⟨l, List.mem_of_mem_take hl, hnone⟩, verdict_stopped.mp hv⟩
        · exact absurd hv verdict_ne_asking
  · rintro ⟨hbad, hno⟩
    refine ⟨(stdinLines stdin).length, ?_⟩
    rw [List.take_length, if_pos hbad, verdict_stopped.mpr hno]
    rfl

end

/-- The offer `lno`, which asks for 1000 msat. -/
def pricedOffer : Offer := ⟨"lno", some (.bitcoin 1000)⟩

/-- The words of its command. -/
theorem pricedOffer_words : splitWhitespace "sendpayment lno\n" = ["sendpayment", "lno"] := by
  decide

/-- A `Y` is typed, and the offer is not paid. -/
theorem yes_asks_on : ¬ PromptEnds twoWords (.plain id) "sendpayment lno\n" (utf8 "Y\n")
    (Vector.replicate 32 4) pricedOffer 1000 := by
  rintro ⟨n, hn⟩
  rw [sendpayment_asks pricedOffer_words rfl rfl] at hn
  have hyes : verdict (stdinLines (utf8 "Y\n")) = none := by decide
  rw [hyes] at hn
  cases hn

/-- The one way out, a line that is no text. -/
theorem prompt_ends_no_text : PromptEnds twoWords (.plain id) "sendpayment lno\n" [255, 10]
    (Vector.replicate 32 4) pricedOffer 1000 :=
  (prompt_ends_iff pricedOffer_words rfl rfl _ _).mpr ⟨⟨[255, 10], by decide, by decide⟩, by decide⟩

end Sendpayment

end LightningNode
