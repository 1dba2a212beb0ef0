import Mathlib.Tactic

/-!
# Portable generation bookkeeping

The host-side records of `generation.rs`: the committed sequence with its terminal
conditions. None of them sees a backend. Token counts are natural numbers.
-/

namespace Eredu.Speculation

abbrev TokenId := UInt32

inductive FinishReason where
  | eos
  | stopSequence
  | grammarComplete
  | maxTokens
  | cancelled
  deriving DecidableEq, Repr

/-- A sampling temperature: a float, by the values its checks distinguish. -/
inductive Temperature where
  | finite (value : ℚ)
  | infinite (negative : Bool)
  | nan
  deriving DecidableEq, Repr

def Temperature.isZero (temperature : Temperature) : Bool := temperature = .finite 0

/-- The errors of `generation.rs` that a generation gives when it takes a token. -/
inductive GenerationError where
  | alreadyFinished
  | failedGeneration
  deriving DecidableEq, Repr

structure TokenTerminalSignals where
  stopSequence : Bool
  grammarComplete : Bool
  deriving DecidableEq, Repr

structure TokenCommit where
  tokenId : TokenId
  position : Nat
  finishReason : Option FinishReason
  deriving DecidableEq, Repr

/-- Committed tokens and terminal-condition precedence. The end-of-sequence identities are kept
sorted without repetition and searched by bisection: they are a set. -/
structure GenerationSequence where
  maxTokens : Nat
  eosTokenIds : Finset TokenId
  tokens : List TokenId
  finishReason : Option FinishReason
  deriving DecidableEq

variable {signals : TokenTerminalSignals} {receipt : TokenCommit} {token : TokenId}
  (maxTokens : Nat) (eosTokenIds : List TokenId)

namespace GenerationSequence

def new : GenerationSequence where
  maxTokens := maxTokens
  eosTokenIds := eosTokenIds.toFinset
  tokens := []
  finishReason := if maxTokens = 0 then some .maxTokens else none

variable (s : GenerationSequence)

/-- The terminal reason of a sequence that has just received `token`: stop sequence before grammar,
grammar before end of sequence, and the budget last. -/
def reasonAfter (token : TokenId) (signals : TokenTerminalSignals) : Option FinishReason :=
  if signals.stopSequence then some .stopSequence
  else if signals.grammarComplete then some .grammarComplete
  else if token ∈ s.eosTokenIds then some .eos
  else if s.tokens.length + 1 = s.maxTokens then some .maxTokens
  else none

def commit (token : TokenId) (signals : TokenTerminalSignals) :
    Except GenerationError (TokenCommit × GenerationSequence) :=
  if s.finishReason.isSome then .error .alreadyFinished
  else
    let reason := s.reasonAfter token signals
    .ok (⟨token, s.tokens.length, reason⟩,
      { s with tokens := s.tokens ++ [token], finishReason := reason })

/-- Applies cancellation unless the sequence has already terminated. A sequence that never had a
budget may still be cancelled. -/
def cancel : Bool × GenerationSequence :=
  if s.tokens.isEmpty ∧ s.finishReason = some .maxTokens then
    (true, { s with finishReason := some .cancelled })
  else if s.finishReason.isSome then (false, s)
  else (true, { s with finishReason := some .cancelled })

@[simp] theorem cancel_tokens : s.cancel.2.tokens = s.tokens := by
  unfold cancel
  split
  · rfl
  · split <;> rfl

def WithinBudget : Prop :=
  s.finishReason = none → s.tokens.length < s.maxTokens

theorem commit_eq {s next : GenerationSequence} (hc : s.commit token signals = .ok (receipt, next)) :
    s.finishReason = none ∧ receipt.finishReason = s.reasonAfter token signals ∧
      next = { s with
        tokens := s.tokens ++ [token]
        finishReason := s.reasonAfter token signals } := by
  unfold commit at hc
  split at hc
  · cases hc
  · next hu =>
    cases hc
    exact ⟨by simpa using hu, rfl, rfl⟩

theorem new_withinBudget : (new maxTokens eosTokenIds).WithinBudget := by
  intro hu
  by_cases he : maxTokens = 0
  · simp [new, he] at hu
  · exact pos_of_ne_zero he

theorem WithinBudget.commit {s next : GenerationSequence} (hw : s.WithinBudget)
    (hc : s.commit token signals = .ok (receipt, next)) : next.WithinBudget := by
  obtain ⟨hu, -, rfl⟩ := commit_eq hc
  have hr := hw hu
  intro hs
  have hn : s.tokens.length + 1 ≠ s.maxTokens := by
    intro hl
    simp only [reasonAfter, hl] at hs
    split_ifs at hs
  simp only [List.length_append, List.length_cons, List.length_nil]
  omega

end GenerationSequence

end Eredu.Speculation
