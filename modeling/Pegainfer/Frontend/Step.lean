/-
The wire contract between a model scheduler and a frontend: one message per scheduler step, at most one flat record
per request in it.

Payload the ledger only carries is kept as plain data: an `f32` is its bit pattern, a JSON value its text, a
monotonic instant a tick count.
-/
import Mathlib.Tactic

namespace Pegainfer.Frontend

/-- in-process routing id, minted by `SchedulerHandle::submit` from a counter -/
abbrev RequestId := ℕ

abbrev TokenId := ℕ

abbrev Instant := ℕ

structure TokenLogprob where
  logprob : UInt32
  rank : ℕ
  topLogprobs : List (TokenId × UInt32)
deriving DecidableEq, Repr

inductive FinishReason
  | length
  | stop
  | error
deriving DecidableEq, Repr

/-- the token-level cause of a normal stop finish -/
inductive StopCause
  | eos (token : TokenId)
  | token (token : TokenId)
deriving DecidableEq, Repr

/-- why a request was refused at admission -/
inductive RejectReason
  | contextLength (promptTokens maxTokens limit : ℕ)
  | prefillStepBudget (promptTokens limit : ℕ)
  | echoPrefillTokens (promptTokens limit : ℕ)
  | kvBudget (promptTokens worstCaseTokens : ℕ)
  | unknownLoraAdapter (name : String)
  | unsupported (feature : String)
deriving DecidableEq, Repr

structure ScheduledInfo where
  queuedAt : Instant
  scheduledAt : Instant
  promptTokens : ℕ
deriving DecidableEq, Repr

structure PromptEcho where
  ids : List TokenId
  logprobs : List (Option TokenLogprob)
deriving DecidableEq, Repr

/-- how a request's lifetime ended -/
inductive Terminal
  | finished (reason : FinishReason) (stopCause : Option StopCause) (promptTokens completionTokens : ℕ)
  | failed (message : String) (promptTokens completionTokens : ℕ)
  | rejected (reason : RejectReason) (promptTokens : ℕ)
deriving DecidableEq, Repr

/-- the completion count a terminal reports; a rejection reports none -/
def Terminal.completionTokens : Terminal → ℕ
  | .finished _ _ _ n => n
  | .failed _ _ n => n
  | .rejected _ _ => 0

/-- everything that happened to one request within one step -/
structure RequestUpdate where
  id : RequestId
  scheduled : Option ScheduledInfo
  tokens : List TokenId
  logprobs : List (Option TokenLogprob)
  cachedTokens : Option ℕ
  promptEcho : Option PromptEcho
  kvTransfer : Option String
  terminal : Option Terminal
deriving DecidableEq, Repr

namespace RequestUpdate

def empty (id : RequestId) : RequestUpdate := ⟨id, none, [], [], none, none, none, none⟩

/-- an update that carries no observable fact; the ledger drops these instead of shipping them -/
def isVacant (u : RequestUpdate) : Bool :=
  u.scheduled.isNone && u.tokens.isEmpty && u.cachedTokens.isNone && u.promptEcho.isNone && u.kvTransfer.isNone &&
    u.terminal.isNone

@[simp] theorem empty_id (id : RequestId) : (empty id).id = id := rfl

@[simp] theorem empty_terminal (id : RequestId) : (empty id).terminal = none := rfl

theorem isVacant_terminal (u : RequestUpdate) (h : u.isVacant = true) : u.terminal = none := by
  simp only [isVacant, Bool.and_eq_true, Option.isNone_iff_eq_none] at h
  exact h.2

theorem isVacant_tokens (u : RequestUpdate) (h : u.isVacant = true) : u.tokens = [] := by
  simp only [isVacant, Bool.and_eq_true, List.isEmpty_iff] at h
  exact h.1.1.1.1.2

theorem isVacant_scheduled (u : RequestUpdate) (h : u.isVacant = true) : u.scheduled = none := by
  simp only [isVacant, Bool.and_eq_true, Option.isNone_iff_eq_none] at h
  exact h.1.1.1.1.1

end RequestUpdate

/-- everything one scheduler step produced, in one message -/
structure StepOutputs where
  updates : List RequestUpdate
deriving DecidableEq, Repr

end Pegainfer.Frontend
