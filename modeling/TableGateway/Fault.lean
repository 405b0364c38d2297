import TableGateway.Number.Stored
import TableGateway.Operation
import TableGateway.Value.Literal

/-!
# Faults

Why a call did not succeed: what the gateway itself refuses, with the cause; what a handed-over value
cannot be used for; and what the store or the rehearsal of it answered. The wording is in `message?`.
-/
namespace TableGateway

/-- Causes for which the gateway refuses a call before it reaches the store. -/
inductive Refusal where
  | propertyRequired
  | unknownOperation (given : Value)
  | unknownJoin (given : Value)
  | valuesNotSequence (op : Operation)
  | takesNoValue (op : Operation)
  | requiresValues (op : Operation)
  | onlyTakesValues (op : Operation)
  | requiresBounds
  | onlyTakesBounds
  | requiresValue (op : Operation)
  | onlyTakesValue (op : Operation)
  | unknownCondition (typeName : Text)
  | collision (placeholder : Text)
  | changePropertyRequired
  | unknownChange (given : Value)
  | notOnRangeKey (op : Operation)
  | unknownOrder
  | limitNotPositive
  | segmentAlone
  | segmentOutside
  | invalidToken
  | tooFewAttempts
  | tooFewWorkers
  | nothingToValidate
  | unknownAction (typeName : Text)
  | unknownTarget (given : Value)
  | other (message : Text)
  deriving Repr

/-- The rule that an update breaks. -/
inductive UpdateFlaw where
  | invalidKey
  | noMutation
  | keyPropertyUpdated
  | overlappingProperties
  | duplicateCondition
  | other (reason : Value)
  deriving Repr

inductive Fault where
  | refused (cause : Refusal)
  | malformedUpdate (flaw : UpdateFlaw)
  | transactionTooLarge (size limit : Value)
  | retriesExceeded (operation unprocessed message : Value)
  | unprocessedKeys (unprocessed : Value)
  | general (message : Text)
  /-- A call that the rehearsal did not expect. -/
  | unexpected (message : Text)
  | scripted (message : Text)
  | store (code operation message : Text) (reasons : Value)
  /-- A value of a kind that the use of it does not admit. -/
  | wrongType
  /-- A part asked of a value that has no such part. -/
  | noSuchPart
  | noSuchKey
  /-- A place beyond either end of a row. -/
  | noSuchPlace
  /-- A comparison with a decimal that is no number. -/
  | notComparable
  | badValue (message : Option Text)
  /-- A text with half of a surrogate pair, for which there is no encoding. -/
  | notEncodable
  | outOfRange
  /-- More bytes than can be held. -/
  | tooLong
  | negativeAttempts
  | unstorable (signal : Decimal.Signal)
  /-- More requests than the caller allowed the run to make. -/
  | cutShort
  deriving Repr

namespace Refusal

def message : Refusal → Text
  | propertyRequired => "condition property is required"
  | unknownOperation v => "unsupported condition operation: " ++ v.literal
  | unknownJoin v => "join_as must be 'and' or 'or', got " ++ v.literal
  | valuesNotSequence op => op.name ++ " values must be a sequence"
  | takesNoValue op => op.name ++ " does not take a value"
  | requiresValues op => op.name ++ " requires values"
  | onlyTakesValues op => op.name ++ " only takes values"
  | requiresBounds => "between requires low and high"
  | onlyTakesBounds => "between only takes low and high"
  | requiresValue op => op.name ++ " requires a value"
  | onlyTakesValue op => op.name ++ " only takes a single value"
  | unknownCondition name => "unsupported condition: " ++ name
  | collision placeholder => "expression attribute collision on " ++ placeholder
  | changePropertyRequired => "atomic operation property is required"
  | unknownChange v => "unsupported atomic operation: " ++ v.literal
  | notOnRangeKey op => op.name ++ " is not supported on a range key"
  | unknownOrder => "retrieve_order must be ASC or DESC"
  | limitNotPositive => "limit must be > 0"
  | segmentAlone => "segment and total_segments must be set together"
  | segmentOutside => "segment must be within [0, total_segments)"
  | invalidToken => "invalid pagination token"
  | tooFewAttempts => "max_retries must be >= 1"
  | tooFewWorkers => "max_workers must be > 0"
  | nothingToValidate => "validate requires at least one condition"
  | unknownAction name => "unsupported transaction action: " ++ name
  | unknownTarget v => "unsupported client target: " ++ v.literal
  | other message => message

end Refusal

namespace UpdateFlaw

def reason : UpdateFlaw → Value
  | invalidKey => .text "invalid_key"
  | noMutation => .text "no_mutation"
  | keyPropertyUpdated => .text "key_property_updated"
  | overlappingProperties => .text "overlapping_properties"
  | duplicateCondition => .text "duplicate_condition"
  | other reason => reason

end UpdateFlaw

namespace Fault

/-- The text of a fault, where it has one of its own. -/
def message? : Fault → Option Text
  | refused cause => some cause.message
  | malformedUpdate _ => some "Malformed Update params"
  | transactionTooLarge _ limit => some ("Max supported transaction size is " ++ limit.display)
  | retriesExceeded operation unprocessed message =>
    some (if message.truthy then message.display
    else operation.display ++ ": retry limit exceeded (unprocessed=" ++ unprocessed.display ++ ")")
  | unprocessedKeys n => some ("Unprocessed items timeout (unprocessed=" ++ n.display ++ ")")
  | general message | unexpected message | scripted message => some message
  | store code operation message _ =>
    some ("An error occurred (" ++ code ++ ") when calling the " ++ operation ++ " operation: "
      ++ message)
  | badValue message => message
  | _ => none

/-- Is it one of the refusals that the gateway makes on its own? -/
def isRefusal : Fault → Bool
  | refused _ | malformedUpdate _ | transactionTooLarge .. => true
  | _ => false

end Fault

abbrev Result (α : Type) := Except Fault α

def refuse {α : Type} (cause : Refusal) : Result α := .error (.refused cause)

end TableGateway
