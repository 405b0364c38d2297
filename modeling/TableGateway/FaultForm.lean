import TableGateway.Value.Reading

/-!
# Faults by name

A fault of the gateway's own is made from its name, arguments in a row and named arguments.
-/
namespace TableGateway.Fault

/-- The text of an exception made with the given arguments. -/
def textOf : List Value → Text
  | [] => ""
  | [v] => v.display
  | vs => (Value.tuple vs).literal

/-- The values of exactly the given names, the optional ones null where they are missing. -/
def named (required optional : List Text) (args : List Value) (given : Fields) :
    Result (List Value) :=
  if !args.isEmpty || given.any fun e => !(required ++ optional).contains e.1 then .error .wrongType
  else do
    let required ← required.mapM fun k =>
      match Entries.get? given k with
      | some v => .ok v
      | none => .error .wrongType
    return required ++ optional.map (Value.entry given)

/-- The flaw with a reason; any other value is a reason of its own. -/
def flawOf (reason : Value) : UpdateFlaw :=
  let known : List UpdateFlaw :=
    [.invalidKey, .noMutation, .keyPropertyUpdated, .overlappingProperties, .duplicateCondition]
  (known.find? fun f => f.reason.text? = reason.text?).getD (.other reason)

/-- The fault with a name, or the reason why it cannot be made. -/
def make (kind : Text) (args : List Value) (given : Fields) : Result Fault := do
  match kind with
  | "DynamodbProviderError" =>
    let _ ← named [] [] [] given
    return general (textOf args)
  | "ValidationError" =>
    let _ ← named [] [] [] given
    return refused (.other (textOf args))
  | "MalformedUpdateError" =>
    let placed := [("reason" : Text)].zip args
    if 1 < args.length || placed.any fun e => Entries.has given e.1 then .error .wrongType
    match ← named ["reason"] [] [] (placed ++ given) with
    | [reason] => return malformedUpdate (flawOf reason)
    | _ => .error .wrongType
  | "TransactionSizeError" =>
    match ← named ["size", "limit"] [] args given with
    | [size, limit] =>
      let _ ← limit.shown
      return transactionTooLarge size limit
    | _ => .error .wrongType
  | "BatchRetryExceededError" =>
    match ← named ["operation", "unprocessed_count"] ["message"] args given with
    | [operation, count, message] =>
      if !message.truthy then let _ ← operation.shown; let _ ← count.shown
      return retriesExceeded operation count message
    | _ => .error .wrongType
  | "UnprocessedKeysTimeoutError" =>
    match ← named ["unprocessed_count"] [] args given with
    | [count] =>
      let _ ← count.shown
      return unprocessedKeys count
    | _ => .error .wrongType
  | _ => .error .noSuchPart

end TableGateway.Fault
