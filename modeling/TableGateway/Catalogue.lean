import TableGateway.Request.Transaction
import TableGateway.Session.BatchGet
import TableGateway.Version

/-!
# The public names

What can be looked up by name in the package: constants by their value, the list of all names under a
name of its own, everything else by its name.
-/
namespace TableGateway.Catalogue

/-- All public names by their code points. -/
def names : List String :=
  ["AtomicOperation", "AtomicOperationType", "BatchGetParams", "BatchRetryExceededError",
    "CompiledExpression", "Condition", "ConditionGroup", "CreateParams", "DEFAULT_MAX_RETRIES",
    "DeleteParams", "DynamoDBProvider", "DynamodbExecutor", "DynamodbProviderError", "GetParams",
    "ListOptions", "MAX_BATCH_GET_KEYS", "MAX_TRANSACT_ACTIONS", "MalformedUpdateError",
    "Operation", "Page", "PartitionKey", "PlaceholderEncoder", "QueryParams",
    "RangeKeyCondition", "TransactionSizeError", "UnprocessedKeysTimeoutError", "UpdateParams",
    "ValidateParams", "ValidationError", "__repo_version__", "__version__", "backoff_seconds",
    "build_expression", "build_transact_items", "build_update_expression", "chunked",
    "compile_expression", "create_boto3_config", "create_executor", "get_condition_params",
    "get_dynamodb_client", "get_expression_names", "get_expression_values", "get_filter_params",
    "get_projection_params", "parse_condition", "purge_undefined_filters",
    "to_transaction_params", "validate_update_params"]

def lookUp (name : Text) : Result Value := do
  match name with
  | "DEFAULT_MAX_RETRIES" => return .int BatchGet.defaultMaxRetries
  | "MAX_BATCH_GET_KEYS" => return .int BatchGet.maxKeys
  | "MAX_TRANSACT_ACTIONS" => return .int Transaction.maxActions
  | "__repo_version__" => return .text (← Version.read (some Version.document))
  | "__version__" => return .text (Version.normalize (← Version.read (some Version.document)))
  | "__all__" => return .list (names.map fun n => .text (.whole n))
  | _ => if (names.map Text.whole).contains name then return .text name else .error .noSuchPart

end TableGateway.Catalogue
