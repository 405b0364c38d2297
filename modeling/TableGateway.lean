import TableGateway.Attribute.Basic
import TableGateway.Attribute.Decoding
import TableGateway.Attribute.PlainForm
import TableGateway.Catalogue
import TableGateway.Condition.Basic
import TableGateway.Condition.Expression
import TableGateway.Condition.Reading
import TableGateway.Description
import TableGateway.Entries
import TableGateway.Fault
import TableGateway.FaultForm
import TableGateway.Filter
import TableGateway.Json.Basic
import TableGateway.Json.Reader
import TableGateway.Json.Writer
import TableGateway.Number.Basic
import TableGateway.Number.Binary64
import TableGateway.Number.Decimal
import TableGateway.Number.Exact
import TableGateway.Number.Limit
import TableGateway.Number.Order
import TableGateway.Number.Power
import TableGateway.Number.Shortest
import TableGateway.Number.Stored
import TableGateway.Operation
import TableGateway.Placeholder
import TableGateway.Projection
import TableGateway.Request.Item
import TableGateway.Request.Query
import TableGateway.Request.Transaction
import TableGateway.Session.Backoff
import TableGateway.Session.BatchGet
import TableGateway.Session.ClientCache
import TableGateway.Session.Executor
import TableGateway.Session.Invocation
import TableGateway.Session.Marshalling
import TableGateway.Session.Plan
import TableGateway.Session.Provider
import TableGateway.Session.Rehearsal
import TableGateway.Session.World
import TableGateway.Text.Base64
import TableGateway.Text.Blank
import TableGateway.Text.Digit
import TableGateway.Text.Printable
import TableGateway.Text.Quoted
import TableGateway.Token
import TableGateway.Update.Atomic
import TableGateway.Update.Expression
import TableGateway.Update.Rules
import TableGateway.Value.Basic
import TableGateway.Value.Comparison
import TableGateway.Value.Containment
import TableGateway.Value.Literal
import TableGateway.Value.Reading
import TableGateway.Value.Same
import TableGateway.Version
import TableGateway.Proofs.ExpressionText
import TableGateway.Proofs.Entries
import TableGateway.Proofs.Exchange
import TableGateway.Proofs.Projection
import TableGateway.Proofs.Batch
import TableGateway.Proofs.Base64
import TableGateway.Proofs.DecimalText
import TableGateway.Proofs.JsonText
import TableGateway.Proofs.Settled
import TableGateway.Proofs.AttributeForm
import TableGateway.Proofs.Storable
import TableGateway.Proofs.Cursor
import TableGateway.Proofs.QueryPages
import TableGateway.Proofs.Bindings
import TableGateway.Proofs.Tokens
import TableGateway.Proofs.NumberFaults
import TableGateway.Proofs.TokenFaults
import TableGateway.Proofs.UpdateGrammar
import TableGateway.Proofs.UpdateText
import TableGateway.Proofs.UpdateRequest
import TableGateway.Proofs.PageSteps
import TableGateway.Proofs.Pool
import TableGateway.Proofs.Schedules
import TableGateway.Proofs.Interference
import TableGateway.Proofs.Alike
import TableGateway.Proofs.UpdateTokens
import TableGateway.Proofs.Complete
import TableGateway.Proofs.CompleteRequests
import TableGateway.Proofs.SetMembers
import TableGateway.Proofs.Normal
import TableGateway.Proofs.LowLevel
import TableGateway.Proofs.NormalRequests
import TableGateway.Proofs.Targets
import TableGateway.Proofs.TargetSchedules
import TableGateway.Proofs.RequestFields
import TableGateway.Proofs.DisjointClauses
import TableGateway.Proofs.SideBySide
import TableGateway.Proofs.Calls
import TableGateway.Proofs.Unrefused
import TableGateway.Proofs.LocalRefusals
import TableGateway.Proofs.ListPages
import TableGateway.Proofs.DecodedValues
import TableGateway.Proofs.GenuineTokens
import TableGateway.Proofs.Delays
import TableGateway.Proofs.FilterEntries
import TableGateway.Proofs.GuardedWrites
import TableGateway.Proofs.RetryBudget
import TableGateway.Proofs.FilterConditions
import TableGateway.Proofs.Purge
import TableGateway.Proofs.Equality
import TableGateway.Proofs.Collisions
import TableGateway.Proofs.CanonicalTokens
import TableGateway.Proofs.Stems
import TableGateway.Proofs.Descriptions
import TableGateway.Proofs.PartialMatch
import TableGateway.Proofs.StrictQueue
import TableGateway.Proofs.TransactionItems
import TableGateway.Proofs.UpdateRules
import TableGateway.Proofs.SharedClients
