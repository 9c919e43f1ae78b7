import Wiring.Session
import Wiring.Range.Record
import Wiring.Proofs.Registry
import Wiring.Proofs.Runs
import Wiring.Proofs.Joins
import Wiring.Proofs.Growth
import Wiring.Proofs.Terms
import Wiring.Proofs.Standing
import Wiring.Proofs.Requests
import Wiring.Proofs.Sessions
import Wiring.Proofs.Sharing
import Wiring.Proofs.Ownership
import Wiring.Proofs.Counts
import Wiring.Proofs.Failures
import Wiring.Proofs.Cache
import Wiring.Proofs.Bounds
import Wiring.Proofs.Funds
import Wiring.Proofs.Termination
import Wiring.Proofs.Rounds
import Wiring.Proofs.Deadlock
import Wiring.Proofs.Cycles
import Wiring.Proofs.Agreement
import Wiring.Proofs.Outcomes
import Wiring.Proofs.Straight
import Wiring.Proofs.Suspension
import Wiring.Proofs.DepthFirst
import Wiring.Proofs.BackEdges
import Wiring.Proofs.Evaluation
import Wiring.Proofs.Descent
import Wiring.Proofs.Ranks
import Wiring.Proofs.Describing
import Wiring.Proofs.Values
import Wiring.Proofs.Lineage
import Wiring.Proofs.Identity
import Wiring.Proofs.Trials
import Wiring.Proofs.Traces
import Wiring.Proofs.Descriptions
import Wiring.Proofs.Assurances
import Wiring.Proofs.Isolation
import Wiring.Proofs.Independence
import Wiring.Proofs.Persistence
import Wiring.Proofs.Checks
import Wiring.Proofs.Provenance
import Wiring.Proofs.Reading
import Wiring.Proofs.RoundTrips
import Wiring.Proofs.Nestings
import Wiring.Proofs.Arguments
import Wiring.Graph.Index
import Wiring.Proofs.Integrity
import Wiring.Proofs.Tuples
import Wiring.Proofs.Literals
import Wiring.Range.Encoding
import Wiring.Proofs.Resources
import Wiring.Proofs.Shown
import Wiring.Proofs.Encodings
import Wiring.Proofs.Endless
import Wiring.Proofs.Turns
import Wiring.Proofs.Retries
import Wiring.Proofs.RawConfigs
import Wiring.Proofs.Preparations
import Wiring.Proofs.Validation
import Wiring.Proofs.RestEntries
import Wiring.Proofs.Regrouping
import Wiring.Graph.Outgoing
import Wiring.Proofs.Histories
import Wiring.Decimal.Grammar
import Wiring.Decimal.Cursor
import Wiring.Proofs.Numerals
import Wiring.Proofs.LeadingNumbers
import Wiring.Decimal.Bounded
import Wiring.Proofs.Integers
