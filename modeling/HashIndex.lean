import HashIndex.Request
import HashIndex.Proofs.Thread
import HashIndex.Proofs.Chains
import HashIndex.Proofs.Ledger
import HashIndex.Proofs.Agreement
import HashIndex.Proofs.Agreement.Membership
import HashIndex.Proofs.Agreement.Traversal
import HashIndex.Proofs.Agreement.WellFormed
import HashIndex.Proofs.Call
import HashIndex.Proofs.Call.Effect
import HashIndex.Proofs.Call.Permitted
import HashIndex.Proofs.Call.Capacity
import HashIndex.Proofs.Call.Trace
import HashIndex.Proofs.Call.Lifetime
import HashIndex.Proofs.Call.Run
import HashIndex.Proofs.Call.Refused
import HashIndex.Proofs.Chains.Walk
import HashIndex.Proofs.Call.FlatList
import HashIndex.Proofs.Call.Detach
import HashIndex.Proofs.Call.FiniteMap
import HashIndex.Proofs.Call.Contract
import HashIndex.Proofs.Call.Unhash
import HashIndex.Proofs.Call.CachedHash
import HashIndex.Proofs.Call.Undo
import HashIndex.Proofs.Call.Leaving
import HashIndex.Proofs.Call.Removal
import HashIndex.Proofs.Session.Directory
import HashIndex.Proofs.Session.Sound
import HashIndex.Proofs.Session.Step
import HashIndex.Proofs.Session.Task
import HashIndex.Proofs.Session.Reachable
import HashIndex.Proofs.Session.References
import HashIndex.Proofs.Session.Representation
import HashIndex.Proofs.Session.Stack
import HashIndex.Proofs.Session.Release
import HashIndex.Proofs.Session.Bucket
import HashIndex.Proofs.Session.Faults
import HashIndex.Proofs.Session.Lifetime
import HashIndex.Proofs.Session.Traversal
import HashIndex.Proofs.Session.Drain
import HashIndex.Proofs.Session.Unhash
import HashIndex.Proofs.Call.Decided
import HashIndex.Proofs.Call.Assertions
import HashIndex.Proofs.Call.Locks
import HashIndex.Proofs.Call.Retry
import HashIndex.Proofs.Session.Farewell
import HashIndex.Proofs.Session.Termination
import HashIndex.Proofs.Session.Destruction
import HashIndex.Proofs.Session.Locks
import HashIndex.Proofs.Session.Assertions
import HashIndex.Proofs.Session.Removal
import HashIndex.Proofs.Call.Rounding
import HashIndex.Proofs.Call.Selection
import HashIndex.Proofs.Sdbm
import HashIndex.Proofs.Call.Survey
import HashIndex.Proofs.Session.Survey
