import Ingest.Main
import Ingest.Queue.Traffic
import Ingest.Rate.Line
import Ingest.Signal.Registry
import Ingest.Http.Script
import Ingest.Store.Work
import Ingest.Store.Session
import Ingest.Trial.Fetching
import Ingest.Trial.Iteration
import Ingest.Trial.Handover
import Ingest.Trial.Workshop
import Ingest.Proofs.History
import Ingest.Proofs.Registers
import Ingest.Proofs.Forest
import Ingest.Proofs.Rate.Bucket
import Ingest.Proofs.Rate.Line
import Ingest.Proofs.Rate.Windows
import Ingest.Proofs.Rate.Overtaking
import Ingest.Proofs.Catalog
import Ingest.Proofs.Destination
import Ingest.Proofs.Store.Memory
import Ingest.Proofs.Store.Transaction
import Ingest.Proofs.Store.Ledger
import Ingest.Proofs.Store.Committing
import Ingest.Proofs.Store.Keeping
import Ingest.Proofs.Store.Closing
import Ingest.Proofs.Store.Apart
import Ingest.Proofs.Store.Shapes
import Ingest.Proofs.Store.Quiet
import Ingest.Proofs.Store.Lifecycle
import Ingest.Proofs.Store.Statements
import Ingest.Proofs.Store.Transcript
import Ingest.Proofs.Store.Books
import Ingest.Proofs.Store.Holders
import Ingest.Proofs.Store.Moments
import Ingest.Proofs.Store.Connections
import Ingest.Proofs.Store.Release
import Ingest.Proofs.Store.Nesting
import Ingest.Proofs.Store.Disconnected
import Ingest.Proofs.Pipeline.Fetcher
import Ingest.Proofs.Pipeline.Batch
import Ingest.Proofs.Pipeline.Fetching
import Ingest.Proofs.Pipeline.Failures
import Ingest.Proofs.Pipeline.Cursor
import Ingest.Proofs.Pipeline.Iterating
import Ingest.Proofs.Pipeline.Reporting
import Ingest.Proofs.Pipeline.Delivery
import Ingest.Proofs.Pipeline.Delivering
import Ingest.Proofs.Pipeline.Loop
import Ingest.Proofs.Pipeline.Run
import Ingest.Proofs.Pipeline.Success
import Ingest.Proofs.Pipeline.Load
import Ingest.Proofs.Pipeline.Progress
import Ingest.Proofs.Pipeline.Exchanges
import Ingest.Proofs.Pipeline.Accounts
import Ingest.Proofs.Pipeline.Stopping
import Ingest.Proofs.Pipeline.Barred
import Ingest.Proofs.Pipeline.Cancelling
import Ingest.Proofs.Pipeline.Faithful
import Ingest.Proofs.Pipeline.Refinement
import Ingest.Proofs.Pipeline.World
import Ingest.Proofs.Settings
import Ingest.Proofs.Truncation
import Ingest.Proofs.Signal.Linked
import Ingest.Proofs.Signal.Settling
import Ingest.Proofs.Signal.Holding
import Ingest.Proofs.Signal.Descent
import Ingest.Proofs.Queue.Traffic
import Ingest.Proofs.Pipeline.Consumer
import Ingest.Proofs.Pipeline.Elsewhere
import Ingest.Proofs.Pipeline.Returning
import Ingest.Proofs.Effects
import Ingest.Proofs.Number
import Ingest.Proofs.Accept.Quality
import Ingest.Proofs.Pipeline.Listeners
import Ingest.Proofs.Store.Tokens
import Ingest.Proofs.Store.Insertion
import Ingest.Proofs.Pipeline.Provenance
import Ingest.Proofs.Payloads
import Ingest.Proofs.Text
import Ingest.Proofs.Accept.Ranking
import Ingest.Proofs.Numerals
import Ingest.Proofs.Accept.Ordering
import Ingest.Proofs.Accept.Fields
import Ingest.Proofs.Accept.Printing
import Ingest.Proofs.Accept.Spacing
import Ingest.Proofs.Accept.Negotiation
import Ingest.Proofs.Signal.Counting
import Ingest.Proofs.Signal.Tally
import Ingest.Proofs.Signal.Course
import Ingest.Proofs.Signal.Recorded
import Ingest.Proofs.Signal.Orderly
import Ingest.Proofs.Signal.Dispatch
import Ingest.Proofs.Signal.Running
import Ingest.Proofs.Whole
import Ingest.Proofs.Settings.Phrases
import Ingest.Proofs.Settings.Written
import Ingest.Proofs.Headers
import Ingest.Proofs.HeaderLines
import Ingest.Proofs.Rate.Balance
import Ingest.Proofs.Rate.Deadline
import Ingest.Proofs.Store.Naming
import Ingest.Proofs.Address
import Ingest.Proofs.Settings.Integers
