import Sidebar.AnyTree
import Sidebar.Build
import Sidebar.FileSystem.Basic
import Sidebar.FileSystem.LinkLoop
import Sidebar.FileSystem.Name
import Sidebar.FileSystem.Path
import Sidebar.FileSystem.Resolve
import Sidebar.Json.Basic
import Sidebar.Json.Literal
import Sidebar.Json.Reader
import Sidebar.Keyed
import Sidebar.Label
import Sidebar.Load
import Sidebar.Log
import Sidebar.Navigation
import Sidebar.NodePath
import Sidebar.Number.Binary64
import Sidebar.Number.Shortest
import Sidebar.Outline
import Sidebar.Proofs.Calls
import Sidebar.Proofs.Capitals
import Sidebar.Proofs.Containment
import Sidebar.Proofs.Cycles
import Sidebar.Proofs.Digits
import Sidebar.Proofs.Encoding
import Sidebar.Proofs.Entries
import Sidebar.Proofs.Extensions
import Sidebar.Proofs.Faults
import Sidebar.Proofs.Grammar
import Sidebar.Proofs.GroupOrder
import Sidebar.Proofs.Interruption
import Sidebar.Proofs.Labels
import Sidebar.Proofs.LinkLoops
import Sidebar.Proofs.Loading
import Sidebar.Proofs.LogAgreement
import Sidebar.Proofs.Lookup
import Sidebar.Proofs.Names
import Sidebar.Proofs.Navigation
import Sidebar.Proofs.OutlineEntries
import Sidebar.Proofs.OutlineLines
import Sidebar.Proofs.OutlineReading
import Sidebar.Proofs.Pagination
import Sidebar.Proofs.PathNotation
import Sidebar.Proofs.Places
import Sidebar.Proofs.Plain
import Sidebar.Proofs.PlainReading
import Sidebar.Proofs.Positions
import Sidebar.Proofs.RecordChecks
import Sidebar.Proofs.Records
import Sidebar.Proofs.Rejection
import Sidebar.Proofs.Repair
import Sidebar.Proofs.ReportLines
import Sidebar.Proofs.RoundTrip
import Sidebar.Proofs.Sharing
import Sidebar.Proofs.Shown
import Sidebar.Proofs.Trails
import Sidebar.Proofs.Unfolding
import Sidebar.Proofs.UnreadFields
import Sidebar.Proofs.Unsharing
import Sidebar.Proofs.Variants
import Sidebar.Proofs.Words
import Sidebar.Proofs.WritingOrder
import Sidebar.Proofs.Written
import Sidebar.Raw.Edit
import Sidebar.Raw.Heap
import Sidebar.Raw.Key
import Sidebar.Raw.OfJson
import Sidebar.Raw.Print
import Sidebar.Record.Check
import Sidebar.Record.Error
import Sidebar.Record.Models
import Sidebar.Registry.Basic
import Sidebar.Registry.Directory
import Sidebar.Report
import Sidebar.Settings
import Sidebar.Text.Basic
import Sidebar.Text.Blank
import Sidebar.Text.Printable
import Sidebar.Text.Quoted
import Sidebar.Text.UpperCase
import Sidebar.Text.Utf8
import Sidebar.Tree.Basic
import Sidebar.Tree.OfRaw
import Sidebar.Tree.Positions
import Sidebar.Tree.SchemaError
import Sidebar.Unseen
import Sidebar.Validation
import Sidebar.Violation
