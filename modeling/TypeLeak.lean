import TypeLeak.Binary64
import TypeLeak.Check
import TypeLeak.CommandLine.Option
import TypeLeak.CommandLine.Parser
import TypeLeak.CommandLine.Program
import TypeLeak.CommandLine.Similarity
import TypeLeak.CompilerCommand
import TypeLeak.CompilerConfig
import TypeLeak.EntryTrace
import TypeLeak.Failure
import TypeLeak.FileTree.Basic
import TypeLeak.FileTree.Probe
import TypeLeak.FileTree.Resolve
import TypeLeak.FileTree.Snapshot
import TypeLeak.FileTree.World
import TypeLeak.Json.Parser
import TypeLeak.Json.Printer
import TypeLeak.Json.Value
import TypeLeak.Layout
import TypeLeak.Main
import TypeLeak.Manifest
import TypeLeak.OutputBuffer
import TypeLeak.Package.Flagged
import TypeLeak.Package.Name
import TypeLeak.Package.Root
import TypeLeak.Package.SharedSearch
import TypeLeak.Path
import TypeLeak.Prompt
import TypeLeak.Proofs.CutText
import TypeLeak.Proofs.AsciiText
import TypeLeak.Proofs.PathNames
import TypeLeak.Proofs.PathWalk
import TypeLeak.Recording
import TypeLeak.Report
import TypeLeak.Shape
import TypeLeak.SourceSearch
import TypeLeak.Text.Blank
import TypeLeak.Text.ControlSequence
import TypeLeak.Text.OsText
import TypeLeak.Text.Printable
import TypeLeak.Text.Quoted
import TypeLeak.Text.Styled
import TypeLeak.Text.Utf8
import TypeLeak.Toolchain
import TypeLeak.Trace
import TypeLeak.Transcript
import TypeLeak.Proofs.PackageListing
import TypeLeak.Proofs.WellFormedTree
import TypeLeak.Proofs.JsonText
import TypeLeak.Proofs.TraceCleanup
import TypeLeak.Proofs.Utf8Text
import TypeLeak.Proofs.CanonicalPath
import TypeLeak.Proofs.CleanPath
import TypeLeak.Proofs.CompilerLaunch
import TypeLeak.Proofs.DocumentShapes
import TypeLeak.Proofs.FileChoice
import TypeLeak.Proofs.SearchSteps
import TypeLeak.Proofs.FoundSources
import TypeLeak.Proofs.EntrySources
import TypeLeak.Proofs.PathSpelling
import TypeLeak.Proofs.SharedSearch
import TypeLeak.Proofs.InstalledNames
import TypeLeak.Proofs.NestedManifests
import TypeLeak.Proofs.CheckFootprint
import TypeLeak.Proofs.TypedNames
import TypeLeak.Proofs.NothingToTrace
import TypeLeak.Proofs.ShownReport
import TypeLeak.Proofs.IncludedFiles
import TypeLeak.Proofs.PromotedPackages
import TypeLeak.Proofs.SearchOrder
import TypeLeak.Proofs.CurrentDirectory
import TypeLeak.Proofs.ListedLines
import TypeLeak.Proofs.RepeatedSelection
import TypeLeak.Proofs.SpelledListing
import TypeLeak.Proofs.JsonDocument
import TypeLeak.Proofs.MemberOrder
import TypeLeak.Proofs.ScalarText
import TypeLeak.Proofs.ProjectRoot
import TypeLeak.Proofs.WrittenOptions
import TypeLeak.Proofs.ProgramOutput
import TypeLeak.Proofs.CacheGrowth
import TypeLeak.Proofs.CommandWords
import TypeLeak.Proofs.RootSpelling
import TypeLeak.Proofs.AddedLink
import TypeLeak.Proofs.EscapelessText
import TypeLeak.Proofs.ReportColour
