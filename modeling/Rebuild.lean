import Rebuild.Compiler.Scripted
import Rebuild.Json.Parser
import Rebuild.Main
import Rebuild.Proofs.TaskGraph.Resolve
import Rebuild.Proofs.TaskGraph.LeastOrder
import Rebuild.Proofs.TaskGraph.SoftOrder
import Rebuild.Proofs.Digraph.Components
import Rebuild.Proofs.Keyed
import Rebuild.Proofs.Module.Validate
import Rebuild.Proofs.Action
import Rebuild.Proofs.FileSystem.Directories
import Rebuild.Proofs.Execution
import Rebuild.Proofs.Programs
import Rebuild.Proofs.Build.Plan
import Rebuild.Proofs.Build.Retry
import Rebuild.Proofs.Build.CompileOrder
import Rebuild.Proofs.Execution.History
import Rebuild.Proofs.Build.Tasks
import Rebuild.Proofs.Build.Accept
import Rebuild.Proofs.Build.Invocations
import Rebuild.Proofs.FileSystem.Plain
import Rebuild.Proofs.FileSystem.Workplace
import Rebuild.Proofs.Placement
import Rebuild.Proofs.Build.SecondBuild
import Rebuild.Proofs.Build.Outcome
import Rebuild.Proofs.FileSystem.Absolute
import Rebuild.Proofs.Build.Clean
import Rebuild.Proofs.FileSystem.ChangesAbove
import Rebuild.Proofs.Build.DryRun
import Rebuild.Proofs.CommandLine.Format
import Rebuild.Proofs.Build.OutputGuard
import Rebuild.Proofs.Digraph.SearchOrder
import Rebuild.Proofs.Module.CycleReport
import Rebuild.Proofs.Digraph.ShortestCycle
import Rebuild.Proofs.TaskGraph.HardCycle
import Rebuild.Proofs.Duration
import Rebuild.Proofs.Config.RoundTrip
import Rebuild.Proofs.Path.Canonical
import Rebuild.Proofs.TaskGraph.SamePlan
import Rebuild.Proofs.FileSystem.Following
import Rebuild.Proofs.Staleness
import Rebuild.Proofs.FileSystem.Installing
import Rebuild.Proofs.Launcher
import Rebuild.Proofs.FileSystem.Retaining
import Rebuild.Proofs.FileSystem.Unlinked
import Rebuild.Proofs.FileSystem.Writing
import Rebuild.Proofs.FileSystem.Listing
import Rebuild.Proofs.Placement.Files
import Rebuild.Proofs.Placement.Graft
import Rebuild.Proofs.Placement.Again
import Rebuild.Proofs.Placement.Tree
import Rebuild.Proofs.Build.Packaging
import Rebuild.Proofs.Execution.Report
import Rebuild.Proofs.TaskGraph.Recount
import Rebuild.Proofs.TaskGraph.Index
