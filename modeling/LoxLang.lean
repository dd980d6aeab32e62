import LoxLang.Main
import LoxLang.Proofs.Captures.Afresh
import LoxLang.Proofs.Classes.Receivers
import LoxLang.Proofs.Counting.Unrolling
import LoxLang.Proofs.Derivation.Program
import LoxLang.Proofs.Lexical.Transcripts
import LoxLang.Proofs.Relabeling.Rejections
import LoxLang.Proofs.Scoping.Lookups
import LoxLang.Proofs.WellFormed.Programs
import LoxLang.Proofs.Joining.Pieces
import LoxLang.Proofs.Joining.Programs
import LoxLang.Proofs.Joining.Sources
import LoxLang.Proofs.Joining.Trees
import LoxLang.Proofs.Joining.Names
import LoxLang.Proofs.Joining.Halts
import LoxLang.Proofs.Joining.Runs
import LoxLang.Proofs.Nodes.History
import LoxLang.Proofs.Output.Halts
import LoxLang.Proofs.Output.Limits
import LoxLang.Proofs.Output.Sessions
import LoxLang.Proofs.Returns.Activations
import LoxLang.Proofs.Returns.Calls
import LoxLang.Proofs.Tiling.Agreement
import LoxLang.Proofs.Tiling.Stream
import LoxLang.Proofs.Tiling.Calls
import LoxLang.Proofs.Tiling.Lines
import LoxLang.Proofs.Tiling.Longest
import LoxLang.Proofs.Tiling.Spacing
import LoxLang.Proofs.Indexing.Programs
import LoxLang.Proofs.Prompt.Echo
import LoxLang.Proofs.Depth.Calls
import LoxLang.Proofs.Binding.Distances
import LoxLang.Proofs.Leniency
import LoxLang.Proofs.Segments.Programs
import LoxLang.Proofs.Omission
import LoxLang.Proofs.Access
import LoxLang.Proofs.Values.Moments
import LoxLang.Proofs.History.Order
import LoxLang.Proofs.Methods.Arguments
import LoxLang.Proofs.Binding.Globals
import LoxLang.Proofs.Origins.Functions
import LoxLang.Proofs.Origins.Moments
import LoxLang.Proofs.Domain.Sessions
import LoxLang.Proofs.OwnReads.Places
import LoxLang.Proofs.OwnReads.Sessions
import LoxLang.Proofs.Rendering.Sources
import LoxLang.Proofs.Rendering.Printed
import LoxLang.Proofs.Rendering.Columns
import LoxLang.Proofs.Rendering.Listing
import LoxLang.Proofs.Failures.Relays
import LoxLang.Proofs.Output.FrontEnds
import LoxLang.Proofs.Chains.Moments
import LoxLang.Proofs.Binding.Composition
