import PageLint.Main
import PageLint.Page
import PageLint.Proofs.Analysis.Backreference
import PageLint.Proofs.Analysis.Detachment
import PageLint.Proofs.Analysis.Embedded
import PageLint.Proofs.Analysis.OneLine
import PageLint.Proofs.Analysis.Reanalysis
import PageLint.Proofs.Analysis.References
import PageLint.Proofs.Analysis.Safety
import PageLint.Proofs.Analysis.Shown
import PageLint.Proofs.Analysis.Warnings
import PageLint.Proofs.Check.Report
import PageLint.Proofs.Diagnostic.Colour
import PageLint.Proofs.Diagnostic.Sink
import PageLint.Proofs.Diagnostic.Underline
import PageLint.Proofs.Feature.Partition
import PageLint.Proofs.Json.RoundTrip
import PageLint.Proofs.Markup.AnyCase
import PageLint.Proofs.Markup.Embedding
import PageLint.Proofs.Markup.Laminar
import PageLint.Proofs.Markup.Locality
import PageLint.Proofs.Markup.Overruns
import PageLint.Proofs.Markup.OwnText
import PageLint.Proofs.Markup.RoundTrip
import PageLint.Proofs.Markup.Unclosed
import PageLint.Proofs.Source.Counting
import PageLint.Proofs.Source.Offsets
import PageLint.Proofs.Source.Slices
import PageLint.Proofs.Table.Replacement
import PageLint.Scanner.FunctionKeyword
import PageLint.Proofs.Source.Cache
import PageLint.Proofs.Source.Tree
import PageLint.Proofs.Check.Discovery
import PageLint.Proofs.Check.Overlaps
import PageLint.Proofs.Check.Sorting
