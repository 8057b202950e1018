import GlslMinifier.Main
import GlslMinifier.Options.Printer
import GlslMinifier.Proofs.Compaction.Commute
import GlslMinifier.Proofs.Compaction.Fixpoint
import GlslMinifier.Proofs.Declaration.Body
import GlslMinifier.Proofs.Declaration.Host
import GlslMinifier.Proofs.Preserved
import GlslMinifier.Proofs.Renaming.Replacement
import GlslMinifier.Proofs.Renaming.Stable
import GlslMinifier.Token.Span
import GlslMinifier.Proofs.Compaction.Escape
import GlslMinifier.Proofs.Declaration.Directive
import GlslMinifier.Proofs.Renaming.Layout
import GlslMinifier.Proofs.Compaction.Growth
import GlslMinifier.Proofs.LooseSign
import GlslMinifier.Proofs.Renaming.Surveyed
import GlslMinifier.Proofs.Stripping
import GlslMinifier.Proofs.NormalSpacing
import GlslMinifier.Proofs.GapRuns
import GlslMinifier.Proofs.Grammar
import GlslMinifier.Proofs.ByteScan
import GlslMinifier.Proofs.Alias.Requests
import GlslMinifier.Proofs.Validation
import GlslMinifier.Proofs.IndexedSurvey
import GlslMinifier.Proofs.Alias.Rendering
import GlslMinifier.Proofs.LineBreak
import GlslMinifier.Proofs.CommandLine
import GlslMinifier.Proofs.Options.RoundTrip
