import ConfigSyntax.Node.Comment
import ConfigSyntax.Node.Element
import ConfigSyntax.Parse
import ConfigSyntax.Reader.Parse
import ConfigSyntax.Visitor
import ConfigSyntax.Proofs.Acceptance
import ConfigSyntax.Proofs.Accessors
import ConfigSyntax.Proofs.Alone.Parse
import ConfigSyntax.Proofs.Anomalies
import ConfigSyntax.Proofs.Balance
import ConfigSyntax.Proofs.Blanks
import ConfigSyntax.Proofs.Comments.Parse
import ConfigSyntax.Proofs.Depth
import ConfigSyntax.Proofs.Flattening
import ConfigSyntax.Proofs.Join.Parse
import ConfigSyntax.Proofs.Limited.Diagnostics
import ConfigSyntax.Proofs.Lossless
import ConfigSyntax.Proofs.Missing
import ConfigSyntax.Proofs.Numbers
import ConfigSyntax.Proofs.Positions
import ConfigSyntax.Proofs.Reader.Frame
import ConfigSyntax.Proofs.Reader.Loops
import ConfigSyntax.Proofs.Reader.Parse
import ConfigSyntax.Proofs.Recovery.Log
import ConfigSyntax.Proofs.Recovery.Parse
import ConfigSyntax.Proofs.Skips
import ConfigSyntax.Proofs.Spans
import ConfigSyntax.Proofs.Strings.Decoding
import ConfigSyntax.Proofs.Targets
import ConfigSyntax.Proofs.Trivia.Runs
import ConfigSyntax.Proofs.Truncated.Diagnostics
import ConfigSyntax.Proofs.Unlimited
import ConfigSyntax.Proofs.Visits
