import LuaSugar.Main
import LuaSugar.Proofs.Desugar.Descriptors
import LuaSugar.Proofs.Desugar.Ending
import LuaSugar.Proofs.Desugar.Imported
import LuaSugar.Proofs.Desugar.InPlace
import LuaSugar.Proofs.Desugar.Lines
import LuaSugar.Proofs.Desugar.Pairing
import LuaSugar.Proofs.Desugar.Scope
import LuaSugar.Proofs.Parser.Advancing
import LuaSugar.Proofs.Pass.Observing
import LuaSugar.Proofs.Pass.Visits
import LuaSugar.Proofs.Project.Bundled
import LuaSugar.Proofs.Project.Accounted
import LuaSugar.Proofs.Project.Followed
import LuaSugar.Proofs.Project.Outputs
import LuaSugar.Proofs.Project.Constructor
import LuaSugar.Proofs.Project.InOrder
import LuaSugar.Proofs.Project.References
import LuaSugar.Proofs.Project.Refused
import LuaSugar.Proofs.Project.Rooted
import LuaSugar.Proofs.Render.Sameness
import LuaSugar.Proofs.RoundTrip.Precedence
import LuaSugar.Proofs.RoundTrip.Strict
import LuaSugar.Proofs.RoundTrip.Values
import LuaSugar.Proofs.Syntax.Relocated
import LuaSugar.Proofs.Token.Apart
import LuaSugar.Proofs.Token.Lines
import LuaSugar.Proofs.Token.Quoted
import LuaSugar.Proofs.Token.Bytewise
