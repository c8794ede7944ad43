import ShaderExpr.Main
import ShaderExpr.Proofs.Build.Attains
import ShaderExpr.Proofs.Build.Constants
import ShaderExpr.Proofs.Build.Conversion
import ShaderExpr.Proofs.Build.Growth
import ShaderExpr.Proofs.Build.Modules
import ShaderExpr.Proofs.Build.Operations
import ShaderExpr.Proofs.Build.Operators
import ShaderExpr.Proofs.Build.Steps
import ShaderExpr.Proofs.Build.Types
import ShaderExpr.Proofs.Build.Variables
import ShaderExpr.Proofs.Constructors.Components
import ShaderExpr.Proofs.DebugNames.Programs
import ShaderExpr.Proofs.Expr.Checked
import ShaderExpr.Proofs.Expr.Constness
import ShaderExpr.Proofs.Expr.Typing
import ShaderExpr.Proofs.Faults.Programs
import ShaderExpr.Proofs.Grammar.Declarations
import ShaderExpr.Proofs.Grammar.Exactness
import ShaderExpr.Proofs.Grammar.Following
import ShaderExpr.Proofs.Grammar.Resolution
import ShaderExpr.Proofs.Grammar.Scoping
import ShaderExpr.Proofs.Grammar.Soundness
import ShaderExpr.Proofs.Interning.Denotation
import ShaderExpr.Proofs.Interning.Requests
import ShaderExpr.Proofs.Layout.Programs
import ShaderExpr.Proofs.Lexing.Integers
import ShaderExpr.Proofs.Lexing.Tiling
import ShaderExpr.Proofs.Module.Monotone
import ShaderExpr.Proofs.Printing.Constants
import ShaderExpr.Proofs.Printing.Derived
import ShaderExpr.Proofs.Printing.Identifiers
import ShaderExpr.Proofs.Printing.Literals
import ShaderExpr.Proofs.Printing.Rendering
import ShaderExpr.Proofs.Printing.RoundTrip
import ShaderExpr.Proofs.Printing.Values
import ShaderExpr.Proofs.Reading.References
import ShaderExpr.Proofs.Reading.Totality
import ShaderExpr.Proofs.Running.Lanes
import ShaderExpr.Proofs.Running.Programs
import ShaderExpr.Proofs.Source.Slices
import ShaderExpr.Proofs.Stores.Lens
import ShaderExpr.Proofs.Stores.Programs
import ShaderExpr.Proofs.Value.Components
import ShaderExpr.Proofs.Value.Integers
import ShaderExpr.Proofs.Value.Parts
import ShaderExpr.Proofs.Value.Products
import ShaderExpr.Proofs.Value.Shapes
