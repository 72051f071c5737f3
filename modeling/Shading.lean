import Shading.Main
import Shading.Proofs.SingleAssignment
import Shading.Proofs.Layout
import Shading.Proofs.Elaboration.Trees
import Shading.Proofs.Safety.Overlong
import Shading.Proofs.Acceptance
import Shading.Proofs.Construction.Decoding
import Shading.Proofs.Incremental.Wrapping
import Shading.Proofs.Renaming.Compiling
import Shading.Proofs.Pools
import Shading.Proofs.Interfaces.Exactness
import Shading.Proofs.ShaderCache.Ownership
import Shading.Proofs.Lexing.Spacing
import Shading.Proofs.Scoping
import Shading.Proofs.Safety.Lexical
import Shading.Proofs.Lexing.Peeking
import Shading.Proofs.Attributes
import Shading.Proofs.Listing
import Shading.Proofs.Identification
import Shading.Proofs.Safety.Context
import Shading.Proofs.Limits.Budget
import Shading.Proofs.Lexing.Integers
import Shading.Proofs.Outputs
import Shading.Proofs.Safety.Truncation
