import SectionCompiler.Main
import SectionCompiler.Proofs.Flat
import SectionCompiler.Proofs.RoundTrip
import SectionCompiler.Proofs.Soundness
import SectionCompiler.Proofs.Accounting
import SectionCompiler.Proofs.Collision
import SectionCompiler.Proofs.Depth
import SectionCompiler.Proofs.Filling
import SectionCompiler.Proofs.Marking
import SectionCompiler.Proofs.Locality
import SectionCompiler.Proofs.Accesses
import SectionCompiler.Proofs.Rereading
import SectionCompiler.Proofs.Anchoring
import SectionCompiler.Proofs.Walks
import SectionCompiler.Proofs.Coverage
import SectionCompiler.Proofs.Rebuilding
import SectionCompiler.Proofs.Leftover
import SectionCompiler.Proofs.Canonical
import SectionCompiler.Proofs.Comment
import SectionCompiler.Proofs.Lockstep
import SectionCompiler.Proofs.Tables
import SectionCompiler.Proofs.Blocks
import SectionCompiler.Proofs.Origins
import SectionCompiler.Proofs.Loading
import SectionCompiler.Proofs.Banner
import SectionCompiler.Proofs.Naming
import SectionCompiler.Proofs.Nearest
import SectionCompiler.Proofs.Registration
import SectionCompiler.Proofs.Rehearsal
import SectionCompiler.Proofs.Reporting
import SectionCompiler.Proofs.Headings
import SectionCompiler.Proofs.Difference
import SectionCompiler.Proofs.Listing
