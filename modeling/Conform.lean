import Conform.Proofs.BoundedIntegers
import Conform.Proofs.Building
import Conform.Proofs.Calls
import Conform.Proofs.Children
import Conform.Proofs.Closing
import Conform.Proofs.Collecting
import Conform.Proofs.Documents
import Conform.Proofs.FirstMember
import Conform.Proofs.Flattening
import Conform.Proofs.Forms
import Conform.Proofs.Loosening
import Conform.Proofs.Messages
import Conform.Proofs.NumericLanguage
import Conform.Proofs.Padding
import Conform.Proofs.Places
import Conform.Proofs.Propagation
import Conform.Proofs.Reordering
import Conform.Proofs.Shuffling
import Conform.Proofs.Straying
import Conform.Proofs.Undefined
import Conform.Proofs.Uniform
import Conform.Proofs.Visible
import Conform.Proofs.Widening
import Conform.Proofs.Wrapping
import Conform.Proofs.WriteOnce
