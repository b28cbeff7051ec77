import Binson.Proof.Noninterference
import Binson.Proof.Growth
import Binson.Proof.Addressing
import Binson.Proof.Exactness
import Binson.Proof.Framing
import Binson.Proof.ErrorCodes
import Binson.Proof.Phantoms
import Binson.Proof.Composition
import Binson.Proof.NestedFailure
import Binson.Proof.Stride
import Binson.Proof.Termination
import Binson.Proof.Containment
import Binson.Proof.Faithful
import Binson.Proof.Amplification
import Binson.Proof.Program
import Binson.Proof.Decoding
import Binson.Proof.TestSuite
