import Conform.Main
import Conform.Text.Uppercase
import Conform.Workspace
import Conform.Proofs.Arena
import Conform.Proofs.Checking
import Conform.Proofs.Mutating
import Conform.Proofs.Likeness
import Conform.Proofs.Twins
import Conform.Proofs.Forming
import Conform.Proofs.Stateless
import Conform.Proofs.Whole
import Conform.Proofs.Sound
import Conform.Proofs.SoundMutating
import Conform.Proofs.Apart
import Conform.Proofs.Snapshot
import Conform.Proofs.Memory
import Conform.Proofs.Attempts
import Conform.Proofs.Rounds
import Conform.Proofs.Satisfying
import Conform.Proofs.Diagnostics
import Conform.Proofs.Interleaving
import Conform.Proofs.Provenance
import Conform.Proofs.Loading
import Conform.Proofs.Idle
import Conform.Proofs.Visiting
import Conform.Proofs.Leaves
import Conform.Proofs.Complements
import Conform.Proofs.Searching
import Conform.Proofs.Choosing
import Conform.Proofs.Levels
import Conform.Proofs.Keys
import Conform.Proofs.Sampling
import Conform.Proofs.Independence
import Conform.Proofs.InTurn
import Conform.Proofs.Refilling
import Conform.Proofs.Shaping
import Conform.Proofs.Extending
import Conform.Proofs.Constants
import Conform.Proofs.Writing
import Conform.Proofs.Enumerating
import Conform.Proofs.Arranging
import Conform.Proofs.Lawful
import Conform.Proofs.Locating
import Conform.Proofs.Committing
import Conform.Proofs.Fulfilling
import Conform.Proofs.Roundtrip
