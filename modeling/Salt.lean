import Salt.State.Transitions
import Salt.State.Usage
import Salt.State.Termination
import Salt.State.Compaction
import Salt.Trie.Deltas
import Salt.Banderwagon.MulIndex
import Salt.Banderwagon.MontgomeryKernels
import Salt.Multipoint.Interpolation
import Salt.Multipoint.MultiproofComplete
import Salt.Proof.SlotHash
import Salt.Proof.PartialState
import Salt.Proof.HonestQueries
import Salt.Proof.SerdeProofs
import Salt.Proof.WitnessCreate
import Salt.Trie.Contraction
import Salt.Proof.Addressing
import Salt.Multipoint.Threads
import Salt.Banderwagon.MixedAddition
import Salt.Trie.Rebuild
import Salt.Trie.Reports
import Salt.Trie.Splits
import Salt.Trie.Collisions
