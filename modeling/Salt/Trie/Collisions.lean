import Salt.Trie.Schemes
import Salt.Trie.Rebuild

namespace Salt

open Std (ExtTreeMap ExtTreeSet)
open Library.Triple Library.ChangeList Library.Entries

section States

variable {w w' : SaltKey → Option SaltValue} {keys : List SaltKey} {capacity : ℕ} {slots : List ℕ}

end States

namespace StateRoot

variable {F C : Type} [CommRing F] [AddCommGroup C] [Module F C] {K : Committer F C} {w w' : SaltKey → Option SaltValue}

end StateRoot

section Gap

open MemStore StateRoot

end Gap

namespace MemStore

open StateRoot

variable {F C : Type} [CommRing F] [AddCommGroup C] [Module F C] {K : Committer F C} {s : MemStore C}
  {u : StateUpdates} {w' : SaltKey → Option SaltValue} {st : StateRoot C} {m m' d d' threads threads' : ℕ} {order order' : TrieUpdates C → TrieUpdates C}
  [DecidableEq C]

end MemStore

end Salt
