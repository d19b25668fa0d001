import Salt.Trie.Schemes

namespace Salt

open Std (ExtTreeMap ExtTreeSet)
open Library.Triple Library.ChangeList Library.Entries

variable {F C : Type} [CommRing F] [AddCommGroup C] [Module F C] [DecidableEq C]

variable {K : Committer F C} {s : MemStore C} {st st' : StateRoot C} {u : StateUpdates} {batches : List StateUpdates}
  {m m' d d' threads threads' : ℕ} {order order' : TrieUpdates C → TrieUpdates C}

namespace MemStore

open StateRoot

end MemStore

end Salt
