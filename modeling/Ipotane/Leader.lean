import Ipotane.Aggregator

/-! The leader schedule (`consensus/src/leader.rs`). The random coins, the one part of the
elector that changes, are kept in the state of the core. -/
namespace Ipotane

namespace Committee

variable (c : Committee)

def getLeaderIdx (height : ℕ) : ℕ := height % c.sortedNames.length

/-- The names are indexed modulo their number, so every position is inside. -/
def getLeaders (window : ℕ) (height : ℕ) : List PublicKey :=
  let start := c.getLeaderIdx height
  let n := c.sortedNames.length
  (List.range' start window).filterMap fun i => c.sortedNames[(i + n) % n]?

/-- The index of a name of the committee; `None` outside the window. -/
def indexAsLeader (window : ℕ) (name : PublicKey) (height : ℕ) : Option ℕ :=
  let n := c.sortedNames.length
  let idx := (c.sortedNames.idxOf name + n - c.getLeaderIdx height) % n
  if idx < window then some idx else none

end Committee

end Ipotane
