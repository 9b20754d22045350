import Iu9Db.Basic

/-!
# `VersionNumberGenerator`

The counter that a master takes the versions of its writes from. `generate` is a `fetch_add` on a
`uint64_t` and wraps around.
-/

namespace Iu9Db

structure VersionNumberGenerator where
  current : UInt64
deriving DecidableEq, Repr

namespace VersionNumberGenerator

/-- `Generate`. -/
def generate (g : VersionNumberGenerator) : UInt64 × VersionNumberGenerator := (g.current, ⟨g.current + 1⟩)

/-- `UpdateMaxVersion`, when no other thread touches the counter in between. -/
def updateMaxVersion (version : UInt64) (g : VersionNumberGenerator) : VersionNumberGenerator :=
  if g.current > version then g else ⟨version⟩

theorem le_updateMaxVersion (version : UInt64) (g : VersionNumberGenerator) :
    g.current ≤ (g.updateMaxVersion version).current := by
  unfold updateMaxVersion
  split
  · exact le_rfl
  · rename_i h; exact not_lt.1 h

/-- The counter reaches every version that it has seen. -/
theorem version_le_updateMaxVersion (version : UInt64) (g : VersionNumberGenerator) :
    version ≤ (g.updateMaxVersion version).current := by
  unfold updateMaxVersion
  split
  · rename_i h; exact le_of_lt h
  · exact le_rfl

end VersionNumberGenerator

end Iu9Db
