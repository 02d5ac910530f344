/-!
# Offsets

A partition numbers its messages by offset, a signed 64-bit number. The counter that hands the
offsets out wraps around: what it holds is always the 64-bit number that agrees with the true sum
modulo 2^64 (`Offset.wrap`). Inside the signed range nothing wraps (`Offset.wrap_eq_self`).
-/
namespace LogBroker

/-- A position in a partition's log. -/
abbrev Offset := Int

namespace Offset

/-- The signed 64-bit number that agrees with `n` modulo 2^64. -/
def wrap (n : Int) : Offset := n.bmod UInt64.size

theorem wrap_eq_self {n : Int} (low : -0x8000000000000000 ≤ n) (high : n < 0x8000000000000000) :
    wrap n = n :=
  Int.bmod_eq_of_le (by simp; omega) (by simp; omega)

end Offset

/-- A run of offsets: the first, and the one past the last. A range that came from a counter
moving backwards stops before it starts and holds no offset. -/
structure OffsetRange where
  first : Offset
  stop : Offset
  deriving DecidableEq, Repr

namespace OffsetRange

/-- How a range is written: both ends, with two dots between. -/
def text (r : OffsetRange) : String := toString r.first ++ ".." ++ toString r.stop

end OffsetRange
end LogBroker
