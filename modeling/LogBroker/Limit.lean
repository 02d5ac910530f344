/-!
# Limits

A cap on how many messages may be returned. A limit is either a number or absent; each batch of
messages uses a part of it up, and what is left caps the next batch.
-/
namespace LogBroker

/-- A cap on a number of messages; `none` sets no cap. -/
abbrev Limit := Option Nat

namespace Limit

/-- How many of `available` messages the limit lets through. -/
def clip : Limit → Nat → Nat
  | none, available => available
  | some cap, available => min cap available

/-- What is left of the limit after `used` messages. -/
def after : Limit → Nat → Limit
  | none, _ => none
  | some cap, used => some (cap - used)

/-- A limit that lets nothing through. -/
def spent (limit : Limit) : Prop := limit = some 0

instance (limit : Limit) : Decidable limit.spent := inferInstanceAs (Decidable (limit = some 0))

end Limit
end LogBroker
