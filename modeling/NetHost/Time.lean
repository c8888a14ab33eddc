import NetHost.Saturating

/-!
# Instants and deadlines

Instants are milliseconds on a 64-bit clock.  Differences stop at zero and sums at the last
instant, so a clock near the end of its range never turns a deadline into the past.

A piece of work that looks at the clock more than once is given a `Clock`, which has all that it
will read.
-/

namespace NetHost

/-- A reading of the clock, in milliseconds from an arbitrary fixed point. -/
abbrev Instant := UInt64

/-- The instant at which an operation has run out of time. -/
structure Deadline where
  expiresAt : Instant
  deriving DecidableEq, Repr

namespace Deadline

/-- The deadline `timeout` milliseconds from `now`. -/
def after (now : Instant) (timeout : UInt32) : Deadline :=
  ⟨Saturating.add64 now timeout.toUInt64⟩

def remaining (d : Deadline) (now : Instant) : UInt32 :=
  Saturating.clamp32 (Saturating.sub64 d.expiresAt now)

def isExpired (d : Deadline) (now : Instant) : Bool := d.expiresAt ≤ now

end Deadline

/-- What the clock reads, one reading after the other. -/
structure Clock where
  reading : Nat → Instant

namespace Clock

def now (t : Clock) : Instant := t.reading 0

def later (t : Clock) : Clock := ⟨fun n => t.reading (n + 1)⟩

def still (now : Instant) : Clock := ⟨fun _ => now⟩

instance : Coe Instant Clock := ⟨still⟩

end Clock

end NetHost
