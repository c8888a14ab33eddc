/-!
# Settings of a ping session
-/

namespace NetHost.Icmp.Ping

structure Config where
  /-- How many echoes a blocking session sends; zero stands for the default. -/
  count : UInt32 := 4
  /-- Milliseconds each echo is waited for; zero stands for the default. -/
  timeout : UInt32 := 1000
  /-- Milliseconds from one echo to the next. -/
  interval : UInt32 := 1000
  payloadSize : UInt16 := 56
  /-- Milliseconds a blocking session sleeps between two looks; zero stands for the default. -/
  pollInterval : UInt32 := 1
  deriving DecidableEq, Repr

namespace Config

/-- One short echo, to see whether a host is there. -/
def quick : Config := { count := 1, timeout := 2000, interval := 0, payloadSize := 32 }

/-- A longer run, to see how a flaky link behaves. -/
def thorough : Config := { count := 10, timeout := 5000 }

/-- The settings with the defaults in place of zeros. -/
def normalized (c : Config) : Config :=
  { c with
    count := if c.count = 0 then 4 else c.count
    timeout := if c.timeout = 0 then 1000 else c.timeout
    pollInterval := if c.pollInterval = 0 then 1 else c.pollInterval }

theorem normalized_normalized (c : Config) : c.normalized.normalized = c.normalized := by
  simp only [normalized]
  congr 1 <;> split <;> simp_all

end Config

end NetHost.Icmp.Ping
