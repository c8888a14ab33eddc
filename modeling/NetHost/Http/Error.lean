/-!
# Failures of an HTTP request

Each failure is a cause, with a negative status code and a text of its own.
-/

namespace NetHost.Http

/-- Why a request, or one of the steps it is made of, failed. -/
inductive Error where
  /-- The URL, or a percent escape in it, is malformed or too long. -/
  | invalidUrl
  | nameNotResolved
  | connectFailed
  /-- The request was not accepted in full. -/
  | sendFailed
  /-- The connection broke while the response was read. -/
  | receiveFailed
  | timedOut
  /-- A block of memory was refused. -/
  | outOfMemory
  /-- A status line, header line or chunk is malformed. -/
  | malformed
  /-- A fixed limit would be exceeded. -/
  | limitExceeded
  /-- The connection ended before the response was complete. -/
  | incomplete
  | notReady
  /-- A request header would break its line. -/
  | invalidHeader
  deriving DecidableEq, Repr

namespace Error

/-- The status code of a failure; codes are distinct and negative. -/
def code : Error → Int
  | invalidUrl => -1
  | nameNotResolved => -2
  | connectFailed => -3
  | sendFailed => -4
  | receiveFailed => -5
  | timedOut => -6
  | outOfMemory => -7
  | malformed => -8
  | limitExceeded => -9
  | incomplete => -10
  | notReady => -11
  | invalidHeader => -12

def ofCode? (n : Int) : Option Error :=
  [invalidUrl, nameNotResolved, connectFailed, sendFailed, receiveFailed, timedOut, outOfMemory,
    malformed, limitExceeded, incomplete, notReady, invalidHeader].find? (·.code = n)

def message : Error → String
  | invalidUrl => "Invalid URL"
  | nameNotResolved => "DNS resolution failed"
  | connectFailed => "Connection failed"
  | sendFailed => "Send failed"
  | receiveFailed => "Receive failed"
  | timedOut => "Request timed out"
  | outOfMemory => "Out of memory"
  | malformed => "Failed to parse response"
  | limitExceeded => "Buffer overflow"
  | incomplete => "Invalid response from server"
  | notReady => "HTTP client not initialized"
  | invalidHeader => "Invalid header"

theorem ofCode?_code (e : Error) : ofCode? e.code = some e := by cases e <;> decide

end Error

/-- Two attempts one after the other succeed if both do. -/
theorem bind_eq_ok_iff {α β : Type} {x : Except Error α} {f : α → Except Error β} {b : β} :
    x >>= f = .ok b ↔ ∃ a, x = .ok a ∧ f a = .ok b := by
  cases x with
  | error e => simp [bind, Except.bind]
  | ok a => simp [bind, Except.bind]

/-- An attempt behind a check succeeds if the check lets it through and it does. -/
theorem ite_error_eq_ok_iff {α : Type} {c : Prop} [Decidable c] {e : Error} {x : Except Error α}
    {a : α} : (if c then .error e else x) = .ok a ↔ ¬ c ∧ x = .ok a := by
  split <;> simp [*]

/-- The text for a status code; zero is success. -/
def statusText (code : Int) : String :=
  if code = 0 then "Success"
  else match Error.ofCode? code with
    | some e => e.message
    | none => "Unknown error"

end NetHost.Http
