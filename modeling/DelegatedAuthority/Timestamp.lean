/-!
Times in whole seconds since the epoch.
-/
namespace DelegatedAuthority

abbrev Timestamp := UInt64

/-- Whether an expiration is set and lies before `now`. The second it names is still valid. -/
def isExpired (expiration : Option Timestamp) (now : Timestamp) : Bool :=
  match expiration with
  | some last => last < now
  | none => false

end DelegatedAuthority
