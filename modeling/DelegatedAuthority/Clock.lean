import DelegatedAuthority.AuthorizationError
/-!
Readings of a clock. Its instants are whole nanoseconds from the epoch, before or after.
-/
namespace DelegatedAuthority

/-- The whole seconds from the epoch to an instant. Before the epoch no expiration can be
judged, so such an instant is refused. -/
def timestampAt (nanoseconds : Int) : Except AuthorizationError Timestamp :=
  if nanoseconds < 0 then .error .clockBeforeEpoch
  else .ok (UInt64.ofNat (nanoseconds.toNat / 1000000000))

end DelegatedAuthority
