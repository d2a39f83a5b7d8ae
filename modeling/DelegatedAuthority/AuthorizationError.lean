import DelegatedAuthority.Ability
import DelegatedAuthority.Timestamp
/-!
Rejections. Each has a kind for programs and a message for people; the checks of this library
name the cause, and failures outside of it are reported with a kind and a text.
-/
namespace DelegatedAuthority

inductive ErrorKind where
  | expired
  | wrongAudience
  | missingCapability
  | wrongResource
  | mismatchedResources
  | invalidSignature
  | parseError
  | notFound
  | fetchError
  | noAuthority
  | depthExceeded
  | notDirect
  | revocationNotAuthorized
  | invocationNotAuthorized
  | internal
  deriving DecidableEq, Repr

namespace ErrorKind

def all : List ErrorKind :=
  [expired, wrongAudience, missingCapability, wrongResource, mismatchedResources,
    invalidSignature, parseError, notFound, fetchError, noAuthority, depthExceeded, notDirect,
    revocationNotAuthorized, invocationNotAuthorized, internal]

def name : ErrorKind → String
  | expired => "Expired"
  | wrongAudience => "WrongAudience"
  | missingCapability => "MissingCapability"
  | wrongResource => "WrongResource"
  | mismatchedResources => "MismatchedResources"
  | invalidSignature => "InvalidSignature"
  | parseError => "ParseError"
  | notFound => "NotFound"
  | fetchError => "FetchError"
  | noAuthority => "NoAuthority"
  | depthExceeded => "DepthExceeded"
  | notDirect => "NotDirect"
  | revocationNotAuthorized => "RevocationNotAuthorized"
  | invocationNotAuthorized => "InvocationNotAuthorized"
  | internal => "Internal"

def ofName? (name : String) : Option ErrorKind :=
  all.find? fun kind => kind.name = name

/-- The words of the name in capitals with underscores between them. -/
def code (kind : ErrorKind) : String :=
  match kind.name.toList with
  | [] => ""
  | first :: rest =>
    String.ofList (first :: rest.flatMap fun c => if c.isUpper then ['_', c] else [c.toUpper])

/-- Whether the same request might succeed later. -/
def isTransient (kind : ErrorKind) : Bool :=
  kind == fetchError

end ErrorKind

inductive AuthorizationError where
  | expired (expiration now : Timestamp)
  | wrongAudience (expected got : Principal)
  | missingCapability (ability : Ability)
  | noCapabilities
  | wrongResource (ability : Ability) (expected got : Resource)
  | mismatchedResources (first other : Resource)
  | noAuthority (issuer root : Principal)
  | depthExceeded (limit : String)
  | erasedByOther (issuer owner : Principal)
  | erasedThroughProofs (count : Nat)
  | revocationNotAuthorized (revoker : Principal)
  | invocationNotAuthorized (invoker issuer : Principal)
  | notFound (block : String)
  | undecodable
  | clockBeforeEpoch
  | reported (kind : ErrorKind) (detail : String)
  deriving DecidableEq, Repr

namespace AuthorizationError

def kind : AuthorizationError → ErrorKind
  | expired .. => .expired
  | wrongAudience .. => .wrongAudience
  | missingCapability .. => .missingCapability
  | noCapabilities => .missingCapability
  | wrongResource .. => .wrongResource
  | mismatchedResources .. => .mismatchedResources
  | noAuthority .. => .noAuthority
  | depthExceeded .. => .depthExceeded
  | erasedByOther .. => .notDirect
  | erasedThroughProofs .. => .notDirect
  | revocationNotAuthorized .. => .revocationNotAuthorized
  | invocationNotAuthorized .. => .invocationNotAuthorized
  | notFound .. => .notFound
  | undecodable => .parseError
  | clockBeforeEpoch => .internal
  | reported kind _ => kind

def message : AuthorizationError → String
  | expired expiration now =>
    "Credential expired at " ++ toString expiration ++ " (now " ++ toString now ++ ")"
  | wrongAudience expected got => "Audience mismatch: expected " ++ expected ++ ", got " ++ got
  | missingCapability ability => "Missing capability: " ++ ability
  | noCapabilities => "Credential grants no capabilities"
  | wrongResource ability expected got =>
    "Capability " ++ ability ++ " is scoped to " ++ got ++ ", expected " ++ expected
  | mismatchedResources first other =>
    "Capabilities name different resources: " ++ first ++ " and " ++ other
  | noAuthority issuer root =>
    "No proof chain from " ++ issuer ++ " traces back to root principal " ++ root
  | depthExceeded limit => "Proof traversal exceeded " ++ limit
  | erasedByOther issuer owner =>
    "Erase credential issued by " ++ issuer ++ ", not by owner " ++ owner
  | erasedThroughProofs count =>
    "Erase credential carries " ++ toString count ++ " proof(s); it must be issued directly"
  | revocationNotAuthorized revoker => revoker ++ " is not upstream of the credential"
  | invocationNotAuthorized invoker issuer =>
    "Invoker " ++ invoker ++ " is not the credential issuer " ++ issuer
  | notFound block => "Block not found: " ++ block
  | undecodable => "Failed to decode delegation"
  | clockBeforeEpoch =>
    "Clock reads before epoch: second time provided was later than self"
  | reported _ detail => detail

def describe (error : AuthorizationError) : String :=
  error.kind.name ++ ": " ++ error.message

end AuthorizationError

end DelegatedAuthority
