import DelegatedAuthority.Ability
import DelegatedAuthority.AbilityTable
import DelegatedAuthority.AbilityTable.Json
import DelegatedAuthority.AuthorizationError
import DelegatedAuthority.Authorizer
import DelegatedAuthority.BlockStore
import DelegatedAuthority.Bytes
import DelegatedAuthority.Bytes.Base32
import DelegatedAuthority.Bytes.Base58
import DelegatedAuthority.Bytes.Sha256
import DelegatedAuthority.Bytes.Varint
import DelegatedAuthority.Capability
import DelegatedAuthority.Capability.Json
import DelegatedAuthority.Cbor.Head
import DelegatedAuthority.Cbor.Map
import DelegatedAuthority.Cbor.Reader
import DelegatedAuthority.Cbor.Writer
import DelegatedAuthority.Chain
import DelegatedAuthority.Cid
import DelegatedAuthority.Clock
import DelegatedAuthority.Config
import DelegatedAuthority.Config.Json
import DelegatedAuthority.Decision
import DelegatedAuthority.Delegation
import DelegatedAuthority.Delegation.Block
import DelegatedAuthority.Delegation.Checks
import DelegatedAuthority.Faults
import DelegatedAuthority.Fields
import DelegatedAuthority.Json.Reader
import DelegatedAuthority.Json.Record
import DelegatedAuthority.Json.Value
import DelegatedAuthority.Json.Writer
import DelegatedAuthority.Limits
import DelegatedAuthority.Proofs.Abilities
import DelegatedAuthority.Proofs.Agreement
import DelegatedAuthority.Proofs.Authority
import DelegatedAuthority.Proofs.BlockGrammar
import DelegatedAuthority.Proofs.BlockReading
import DelegatedAuthority.Proofs.Blocks
import DelegatedAuthority.Proofs.Bounds
import DelegatedAuthority.Proofs.ByteOrder
import DelegatedAuthority.Proofs.Chains
import DelegatedAuthority.Proofs.Checks
import DelegatedAuthority.Proofs.Coalitions
import DelegatedAuthority.Proofs.Completeness
import DelegatedAuthority.Proofs.ConfigTexts
import DelegatedAuthority.Proofs.Confinement
import DelegatedAuthority.Proofs.Depths
import DelegatedAuthority.Proofs.Descent
import DelegatedAuthority.Proofs.DirectOnly
import DelegatedAuthority.Proofs.Firsthand
import DelegatedAuthority.Proofs.Grants
import DelegatedAuthority.Proofs.Hierarchy
import DelegatedAuthority.Proofs.Items
import DelegatedAuthority.Proofs.JsonGrammar
import DelegatedAuthority.Proofs.JsonReading
import DelegatedAuthority.Proofs.JsonWriting
import DelegatedAuthority.Proofs.Lines
import DelegatedAuthority.Proofs.Listings
import DelegatedAuthority.Proofs.Locality
import DelegatedAuthority.Proofs.Lockstep
import DelegatedAuthority.Proofs.Narrowing
import DelegatedAuthority.Proofs.Occurrences
import DelegatedAuthority.Proofs.Orders
import DelegatedAuthority.Proofs.Path
import DelegatedAuthority.Proofs.Places
import DelegatedAuthority.Proofs.Precedence
import DelegatedAuthority.Proofs.Reachability
import DelegatedAuthority.Proofs.Readings
import DelegatedAuthority.Proofs.Records
import DelegatedAuthority.Proofs.Rejections
import DelegatedAuthority.Proofs.Run
import DelegatedAuthority.Proofs.Segments
import DelegatedAuthority.Proofs.Spellings
import DelegatedAuthority.Proofs.Stability
import DelegatedAuthority.Proofs.Standing
import DelegatedAuthority.Proofs.TableTexts
import DelegatedAuthority.Proofs.Updates
import DelegatedAuthority.Proofs.Validation
import DelegatedAuthority.Proofs.Views
import DelegatedAuthority.Proofs.Writes
import DelegatedAuthority.Resolver
import DelegatedAuthority.Revocation
import DelegatedAuthority.Search
import DelegatedAuthority.Timestamp
