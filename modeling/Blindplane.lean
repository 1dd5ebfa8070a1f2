import Blindplane.Lib.Bytes
import Blindplane.Lib.Utf8
import Blindplane.Lib.Checked
import Blindplane.Lib.Process
import Blindplane.Lib.KeyedSort
import Blindplane.Lib.Grammar
import Blindplane.Lib.Machine
import Blindplane.Lib.HashChain
import Blindplane.Lib.InvertedIndex
import Blindplane.Lib.Register
import Blindplane.Lib.TwistedEdwards
import Blindplane.Lib.DifferentialAddition
import Blindplane.Lib.Primality
import Blindplane.Lib.Blocks
import Blindplane.Lib.Keystream
import Blindplane.Lib.Words
import Blindplane.Lib.LittleEndian
import Blindplane.Lib.Simd
import Blindplane.Lib.CarryLess
import Blindplane.Lib.LimbArithmetic
import Blindplane.Lib.SignedDigits
import Blindplane.Lib.BlockHash
import Blindplane.Lib.Mac
import Blindplane.Lib.Slice
import Blindplane.Lib.ForkJoin
import Blindplane.Lib.Windows
import Blindplane.Lib.Text
import Blindplane.Crypto.Suite
import Blindplane.Crypto.Choice
import Blindplane.Crypto.Clamp
import Blindplane.Crypto.Curve25519
import Blindplane.Crypto.Field.Limbs
import Blindplane.Crypto.Field.Element
import Blindplane.Crypto.Field.Encoding
import Blindplane.Crypto.Field.Reachable
import Blindplane.Crypto.Scalar.Reduce
import Blindplane.Crypto.Scalar.Element
import Blindplane.Crypto.Scalar.Digits
import Blindplane.Crypto.Edwards.Point
import Blindplane.Crypto.Edwards.Encoding
import Blindplane.Crypto.Edwards.ScalarMul
import Blindplane.Crypto.Edwards.Vartime
import Blindplane.Crypto.Edwards.Representation
import Blindplane.Crypto.Edwards.Keys
import Blindplane.Crypto.Poly1305
import Blindplane.Crypto.ChaCha.Rounds
import Blindplane.Crypto.ChaCha.Portable
import Blindplane.Crypto.ChaCha.Neon
import Blindplane.Crypto.Aes.Cipher
import Blindplane.Crypto.Aes.Ghash
import Blindplane.Crypto.Aes.SealOpen
import Blindplane.Crypto.Aead.ChaCha20Poly1305
import Blindplane.Crypto.Sha2.Compress
import Blindplane.Crypto.Sha2.Instructions
import Blindplane.Crypto.Sha2.Sha256Arm
import Blindplane.Crypto.Sha2.Sha512Arm
import Blindplane.Crypto.Sha2.Hash
import Blindplane.Crypto.Argon2.Blake2b
import Blindplane.Crypto.Argon2.Rfc7693
import Blindplane.Crypto.Argon2.BlockMix
import Blindplane.Crypto.Argon2.Fill
import Blindplane.Crypto.Argon2.Window
import Blindplane.Crypto.Argon2.Argon2id
import Blindplane.Crypto.Kdf
import Blindplane.Crypto.Hkdf
import Blindplane.Crypto.Hmac
import Blindplane.Crypto.Client
import Blindplane.Crypto.Rand
import Blindplane.Crypto.Aead.Suites
import Blindplane.Crypto.Simple.Key
import Blindplane.Crypto.Simple.Password
import Blindplane.Crypto.Hpke
import Blindplane.Crypto.Recording
import Blindplane.Crypto.Montgomery
import Blindplane.Crypto.Encapsulation
import Blindplane.Crypto.Rfc9180
import Blindplane.Crypto.KeyAgreement
import Blindplane.Crypto.Provided
import Blindplane.Wire.Context
import Blindplane.Wire.Record
import Blindplane.Wire.Limits
import Blindplane.Wire.Encode
import Blindplane.Wire.Layout
import Blindplane.Wire.Size
import Blindplane.Wire.Canonical
import Blindplane.Wire.Acceptance
import Blindplane.Wire.Truncation
import Blindplane.Wire.Injective
import Blindplane.Wire.Head
import Blindplane.Wire.Fork
import Blindplane.Relay.Store
import Blindplane.Relay.Consistency
import Blindplane.Relay.Convergence
import Blindplane.Relay.Server
import Blindplane.Relay.Sequential
import Blindplane.Relay.Concurrent
import Blindplane.Relay.Space
import Blindplane.Core.Identity
import Blindplane.Core.Derive
import Blindplane.Core.Transcripts
import Blindplane.Core.Sealing
import Blindplane.Core.Produced
import Blindplane.Core.Lineage
import Blindplane.Core.Admission
import Blindplane.Core.Batch
import Blindplane.Core.Access
import Blindplane.Core.Pinned
import Blindplane.Core.Assembled
import Blindplane.Core.Reader
import Blindplane.Core.Filing
import Blindplane.Core.Machines
import Blindplane.Core.Vault
import Blindplane.Blazingly.Codec
import Blindplane.Blazingly.Hex
import Blindplane.Blazingly.Routes
import Blindplane.Blazingly.History
import Blindplane.Blazingly.Plugin
import Blindplane.Blazingly.Offers
import Blindplane.Blazingly.Restore
import Blindplane.Blazingly.Delivery
import Blindplane.Blazingly.Lookup
import Blindplane.Blazingly.Tenants
import Blindplane.Axum.Adapter
import Blindplane.Axum.Neutral
import Blindplane.Axum.Handlers
import Blindplane.Lib.Unwinding
import Blindplane.Lib.Front
