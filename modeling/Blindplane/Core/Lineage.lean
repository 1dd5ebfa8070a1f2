import Blindplane.Core.Produced
import Blindplane.Crypto.Recording
import Blindplane.Relay.Sequential

/-! # Lineages of one author

A lineage begins with one seal and goes on with any sequence of grants and rekeys, each
from the record before it. Three components look at its records by rules of their own:
the validator, a client's freshness head and a relay's store. None of them ever refuses
one.
-/

namespace Blindplane.Core

open Lib Lib.Utf8 Lib.Checked Crypto Wire Relay

/-- What an author seals first. -/
structure Origin [ClientPrimitives] where
  context : RecordContext
  plaintext : Bytes
  recipients : List Recipient
  indexes : List BlindIndex
  suite : Suite

/-- The identity that a lineage has in a store. -/
def Origin.key [ClientPrimitives] (origin : Origin) : RecordKey where
  tenant := origin.context.tenant
  objectId := origin.context.objectId
  field := origin.context.field

/-- How an author carries on a record. -/
inductive Continuation [ClientPrimitives] where
  | grant (granting : RecipientKeypair) (recipient : Recipient)
  | rekey (opening : RecipientKeypair) (context : RecordContext) (recipients : List Recipient)
      (indexes : List BlindIndex)

section Lineages

variable [ClientPrimitives]

section Calls

variable [Features]

def Origin.begin (origin : Origin) (author : Author) : Process Entropy CryptoError SealedRecord :=
  Core.seal author origin.context origin.plaintext origin.recipients origin.indexes origin.suite

def Continuation.carryOn (author : Author) (record : SealedRecord) :
    Continuation → Process Entropy CryptoError SealedRecord
  | .grant granting recipient => grantRecipient record granting author recipient
  | .rekey opening context recipients indexes =>
      Core.rekey record opening author context recipients indexes

/-- The records an author made by successful calls, and the calls that carried on the
    first one, both newest first. Each call draws from whatever entropy it finds. -/
inductive Lineage (author : Author) (origin : Origin) :
    List Continuation → List SealedRecord → Prop
  | sealed {source rest : Entropy} {record : SealedRecord}
      (done : origin.begin author source = .ok (record, rest)) : Lineage author origin [] [record]
  | carriedOn {calls : List Continuation} {record : SealedRecord} {older : List SealedRecord}
      {call : Continuation} {source rest : Entropy} {next : SealedRecord}
      (before : Lineage author origin calls (record :: older))
      (done : call.carryOn author record source = .ok (next, rest)) :
      Lineage author origin (call :: calls) (next :: record :: older)

theorem Continuation.issued {author : Author} {record next : SealedRecord} {call : Continuation}
    {source rest : Entropy} (done : call.carryOn author record source = .ok (next, rest)) :
    Issued author next := by
  cases call with
  | grant granting recipient => exact (grantRecipient_ok done).issued
  | rekey opening context recipients indexes => exact (rekey_ok done).issued

theorem Continuation.succeeds {author : Author} {record next : SealedRecord} {call : Continuation}
    {source rest : Entropy} (done : call.carryOn author record source = .ok (next, rest)) :
    Succeeds record next := by
  cases call with
  | grant granting recipient => exact (grantRecipient_ok done).succeeds
  | rekey opening context recipients indexes => exact (rekey_ok done).succeeds

namespace Lineage

variable {author : Author} {origin : Origin} {calls : List Continuation} {records : List SealedRecord}

theorem issued (lineage : Lineage author origin calls records) :
    ∀ record ∈ records, Issued author record := by
  induction lineage with
  | sealed done => exact List.forall_mem_singleton.mpr (seal_ok done).issued
  | carriedOn before done ih => exact List.forall_mem_cons.mpr ⟨Continuation.issued done, ih⟩

/-- Each record of a lineage carries on the one before it. -/
theorem chained (lineage : Lineage author origin calls records) :
    records.IsChain fun next previous => Succeeds previous next := by
  induction lineage with
  | sealed done => exact List.IsChain.singleton _
  | carriedOn before done ih => exact List.isChain_cons_cons.mpr ⟨Continuation.succeeds done, ih⟩

end Lineage

end Calls

omit [ClientPrimitives] in
/-- The default limits leave room for every length prefix of the encoding. -/
theorem prefixesFit {signer : Vector UInt8 32} {record : SealedRecord}
    (within : WithinLimits (policyFor signer) record) : PrefixesFit (policyFor signer) record := by
  have identifier : (policyFor signer).maxIdentifierBytes.toNat = 255 := rfl
  have limit : max (policyFor signer).maxCiphertextBytes.toNat 4096 = 8388608 := rfl
  have short : ∀ value, LabelWithin (policyFor signer).maxIdentifierBytes value →
      (asBytes value).length ≤ max (policyFor signer).maxCiphertextBytes.toNat 4096 :=
    fun value label => label.2.trans (by rw [identifier, limit]; decide)
  constructor
  · have tenant := within.context.tenant.2
    have objectId := within.context.objectId.2
    have field := within.context.field.2
    rw [RecordContext.canonicalBytes_length, limit]
    omega
  · exact fun envelope member => short _ (within.envelopes envelope member).recipientId
  · exact fun index member => short _ (within.indexes index member).label
  · exact fun index member => short _ (within.indexes index member).canonicalizerId

theorem Issued.decodes {author : Author} {record : SealedRecord} (issued : Issued author record)
    (verifies : author.Verifies) :
    SealedRecord.decode record.encode (policyFor author.publicKey) = .ok record := by
  have valid := validate_eq_ok.mp (issued.validates verifies)
  exact decode_eq_ok.mpr ⟨rfl, validateStructure_eq_ok.mpr ⟨valid.1, valid.2.1⟩,
    issued.within.recordFits.mpr (prefixesFit issued.within)⟩

/-- A head that stands at the previous record advances to the next one, and a relay that
    holds the previous record replaces it by the encoding of the next one. -/
structure AcceptedAfter (policy : ValidationPolicy) (next previous : SealedRecord) : Prop where
  head : (FreshnessHead.fromValidated previous).advance next policy =
    (.ok (), FreshnessHead.fromValidated next)
  relay : ∀ store : StoreInner, store.records[RecordKey.of previous]? = some previous →
    ∃ receipt, putEncoded policy store (RecordKey.of previous) next.encode =
      (.ok receipt, store.replace (RecordKey.of previous) next)

namespace Succeeds

variable {previous next : SealedRecord}

theorem advances (succeeds : Succeeds previous next) {policy : ValidationPolicy}
    (valid : next.validate policy = .ok ()) :
    (FreshnessHead.fromValidated previous).advance next policy =
      (.ok (), FreshnessHead.fromValidated next) := by
  have bound := next.manifestRevision.toNat_lt
  have below : previous.manifestRevision ≠ maxRevision := by
    intro exhausted
    have counted := succeeds.revision
    rw [exhausted] at counted
    have largest : maxRevision.toNat = 2 ^ 64 - 1 := by decide
    omega
  have successor : next.manifestRevision = saturatingAdd previous.manifestRevision 1 := by
    rw [← UInt64.toNat_inj, succeeds.revision, saturatingAdd_one_of_lt below]
  rcases FreshnessHead.advance_cases (.fromValidated previous) next policy with
    ⟨-, -, -, advanced⟩ | ⟨refused, -⟩
  · exact advanced
  · have continues : (FreshnessHead.fromValidated previous).Extends next :=
      { identity := ⟨succeeds.tenant.symm, succeeds.objectId.symm, succeeds.field.symm⟩
        signer := succeeds.signer.symm
        linked := succeeds.linked
        version := succeeds.version
        epoch := succeeds.epoch }
    exact absurd ⟨valid, continues, successor⟩ refused

theorem rank_lt (succeeds : Succeeds previous next) : rank previous < rank next := by
  rw [rank_lt_iff]
  rcases UInt64.lt_or_eq_of_le succeeds.version with newer | same
  · exact .inl newer
  · refine .inr ⟨same, UInt64.lt_iff_toNat_lt.mpr ?_⟩
    rw [succeeds.revision]
    exact Nat.lt_succ_self _

theorem key (succeeds : Succeeds previous next) : RecordKey.of next = RecordKey.of previous := by
  simp only [RecordKey.of, succeeds.tenant, succeeds.objectId, succeeds.field]

theorem stored (succeeds : Succeeds previous next) {policy : ValidationPolicy}
    (valid : next.validate policy = .ok ())
    (decodes : SealedRecord.decode next.encode policy = .ok next) {store : StoreInner}
    (held : store.records[RecordKey.of previous]? = some previous) :
    ∃ receipt, putEncoded policy store (RecordKey.of previous) next.encode =
      (.ok receipt, store.replace (RecordKey.of previous) next) := by
  rcases putEncoded_cases policy store (RecordKey.of previous) next.encode with
    ⟨record, receipt, eligible, -, written⟩ | ⟨refused, -⟩
  · obtain rfl := Except.ok.inj (decodes.symm.trans eligible.decodes)
    exact ⟨receipt, written⟩
  · refine absurd ⟨next, ⟨decodes, valid, succeeds.key⟩, fun other there => ?_⟩ refused
    obtain rfl := Option.some.inj (held.symm.trans there)
    exact succeeds.rank_lt

end Succeeds

variable [Features]

namespace Lineage

variable {author : Author} {origin : Origin} {calls : List Continuation} {records : List SealedRecord}

theorem key (lineage : Lineage author origin calls records) :
    ∀ record ∈ records, RecordKey.of record = origin.key := by
  induction lineage with
  | sealed done =>
      refine List.forall_mem_singleton.mpr ?_
      rw [RecordKey.of, (seal_ok done).context]
      rfl
  | carriedOn before done ih =>
      refine List.forall_mem_cons.mpr ⟨?_, ih⟩
      rw [(Continuation.succeeds done).key]
      exact ih _ List.mem_cons_self

/-- Along a lineage every record outranks all older ones. -/
theorem ranked (lineage : Lineage author origin calls records) :
    records.Pairwise fun next previous => rank previous < rank next := by
  have linked : records.IsChain fun next previous => rank previous < rank next :=
    lineage.chained.imp fun _ _ succeeds => succeeds.rank_lt
  have trans : IsTrans SealedRecord fun next previous => rank previous < rank next :=
    ⟨fun _ _ _ first second => second.trans first⟩
  exact List.isChain_iff_pairwise.mp linked

/-- A lineage was a lineage before its newest records were made. -/
theorem before {newer older : List SealedRecord} {record : SealedRecord}
    (lineage : Lineage author origin calls (newer ++ record :: older)) :
    Lineage author origin (calls.drop newer.length) (record :: older) := by
  induction newer generalizing calls with
  | nil => exact lineage
  | cons last newer ih =>
      generalize made : last :: newer ++ record :: older = all at lineage
      cases lineage with
      | sealed done => simp at made
      | carriedOn earlier done =>
          simp only [List.cons_append, List.cons.injEq] at made
          obtain ⟨-, rest⟩ := made
          exact ih (rest ▸ earlier)

end Lineage

/-- No producer step ever creates a record that the validator, a checkpoint at the record
    before it, or a relay holding that record must refuse. -/
theorem Lineage.every_record_accepted {author : Author} {origin : Origin}
    {calls : List Continuation} {records : List SealedRecord} (verifies : author.Verifies)
    (lineage : Lineage author origin calls records) :
    (∀ record ∈ records, record.validate (policyFor author.publicKey) = .ok ()) ∧
      records.IsChain (AcceptedAfter (policyFor author.publicKey)) := by
  have valid : ∀ record ∈ records, record.validate (policyFor author.publicKey) = .ok () :=
    fun record member => (lineage.issued record member).validates verifies
  refine ⟨valid, lineage.chained.imp_of_mem_imp fun next previous inside _ succeeds => ?_⟩
  have decodes := (lineage.issued next inside).decodes verifies
  exact
    { head := succeeds.advances (valid next inside)
      relay := fun _ => succeeds.stored (valid next inside) decodes }

end Lineages

section SampleLineage

/-- The values an object secret goes through in a context. -/
structure ObjectKeys where
  salt : Vector UInt8 32
  prkInner : Vector UInt8 32
  prk : Vector UInt8 32
  dataKeyInner : Vector UInt8 32
  dataKey : Vector UInt8 32
  commitmentKeyInner : Vector UInt8 32
  commitmentKey : Vector UInt8 32
  keyCommitmentInner : Vector UInt8 32
  keyCommitment : Vector UInt8 32

def ObjectKeys.digests (values : ObjectKeys) (context : RecordContext)
    (objectSecret : Vector UInt8 32) : List (Bytes × Vector UInt8 32) :=
  (context.canonicalBytes, values.salt) ::
    macDigests values.salt.toList objectSecret.toList values.prkInner values.prk ++
    macDigests values.prk.toList (DATA_KEY_DOMAIN ++ [1]) values.dataKeyInner values.dataKey ++
    macDigests values.prk.toList (COMMITMENT_KEY_DOMAIN ++ [1]) values.commitmentKeyInner
      values.commitmentKey ++
    macDigests values.commitmentKey.toList
      (COMMITMENT_DOMAIN ++ [3] ++ Bytes.framed 8 context.canonicalBytes)
      values.keyCommitmentInner values.keyCommitment

/-- The sample context after a rekey. -/
def laterContext : RecordContext := { sampleContext with epoch := 2, version := 2 }

def alicePublicKey : Vector UInt8 32 :=
  word 0xa4e09292b651c278b9772c569f5fa9bb13d906b46ab68c9df9dc2b4409f8a209

def aliceKeyId : Vector UInt8 32 :=
  word 0x390942b0139ec8e29e801e2088e72a28e72327116aa16501e6693023b1f3ecec

def bobPublicKey : Vector UInt8 32 :=
  word 0xce8d3ad1ccb633ec7b70c17814a5c76ecd029685050d344745ba05870e587d59

def bobKeyId : Vector UInt8 32 :=
  word 0x7201e75ab650567ddf8268d0df30d57b1df8d5e59ddbbce4388e929bb191f504

/-- The keys of the seal, whose object secret is all 3. -/
def sealedKeys : ObjectKeys where
  salt := word 0x5b2b2cbaeae48e757f38aa01576d7fd91afcbd19f845e6d69ef886ca7d112c4a
  prkInner := word 0xd4b59a6a55f8b88c4cee03db68cf7ed23c0fbac5d597f64a7a2476cec71c09df
  prk := word 0xdfd7819211e63ab1ef4ad5da20830e34e728778317a5fc0ecbbaf74fa96d6183
  dataKeyInner := word 0xe5d727909617232a629c7f8fb3c5f0ed2dae6f9fea8b8ba81c41a012df9a4947
  dataKey := word 0x961149480af85148607ee60d88ec9acfd40d39707289823e4d237188e5a6e066
  commitmentKeyInner := word 0x2d47768fe53801099b7d6303d122de748d5e6df5224132ad2781199f625bbea8
  commitmentKey := word 0x79bc1d16ab3e5fc0431c8528b452b52126f5e8166a28c2fc76768beab866f75e
  keyCommitmentInner := word 0x4d27c0456522f1531b82dfdcfe671164202ffcfde6ef997fa8ff6751674e1f4c
  keyCommitment := word 0x6cf44b00efdef74043f9e0bae2cc8f7fc7a6eab3ec297047ae19a26b961e5961

/-- The keys of the rekey, whose object secret is all 8. -/
def rekeyedKeys : ObjectKeys where
  salt := word 0xef846a480a9c9e14a3e44007e189574de29166fc45d9d11673353966e3ddd357
  prkInner := word 0x78805d88b0fd126a0157ed549282763f3ccff29c8490a9a8d5df94a0803f0dea
  prk := word 0x87c807258e9dc993f8809e2732f3c405810f41c4c7df557a570817ea7b3c0407
  dataKeyInner := word 0xb350c062f0793c3370418300cf30ea84258f94f2f120fc2946a25a984da86c63
  dataKey := word 0xfd4ec7709d835f826d3e708961fccf3fc3457f8e5bda6cc2098e480b9f0fdf45
  commitmentKeyInner := word 0xaf2405bbd802d7c22218925da791a12046683bd26c2e33dc440019ecc21b9e45
  commitmentKey := word 0xbe0272bf1073747ebef8a665a905d7405ad5959a05ee98fb5daf85d6033b060a
  keyCommitmentInner := word 0xa76dc9565a415b41f26b0d006f2d0c1d98fd08333176b14dec0ddd073c0cf280
  keyCommitment := word 0xef8930085048fc8fce17277723ad9466bf5433b5c9ec255b1f3c9c4fac3acb03

def aliceSealed : Encapsulation where
  encapsulatedKey := word 0x50a61409b1ddd0325e9b16b700e719e9772c07000b1bd7786e907c653d20495d
  dh := word 0x5719fb63812a4c266e0bf99e5855dc24024258e8b75bd2a778a0bc3655aeff69
  eaePrkInner := word 0x8059851f2ea435df83cc9960e38bc1ab62c00af082fd1c7d422bce5f8e587dbd
  eaePrk := word 0x86b845f63fc58b27f073e565d8a877465129dcb9556513a5bdf04cbe8b85fa1f
  sharedSecretInner := word 0xa745100891414dcb8f12b2f46bcf9991211654b38d0caa50411b96cb2da0998e
  sharedSecret := word 0x778a74a91c4baae63390016baef6d9924a6fcfee227c2cc1a49fbe4b46439595
  pskIdHashInner := word 0x33054b9e49aa00849419f3850290b78cf6879376bde4a78ba7029e80fc5beb33
  pskIdHash := word 0x431df6cd95e11ff49d7013563baf7f11588c75a6611ee2a4404a49306ae4cfc5
  infoHashInner := word 0x17ec82cdb98e10db3dd1706f9bf164c6c16c65e70e6d56bdf4d4dbba859c0238
  infoHash := word 0xd8dfad1b4cacd69dbc73c68832cf994d3a053f462688799721da29737ebd972a
  secretInner := word 0x78ac36186cad9638d4fcfc4fc158824f46d95d24a1ebaca08f2f1ab5c34ac6c5
  secret := word 0xce5d1cfa991af8d38cbb7cbb1ced1116d465d6cfbeecc3165b6cff845b43e6fb
  keyInner := word 0xc249fcca86267cd590ad5fa50ef70a119d7cd624e1b06be7ebf99b777ac4ed2b
  key := word 0x14cea2c363791c7c3111233d7152259549ddc293c007a0fd98096740c0642225
  baseNonceInner := word 0x98f3bb5cdf3e30d111485112e4cd3877488ab6e6fd7d878d9e01f9cdeb647f1b
  baseNonce := word 0x3a9790a243051446fdacb9439f566b9b03c27f95e8a7d7ba51083bf46f1bc058
  wrappedDek := Bytes.be 32 0xc3ef6149bd7167e249558b33788647c6861031646226268862f626fb3b1defe1 ++
    Bytes.be 16 0xadb9bc4852ef733d6389ace34fe32051

def bobGranted : Encapsulation where
  encapsulatedKey := word 0xf5b2d6e60f9477e310c2982daaa6c9136c108a1777c5947e448fa37d68174557
  dh := word 0xaaa0841662764aeab7f1ee7adb452f2c7efc93f6aa8e327d91c4a23cb737d130
  eaePrkInner := word 0x7dde184d5154ad29bcdc630fea9b04629284032d6a67115aea64d5be0044a1c8
  eaePrk := word 0xd66852928f069f552d725b7a962c551d434db8105d344fca3027d9f34fe2c291
  sharedSecretInner := word 0xbf07898d67d2dd651a9c5acbc9369e9b06a7b1cfa518eb49029bbfc8656f31ea
  sharedSecret := word 0x21cbe3e57e81ceb0eb9744124a2b79c4c48f9fb46665976391cc798a5abe2942
  pskIdHashInner := word 0x33054b9e49aa00849419f3850290b78cf6879376bde4a78ba7029e80fc5beb33
  pskIdHash := word 0x431df6cd95e11ff49d7013563baf7f11588c75a6611ee2a4404a49306ae4cfc5
  infoHashInner := word 0x7396ed185d4293f2d97384ff1abae68361370a2a95baf113b222739138bdbcf0
  infoHash := word 0x8c42f9d06b6cf0e2167cf56012f70747108217dd95801a7ba19400ad46a621b6
  secretInner := word 0xfb8388174cafd6d88a401650a651f240537a8866816acd9531a883c4689850a4
  secret := word 0xf6dd6de23d4a4068d76f17e7ff82d987604ef0f3824a39fed4c4b83dc146d400
  keyInner := word 0xc5accb8779c8c52deb5bd5d526cb25c29030a4451d29822a322d246585ce692e
  key := word 0xf679ed6186c5c759d9bb2e459bfbdbbfc97548ea2f96889ab8f7d7493743d76b
  baseNonceInner := word 0x1db6a6e9e87280909888a3e83a7d28e1169a94438a732e97fc43b502faebd89a
  baseNonce := word 0x5fb5becb1a59f9bd8005892d2e0557b6f76bea1bdeb5a806385b7f54b32730ac
  wrappedDek := Bytes.be 32 0x31bc6386cedf30637260df0a2ff320af0fff8567c90ba4f44da10ce9f84a1c40 ++
    Bytes.be 16 0x3fed010f675bb106a59a654620540257

def bobRekeyed : Encapsulation where
  encapsulatedKey := word 0xf77ff4b10788bfdca62ca0bb160d427cf5762d85f2b5cad6807ec9c3febbde09
  dh := word 0xbba24acb774c87f4948df3f2ce35c91979d79cf1fc0b0f5f9e9458893ce54a27
  eaePrkInner := word 0xd86626042be09a8a8e21cbf437434545301b2de92a5315e5c20e8c5afa2eca9b
  eaePrk := word 0xe695fadd97690944e100b987036ef36a31f0339251865536592af2da94db8837
  sharedSecretInner := word 0x5a3869be3acbeda76f27772e9e9eb43bc1a72a97481dcc8db924f3ccb77a44b4
  sharedSecret := word 0x85b9f129b25086188368284bd881017391f10daeff366e6af81de6b634ba51ff
  pskIdHashInner := word 0x33054b9e49aa00849419f3850290b78cf6879376bde4a78ba7029e80fc5beb33
  pskIdHash := word 0x431df6cd95e11ff49d7013563baf7f11588c75a6611ee2a4404a49306ae4cfc5
  infoHashInner := word 0xc2a853f70b33fbbe17a3c617b02cc9a367c5d83cb963d0f707cba95b7d59fbe0
  infoHash := word 0xa581985630187521831365dd111a0290bd4adf5df019931c9bbbccb5ce5f0652
  secretInner := word 0x962a8cb86080826d395c3496ce57ebd2645b7dc496cb8b3b6545bbadcff1f6df
  secret := word 0xde48f84535889f911b907d3dd8565d60c272bd8f4391461d92627e7b71e60098
  keyInner := word 0xa29e5929eeba33ece97a8e951a7f7df955156058908c35d027d90237962327c8
  key := word 0xebefe49fb1fdd7a22cb9eceb8a51ae70d5ed25625b9039982688637e3a0a323b
  baseNonceInner := word 0x98263fd6863801b6e2df3b1582d5cae334fb834dd970df8e4455b28e9fe99f5c
  baseNonce := word 0x64c32dbcd57d39594f1ea58dfbbc9943fcf8a7715c1cf1c6df5f560fe7c91afa
  wrappedDek := Bytes.be 32 0x0a49763392d47fd17c0c5decbfc90a9664c20888b376e5a7152c834548bb457b ++
    Bytes.be 16 0xe3a4dda32e5a29b9580343f9dc74cdef

def sealedCiphertext : Bytes := Bytes.be 18 0xc6b70d85912c419ecca337b47638eda9758a

def rekeyedCiphertext : Bytes := Bytes.be 18 0xd88805e57075f5b724fe24d130af79d7d97a

def envelopeFor (recipientId : String) (recipientKeyId : Vector UInt8 32) (values : Encapsulation) :
    RecipientEnvelope where
  recipientId
  keyEpoch := 1
  recipientKeyId
  encapsulatedKey := values.encapsulatedKey.toList
  wrappedDek := values.wrappedDek

def sealedSignature : Vector UInt8 64 :=
  word 0x87c1290e36d2940cc057b37abcfb784d598cd09e99c18e6b82979fd3f9426450 ++
    word 0xcad7d3cee94d5fffa37556f61e2940d797d3bac3309a9e998e7ecc26cad19e05

/-- Sealed for Alice. -/
def sealedRecord : SealedRecord where
  formatVersion := FORMAT_VERSION
  suite := .chaCha20Poly1305
  context := sampleContext
  manifestRevision := 1
  previousManifestHash := zeroHash
  keyCommitment := sealedKeys.keyCommitment
  nonce := List.replicate 12 4
  ciphertext := sealedCiphertext
  recipients := [envelopeFor "alice" aliceKeyId aliceSealed]
  indexes := []
  signerPublicKey := authorKey
  signature := sealedSignature.toList

def sealedHash : Vector UInt8 32 :=
  word 0x3a6d54f8994fc5c3031a9b42612d3770f560399995a20b72a02fe9d6b7a29930

def grantedSignature : Vector UInt8 64 :=
  word 0x74cd9a8abeec037528baca1d8056f123a9b9ec4c3032171cca836b24f76ce964 ++
    word 0xba6f5a9b31dcc14b5083c46bc5ed89f9dcaac9432d7040ef334cbe3ffb0fa804

/-- Alice grants access to Bob. -/
def grantedRecord : SealedRecord := { sealedRecord with
  manifestRevision := 2
  previousManifestHash := sealedHash
  recipients := [envelopeFor "alice" aliceKeyId aliceSealed, envelopeFor "bob" bobKeyId bobGranted]
  signature := grantedSignature.toList }

def grantedHash : Vector UInt8 32 :=
  word 0x82891cbdded079971f4e60c1e2207e9574a60c5ab84ac0fa25638849779c9959

def freshSignature : Vector UInt8 64 :=
  word 0x51bd55b956d0aec80791ca701780e66a4486cb33ae754e8d8ed2bda64c874182 ++
    word 0xefe8f43d83175f87684d4913d11907d5ae4293801f259cfecaafc24030bc4707

/-- What the rekey seals before it links it to the lineage. -/
def freshRecord : SealedRecord := { sealedRecord with
  context := laterContext
  keyCommitment := rekeyedKeys.keyCommitment
  nonce := List.replicate 12 9
  ciphertext := rekeyedCiphertext
  recipients := [envelopeFor "bob" bobKeyId bobRekeyed]
  signature := freshSignature.toList }

def rekeyedSignature : Vector UInt8 64 :=
  word 0x0bd5ab86dd9737945bef562bfc01ca3cac82969d7b0bd890a403a15b8aecc980 ++
    word 0xc4ce214064069894a85d3149ecf26b822d054867e066a3443fd15f81fc4c5d0e

/-- Alice rekeys the record for Bob alone. -/
def rekeyedRecord : SealedRecord := { freshRecord with
  manifestRevision := 3
  previousManifestHash := grantedHash
  signature := rekeyedSignature.toList }

/-- The HPKE transcript of a reader at key epoch 1. -/
def transcript (domain : Bytes) (context : RecordContext) (recipientId : String)
    (recipientKeyId : Vector UInt8 32) : Bytes :=
  Bytes.framed 8 domain ++ Bytes.framed 8 context.canonicalBytes ++
    Bytes.framed 8 (asBytes recipientId) ++ Bytes.u64 1 ++ recipientKeyId.toList

/-- An object secret wrapped for a reader. -/
def wrapping (values : Encapsulation) (objectSecret : Vector UInt8 32) (aad : Bytes) : Sealing where
  suite := .chaCha20Poly1305
  key := values.key
  nonce := values.baseNonce.toList.take 12
  aad
  plaintext := objectSecret.toList
  ciphertext := values.wrappedDek

/-- Everything the primitives answered. The secrets are Alice's, all 1; Bob's, all 2; and
    the ephemeral ones, all 5, all 6 and all 10. -/
def lineageRecording : Recording where
  author := authorKey
  digests :=
    [(RECIPIENT_KEY_ID_DOMAIN ++ alicePublicKey.toList, aliceKeyId),
      (RECIPIENT_KEY_ID_DOMAIN ++ bobPublicKey.toList, bobKeyId),
      (sealedRecord.manifestPreimage, sealedHash),
      (grantedRecord.manifestPreimage, grantedHash)] ++
    sealedKeys.digests sampleContext (.replicate 32 3) ++
    rekeyedKeys.digests laterContext (.replicate 32 8) ++
    aliceSealed.digests alicePublicKey
      (transcript HPKE_INFO_DOMAIN sampleContext "alice" aliceKeyId) ++
    bobGranted.digests bobPublicKey (transcript HPKE_INFO_DOMAIN sampleContext "bob" bobKeyId) ++
    bobRekeyed.digests bobPublicKey (transcript HPKE_INFO_DOMAIN laterContext "bob" bobKeyId)
  signatures :=
    [(sealedRecord.signingBytes, sealedSignature), (grantedRecord.signingBytes, grantedSignature),
      (freshRecord.signingBytes, freshSignature), (rekeyedRecord.signingBytes, rekeyedSignature)]
  products :=
    [((.replicate 32 1, BASEPOINT), alicePublicKey), ((.replicate 32 2, BASEPOINT), bobPublicKey),
      ((.replicate 32 5, BASEPOINT), aliceSealed.encapsulatedKey),
      ((.replicate 32 6, BASEPOINT), bobGranted.encapsulatedKey),
      ((.replicate 32 10, BASEPOINT), bobRekeyed.encapsulatedKey),
      ((.replicate 32 5, alicePublicKey), aliceSealed.dh),
      ((.replicate 32 1, aliceSealed.encapsulatedKey), aliceSealed.dh),
      ((.replicate 32 6, bobPublicKey), bobGranted.dh),
      ((.replicate 32 2, bobGranted.encapsulatedKey), bobGranted.dh),
      ((.replicate 32 10, bobPublicKey), bobRekeyed.dh),
      ((.replicate 32 2, bobRekeyed.encapsulatedKey), bobRekeyed.dh)]
  sealings :=
    [{ suite := .chaCha20Poly1305, key := sealedKeys.dataKey, nonce := List.replicate 12 4
       aad := payloadAad .chaCha20Poly1305 sampleContext, plaintext := asBytes "hi"
       ciphertext := sealedCiphertext },
      { suite := .chaCha20Poly1305, key := rekeyedKeys.dataKey, nonce := List.replicate 12 9
        aad := payloadAad .chaCha20Poly1305 laterContext, plaintext := asBytes "hi"
        ciphertext := rekeyedCiphertext },
      wrapping aliceSealed (.replicate 32 3)
        (transcript HPKE_AAD_DOMAIN sampleContext "alice" aliceKeyId),
      wrapping bobGranted (.replicate 32 3)
        (transcript HPKE_AAD_DOMAIN sampleContext "bob" bobKeyId),
      wrapping bobRekeyed (.replicate 32 8)
        (transcript HPKE_AAD_DOMAIN laterContext "bob" bobKeyId)]

@[reducible] def lineagePrimitives : ClientPrimitives := lineageRecording.primitives

/-- The default build. -/
@[reducible] def defaultFeatures : Features := { faultResistant := false }

attribute [local instance] lineagePrimitives defaultFeatures

def sampleAuthor : Author := { signingKey := .replicate 32 7 }

def alice : RecipientKeypair := .assemble "alice" 1 { secret := .replicate 32 1 } (by decide)

def bob : RecipientKeypair := .assemble "bob" 1 { secret := .replicate 32 2 } (by decide)

def sampleOrigin : Origin where
  context := sampleContext
  plaintext := asBytes "hi"
  recipients := [alice.recipient]
  indexes := []
  suite := .chaCha20Poly1305

/-- Each answer repeats one byte. -/
def answers (fills : List UInt8) : Entropy := fun call n => fills[call]?.map fun fill => .replicate n fill

/-- Alice grants access to Bob, then rekeys for Bob alone; newest first. -/
def sampleCalls : List Continuation :=
  [.rekey alice laterContext [bob.recipient] [], .grant alice bob.recipient]

theorem sample_verifies : sampleAuthor.Verifies := fun _ => if_pos ⟨rfl, rfl⟩

theorem sample_lineage :
    Lineage sampleAuthor sampleOrigin sampleCalls [rekeyedRecord, grantedRecord, sealedRecord] := by
  obtain ⟨_, sealed⟩ : ∃ rest, sampleOrigin.begin sampleAuthor (answers [3, 4, 5]) =
      .ok (sealedRecord, rest) := Process.exists_state (by decide +kernel)
  obtain ⟨_, granted⟩ : ∃ rest, (Continuation.grant alice bob.recipient).carryOn sampleAuthor
      sealedRecord (answers [6]) = .ok (grantedRecord, rest) :=
    Process.exists_state (by decide +kernel)
  obtain ⟨_, rekeyed⟩ : ∃ rest, (Continuation.rekey alice laterContext [bob.recipient] []).carryOn
      sampleAuthor grantedRecord (answers [8, 9, 10]) = .ok (rekeyedRecord, rest) :=
    Process.exists_state (by decide +kernel)
  exact .carriedOn (.carriedOn (.sealed sealed) granted) rekeyed

/-- A seal, a grant and a rekey, each accepted by all three components. -/
theorem sample_lineage_accepted :
    (∀ record ∈ [rekeyedRecord, grantedRecord, sealedRecord],
        record.validate (policyFor sampleAuthor.publicKey) = .ok ()) ∧
      [rekeyedRecord, grantedRecord, sealedRecord].IsChain
        (AcceptedAfter (policyFor sampleAuthor.publicKey)) :=
  Lineage.every_record_accepted sample_verifies sample_lineage

end SampleLineage

end Blindplane.Core
