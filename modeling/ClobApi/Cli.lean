import ClobApi.Formats

/-!
# The command line client

`clob place` builds and signs an order with the key of a file that
`clob keygen` wrote; the cancel commands name the trader that belongs to the
key.  A signing key is known by its seed of 32 bytes.
-/

namespace ClobApi

open Foundation

/-- `SigningKey` of `ed25519_dalek`. -/
structure Signer where
  /-- the bytes of the verifying key that belongs to the seed -/
  publicKey : Bytes32 → Bytes32
  sign : Bytes32 → Bytes32 → Bytes64

/-- Verifying keys are valid and accept what was signed. -/
structure Signer.Lawful (signer : Signer) (crypto : Crypto) : Prop where
  valid : ∀ seed, crypto.validPublicKey (signer.publicKey seed) = true
  verifies : ∀ seed message, crypto.verify (signer.publicKey seed) message
    (signer.sign seed message) = true

inductive CliError where
  | keyUnreadable
  | keyNotHex
  | keyLength
  | unknownSide (side : String)
  deriving DecidableEq, Repr

/-! ## Key files -/

/-- The property `White_Space`, which `str::trim` removes. -/
def isWhiteSpace (c : Char) : Bool :=
  let n := c.toNat
  (9 ≤ n && n ≤ 13) || n == 0x20 || n == 0x85 || n == 0xA0 || n == 0x1680 ||
    (0x2000 ≤ n && n ≤ 0x200A) || n == 0x2028 || n == 0x2029 || n == 0x202F ||
    n == 0x205F || n == 0x3000

def trim (s : String) : String :=
  .ofList (((s.toList.dropWhile isWhiteSpace).reverse.dropWhile
    isWhiteSpace).reverse)

def keygen (seed : Bytes32) : String := hexEncode seed.toList

/-- `none` is a file that cannot be read. -/
def loadKey (file : Option String) : Except CliError Bytes32 :=
  match file with
  | none => .error .keyUnreadable
  | some contents =>
      match hexDecode (trim contents) with
      | none => .error .keyNotHex
      | some bytes =>
          if h : bytes.length = 32 then .ok ⟨⟨bytes⟩, h⟩ else .error .keyLength

def keyTraderId (signer : Signer) (file : Option String) :
    Except CliError String :=
  (loadKey file).map fun seed => hexEncode (signer.publicKey seed).toList

/-! ## `clob place` -/

structure PlaceArgs where
  market : String
  side : String
  price : UInt64
  size : UInt64
  clientId : Option String
  nonce : Option UInt64

structure PlaceEnv where
  nowMs : UInt64
  uuid : String
  salt : UInt64

/-- No letter outside of ASCII becomes one of these words in lower case. -/
def parseSide (side : String) : Except CliError Side :=
  let lower := side.toLower
  if lower = "buy" ∨ lower = "b" then .ok .buy
  else if lower = "sell" ∨ lower = "s" then .ok .sell
  else .error (.unknownSide lower)

/-- The last two statements before the request. -/
def SignedOrder.signWith (order : SignedOrder) (crypto : Crypto)
    (signer : Signer) (seed : Bytes32) : SignedOrder :=
  { order with
    signature := signer.sign seed (order.canonicalHash crypto).bytes }

def cmdPlace (crypto : Crypto) (signer : Signer) (args : PlaceArgs)
    (key : Option String) (env : PlaceEnv) : Except CliError SignedOrder := do
  let seed ← loadKey key
  let pubkey := signer.publicKey seed
  let side ← parseSide args.side
  let order : SignedOrder :=
    { schemaVersion := currentSchemaVersion
      clientOrderId := args.clientId.getD env.uuid
      marketId := ⟨args.market⟩
      traderId := hexEncode pubkey.toList
      side := side
      priceTicks := args.price
      sizeLots := args.size
      timeInForce := .gtc
      nonce := args.nonce.getD env.nowMs
      expiryTsMs := 0
      createdAtMs := env.nowMs
      salt := env.salt
      traderPubkey := pubkey
      signature := .replicate 64 0 }
  pure (order.signWith crypto signer seed)

end ClobApi
