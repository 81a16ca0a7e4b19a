import Zephcraft.Foundations.Reader

/-!
# Obj/Manifest — objects that link to others

A file is an object that lists segments, a folder one that lists its children, a private file an
envelope that lists ciphertext segments.
-/

namespace Zephcraft.Obj

/-- A segment of a file, and the length of its plaintext. -/
structure Segment where
  cid : B32
  len : U64
deriving DecidableEq

/-- A child of a folder; the name is its bytes. -/
structure Entry where
  name : Bytes
  size : U64
  isDir : Bool
  cid : B32
deriving DecidableEq

/-- A file or a directory. -/
inductive Manifest where
  | file (name : Bytes) (size : U64) (mime : Bytes) (segments : List Segment)
  | dir (name : Bytes) (entries : List Entry)
deriving DecidableEq

/-- A sealed file. -/
structure EncryptedEnvelope where
  capsule : Bytes
  segments : List Segment
  /-- The sealed name and type. -/
  sealedMeta : Bytes
  size : U64

structure PlainMeta where
  name : Bytes
  mime : Bytes

/-- `postcard`, for what is stored as objects. -/
structure Postcard where
  ofManifest : Manifest → Bytes
  toManifest : Bytes → Option Manifest
  ofEnvelope : EncryptedEnvelope → Bytes
  toEnvelope : Bytes → Option EncryptedEnvelope
  ofMeta : PlainMeta → Bytes
  toMeta : Bytes → Option PlainMeta

/-- `MANIFEST_MAGIC` -/
def manifestMagic : Bytes := ascii "ZMANIFS1"

/-- `ENVELOPE_MAGIC` -/
def envelopeMagic : Bytes := ascii "ZENVELP1"

/-- `bytes.strip_prefix(magic)` -/
def afterMagic (magic bytes : Bytes) : Option Bytes :=
  if magic.isPrefixOf bytes then some (bytes.drop magic.length) else none

namespace Postcard

variable (P : Postcard)

def encodeManifest (m : Manifest) : Bytes := manifestMagic ++ P.ofManifest m

def decodeManifest (bytes : Bytes) : Option Manifest :=
  (afterMagic manifestMagic bytes).bind P.toManifest

def decodeEnvelope (bytes : Bytes) : Option EncryptedEnvelope :=
  (afterMagic envelopeMagic bytes).bind P.toEnvelope

def chainChildren (bytes : Bytes) : List B32 :=
  match P.decodeEnvelope bytes with
  | some env => env.segments.map Segment.cid
  | none =>
    match P.decodeManifest bytes with
    | some (.file _ _ _ segments) => segments.map Segment.cid
    | some (.dir _ entries) => entries.map Entry.cid
    | none => []

end Postcard

end Zephcraft.Obj
