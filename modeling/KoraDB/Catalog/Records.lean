import KoraDB.Proto.Message
import KoraDB.Storage.Store

/-!
# Persisted records

Everything the program writes: JSON records of schemas, collections and API
keys, documents as protobuf wire data, and empty index entries. A stored value
is modelled as what its bytes denote (`Blob`), so that reading back what was
written is a match on the constructor; a value of one sort is corrupt when read
as another.

`encoding/json` replaces every invalid UTF-8 byte of a string by U+FFFD on the
way out. That is the one way in which a record read back can differ from the
record written, and `marshal` applies it field by field.
-/

namespace KoraDB.Catalog

open KoraDB.Base KoraDB.Proto

/-- `schema.record`. `FDSet` is the serialized file set, here the set. -/
structure SchemaRecord where
  name : Bytes
  source : Bytes
  version : Nat
  fdset : List FileProto
  digest : Bytes
  createdUnix : Int

/-- `engine.KeyKind`. -/
inductive KeyKind
  | auto | field
  deriving DecidableEq, Repr

/-- `engine.CollectionMeta`. -/
structure CollectionMeta where
  name : Bytes
  messageType : Bytes
  keyKind : KeyKind
  keyField : Bytes
  indexes : List Bytes
  deriving DecidableEq

/-- `auth.KeyRecord`. -/
structure KeyRecord where
  keyID : Bytes
  name : Bytes
  role : Int
  secretSHA256 : Bytes
  createdUnix : Int
  expiresUnix : Int
  deriving DecidableEq

/-- A stored value. -/
inductive Blob
  | schema (rec : SchemaRecord)
  | collection (cm : CollectionMeta)
  | key (rec : KeyRecord)
  | document (wire : Wire)
  | empty

namespace SchemaRecord

/-- `json.Marshal(rec)`. -/
def marshal (rec : SchemaRecord) : Blob :=
  .schema { rec with
    name := toValidUTF8 rec.name
    source := toValidUTF8 rec.source
    digest := toValidUTF8 rec.digest }

/-- `json.Unmarshal(b, &rec)`. -/
def unmarshal : Blob → Option SchemaRecord
  | .schema rec => some rec
  | _ => none

end SchemaRecord

namespace CollectionMeta

/-- `json.Marshal(meta)`. -/
def marshal (cm : CollectionMeta) : Blob :=
  .collection { cm with
    name := toValidUTF8 cm.name
    messageType := toValidUTF8 cm.messageType
    keyField := toValidUTF8 cm.keyField
    indexes := cm.indexes.map toValidUTF8 }

/-- `json.Unmarshal(b, &meta)`. -/
def unmarshal : Blob → Option CollectionMeta
  | .collection cm => some cm
  | _ => none

/-- A definition whose type and fields are valid UTF-8 reads back as it was
written, with its name made valid. -/
theorem unmarshal_marshal {cm : CollectionMeta} (htype : validString cm.messageType = true)
    (hkey : validString cm.keyField = true) (hidx : ∀ f ∈ cm.indexes, validString f = true) :
    unmarshal cm.marshal = some { cm with name := toValidUTF8 cm.name } := by
  have hmap : cm.indexes.map toValidUTF8 = cm.indexes := by
    conv_rhs => rw [← List.map_id cm.indexes]
    exact List.map_congr_left fun f hf => toValidUTF8_eq_self (hidx f hf)
  simp only [marshal, unmarshal, toValidUTF8_eq_self htype, toValidUTF8_eq_self hkey, hmap]

end CollectionMeta

namespace KeyRecord

/-- `json.Marshal(rec)`. -/
def marshal (rec : KeyRecord) : Blob :=
  .key { rec with
    keyID := toValidUTF8 rec.keyID
    name := toValidUTF8 rec.name
    secretSHA256 := toValidUTF8 rec.secretSHA256 }

/-- `json.Unmarshal(b, &rec)`. -/
def unmarshal : Blob → Option KeyRecord
  | .key rec => some rec
  | _ => none

theorem unmarshal_marshal {rec : KeyRecord} (hid : validString rec.keyID = true)
    (hname : validString rec.name = true) (hsha : validString rec.secretSHA256 = true) :
    unmarshal rec.marshal = some rec := by
  simp only [marshal, unmarshal, toValidUTF8_eq_self hid, toValidUTF8_eq_self hname,
    toValidUTF8_eq_self hsha]

end KeyRecord

/-- The database file as the program uses it. -/
abbrev Store := Storage.Store Blob

end KoraDB.Catalog
