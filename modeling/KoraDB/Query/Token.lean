import KoraDB.Base.Base64
import KoraDB.Base.Json
import KoraDB.Query.Traversal

/-!
# Page tokens as text

A token is the base 64 of a JSON object. `readPageToken` is what
`parsePageToken` makes of a text before it compares anything: the JSON may have
spaces, other members, members twice or in other letters, a null in place of a
value, or the key as an array of numbers, since `json.Unmarshal` accepts all of
it. A token that was written is read as its cursor (`readPageToken_tokenText`),
so the pages with abstract tokens are the pages with texts
(`pageRows_readPageToken`).
-/

namespace KoraDB.Query

open KoraDB.Base KoraDB.Proto KoraDB.Catalog KoraDB.Schema KoraDB.Engine

/-! ## Writing -/

/-- `json.Marshal` on a byte slice; an empty key is a nil slice. -/
def marshalKey (key : Bytes) : Bytes :=
  if key = [] then ascii "null" else 34 :: (base64Std key ++ [34])

/-- `json.Marshal(cursor)`. -/
def marshalCursor (c : PageCursor) : Bytes :=
  Json.writeObject [(ascii "v", formatInt c.version), (ascii "c", Json.quote c.collection),
    (ascii "f", Json.quote c.filterHash), (ascii "k", marshalKey c.lastKey)]

/-- `encodePageToken`, the text. -/
def tokenText (c : PageCursor) : Bytes := base64Url (marshalCursor c)

/-! ## Reading -/

/-- The slice of the key while an object is decoded into it: its bytes, and the
memory behind them. Further memory is zero. -/
structure KeySlice where
  bytes : Bytes
  spare : Bytes

/-- The cursor while an object is decoded into it. -/
structure Decoding where
  version : Int
  collection : Bytes
  filterHash : Bytes
  key : KeySlice

def Decoding.zero : Decoding := ⟨0, [], [], ⟨[], []⟩⟩

def Decoding.cursor (d : Decoding) : PageCursor :=
  ⟨d.version, d.collection, d.filterHash, d.key.bytes⟩

/-- `literalStore` on an `int`: null keeps the value, and a number has to be one
that `strconv.ParseInt` reads. -/
def storeInt (old : Int) : Json.Value → Option Int
  | .null => some old
  | .number literal => parseInt 64 literal
  | _ => none

/-- `literalStore` on a `string`. -/
def storeString (old : Bytes) : Json.Value → Option Bytes
  | .null => some old
  | .string s => some s
  | _ => none

/-- `literalStore` on a byte of a slice. -/
def storeByte (old : UInt8) : Json.Value → Option UInt8
  | .null => some old
  | .number literal =>
    ((parseUint 64 literal).filter fun n => decide (n < 256)).map UInt8.ofNat
  | _ => none

/-- The loop of `array`: each item is decoded over what the memory holds. -/
def storeItems : Bytes → List Json.Value → Option Bytes
  | _, [] => some []
  | memory, v :: vs => do
    let b ← storeByte (memory.headD 0) v
    let bs ← storeItems memory.tail vs
    return b :: bs

/-- `value` on a byte slice: base 64 text, or an array of numbers. -/
def storeBytes (k : KeySlice) : Json.Value → Option KeySlice
  | .null => some ⟨[], []⟩
  | .string s => (decodeStd s).map fun bytes => ⟨bytes, []⟩
  | .array [] => some ⟨[], []⟩
  | .array items =>
    (storeItems (k.bytes ++ k.spare) items).map fun bytes =>
      ⟨bytes, (k.bytes ++ k.spare).drop items.length⟩
  | _ => none

inductive CursorField
  | version | collection | filterHash | key

/-- The names a field is found under: its own, or one that `foldName` takes to
the same. U+212A, the Kelvin sign, folds to K. -/
def cursorField (name : Bytes) : Option CursorField :=
  [(ascii "v", .version), (ascii "V", .version), (ascii "c", .collection),
    (ascii "C", .collection), (ascii "f", .filterHash), (ascii "F", .filterHash),
    (ascii "k", .key), (ascii "K", .key), ([0xE2, 0x84, 0xAA], CursorField.key)].lookup name

/-- One member of the object; an unknown one is skipped. -/
def storeMember (d : Decoding) (m : Bytes × Json.Value) : Option Decoding :=
  match cursorField m.1 with
  | none => some d
  | some .version => (storeInt d.version m.2).map fun v => { d with version := v }
  | some .collection => (storeString d.collection m.2).map fun s => { d with collection := s }
  | some .filterHash => (storeString d.filterHash m.2).map fun s => { d with filterHash := s }
  | some .key => (storeBytes d.key m.2).map fun k => { d with key := k }

/-- `json.Unmarshal(raw, &cursor)`; `none` for any error. -/
def unmarshalCursor (raw : Bytes) : Option PageCursor :=
  match Json.read raw with
  | some .null => some Decoding.zero.cursor
  | some (.object members) => (members.foldlM storeMember Decoding.zero).map Decoding.cursor
  | _ => none

/-- What a text is as a token. -/
def readPageToken (text : Bytes) : PageToken :=
  if text = [] then .empty
  else
    match decodeUrl text with
    | none => .undecodable
    | some raw =>
      match unmarshalCursor raw with
      | none => .notJSON
      | some c => .cursor c

/-- Only the empty text is no token. -/
theorem readPageToken_ne_empty {text : Bytes} (h : text ≠ []) : readPageToken text ≠ .empty := by
  unfold readPageToken
  rw [if_neg h]
  repeat' split
  all_goals exact nofun

/-! ## The round trip -/

theorem base64Std_plain (s : Bytes) :
    ∀ b ∈ base64Std s, b < 0x80 ∧ Json.quoteAscii b = [b] :=
  base64Std_forall (by decide +kernel) (by decide) s

/-- The key is written as a string of its base 64 text. -/
theorem marshalKey_eq {key : Bytes} (h : key ≠ []) :
    marshalKey key = Json.quote (base64Std key) := by
  rw [marshalKey, if_neg h, Json.quote_plain (base64Std_plain key)]

/-- The value of the key. -/
def keyValue (key : Bytes) : Json.Value :=
  if key = [] then .null else .string (base64Std key)

theorem readsAs_marshalKey (key : Bytes) : Json.ReadsAs (marshalKey key) (keyValue key) := by
  by_cases h : key = []
  · rw [marshalKey, keyValue, if_pos h, if_pos h]
    exact Json.readsAs_null
  · have hvalid : toValidUTF8 (base64Std key) = base64Std key :=
      toValidUTF8_eq_self (validString_of_ascii fun b hb => (base64Std_plain key b hb).1)
    have hreads := Json.readsAs_quote (base64Std key)
    rw [hvalid] at hreads
    rw [marshalKey_eq h, keyValue, if_neg h]
    exact hreads

theorem storeBytes_keyValue (k : KeySlice) (key : Bytes) :
    storeBytes k (keyValue key) = some ⟨key, []⟩ := by
  unfold keyValue
  by_cases h : key = []
  · rw [if_pos h, h]
    rfl
  · rw [if_neg h, storeBytes, decodeStd_base64Std]
    rfl

theorem storeMember_version (d : Decoding) (v : Json.Value) :
    storeMember d (ascii "v", v) = (storeInt d.version v).map fun v => { d with version := v } :=
  rfl

theorem storeMember_collection (d : Decoding) (v : Json.Value) :
    storeMember d (ascii "c", v) =
      (storeString d.collection v).map fun s => { d with collection := s } := rfl

theorem storeMember_filterHash (d : Decoding) (v : Json.Value) :
    storeMember d (ascii "f", v) =
      (storeString d.filterHash v).map fun s => { d with filterHash := s } := rfl

theorem storeMember_key (d : Decoding) (v : Json.Value) :
    storeMember d (ascii "k", v) = (storeBytes d.key v).map fun k => { d with key := k } := rfl

theorem unmarshalCursor_marshalCursor {c : PageCursor} (hv : c.version = 1) :
    unmarshalCursor (marshalCursor c) =
      some ⟨1, toValidUTF8 c.collection, toValidUTF8 c.filterHash, c.lastKey⟩ := by
  have hread := Json.read_writeObject (List.cons_ne_nil _ _)
    (.cons (a := (ascii "v", formatInt 1)) (Json.readsAs_formatInt 1)
      (.cons (a := (ascii "c", Json.quote c.collection)) (Json.readsAs_quote c.collection)
        (.cons (a := (ascii "f", Json.quote c.filterHash)) (Json.readsAs_quote c.filterHash)
          (.cons (a := (ascii "k", marshalKey c.lastKey)) (readsAs_marshalKey c.lastKey) .nil))))
  unfold unmarshalCursor marshalCursor
  rw [hv, hread]
  show (List.foldlM storeMember Decoding.zero [(ascii "v", .number (formatInt 1)),
    (ascii "c", .string (toValidUTF8 c.collection)),
    (ascii "f", .string (toValidUTF8 c.filterHash)),
    (ascii "k", keyValue c.lastKey)]).map Decoding.cursor = _
  -- the four members one by one, each into its own field
  have hone : storeInt 0 (.number (formatInt 1)) = some 1 := by decide
  rw [List.foldlM_cons, storeMember_version, Decoding.zero, hone, Option.map_some]
  show ((List.foldlM storeMember ⟨1, [], [], ⟨[], []⟩⟩
    [(ascii "c", .string (toValidUTF8 c.collection)),
    (ascii "f", .string (toValidUTF8 c.filterHash)),
    (ascii "k", keyValue c.lastKey)]).map Decoding.cursor) = _
  rw [List.foldlM_cons, storeMember_collection]
  show ((List.foldlM storeMember ⟨1, toValidUTF8 c.collection, [], ⟨[], []⟩⟩
    [(ascii "f", .string (toValidUTF8 c.filterHash)),
    (ascii "k", keyValue c.lastKey)]).map Decoding.cursor) = _
  rw [List.foldlM_cons, storeMember_filterHash]
  show ((List.foldlM storeMember
    ⟨1, toValidUTF8 c.collection, toValidUTF8 c.filterHash, ⟨[], []⟩⟩
    [(ascii "k", keyValue c.lastKey)]).map Decoding.cursor) = _
  rw [List.foldlM_cons, storeMember_key, storeBytes_keyValue]
  rfl

theorem tokenText_ne_nil (c : PageCursor) : tokenText c ≠ [] := by
  intro hnil
  have hdec := decodeUrl_base64Url (marshalCursor c)
  rw [← tokenText, hnil] at hdec
  cases hdec

/-- **A token that was written is read as its cursor**, the strings in their
valid form. -/
theorem readPageToken_tokenText {c : PageCursor} (hv : c.version = 1) :
    readPageToken (tokenText c) = encodePageToken c := by
  rw [readPageToken, if_neg (tokenText_ne_nil c), tokenText, decodeUrl_base64Url]
  simp only [unmarshalCursor_marshalCursor hv]
  rw [encodePageToken, hv]

/-! ## Pages -/

/-- `ExecutePageContext` with its tokens as texts; the rows keep their storage
keys. -/
def pageText (lib : Lib) (codec : Codec) (fs : Files) (s : Store) (coll : Bytes) (filter : Filter)
    (pageSize : Int) (pageToken : Bytes) : Except QueryErr (List Row × Bytes) := do
  reject (decide (pageSize ≤ 0)) .pageSize
  let hash ← filterHash lib filter
  let cursor ← parsePageToken (readPageToken pageToken) coll hash
  let cm ← wrap (getMeta s coll) .engine
  let md ← wrap (messageDescriptor fs cm.messageType) fun e => .engine (.schema e)
  let acc ← collect lib codec fs ⟨cm, md, filter, pageSize, cursor.lastKey⟩ s
    (indexSeed lib fs s cm filter)
  return (acc.rows, if acc.more then tokenText ⟨1, coll, hash, acc.lastKey⟩ else [])

/-- The pages with abstract tokens are those with texts. -/
theorem pageRows_readPageToken (lib : Lib) (codec : Codec) (fs : Files) (s : Store) (coll : Bytes)
    (filter : Filter) (pageSize : Int) (pageToken : Bytes) :
    pageRows lib codec fs s coll filter pageSize (readPageToken pageToken) =
      (pageText lib codec fs s coll filter pageSize pageToken).map fun p =>
        (p.1, readPageToken p.2) := by
  unfold pageRows executeRows pageText
  -- the two run alike up to the token they return
  cases reject (decide (pageSize ≤ 0)) QueryErr.pageSize with
  | error e => rfl
  | ok u =>
  cases filterHash lib filter with
  | error e => rfl
  | ok hash =>
  simp only [ok_bind]
  cases parsePageToken (readPageToken pageToken) coll hash with
  | error e => rfl
  | ok cursor =>
  cases getMeta s coll with
  | error e => rfl
  | ok cm =>
  simp only [ok_bind, wrap_ok]
  cases messageDescriptor fs cm.messageType with
  | error e => rfl
  | ok md =>
  simp only [ok_bind, wrap_ok]
  cases collect lib codec fs ⟨cm, md, filter, pageSize, cursor.lastKey⟩ s
      (indexSeed lib fs s cm filter) with
  | error e => rfl
  | ok acc =>
  show Except.ok (acc.rows, _) = Except.ok (acc.rows, readPageToken (if acc.more then _ else _))
  cases acc.more with
  | false => rfl
  | true => rw [if_pos rfl, if_pos rfl, readPageToken_tokenText rfl]

end KoraDB.Query
