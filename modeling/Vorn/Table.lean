import Vorn.Number.Word
import Vorn.Value

/-!
# Hashes

A hash maps keys to values. Integers, truth values and texts are keys. Entries are kept in buckets
by the digest of their key, buckets in the order in which they were first used, so that entries
whose keys share a digest stand next to each other.
-/

namespace Vorn

/-! ## Digests -/

namespace Fnv

def offset : UInt64 := 0xcbf29ce484222325

def prime : UInt64 := 0x100000001b3

/-- The 64-bit FNV-1a hash of a sequence of bytes. -/
def hash (bytes : List UInt8) : UInt64 :=
  bytes.foldl (fun h b => (h ^^^ b.toUInt64) * prime) offset

/-- The hash of the bytes that encode a text. -/
def ofString (s : String) : UInt64 := hash s.toUTF8.toList

end Fnv

/-- A value that a hash can be indexed with. -/
inductive Key where
  | int (n : Int)
  | bool (b : Bool)
  | string (s : String)
deriving DecidableEq, Repr

/-- What buckets are found by. -/
structure Digest where
  ty : Ty
  bits : UInt64
deriving DecidableEq, Repr

namespace Key

def digest : Key → Digest
  | int n => ⟨.integer, (Word.unsigned n).toUInt64⟩
  | bool b => ⟨.boolean, if b then 1 else 0⟩
  | string s => ⟨.string, Fnv.ofString s⟩

/-- The key as a value that came from `pos`. -/
def value (k : Key) (pos : Pos) : Value :=
  match k with
  | int n => .int n pos
  | bool b => .bool b
  | string s => .string s pos

end Key

def Value.key? : Value → Option Key
  | .int n _ => some (.int n)
  | .bool b => some (.bool b)
  | .string s _ => some (.string s)
  | _ => none

/-! ## Tables -/

/-- A key with the place it came from, and its value. -/
structure Entry where
  key : Key
  pos : Pos
  value : Value

def Entry.keyValue (e : Entry) : Value := e.key.value e.pos

structure Bucket where
  digest : Digest
  entries : List Entry

structure Table where
  buckets : List Bucket
deriving Inhabited

namespace Table

def empty : Table := ⟨[]⟩

/-- All entries, bucket by bucket. -/
def entries (t : Table) : List Entry := t.buckets.flatMap (·.entries)

def size (t : Table) : Nat := t.entries.length

/-- Puts a value into a bucket. A key that is there keeps its place and its origin. -/
def putEntry (k : Key) (pos : Pos) (v : Value) : List Entry → List Entry
  | [] => [⟨k, pos, v⟩]
  | e :: es => if e.key = k then { e with value := v } :: es else e :: putEntry k pos v es

def putBucket (d : Digest) (k : Key) (pos : Pos) (v : Value) : List Bucket → List Bucket
  | [] => [⟨d, putEntry k pos v []⟩]
  | b :: bs =>
    if b.digest = d then { b with entries := putEntry k pos v b.entries } :: bs
    else b :: putBucket d k pos v bs

/-- Maps the key, which came from `pos`, to the value. -/
def insert (t : Table) (k : Key) (pos : Pos) (v : Value) : Table :=
  ⟨putBucket k.digest k pos v t.buckets⟩

/-- The value of a key. -/
def get? (t : Table) (k : Key) : Option Value := do
  let d := k.digest
  let bucket ← t.buckets.find? (·.digest = d)
  let entry ← bucket.entries.find? (·.key = k)
  return entry.value

end Table

end Vorn
