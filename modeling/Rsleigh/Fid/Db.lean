import Rsleigh.Lib.Repeated
import Rsleigh.Lib.Utf8
import Rsleigh.Fid.Hash
import Mathlib.Logic.Function.Basic

namespace Rsleigh.Fid

open Parsing

-- db.rs. The two indexes are maps with an empty list for what they do not hold.
structure FidEntry where
  hash : FidHashQuad
  libId : UInt16
  name : String

structure FidDb where
  libs : List String
  entries : List FidEntry
  byFull : UInt64 → List Nat
  bySpecific : UInt64 → List Nat

def FidDb.new : FidDb := ⟨[], [], fun _ => [], fun _ => []⟩

def FidDb.addLib (db : FidDb) (name : String) : FidDb × UInt16 :=
  match db.libs.idxOf? name with
  | some i => (db, UInt16.ofNat i)
  | none => ({ db with libs := db.libs ++ [name] }, UInt16.ofNat db.libs.length)

def FidDb.insert (db : FidDb) (entry : FidEntry) : FidDb :=
  let idx := db.entries.length
  { db with
    byFull := Function.update db.byFull entry.hash.full (db.byFull entry.hash.full ++ [idx])
    bySpecific := Function.update db.bySpecific entry.hash.specific (db.bySpecific entry.hash.specific ++ [idx])
    entries := db.entries ++ [entry] }

def FidDb.matchSpecific (db : FidDb) (specific : UInt64) : List Nat := db.bySpecific specific

def FidDb.matchFull (db : FidDb) (full : UInt64) : List Nat := db.byFull full

-- byteorder, little-endian: the number is narrowed to its bytes.
def writeLe : Nat → Nat → List UInt8
  | 0, _ => []
  | size + 1, value => UInt8.ofNat value :: writeLe size (value / 256)

def readLe : Nat → Parser UInt8 Nat
  | 0, input => some (0, input)
  | _ + 1, [] => none
  | size + 1, byte :: input => (readLe size input).map fun (value, rest) => (byte.toNat + 256 * value, rest)

def readExact (size : Nat) : Parser UInt8 (List UInt8) := fun input =>
  if input.length < size then none else some (input.take size, input.drop size)

def magic : Nat := 0x46494431

def asBytes (name : String) : List UInt8 := Utf8.encode name.toList

def fromUtf8Lossy (bytes : List UInt8) : String := String.ofList (Utf8.decodeLossy bytes)

-- The length as u16, and then all the bytes.
def writeName (name : String) : List UInt8 := writeLe 2 (asBytes name).length ++ asBytes name

def readName : Parser UInt8 String := fun input => do
  let (size, input) ← readLe 2 input
  let (bytes, input) ← readExact size input
  return (fromUtf8Lossy bytes, input)

def writeEntry (entry : FidEntry) : List UInt8 :=
  writeLe 8 entry.hash.full.toNat ++ (writeLe 8 entry.hash.specific.toNat ++ (writeLe 4 entry.hash.codeUnits.toNat ++
    (writeLe 4 entry.hash.bodyLen.toNat ++ (writeLe 2 entry.libId.toNat ++ writeName entry.name))))

def readEntry : Parser UInt8 FidEntry := fun input => do
  let (full, input) ← readLe 8 input
  let (specific, input) ← readLe 8 input
  let (codeUnits, input) ← readLe 4 input
  let (bodyLen, input) ← readLe 4 input
  let (libId, input) ← readLe 2 input
  let (name, input) ← readName input
  return (⟨⟨UInt64.ofNat full, UInt64.ofNat specific, UInt32.ofNat codeUnits, UInt32.ofNat bodyLen⟩,
    UInt16.ofNat libId, name⟩, input)

-- What goes into gzip and comes out of it.
def FidDb.write (db : FidDb) : List UInt8 :=
  writeLe 4 magic ++ (writeLe 4 db.libs.length ++ (db.libs.flatMap writeName ++
    (writeLe 4 db.entries.length ++ db.entries.flatMap writeEntry)))

def FidDb.read (bytes : List UInt8) : Option FidDb := do
  let (found, input) ← readLe 4 bytes
  if found ≠ magic then none
  else
    let (nLibs, input) ← readLe 4 input
    let (libs, input) ← times readName nLibs input
    let (nEntries, input) ← readLe 4 input
    let (entries, _) ← times readEntry nEntries input
    return entries.foldl FidDb.insert { FidDb.new with libs := libs }

-- A database is built by calls. The library of an entry is told by the call of `add_lib` whose result it holds.
inductive Call where
  | addLib (name : String)
  | insert (hash : FidHashQuad) (library : Nat) (name : String)

-- The database, what each call of `add_lib` was given and returned, and for each entry the library it was made with.
structure Building where
  db : FidDb
  added : List (String × UInt16)
  libraries : List String

def Building.start : Building := ⟨FidDb.new, [], []⟩

def Building.call (building : Building) : Call → Building
  | .addLib name =>
    let result := building.db.addLib name
    { building with db := result.1, added := building.added ++ [(name, result.2)] }
  | .insert hash library name =>
    match building.added[library]? with
    | none => building
    | some pair =>
      { building with
        db := building.db.insert ⟨hash, pair.2, name⟩
        libraries := building.libraries ++ [pair.1] }

def build (calls : List Call) : Building := calls.foldl Building.call .start

end Rsleigh.Fid
