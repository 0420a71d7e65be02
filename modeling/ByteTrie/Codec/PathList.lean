import ByteTrie.Codec.Sink
import ByteTrie.Cursor.Iterate
import ByteTrie.Range.Word
import ByteTrie.Trie.Build

/-!
# Path lists

A record is the length of a path in four bytes, least significant first, and the path.  A path
list is a row of records.

    write ps     announces each path, and writes encode ps, for paths shorter than 2^32
    read keep    asks about each record, and makes the set of those that are to be kept
-/

namespace ByteTrie

namespace PathList

/-- The bytes of a length. -/
def lengthWidth : Nat := 4

/-- The first length that needs more bytes. -/
def lengthLimit : Nat := UInt32.size

def record (p : Path) : List UInt8 := littleEndian lengthWidth p.length ++ p

def encode (ps : List Path) : List UInt8 := ps.flatMap record

/-! ## Writing -/

/-- Why a list is not written to its end. -/
inductive WriteError where
  | tooLong
  | sink (e : ByteTrie.WriteError)
deriving DecidableEq, Repr

def WriteError.message : WriteError → String
  | tooLong => "path longer than u32::MAX bytes"
  | sink e => e.message

def WriteError.kind : WriteError → FaultKind
  | tooLong => .invalidInput
  | sink e => e.kind

structure WriteStats where
  bytesOut : Nat
  pathCount : Nat
deriving DecidableEq, Repr

/-- What writing came to: its result, the paths that were announced before they were written, with
their indices, and the sink. -/
@[ext]
structure Written where
  result : Except WriteError WriteStats
  seen : List (Nat × Path)
  sink : Sink

/-- Writes paths after those that `stats` counts. -/
def writeAfter (stats : WriteStats) : List Path → Sink → Written
  | [], sink => ⟨.ok stats, [], sink⟩
  | p :: ps, sink =>
    if lengthLimit ≤ p.length then ⟨.error .tooLong, [(stats.pathCount, p)], sink⟩
    else match sink.write (littleEndian lengthWidth p.length) with
    | (.error e, sink) => ⟨.error (.sink e), [(stats.pathCount, p)], sink⟩
    | (.ok (), sink) =>
      match sink.write p with
      | (.error e, sink) => ⟨.error (.sink e), [(stats.pathCount, p)], sink⟩
      | (.ok (), sink) =>
        let rest := writeAfter
          ⟨stats.bytesOut + lengthWidth + p.length, stats.pathCount + 1⟩ ps sink
        { rest with seen := (stats.pathCount, p) :: rest.seen }

def write (ps : List Path) (sink : Sink) : Written := writeAfter ⟨0, 0⟩ ps sink

/-- Writes the paths below the focus of a cursor, relative to it. -/
def writeBelow (c : Cursor) (sink : Sink) : Fresh Written := return write (← c.readPaths) sink

/-! ## Reading -/

inductive ReadError where
  | truncatedLength
  | truncatedPath
deriving DecidableEq, Repr

def ReadError.message : ReadError → String
  | truncatedLength => "truncated path length"
  | truncatedPath => "truncated path"

def ReadError.kind : ReadError → FaultKind
  | truncatedLength => .unexpectedEnd
  | truncatedPath => .unexpectedEnd

/-- The number that bytes stand for, the least significant one first. -/
def ofLittleEndian (bs : List UInt8) : Nat := bs.foldr (fun b n => b.toNat + 256 * n) 0

/-- The first record of a nonempty list of bytes, and what follows it. -/
def firstRecord (src : List UInt8) : Except ReadError (Path × List UInt8) :=
  let (size, rest) := src.splitAt lengthWidth
  if size.length < lengthWidth then .error .truncatedLength
  else
    let n := ofLittleEndian size
    let (p, rest) := rest.splitAt n
    if p.length < n then .error .truncatedPath else .ok (p, rest)

structure ReadStats where
  bytesIn : Nat
  pathCount : Nat
deriving DecidableEq, Repr

/-- What going through the records came to: the paths that were kept, the questions of whether to keep
one, each an index and a path, and the fault after them, if there is one. -/
structure Selection where
  kept : List Path
  asked : List (Nat × Path)
  fault : Option ReadError

/-- Asks `keep` about one record after the other, at most `limit` of them, the first one with the
index `i`. -/
def selectUpTo (keep : Nat → Path → Bool) : (limit i : Nat) → List UInt8 → Selection
  | 0, _, _ => ⟨[], [], none⟩
  | limit + 1, i, src =>
    if src.isEmpty then ⟨[], [], none⟩
    else match firstRecord src with
      | .error e => ⟨[], [], some e⟩
      | .ok (p, rest) =>
        let later := selectUpTo keep limit (i + 1) rest
        { later with
          kept := if keep i p then p :: later.kept else later.kept
          asked := (i, p) :: later.asked }

def select (keep : Nat → Path → Bool) (src : List UInt8) : Selection :=
  selectUpTo keep src.length 0 src

/-- What reading came to: its result, and what `keep` was asked, in this order. -/
structure Reading where
  result : Except ReadError (Trie × ReadStats)
  asked : List (Nat × Path)

def readAsking (keep : Nat → Path → Bool) (src : List UInt8) : Fresh Reading := do
  let s := select keep src
  match s.fault with
  | some e => return ⟨.error e, s.asked⟩
  | none => return ⟨.ok (← Trie.ofPaths s.kept, ⟨src.length, s.asked.length⟩), s.asked⟩

/-- The paths that `keep` accepts, by index and path, and how many records there were. -/
def read (keep : Nat → Path → Bool) (src : List UInt8) :
    Fresh (Except ReadError (Trie × ReadStats)) :=
  return (← readAsking keep src).result

end PathList

end ByteTrie
