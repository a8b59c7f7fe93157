import Logfs.Mkfs.Readwrite

/-!
# The journal

`make_journal` writes one segment with four entries: the inode of the inode
file, the dynamic superblock, the segment entries as object aliases, and the
commit entry, which lists the offsets of the others.
-/

namespace Logfs.Mkfs

/-- `logfs_compress`: the length of the stream when it ended and is shorter than the input, and
the bytes that were written in any case. -/
def logfsCompress (c : Cfg) (inp : List UInt8) (outlen : Nat) : Option Nat × List UInt8 :=
  let r := c.deflate inp outlen
  (if r.1 ∧ r.2.length < inp.length then some r.2.length else none, r.2)

/-- `je_anchor`. -/
def jeAnchor : MkfsM (List UInt8 × JeType) := do
  let inode ← findOrCreateInode inoMaster
  pure (anchorBytes (reservedInos * blocksize) reservedInos inode.di.usedBytes inode.di.data,
    .anchor)

/-- `je_dynsb`. -/
def jeDynsb : MkfsM (List UInt8 × JeType) := do
  let s ← get
  pure (dynsbBytes 0x1000 s.usedBytes, .dynsb)

/-- The alias of the entry of segment `i`, unless the entry is all zero. -/
def segmentAlias (s : Sb) (i : Nat) : Option (List UInt8) :=
  let se := s.segmentEntry i
  if se.ecLevel ≠ 0 ∨ se.valid ≠ 0 then
    some (aliasBytes inoSegfile (i / blockFactor) (se.ecLevel <<< 32 ||| se.valid)
      (i % blockFactor))
  else none

/-- The aliases of all segments. -/
def segmentAliases (c : Cfg) (s : Sb) : List (List UInt8) :=
  (List.range c.noSegs).filterMap (segmentAlias s)

/-- `je_alias`.  The counter is an `int`, and the scratch buffer has room for two blocks. -/
def jeAlias (c : Cfg) : MkfsM (List UInt8 × JeType) := do
  let s ← get
  let aliases := (segmentAliases c s).flatten
  if 2 ^ 31 ≤ c.noSegs ∨ 2 * blocksize < aliases.length then throw .wild
  else pure (aliases, .objAlias)

/-- `je_commit`. -/
def jeCommit : MkfsM (List UInt8 × JeType) := do
  let s ← get
  pure (s.jeArray.flatMap (be 8), .commit)

/-- `__write_header` behind data that is in place, with the zeros that pad it. -/
def writeHeader (c : Cfg) (journal : Buf) (jpos : Nat) (data : List UInt8) (datalen : Nat)
    (type : JeType) (compr : Nat) : Buf × Nat :=
  let padLen := align data.length 16
  (poke journal jpos (journalEntry c.crc32 data datalen type compr ++
    List.replicate (padLen - data.length) 0), padLen + journalHeadersize)

/-- `write_je` from the point where it knows the data: compressed if that makes them shorter and
this is not the commit entry, else as they are. -/
def storeJe (c : Cfg) (journal : Buf) (jpos : Nat) (data : List UInt8) (type : JeType) :
    MkfsM (Buf × Nat) :=
  if data.length = 0 then pure (writeHeader c journal jpos [] 0 type 0)
  else
    let max : Int := blocksize - jpos
    let r := logfsCompress c data (max % 2 ^ 32).toNat
    if c.segsize < jpos + journalHeadersize + r.2.length then throw .wild
    else
      let journal := poke journal (jpos + journalHeadersize) r.2
      if r.1 = none ∨ type = .commit then
        if (data.length : Int) > max then throw .bug
        else pure (writeHeader c journal jpos data data.length type 0)
      else pure (writeHeader c journal jpos r.2 data.length type 1)

/-- `write_je`: the journal with the entry at `jpos`, and the bytes the entry takes. -/
def writeJe (c : Cfg) (journal : Buf) (jpos segno : Nat) (write : MkfsM (List UInt8 × JeType)) :
    MkfsM (Buf × Nat) := do
  let (data, type) ← write
  if type ≠ .commit then
    modify fun s => { s with jeArray := s.jeArray ++ [segno * c.segsize + jpos] }
  else pure ()
  storeJe c journal jpos data type

/-- `make_journal`; the offset is a product of 32 bit numbers. -/
def makeJournal (c : Cfg) : MkfsM Int := do
  let s ← get
  let seg := s.journalSeg 0
  let jpos := align segmentHeadersize 16
  let j := poke (fun _ => 0) 0 (segmentHeader c.crc32 .journal 0 seg 0 seg)
  let (j, n) ← writeJe c j jpos seg jeAnchor
  let jpos := jpos + n
  let (j, n) ← writeJe c j jpos seg jeDynsb
  let jpos := jpos + n
  let (j, n) ← writeJe c j jpos seg (jeAlias c)
  let jpos := jpos + n
  let (j, _) ← writeJe c j jpos seg jeCommit
  devWrite .journal (seg * c.segsize % 2 ^ 32) c.segsize j

end Logfs.Mkfs
