import Logfs.Mkfs.Format

/-!
# Reading the journal back

A reader walks the journal segment from offset 32: every entry says in its
header how long it is, and the commit entry is the last one.  The segment
`make_journal` writes has four entries, and each decodes to what the function
that produced it had put into the scratch buffer.
-/

namespace Logfs.Mkfs

/-- The header of a journal entry, and where it is. -/
structure JournalHeader where
  pos : Nat
  crc : List UInt8
  len : Nat
  datalen : Nat
  type : Nat
  compr : Nat
deriving DecidableEq, Repr

def readHeader (j : Buf) (pos : Nat) : JournalHeader where
  pos := pos
  crc := peek j pos 4
  len := beNat (peek j (pos + 4) 2)
  datalen := beNat (peek j (pos + 6) 2)
  type := beNat (peek j (pos + 8) 2)
  compr := beNat (peek j (pos + 10) 1)

/-- Where the next entry begins. -/
def JournalHeader.next (h : JournalHeader) : Nat := h.pos + journalHeadersize + align h.len 16

/-- The entries met from `pos` on, up to the commit entry; at most `turns` of them. -/
def walk (j : Buf) : Nat → Nat → List JournalHeader
  | 0, _ => []
  | turns + 1, pos =>
    let h := readHeader j pos
    if h.type = JeType.commit.code then [h] else h :: walk j turns h.next

/-- The payload, inflated unless `h_compr` says that it is plain. -/
def JournalHeader.decode (inflate : List UInt8 → List UInt8) (j : Buf) (h : JournalHeader) :
    List UInt8 :=
  let payload := peek j (h.pos + journalHeadersize) h.len
  if h.compr = 0 then payload else inflate payload

/-- The checksum covers the rest of the header and the payload. -/
def JournalHeader.Valid (crc32 : List UInt8 → Nat) (j : Buf) (h : JournalHeader) : Prop :=
  h.crc = logfsCrc32 crc32 (peek j (h.pos + 4) (12 + h.len))

/-! ## One entry -/

/-- The journal holds at `pos` an entry with a payload of `len` bytes for `data`, as it is or as a
stream that `D` relates to it. -/
structure EntryAt (c : Cfg) (D : List UInt8 → List UInt8 → Prop) (j : Buf) (pos len : Nat)
    (data : List UInt8) (type : JeType) : Prop where
  words : ∃ payload compr, payload.length = len ∧
    At j pos (journalEntry c.crc32 payload data.length type compr) ∧
      (compr = 0 ∧ payload = data ∨ compr = 1 ∧ D payload data)
  len_le : len ≤ data.length

section Entry

variable {c : Cfg} {D : List UInt8 → List UInt8 → Prop} {inflate : List UInt8 → List UInt8}
  {j j' : Buf} {pos len : Nat} {data : List UInt8} {type : JeType}

theorem EntryAt.congr (h : EntryAt c D j pos len data type)
    (heq : ∀ i, i < pos + journalHeadersize + len → j' i = j i) :
    EntryAt c D j' pos len data type := by
  obtain ⟨⟨payload, compr, hlen, hat, hdec⟩, hle⟩ := h
  refine ⟨⟨payload, compr, hlen, hat.congr fun i _ hi => heq i ?_, hdec⟩, hle⟩
  rw [journalEntry_length, hlen] at hi
  omega

/-- The header of an entry is read back, its checksum is right, and the payload decodes. -/
theorem EntryAt.read (h : EntryAt c (fun payload data => inflate payload = data) j pos len data type)
    (hlen : data.length < 2 ^ 16) :
    (readHeader j pos).len = len ∧ (readHeader j pos).type = type.code ∧
      (readHeader j pos).datalen = data.length ∧
      (readHeader j pos).Valid c.crc32 j ∧ (readHeader j pos).decode inflate j = data := by
  obtain ⟨⟨payload, compr, rfl, hat, hdec⟩, hle⟩ := h
  have hat' := hat
  simp only [journalEntry, List.append_assoc] at hat
  simp only [at_append, logfsCrc32_length, be_length] at hat
  obtain ⟨hcrc, h1, h2, h3, h4, h5, h6⟩ := hat
  have hl : (readHeader j pos).len = payload.length := h1.beNat_eq (by omega)
  have hcompr : compr < 256 ^ 1 := by rcases hdec with ⟨rfl, -⟩ | ⟨rfl, -⟩ <;> decide
  have hc : (readHeader j pos).compr = compr := h4.beNat_eq hcompr
  refine ⟨hl, h3.beNat_eq (by cases type <;> decide), h2.beNat_eq (by omega), ?_, ?_⟩
  · -- the bytes behind the checksum are those it was taken of
    unfold JournalHeader.Valid
    rw [hl]
    show peek j pos 4 = _
    rw [hcrc.peek_eq (logfsCrc32_length _)]
    congr 1
    symm
    have hbody := (at_append.1 (by
      rw [journalEntry, List.append_assoc] at hat'
      exact hat')).2
    rw [logfsCrc32_length] at hbody
    exact hbody.peek_eq (by simp; omega)
  · unfold JournalHeader.decode
    rw [hl, hc]
    have hp : peek j (pos + journalHeadersize) payload.length = payload := by
      simpa [journalHeadersize, Nat.add_assoc] using h6.peek_eq rfl
    show (if compr = 0 then peek j (pos + journalHeadersize) payload.length else
      inflate (peek j (pos + journalHeadersize) payload.length)) = data
    rw [hp]
    rcases hdec with ⟨rfl, rfl⟩ | ⟨rfl, hi⟩
    · rfl
    · rw [if_neg (by decide), hi]

end Entry

/-- What `write_je` makes of the journal: an entry at `pos`, in `n` bytes, nothing before it, and
nothing behind the first block, unless the entry itself begins there. -/
structure JeWrote (c : Cfg) (D : List UInt8 → List UInt8 → Prop) (j : Buf) (pos : Nat)
    (data : List UInt8) (type : JeType) (j' : Buf) (n len : Nat) : Prop where
  entry : EntryAt c D j' pos len data type
  size : n = align len 16 + journalHeadersize
  before : ∀ i, i < pos → j' i = j i
  fits : data.length ≠ 0 → pos + journalHeadersize + len ≤ c.segsize
  behind : pos % 16 = 0 → (pos ≤ blocksize ∨ type = .commit ∧ data.length ≠ 0) →
    pos + n ≤ blocksize + journalHeadersize ∧ ∀ i, blocksize + journalHeadersize ≤ i → j' i = j i

section Je

variable {c : Cfg} {D : List UInt8 → List UInt8 → Prop} {s s1 : Sb} {data : List UInt8}
  {type : JeType} {write : MkfsM (List UInt8 × JeType)} {E : Stop → Sb → Prop} {pos : Nat}

theorem align_le_of_dvd {x y : Nat} (h : x ≤ y) (hy : y % 16 = 0) : align x 16 ≤ y := by
  have h1 := align_lt (x := x) (show 0 < 16 by decide)
  have h2 : align x 16 % 16 = 0 := Nat.mul_mod_left _ _
  omega

/-- `__write_header` behind its data makes an entry. -/
theorem jeWrote_of_header {j j1 : Buf} (payload : List UInt8) (compr : Nat)
    (hbefore : ∀ i, i < pos → j1 i = j i) (hle : payload.length ≤ data.length)
    (hdec : compr = 0 ∧ payload = data ∨ compr = 1 ∧ D payload data)
    (hfit : data.length ≠ 0 → pos + journalHeadersize + payload.length ≤ c.segsize)
    (hbehind : (pos ≤ blocksize ∨ type = .commit ∧ data.length ≠ 0) →
      pos + payload.length ≤ blocksize ∧ ∀ i, blocksize + journalHeadersize ≤ i → j1 i = j i) :
    JeWrote c D j pos data type
      (writeHeader c j1 pos payload data.length type compr).1
      (writeHeader c j1 pos payload data.length type compr).2 payload.length where
  entry := ⟨⟨payload, compr, rfl, (at_append.1 (at_poke j1 pos _)).1, hdec⟩, hle⟩
  size := rfl
  before i hi := by
    rw [← hbefore i hi]
    exact poke_of_not_mem (by omega)
  fits := hfit
  behind hmod htype := by
    obtain ⟨hle, hb⟩ := hbehind htype
    have hal : align payload.length 16 ≤ blocksize - pos :=
      align_le_of_dvd (by omega) (by simp only [blocksize, blockshift] at hle ⊢; omega)
    refine ⟨?_, fun i hi => ?_⟩
    · show pos + (align payload.length 16 + journalHeadersize) ≤ _
      omega
    · rw [← hb i hi]
      refine poke_of_not_mem fun hc => ?_
      have hp : payload.length ≤ align payload.length 16 := le_align (by decide)
      have hc2 := hc.2
      rw [List.length_append, journalEntry_length, List.length_replicate] at hc2
      omega

/-- The entry that is stored stands for the data. -/
theorem storeJe_spec (hD : ∀ inp n, (c.deflate inp n).1 = true → D (c.deflate inp n).2 inp)
    (j : Buf) (hE : ∀ e, E e s) :
    Wp (storeJe c j pos data type) (fun r s' => s' = s ∧
      ∃ len, JeWrote c D j pos data type r.1 r.2 len) E s := by
  unfold storeJe
  dsimp only
  set r := logfsCompress c data (((blocksize : Int) - pos) % 2 ^ 32).toNat with hr
  -- the stream is at most as long as the space that is left of the first block
  have hout : pos ≤ blocksize → pos + r.2.length ≤ blocksize := by
    intro hpos
    have hle := c.deflate_le data (((blocksize : Int) - pos) % 2 ^ 32).toNat
    have : (((blocksize : Int) - pos) % 2 ^ 32).toNat = blocksize - pos := by
      simp only [blocksize, blockshift] at hpos ⊢
      omega
    rw [this] at hle
    have : r.2.length ≤ blocksize - pos := by rw [hr, this]; exact hle
    omega
  have hscribble : pos ≤ blocksize → ∀ i, blocksize + journalHeadersize ≤ i →
      poke j (pos + journalHeadersize) r.2 i = j i := by
    intro hpos i hi
    have := hout hpos
    exact poke_of_not_mem (by omega)
  have hbefore : ∀ i, i < pos → poke j (pos + journalHeadersize) r.2 i = j i := fun i hi =>
    poke_of_not_mem (by omega)
  split_ifs with h0 hwild hplain hmax
  · -- nothing to store
    have hnil := List.length_eq_zero_iff.1 h0
    subst hnil
    exact ⟨rfl, 0, jeWrote_of_header [] 0 (fun _ _ => rfl) (Nat.le_refl _) (Or.inl ⟨rfl, rfl⟩)
      (fun h => absurd rfl h) fun hor => ⟨hor.resolve_right fun h => h.2 rfl, fun _ _ => rfl⟩⟩
  · exact hE _
  · exact hE _
  · -- stored as it is
    have hpos : pos + data.length ≤ blocksize := by omega
    have hfit : pos + journalHeadersize + data.length ≤ c.segsize := by
      have := c.two_blocks_le
      simp only [blocksize, blockshift, journalHeadersize] at hpos ⊢
      omega
    exact ⟨rfl, data.length, jeWrote_of_header data 0 hbefore (Nat.le_refl _)
      (Or.inl ⟨rfl, rfl⟩) (fun _ => hfit) fun _ => ⟨hpos, hscribble (by omega)⟩⟩
  · -- stored compressed
    rw [not_or] at hplain
    have hended : (c.deflate data (((blocksize : Int) - pos) % 2 ^ 32).toNat).1 = true ∧
        r.2.length < data.length := by
      by_contra hno
      exact hplain.1 (if_neg hno)
    exact ⟨rfl, r.2.length, jeWrote_of_header r.2 1 hbefore (le_of_lt hended.2)
      (Or.inr ⟨rfl, hD _ _ hended.1⟩) (fun _ => not_lt.1 hwild) fun hor =>
        have hpos := hor.resolve_right fun h => hplain.2 h.1
        ⟨hout hpos, hscribble hpos⟩⟩

/-- The record of the offset, for all but the commit entry. -/
def noteJe (c : Cfg) (type : JeType) (segno pos : Nat) (s : Sb) : Sb :=
  if type ≠ .commit then { s with jeArray := s.jeArray ++ [segno * c.segsize + pos] } else s

/-- `write_je` writes an entry for what `write` produced. -/
theorem writeJe_spec (hD : ∀ inp n, (c.deflate inp n).1 = true → D (c.deflate inp n).2 inp)
    (s1 : Sb) (data : List UInt8) (type : JeType) (j : Buf) (segno : Nat)
    (hwrite : Wp write (fun r s' => r = (data, type) ∧ s' = s1) E s)
    (hE : ∀ e, E e (noteJe c type segno pos s1)) :
    Wp (writeJe c j pos segno write)
      (fun r s' => s' = noteJe c type segno pos s1 ∧
        ∃ len, JeWrote c D j pos data type r.1 r.2 len) E s := by
  unfold writeJe
  refine hwrite.bind ?_
  rintro _ s2 ⟨rfl, rfl⟩
  by_cases ht : type = .commit
  · simp only [ht, ne_eq, not_true_eq_false, if_false, noteJe] at hE ⊢
    exact storeJe_spec hD j hE
  · simp only [ht, ne_eq, not_false_eq_true, if_true, noteJe] at hE ⊢
    exact storeJe_spec hD j hE

theorem writeJe_stops {Q : Buf × Nat → Sb → Prop} {j : Buf} {segno : Nat}
    (h : Wp write (fun _ _ => False) E s) : Wp (writeJe c j pos segno write) Q E s := by
  unfold writeJe
  exact h.bind fun _ _ hf => hf.elim

end Je

/-! ## The four entries -/

/-- What `je_anchor` produces. -/
def anchorData (s : Sb) : List UInt8 :=
  let di := ((s.inoTree.get inoMaster).getD .zero).di
  anchorBytes (reservedInos * blocksize) reservedInos di.usedBytes di.data

/-- What `je_commit` produces, the other entries being at these places. -/
def commitData (c : Cfg) (s : Sb) (p0 p1 p2 : Nat) : List UInt8 :=
  let base := s.journalSeg 0 * c.segsize
  (s.jeArray ++ [base + p0, base + p1, base + p2]).flatMap (be 8)

theorem anchorData_length (s : Sb) : (anchorData s).length = 168 := by
  simp [anchorData, anchorBytes, embeddedFields, i0Blocks]

theorem dynsbBytes_length (gec usedBytes : Nat) : (dynsbBytes gec usedBytes).length = 64 := by
  simp [dynsbBytes]

/-- The journal segment `make_journal` writes in the state `s`. -/
structure Journaled (c : Cfg) (D : List UInt8 → List UInt8 → Prop) (s : Sb) (j : Buf)
    (n0 n1 n2 n3 : Nat) : Prop where
  anchor : EntryAt c D j 32 n0 (anchorData s) .anchor
  dynsb : EntryAt c D j (48 + align n0 16) n1 (dynsbBytes 0x1000 s.usedBytes) .dynsb
  objAlias : EntryAt c D j (64 + align n0 16 + align n1 16) n2 (segmentAliases c s).flatten
    .objAlias
  commit : EntryAt c D j (80 + align n0 16 + align n1 16 + align n2 16) n3
    (commitData c s 32 (48 + align n0 16) (64 + align n0 16 + align n1 16)) .commit
  inside : 96 + align n0 16 + align n1 16 + align n2 16 + n3 ≤ c.segsize
  aliases_fit : c.noSegs < 2 ^ 31 ∧ (segmentAliases c s).flatten.length ≤ 2 * blocksize
  head : ∀ i, 24 ≤ i → i < 32 → j i = 0
  rest : ∀ i, blocksize + journalHeadersize ≤ i → j i = 0

section Journal

variable {c : Cfg} {D : List UInt8 → List UInt8 → Prop} {inflate : List UInt8 → List UInt8} {s : Sb}

/-- The journal after the four calls of `write_je`. -/
theorem journaled_of_wrote {j0 j1 j2 j3 j4 : Buf} {p0 p1 p2 p3 n0 n1 n2 n3 : Nat}
    (w0 : JeWrote c D j0 32 (anchorData s) .anchor j1 p0 n0)
    (w1 : JeWrote c D j1 (32 + p0) (dynsbBytes 0x1000 s.usedBytes) .dynsb j2 p1 n1)
    (w2 : JeWrote c D j2 (32 + p0 + p1) (segmentAliases c s).flatten .objAlias j3 p2 n2)
    (w3 : JeWrote c D j3 (32 + p0 + p1 + p2) (commitData c s 32 (32 + p0) (32 + p0 + p1)) .commit
      j4 p3 n3)
    (hfit : c.noSegs < 2 ^ 31 ∧ (segmentAliases c s).flatten.length ≤ 2 * blocksize)
    (hj0 : ∀ i, 24 ≤ i → j0 i = 0) : Journaled c D s j4 n0 n1 n2 n3 := by
  have hs0 := w0.size
  have hs1 := w1.size
  have hs2 := w2.size
  simp only [journalHeadersize] at hs0 hs1 hs2
  have hq1 : 48 + align n0 16 = 32 + p0 := by omega
  have hq2 : 64 + align n0 16 + align n1 16 = 32 + p0 + p1 := by omega
  have hq3 : 80 + align n0 16 + align n1 16 + align n2 16 = 32 + p0 + p1 + p2 := by omega
  have ha0 : n0 ≤ align n0 16 := le_align (by decide)
  have ha1 : n1 ≤ align n1 16 := le_align (by decide)
  have ha2 : n2 ≤ align n2 16 := le_align (by decide)
  have hm0 : align n0 16 % 16 = 0 := Nat.mul_mod_left _ _
  have hm1 : align n1 16 % 16 = 0 := Nat.mul_mod_left _ _
  have hm2 : align n2 16 % 16 = 0 := Nat.mul_mod_left _ _
  -- the first two entries are short, so the third begins in the first block
  have hl0 := w0.entry.len_le
  have hl1 := w1.entry.len_le
  rw [anchorData_length] at hl0
  rw [dynsbBytes_length] at hl1
  have hu0 : align n0 16 ≤ 176 := align_le_of_dvd (by omega) (by decide)
  have hu1 : align n1 16 ≤ 64 := align_le_of_dvd (by omega) (by decide)
  have hcommit : (commitData c s 32 (32 + p0) (32 + p0 + p1)).length ≠ 0 := by
    simp [commitData, List.length_flatMap]
  have hlast := w3.fits hcommit
  simp only [journalHeadersize] at hlast
  refine ⟨?_, ?_, ?_, ?_, by omega, hfit, fun i hi hlt => ?_, fun i hi => ?_⟩
  · refine w0.entry.congr fun i hi => ?_
    simp only [journalHeadersize] at hi
    rw [w3.before i (by omega), w2.before i (by omega), w1.before i (by omega)]
  · rw [hq1]
    refine w1.entry.congr fun i hi => ?_
    simp only [journalHeadersize] at hi
    rw [w3.before i (by omega), w2.before i (by omega)]
  · rw [hq2]
    refine w2.entry.congr fun i hi => ?_
    simp only [journalHeadersize] at hi
    rw [w3.before i (by omega)]
  · rw [hq1, hq2, hq3]
    exact w3.entry
  · rw [w3.before i (by omega), w2.before i (by omega), w1.before i (by omega),
      w0.before i (by omega), hj0 i hi]
  · have hb0 := (w0.behind (by decide) (Or.inl (by decide))).2
    have hb1 := (w1.behind (by omega) (Or.inl (by simp only [blocksize, blockshift]; omega))).2
    have hb2 := (w2.behind (by omega) (Or.inl (by simp only [blocksize, blockshift]; omega))).2
    have hb3 := (w3.behind (by omega) (Or.inr ⟨rfl, hcommit⟩)).2
    rw [hb3 i hi, hb2 i hi, hb1 i hi, hb0 i hi,
      hj0 i (by simp only [blocksize, blockshift] at hi; omega)]

/-- The inode tree with an inode for the inode file, and other recorded offsets. -/
def journalState (s : Sb) (je : List Nat) : Sb :=
  { s with
    inoTree := match s.inoTree.get inoMaster with
      | some _ => s.inoTree
      | none => s.inoTree.insert inoMaster .zero
    jeArray := je }

/-- `find_or_create_inode` of the inode file. -/
theorem wp_findMaster {Q : Inode → Sb → Prop} {E : Stop → Sb → Prop} :
    Wp (findOrCreateInode inoMaster) Q E s ↔
      Q ((s.inoTree.get inoMaster).getD .zero) (journalState s s.jeArray) := by
  unfold findOrCreateInode journalState
  rw [wp_bind, wp_get]
  cases h : s.inoTree.get inoMaster with
  | none => rfl
  | some inode => rfl

/-- The write `make_journal` issues, where `j` is the journal. -/
def journalWrite (c : Cfg) (s : Sb) (j : Buf) : DevWrite :=
  ⟨.journal, s.journalSeg 0 * c.segsize % 2 ^ 32, c.segsize, j⟩

theorem journalWrite_ofs (c : Cfg) (s : Sb) (j : Buf) :
    (journalWrite c s j).ofs = s.journalSeg 0 * c.segsize % 2 ^ 32 := rfl

/-- A run of `make_journal` that was cut off. -/
def JournalCut (c : Cfg) (D : List UInt8 → List UInt8 → Prop) (s s' : Sb) : Prop :=
  ∃ je, s' = journalState s je ∨ ∃ j n, (∃ n0 n1 n2 n3, Journaled c D s j n0 n1 n2 n3) ∧
    n ≤ c.segsize ∧
    Did [.issue (journalWrite c s j)] (journalWrite c s j).ofs n j (journalState s je) s'

/-- `make_journal` issues one write, of the four entries. -/
theorem makeJournal_spec (hD : ∀ inp n, (c.deflate inp n).1 = true → D (c.deflate inp n).2 inp) :
    Wp (makeJournal c)
      (fun err s' => ∃ j je, (∃ n0 n1 n2 n3, Journaled c D s j n0 n1 n2 n3) ∧
        let w := journalWrite c s j
        (err = 0 ∧ Did [.done w true, .issue w] w.ofs c.segsize j (journalState s je) s' ∨
          err = - EIO ∧ ∃ n, n ≤ c.segsize ∧
            Did [.done w false, .issue w] w.ofs n j (journalState s je) s'))
      (fun _ s' => JournalCut c D s s') s := by
  set E : Stop → Sb → Prop := fun _ s' => JournalCut c D s s' with hEdef
  have hE : ∀ e je, E e (journalState s je) := fun _ je => ⟨je, Or.inl rfl⟩
  set base := s.journalSeg 0 * c.segsize with hbase
  unfold makeJournal
  rw [wp_bind, wp_get, show align segmentHeadersize 16 = 32 by decide]
  -- the anchor
  refine (writeJe_spec (E := E) hD (journalState s s.jeArray) (anchorData s) .anchor _
    (s.journalSeg 0) ?_ fun e => hE e _).bind ?_
  · unfold jeAnchor
    rw [wp_bind, wp_findMaster, wp_pure]
    exact ⟨rfl, rfl⟩
  rintro ⟨j1, p0⟩ s1 ⟨hs1, n0, w0⟩
  have he1 : s1 = journalState s (s.jeArray ++ [base + 32]) := hs1
  -- the dynamic superblock
  refine (writeJe_spec (E := E) hD s1 (dynsbBytes 0x1000 s.usedBytes) .dynsb _
    (s.journalSeg 0) ?_ fun e => ?_).bind ?_
  · unfold jeDynsb
    rw [wp_bind, wp_get, wp_pure, he1]
    exact ⟨rfl, rfl⟩
  · rw [he1]
    exact hE e _
  rintro ⟨j2, p1⟩ s2 ⟨hs2, n1, w1⟩
  have he2 : s2 = journalState s (s.jeArray ++ [base + 32] ++ [base + (32 + p0)]) := by
    rw [hs2, he1]
    rfl
  -- the aliases
  have halias : segmentAliases c s2 = segmentAliases c s := by rw [he2]; rfl
  by_cases hwild : 2 ^ 31 ≤ c.noSegs ∨ 2 * blocksize < (segmentAliases c s).flatten.length
  · refine (writeJe_stops (Q := fun _ _ => False) ?_).bind fun _ _ h => h.elim
    unfold jeAlias
    rw [wp_bind, wp_get, halias]
    dsimp only
    rw [if_pos hwild, wp_throw, he2]
    exact hE .wild _
  refine (writeJe_spec (E := E) hD s2 (segmentAliases c s).flatten .objAlias _
    (s.journalSeg 0) ?_ fun e => ?_).bind ?_
  · unfold jeAlias
    rw [wp_bind, wp_get, halias]
    dsimp only
    rw [if_neg hwild, wp_pure]
    exact ⟨rfl, rfl⟩
  · rw [he2]
    exact hE e _
  rintro ⟨j3, p2⟩ s3 ⟨hs3, n2, w2⟩
  have he3 : s3 = journalState s (s.jeArray ++ [base + 32] ++ [base + (32 + p0)] ++
      [base + (32 + p0 + p1)]) := by
    rw [hs3, he2]
    rfl
  -- the commit entry
  refine (writeJe_spec (E := E) hD s3 (commitData c s 32 (32 + p0) (32 + p0 + p1)) .commit _
    (s.journalSeg 0) ?_ fun e => ?_).bind ?_
  · unfold jeCommit
    rw [wp_bind, wp_get, wp_pure, he3]
    refine ⟨?_, rfl⟩
    simp only [journalState, commitData, List.append_assoc, List.cons_append, List.nil_append, hbase]
  · rw [he3]
    exact hE e _
  rintro ⟨j4, p3⟩ s4 ⟨hs4, n3, w3⟩
  have he4 : s4 = journalState s (s.jeArray ++ [base + 32] ++ [base + (32 + p0)] ++
      [base + (32 + p0 + p1)]) := by
    rw [hs4, he3]
    rfl
  have hj : ∃ n0 n1 n2 n3, Journaled c D s j4 n0 n1 n2 n3 := by
    refine ⟨n0, n1, n2, n3, journaled_of_wrote w0 w1 w2 w3 (by omega) fun i hi => ?_⟩
    exact poke_of_not_mem (by rw [segmentHeader_length]; simp only [segmentHeadersize]; omega)
  rw [he4]
  refine (devWrite_spec .journal (base % 2 ^ 32) c.segsize j4 _).mono ?_ ?_
  · exact fun err s5 hd => ⟨j4, _, hj, hd⟩
  · rintro e s5 ⟨n, hn, hd⟩
    exact ⟨_, Or.inr ⟨j4, n, hj, hn, hd⟩⟩

end Journal

/-! ## What a reader finds -/

/-- The journal segment `j`, written in the state `s`, reads back as the entries `h0` to `h3`. -/
structure Reads (c : Cfg) (inflate : List UInt8 → List UInt8) (s : Sb) (j : Buf)
    (h0 h1 h2 h3 : JournalHeader) : Prop where
  walk : ∀ turns, 4 ≤ turns → walk j turns 32 = [h0, h1, h2, h3]
  types : h0.type = JeType.anchor.code ∧ h1.type = JeType.dynsb.code ∧
    h2.type = JeType.objAlias.code ∧ h3.type = JeType.commit.code
  aligned : ∀ h ∈ [h0, h1, h2, h3], h.pos % 16 = 0
  apart : h0.pos + journalHeadersize + h0.len ≤ h1.pos ∧
    h1.pos + journalHeadersize + h1.len ≤ h2.pos ∧
    h2.pos + journalHeadersize + h2.len ≤ h3.pos ∧
    h3.pos + journalHeadersize + h3.len ≤ c.segsize
  valid : ∀ h ∈ [h0, h1, h2, h3], h.Valid c.crc32 j ∧ h.datalen = (h.decode inflate j).length
  anchor : h0.decode inflate j = anchorData s
  dynsb : h1.decode inflate j = dynsbBytes 0x1000 s.usedBytes
  objAlias : h2.decode inflate j = (segmentAliases c s).flatten
  commit : h3.decode inflate j = be 8 (s.journalSeg 0 * c.segsize + h0.pos) ++
    be 8 (s.journalSeg 0 * c.segsize + h1.pos) ++ be 8 (s.journalSeg 0 * c.segsize + h2.pos)

section Read

variable {c : Cfg} {inflate : List UInt8 → List UInt8} {s : Sb} {j : Buf} {n0 n1 n2 n3 : Nat}

/-- Four entries one behind the other are what a walk meets. -/
theorem walk_four {p0 p1 p2 p3 : Nat} (t0 : (readHeader j p0).type = JeType.anchor.code)
    (t1 : (readHeader j p1).type = JeType.dynsb.code)
    (t2 : (readHeader j p2).type = JeType.objAlias.code)
    (t3 : (readHeader j p3).type = JeType.commit.code) (h0 : (readHeader j p0).next = p1)
    (h1 : (readHeader j p1).next = p2) (h2 : (readHeader j p2).next = p3) (turns : Nat)
    (hturns : 4 ≤ turns) :
    walk j turns p0 = [readHeader j p0, readHeader j p1, readHeader j p2, readHeader j p3] := by
  obtain ⟨t, rfl⟩ : ∃ t, turns = t + 4 := ⟨turns - 4, by omega⟩
  simp only [walk, t0, t1, t2, t3, h0, h1, h2]
  simp [JeType.code]

/-- A walk meets the four entries, and each of them decodes. -/
theorem Journaled.reads (h : Journaled c (fun payload data => inflate payload = data) s j n0 n1 n2 n3)
    (hje : s.jeArray = []) : ∃ h0 h1 h2 h3, Reads c inflate s j h0 h1 h2 h3 := by
  have hcommit : ∀ p1 p2, commitData c s 32 p1 p2 = be 8 (s.journalSeg 0 * c.segsize + 32) ++
      be 8 (s.journalSeg 0 * c.segsize + p1) ++ be 8 (s.journalSeg 0 * c.segsize + p2) := by
    intro p1 p2
    simp [commitData, hje]
  obtain ⟨q0, t0, dl0, v0, dec0⟩ := h.anchor.read (by rw [anchorData_length]; decide)
  obtain ⟨q1, t1, dl1, v1, dec1⟩ := h.dynsb.read (by rw [dynsbBytes_length]; decide)
  obtain ⟨q2, t2, dl2, v2, dec2⟩ :=
    h.objAlias.read (lt_of_le_of_lt h.aliases_fit.2 (by decide))
  obtain ⟨q3, t3, dl3, v3, dec3⟩ := h.commit.read (by rw [hcommit]; simp)
  have hm0 : align n0 16 % 16 = 0 := Nat.mul_mod_left _ _
  have hm1 : align n1 16 % 16 = 0 := Nat.mul_mod_left _ _
  have hm2 : align n2 16 % 16 = 0 := Nat.mul_mod_left _ _
  have ha0 : n0 ≤ align n0 16 := le_align (by decide)
  have ha1 : n1 ≤ align n1 16 := le_align (by decide)
  have ha2 : n2 ≤ align n2 16 := le_align (by decide)
  have hinside := h.inside
  have hp : ∀ pos, (readHeader j pos).pos = pos := fun _ => rfl
  refine ⟨_, _, _, _, walk_four t0 t1 t2 t3 ?_ ?_ ?_, ⟨t0, t1, t2, t3⟩, ?_, ?_, ?_, dec0, dec1,
    dec2, dec3.trans (hcommit _ _)⟩
  · rw [JournalHeader.next, q0, hp]
    rfl
  · rw [JournalHeader.next, q1, hp]
    simp only [journalHeadersize]
    omega
  · rw [JournalHeader.next, q2, hp]
    simp only [journalHeadersize]
    omega
  · simp only [List.mem_cons, List.not_mem_nil, or_false]
    rintro h (rfl | rfl | rfl | rfl) <;> rw [hp] <;> omega
  · rw [q0, q1, q2, q3, hp, hp, hp, hp]
    simp only [journalHeadersize]
    omega
  · simp only [List.mem_cons, List.not_mem_nil, or_false]
    rintro h (rfl | rfl | rfl | rfl)
    · exact ⟨v0, by rw [dl0, dec0]⟩
    · exact ⟨v1, by rw [dl1, dec1]⟩
    · exact ⟨v2, by rw [dl2, dec2]⟩
    · exact ⟨v3, by rw [dl3, dec3]⟩

end Read

/-- The run of `m` from `s` comes to issue the write `w`. -/
def Issues {α : Type} (m : MkfsM α) (s : Sb) (w : DevWrite) : Prop :=
  ∃ tr, (after m s).trace = tr ++ .issue w :: s.trace

section Issue

variable {c : Cfg} {s : Sb} {w : DevWrite}

theorem last_issue (evs : List Event) {tr tl : List Event} {w' : DevWrite}
    (h : evs ++ .issue w' :: tl = tr ++ .issue w :: tl) : w = w' := by
  rw [← List.singleton_append, ← List.append_assoc, ← List.singleton_append (l := tl),
    ← List.append_assoc] at h
  have := List.append_inj_right' (List.append_cancel_right h) rfl
  simpa using this.symm

/-- The write that is issued is the one of the specification. -/
theorem journal_issued {D : List UInt8 → List UInt8 → Prop}
    (hD : ∀ inp n, (c.deflate inp n).1 = true → D (c.deflate inp n).2 inp)
    (hw : Issues (makeJournal c) s w) :
    ∃ j, w = journalWrite c s j ∧ ∃ n0 n1 n2 n3, Journaled c D s j n0 n1 n2 n3 := by
  obtain ⟨tr, htr⟩ := hw
  refine after_of_wp (P := fun s' => s'.trace = tr ++ .issue w :: s.trace →
    ∃ j, w = journalWrite c s j ∧ ∃ n0 n1 n2 n3, Journaled c D s j n0 n1 n2 n3)
    ((makeJournal_spec hD).mono ?_ ?_) htr
  · rintro err s' ⟨j, je, hj, hd⟩ ht
    refine ⟨j, ?_, hj⟩
    rcases hd with ⟨-, hd⟩ | ⟨-, n, -, hd⟩
    · rw [hd.same] at ht
      exact last_issue [.done _ true] ht
    · rw [hd.same] at ht
      exact last_issue [.done _ false] ht
  · rintro e s' ⟨je, rfl | ⟨j, n, hj, -, hd⟩⟩ ht
    · have := congrArg List.length ht
      simp [journalState] at this
      omega
    · rw [hd.same] at ht
      exact ⟨j, last_issue [] ht, hj⟩

/-- A run that returns has issued the write. -/
theorem issues_of_returns (h : returns (makeJournal c) s = true) :
    ∃ w, Issues (makeJournal c) s w := by
  obtain ⟨err, hrun⟩ := ok_of_returns h
  obtain ⟨j, je, -, hd⟩ :=
    (makeJournal_spec (D := fun _ _ => True) fun _ _ _ => trivial).of_ok hrun
  rcases hd with ⟨-, hd⟩ | ⟨-, n, -, hd⟩
  · exact ⟨_, [_], by rw [hd.same]; rfl⟩
  · exact ⟨_, [_], by rw [hd.same]; rfl⟩

/-- The journal segment reads back: four entries, each of which decodes to what the function that
produced it put into the scratch buffer. -/
theorem make_journal_reads_back (c : Cfg) (inflate : List UInt8 → List UInt8)
    (hinf : ∀ inp n, (c.deflate inp n).1 = true → inflate (c.deflate inp n).2 = inp) (s : Sb)
    (hje : s.jeArray = []) (w : DevWrite) (hw : Issues (makeJournal c) s w) :
    w.size = c.segsize ∧ ∃ h0 h1 h2 h3, Reads c inflate s w.buf h0 h1 h2 h3 := by
  obtain ⟨j, rfl, n0, n1, n2, n3, hj⟩ :=
    journal_issued (D := fun payload data => inflate payload = data) hinf hw
  exact ⟨rfl, hj.reads hje⟩

/-- A block device of sixteen segments of one gigabyte, the first `bad` of which cannot be
erased; the state before `make_journal`. -/
def sixteenGiB : Cfg := sampleCfg .bdev 30 16 (by decide) (by decide) (by decide)

def badStart (bad : Nat) : Sb :=
  Sb.zero (List.replicate bad .error ++ List.replicate 20 (.ok (2 ^ 30)))

def storedStart (bad : Nat) : Sb :=
  after (mkfsStore sixteenGiB) (after (mkfsPrepare sixteenGiB) (badStart bad))

/-- The journal of a device without bad segments. -/
theorem make_journal_reads_back_sixteen : ∃ w, Issues (makeJournal sixteenGiB) (storedStart 0) w ∧
    ∃ h0 h1 h2 h3, Reads sixteenGiB restoreZeros (storedStart 0) w.buf h0 h1 h2 h3 := by
  obtain ⟨w, hw⟩ := issues_of_returns (c := sixteenGiB) (s := storedStart 0) (by decide +kernel)
  exact ⟨w, hw, (make_journal_reads_back sixteenGiB restoreZeros restoreZeros_stripZeros
    (storedStart 0) (by decide +kernel) w hw).2⟩

/-- The journal segment is written to its place just when that is below four gigabytes. -/
theorem journal_write_offset_iff (c : Cfg) (s : Sb) (w : DevWrite)
    (hw : Issues (makeJournal c) s w) :
    w.ofs = s.journalSeg 0 * c.segsize ↔ s.journalSeg 0 * c.segsize < 2 ^ 32 := by
  obtain ⟨j, rfl, -⟩ := journal_issued (D := fun _ _ => True) (fun _ _ _ => trivial) hw
  rw [journalWrite_ofs]
  refine ⟨fun h => ?_, Nat.mod_eq_of_lt⟩
  rw [← h]
  exact Nat.mod_lt _ (by decide)

/-- The journal goes to segment 1. -/
theorem journal_write_offset_iff_sixteen : ∃ w, Issues (makeJournal sixteenGiB) (storedStart 0) w ∧
    w.ofs = (storedStart 0).journalSeg 0 * sixteenGiB.segsize := by
  obtain ⟨w, hw⟩ := issues_of_returns (c := sixteenGiB) (s := storedStart 0) (by decide +kernel)
  exact ⟨w, hw, (journal_write_offset_iff sixteenGiB (storedStart 0) w hw).2 (by decide +kernel)⟩

/-- With four bad segments the journal belongs to segment 5 and goes to segment 1. -/
theorem journal_write_misplaced :
    ¬ ∀ (c : Cfg) (outcomes : List Outcome) (s1 s2 : Sb) (w : DevWrite),
      mkfsPrepare c (Sb.zero outcomes) = .ok () s1 → mkfsStore c s1 = .ok () s2 →
      Issues (makeJournal c) s2 w → w.ofs = s2.journalSeg 0 * c.segsize := by
  intro h
  obtain ⟨w, hw⟩ := issues_of_returns (c := sixteenGiB) (s := storedStart 4) (by decide +kernel)
  obtain ⟨_, h1⟩ := ok_of_returns (m := mkfsPrepare sixteenGiB) (s := badStart 4) (by decide +kernel)
  obtain ⟨_, h2⟩ := ok_of_returns (m := mkfsStore sixteenGiB)
    (s := after (mkfsPrepare sixteenGiB) (badStart 4)) (by decide +kernel)
  have hofs := h sixteenGiB _ _ _ w h1 h2 hw
  obtain ⟨j, rfl, -⟩ := journal_issued (D := fun _ _ => True) (fun _ _ _ => trivial) hw
  have hseg : (storedStart 4).journalSeg 0 = 5 := by decide +kernel
  rw [journalWrite_ofs, hseg] at hofs
  exact absurd hofs (by decide +kernel)

end Issue

end Logfs.Mkfs
