import Logfs.Mkfs.Walk

/-!
# The room of a journal entry

`write_je` takes what is left of the first block for the room of the payload, and forgets
the header in front of it: a payload that comes within sixteen bytes of the limit makes an
entry that ends behind the block, and the space that the compressor is given always does.
-/

namespace Logfs.Mkfs

/-- `max` of `write_je`, as the length that `logfs_compress` takes. -/
def compressLimit (jpos : Nat) : Nat := (((blocksize : Int) - jpos) % 2 ^ 32).toNat

/-- The length of the payload that is stored: of the stream if there is one that is shorter than
the data and this is not the commit entry, else of the data. -/
def storedLen (c : Cfg) (jpos : Nat) (data : List UInt8) (type : JeType) : Nat :=
  match (logfsCompress c data (compressLimit jpos)).1 with
  | some n => if type = .commit then data.length else n
  | none => data.length

/-- Whatever the call returns, the entry ends within the block. -/
def EntryInside (c : Cfg) (j : Buf) (jpos segno : Nat) (write : MkfsM (List UInt8 × JeType))
    (s : Sb) : Prop :=
  ∀ r s', writeJe c j jpos segno write s = .ok r s' → jpos + r.2 ≤ blocksize

/-- The space for the output of the compressor, if it is called, ends within the block. -/
def LimitInside (jpos : Nat) (data : List UInt8) : Prop :=
  data.length ≠ 0 → jpos + journalHeadersize + compressLimit jpos ≤ blocksize

section Room

variable {c : Cfg} {j : Buf} {jpos segno : Nat} {data : List UInt8} {type : JeType} {s s1 : Sb}
  {write : MkfsM (List UInt8 × JeType)}

theorem compressLimit_eq (h : jpos < blocksize) : compressLimit jpos = blocksize - jpos := by
  simp only [compressLimit, blocksize, blockshift] at h ⊢
  omega

/-- The output of `deflate` stays within the limit. -/
theorem logfsCompress_le (h : jpos < blocksize) :
    jpos + (logfsCompress c data (compressLimit jpos)).2.length ≤ blocksize := by
  have hle := c.deflate_le data (compressLimit jpos)
  have heq := compressLimit_eq h
  have hout : (logfsCompress c data (compressLimit jpos)).2.length ≤ compressLimit jpos := hle
  omega

theorem logfsCompress_some {n : Nat} (h : (logfsCompress c data (compressLimit jpos)).1 = some n) :
    n = (logfsCompress c data (compressLimit jpos)).2.length := by
  simp only [logfsCompress] at h ⊢
  split at h
  · exact (Option.some.inj h).symm
  · cases h

/-- Without a shorter stream, and for the commit entry, the data are stored. -/
theorem storedLen_plain
    (h : (logfsCompress c data (compressLimit jpos)).1 = none ∨ type = .commit) :
    storedLen c jpos data type = data.length := by
  unfold storedLen
  cases hout : (logfsCompress c data (compressLimit jpos)).1 with
  | none => rfl
  | some n => exact if_pos (h.resolve_left (by rw [hout]; simp))

theorem storedLen_stream
    (h : ¬ ((logfsCompress c data (compressLimit jpos)).1 = none ∨ type = .commit)) :
    storedLen c jpos data type = (logfsCompress c data (compressLimit jpos)).2.length := by
  rw [not_or] at h
  obtain ⟨n, hn⟩ := Option.ne_none_iff_exists'.mp h.1
  unfold storedLen
  rw [hn, ← logfsCompress_some hn]
  exact if_neg h.2

theorem storedLen_nil (h : data.length = 0) : storedLen c jpos data type = 0 := by
  have hnone : (logfsCompress c data (compressLimit jpos)).1 = none := by
    refine if_neg fun hshort => ?_
    omega
  rw [storedLen_plain (Or.inl hnone), h]

/-- The size of an entry, and that a call is stopped only by a payload longer than the limit. -/
theorem storeJe_size (hlt : jpos < blocksize) :
    Wp (storeJe c j jpos data type)
      (fun r s' => s' = s ∧ jpos + storedLen c jpos data type ≤ blocksize ∧
        r.2 = align (storedLen c jpos data type) 16 + journalHeadersize)
      (fun _ _ => blocksize < jpos + storedLen c jpos data type) s := by
  have hout : jpos + (logfsCompress c data (compressLimit jpos)).2.length ≤ blocksize :=
    logfsCompress_le hlt
  have htwo := c.two_blocks_le
  unfold storeJe
  dsimp only
  rw [← compressLimit]
  split_ifs with h0 hwild hplain hmax
  · -- nothing to store
    rw [storedLen_nil h0]
    exact ⟨rfl, by omega, rfl⟩
  · -- the stream ends in the segment
    simp only [blocksize, blockshift, journalHeadersize] at *
    omega
  · -- the data, longer than the limit
    have hlen := storedLen_plain hplain
    show blocksize < jpos + storedLen c jpos data type
    omega
  · have hlen := storedLen_plain hplain
    exact ⟨rfl, by omega, by rw [hlen]; rfl⟩
  · -- the stream
    have hlen := storedLen_stream hplain
    exact ⟨rfl, by omega, by rw [hlen]; rfl⟩

theorem writeJe_size (j : Buf) (segno : Nat) (hlt : jpos < blocksize)
    (hwrite : write s = .ok (data, type) s1) :
    Wp (writeJe c j jpos segno write)
      (fun r _ => jpos + storedLen c jpos data type ≤ blocksize ∧
        r.2 = align (storedLen c jpos data type) 16 + journalHeadersize)
      (fun _ _ => blocksize < jpos + storedLen c jpos data type) s := by
  have hw : Wp write (fun r s' => r = (data, type) ∧ s' = s1)
      (fun _ _ => blocksize < jpos + storedLen c jpos data type) s := by
    unfold Wp
    rw [hwrite]
    exact ⟨rfl, rfl⟩
  unfold writeJe
  refine hw.bind ?_
  rintro _ s2 ⟨rfl, rfl⟩
  by_cases ht : type = .commit
  · simp only [ht, ne_eq, not_true_eq_false, if_false]
    exact (storeJe_size hlt).imp fun _ _ h => h.2
  · simp only [ht, ne_eq, not_false_eq_true, if_true]
    exact (storeJe_size hlt).imp fun _ _ h => h.2

/-- The entry ends within the block unless its payload just fits without the header. -/
theorem entryInside_iff (hmod : jpos % 16 = 0) (hlt : jpos < blocksize)
    (hwrite : write s = .ok (data, type) s1) :
    EntryInside c j jpos segno write s ↔ ¬ (jpos + storedLen c jpos data type ≤ blocksize ∧
      blocksize < jpos + journalHeadersize + storedLen c jpos data type) := by
  have hsize := writeJe_size (c := c) j segno hlt hwrite
  have hal : storedLen c jpos data type ≤ align (storedLen c jpos data type) 16 :=
    le_align (by decide)
  constructor
  · rintro h ⟨hfit, hover⟩
    cases hrun : writeJe c j jpos segno write s with
    | ok r s' =>
      have hend := h r s' hrun
      have hr := (hsize.of_ok hrun).2
      omega
    | error e s' =>
      have hlong := hsize.of_error hrun
      omega
  · intro h r s' hrun
    obtain ⟨hfit, hr⟩ := hsize.of_ok hrun
    have hroom : jpos + journalHeadersize + storedLen c jpos data type ≤ blocksize := by
      by_contra hover
      exact h ⟨hfit, by omega⟩
    have hle : align (storedLen c jpos data type) 16 ≤ blocksize - jpos - journalHeadersize := by
      refine align_le_of_dvd (by omega) ?_
      simp only [blocksize, blockshift, journalHeadersize] at hroom ⊢
      omega
    omega

/-- The space for the compressor ends one header behind the block. -/
theorem limitInside_iff (hlt : jpos < blocksize) : LimitInside jpos data ↔ data.length = 0 := by
  unfold LimitInside
  rw [compressLimit_eq hlt]
  constructor
  · intro h
    by_contra hne
    have hle := h hne
    simp only [journalHeadersize] at hle
    omega
  · intro h hne
    exact absurd h hne

end Room

/-- A call of `write_je` stays within the block, entry and compressor, just when there is no
payload; the entry alone does unless the stored payload fits into the limit without its header. -/
theorem writeJe_inside_iff (c : Cfg) (j : Buf) (jpos segno : Nat)
    (write : MkfsM (List UInt8 × JeType)) (s s1 : Sb) (data : List UInt8) (type : JeType)
    (hmod : jpos % 16 = 0) (hlt : jpos < blocksize) (hwrite : write s = .ok (data, type) s1) :
    (EntryInside c j jpos segno write s ∧ LimitInside jpos data ↔ data.length = 0) ∧
      (EntryInside c j jpos segno write s ↔ ¬ (jpos + storedLen c jpos data type ≤ blocksize ∧
        blocksize < jpos + journalHeadersize + storedLen c jpos data type)) := by
  refine ⟨⟨fun h => (limitInside_iff hlt).mp h.2, fun h => ⟨?_, (limitInside_iff hlt).mpr h⟩⟩,
    entryInside_iff hmod hlt hwrite⟩
  rw [entryInside_iff hmod hlt hwrite, storedLen_nil h]
  simp only [blocksize, blockshift, journalHeadersize] at hlt ⊢
  omega

/-- The dynamic superblock, behind the segment header. -/
theorem writeJe_inside_iff_dynsb :
    EntryInside sixteenGiB (fun _ => 0) 32 1 jeDynsb (Sb.zero []) ∧ ¬ LimitInside 32
      (dynsbBytes 0x1000 0) := by
  have h := writeJe_inside_iff sixteenGiB (fun _ => 0) 32 1 jeDynsb (Sb.zero []) (Sb.zero [])
    (dynsbBytes 0x1000 0) .dynsb (by decide) (by decide) rfl
  have hentry := h.2.mpr (by decide +kernel)
  refine ⟨hentry, fun hl => ?_⟩
  have hnil := h.1.mp ⟨hentry, hl⟩
  rw [dynsbBytes_length] at hnil
  cases hnil

/-- Aliases that do not compress. -/
def dense (n : Nat) : List UInt8 := List.replicate n 255

def writeDense (n : Nat) : EStateM.Result Stop Sb (Buf × Nat) :=
  writeJe sixteenGiB (fun _ => 0) 32 1 (pure (dense n, .objAlias)) (Sb.zero [])

/-- 127 aliases behind the segment header: the entry ends at 4112.  With sixteen bytes less it
ends at 4096, and `deflate` has left a byte behind that. -/
theorem aliases_end_behind_block :
    (¬ EntryInside sixteenGiB (fun _ => 0) 32 1 (pure (dense 4064, .objAlias)) (Sb.zero [])) ∧
      ∃ r s', writeDense 4048 = .ok r s' ∧ 32 + r.2 = 4096 ∧ r.1 4097 = 255 := by
  constructor
  · intro h
    have hwrite : (pure (dense 4064, .objAlias) : MkfsM (List UInt8 × JeType)) (Sb.zero []) =
        .ok (dense 4064, .objAlias) (Sb.zero []) := rfl
    exact absurd ((entryInside_iff (by decide) (by decide) hwrite).mp h) (by decide +kernel)
  · have hrun : (match writeDense 4048 with
        | .ok r _ => decide (32 + r.2 = 4096 ∧ r.1 4097 = 255)
        | .error _ _ => false) = true := by decide +kernel
    cases hw : writeDense 4048 with
    | ok r s' =>
      rw [hw] at hrun
      exact ⟨r, s', rfl, of_decide_eq_true hrun⟩
    | error e s' =>
      rw [hw] at hrun
      cases hrun

end Logfs.Mkfs
