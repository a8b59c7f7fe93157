import Logfs.Mkfs.Interrupted
import Logfs.Mkfs.Mount

/-!
# Runs that are cut off

A run of `mkfs` can end anywhere: a write fails, or the device goes away in the
middle of one.  Until `make_super` is called there is nothing to mount.  From the
moment the write of the first superblock has returned, all that a reader asks for
is there, whatever becomes of the second copy.  In between the checksum decides.
-/

namespace Logfs.Mkfs

section Crash

variable {c : Cfg} {inflate : List UInt8 → List UInt8} {init : Buf} {s s1 s2 s3 s4 : Sb}

/-- Without a superblock there is nothing to mount. -/
theorem mount_none {dev : Buf} {ofs : Nat} (h : ¬ SuperAt c dev ofs) :
    mount c.crc32 inflate dev ofs = none := by
  unfold mount
  rw [if_neg]
  exact mt superOk_iff.1 h

end Crash

/-- What a reader finds after a run that was cut off outside the write of the first superblock.
Until the call of `make_super` neither place has a superblock that a reader accepts, if an old one
in the second place is gone; when the first copy has been written a reader sees all of the file
system from there, however the write of the second copy ends. -/
theorem mount_outside_first_copy (c : Cfg) (inflate : List UInt8 → List UInt8) (os : List Outcome)
    (init : Buf) (s1 : Sb)
    (hinf : ∀ inp n, (c.deflate inp n).1 = true → inflate (c.deflate inp n).2 = inp)
    (hpos : 1 ≤ c.noJournalSegs) (h1 : mkfsPrepare c (Sb.zero os) = .ok () s1)
    (hold : SecondGone c os init) :
    (∀ s, BeforeSuper c s1 s → mount c.crc32 inflate (s.content init) s.sbOfs1 = none ∧
        mount c.crc32 inflate (s.content init) s.sbOfs2 = none) ∧
      ∀ s2 s3 s4, mkfsStore c s1 = .ok () s2 → makeJournal c s2 = .ok 0 s3 →
        devWrite (.super 0) s3.sbOfs1 c.secsize (superSector c s3) s3 = .ok 0 s4 →
        Roomy c (after (makeSuper c) s3) →
        let s := after (makeSuper c) s3
        ∃ v, mount c.crc32 inflate (s.content init) s.sbOfs1 = some v ∧ Shows c s v ∧
          HasInodes c s v (s.content init) ∧ ∀ segno < c.noSegs,
            v.segmentEntry c.crc32 (s.content init) segno = some (s.segmentEntry segno) := by
  obtain ⟨k1, k2, hp⟩ := (mkfsPrepare_spec rfl).of_ok h1
  constructor
  · intro s hs
    obtain ⟨hno1, hno2⟩ := hs.noSuperblocks hp h1 hold
    exact ⟨mount_none hno1, mount_none hno2⟩
  · intro s2 s3 s4 h2 h3 h4 hroom s
    have hstored : AllStored c inflate s3 :=
      ((makeJournal_stored hinf hp).of_ok h2).of_ok h3 rfl
    obtain ⟨n, hs⟩ := makeSuper_cut h4
    obtain ⟨hmedium, hfirst⟩ := hstored.medium hpos hs hroom init
    exact ⟨viewOf c s, hmedium.mount hpos hfirst, hmedium.shows, hmedium.inodes,
      fun segno hsegno => hmedium.table hsegno⟩

/-- Flash on which the write of the second copy fails. -/
def failingSecond : Sb := Sb.zero (List.replicate 9 (.ok 8192) ++ [.error])

theorem mount_outside_first_copy_flash :
    let s1 := after (mkfsPrepare flash64) failingSecond
    let s3 := after (makeJournal flash64) (after (mkfsStore flash64) s1)
    let s := after (makeSuper flash64) s3
    mount byteSum restoreZeros (s3.content eraseBuf) s3.sbOfs1 = none ∧
      ∃ v, mount byteSum restoreZeros (s.content eraseBuf) s.sbOfs1 = some v ∧ Shows flash64 s v := by
  intro s1 s3 s
  obtain ⟨⟨⟩, h1⟩ := ok_of_returns (m := mkfsPrepare flash64) (s := failingSecond)
    (by decide +kernel)
  obtain ⟨⟨⟩, h2⟩ := ok_of_returns (m := mkfsStore flash64) (s := s1) (by decide +kernel)
  have h3 := ok_of_returnsZero (m := makeJournal flash64) (s := after (mkfsStore flash64) s1)
    (by decide +kernel)
  have h4 := ok_of_returnsZero
    (m := devWrite (.super 0) s3.sbOfs1 flash64.secsize (superSector flash64 s3)) (s := s3)
    (by decide +kernel)
  have hroom : decide (s.lastseg * flash64.segsize ≤ s.sbOfs2 ∧
      s.lastseg * flash64.segsize ≤ 2 ^ 32) = true := by
    decide +kernel
  obtain ⟨hsecond, hlow⟩ := of_decide_eq_true hroom
  obtain ⟨hbefore, hafter⟩ := mount_outside_first_copy flash64 restoreZeros _ eraseBuf s1
    restoreZeros_stripZeros (by decide) h1 (Or.inl (by decide))
  obtain ⟨v, hv, hshows, -⟩ := hafter _ s3 _ h2 h3 h4 ⟨hsecond, hlow⟩
  exact ⟨(hbefore s3 (.journal h2)).1, v, hv, hshows⟩

end Logfs.Mkfs
