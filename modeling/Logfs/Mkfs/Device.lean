import Logfs.Mkfs.Super

/-!
# Writing to the device

The two device back ends of `mkfs.c`.  A write goes through `safe_pwrite`, which
can be interrupted, write a part, and fail; a run can be cut off at any turn of
it.  Whatever happens, what reaches the device is a prefix of the buffer.
-/

namespace Logfs.Mkfs

def EIO : Int := 5

/-- The turns of `safe_pwrite` when `done` bytes have been written: what it returns, `none` when
the run is cut off. -/
def safePwriteLoop (buf : Buf) (size ofs : Nat) :
    List Outcome → Nat → List Blit → Option Int × List Outcome × List Blit
  | [], done, bl => (if size ≤ done then some 0 else none, [], bl)
  | o :: os, done, bl =>
    if size ≤ done then (some 0, o :: os, bl)
    else match o with
      | .eintr => safePwriteLoop buf size ofs os done bl
      | .error => (some (-1), os, bl)
      | .ok n =>
        let m := min n (size - done)
        safePwriteLoop buf size ofs os (done + m) (⟨ofs + done, m, fun i => buf (done + i)⟩ :: bl)

/-- `safe_pwrite`.  `pwrite` refuses an offset that is negative as an `off_t`. -/
def safePwrite (ofs size : Nat) (buf : Buf) : MkfsM Int := fun s =>
  if 2 ^ 63 ≤ ofs ∧ 0 < size then .ok (-1) s
  else match safePwriteLoop buf size ofs s.outcomes 0 s.blits with
    | (some ret, os, bl) => .ok ret { s with outcomes := os, blits := bl }
    | (none, os, bl) => .error .killed { s with outcomes := os, blits := bl }

/-- `bdev_write`. -/
def bdevWrite (ofs size : Nat) (buf : Buf) : MkfsM Int := do
  let ret ← safePwrite ofs size buf
  if ret < 0 then pure (- EIO) else pure 0

/-- `erase_buf`. -/
def eraseBuf : Buf := fun _ => 0xff

/-- `bdev_erase`. -/
def bdevErase (ofs size : Nat) : MkfsM Int := bdevWrite ofs size eraseBuf

/-- `mtd_erase`: one `ioctl`, which sets the range to 0xff or changes nothing. -/
def mtdErase (ofs size : Nat) : MkfsM Int := fun s =>
  match s.outcomes with
  | [] => .error .killed s
  | .ok _ :: os => .ok 0 { s with outcomes := os, blits := ⟨ofs, size, eraseBuf⟩ :: s.blits }
  | _ :: os => .ok (-1) { s with outcomes := os }

/-- `dev_ops->erase`. -/
def devErase (c : Cfg) (ofs size : Nat) : MkfsM Int :=
  match c.kind with
  | .bdev => bdevErase ofs size
  | .mtd => mtdErase ofs size

/-- `dev_ops->write`. -/
def devWrite (t : Target) (ofs size : Nat) (buf : Buf) : MkfsM Int := do
  noteEvent (.issue ⟨t, ofs, size, buf⟩)
  let err ← bdevWrite ofs size buf
  noteEvent (.done ⟨t, ofs, size, buf⟩ (err = 0))
  pure err

/-! ## What reaches the device -/

/-- The device was written to and nothing else happened; the first `n` bytes of `buf` arrived. -/
structure Wrote (ofs n : Nat) (buf : Buf) (s s' : Sb) : Prop where
  same : s' = { s with outcomes := s'.outcomes, blits := s'.blits }
  content : ∀ init x, s'.content init x =
    if ofs ≤ x ∧ x < ofs + n then buf (x - ofs) else s.content init x

section Write

variable {buf : Buf} {size ofs : Nat} {s : Sb}

theorem Wrote.none (ofs : Nat) (buf : Buf) (s : Sb) : Wrote ofs 0 buf s s :=
  ⟨rfl, fun init x => by rw [if_neg (by omega)]⟩

/-- The turns write the bytes from `done` up to some `n`, up to `size` when they return zero. -/
theorem safePwriteLoop_spec (buf : Buf) (ofs : Nat) : ∀ (os : List Outcome) (done : Nat) (bl : List Blit), done ≤ size →
    ∃ n, n ≤ size ∧
      (∀ ret, (safePwriteLoop buf size ofs os done bl).1 = some ret →
        ret = 0 ∧ n = size ∨ ret = -1) ∧
      ∀ init x, content init (safePwriteLoop buf size ofs os done bl).2.2 x =
        if ofs + done ≤ x ∧ x < ofs + n then buf (x - ofs) else content init bl x := by
  intro os
  induction os with
  | nil =>
    intro done bl hd
    refine ⟨done, hd, fun ret hret => ?_, fun init x => ?_⟩
    · simp only [safePwriteLoop] at hret
      split_ifs at hret with h
      rw [Option.some_inj] at hret
      exact Or.inl ⟨hret.symm, by omega⟩
    · rw [if_neg (by omega)]
      rfl
  | cons o os ih =>
    intro done bl hd
    unfold safePwriteLoop
    split_ifs with hfull
    · refine ⟨size, Nat.le_refl _, fun ret hret => ?_, fun init x => by rw [if_neg (by omega)]⟩
      rw [Option.some_inj] at hret
      exact Or.inl ⟨hret.symm, rfl⟩
    · cases o with
      | eintr => exact ih done bl hd
      | error =>
        refine ⟨done, hd, fun ret hret => ?_, fun init x => by rw [if_neg (by omega)]⟩
        rw [Option.some_inj] at hret
        exact Or.inr hret.symm
      | ok m =>
        obtain ⟨n, hn, hret, hc⟩ := ih (done + min m (size - done))
          (⟨ofs + done, min m (size - done), fun i => buf (done + i)⟩ :: bl) (by omega)
        -- the bytes of this turn and those of the later ones are adjacent
        refine ⟨max n (done + min m (size - done)), by omega, fun ret h => ?_, fun init x => ?_⟩
        · have := hret ret h
          omega
        · rw [hc, content]
          dsimp only
          by_cases h1 : ofs + (done + min m (size - done)) ≤ x ∧ x < ofs + n
          · rw [if_pos h1, if_pos (by omega)]
          · rw [if_neg h1]
            by_cases h2 : ofs + done ≤ x ∧ x < ofs + done + min m (size - done)
            · rw [if_pos h2, if_pos (by omega)]
              congr 1
              omega
            · rw [if_neg h2, if_neg (by omega)]

theorem safePwrite_spec (ofs size : Nat) (buf : Buf) (s : Sb) :
    Wp (safePwrite ofs size buf)
      (fun ret s' => ∃ n, n ≤ size ∧ Wrote ofs n buf s s' ∧ (ret = 0 ∧ n = size ∨ ret = -1))
      (fun _ s' => ∃ n, n ≤ size ∧ Wrote ofs n buf s s') s := by
  unfold Wp safePwrite
  split_ifs with hneg
  · exact ⟨0, Nat.zero_le _, Wrote.none ofs buf s, Or.inr rfl⟩
  · obtain ⟨n, hn, hret, hc⟩ :=
      safePwriteLoop_spec buf ofs s.outcomes 0 s.blits (Nat.zero_le size)
    rcases hl : safePwriteLoop buf size ofs s.outcomes 0 s.blits with ⟨_ | ret, os, bl⟩
    · rw [hl] at hc
      exact ⟨n, hn, rfl, hc⟩
    · rw [hl] at hret hc
      exact ⟨n, hn, ⟨rfl, hc⟩, hret ret rfl⟩

/-- `bdev_write` returns zero when all of the buffer has reached the device. -/
theorem bdevWrite_spec (ofs size : Nat) (buf : Buf) (s : Sb) :
    Wp (bdevWrite ofs size buf)
      (fun ret s' => ∃ n, n ≤ size ∧ Wrote ofs n buf s s' ∧ (ret = 0 ∧ n = size ∨ ret = - EIO))
      (fun _ s' => ∃ n, n ≤ size ∧ Wrote ofs n buf s s') s := by
  refine (safePwrite_spec ofs size buf s).bind ?_
  rintro ret s' ⟨n, hn, hw, ⟨rfl, rfl⟩ | rfl⟩
  · exact ⟨n, hn, hw, Or.inl ⟨rfl, rfl⟩⟩
  · exact ⟨n, hn, hw, Or.inr rfl⟩

theorem mtdErase_spec (ofs size : Nat) (s : Sb) :
    Wp (mtdErase ofs size)
      (fun ret s' => ∃ n, n ≤ size ∧ Wrote ofs n eraseBuf s s' ∧ (ret = 0 → n = size))
      (fun _ s' => ∃ n, n ≤ size ∧ Wrote ofs n eraseBuf s s') s := by
  have hnone : ∀ os, Wrote ofs 0 eraseBuf s { s with outcomes := os } := fun os =>
    ⟨rfl, fun init x => by rw [if_neg (by omega)]; rfl⟩
  unfold Wp mtdErase
  rcases s.outcomes with _ | ⟨_ | _ | _, os⟩
  · exact ⟨0, Nat.zero_le _, Wrote.none ofs eraseBuf s⟩
  · exact ⟨size, Nat.le_refl _, ⟨rfl, fun _ _ => rfl⟩, fun _ => rfl⟩
  · exact ⟨0, Nat.zero_le _, hnone os, fun h => absurd h (by decide)⟩
  · exact ⟨0, Nat.zero_le _, hnone os, fun h => absurd h (by decide)⟩

/-- An erase sets a prefix of its range to 0xff, all of it when it returns zero. -/
theorem devErase_spec (c : Cfg) (ofs size : Nat) (s : Sb) :
    Wp (devErase c ofs size)
      (fun ret s' => ∃ n, n ≤ size ∧ Wrote ofs n eraseBuf s s' ∧ (ret = 0 → n = size))
      (fun _ s' => ∃ n, n ≤ size ∧ Wrote ofs n eraseBuf s s') s := by
  unfold devErase
  cases c.kind with
  | bdev =>
    refine (bdevWrite_spec ofs size eraseBuf s).imp ?_
    rintro ret s' ⟨n, hn, hw, ⟨-, rfl⟩ | rfl⟩
    · exact ⟨n, hn, hw, fun _ => rfl⟩
    · exact ⟨n, hn, hw, fun h => absurd h (by decide)⟩
  | mtd => exact mtdErase_spec ofs size s

/-- The same, and the events `evs` were noted. -/
structure Did (evs : List Event) (ofs n : Nat) (buf : Buf) (s s' : Sb) : Prop where
  same : s' = { s with outcomes := s'.outcomes, blits := s'.blits, trace := evs ++ s.trace }
  content : ∀ init x, s'.content init x =
    if ofs ≤ x ∧ x < ofs + n then buf (x - ofs) else s.content init x

/-- A write that returns zero is complete; all others end with an error, or cut the run off. -/
theorem devWrite_spec (t : Target) (ofs size : Nat) (buf : Buf) (s : Sb) :
    Wp (devWrite t ofs size buf)
      (fun err s' => let w : DevWrite := ⟨t, ofs, size, buf⟩
        err = 0 ∧ Did [.done w true, .issue w] ofs size buf s s' ∨
        err = - EIO ∧ ∃ n, n ≤ size ∧ Did [.done w false, .issue w] ofs n buf s s')
      (fun _ s' => ∃ n, n ≤ size ∧ Did [.issue ⟨t, ofs, size, buf⟩] ofs n buf s s') s := by
  unfold devWrite
  rw [wp_bind, wp_note, wp_bind]
  refine (bdevWrite_spec ofs size buf _).mono ?_ ?_
  · rintro err s' ⟨n, hn, hw, hret⟩
    rw [wp_bind, wp_note, wp_pure]
    have hsame := hw.same
    rcases hret with ⟨rfl, rfl⟩ | rfl
    · exact Or.inl ⟨rfl, by rw [hsame]; rfl, hw.content⟩
    · exact Or.inr ⟨rfl, n, hn, by rw [hsame]; rfl, hw.content⟩
  · rintro e s' ⟨n, hn, hw⟩
    exact ⟨n, hn, by rw [hw.same]; rfl, hw.content⟩

end Write

/-! ## Every sequence of outcomes -/

/-- `pwrite` has not been interrupted. -/
def Outcome.settles : Outcome → Bool
  | .eintr => false
  | _ => true

/-- A call of `safe_pwrite` has used the outcomes `used`: at most one for each byte besides the
interruptions, and it ended with the failure in them if there was one. -/
structure Turns (size : Nat) (ret : Option Int) (used rest : List Outcome) : Prop where
  length_le : used.length ≤ size + used.count .eintr
  good : ret = some 0 → .error ∉ used
  failed : ∀ r, ret = some r → r < 0 → .error ∈ used
  cut : ret = none → rest = [] ∧ used.countP Outcome.settles < size

section Exact

variable {buf : Buf} {size ofs : Nat} {s : Sb}

theorem safePwriteLoop_turns (buf : Buf) (size ofs : Nat) : ∀ (os : List Outcome) (done : Nat)
    (bl : List Blit), done ≤ size → (∀ n, .ok n ∈ os → 1 ≤ n) →
      ∃ used, os = used ++ (safePwriteLoop buf size ofs os done bl).2.1 ∧
        Turns (size - done) (safePwriteLoop buf size ofs os done bl).1 used
          (safePwriteLoop buf size ofs os done bl).2.1 := by
  intro os
  induction os with
  | nil =>
    intro done bl hd _
    refine ⟨[], rfl, by simp, by simp, fun r hr hneg => ?_, fun hnone => ⟨rfl, ?_⟩⟩
    · unfold safePwriteLoop at hr
      split_ifs at hr
      cases hr
      exact absurd hneg (by decide)
    · unfold safePwriteLoop at hnone
      split_ifs at hnone with hfull
      simp only [List.countP_nil]
      omega
  | cons o os ih =>
    intro done bl hd hpos
    unfold safePwriteLoop
    split_ifs with hfull
    · refine ⟨[], rfl, by simp, by simp, fun r hr hneg => ?_, fun hnone => nomatch hnone⟩
      cases hr
      exact absurd hneg (by decide)
    have hpos' : ∀ n, .ok n ∈ os → 1 ≤ n := fun n hn => hpos n (List.mem_cons_of_mem _ hn)
    cases o with
    | eintr =>
      obtain ⟨used, hos, ht⟩ := ih done bl hd hpos'
      refine ⟨.eintr :: used, congrArg _ hos, ?_, ?_, ?_, ?_⟩
      · have := ht.length_le
        rw [List.length_cons, List.count_cons_self]
        omega
      · exact fun h hc => ht.good h (by simpa using hc)
      · exact fun r hr hneg => List.mem_cons_of_mem _ (ht.failed r hr hneg)
      · exact fun h => ⟨(ht.cut h).1, (List.countP_cons_of_neg (by decide)).trans_lt (ht.cut h).2⟩
    | error =>
      refine ⟨[.error], rfl, ?_, ?_, fun _ _ _ => List.mem_singleton_self _, fun h => nomatch h⟩
      · rw [List.length_singleton]
        omega
      · intro h
        cases h
    | ok n =>
      have hn := hpos n List.mem_cons_self
      obtain ⟨used, hos, ht⟩ := ih (done + min n (size - done))
        (⟨ofs + done, min n (size - done), fun i => buf (done + i)⟩ :: bl) (by omega) hpos'
      -- every write makes progress
      refine ⟨.ok n :: used, congrArg _ hos, ?_, ?_, ?_, ?_⟩
      · have := ht.length_le
        rw [List.length_cons, List.count_cons_of_ne (by simp)]
        omega
      · exact fun h hc => ht.good h (by simpa using hc)
      · exact fun r hr hneg => List.mem_cons_of_mem _ (ht.failed r hr hneg)
      · intro h
        have hlt := (ht.cut h).2
        rw [List.countP_cons_of_pos (by rfl)]
        exact ⟨(ht.cut h).1, by omega⟩

/-- The device has the first `n` bytes of the buffer at `ofs`, and is unchanged elsewhere. -/
def PrefixWritten (ofs n : Nat) (buf : Buf) (s s' : Sb) : Prop := ∀ init x, s'.content init x =
  if ofs ≤ x ∧ x < ofs + n then buf (x - ofs) else s.content init x

/-- `safe_pwrite` returns zero when all of the buffer is on the device and nothing else has changed;
it returns a negative value when `pwrite` has failed other than by an interruption, and then a prefix
of the buffer is there.  Each outcome it uses makes progress or is an interruption, so with one for
each byte it returns. -/
theorem safePwrite_exact (ofs size : Nat) (buf : Buf) (s : Sb)
    (hpos : ∀ n, .ok n ∈ s.outcomes → 1 ≤ n) :
    Wp (safePwrite ofs size buf)
      (fun ret s' => ∃ used, s.outcomes = used ++ s'.outcomes ∧
        used.length ≤ size + used.count .eintr ∧
        (ret = 0 ∧ .error ∉ used ∧ PrefixWritten ofs size buf s s' ∨
          ret < 0 ∧ (.error ∈ used ∨ 2 ^ 63 ≤ ofs ∧ 0 < size) ∧
            ∃ n, n ≤ size ∧ PrefixWritten ofs n buf s s'))
      (fun _ s' => s'.outcomes = [] ∧ s.outcomes.countP Outcome.settles < size ∧
        ∃ n, n ≤ size ∧ PrefixWritten ofs n buf s s') s := by
  have hspec := safePwrite_spec ofs size buf s
  unfold Wp safePwrite at hspec ⊢
  split_ifs with hneg
  · refine ⟨[], rfl, by simp, Or.inr ⟨by decide, Or.inr hneg, 0, Nat.zero_le _, ?_⟩⟩
    exact (Wrote.none ofs buf s).content
  rw [if_neg hneg] at hspec
  obtain ⟨used, hos, ht⟩ :=
    safePwriteLoop_turns buf size ofs s.outcomes 0 s.blits (Nat.zero_le _) hpos
  rw [Nat.sub_zero] at ht
  rcases hl : safePwriteLoop buf size ofs s.outcomes 0 s.blits with ⟨_ | ret, os, bl⟩
  · rw [hl] at hspec hos ht
    obtain ⟨n, hn, hw⟩ := hspec
    obtain ⟨rfl, hlt⟩ := ht.cut rfl
    rw [List.append_nil] at hos
    exact ⟨rfl, hos ▸ hlt, n, hn, hw.content⟩
  · rw [hl] at hspec hos ht
    obtain ⟨n, hn, hw, ⟨rfl, rfl⟩ | rfl⟩ := hspec
    · exact ⟨used, hos, ht.length_le, Or.inl ⟨rfl, ht.good rfl, hw.content⟩⟩
    · exact ⟨used, hos, ht.length_le, Or.inr ⟨by decide,
        Or.inl (ht.failed _ rfl (by decide)), n, hn, hw.content⟩⟩

/-- Ten bytes, in three writes and with an interruption. -/
theorem safePwrite_exact_ten :
    ∃ s', safePwrite 100 10 (fun _ => 7) (Sb.zero [.ok 4, .eintr, .ok 1, .ok 9]) = .ok 0 s' ∧
      PrefixWritten 100 10 (fun _ => 7) (Sb.zero []) s' := by
  have h := safePwrite_exact 100 10 (fun _ => 7) (Sb.zero [.ok 4, .eintr, .ok 1, .ok 9])
    (by simp [Sb.zero])
  refine ⟨_, rfl, ?_⟩
  obtain ⟨-, -, -, ⟨-, -, hw⟩ | ⟨hneg, -⟩⟩ := h.of_ok rfl
  · exact hw
  · exact absurd hneg (by decide)

end Exact

end Logfs.Mkfs
