import Logfs.Lib.Wp

/-!
# Programs that draw on a supply

A program takes units from a supply, one after the other, and finds some of them
bad.  Each of its calls is given answers, and there are only so many of these.
`Draws` says how many good units a run takes and how many calls it makes; the
numbers add up along a run.  `Breaks` says that a run that does not come to its
end was cut off, or that the supply was too small for what it was going to take.
`bins` is the number of units that a sequence of items needs when each unit has
room for several.
-/

namespace Logfs

variable {ε σ ω : Type}

/-- A supply with `total` units, as a program sees it: how many of them are gone in a state, how
many of these were bad, which answers are left, and how a run ends when no unit is left or when it
is cut off.  An answer can be fine or wrong; a call ends after at most `most` fine answers that
move it on. -/
structure Supply (ε σ ω : Type) where
  total : Nat
  gone : σ → Nat
  bad : σ → Nat
  answers : σ → List ω
  fine : ω → Prop
  moves : ω → Bool
  most : Nat
  empty : ε
  cut : ε → σ → Prop

namespace Supply

variable (S : Supply ε σ ω) {k k' n m : Nat} {s s1 s' : σ} {e : ε} {good good' : Prop}
  {P P' P'' : List ω → Prop}

/-- A run has used some answers; `P` holds of them if they are fine. -/
def Used (s s' : σ) (P : List ω → Prop) : Prop :=
  ∃ used, S.answers s = used ++ S.answers s' ∧ ((∀ o ∈ used, S.fine o) → P used)

/-- A run takes `n` units with at most `k` calls if it is successful, and it is if the answers are
fine. -/
structure Draws (k n : Nat) (s : σ) (good : Prop) (s' : σ) : Prop where
  used : S.Used s s' fun used =>
    good ∧ S.bad s' = S.bad s ∧ used.countP S.moves ≤ k * S.most
  count : good → S.gone s' + S.bad s = S.gone s + S.bad s' + n

/-- A run that was going to take `n` units with at most `k` calls is cut off, or there are not as
many. -/
structure Breaks (k n : Nat) (s : σ) (e : ε) (s' : σ) : Prop where
  used : S.Used s s' fun used => S.bad s' = S.bad s ∧ used.countP S.moves < k * S.most
  reason : S.cut e s' ∨ e = S.empty ∧ S.total + S.bad s < S.gone s + S.bad s' + n

variable {S}

theorem Used.none (h : S.answers s' = S.answers s) (hP : P []) : S.Used s s' P :=
  ⟨[], h.symm, fun _ => hP⟩

theorem Used.imp (h : S.Used s s' P) (hP : ∀ used, P used → P' used) : S.Used s s' P' := by
  obtain ⟨used, hs, h⟩ := h
  exact ⟨used, hs, fun hf => hP used (h hf)⟩

theorem Used.seq (h : S.Used s s1 P) (h1 : S.Used s1 s' P')
    (hP : ∀ used used1, P used → P' used1 → P'' (used ++ used1)) : S.Used s s' P'' := by
  obtain ⟨used, hs, h⟩ := h
  obtain ⟨used1, hs1, h1⟩ := h1
  refine ⟨used ++ used1, by rw [hs, hs1, List.append_assoc], fun hf => hP _ _ (h ?_) (h1 ?_)⟩
  · exact fun o ho => hf o (List.mem_append_left _ ho)
  · exact fun o ho => hf o (List.mem_append_right _ ho)

/-- What a run that has gone wrong was told. -/
theorem Used.wrong (h : S.Used s s' P) (hno : ∀ used, ¬ P used) :
    ∃ used, S.answers s = used ++ S.answers s' ∧ ∃ o ∈ used, ¬ S.fine o := by
  obtain ⟨used, hs, h⟩ := h
  refine ⟨used, hs, ?_⟩
  by_contra hfine
  push Not at hfine
  exact hno used (h hfine)

/-- A run on a list of fine answers. -/
theorem Used.of_fine (h : S.Used s s' P) (hf : ∀ o ∈ S.answers s, S.fine o) :
    ∃ used, S.answers s = used ++ S.answers s' ∧ P used := by
  obtain ⟨used, hs, h⟩ := h
  exact ⟨used, hs, h fun o ho => hf o (by rw [hs]; exact List.mem_append_left _ ho)⟩

theorem Used.fine (h : S.Used s s' P) (hf : ∀ o ∈ S.answers s, S.fine o) :
    ∀ o ∈ S.answers s', S.fine o := by
  obtain ⟨used, hs, -⟩ := h
  exact fun o ho => hf o (by rw [hs]; exact List.mem_append_right _ ho)

/-- Calls that take no unit. -/
theorem Draws.of_used (hgone : S.gone s' = S.gone s) (hbad : S.bad s' = S.bad s)
    (h : S.Used s s' fun used => good ∧ used.countP S.moves ≤ k * S.most) :
    S.Draws k 0 s good s' :=
  ⟨h.imp fun _ h => ⟨h.1, hbad, h.2⟩, fun _ => by omega⟩

theorem Draws.of_same (hgone : S.gone s' = S.gone s) (hbad : S.bad s' = S.bad s)
    (h : S.answers s' = S.answers s) : S.Draws 0 0 s True s' :=
  .of_used hgone hbad (.none h ⟨trivial, Nat.zero_le _⟩)

theorem Draws.refl (s : σ) : S.Draws 0 0 s True s := .of_same rfl rfl rfl

theorem Draws.imp (h : S.Draws k n s good s') (hgood : good → good') (hback : good' → good) :
    S.Draws k n s good' s' :=
  ⟨h.used.imp fun _ h => ⟨hgood h.1, h.2⟩, fun hg => h.count (hback hg)⟩

/-- The part of a run that was successful, in other words. -/
theorem Draws.returned (h : S.Draws k n s good s') (hgood : good) (hgood' : good') :
    S.Draws k n s good' s' :=
  h.imp (fun _ => hgood') fun _ => hgood

theorem Draws.mono (h : S.Draws k n s good s') (hk : k ≤ k') : S.Draws k' n s good s' :=
  ⟨h.used.imp fun _ h => ⟨h.1, h.2.1, h.2.2.trans (Nat.mul_le_mul_right _ hk)⟩, h.count⟩

/-- The part of the run behind one that was successful. -/
theorem Draws.seq (h : S.Draws k n s good s1) (hgood : good) (h1 : S.Draws k' m s1 good' s') :
    S.Draws (k + k') (n + m) s good' s' where
  used := by
    apply h.used.seq h1.used
    rintro used used1 ⟨-, hbad, hle⟩ ⟨hg, hbad1, hle1⟩
    rw [List.countP_append, Nat.add_mul]
    exact ⟨hg, hbad1.trans hbad, Nat.add_le_add hle hle1⟩
  count hg := by
    have hn := h.count hgood
    have hm := h1.count hg
    omega

/-- A run that ends with the failure of its first part. -/
theorem Draws.failed (h : S.Draws k n s good s') (hgood : ¬ good) (hgood' : ¬ good') :
    S.Draws k' m s good' s' :=
  ⟨h.used.imp fun _ h => absurd h.1 hgood, fun hg => absurd hg hgood'⟩

theorem Draws.breaks (h : S.Draws k n s good s1) (hgood : good) (h1 : S.Breaks k' m s1 e s') :
    S.Breaks (k + k') (n + m) s e s' where
  used := by
    apply h.used.seq h1.used
    rintro used used1 ⟨-, hbad, hle⟩ ⟨hbad1, hlt⟩
    rw [List.countP_append, Nat.add_mul]
    exact ⟨hbad1.trans hbad, Nat.add_lt_add_of_le_of_lt hle hlt⟩
  reason := by
    apply h1.reason.imp_right
    rintro ⟨he, hlt⟩
    have hn := h.count hgood
    exact ⟨he, by omega⟩

theorem Breaks.mono (h : S.Breaks k n s e s') (hk : k ≤ k') (hn : n ≤ m) : S.Breaks k' m s e s' :=
  ⟨h.used.imp fun _ h => ⟨h.1, lt_of_lt_of_le h.2 (Nat.mul_le_mul_right _ hk)⟩,
    h.reason.imp_right fun ⟨he, hlt⟩ => ⟨he, by omega⟩⟩

end Supply

/-! ## Units with room for several items -/

/-- The units that `n` items need, `p` in each, when there are `room` places left in the last. -/
def bins (p room n : Nat) : Nat := (n - room + (p - 1)) / p

section Bins

variable {p room n : Nat}

theorem bins_zero (hp : 0 < p) : bins p room 0 = 0 := by
  unfold bins
  rw [Nat.zero_sub, Nat.zero_add]
  exact Nat.div_eq_of_lt (by omega)

/-- The next item goes to the last unit if that has a place, and else to a new one. -/
theorem bins_succ (hp : 0 < p) : bins p room (n + 1) =
    (if 0 < room then 0 else 1) + bins p (if 0 < room then room - 1 else p - 1) n := by
  unfold bins
  by_cases hroom : 0 < room
  · rw [if_pos hroom, if_pos hroom, Nat.zero_add, show n + 1 - room = n - (room - 1) by omega]
  · obtain rfl : room = 0 := by omega
    rw [if_neg hroom, if_neg hroom, show n + 1 - 0 + (p - 1) = n + p by omega,
      Nat.add_div_right n hp, Nat.add_comm]
    rcases Nat.lt_or_ge n p with hlt | hge
    · rw [Nat.div_eq_of_lt hlt, Nat.div_eq_of_lt (by omega)]
    · rw [show n - (p - 1) + (p - 1) = n by omega]

end Bins

end Logfs
