import Mathlib.Tactic.Ring
import Mathlib.Data.Nat.Init

/-!
# Radix trees by level

A tree of pointers with `r` slots in a block, level after level: block `m` of a
level has in slot `i` the pointer to block `r * m + i` of the level below, and
zero where there is none.  A level is the partial map from the numbers of its
blocks to the pointers to them; level zero is the map the tree is for.
-/

namespace Logfs.Radix

/-- The pointer the slots of an index lead to, from a block `l` levels up. -/
def descend (r : Nat) (slot : Nat → Nat → Nat) : Nat → Nat → Nat → Nat
  | 0, p, _ => p
  | l + 1, p, i => if p = 0 then 0 else descend r slot l (slot p (i / r ^ l % r)) i

/-- The same when a block is asked for by its level, its number and the pointer to it, and may not be
there. -/
def follow (r : Nat) (read : Nat → Nat → Nat → Option (Nat → Nat)) :
    Nat → Nat → Nat → Nat → Option Nat
  | 0, _, p, _ => some p
  | l + 1, m, p, i =>
    if p = 0 then some 0
    else (read (l + 1) m p).bind fun block =>
      follow r read l (r * m + i / r ^ l % r) (block (i / r ^ l % r)) i

section Layers

variable {r : Nat} {Has Has' : Nat → Nat → (Nat → Nat) → Prop}
  {Holds Holds' : Nat → Nat → Nat → (Nat → Nat) → Prop} {f g : Nat → Option Nat} {l m i : Nat}

variable (r Has) in
/-- The blocks of a level: there is one where the level below has any of its blocks, and its
slots have the pointers to these. -/
structure Covers (f g : Nat → Option Nat) : Prop where
  used : ∀ m, g m ≠ none ↔ ∃ n, n / r = m ∧ f n ≠ none
  stored : ∀ m p, g m = some p → ∃ block, Has m p block ∧
    ∀ i < r, block i = (f (r * m + i)).getD 0

variable (r Holds) in
/-- The level `l` levels above `f`; a block is known by its level, its number and the pointer to
it. -/
inductive Layers (f : Nat → Option Nat) : Nat → (Nat → Option Nat) → Prop where
  | base : Layers f 0 f
  | up {l : Nat} {g g' : Nat → Option Nat} (h : Layers f l g)
    (hc : Covers r (Holds (l + 1)) g g') : Layers f (l + 1) g'

theorem Covers.mono (h : Covers r Has f g) (hmono : ∀ m p block, Has m p block → Has' m p block) :
    Covers r Has' f g where
  used := h.used
  stored m p hp := by
    obtain ⟨block, hb, hs⟩ := h.stored m p hp
    exact ⟨block, hmono m p block hb, hs⟩

theorem Layers.mono (h : Layers r Holds f l g)
    (hmono : ∀ k ≤ l, ∀ m p block, Holds k m p block → Holds' k m p block) :
    Layers r Holds' f l g := by
  induction h with
  | base => exact .base
  | up _ hc ih =>
    exact .up (ih fun k hk => hmono k (Nat.le_succ_of_le hk)) (hc.mono (hmono _ (Nat.le_refl _)))

/-- A level has a block where `f` has anything below it. -/
theorem Layers.used (h : Layers r Holds f l g) (m : Nat) :
    g m ≠ none ↔ ∃ n, n / r ^ l = m ∧ f n ≠ none := by
  induction h generalizing m with
  | base => simp
  | @up l g g' _ hc ih =>
    have hdiv : ∀ n, n / r ^ (l + 1) = n / r ^ l / r := fun n => by
      rw [Nat.pow_succ, Nat.div_div_eq_div_mul]
    rw [hc.used]
    constructor
    · rintro ⟨k, hk, hg⟩
      obtain ⟨n, hn, hf⟩ := (ih k).1 hg
      exact ⟨n, by rw [hdiv, hn, hk], hf⟩
    · rintro ⟨n, hn, hf⟩
      exact ⟨n / r ^ l, by rw [← hdiv, hn], (ih _).2 ⟨n, rfl, hf⟩⟩

/-- The digits of an index, one off the top. -/
theorem digits_succ (r m i l : Nat) :
    (r * m + i / r ^ l % r) * r ^ l + i % r ^ l = m * r ^ (l + 1) + i % r ^ (l + 1) := by
  rw [Nat.pow_succ, Nat.mod_mul (x := i)]
  ring

section Follow

variable {read : Nat → Nat → Nat → Option (Nat → Nat)} {p : Nat} {block : Nat → Nat}

/-- What the slots of an index lead to, from the pointer to block `m`. -/
theorem Layers.follow (h : Layers r Holds f l g) (hr : 0 < r)
    (hread : ∀ k m p block, Holds k m p block →
      p ≠ 0 ∧ ∃ slots, read k m p = some slots ∧ ∀ i < r, slots i = block i) (m i : Nat) :
    follow r read l m ((g m).getD 0) i = some ((f (m * r ^ l + i % r ^ l)).getD 0) := by
  induction h generalizing m with
  | base => simp [Radix.follow, Nat.mod_one]
  | @up l g g' _ hc ih =>
    rw [Radix.follow, ← digits_succ r m i l]
    have hlt : i / r ^ l % r < r := Nat.mod_lt _ hr
    cases hg : g' m with
    | none =>
      -- neither is there anything below
      have hnone : g (r * m + i / r ^ l % r) = none := by
        by_contra hne
        refine (hc.used m).2 ⟨_, ?_, hne⟩ hg
        rw [Nat.mul_add_div hr, Nat.div_eq_of_lt hlt, Nat.add_zero]
      rw [← ih, hnone, Option.getD_none, if_pos rfl]
      cases l with
      | zero => rfl
      | succ l => simp [Radix.follow]
    | some p =>
      obtain ⟨block, hb, hs⟩ := hc.stored m p hg
      obtain ⟨hp, slots, hslots, hi⟩ := hread _ _ p block hb
      rw [Option.getD_some, if_neg hp, hslots, Option.bind_some, hi _ hlt, hs _ hlt, ih]

/-- The same from a block that is not in a level, but has its slots. -/
theorem Layers.follow_top (h : Layers r Holds f l g) (hr : 0 < r)
    (hread : ∀ k m p block, Holds k m p block →
      p ≠ 0 ∧ ∃ slots, read k m p = some slots ∧ ∀ i < r, slots i = block i)
    (hp : Holds (l + 1) m p block) (hs : ∀ i < r, block i = (g (r * m + i)).getD 0) (i : Nat) :
    Radix.follow r read (l + 1) m p i =
      some ((f (m * r ^ (l + 1) + i % r ^ (l + 1))).getD 0) := by
  have hlt : i / r ^ l % r < r := Nat.mod_lt _ hr
  obtain ⟨hp0, slots, hslots, hi⟩ := hread _ _ p block hp
  rw [Radix.follow, if_neg hp0, hslots, Option.bind_some, hi _ hlt, hs _ hlt,
    h.follow hr hread, digits_succ]

end Follow

/-- Where every block can be read no number is needed. -/
theorem follow_some (slot : Nat → Nat → Nat) (i : Nat) : ∀ l m p : Nat,
    follow r (fun _ _ p => some (slot p)) l m p i = some (descend r slot l p i) := by
  intro l
  induction l with
  | zero => exact fun _ _ => rfl
  | succ l ih =>
    intro m p
    rw [follow, descend]
    split_ifs
    · rfl
    · rw [Option.bind_some, ih]

theorem Layers.descend_top {slot : Nat → Nat → Nat} {p : Nat} {block : Nat → Nat}
    (h : Layers r Holds f l g) (hr : 0 < r)
    (hslot : ∀ k m p block, Holds k m p block → p ≠ 0 ∧ ∀ i < r, slot p i = block i)
    (hp : Holds (l + 1) m p block) (hs : ∀ i < r, block i = (g (r * m + i)).getD 0) (i : Nat) :
    Radix.descend r slot (l + 1) p i = (f (m * r ^ (l + 1) + i % r ^ (l + 1))).getD 0 := by
  have hfollow : Radix.follow r (fun _ _ p => some (slot p)) (l + 1) m p i = _ :=
    h.follow_top hr (fun k m p block hb =>
      ⟨(hslot k m p block hb).1, slot p, rfl, (hslot k m p block hb).2⟩) hp hs i
  rw [follow_some] at hfollow
  exact Option.some_inj.1 hfollow

end Layers

end Logfs.Radix
