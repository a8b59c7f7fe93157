import Logfs.Lib.Levels
import Logfs.Btree.Rep
import Logfs.Btree.Tree

/-!
# The levels of a tree in memory

`Stack geo t ls`: the nodes of `t` from some level up to the root are the spans
`ls`, bottom level first.  `btree.c` works on one level at a time and finds the
levels above it again from the root, so the operations at a level are described
by what they do to the stack from that level on; the levels below are a frame.
-/

namespace Logfs.Btree

open Levels

abbrev Level := List (Span Key)

/-- The node at the address of `r` holds the pairs of `r`. -/
structure Holds (geo : Geo) (t : Tree) (r : Span Key) : Prop where
  words : ∃ w, t.mem r.addr = some w ∧ Rep geo w r.es
  ok : r.Ok

/-- The addresses of the nodes of some levels. -/
def addrs (ls : List Level) : List Nat := ls.flatten.map Span.addr

/-- The levels of a tree from some level up to the root. -/
structure Stack (geo : Geo) (t : Tree) (ls : List Level) : Prop where
  linked : Linked t.node ls
  holds : ∀ l ∈ ls, ∀ r ∈ l, Holds geo t r
  nodup : (addrs ls).Nodup
  live : ∀ a ∈ addrs ls, 0 < a ∧ a < t.next

/-- A run that touched only the nodes at `A` and nodes allocated during it. -/
structure Ext (A : List Nat) (t t' : Tree) : Prop where
  next_le : t.next ≤ t'.next
  mem_eq : ∀ a, a ∉ A → a < t.next → t'.mem a = t.mem a
  fails : ∀ f ∈ t'.fails, f ∈ t.fails

/-- The key pointer `key` points to the words `k`. -/
def KeyAt (geo : Geo) (t : Tree) : KeyPtr → Key → Prop
  | .ext k', k => k' = k
  | .slot a n, k => a < t.next ∧ ∃ w, t.mem a = some w ∧ bkey geo w n = k

theorem keyAt_ext (geo : Geo) (t : Tree) (k : Key) : KeyAt geo t (.ext k) k := rfl

/-- The key pointer does not point into the nodes at `A`. -/
def KeyPtr.Avoids (A : List Nat) : KeyPtr → Prop
  | .ext _ => True
  | .slot a _ => a ∉ A

/-! ## Memory rules -/

section Memory

variable {geo : Geo} {t t' t'' : Tree} {A B : List Nat} {a : Nat} {w w' : Node} {key : KeyPtr}
  {k : Key} {E : Stop → Tree → Prop}

theorem wp_load {Q : Node → Tree → Prop} (h : t.mem a = some w) :
    Wp (load a) Q E t ↔ Q w t := by
  simp [Wp, load, h]

theorem wp_store {Q : Unit → Tree → Prop} (h : t.mem a = some w) :
    Wp (store a w') Q E t ↔ Q () { t with mem := Function.update t.mem a (some w') } := by
  simp [Wp, store, h]

theorem wp_free {Q : Unit → Tree → Prop} (h : t.mem a = some w) :
    Wp (free a) Q E t ↔ Q () { t with mem := Function.update t.mem a none } := by
  simp [Wp, free, h]

theorem wp_readKey {Q : Key → Tree → Prop} (h : KeyAt geo t key k) :
    Wp (readKey geo key) Q E t ↔ Q k t := by
  cases key with
  | ext k' => cases h; simp [readKey]
  | slot a n =>
    obtain ⟨-, w, hw, hk⟩ := h
    simp [readKey, wp_load hw, hk]

/-- An allocation fails, or hands out the next address. -/
theorem wp_alloc {Q : Nat → Tree → Prop}
    (hfail : ∀ fs, t.fails = true :: fs → Q 0 { t with fails := fs })
    (hok : ∀ fs, (∀ f ∈ fs, f ∈ t.fails) →
      Q t.next { t with mem := Function.update t.mem t.next (some zeroNode), next := t.next + 1,
                        fails := fs }) :
    Wp btreeNodeAlloc Q E t := by
  unfold Wp btreeNodeAlloc
  rcases hf : t.fails with _ | ⟨_ | _, fs⟩
  · exact hok [] (by simp)
  · exact hok fs (by simp [hf])
  · exact hfail fs hf

theorem Ext.refl (A : List Nat) (t : Tree) : Ext A t t :=
  ⟨Nat.le_refl _, fun _ _ _ => rfl, fun _ h => h⟩

/-- Two runs one after the other; the second may also touch what the first allocated. -/
theorem Ext.trans (h : Ext A t t') (h' : Ext B t' t'')
    (hB : ∀ a ∈ B, a ∈ A ∨ t.next ≤ a) : Ext A t t'' where
  next_le := Nat.le_trans h.next_le h'.next_le
  mem_eq a ha hlt := by
    rw [h'.mem_eq a (fun hb => ?_) (Nat.lt_of_lt_of_le hlt h.next_le), h.mem_eq a ha hlt]
    rcases hB a hb with h1 | h1
    · exact ha h1
    · omega
  fails f hf := h.fails f (h'.fails f hf)

theorem Ext.mono (h : Ext A t t') (hAB : ∀ a ∈ A, a ∈ B) : Ext B t t' where
  next_le := h.next_le
  mem_eq a ha hlt := h.mem_eq a (fun hA => ha (hAB a hA)) hlt
  fails := h.fails

theorem Ext.store (a : Nat) (w : Node) (t : Tree) :
    Ext [a] t { t with mem := Function.update t.mem a (some w) } where
  next_le := Nat.le_refl _
  mem_eq b hb _ := Function.update_of_ne (by simpa using hb) _ _
  fails _ h := h

theorem KeyAt.ext (h : KeyAt geo t key k) (he : Ext A t t') (ha : key.Avoids A) :
    KeyAt geo t' key k := by
  cases key with
  | ext k' => exact h
  | slot a n =>
    obtain ⟨hlt, w, hw, hk⟩ := h
    exact ⟨Nat.lt_of_lt_of_le hlt he.next_le, w, by rw [he.mem_eq a ha hlt, hw], hk⟩

/-- A key in memory avoids what is allocated later. -/
theorem KeyAt.avoids (h : KeyAt geo t key k) (hav : key.Avoids A)
    (hB : ∀ a ∈ B, a ∈ A ∨ t.next ≤ a) : key.Avoids B := by
  cases key with
  | ext _ => trivial
  | slot a n =>
    intro ha
    rcases hB a ha with h1 | h1
    · exact hav h1
    · have := h.1
      omega

theorem KeyPtr.Avoids.mono (h : key.Avoids B) (hAB : ∀ a ∈ A, a ∈ B) : key.Avoids A := by
  cases key with
  | ext _ => trivial
  | slot a n => exact fun hA => h (hAB a hA)

theorem Holds.ext {r : Span Key} (h : Holds geo t r) (he : Ext A t t') (ha : r.addr ∉ A)
    (hlt : r.addr < t.next) : Holds geo t' r := by
  obtain ⟨w, hw, hr⟩ := h.words
  exact ⟨⟨w, by rw [he.mem_eq _ ha hlt, hw], hr⟩, h.ok⟩

theorem Holds.rep {r : Span Key} (h : Holds geo t r) (hw : t.mem r.addr = some w) :
    Rep geo w r.es := by
  obtain ⟨w', hw', hr⟩ := h.words
  obtain rfl : w' = w := Option.some.inj (hw'.symm.trans hw)
  exact hr

end Memory

/-! ## Stacks -/

section Stacks

variable {geo : Geo} {t t' : Tree} {b b' u : Level} {rest rest' : List Level} {P Q : Level}
  {r r' : Span Key} {a : Nat}

@[simp] theorem addrs_nil : addrs [] = [] := rfl

@[simp] theorem addrs_cons : addrs (b :: rest) = b.map Span.addr ++ addrs rest := by
  simp [addrs]

theorem mem_addrs {ls : List Level} : a ∈ addrs ls ↔ ∃ l ∈ ls, ∃ r ∈ l, r.addr = a := by
  simp only [addrs, List.mem_map, List.mem_flatten]
  constructor
  · rintro ⟨r, ⟨l, hl, hr⟩, rfl⟩
    exact ⟨l, hl, r, hr, rfl⟩
  · rintro ⟨l, hl, r, hr, rfl⟩
    exact ⟨r, ⟨l, hl, hr⟩, rfl⟩

theorem addr_mem_addrs (hr : r ∈ b) : r.addr ∈ addrs (b :: rest) := by
  rw [addrs_cons]
  exact List.mem_append_left _ (List.mem_map_of_mem hr)

theorem addrs_tail (ha : a ∈ addrs rest) : a ∈ addrs (b :: rest) := by
  rw [addrs_cons]
  exact List.mem_append_right _ ha

namespace Stack

theorem tail (h : Stack geo t (b :: u :: rest)) : Stack geo t (u :: rest) where
  linked := h.linked.2
  holds l hl := h.holds l (List.mem_cons_of_mem _ hl)
  nodup := (List.nodup_append.1 (addrs_cons ▸ h.nodup)).2.1
  live a ha := h.live a (addrs_tail ha)

theorem links (h : Stack geo t (b :: u :: rest)) : List.Forall₂ Link (kids u) b :=
  h.linked.1

theorem bottom_holds (h : Stack geo t (b :: rest)) : ∀ r ∈ b, Holds geo t r :=
  h.holds b List.mem_cons_self

theorem bottom_nodup (h : Stack geo t (b :: rest)) : (b.map Span.addr).Nodup :=
  (List.nodup_append.1 (addrs_cons ▸ h.nodup)).1

theorem bottom_live (h : Stack geo t (b :: rest)) (hr : r ∈ b) : 0 < r.addr ∧ r.addr < t.next :=
  h.live _ (addr_mem_addrs hr)

theorem bottom_not_mem (h : Stack geo t (b :: rest)) (hr : r ∈ b) : r.addr ∉ addrs rest := by
  have := (List.nodup_append.1 (addrs_cons ▸ h.nodup)).2.2
  exact fun hc => this r.addr (List.mem_map_of_mem hr) r.addr hc rfl

/-- The root is one of the nodes. -/
theorem root_mem : ∀ {ls : List Level}, Stack geo t ls → ∃ a, a ∈ addrs ls ∧ a = t.node
  | [top], h => by
    obtain ⟨r, rfl, hr⟩ := h.linked
    exact ⟨r.addr, addr_mem_addrs (by simp), hr⟩
  | b :: u :: rest, h => by
    obtain ⟨a, ha, hr⟩ := root_mem h.tail
    exact ⟨a, addrs_tail ha, hr⟩
  | [], h => h.linked.elim

/-- The other nodes of a level are at other addresses. -/
theorem addr_ne {s : Span Key} (h : Stack geo t ((P ++ r :: Q) :: rest)) (hs : s ∈ P ++ Q) :
    s.addr ≠ r.addr := by
  intro he
  have hnd := h.bottom_nodup
  rw [List.map_append, List.map_cons, List.nodup_middle, List.nodup_cons, ← List.map_append] at hnd
  exact hnd.1 (List.mem_map.2 ⟨s, hs, he⟩)

/-- The levels of a stack lie apart. -/
theorem apart (h : Stack geo t (b :: rest)) : Apart b :=
  h.linked.apart b List.mem_cons_self

/-- A level put under a stack. -/
theorem cons (h : Stack geo t (u :: rest)) (hl : List.Forall₂ Link (kids u) b)
    (hb : ∀ r ∈ b, Holds geo t r) (hnd : (b.map Span.addr).Nodup)
    (hdis : ∀ r ∈ b, r.addr ∉ addrs (u :: rest)) (hlive : ∀ r ∈ b, 0 < r.addr ∧ r.addr < t.next) :
    Stack geo t (b :: u :: rest) where
  linked := ⟨hl, h.linked⟩
  holds l hl := by
    rcases List.mem_cons.1 hl with rfl | hl
    · exact hb
    · exact h.holds l hl
  nodup := by
    rw [addrs_cons]
    refine List.nodup_append.2 ⟨hnd, h.nodup, ?_⟩
    intro x hx y hy hxy
    obtain ⟨r, hr, rfl⟩ := List.mem_map.1 hx
    exact hdis r hr (hxy ▸ hy)
  live a ha := by
    rw [addrs_cons, List.mem_append] at ha
    rcases ha with ha | ha
    · obtain ⟨r, hr, rfl⟩ := List.mem_map.1 ha
      exact hlive r hr
    · exact h.live a ha

/-- The top level is the root alone. -/
theorem root_alone (h : Stack geo t [P ++ r :: Q]) : P = [] ∧ Q = [] ∧ t.node = r.addr := by
  obtain ⟨s, hs, hroot⟩ := h.linked
  cases P with
  | nil =>
    simp only [List.nil_append, List.cons.injEq] at hs
    exact ⟨rfl, hs.2, hs.1 ▸ hroot.symm⟩
  | cons x P => simp at hs

/-- Two spans of a level at one address are the same position. -/
theorem addr_inj {P' Q' : Level} (h : Stack geo t (b :: rest)) (hr : b = P ++ r :: Q)
    (hr' : b = P' ++ r' :: Q') (ha : r.addr = r'.addr) : P = P' ∧ r = r' ∧ Q = Q' :=
  pairwise_split_unique (List.pairwise_map.1 h.bottom_nodup) hr hr' (fun hne => hne ha)
    fun hne => hne ha.symm

/-- One node of the bottom level changes, and nodes outside the stack; its range may shrink. -/
theorem change_bottom {A : List Nat} (h : Stack geo t ((P ++ r :: Q) :: rest)) (he : Ext A t t')
    (hn : t'.node = t.node) (hA : ∀ a ∈ A, a = r.addr ∨ a ∉ addrs ((P ++ r :: Q) :: rest))
    (ha : r'.addr = r.addr) (hrng : ∀ x, r'.rng x → r.rng x)
    (hw : ∃ w, t'.mem r.addr = some w ∧ Rep geo w r'.es) (hok : r'.Ok) :
    Stack geo t' ((P ++ r' :: Q) :: rest) := by
  have hsame : addrs ((P ++ r' :: Q) :: rest) = addrs ((P ++ r :: Q) :: rest) := by
    simp [addrs_cons, ha]
  have other : ∀ l ∈ (P ++ r :: Q) :: rest, ∀ s ∈ l, s.addr ≠ r.addr → Holds geo t' s := by
    intro l hl s hs hne
    have hmem : s.addr ∈ addrs ((P ++ r :: Q) :: rest) := mem_addrs.2 ⟨l, hl, s, hs, rfl⟩
    refine (h.holds l hl s hs).ext he (fun hc => ?_) (h.live _ hmem).2
    exact (hA _ hc).elim hne fun hc => hc hmem
  refine ⟨hn ▸ h.linked.shrink_bottom ?_, ?_, hsame ▸ h.nodup, fun a hma => ?_⟩
  · refine forall₂_append (List.forall₂_same.2 fun _ _ => ⟨rfl, fun _ hx => hx⟩) ?_
    exact List.Forall₂.cons ⟨ha.symm, hrng⟩ (List.forall₂_same.2 fun _ _ => ⟨rfl, fun _ hx => hx⟩)
  · intro l hl s hs
    rcases List.mem_cons.1 hl with rfl | hl
    · rw [List.mem_append, List.mem_cons] at hs
      rcases hs with hs | rfl | hs
      · exact other _ List.mem_cons_self s (by simp [hs]) (h.addr_ne (by simp [hs]))
      · exact ⟨ha ▸ hw, hok⟩
      · exact other _ List.mem_cons_self s (by simp [hs]) (h.addr_ne (by simp [hs]))
    · refine other l (List.mem_cons_of_mem _ hl) s hs fun he => ?_
      exact h.bottom_not_mem (r := r) (by simp) (he ▸ mem_addrs.2 ⟨l, hl, s, hs, rfl⟩)
  · obtain ⟨h1, h2⟩ := h.live a (hsame ▸ hma)
    exact ⟨h1, Nat.lt_of_lt_of_le h2 he.next_le⟩

/-- One node of the bottom level is written. -/
theorem store_bottom {w : Node} (h : Stack geo t ((P ++ r :: Q) :: rest)) (ha : r'.addr = r.addr)
    (hrng : ∀ x, r'.rng x → r.rng x) (hw : Rep geo w r'.es) (hok : r'.Ok) :
    Stack geo { t with mem := Function.update t.mem r.addr (some w) }
      ((P ++ r' :: Q) :: rest) :=
  h.change_bottom (Ext.store _ _ _) rfl (by simp) ha hrng ⟨w, Function.update_self _ _ _, hw⟩ hok

/-- A run that touches no node of the stack and keeps the root keeps the stack. -/
theorem frame {ls : List Level} {A : List Nat} (h : Stack geo t ls) (he : Ext A t t')
    (hA : ∀ a ∈ A, a ∉ addrs ls) (hn : t'.node = t.node) : Stack geo t' ls where
  linked := hn ▸ h.linked
  holds l hl r hr := by
    have hmem : r.addr ∈ addrs ls := mem_addrs.2 ⟨l, hl, r, hr, rfl⟩
    exact (h.holds l hl r hr).ext he (fun hc => hA _ hc hmem) (h.live _ hmem).2
  nodup := h.nodup
  live a ha := ⟨(h.live a ha).1, Nat.lt_of_lt_of_le (h.live a ha).2 he.next_le⟩

/-- The bottom level under levels that a run has changed above it. -/
theorem reattach (h : Stack geo t (b :: rest)) (h' : Stack geo t' (u :: rest'))
    (he : Ext (addrs rest) t t') (hl : List.Forall₂ Link (kids u) b)
    (hold : ∀ a ∈ addrs (u :: rest'), a ∈ addrs rest ∨ t.next ≤ a) :
    Stack geo t' (b :: u :: rest') := by
  refine h'.cons hl ?_ h.bottom_nodup ?_ ?_
  · exact fun s hs => (h.bottom_holds s hs).ext he (h.bottom_not_mem hs) (h.bottom_live hs).2
  · intro s hs hc
    rcases hold _ hc with ho | ho
    · exact h.bottom_not_mem hs ho
    · have := (h.bottom_live hs).2
      omega
  · exact fun s hs => ⟨(h.bottom_live hs).1, Nat.lt_of_lt_of_le (h.bottom_live hs).2 he.next_le⟩

/-- The fields of the head other than the root do not matter. -/
theorem of_eq (h : Stack geo t (b :: rest)) (hn : t'.node = t.node) (hm : t'.mem = t.mem)
    (hx : t.next ≤ t'.next) : Stack geo t' (b :: rest) where
  linked := hn ▸ h.linked
  holds l hl r hr := by
    obtain ⟨⟨w, hw, hrep⟩, hok⟩ := h.holds l hl r hr
    exact ⟨⟨w, by rw [hm, hw], hrep⟩, hok⟩
  nodup := h.nodup
  live a ha := ⟨(h.live a ha).1, Nat.lt_of_lt_of_le (h.live a ha).2 hx⟩

end Stack

end Stacks

end Logfs.Btree
