import Logfs.Btree.Insert

/-!
# Neighbouring nodes

Two nodes that follow each other in their level and have their separators side
by side in one parent.  `steal_l` and `steal_r` cut the pairs of both in another
place and set the left separator to the new cut.
-/

namespace Logfs.Btree

open Levels

/-! ## Neighbours -/

/-- `l` and `r` are neighbours in their level and their separators in the node `p`. -/
structure Siblings (geo : Geo) (t : Tree) (P : Level) (l r : Span Key) (Q U : Level) (p : Span Key)
    (V : Level) (tl : List Level) (X : Entries) (s1 s2 : Key) (Y : Entries) : Prop where
  stack : Stack geo t ((P ++ l :: r :: Q) :: (U ++ p :: V) :: tl)
  es : p.es = X ++ (s1, l.addr) :: (s2, r.addr) :: Y
  above : List.Forall₂ Link (kids U ++ kidsOf p.rng X) P
  left : ∀ x, l.rng x → Levels.below p.rng X x ∧ s1 ≤ x
  right : ∀ x, r.rng x → (Levels.below p.rng X x ∧ x < s1) ∧ s2 ≤ x
  below : List.Forall₂ Link
    (kidsOf (fun x => (Levels.below p.rng X x ∧ x < s1) ∧ x < s2) Y ++ kids V) Q

section Siblings

variable {geo : Geo} {t t' : Tree} {b P Q U V : Level} {l r p : Span Key} {tl : List Level}
  {X Y L R : Entries} {s1 s2 s k : Key} {a1 a2 : Nat}

/-- The parent that holds a key points to the node that may hold it. -/
theorem Stack.parent (h : Stack geo t ((P ++ r :: Q) :: (U ++ p :: V) :: tl)) (hr : r.rng k)
    (hp : p.rng k) :
    ∃ X s Y, p.es = X ++ (s, r.addr) :: Y ∧ (∀ e ∈ X, k < e.1) ∧ ∀ e ∈ (s, r.addr) :: Y, e.1 ≤ k := by
  obtain ⟨K1, c, K2, hK, -, hc, -⟩ := forall₂_split_cons h.links.flip
  have hc : Link c r := hc
  have hck := hc.rng k hr
  obtain ⟨X, B, hes, hX, hB⟩ :=
    exists_split (h.tail.bottom_holds p (by simp)).ok.sorted k
  -- the kid of the node comes from the parent, below the keys of `X`
  obtain ⟨q, hq, hcq⟩ := kids_mem (l := U ++ p :: V) (c := c) (hK ▸ by simp)
  obtain ⟨A', B', hq'⟩ := List.append_of_mem hq
  obtain ⟨-, rfl, -⟩ := h.tail.apart.unique hq' rfl (kidsOf_rng hcq hck).1 hp
  have hmem := kidsOf_entry_mem hcq
  rw [hes, List.mem_append] at hmem
  have hcB : c.entry ∈ B := by
    rcases hmem with hmem | hmem
    · exact absurd (kidsOf_rng hcq hck).2 (not_le.2 (hX _ hmem))
    · exact hmem
  cases B with
  | nil => simp at hcB
  | cons e Y =>
    have hkids : kids (U ++ q :: V) = (kids U ++ kidsOf q.rng X) ++
        (⟨e.1, e.2, fun x => Levels.below q.rng X x ∧ e.1 ≤ x⟩ : Kid Key) ::
          (kidsOf (fun x => Levels.below q.rng X x ∧ x < e.1) Y ++ kids V) := by
      simp [kids_append, kids_cons, hes, kidsOf_append]
    obtain ⟨-, hce, -⟩ := h.tail.apart.kids.unique hK hkids hck ⟨⟨hp, hX⟩, hB e (by simp)⟩
    have haddr : e.2 = r.addr := by
      rw [← hc.addr, hce]
    exact ⟨X, e.1, Y, by rw [hes, ← haddr], hX, haddr ▸ hB⟩

/-- Two neighbouring pairs of a node are the separators of two neighbouring nodes. -/
theorem Stack.siblings (h : Stack geo t (b :: (U ++ p :: V) :: tl))
    (hes : p.es = X ++ (s1, a1) :: (s2, a2) :: Y) :
    ∃ P l r Q, b = P ++ l :: r :: Q ∧ l.addr = a1 ∧ r.addr = a2 ∧
      Siblings geo t P l r Q U p V tl X s1 s2 Y := by
  have hkids : kids (U ++ p :: V) = (kids U ++ kidsOf p.rng X) ++
      (⟨s1, a1, fun x => Levels.below p.rng X x ∧ s1 ≤ x⟩ : Kid Key) ::
      (⟨s2, a2, fun x => (Levels.below p.rng X x ∧ x < s1) ∧ s2 ≤ x⟩ : Kid Key) ::
        (kidsOf (fun x => (Levels.below p.rng X x ∧ x < s1) ∧ x < s2) Y ++ kids V) := by
    simp [kids_append, kids_cons, hes, kidsOf_append]
  have hl := h.links
  rw [hkids] at hl
  obtain ⟨P, l, d, rfl, hP, hc, hd⟩ := forall₂_split_cons hl
  cases hd with
  | @cons _ r _ Q hr hQ =>
    exact ⟨P, l, r, Q, rfl, hc.addr.symm, hr.addr.symm, h, by rw [hes, ← hc.addr, ← hr.addr], hP,
      hc.rng, hr.rng, hQ⟩

/-- The neighbour on the right of a node, from the parent. -/
theorem Stack.siblings_right (h : Stack geo t ((P ++ r :: Q) :: (U ++ p :: V) :: tl))
    (hes : p.es = X ++ (s1, r.addr) :: (s2, a2) :: Y) :
    ∃ q Q', Q = q :: Q' ∧ q.addr = a2 ∧ Siblings geo t P r q Q' U p V tl X s1 s2 Y := by
  obtain ⟨P', l', r', Q', hb, hl, hr, hs⟩ := h.siblings hes
  obtain ⟨rfl, rfl, rfl⟩ := h.addr_inj rfl hb hl.symm
  exact ⟨r', Q', rfl, hr, hs⟩

/-- The neighbour on the left of a node, from the parent. -/
theorem Stack.siblings_left (h : Stack geo t ((P ++ r :: Q) :: (U ++ p :: V) :: tl))
    (hes : p.es = X ++ (s1, a1) :: (s2, r.addr) :: Y) :
    ∃ P' l, P = P' ++ [l] ∧ l.addr = a1 ∧ Siblings geo t P' l r Q U p V tl X s1 s2 Y := by
  obtain ⟨P', l', r', Q', hb, hl, hr, hs⟩ := h.siblings hes
  obtain ⟨rfl, rfl, rfl⟩ := h.addr_inj rfl (hb.trans (List.append_cons P' l' (r' :: Q'))) hr.symm
  exact ⟨P', l', rfl, hl, hs⟩

theorem Siblings.keys (h : Siblings geo t P l r Q U p V tl X s1 s2 Y) : s2 < s1 := by
  have hs := (h.stack.tail.bottom_holds p (by simp)).ok.sorted
  rw [h.es] at hs
  exact (List.pairwise_cons.1 (List.pairwise_append.1 hs).2.1).1 (s2, r.addr) (by simp)

theorem Siblings.sep (h : Siblings geo t P l r Q U p V tl X s1 s2 Y) : Sep l.rng r.rng :=
  fun x y hx hy => lt_of_lt_of_le (h.right y hy).1.2 (h.left x hx).2

theorem Siblings.mem (_ : Siblings geo t P l r Q U p V tl X s1 s2 Y) :
    l ∈ P ++ l :: r :: Q ∧ r ∈ P ++ l :: r :: Q ∧ p ∈ U ++ p :: V ∧
      (∀ x ∈ P ++ Q, x ∈ P ++ l :: r :: Q) :=
  ⟨by simp, by simp, by simp, fun x hx => by simp only [List.mem_append, List.mem_cons] at hx ⊢; tauto⟩

/-- The three nodes are at different addresses. -/
theorem Siblings.addr_ne (h : Siblings geo t P l r Q U p V tl X s1 s2 Y) :
    l.addr ≠ r.addr ∧ l.addr ≠ p.addr ∧ r.addr ≠ p.addr := by
  have hst := h.stack
  refine ⟨fun he => hst.addr_ne (P := P) (r := l) (Q := r :: Q) (s := r) (by simp) he.symm,
    fun he => ?_, fun he => ?_⟩
  · exact hst.bottom_not_mem h.mem.1 (he ▸ addr_mem_addrs h.mem.2.2.1)
  · exact hst.bottom_not_mem h.mem.2.1 (he ▸ addr_mem_addrs h.mem.2.2.1)

/-- The other nodes of the level are at none of the three addresses. -/
theorem Siblings.others (h : Siblings geo t P l r Q U p V tl X s1 s2 Y) {x : Span Key}
    (hx : x ∈ P ++ Q) :
    x.addr ≠ l.addr ∧ x.addr ≠ r.addr ∧ x.addr ∉ addrs ((U ++ p :: V) :: tl) := by
  have hst := h.stack
  refine ⟨hst.addr_ne (P := P) (r := l) (Q := r :: Q) ?_, ?_,
    hst.bottom_not_mem (h.mem.2.2.2 x hx)⟩
  · simp only [List.mem_append, List.mem_cons] at hx ⊢
    tauto
  · have hst' : Stack geo t (((P ++ [l]) ++ r :: Q) :: (U ++ p :: V) :: tl) := by simpa using hst
    refine hst'.addr_ne ?_
    simp only [List.mem_append, List.mem_cons] at hx ⊢
    tauto

/-- The level is put together again under the levels a run has left above it: `M` stands for
the two nodes. -/
theorem Siblings.rebuild {M u : Level} {tl' : List Level}
    (h : Siblings geo t P l r Q U p V tl X s1 s2 Y) (hup : Stack geo t' (u :: tl'))
    (hold : ∀ a ∈ addrs (u :: tl'), a ∈ addrs ((U ++ p :: V) :: tl))
    (he : Ext (l.addr :: r.addr :: addrs ((U ++ p :: V) :: tl)) t t')
    (hlinks : List.Forall₂ Link (kids u) (P ++ M ++ Q))
    (hM : (M.map Span.addr).Sublist [l.addr, r.addr]) (hholds : ∀ x ∈ M, Holds geo t' x) :
    Stack geo t' ((P ++ M ++ Q) :: u :: tl') := by
  have hst := h.stack
  have hin : ∀ x ∈ M, x.addr = l.addr ∨ x.addr = r.addr := by
    intro x hx
    simpa using hM.subset (List.mem_map_of_mem hx)
  have hmem : ∀ x ∈ P ++ M ++ Q, x ∈ P ++ Q ∨ x ∈ M := by
    intro x hx
    simp only [List.mem_append] at hx ⊢
    tauto
  have hlive : ∀ x ∈ P ++ M ++ Q, ∃ y ∈ P ++ l :: r :: Q, x.addr = y.addr := by
    intro x hx
    rcases hmem x hx with hx | hx
    · exact ⟨x, h.mem.2.2.2 x hx, rfl⟩
    · rcases hin x hx with hx | hx
      · exact ⟨l, h.mem.1, hx⟩
      · exact ⟨r, h.mem.2.1, hx⟩
  refine hup.cons hlinks ?_ ?_ ?_ ?_
  · intro x hx
    rcases hmem x hx with hx | hx
    · obtain ⟨h1, h2, h3⟩ := h.others hx
      have hxm := h.mem.2.2.2 x hx
      exact (hst.bottom_holds x hxm).ext he (by simp [h1, h2, -addrs_cons, h3])
        (hst.bottom_live hxm).2
    · exact hholds x hx
  · refine List.Sublist.nodup ?_ hst.bottom_nodup
    simp only [List.map_append, List.map_cons, List.append_assoc]
    exact (List.Sublist.refl _).append (hM.append (List.Sublist.refl _))
  · intro x hx hc
    obtain ⟨y, hy, he⟩ := hlive x hx
    exact hst.bottom_not_mem hy (he ▸ hold _ hc)
  · intro x hx
    obtain ⟨y, hy, hxy⟩ := hlive x hx
    have := hst.bottom_live hy
    have := he.next_le
    omega

/-- The pairs of both nodes, in the range of both. -/
theorem Siblings.kids_join (h : Siblings geo t P l r Q U p V tl X s1 s2 Y) :
    KidsLe (kidsOf l.rng l.es ++ kidsOf r.rng r.es)
      (kidsOf (fun x => l.rng x ∨ r.rng x) (l.es ++ r.es)) := by
  refine kidsOf_join (fun e he x hx => ?_) (fun x hx => Or.inl hx) fun x hx => Or.inr hx
  exact h.sep e.1 x ((h.stack.bottom_holds l h.mem.1).ok.inRng e he) hx

theorem Siblings.join_ok (h : Siblings geo t P l r Q U p V tl X s1 s2 Y) :
    Span.Ok ⟨l.addr, fun x => l.rng x ∨ r.rng x, l.es ++ r.es⟩ := by
  have hl := (h.stack.bottom_holds l h.mem.1).ok
  have hr := (h.stack.bottom_holds r h.mem.2.1).ok
  refine ⟨List.pairwise_append.2 ⟨hl.sorted, hr.sorted, fun a ha b hb => ?_⟩, fun e he => ?_⟩
  · exact h.sep _ _ (hl.inRng a ha) (hr.inRng b hb)
  · rcases List.mem_append.1 he with he | he
    · exact Or.inl (hl.inRng e he)
    · exact Or.inr (hr.inRng e he)

end Siblings

/-! ## Stealing -/

section Steal

variable {geo : Geo} {t t' : Tree} {P Q U V : Level} {l r p : Span Key} {tl : List Level}
  {X Y L R : Entries} {s1 s2 s : Key}

/-- The left of two neighbours whose pairs are cut at the separator `s`. -/
def cutLeft (l r : Span Key) (s : Key) (L : Entries) : Span Key :=
  ⟨l.addr, fun x => (l.rng x ∨ r.rng x) ∧ s ≤ x, L⟩

/-- The right of two neighbours whose pairs are cut at the separator `s`. -/
def cutRight (l r : Span Key) (s : Key) (R : Entries) : Span Key :=
  ⟨r.addr, fun x => (l.rng x ∨ r.rng x) ∧ x < s, R⟩

/-- The pairs of two neighbours are cut in another place. -/
theorem Siblings.recut (h : Siblings geo t P l r Q U p V tl X s1 s2 Y)
    (he : Ext [l.addr, r.addr, p.addr] t t') (hn : t'.node = t.node)
    (hl : ∃ w, t'.mem l.addr = some w ∧ Rep geo w L)
    (hr : ∃ w, t'.mem r.addr = some w ∧ Rep geo w R)
    (hp : ∃ w, t'.mem p.addr = some w ∧ Rep geo w (X ++ (s, l.addr) :: (s2, r.addr) :: Y))
    (hLR : L ++ R = l.es ++ r.es) (hL : ∀ e ∈ L, s ≤ e.1) (hs : ∃ e ∈ L, e.1 = s) (hlt : s2 < s) :
    Stack geo t' ((P ++ cutLeft l r s L :: cutRight l r s R :: Q) ::
        (U ++ ⟨p.addr, p.rng, X ++ (s, l.addr) :: (s2, r.addr) :: Y⟩ :: V) :: tl) ∧
      KidsLe (kids (P ++ l :: r :: Q)) (kids (P ++ cutLeft l r s L :: cutRight l r s R :: Q)) := by
  have hst := h.stack
  have hjoin := h.join_ok
  rw [← hLR] at hjoin
  obtain ⟨e, heL, rfl⟩ := hs
  have hR : ∀ x ∈ R, x.1 < e.1 := (List.pairwise_append.1 hjoin.sorted).2.2 e heL
  have hbelow : ∀ x, l.rng x ∨ r.rng x → Levels.below p.rng X x := by
    rintro x (hx | hx)
    · exact (h.left x hx).1
    · exact (h.right x hx).1.1
  have hse : l.rng e.1 ∨ r.rng e.1 := hjoin.inRng e (by simp [heL])
  have hpok := (hst.tail.bottom_holds p h.mem.2.2.1).ok
  have hps := hpok.sorted
  rw [h.es] at hps
  obtain ⟨hX, hps, hXY⟩ := List.pairwise_append.1 hps
  obtain ⟨h12, hps⟩ := List.pairwise_cons.1 hps
  have hok : Span.Ok ⟨p.addr, p.rng, X ++ (e.1, l.addr) :: (s2, r.addr) :: Y⟩ := by
    refine ⟨List.pairwise_append.2 ⟨hX, List.pairwise_cons.2 ⟨?_, hps⟩, ?_⟩, ?_⟩
    · intro y hy
      rcases List.mem_cons.1 hy with rfl | hy
      · exact hlt
      · exact lt_trans ((List.pairwise_cons.1 hps).1 y hy) hlt
    · intro x hx y hy
      rcases List.mem_cons.1 hy with rfl | hy
      · exact (hbelow _ hse).2 x hx
      · exact hXY x hx y (List.mem_cons_of_mem _ hy)
    · intro x hx
      rw [List.mem_append, List.mem_cons] at hx
      rcases hx with hx | rfl | hx
      · exact hpok.inRng x (by rw [h.es]; simp [hx])
      · exact (hbelow _ hse).1
      · exact hpok.inRng x (by rw [h.es]; simp [List.mem_cons.1 hx])
  have hup := hst.tail.change_bottom (A := [l.addr, r.addr, p.addr]) he hn ?_
    (show (⟨p.addr, p.rng, X ++ (e.1, l.addr) :: (s2, r.addr) :: Y⟩ : Span Key).addr = p.addr
      from rfl) (fun _ hx => hx) hp hok
  · have hpmem : p.addr ∈ addrs ((U ++ p :: V) :: tl) := addr_mem_addrs h.mem.2.2.1
    have hM := h.rebuild (M := [cutLeft l r e.1 L, cutRight l r e.1 R]) hup
      (by simp [addrs_cons]) (he.mono ?_) ?_ (List.Sublist.refl _) ?_
    · refine ⟨by simpa using hM, ?_⟩
      simp only [kids_append, kids_cons, cutLeft, cutRight]
      refine (KidsLe.refl _).append ?_
      rw [← List.append_assoc, ← List.append_assoc]
      refine KidsLe.append (h.kids_join.trans ?_) (KidsLe.refl _)
      rw [← hLR]
      exact kidsOf_cut hL ⟨e, heL, rfl⟩
    · intro a ha
      simp only [List.mem_cons, List.not_mem_nil, or_false] at ha ⊢
      rcases ha with rfl | rfl | rfl
      · exact Or.inl rfl
      · exact Or.inr (Or.inl rfl)
      · exact Or.inr (Or.inr hpmem)
    · -- each node below its separator
      have hkids : kids (U ++ ⟨p.addr, p.rng, X ++ (e.1, l.addr) :: (s2, r.addr) :: Y⟩ :: V) =
          (kids U ++ kidsOf p.rng X) ++
          (⟨e.1, l.addr, fun x => Levels.below p.rng X x ∧ e.1 ≤ x⟩ : Kid Key) ::
          (⟨s2, r.addr, fun x => (Levels.below p.rng X x ∧ x < e.1) ∧ s2 ≤ x⟩ : Kid Key) ::
            (kidsOf (fun x => (Levels.below p.rng X x ∧ x < e.1) ∧ x < s2) Y ++ kids V) := by
        simp [kids_append, kids_cons, kidsOf_append]
      rw [hkids, List.append_assoc P]
      refine forall₂_append h.above (List.Forall₂.cons ⟨rfl, fun x hx => ⟨hbelow x hx.1, hx.2⟩⟩
        (List.Forall₂.cons ⟨rfl, fun x hx => ⟨⟨hbelow x hx.1, hx.2⟩, ?_⟩⟩ ?_))
      · rcases hx.1 with hx | hx
        · exact le_trans (le_of_lt (h12 (s2, r.addr) (by simp))) (h.left x hx).2
        · exact (h.right x hx).2
      · refine links_le h.below (KidsLe.append (kidsOf_mono fun x hx => ?_) (KidsLe.refl _))
        exact ⟨⟨hx.1.1, lt_trans hx.2 hlt⟩, hx.2⟩
    · obtain ⟨hsL, hsR, -⟩ := List.pairwise_append.1 hjoin.sorted
      simp only [List.mem_cons, List.not_mem_nil, or_false, forall_eq_or_imp, forall_eq]
      refine ⟨⟨hl, hsL, fun x hx => ⟨hjoin.inRng x (by simp [show x ∈ L from hx]), hL x hx⟩⟩,
        ⟨hr, hsR, fun x hx => ⟨hjoin.inRng x (by simp [show x ∈ R from hx]), hR x hx⟩⟩⟩
  · intro a ha
    simp only [List.mem_cons, List.not_mem_nil, or_false] at ha
    rcases ha with rfl | rfl | rfl
    · exact Or.inr (hst.bottom_not_mem h.mem.1)
    · exact Or.inr (hst.bottom_not_mem h.mem.2.1)
    · exact Or.inl rfl

/-- The three nodes were written: `ws` are the left node, the right node and the parent. -/
structure Written (t t' : Tree) (l r p : Span Key) (ws : Node × Node × Node) : Prop where
  left : t'.mem l.addr = some ws.1
  right : t'.mem r.addr = some ws.2.1
  parent : t'.mem p.addr = some ws.2.2
  ext : Ext [l.addr, r.addr, p.addr] t t'
  head : SameHead t t'

theorem Siblings.write (h : Siblings geo t P l r Q U p V tl X s1 s2 Y) (ws : Node × Node × Node) :
    Runs (do store l.addr ws.1; store r.addr ws.2.1; store p.addr ws.2.2)
      (fun _ t' => Written t t' l r p ws) t := by
  obtain ⟨hlr, hlp, hrp⟩ := h.addr_ne
  obtain ⟨wl, hwl, -⟩ := (h.stack.bottom_holds l h.mem.1).words
  obtain ⟨wr, hwr, -⟩ := (h.stack.bottom_holds r h.mem.2.1).words
  obtain ⟨wp, hwp, -⟩ := (h.stack.tail.bottom_holds p h.mem.2.2.1).words
  rw [Runs, wp_bind, wp_store hwl, wp_bind,
    wp_store (w := wr) (by simpa [Function.update_of_ne hlr.symm] using hwr),
    wp_store (w := wp) (by simpa [Function.update_of_ne hrp.symm, Function.update_of_ne hlp.symm]
      using hwp)]
  refine ⟨by simp [Function.update_of_ne hlp, Function.update_of_ne hlr],
    by simp [Function.update_of_ne hrp], by simp, ⟨Nat.le_refl _, fun x hx _ => ?_, fun _ hf => hf⟩,
    rfl, rfl, rfl, rfl⟩
  simp only [List.mem_cons, List.not_mem_nil, or_false, not_or] at hx
  simp [Function.update_of_ne hx.1, Function.update_of_ne hx.2.1, Function.update_of_ne hx.2.2]

/-- What a steal leaves: the same pairs in the level, `L` of them in the left node. -/
structure Stolen (geo : Geo) (t t' : Tree) (P : Level) (l r : Span Key) (Q U : Level) (p : Span Key)
    (V : Level) (tl : List Level) (L R : Entries) : Prop where
  spans : ∃ l' r' p', l'.addr = l.addr ∧ l'.es = L ∧ r'.addr = r.addr ∧ r'.es = R ∧
    p'.addr = p.addr ∧ p'.es.length = p.es.length ∧
    Stack geo t' ((P ++ l' :: r' :: Q) :: (U ++ p' :: V) :: tl) ∧
    KidsLe (kids (P ++ l :: r :: Q)) (kids (P ++ l' :: r' :: Q))
  ext : Ext [l.addr, r.addr, p.addr] t t'
  head : SameHead t t'

/-- The same, with the ranges of the two nodes. -/
structure Recut (geo : Geo) (t t' : Tree) (P : Level) (l r : Span Key) (Q U : Level) (p : Span Key)
    (V : Level) (tl : List Level) (L R : Entries) : Prop where
  spans : ∃ s p', p'.addr = p.addr ∧ p'.es.length = p.es.length ∧
    Stack geo t' ((P ++ cutLeft l r s L :: cutRight l r s R :: Q) :: (U ++ p' :: V) :: tl) ∧
    KidsLe (kids (P ++ l :: r :: Q)) (kids (P ++ cutLeft l r s L :: cutRight l r s R :: Q))
  ext : Ext [l.addr, r.addr, p.addr] t t'
  head : SameHead t t'

theorem Recut.stolen (h : Recut geo t t' P l r Q U p V tl L R) :
    Stolen geo t t' P l r Q U p V tl L R := by
  obtain ⟨⟨s, p', ha, hl, hst, hk⟩, hext, hhead⟩ := h
  exact ⟨⟨cutLeft l r s L, cutRight l r s R, p', rfl, rfl, rfl, rfl, ha, hl, hst, hk⟩, hext, hhead⟩

variable {M : Entries} {wl wr wp : Node}

/-- `steal_l` moves the last pairs `M` of the left node over. -/
theorem Siblings.stealL (h : Siblings geo t P l r Q U p V tl X s1 s2 Y) (hwl : t.mem l.addr = some wl)
    (hwr : t.mem r.addr = some wr) (hwp : t.mem p.addr = some wp) (hl : l.es = L ++ M)
    (hne : L ≠ []) (hfit : r.es.length + M.length ≤ geo.noPairs)
    (hw : Written t t' l r p
      (Btree.stealL geo wl l.es.length wr r.es.length wp X.length M.length)) :
    Recut geo t t' P l r Q U p V tl L (M ++ r.es) := by
  have hlrep := (h.stack.bottom_holds l h.mem.1).rep hwl
  have hrrep := (h.stack.bottom_holds r h.mem.2.1).rep hwr
  have hprep := (h.stack.tail.bottom_holds p h.mem.2.2.1).rep hwp
  obtain ⟨L', e, rfl⟩ : ∃ L' e, L = L' ++ [e] :=
    ⟨L.dropLast, L.getLast hne, (List.dropLast_append_getLast hne).symm⟩
  have hok := (h.stack.bottom_holds l h.mem.1).ok
  have hsorted := hok.sorted
  rw [hl] at hlrep hsorted
  rw [h.es] at hprep
  have hl' : l.es = L' ++ e :: M := by simp [hl]
  -- the new separator is the last key that stays
  have hkey : bkey geo wl (l.es.length - M.length - 1) = e.1 := by
    rw [hl', List.length_append, List.length_cons,
      show L'.length + (M.length + 1) - M.length - 1 = L'.length by omega]
    rw [← hl, hl'] at hlrep
    exact hlrep.bkey_append
  have helen : e.1.length = geo.keylen := (hlrep.entry e (by simp)).1
  have hlt : s2 < e.1 := lt_of_lt_of_le h.keys (h.left e.1 (hok.inRng e (by simp [hl']))).2
  obtain ⟨hst, hk⟩ := h.recut (s := e.1) (L := L' ++ [e]) (R := M ++ r.es) hw.ext hw.head.node
    ⟨_, hw.left, by rw [hl]; exact hlrep.clear_tail⟩
    ⟨_, hw.right, by rw [hl]; exact hlrep.steal_front hrrep hfit⟩
    ⟨_, hw.parent, by rw [Btree.stealL, hkey]; exact hprep.setkey helen⟩
    (by rw [hl, ← List.append_assoc]) (last_le (List.pairwise_append.1 hsorted).1)
    ⟨e, by simp, rfl⟩ hlt
  exact ⟨⟨e.1, ⟨p.addr, p.rng, X ++ (e.1, l.addr) :: (s2, r.addr) :: Y⟩, rfl, by simp [h.es], hst,
    hk⟩, hw.ext, hw.head⟩

/-- `steal_r` moves the first pairs `M` of the right node over. -/
theorem Siblings.stealR (h : Siblings geo t P l r Q U p V tl X s1 s2 Y) (hwl : t.mem l.addr = some wl)
    (hwr : t.mem r.addr = some wr) (hwp : t.mem p.addr = some wp) (hr : r.es = M ++ R)
    (hM : M ≠ []) (hR : R ≠ []) (hfit : l.es.length + M.length ≤ geo.noPairs)
    (hw : Written t t' l r p
      (Btree.stealR geo wl l.es.length wr r.es.length wp X.length M.length)) :
    Recut geo t t' P l r Q U p V tl (l.es ++ M) R := by
  have hlrep := (h.stack.bottom_holds l h.mem.1).rep hwl
  have hrrep := (h.stack.bottom_holds r h.mem.2.1).rep hwr
  have hprep := (h.stack.tail.bottom_holds p h.mem.2.2.1).rep hwp
  obtain ⟨M', e, rfl⟩ : ∃ M' e, M = M' ++ [e] :=
    ⟨M.dropLast, M.getLast hM, (List.dropLast_append_getLast hM).symm⟩
  obtain ⟨x, hx⟩ := List.exists_mem_of_ne_nil R hR
  have hok := (h.stack.bottom_holds r h.mem.2.1).ok
  have hsorted := hok.sorted
  rw [hr] at hrrep hsorted
  rw [h.es] at hprep
  have hr' : r.es = M' ++ e :: R := by simp [hr]
  -- the new separator is the last key that moves
  have hkey : bkey geo wr ((M' ++ [e]).length - 1) = e.1 := by
    rw [show (M' ++ [e]).length - 1 = M'.length by simp]
    rw [← hr, hr'] at hrrep
    exact hrrep.bkey_append
  have helen : e.1.length = geo.keylen := (hrrep.entry e (by simp)).1
  have hlt : s2 < e.1 := by
    refine lt_of_le_of_lt (h.right x.1 (hok.inRng x (by simp [hr', hx]))).2 ?_
    exact (List.pairwise_append.1 hsorted).2.2 e (by simp) x hx
  have hjoin := h.join_ok.sorted
  simp only [hr, ← List.append_assoc] at hjoin
  have hmin : ∀ y ∈ l.es ++ (M' ++ [e]), e.1 ≤ y.1 := by
    rw [← List.append_assoc]
    exact last_le (List.pairwise_append.1 hjoin).1
  obtain ⟨hst, hk⟩ := h.recut (s := e.1) (L := l.es ++ (M' ++ [e])) (R := R) hw.ext hw.head.node
    ⟨_, hw.left, hlrep.steal_back hrrep hfit⟩
    ⟨_, hw.right, by rw [hr]; exact hrrep.drop_front⟩
    ⟨_, hw.parent, by rw [Btree.stealR, hkey]; exact hprep.setkey helen⟩
    (by rw [hr, List.append_assoc]) hmin ⟨e, by simp, rfl⟩ hlt
  exact ⟨⟨e.1, ⟨p.addr, p.rng, X ++ (e.1, l.addr) :: (s2, r.addr) :: Y⟩, rfl, by simp [h.es], hst,
    hk⟩, hw.ext, hw.head⟩

/-- `steal_l` of `n` pairs. -/
theorem Siblings.stealL_moves {n : Nat} (h : Siblings geo t P l r Q U p V tl X s1 s2 Y)
    (hwl : t.mem l.addr = some wl) (hwr : t.mem r.addr = some wr) (hwp : t.mem p.addr = some wp)
    (hn : n < l.es.length) (hfit : r.es.length + n ≤ geo.noPairs)
    (hw : Written t t' l r p (Btree.stealL geo wl l.es.length wr r.es.length wp X.length n)) :
    Recut geo t t' P l r Q U p V tl (l.es.take (l.es.length - n))
      (l.es.drop (l.es.length - n) ++ r.es) := by
  have hM : (l.es.drop (l.es.length - n)).length = n := by
    rw [List.length_drop]
    omega
  rw [← hM] at hw
  refine h.stealL hwl hwr hwp (List.take_append_drop _ _).symm (fun hc => ?_) (by rwa [hM]) hw
  have := congrArg List.length hc
  rw [List.length_take, List.length_nil] at this
  omega

/-- `steal_r` of `n` pairs. -/
theorem Siblings.stealR_moves {n : Nat} (h : Siblings geo t P l r Q U p V tl X s1 s2 Y)
    (hwl : t.mem l.addr = some wl) (hwr : t.mem r.addr = some wr) (hwp : t.mem p.addr = some wp)
    (hone : 1 ≤ n) (hn : n < r.es.length) (hfit : l.es.length + n ≤ geo.noPairs)
    (hw : Written t t' l r p (Btree.stealR geo wl l.es.length wr r.es.length wp X.length n)) :
    Recut geo t t' P l r Q U p V tl (l.es ++ r.es.take n) (r.es.drop n) := by
  have hM : (r.es.take n).length = n := by
    rw [List.length_take]
    omega
  rw [← hM] at hw
  refine h.stealR hwl hwr hwp (List.take_append_drop _ _).symm (fun hc => ?_) (fun hc => ?_)
    (by rwa [hM]) hw
  · have := congrArg List.length hc
    rw [hM, List.length_nil] at this
    omega
  · have := congrArg List.length hc
    rw [List.length_drop, List.length_nil] at this
    omega

end Steal

end Logfs.Btree
