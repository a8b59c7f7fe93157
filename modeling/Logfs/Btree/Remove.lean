import Logfs.Btree.Siblings

/-!
# Removal

`btree_remove_level` takes a pair out of a node of its level and, when the node
gets less than half full, merges it with a neighbour or lets it steal pairs.  A
merge gives the pairs of both nodes to the left one, exchanges the two in the
parent and removes the left separator from the parent, through the same
function; the induction is on the number of levels above.  When the root is
left with a single kid the kid becomes the root and the level is gone.
-/

namespace Logfs.Btree

open Levels

/-- A removal left the pairs of the level `c`, in a stack of nodes from `A`. -/
structure Removed (geo : Geo) (m level : Nat) (c : Level) (A : List Nat) (t t' : Tree) (b' : Level)
    (rest' : List Level) : Prop where
  stack : Stack geo t' (b' :: rest')
  kids : KidsLe (kids c) (kids b')
  old : ∀ a ∈ addrs (b' :: rest'), a ∈ A
  ext : Ext A t t'
  height : t'.height = level + rest'.length
  occ : Occ m (b' :: rest')

/-- A removal left at most one pair in the root at its level, which is gone. -/
structure Vanished (level : Nat) (c : Level) (A : List Nat) (t t' : Tree) : Prop where
  one : (kids c).length ≤ 1
  leaf : level = 1 → (kids c).length = 0
  node : t'.node = ((kids c).head?.map Kid.val).getD 0
  height : t'.height + 1 = level
  ext : Ext A t t'

/-! ## Merging -/

/-- The level `P ++ r :: Q` without the pair between `E1` and `E2` of `r`. -/
def without (P : Level) (r : Span Key) (E1 E2 : Entries) (Q : Level) : Level :=
  P ++ ⟨r.addr, r.rng, E1 ++ E2⟩ :: Q

/-- What the removal at a level below the levels `rest` does. -/
def Removes (geo : Geo) (fuel : Nat) (rest : List Level) : Prop :=
  ∀ ⦃P Q : Level⦄ ⦃r : Span Key⦄ ⦃E1 E2 : Entries⦄ ⦃k : Key⦄ ⦃v m level : Nat⦄ ⦃t : Tree⦄
    ⦃key : KeyPtr⦄,
    Stack geo t ((P ++ r :: Q) :: rest) → Occ m ((P ++ r :: Q) :: rest) →
    (level = 1 ∧ m = 1 ∨ 2 ≤ level ∧ m = 2) → r.es = E1 ++ (k, v) :: E2 →
    (key = .ext k ∨ key = .slot r.addr E1.length ∧ E2 ≠ []) → t.height = level + rest.length →
    Runs (btreeRemoveLevel geo fuel key level) (fun ret t' => ret = v ∧
      ((∃ b' rest', Removed geo m level (without P r E1 E2 Q) (addrs ((P ++ r :: Q) :: rest))
        t t' b' rest') ∨
        Vanished level (without P r E1 E2 Q) (addrs ((P ++ r :: Q) :: rest)) t t')) t

section Merge

variable {geo : Geo} {t t' : Tree} {P Q U V : Level} {l r p : Span Key} {tl : List Level}
  {X Y : Entries} {s1 s2 : Key} {level fuel m : Nat}

/-- The node that holds the pairs of both neighbours. -/
def joined (l r : Span Key) : Span Key := ⟨l.addr, fun x => l.rng x ∨ r.rng x, l.es ++ r.es⟩

/-- With the left separator gone the joined node takes the place of the two. -/
theorem Siblings.join_links (h : Siblings geo t P l r Q U p V tl X s1 s2 Y) :
    List.Forall₂ Link (kids (without U p X ((s2, l.addr) :: Y) V)) (P ++ joined l r :: Q) := by
  have hkids : kids (without U p X ((s2, l.addr) :: Y) V) = (kids U ++ kidsOf p.rng X) ++
      (⟨s2, l.addr, fun x => Levels.below p.rng X x ∧ s2 ≤ x⟩ : Kid Key) ::
        (kidsOf (fun x => Levels.below p.rng X x ∧ x < s2) Y ++ kids V) := by
    simp [without, kids_append, kids_cons, kidsOf_append]
  rw [hkids]
  refine forall₂_append h.above (List.Forall₂.cons ⟨rfl, ?_⟩ ?_)
  · rintro x (hx | hx)
    · exact ⟨(h.left x hx).1, le_trans (le_of_lt h.keys) (h.left x hx).2⟩
    · exact ⟨(h.right x hx).1.1, (h.right x hx).2⟩
  · refine links_le h.below (KidsLe.append (kidsOf_mono fun x hx => ?_) (KidsLe.refl _))
    exact ⟨hx.1.1, hx.2⟩

/-- The pairs of the level survive a merge. -/
theorem Siblings.join_kids (h : Siblings geo t P l r Q U p V tl X s1 s2 Y) :
    KidsLe (kids (P ++ l :: r :: Q)) (kids (P ++ joined l r :: Q)) := by
  simp only [kids_append, kids_cons, joined]
  refine (KidsLe.refl _).append ?_
  rw [← List.append_assoc]
  exact h.kids_join.append (KidsLe.refl _)

/-- The parent after the exchange of the two values. -/
def exchanged (p : Span Key) (X : Entries) (s1 s2 : Key) (l r : Span Key) (Y : Entries) :
    Span Key :=
  ⟨p.addr, p.rng, X ++ (s1, r.addr) :: (s2, l.addr) :: Y⟩

theorem Siblings.exchanged_ok (h : Siblings geo t P l r Q U p V tl X s1 s2 Y) :
    (exchanged p X s1 s2 l r Y).Ok :=
  (h.stack.tail.bottom_holds p h.mem.2.2.1).ok.of_keys (by simp [exchanged, h.es]) fun _ hx => hx

theorem addrs_exchanged :
    addrs ((U ++ exchanged p X s1 s2 l r Y :: V) :: tl) = addrs ((U ++ p :: V) :: tl) := by
  simp [exchanged]

/-- Occupancy of a level with one node replaced. -/
theorem Occ.replace {m : Nat} {P Q : Level} {r r' : Span Key} {rest : List Level}
    (h : Occ m ((P ++ r :: Q) :: rest)) (hr : r.es.length ≤ r'.es.length) :
    Occ m ((P ++ r' :: Q) :: rest) := by
  refine h.of_bottom_le (fun x hx => ?_) (List.forall₂_same.2 fun l _ => sameShape_refl l)
  rw [List.mem_append, List.mem_cons] at hx
  rcases hx with hx | rfl | hx
  · exact ⟨x, by simp [hx], Nat.le_refl _⟩
  · exact ⟨r, by simp, hr⟩
  · exact ⟨x, by simp [hx], Nat.le_refl _⟩

/-- The level after a merge, once the parent has lost the left separator. -/
theorem Siblings.merged {t2 t3 : Tree} {w : Node} (h : Siblings geo t P l r Q U p V tl X s1 s2 Y)
    (hext2 : Ext [l.addr, p.addr] t t2) (hwl : t2.mem l.addr = some w)
    (hrep : Rep geo w (l.es ++ r.es)) (htwo : 2 ≤ l.es.length + r.es.length)
    (hsides : ∀ x ∈ P ++ Q, 2 ≤ x.es.length) (hm : m ≤ 2)
    (hrem : (∃ b' rest', Removed geo 2 (level + 1) (without U p X ((s2, l.addr) :: Y) V)
        (addrs ((U ++ p :: V) :: tl)) t2 t3 b' rest') ∨
      Vanished (level + 1) (without U p X ((s2, l.addr) :: Y) V) (addrs ((U ++ p :: V) :: tl))
        t2 t3) :
    ∃ b' rest', Removed geo m level (P ++ l :: r :: Q)
      (addrs ((P ++ l :: r :: Q) :: (U ++ p :: V) :: tl)) t
      { t3 with mem := Function.update t3.mem r.addr none } b' rest' := by
  have hst := h.stack
  obtain ⟨hlr, hlp, hrp⟩ := h.addr_ne
  set A := addrs ((U ++ p :: V) :: tl) with hA
  set t4 : Tree := { t3 with mem := Function.update t3.mem r.addr none } with ht4
  have hext3 : Ext A t2 t3 := by
    rcases hrem with ⟨b', rest', hrem⟩ | hrem
    · exact hrem.ext
    · exact hrem.ext
  have hlA : l.addr ∉ A := hst.bottom_not_mem h.mem.1
  have hrA : r.addr ∉ A := hst.bottom_not_mem h.mem.2.1
  have hpA : p.addr ∈ A := addr_mem_addrs h.mem.2.2.1
  have hext4 : Ext [r.addr] t3 t4 :=
    ⟨Nat.le_refl _, fun a ha _ => Function.update_of_ne (by simpa using ha) _ _, fun _ hf => hf⟩
  have hext : Ext (l.addr :: r.addr :: A) t t4 := by
    refine Ext.trans (Ext.trans (hext2.mono ?_) hext3 fun a ha => Or.inl ?_) hext4 ?_
    · simp [hpA]
    · simp [ha]
    · simp
  have hlive := (hst.bottom_live h.mem.1).2
  have hnext := hext2.next_le
  have hjoined : Holds geo t4 (joined l r) := by
    refine ⟨⟨w, ?_, hrep⟩, h.join_ok⟩
    simp only [ht4, joined, Function.update_of_ne hlr]
    rw [hext3.mem_eq _ hlA (by omega), hwl]
  have hA' : ∀ a ∈ l.addr :: r.addr :: A, a ∈ addrs ((P ++ l :: r :: Q) :: (U ++ p :: V) :: tl) := by
    intro a ha
    rcases List.mem_cons.1 ha with rfl | ha
    · exact addr_mem_addrs h.mem.1
    · rcases List.mem_cons.1 ha with rfl | ha
      · exact addr_mem_addrs h.mem.2.1
      · exact addrs_tail ha
  have hsub : ∀ a ∈ (P ++ joined l r :: Q).map Span.addr,
      a ∈ addrs ((P ++ l :: r :: Q) :: (U ++ p :: V) :: tl) := by
    intro a ha
    rw [addrs_cons]
    refine List.mem_append_left _ ?_
    simp only [joined, List.map_append, List.map_cons, List.mem_append, List.mem_cons] at ha ⊢
    tauto
  have htwo' : ∀ x ∈ P ++ joined l r :: Q, 2 ≤ x.es.length := by
    intro x hx
    rw [List.mem_append, List.mem_cons] at hx
    rcases hx with hx | rfl | hx
    · exact hsides x (by simp [hx])
    · simpa [joined] using htwo
    · exact hsides x (by simp [hx])
  rcases hrem with ⟨u, tl', hrem⟩ | hrem
  · -- the parent level is still there
    have hup : Stack geo t4 (u :: tl') :=
      hrem.stack.frame hext4 (by simpa using fun hc => hrA (hrem.old _ hc)) rfl
    have hM := h.rebuild (M := [joined l r]) hup hrem.old hext
      (by simpa using links_le h.join_links hrem.kids) (by simp [joined]) (by simpa using hjoined)
    refine ⟨P ++ joined l r :: Q, u :: tl', by simpa using hM, h.join_kids, ?_,
      hext.mono hA', ?_, ?_⟩
    · intro a ha
      rw [addrs_cons, List.mem_append] at ha
      rcases ha with ha | ha
      · exact hsub a ha
      · exact addrs_tail (hrem.old a ha)
    · exact hrem.height.trans (by rw [List.length_cons]; omega)
    · intro x hx y hy
      rw [if_neg (by simp)]
      rcases List.mem_cons.1 hx with rfl | hx
      · exact htwo' y hy
      · have := hrem.occ x hx y hy
        rwa [ite_self] at this
  · -- the parent was a root with this one kid left
    have hlinks := h.join_links
    have hone := hrem.one
    have hPQ : P = [] ∧ Q = [] := by
      have := hlinks.length_eq
      simp only [List.length_append, List.length_cons] at this
      exact ⟨List.length_eq_zero_iff.1 (by omega), List.length_eq_zero_iff.1 (by omega)⟩
    obtain ⟨rfl, rfl⟩ := hPQ
    have hnode : t4.node = l.addr := by
      show t3.node = _
      rw [hrem.node]
      obtain ⟨c, _, hl, -, hk⟩ := List.forall₂_cons_right_iff.1 hlinks
      rw [hk]
      exact hl.addr
    refine ⟨[joined l r], [], ⟨⟨_, rfl, by rw [hnode]; rfl⟩, ?_, by simp, ?_⟩, h.join_kids, ?_,
      hext.mono hA', ?_, ?_⟩
    · simpa using hjoined
    · have := hst.bottom_live h.mem.1
      have := hext.next_le
      simp only [addrs_cons, addrs_nil, List.map_cons, List.map_nil, List.append_nil, joined,
        List.mem_singleton, forall_eq]
      omega
    · simpa using hsub
    · have := hrem.height
      simp only [List.length_nil, ht4]
      omega
    · intro x hx y hy
      rw [List.mem_singleton] at hx
      subst hx
      have := htwo' y (by simpa using hy)
      split_ifs <;> omega

/-- `merge` makes one node of two neighbours. -/
theorem merge_spec (ih : Removes geo fuel tl) (h : Siblings geo t P l r Q U p V tl X s1 s2 Y)
    (hfit : l.es.length + r.es.length ≤ geo.noPairs) (htwo : 2 ≤ l.es.length + r.es.length)
    (hsides : ∀ x ∈ P ++ Q, 2 ≤ x.es.length) (hocc : Occ 2 ((U ++ p :: V) :: tl)) (hm : m ≤ 2)
    (hlevel : 1 ≤ level) (hlen : t.height = level + 1 + tl.length) :
    Runs (merge geo (btreeRemoveLevel geo fuel) level l.addr l.es.length r.addr r.es.length p.addr
        X.length)
      (fun _ t' => ∃ b' rest', Removed geo m level (P ++ l :: r :: Q)
        (addrs ((P ++ l :: r :: Q) :: (U ++ p :: V) :: tl)) t t' b' rest') t := by
  have hst := h.stack
  obtain ⟨hlr, hlp, hrp⟩ := h.addr_ne
  obtain ⟨wl, hwl, hlrep⟩ := (hst.bottom_holds l h.mem.1).words
  obtain ⟨wr, hwr, hrrep⟩ := (hst.bottom_holds r h.mem.2.1).words
  obtain ⟨wp, hwp, hprep⟩ := (hst.tail.bottom_holds p h.mem.2.2.1).words
  have hmerge := hlrep.merge hrrep hfit
  rw [h.es] at hprep
  have hset1 := hprep.setval (v := r.addr) (by have := hst.bottom_live h.mem.2.1; omega)
  have hset2 : Rep geo (setval geo (setval geo wp r.addr X.length) l.addr (X.length + 1))
      (exchanged p X s1 s2 l r Y).es := by
    have := Rep.setval (A := X ++ [(s1, r.addr)]) (e := (s2, r.addr)) (B := Y) (v := l.addr)
      (by simpa using hset1) (by have := hst.bottom_live h.mem.1; omega)
    simpa [exchanged] using this
  set wm := mergeNodes geo wl l.es.length wr r.es.length with hwm
  set we := setval geo (setval geo wp r.addr X.length) l.addr (X.length + 1) with hwe
  have hwp1 : Function.update t.mem l.addr (some wm) p.addr = some wp := by
    simpa [Function.update_of_ne hlp.symm] using hwp
  unfold merge
  simp only [Runs, wp_bind, wp_load hwl, wp_load hwr, wp_store hwl, ← hwm]
  rw [wp_load (w := wp) hwp1, wp_store (w := wp) hwp1, ← hwe]
  set t2 : Tree := { t with mem := Function.update (Function.update t.mem l.addr (some wm)) p.addr
                              (some we) } with ht2
  have hext2 : Ext [l.addr, p.addr] t t2 := by
    refine ⟨Nat.le_refl _, fun x hx _ => ?_, fun _ hf => hf⟩
    simp only [List.mem_cons, List.not_mem_nil, or_false, not_or] at hx
    simp [ht2, Function.update_of_ne hx.1, Function.update_of_ne hx.2]
  have hup : Stack geo t2 ((U ++ exchanged p X s1 s2 l r Y :: V) :: tl) := by
    refine hst.tail.change_bottom hext2 rfl ?_ rfl (fun _ hx => hx) ⟨_, by simp [ht2], hset2⟩
      h.exchanged_ok
    simp only [List.mem_cons, List.not_mem_nil, or_false, forall_eq_or_imp, forall_eq, true_or,
      and_true]
    exact Or.inr (hst.bottom_not_mem h.mem.1)
  have hocc2 : Occ 2 ((U ++ exchanged p X s1 s2 l r Y :: V) :: tl) :=
    hocc.replace (by simp [exchanged, h.es])
  refine (ih hup hocc2 (Or.inr ⟨show 2 ≤ level + 1 by omega, rfl⟩)
    (show (exchanged p X s1 s2 l r Y).es = X ++ (s1, r.addr) :: (s2, l.addr) :: Y from rfl) (Or.inr ⟨rfl, by simp⟩) hlen).imp ?_
  rintro ret t3 ⟨-, hrem⟩
  rw [addrs_exchanged] at hrem
  have hr3 : t3.mem r.addr = some wr := by
    have hext3 : Ext (addrs ((U ++ p :: V) :: tl)) t2 t3 := by
      rcases hrem with ⟨b', rest', hrem⟩ | hrem
      · exact hrem.ext
      · exact hrem.ext
    rw [hext3.mem_eq _ (hst.bottom_not_mem h.mem.2.1) (hst.bottom_live h.mem.2.1).2]
    simp [ht2, Function.update_of_ne hrp, Function.update_of_ne hlr.symm, hwr]
  rw [wp_free hr3]
  exact h.merged hext2 (by simp [ht2, Function.update_of_ne hlp]) hmerge htwo hsides hm hrem

end Merge

/-! ## Rebalancing -/

/-- `rebalance` once the left neighbour has turned out too full to merge with, or is missing. -/
def rebalanceRight (geo : Geo) (rem : KeyPtr → Nat → TreeM Nat) (level child fill parent : Nat)
    (wp : Node) (childNo left noLeft : Nat) : TreeM Unit := do
  let hasRight : Bool := childNo + 1 < getfill geo wp childNo
  let right := if hasRight then bval geo wp (childNo + 1) else 0
  let noRight ← if hasRight then (fun w => getfill geo w 0) <$> load right else pure 0
  if hasRight ∧ fill + noRight ≤ geo.noPairs then
    merge geo rem level child fill right noRight parent childNo
  else if fill > 1 then pure ()
  else if left ≠ 0 then
    if (noLeft - fill) / 2 < 1 then throw .bug
    else do
      let wl ← load left
      let wc ← load child
      let r := stealL geo wl noLeft wc fill wp (childNo - 1) ((noLeft - fill) / 2)
      store left r.1
      store child r.2.1
      store parent r.2.2
  else if right ≠ 0 then
    if (noRight - fill) / 2 < 1 then throw .bug
    else do
      let wc ← load child
      let wr ← load right
      let r := stealR geo wc fill wr noRight wp childNo ((noRight - fill) / 2)
      store child r.1
      store right r.2.1
      store parent r.2.2
  else throw .bug

theorem rebalance_eq (geo : Geo) (rem : KeyPtr → Nat → TreeM Nat) (key : KeyPtr)
    (level child fill : Nat) :
    rebalance geo rem key level child fill = (do
      let parent ← findLevel geo key (level + 1)
      let k ← readKey geo key
      let wp ← load parent
      let childNo := getpos geo wp k
      if bval geo wp childNo ≠ child then throw .bug
      else do
        let left := if childNo > 0 then bval geo wp (childNo - 1) else 0
        let noLeft ← if childNo > 0 then (fun w => getfill geo w 0) <$> load left else pure 0
        if childNo > 0 ∧ fill + noLeft ≤ geo.noPairs then
          merge geo rem level left noLeft child fill parent (childNo - 1)
        else rebalanceRight geo rem level child fill parent wp childNo left noLeft) :=
  rfl

section Rebalance

variable {geo : Geo} {t t' : Tree} {P Q U V : Level} {l r p : Span Key} {tl : List Level}
  {X Y : Entries} {s s1 s2 : Key} {level fuel m : Nat}

/-- A level that needs no more work. -/
theorem removed_self {b u : Level} (h : Stack geo t (b :: u :: tl))
    (hb : ∀ x ∈ b, 2 ≤ x.es.length) (hocc : Occ 2 (u :: tl))
    (hlen : t.height = level + 1 + tl.length) :
    Removed geo m level b (addrs (b :: u :: tl)) t t b (u :: tl) := by
  refine ⟨h, KidsLe.refl _, fun _ ha => ha, Ext.refl _ _, ?_, fun x hx y hy => ?_⟩
  · rw [hlen, List.length_cons]
    omega
  · rw [if_neg (by simp)]
    rcases List.mem_cons.1 hx with rfl | hx
    · exact hb y hy
    · have := hocc x hx y hy
      rwa [ite_self] at this

/-- A steal leaves at least two pairs in each node. -/
theorem Stolen.removed {L R : Entries} (h : Stolen geo t t' P l r Q U p V tl L R)
    (hsides : ∀ x ∈ P ++ Q, 2 ≤ x.es.length) (hL : 2 ≤ L.length) (hR : 2 ≤ R.length)
    (hocc : Occ 2 ((U ++ p :: V) :: tl)) (hlen : t.height = level + 1 + tl.length) :
    ∃ b' rest', Removed geo m level (P ++ l :: r :: Q)
      (addrs ((P ++ l :: r :: Q) :: (U ++ p :: V) :: tl)) t t' b' rest' := by
  obtain ⟨l', r', p', hl, hlL, hr, hrR, hp, hplen, hst', hkids⟩ := h.spans
  have haddrs : addrs ((P ++ l' :: r' :: Q) :: (U ++ p' :: V) :: tl) =
      addrs ((P ++ l :: r :: Q) :: (U ++ p :: V) :: tl) := by
    simp [hl, hr, hp]
  refine ⟨P ++ l' :: r' :: Q, (U ++ p' :: V) :: tl, hst', hkids, fun a ha => haddrs ▸ ha,
    h.ext.mono fun a ha => ?_, ?_, fun x hx y hy => ?_⟩
  · simp only [List.mem_cons, List.not_mem_nil, or_false] at ha
    rcases ha with rfl | rfl | rfl <;> simp
  · rw [h.head.height, hlen, List.length_cons]
    omega
  · rw [if_neg (by simp)]
    rcases List.mem_cons.1 hx with rfl | hx
    · simp only [List.mem_append, List.mem_cons] at hy
      rcases hy with hy | rfl | rfl | hy
      · exact hsides y (by simp [hy])
      · rw [hlL]; exact hL
      · rw [hrR]; exact hR
      · exact hsides y (by simp [hy])
    · have := (hocc.replace (le_of_eq hplen.symm)) x hx y hy
      rwa [ite_self] at this

/-- Stealing from a full left neighbour. -/
theorem stealL_spec (hgeo : geo.Ok) (h : Siblings geo t P l r Q U p V tl X s1 s2 Y) {wp : Node}
    (hwp : t.mem p.addr = some wp) (hl : l.es.length = geo.noPairs) (hr : r.es.length = 1)
    (hsides : ∀ x ∈ P ++ Q, 2 ≤ x.es.length) (hocc : Occ 2 ((U ++ p :: V) :: tl))
    (hlen : t.height = level + 1 + tl.length) :
    Runs (if (l.es.length - r.es.length) / 2 < 1 then throw .bug
      else do
        let wl ← load l.addr
        let wc ← load r.addr
        let ws := stealL geo wl l.es.length wc r.es.length wp X.length
          ((l.es.length - r.es.length) / 2)
        store l.addr ws.1
        store r.addr ws.2.1
        store p.addr ws.2.2)
      (fun _ t' => ∃ b' rest', Removed geo m level (P ++ l :: r :: Q)
        (addrs ((P ++ l :: r :: Q) :: (U ++ p :: V) :: tl)) t t' b' rest') t := by
  have hfour := hgeo.four_le
  obtain ⟨wl, hwl, -⟩ := (h.stack.bottom_holds l h.mem.1).words
  obtain ⟨wr, hwr, -⟩ := (h.stack.bottom_holds r h.mem.2.1).words
  rw [if_neg (by omega), Runs, wp_bind, wp_load hwl, wp_bind, wp_load hwr]
  refine (h.write _).imp fun _ t' hw => ?_
  have hst := h.stealL_moves hwl hwr hwp (by omega) (by omega) hw
  refine hst.stolen.removed hsides ?_ ?_ hocc hlen
  · rw [List.length_take]
    omega
  · rw [List.length_append, List.length_drop]
    omega

/-- Stealing from a full right neighbour. -/
theorem stealR_spec (hgeo : geo.Ok) (h : Siblings geo t P l r Q U p V tl X s1 s2 Y) {wp : Node}
    (hwp : t.mem p.addr = some wp) (hl : l.es.length = 1) (hr : r.es.length = geo.noPairs)
    (hsides : ∀ x ∈ P ++ Q, 2 ≤ x.es.length) (hocc : Occ 2 ((U ++ p :: V) :: tl))
    (hlen : t.height = level + 1 + tl.length) :
    Runs (if (r.es.length - l.es.length) / 2 < 1 then throw .bug
      else do
        let wc ← load l.addr
        let wr ← load r.addr
        let ws := stealR geo wc l.es.length wr r.es.length wp X.length
          ((r.es.length - l.es.length) / 2)
        store l.addr ws.1
        store r.addr ws.2.1
        store p.addr ws.2.2)
      (fun _ t' => ∃ b' rest', Removed geo m level (P ++ l :: r :: Q)
        (addrs ((P ++ l :: r :: Q) :: (U ++ p :: V) :: tl)) t t' b' rest') t := by
  have hfour := hgeo.four_le
  obtain ⟨wl, hwl, -⟩ := (h.stack.bottom_holds l h.mem.1).words
  obtain ⟨wr, hwr, -⟩ := (h.stack.bottom_holds r h.mem.2.1).words
  rw [if_neg (by omega), Runs, wp_bind, wp_load hwl, wp_bind, wp_load hwr]
  refine (h.write _).imp fun _ t' hw => ?_
  have hst := h.stealR_moves hwl hwr hwp (by omega) (by omega) (by omega) hw
  refine hst.stolen.removed hsides ?_ ?_ hocc hlen
  · rw [List.length_append, List.length_take]
    omega
  · rw [List.length_drop]
    omega

/-- A node that kept more than one pair is left alone, one that did not steals from its left
neighbour. -/
theorem leave_or_stealL (hgeo : geo.Ok) (h : Siblings geo t P l r Q U p V tl X s1 s2 Y)
    (other : TreeM Unit) {wp : Node} (hwp : t.mem p.addr = some wp) (hone : 1 ≤ r.es.length)
    (hfull : geo.noPairs < r.es.length + l.es.length) (hl : 2 ≤ l.es.length)
    (hsides : ∀ x ∈ P ++ Q, 2 ≤ x.es.length) (hocc : Occ 2 ((U ++ p :: V) :: tl))
    (hlen : t.height = level + 1 + tl.length) :
    Runs (if r.es.length > 1 then pure ()
      else if l.addr ≠ 0 then
        if (l.es.length - r.es.length) / 2 < 1 then throw .bug
        else do
          let wl ← load l.addr
          let wc ← load r.addr
          let ws := stealL geo wl l.es.length wc r.es.length wp X.length
            ((l.es.length - r.es.length) / 2)
          store l.addr ws.1
          store r.addr ws.2.1
          store p.addr ws.2.2
      else other)
      (fun _ t' => ∃ b' rest', Removed geo m level (P ++ l :: r :: Q)
        (addrs ((P ++ l :: r :: Q) :: (U ++ p :: V) :: tl)) t t' b' rest') t := by
  have hst := h.stack
  have hlive := hst.bottom_live h.mem.1
  obtain ⟨wl, hwl, hlrep⟩ := (hst.bottom_holds l h.mem.1).words
  have hle := hlrep.length_le
  by_cases hbig : r.es.length > 1
  · rw [if_pos hbig, Runs, wp_pure]
    refine ⟨_, _, removed_self hst (fun x hx => ?_) hocc hlen⟩
    simp only [List.mem_append, List.mem_cons] at hx
    rcases hx with hx | rfl | rfl | hx
    · exact hsides x (by simp [hx])
    · exact hl
    · exact hbig
    · exact hsides x (by simp [hx])
  · rw [if_neg hbig, if_pos (by omega)]
    exact stealL_spec hgeo h hwp (by omega) (by omega) hsides hocc hlen

/-- `rebalance` after the test for a merge to the left. -/
theorem rebalanceRight_spec (hgeo : geo.Ok) (ih : Removes geo fuel tl)
    (h : Stack geo t ((P ++ r :: Q) :: (U ++ p :: V) :: tl)) {wp : Node} {left noLeft : Nat}
    (hwp : t.mem p.addr = some wp) (hes : p.es = X ++ (s, r.addr) :: Y) (hone : 1 ≤ r.es.length)
    (hsides : ∀ x ∈ P ++ Q, 2 ≤ x.es.length) (hocc : Occ 2 ((U ++ p :: V) :: tl)) (hm : m ≤ 2)
    (hlevel : 1 ≤ level) (hlen : t.height = level + 1 + tl.length)
    (hleft : left = 0 ∧ X = [] ∨ ∃ X0 s0 P0 l, X = X0 ++ [(s0, l.addr)] ∧ P = P0 ++ [l] ∧
      left = l.addr ∧ noLeft = l.es.length ∧ geo.noPairs < r.es.length + l.es.length) :
    Runs (rebalanceRight geo (btreeRemoveLevel geo fuel) level r.addr r.es.length p.addr wp
        X.length left noLeft)
      (fun _ t' => ∃ b' rest', Removed geo m level (P ++ r :: Q)
        (addrs ((P ++ r :: Q) :: (U ++ p :: V) :: tl)) t t' b' rest') t := by
  have hprep := (h.tail.bottom_holds p (by simp)).rep hwp
  have hfill : getfill geo wp X.length = X.length + Y.length + 1 := by
    rw [hprep.getfill (by rw [hes]; simp), hes, List.length_append, List.length_cons]
    omega
  have hptwo : 2 ≤ p.es.length := by
    have := hocc _ List.mem_cons_self p (by simp)
    rwa [ite_self] at this
  -- when the node has a left neighbour and cannot be merged with one on the right
  have hstay : ∀ (other : TreeM Unit) {X0 : Entries} {s0 : Key} {P0 : Level} {l : Span Key},
      X = X0 ++ [(s0, l.addr)] → P = P0 ++ [l] → geo.noPairs < r.es.length + l.es.length →
      Runs (if r.es.length > 1 then pure ()
        else if l.addr ≠ 0 then
          if (l.es.length - r.es.length) / 2 < 1 then throw .bug
          else do
            let wl ← load l.addr
            let wc ← load r.addr
            let ws := stealL geo wl l.es.length wc r.es.length wp (X.length - 1)
              ((l.es.length - r.es.length) / 2)
            store l.addr ws.1
            store r.addr ws.2.1
            store p.addr ws.2.2
        else other)
        (fun _ t' => ∃ b' rest', Removed geo m level (P ++ r :: Q)
          (addrs ((P ++ r :: Q) :: (U ++ p :: V) :: tl)) t t' b' rest') t := by
    intro other X0 s0 P0 l hX hP hfull
    subst hX hP
    obtain ⟨P1, l1, hP1, -, hs⟩ := h.siblings_left
      (show p.es = X0 ++ (s0, l.addr) :: (s, r.addr) :: Y by rw [hes]; simp)
    obtain ⟨rfl, hl1⟩ := List.append_inj' hP1 rfl
    obtain rfl : l = l1 := by simpa using hl1
    have hrun := leave_or_stealL hgeo hs (m := m) other hwp hone hfull (hsides l (by simp))
      (fun x hx => hsides x (by simp only [List.mem_append] at hx ⊢; tauto)) hocc hlen
    simpa using hrun
  unfold rebalanceRight
  rw [hfill]
  cases Y with
  | nil =>
    rcases hleft with ⟨rfl, rfl⟩ | ⟨X0, s0, P0, l, hX, hP, rfl, rfl, hfull⟩
    · simp [hes] at hptwo
    · simpa using hstay (throw .bug) hX hP hfull
  | cons e Y =>
    obtain ⟨q, Q', rfl, hq, hs⟩ := h.siblings_right
      (show p.es = X ++ (s, r.addr) :: (e.1, e.2) :: Y from hes)
    have hval : bval geo wp (X.length + 1) = q.addr := by
      rw [hq]
      have hval := (show Rep geo wp ((X ++ [(s, r.addr)]) ++ e :: Y) by
        rw [List.append_assoc, List.singleton_append, ← hes]
        exact hprep).bval_append
      simpa using hval
    have hqlive := h.bottom_live (r := q) (by simp)
    obtain ⟨wq, hwq, hqrep⟩ := (h.bottom_holds q (by simp)).words
    have hq2 : 2 ≤ q.es.length := hsides q (by simp)
    have hsides' : ∀ x ∈ P ++ Q', 2 ≤ x.es.length := fun x hx =>
      hsides x (by simp only [List.mem_append, List.mem_cons] at hx ⊢; tauto)
    simp only [List.length_cons, show X.length + 1 < X.length + (Y.length + 1) + 1 by omega,
      decide_true, if_true, true_and, hval, Runs, wp_bind, wp_map, wp_load hwq,
      hqrep.getfill (Nat.zero_le _)]
    by_cases hfit : r.es.length + q.es.length ≤ geo.noPairs
    · rw [if_pos hfit]
      exact merge_spec ih hs hfit (by omega) hsides' hocc hm hlevel hlen
    · rw [if_neg hfit]
      rcases hleft with ⟨rfl, rfl⟩ | ⟨X0, s0, P0, l, hX, hP, rfl, rfl, hfull⟩
      · -- no left neighbour: a node with one pair steals from the right
        simp only [ne_eq, not_true_eq_false, if_false]
        by_cases hbig : r.es.length > 1
        · rw [if_pos hbig, wp_pure]
          refine ⟨_, _, removed_self h (fun x hx => ?_) hocc hlen⟩
          rw [List.mem_append, List.mem_cons] at hx
          rcases hx with hx | rfl | hx
          · exact hsides x (by simp [hx])
          · exact hbig
          · exact hsides x (List.mem_append_right _ hx)
        · have hle := hqrep.length_le
          rw [if_neg hbig, if_pos (by omega)]
          exact stealR_spec hgeo hs hwp (by omega) (by omega) hsides' hocc hlen
      · exact hstay _ hX hP hfull

theorem Removed.of_found {t1 : Tree} {a : Nat} {k : Key} {b c u u1 b' : Level}
    {tl1 rest' : List Level}
    (h : Removed geo m level c (addrs (b :: u1 :: tl1)) t1 t' b' rest')
    (hf : Found geo t k u tl a t1 u1 tl1) :
    Removed geo m level c (addrs (b :: u :: tl)) t t' b' rest' where
  stack := h.stack
  kids := h.kids
  old a ha := by
    rw [addrs_cons, hf.addrs_eq, ← addrs_cons]
    exact h.old a ha
  ext := by
    have := h.ext
    rw [addrs_cons, ← hf.addrs_eq, ← addrs_cons] at this
    exact (hf.ext.mono fun a ha => addrs_tail (addrs_tail ha)).trans this fun a ha => Or.inl ha
  height := h.height
  occ := h.occ

/-- `rebalance` repairs a level in which one node has become less than half full. -/
theorem rebalance_spec {u : Level} {key : KeyPtr} {k : Key} (hgeo : geo.Ok)
    (ih : ∀ tl' : List Level, tl'.length = tl.length → Removes geo fuel tl')
    (h : Stack geo t ((P ++ r :: Q) :: u :: tl)) (hone : 1 ≤ r.es.length)
    (hsides : ∀ x ∈ P ++ Q, 2 ≤ x.es.length) (hocc : Occ 2 (u :: tl)) (hm : m ≤ 2)
    (hlevel : 1 ≤ level) (hkey : KeyAt geo t key k) (hav : key.Avoids (addrs tl))
    (hk : k.length = geo.keylen) (hr : r.rng k) (hlen : t.height = level + 1 + tl.length) :
    Runs (rebalance geo (btreeRemoveLevel geo fuel) key level r.addr r.es.length)
      (fun _ t' => ∃ b' rest', Removed geo m level (P ++ r :: Q)
        (addrs ((P ++ r :: Q) :: u :: tl)) t t' b' rest') t := by
  rw [rebalance_eq]
  refine (findLevel_spec hk h.tail hocc.nonempty_tail hkey hav hlen).bind ?_
  rintro a t1 ⟨u1, tl1, hf⟩
  obtain ⟨U, p, V, rfl, rfl, hp⟩ := hf.here
  have hocc1 := hocc.of_shape (spans_le_sameShape hf.bottom) hf.shape
  have hst1 := hf.under h
  obtain ⟨X, s, Y, hes, hX, hB⟩ := hst1.parent hr hp
  obtain ⟨wp, hwp, hprep⟩ := (hst1.tail.bottom_holds p (by simp)).words
  have hkey1 := hkey.ext hf.ext hav
  have hpos : getpos geo wp k = X.length :=
    (hes ▸ hprep).getpos hk hX fun e he => hB e (List.mem_of_mem_head? he)
  have hval : bval geo wp X.length = r.addr := (hes ▸ hprep).bval_append
  have hlen1 : t1.height = level + 1 + tl1.length := by
    rw [hf.head.height, hlen, hf.shape.length_eq]
  have ih1 := ih tl1 hf.shape.length_eq.symm
  suffices hrun : Runs _ (fun _ t' => ∃ b' rest', Removed geo m level (P ++ r :: Q)
      (addrs ((P ++ r :: Q) :: (U ++ p :: V) :: tl1)) t1 t' b' rest') t1 from
    hrun.imp fun _ t' ⟨b', rest', hrem⟩ => ⟨b', rest', hrem.of_found hf⟩
  simp only [Runs, wp_bind, wp_readKey hkey1, wp_load hwp, hpos, hval, ne_eq, not_true_eq_false,
    if_false]
  rcases List.eq_nil_or_concat X with rfl | ⟨X0, e0, rfl⟩
  · simp only [List.length_nil, gt_iff_lt, Nat.lt_irrefl, if_false, false_and]
    exact rebalanceRight_spec (X := []) hgeo ih1 hst1 hwp hes hone hsides hocc1 hm hlevel hlen1
      (Or.inl ⟨rfl, rfl⟩)
  · rw [List.concat_eq_append] at *
    obtain ⟨P0, l, rfl, hl, hs⟩ := hst1.siblings_left
      (show p.es = X0 ++ (e0.1, e0.2) :: (s, r.addr) :: Y by rw [hes]; simp)
    have hleft : bval geo wp ((X0 ++ [e0]).length - 1) = l.addr := by
      rw [hl, show (X0 ++ [e0]).length - 1 = X0.length by simp]
      refine Rep.bval_append (B := (s, r.addr) :: Y) ?_
      rw [hes] at hprep
      simpa using hprep
    obtain ⟨wl, hwl, hlrep⟩ := (hst1.bottom_holds l (by simp)).words
    have hpos0 : (X0 ++ [e0]).length > 0 := by simp
    simp only [hpos0, if_true, hleft, wp_bind, wp_map, wp_load hwl,
      hlrep.getfill (Nat.zero_le _), true_and]
    by_cases hfit : r.es.length + l.es.length ≤ geo.noPairs
    · rw [if_pos hfit, show (X0 ++ [e0]).length - 1 = X0.length by simp]
      have htwo := hsides l (by simp)
      have hrun := merge_spec ih1 hs (by omega) (by omega)
        (fun x hx => hsides x (by simp only [List.mem_append] at hx ⊢; tauto)) hocc1 hm hlevel hlen1
      simpa using hrun
    · rw [if_neg hfit]
      refine rebalanceRight_spec hgeo ih1 hst1 hwp hes hone hsides hocc1 hm hlevel hlen1
        (Or.inr ⟨X0, e0.1, P0, l, by rw [hl], rfl, rfl, rfl, by omega⟩)

end Rebalance

/-! ## The removal at a level -/

section Level

variable {geo : Geo} {t t' : Tree} {P Q b : Level} {r : Span Key} {rest : List Level}
  {E1 E2 : Entries} {k : Key} {v level fuel m : Nat} {key : KeyPtr}

/-- What follows the removal of a pair from a node, which has `fill` pairs left. -/
def repair (geo : Geo) (fuel : Nat) (key : KeyPtr) (level height node fill : Nat) : TreeM Unit :=
  if fill < geo.noPairs / 2 then
    if level < height then rebalance geo (btreeRemoveLevel geo fuel) key level node fill
    else btreeShrink geo fill
  else pure ()

/-- `btree_remove_level` from the node it has found. -/
def removeBody (geo : Geo) (fuel : Nat) (key : KeyPtr) (level height node : Nat) : TreeM Nat := do
  let k ← readKey geo key
  let w ← load node
  let pos := getpos geo w k
  let fill := getfill geo w pos
  if level = 1 ∧ keycmp geo w pos k ≠ 0 then pure 0
  else if fill = 0 then throw .fault
  else do
    store node (clearpair geo (shiftRemove geo w pos fill) (fill - 1))
    repair geo fuel key level height node (fill - 1)
    pure (bval geo w pos)

theorem removeLevel_body {R : Nat → Tree → Prop} (hl : level ≤ t.height) :
    Runs (btreeRemoveLevel geo (fuel + 1) key level) R t ↔
      Runs (findLevel geo key level >>= removeBody geo fuel key level t.height) R t := by
  have hbody : removeBody geo fuel key level t.height = fun node => (do
      let k ← readKey geo key
      let w ← load node
      let pos := getpos geo w k
      let fill := getfill geo w pos
      if level = 1 ∧ keycmp geo w pos k ≠ 0 then pure 0
      else if fill = 0 then throw .fault
      else do
        store node (clearpair geo (shiftRemove geo w pos fill) (fill - 1))
        if fill - 1 < geo.noPairs / 2 then
          if level < t.height then
            rebalance geo (btreeRemoveLevel geo fuel) key level node (fill - 1)
          else btreeShrink geo (fill - 1)
        else pure ()
        pure (bval geo w pos)) := by
    funext node
    unfold removeBody repair
    congr 1; funext k
    congr 1; funext w
    dsimp only
    split_ifs <;> rfl
  rw [btreeRemoveLevel, Runs, wp_bind, wp_get, if_neg (by omega), hbody]

/-- The key pointer still points to a key of the node after the pair is gone. -/
theorem key_after {mem : Nat → Option Node} {w : Node} (hkey : key = .ext k ∨ key = .slot r.addr E1.length ∧ E2 ≠ [])
    (hr : r.rng k) (hk : k.length = geo.keylen) (hok : Span.Ok ⟨r.addr, r.rng, E1 ++ E2⟩)
    (hw : mem r.addr = some w) (hrep : Rep geo w (E1 ++ E2)) (hlive : r.addr < t.next) :
    ∃ k', KeyAt geo { t with mem := mem } key k' ∧ r.rng k' ∧ k'.length = geo.keylen := by
  rcases hkey with rfl | ⟨rfl, hne⟩
  · exact ⟨k, rfl, hr, hk⟩
  · obtain ⟨e, E, rfl⟩ := List.exists_cons_of_ne_nil hne
    exact ⟨e.1, ⟨hlive, w, hw, hrep.bkey_append⟩, hok.inRng e (by simp),
      (hrep.entry e (by simp)).1⟩

/-- `btree_shrink` at the root. -/
theorem btreeShrink_spec {w : Node} (hgeo : geo.Ok) (h : Stack geo t [[r]])
    (hw : t.mem r.addr = some w) (hm : level = 1 ∧ m = 1 ∨ 2 ≤ level ∧ m = 2)
    (hr : m ≤ r.es.length + 1) (hlen : t.height = level) :
    Runs (btreeShrink geo r.es.length) (fun _ t' =>
      (∃ b' rest', Removed geo m level [r] [r.addr] t t' b' rest') ∨
        Vanished level [r] [r.addr] t t') t := by
  have hrep := (h.bottom_holds r (by simp)).rep hw
  have hfour := hgeo.four_le
  obtain ⟨-, -, hroot⟩ := Stack.root_alone (P := []) (Q := []) h
  unfold btreeShrink
  rw [Runs, wp_bind, wp_get]
  by_cases hc : r.es.length = 0 ∨ r.es.length = 1 ∧ t.height > 1
  · rw [if_pos hc, hroot, wp_bind, wp_load hw, wp_bind, wp_modify]
    refine (wp_free (w := w) (by exact hw)).2 ?_
    refine Or.inr ⟨by simp; omega, fun hl => ?_, ?_, ?_, Nat.le_refl _, fun a ha _ => ?_, fun _ hf => hf⟩
    · rw [kids_cons, kids_nil, List.append_nil, kidsOf_length]
      omega
    · simp only [kids_cons, kids_nil, List.append_nil]
      rcases hes : r.es with _ | ⟨e, E⟩
      · simpa using hrep.bval_unused (i := 0) (by simp [hes]) (by omega)
      · rw [hes] at hrep
        simpa using Rep.bval_append (A := []) hrep
    · show t.height - 1 + 1 = level
      omega
    · exact Function.update_of_ne (by simpa using ha) _ _
  · rw [if_neg hc, wp_pure]
    refine Or.inl ⟨[r], [], h, KidsLe.refl _, by simp, Ext.refl _ _, by simpa using hlen, ?_⟩
    intro x hx y hy
    rw [List.mem_singleton] at hx
    subst hx
    rw [List.mem_singleton] at hy
    subst hy
    rw [if_pos (by simp)]
    rcases hm with ⟨rfl, rfl⟩ | ⟨hl, rfl⟩ <;> omega

/-- The level is repaired after the node `r` has lost one of its pairs. -/
theorem repair_spec {r0 : Span Key} {k' : Key} (hgeo : geo.Ok)
    (ih : ∀ u tl, rest = u :: tl → ∀ tl' : List Level, tl'.length = tl.length →
      Removes geo fuel tl')
    (h : Stack geo t ((P ++ r :: Q) :: rest)) (hocc : Occ m ((P ++ r0 :: Q) :: rest))
    (hone : r0.es.length ≤ r.es.length + 1) (hm : level = 1 ∧ m = 1 ∨ 2 ≤ level ∧ m = 2)
    (hkey : KeyAt geo t key k') (hr : r.rng k') (hk : k'.length = geo.keylen)
    (hav : key.Avoids (addrs rest)) (hlen : t.height = level + rest.length) :
    Runs (repair geo fuel key level t.height r.addr r.es.length) (fun _ t' =>
      (∃ b' rest', Removed geo m level (P ++ r :: Q) (addrs ((P ++ r :: Q) :: rest))
        t t' b' rest') ∨
        Vanished level (P ++ r :: Q) (addrs ((P ++ r :: Q) :: rest)) t t') t := by
  have hfour := hgeo.four_le
  have hm12 : 1 ≤ level ∧ m ≤ 2 := by
    rcases hm with ⟨rfl, rfl⟩ | ⟨hl, rfl⟩ <;> omega
  have hlenr := hocc _ List.mem_cons_self r0 (by simp)
  rw [List.length_cons] at hlenr
  have hsides : ∀ x ∈ P ++ Q, (if rest.length + 1 = 1 then m else 2) ≤ x.es.length := by
    intro x hx
    exact hocc _ List.mem_cons_self x
      (by simp only [List.mem_append, List.mem_cons] at hx ⊢; tauto)
  unfold repair
  by_cases hhalf : r.es.length < geo.noPairs / 2
  · rw [if_pos hhalf]
    cases rest with
    | nil =>
      -- the root may give way to its only kid
      obtain ⟨rfl, rfl, -⟩ := h.root_alone
      obtain ⟨w, hw, -⟩ := (h.bottom_holds r (by simp)).words
      rw [if_neg (show ¬ level < t.height by rw [hlen]; simp)]
      rw [List.length_nil, if_pos rfl] at hlenr
      refine (btreeShrink_spec hgeo h hw hm (by omega) hlen).imp ?_
      intro _ t' hd
      simpa using hd
    | cons u tl =>
      rw [List.length_cons, if_neg (by omega)] at hlenr hsides
      have hocc2 : Occ 2 (u :: tl) := by
        intro l hl x hx
        have := hocc l (List.mem_cons_of_mem _ hl) x hx
        simpa using this
      rw [if_pos (show level < t.height by rw [hlen]; simp)]
      refine (rebalance_spec (m := m) hgeo (ih u tl rfl) h (by omega) hsides hocc2 hm12.2 hm12.1
        hkey (hav.mono fun a ha => addrs_tail ha) hk hr ?_).imp fun _ t' hd => Or.inl hd
      rw [hlen, List.length_cons]
      omega
  · rw [if_neg hhalf, Runs, wp_pure]
    refine Or.inl ⟨_, _, h, KidsLe.refl _, fun _ ha => ha, Ext.refl _ _, hlen, ?_⟩
    intro l hl x hx
    rcases List.mem_cons.1 hl with rfl | hl
    · rw [List.mem_append, List.mem_cons] at hx
      rcases hx with hx | rfl | hx
      · exact hsides x (by simp [hx])
      · rw [List.length_cons]
        split_ifs <;> omega
      · exact hsides x (by simp [hx])
    · exact hocc l (List.mem_cons_of_mem _ hl) x hx

/-- What a repair does, seen from before the pair was removed. -/
theorem repaired_of_store {w' : Node}
    (hd : (∃ b' rest', Removed geo m level (without P r E1 E2 Q)
        (addrs ((without P r E1 E2 Q) :: rest))
        { t with mem := Function.update t.mem r.addr (some w') } t' b' rest') ∨
      Vanished level (without P r E1 E2 Q) (addrs ((without P r E1 E2 Q) :: rest))
        { t with mem := Function.update t.mem r.addr (some w') } t') :
    (∃ b' rest', Removed geo m level (without P r E1 E2 Q) (addrs ((P ++ r :: Q) :: rest))
      t t' b' rest') ∨
      Vanished level (without P r E1 E2 Q) (addrs ((P ++ r :: Q) :: rest)) t t' := by
  have haddrs : addrs ((without P r E1 E2 Q) :: rest) = addrs ((P ++ r :: Q) :: rest) := by
    simp [without]
  have hext : Ext (addrs ((P ++ r :: Q) :: rest)) t
      { t with mem := Function.update t.mem r.addr (some w') } :=
    (Ext.store _ _ _).mono fun a ha => by
      rw [List.mem_singleton] at ha
      exact ha ▸ addr_mem_addrs (by simp)
  rw [haddrs] at hd
  rcases hd with ⟨b', rest', hd⟩ | hd
  · exact Or.inl ⟨b', rest', hd.stack, hd.kids, hd.old, hext.trans hd.ext fun a ha => Or.inl ha,
      hd.height, hd.occ⟩
  · exact Or.inr ⟨hd.one, hd.leaf, hd.node, hd.height, hext.trans hd.ext fun a ha => Or.inl ha⟩

theorem without_ok (hok : r.Ok) (hes : r.es = E1 ++ (k, v) :: E2) :
    Span.Ok ⟨r.addr, r.rng, E1 ++ E2⟩ := by
  have hs := hok.sorted
  rw [hes] at hs
  refine ⟨hs.sublist ((List.Sublist.refl E1).append (List.sublist_cons_self _ _)),
    fun e he => hok.inRng e ?_⟩
  rw [hes]
  simp only [List.mem_append, List.mem_cons] at he ⊢
  tauto

/-- From the node it has found, `btree_remove_level` removes the pair and repairs the level. -/
theorem removeBody_spec (hgeo : geo.Ok)
    (ih : ∀ u tl, rest = u :: tl → ∀ tl' : List Level, tl'.length = tl.length →
      Removes geo fuel tl')
    (h : Stack geo t ((P ++ r :: Q) :: rest)) (hocc : Occ m ((P ++ r :: Q) :: rest))
    (hm : level = 1 ∧ m = 1 ∨ 2 ≤ level ∧ m = 2) (hes : r.es = E1 ++ (k, v) :: E2) (hr : r.rng k)
    (hptr : key = .ext k ∨ key = .slot r.addr E1.length ∧ E2 ≠ []) (hkey : KeyAt geo t key k)
    (hlen : t.height = level + rest.length) :
    Runs (removeBody geo fuel key level t.height r.addr) (fun ret t' => ret = v ∧
      ((∃ b' rest', Removed geo m level (without P r E1 E2 Q) (addrs ((P ++ r :: Q) :: rest))
        t t' b' rest') ∨
        Vanished level (without P r E1 E2 Q) (addrs ((P ++ r :: Q) :: rest)) t t')) t := by
  have hrmem : r ∈ P ++ r :: Q := by simp
  obtain ⟨w, hw, hrep⟩ := (h.bottom_holds r hrmem).words
  have hok := (h.bottom_holds r hrmem).ok
  have hsorted := hok.sorted
  rw [hes] at hrep hsorted
  have hk : k.length = geo.keylen := (hrep.entry (k, v) (by simp)).1
  have hpos : getpos geo w k = E1.length :=
    hrep.getpos hk (fun e he => (List.pairwise_append.1 hsorted).2.2 e he (k, v) (by simp))
      (by simp)
  have hfill := hrep.getfill (show E1.length ≤ _ by simp)
  have hcmp : keycmp geo w E1.length k = 0 := by
    rw [keycmp, longcmp_eq_zero (by simp [hk]), hrep.bkey_append]
  have hval : bval geo w E1.length = v := hrep.bval_append
  have hgone := hrep.remove
  have hok' := without_ok hok hes
  have hst1 := h.store_bottom (show (⟨r.addr, r.rng, E1 ++ E2⟩ : Span Key).addr = r.addr from rfl) (fun _ hx => hx) hgone hok'
  set n' := (E1 ++ (k, v) :: E2).length - 1 with hn'
  have hn : (E1 ++ E2).length = n' := by simp [hn']
  set w' := clearpair geo (shiftRemove geo w E1.length (E1 ++ (k, v) :: E2).length) n' with hw'
  obtain ⟨k', hkey', hr', hk'⟩ :=
    key_after hptr hr hk hok' (Function.update_self r.addr (some w') t.mem) hgone
      (h.bottom_live hrmem).2
  have hav : key.Avoids (addrs rest) := by
    rcases hptr with rfl | ⟨rfl, -⟩
    · trivial
    · exact h.bottom_not_mem hrmem
  unfold removeBody
  simp only [Runs, wp_bind, wp_readKey hkey, wp_load hw, hpos, hfill, hcmp, ne_eq, not_true_eq_false,
    and_false, if_false, hval]
  rw [if_neg (by simp), wp_bind, wp_store hw, ← hn', ← hw', wp_bind, ← hn]
  refine (repair_spec hgeo ih hst1 hocc ?_ hm hkey' hr' hk' hav hlen).imp ?_
  · rw [hes, hn]
    simp only [hn']
    omega
  · intro _ t' hd
    exact ⟨rfl, repaired_of_store hd⟩

/-- One level of the removal, given the level above. -/
theorem removes_step (hgeo : geo.Ok) (hfuel : 1 ≤ fuel)
    (ih : ∀ rest1 : List Level, rest1.length = rest.length → ∀ u tl, rest1 = u :: tl →
      ∀ tl' : List Level, tl'.length = tl.length → Removes geo (fuel - 1) tl') :
    Removes geo fuel rest := by
  intro P Q r E1 E2 k v m level t key h hocc hm hes hptr hlen
  obtain ⟨f, rfl⟩ : ∃ f, fuel = f + 1 := ⟨fuel - 1, by omega⟩
  have hrmem : r ∈ P ++ r :: Q := by simp
  obtain ⟨w, hw, hrep⟩ := (h.bottom_holds r hrmem).words
  have hr : r.rng k := (h.bottom_holds r hrmem).ok.inRng (k, v) (by simp [hes])
  rw [hes] at hrep
  have hk : k.length = geo.keylen := (hrep.entry (k, v) (by simp)).1
  have hkey : KeyAt geo t key k := by
    rcases hptr with rfl | ⟨rfl, -⟩
    · rfl
    · exact ⟨(h.bottom_live hrmem).2, w, hw, hrep.bkey_append⟩
  have hav : key.Avoids (addrs rest) := by
    rcases hptr with rfl | ⟨rfl, -⟩
    · trivial
    · exact h.bottom_not_mem hrmem
  rw [removeLevel_body (by omega)]
  refine (findLevel_spec hk h hocc.nonempty_tail hkey hav hlen).bind ?_
  rintro a t1 ⟨b1, rest1, hf⟩
  obtain ⟨P1, r1, Q1, hb1, rfl, hr1⟩ := hf.here
  -- the node found is the one that holds the pair
  obtain ⟨P2, r2, Q2, hb2, hP, hle, hQ⟩ := forall₂_split_cons hf.bottom
  obtain ⟨rfl, rfl, rfl⟩ := hf.stack.apart.unique hb1 hb2 hr1 (hle.rng k hr)
  subst hb1
  have hocc1 := hocc.of_shape (spans_le_sameShape hf.bottom) hf.shape
  have hlen1 : t1.height = level + rest1.length := by
    rw [hf.head.height, hlen, hf.shape.length_eq]
  have hpair : KidsLe (kids (without P r E1 E2 Q)) (kids (without P1 r1 E1 E2 Q1)) := by
    simp only [without]
    exact spans_le_kids (forall₂_append hP (List.Forall₂.cons ⟨hle.addr, rfl, hle.rng⟩ hQ))
  rw [← hf.head.height]
  refine (removeBody_spec hgeo (ih rest1 hf.shape.length_eq.symm) hf.stack hocc1 hm
    (hle.es ▸ hes) hr1 (hle.addr ▸ hptr) (hkey.ext hf.ext hav) hlen1).imp ?_
  rintro ret t' ⟨rfl, hd⟩
  rw [← hf.addrs_eq] at hd
  have hext : Ext (addrs ((P ++ r :: Q) :: rest)) t t1 := hf.ext.mono fun a ha => addrs_tail ha
  refine ⟨rfl, ?_⟩
  rcases hd with ⟨b', rest', hd⟩ | hd
  · exact Or.inl ⟨b', rest', hd.stack, hpair.trans hd.kids, hd.old,
      hext.trans hd.ext fun a ha => Or.inl ha, hd.height, hd.occ⟩
  · refine Or.inr ⟨?_, ?_, ?_, hd.height, hext.trans hd.ext fun a ha => Or.inl ha⟩
    · rw [hpair.length_eq]
      exact hd.one
    · rw [hpair.length_eq]
      exact hd.leaf
    · rw [hd.node, hpair.head_val]

/-- `btree_remove_level` with enough fuel, by induction on the number of levels above. -/
theorem removeLevel_spec (hgeo : geo.Ok) :
    ∀ n fuel (rest : List Level), rest.length = n → n + 1 ≤ fuel → Removes geo fuel rest := by
  intro n
  induction n with
  | zero =>
    intro fuel rest hn hfuel
    exact removes_step hgeo hfuel fun rest1 hr1 u tl h => by simp_all
  | succ n ih =>
    intro fuel rest hn hfuel
    refine removes_step hgeo (by omega) fun rest1 hr1 u tl h tl' htl => ih _ tl' ?_ (by omega)
    rw [h, hn, List.length_cons] at hr1
    omega

end Level

end Logfs.Btree
