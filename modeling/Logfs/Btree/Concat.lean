import Logfs.Btree.Invariant

/-!
# Pairs moved between neighbours

The loops of `steal_l`, `steal_r`, `merge` and `split` on any two nodes: the pairs of the left
node followed by those of the right one stay the same sequence.
-/

namespace Logfs.Btree

open Levels

/-- The first `n` slots of a node are used, and the others are all zero. -/
structure Filled (geo : Geo) (w : Node) (n : Nat) : Prop where
  fill : getfill geo w 0 = n
  unused : ∀ i, n ≤ i → i < geo.noPairs → bkey geo w i = zeroKey geo ∧ bval geo w i = 0

/-- Two nodes that hold the pairs `es` one behind the other, `m` and `n` of them. -/
structure Cut (geo : Geo) (es : Entries) (left right : Node) (m n : Nat) : Prop where
  pairs : usedPairs geo left ++ usedPairs geo right = es
  left : Filled geo left m
  right : Filled geo right n

/-- `k` is the last key of a node. -/
def LastKey (geo : Geo) (w : Node) (k : Key) : Prop :=
  (usedPairs geo w).getLast?.map Prod.fst = some k

section Concat

variable {geo : Geo} {w left right parent : Node} {es L M R : Entries} {lfill rfill lpos n : Nat}

theorem Filled.rep (h : Filled geo w n) : Rep geo w (usedPairs geo w) := by
  have hfill := h.fill
  refine ⟨?_, fun i hi => ?_, fun e he => ?_⟩
  · rw [usedPairs_length, getfill, Nat.sub_zero]
    exact (scan_le _ _ _).trans (by omega)
  · by_cases hlt : i < (usedPairs geo w).length
    · rw [List.getD_eq_getElem _ _ hlt]
      simp [usedPairs, pair]
    · rw [List.getD_eq_default _ _ (by omega)]
      rw [usedPairs_length] at hlt
      exact Prod.ext (h.unused i (by omega) hi).1 (h.unused i (by omega) hi).2
  · obtain ⟨i, hi, rfl⟩ := List.mem_map.1 he
    refine ⟨bkey_length geo _ i, ?_⟩
    have hno := scan_not (p := fun i => bval geo w i == 0) (Nat.zero_le i) (List.mem_range.1 hi)
    simpa using hno

theorem Filled.length (h : Filled geo w n) : (usedPairs geo w).length = n :=
  usedPairs_length.trans h.fill

theorem Rep.filled (h : Rep geo w es) : Filled geo w es.length :=
  ⟨h.getfill (Nat.zero_le _), fun _ hi hn => ⟨h.bkey_unused hi hn, h.bval_unused hi hn⟩⟩

theorem Rep.cut (hl : Rep geo left L) (hr : Rep geo right R) :
    Cut geo (L ++ R) left right L.length R.length :=
  ⟨by rw [hl.usedPairs, hr.usedPairs], hl.filled, hr.filled⟩

theorem Rep.lastKey {e : Key × Nat} (h : Rep geo w (L ++ [e])) : LastKey geo w e.1 := by
  rw [LastKey, h.usedPairs, List.getLast?_concat]
  rfl

/-- `steal_l` moves the last pairs of the left node over. -/
theorem stealL_cut (hl : Filled geo left lfill) (hr : Filled geo right rfill) (hn : n < lfill)
    (hfit : rfill + n ≤ geo.noPairs) :
    let r := stealL geo left lfill right rfill parent lpos n
    Cut geo (usedPairs geo left ++ usedPairs geo right) r.1 r.2.1 (lfill - n) (rfill + n) ∧
      LastKey geo r.1 (bkey geo r.2.2 lpos) := by
  intro r
  have hlen := hl.length
  obtain ⟨L, M, hLM, hM⟩ : ∃ L M, usedPairs geo left = L ++ M ∧ M.length = n :=
    ⟨_, _, (List.take_append_drop (lfill - n) _).symm, by rw [List.length_drop]; omega⟩
  have hlrep := hl.rep
  have hrrep := hr.rep
  have hR := hr.length
  rw [hLM] at hlrep hlen
  rw [List.length_append] at hlen
  obtain ⟨L', e, rfl⟩ : ∃ L' e, L = L' ++ [e] := by
    rcases List.eq_nil_or_concat' L with rfl | h
    · simp only [List.length_nil] at hlen
      omega
    · exact h
  subst hM
  have hleft : Rep geo r.1 (L' ++ [e]) := by
    have := hlrep.clear_tail
    rwa [List.length_append, hlen] at this
  have hright : Rep geo r.2.1 (M ++ usedPairs geo right) := by
    have := hlrep.steal_front hrrep (by omega)
    rwa [List.length_append, hlen, hR] at this
  -- the separator is read before the left node is cleared
  have hkey : bkey geo r.2.2 lpos = e.1 := by
    have hpos : lfill - M.length - 1 = L'.length := by
      rw [List.length_append, List.length_singleton] at hlen
      omega
    have hread : bkey geo left L'.length = e.1 := by
      rw [List.append_assoc] at hlrep
      exact hlrep.bkey_append
    show bkey geo (setkey geo parent _ lpos) lpos = _
    rw [hpos, hread, bkey_setkey (hlrep.entry e (by simp)).1, if_pos rfl]
  refine ⟨?_, hkey ▸ hleft.lastKey⟩
  have hcut := hleft.cut hright
  have hnew : (M ++ usedPairs geo right).length = rfill + M.length := by
    rw [List.length_append, hR, Nat.add_comm]
  rw [hnew, ← List.append_assoc, ← hLM] at hcut
  rwa [show lfill - M.length = (L' ++ [e]).length by omega]

/-- `steal_r` moves the first pairs of the right node over. -/
theorem stealR_cut (hl : Filled geo left lfill) (hr : Filled geo right rfill) (h1 : 1 ≤ n)
    (hn : n < rfill) (hfit : lfill + n ≤ geo.noPairs) :
    let r := stealR geo left lfill right rfill parent lpos n
    Cut geo (usedPairs geo left ++ usedPairs geo right) r.1 r.2.1 (lfill + n) (rfill - n) ∧
      bkey geo r.2.2 lpos = bkey geo right (n - 1) ∧ LastKey geo r.1 (bkey geo r.2.2 lpos) := by
  intro r
  have hlen := hr.length
  obtain ⟨M, R, hMR, hM⟩ : ∃ M R, usedPairs geo right = M ++ R ∧ M.length = n :=
    ⟨_, _, (List.take_append_drop n _).symm, by rw [List.length_take]; omega⟩
  have hlrep := hl.rep
  have hrrep := hr.rep
  have hL := hl.length
  rw [hMR] at hrrep hlen
  rw [List.length_append] at hlen
  subst hM
  have hleft : Rep geo r.1 (usedPairs geo left ++ M) := by
    have := hlrep.steal_back hrrep (by omega)
    rwa [hL] at this
  have hright : Rep geo r.2.1 R := by
    have := hrrep.drop_front
    rwa [List.length_append, hlen] at this
  obtain ⟨M', e, rfl⟩ : ∃ M' e, M = M' ++ [e] := by
    rcases List.eq_nil_or_concat' M with rfl | h
    · simp at h1
    · exact h
  have hread : bkey geo right ((M' ++ [e]).length - 1) = e.1 := by
    rw [List.append_assoc] at hrrep
    rw [List.length_append, List.length_singleton, Nat.add_sub_cancel]
    exact hrrep.bkey_append
  have hkey : bkey geo r.2.2 lpos = e.1 := by
    show bkey geo (setkey geo parent _ lpos) lpos = _
    rw [hread, bkey_setkey (hrrep.entry e (by simp)).1, if_pos rfl]
  refine ⟨?_, hkey.trans hread.symm, ?_⟩
  · have hcut := hleft.cut hright
    rw [List.length_append, hL] at hcut
    rwa [hMR, ← List.append_assoc, show rfill - (M' ++ [e]).length = R.length by omega]
  · rw [← List.append_assoc] at hleft
    exact hkey ▸ hleft.lastKey

/-- `merge` moves all pairs of the right node over. -/
theorem mergeNodes_cut (hl : Filled geo left lfill) (hr : Filled geo right rfill)
    (hfit : lfill + rfill ≤ geo.noPairs) :
    let w := mergeNodes geo left lfill right rfill
    usedPairs geo w = usedPairs geo left ++ usedPairs geo right ∧ Filled geo w (lfill + rfill) := by
  intro w
  have hL := hl.length
  have hR := hr.length
  have hrep : Rep geo w (usedPairs geo left ++ usedPairs geo right) := by
    have := hl.rep.merge hr.rep (by omega)
    rwa [hL, hR] at this
  have hfilled := hrep.filled
  rw [List.length_append, hL, hR] at hfilled
  exact ⟨hrep.usedPairs, hfilled⟩

/-- `split` cuts the pairs of a full node in halves, of which the right one can be longer. -/
theorem splitNodes_cut (htwo : 2 ≤ geo.noPairs) (hfull : Filled geo w geo.noPairs) :
    let p := splitNodes geo zeroNode w
    Cut geo (usedPairs geo w) p.1 p.2 (geo.noPairs / 2) (geo.noPairs - geo.noPairs / 2) ∧
      LastKey geo p.1 (bkey geo w (geo.noPairs / 2 - 1)) := by
  intro p
  have hrep := hfull.rep
  have hlen := hfull.length
  have hleft : Rep geo p.1 _ := hrep.split_fst Rep.zero hlen
  have hright : Rep geo p.2 _ := hrep.split_snd zeroNode hlen htwo
  constructor
  · have hcut := hleft.cut hright
    rwa [List.take_append_drop, List.length_take, List.length_drop, hlen,
      Nat.min_eq_left (Nat.div_le_self _ _)] at hcut
  · have hlt : geo.noPairs / 2 - 1 < (usedPairs geo w).length := by omega
    have htake : (usedPairs geo w).take (geo.noPairs / 2) =
        (usedPairs geo w).take (geo.noPairs / 2 - 1) ++ [(usedPairs geo w)[geo.noPairs / 2 - 1]] := by
      rw [← List.take_succ_eq_append_getElem hlt, Nat.sub_add_cancel (by omega)]
    rw [htake] at hleft
    rw [hrep.bkey hlt]
    exact hleft.lastKey

/-- Some node of the level `u` has the child `a`, with the separator `k`. -/
def Separates (geo : Geo) (t : Tree) (u : Level) (k : Key) (a : Nat) : Prop :=
  ∃ s ∈ u, ∃ w i, t.mem s.addr = some w ∧ i < getfill geo w 0 ∧ pair geo w i = (k, a)

/-- `split` of the node `r` with the words `w` has put the new node `l` on the left of it: the tree
has both, each with its part of the pairs, and above them the separator `k` of the new node. -/
structure SplitDone (geo : Geo) (w : Node) (P : Level) (r : Span Key) (Q : Level) (t' : Tree)
    (l r' : Span Key) (u : Level) (tl : List Level) (wl wr : Node) (k : Key) : Prop where
  stack : Stack geo t' ((P ++ l :: r' :: Q) :: u :: tl)
  addr : r'.addr = r.addr
  words : t'.mem l.addr = some wl ∧ t'.mem r.addr = some wr
  pairs : Cut geo (usedPairs geo w) wl wr (geo.noPairs / 2) (geo.noPairs - geo.noPairs / 2)
  last : LastKey geo wl k
  separator : Separates geo t' u k l.addr

section Split

variable {P Q u : Level} {r : Span Key} {rest : List Level} {t t' : Tree} {level m fuel : Nat}
  {p : SplitParts} {k : Key} {a : Nat}

theorem Stack.separates (h : Stack geo t (u :: rest)) (he : (k, a) ∈ u.flatMap Span.es) :
    Separates geo t u k a := by
  obtain ⟨s, hs, he⟩ := List.mem_flatMap.1 he
  obtain ⟨w, hw, hrep⟩ := (h.bottom_holds s hs).words
  obtain ⟨i, hi, hie⟩ := List.mem_iff_getElem.1 he
  refine ⟨s, hs, w, i, hw, by rwa [hrep.getfill (Nat.zero_le _)], ?_⟩
  rw [pair, hrep.bkey hi, hrep.bval hi, hie]

theorem IsSplit.done_of (h : IsSplit geo level P r Q rest t t' p) (hw : Rep geo w r.es) :
    ∃ l r' u tl wl wr k, SplitDone geo w P r Q t' l r' u tl wl wr k := by
  have hne : r.addr ≠ t.next := h.fresh.ne _ (addr_mem_addrs (by simp))
  have hstack := h.raised.split h.stack h.half.es h.fresh h.left h.right
  rw [← h.done] at hstack
  have hmid : (p.mid, t.next) ∈ p.above.flatMap Span.es := by
    obtain ⟨cs, -, hins⟩ := h.raised.links
    obtain ⟨A, B, -, he⟩ := hins.entries
    rw [← Levels.kids_entries, he]
    simp
  refine ⟨_, _, _, _, p.wleft, p.wright, p.mid, hstack, h.raised.addr, ⟨?_, ?_⟩, ?_,
    h.left.lastKey, hstack.tail.separates hmid⟩
  · rw [h.done]
    dsimp only [splitLeft]
    rw [Function.update_of_ne hne.symm, Function.update_self]
  · rw [h.done]
    exact Function.update_self ..
  · have hlen := h.half.length
    have hhalf := h.half.half
    have hcut := h.left.cut h.right
    rw [List.append_assoc, List.singleton_append, ← h.half.es, List.length_append,
      List.length_singleton] at hcut
    rwa [hw.usedPairs, show geo.noPairs - geo.noPairs / 2 = p.B.length by omega, ← hhalf]

/-- `split` of a full node of any level, with `btree_insert_level` above it. -/
theorem split_done (hgeo : geo.Ok) (h : Stack geo t ((P ++ r :: Q) :: rest))
    (hocc : Occ m ((P ++ r :: Q) :: rest)) (hlen : t.height = level + rest.length)
    (hw : t.mem r.addr = some w) (hfull : Filled geo w geo.noPairs)
    (hfuel : 2 * rest.length + 2 ≤ fuel) :
    Runs (split geo (btreeInsertLevel geo fuel) r.addr level) (fun err t' =>
      (err = 0 ∧ ∃ l r' u tl wl wr k, SplitDone geo w P r Q t' l r' u tl wl wr k) ∨
      (err = -ENOMEM ∧ true ∈ t.fails ∧ ∃ rest', Stack geo t' ((P ++ r :: Q) :: rest'))) t := by
  have hrep := (h.bottom_holds r (by simp)).rep hw
  have hes : r.es.length = geo.noPairs := by rw [← hrep.usedPairs, hfull.length]
  obtain ⟨f, rfl⟩ : ∃ f, fuel = f + 2 := ⟨fuel - 2, by omega⟩
  have hins : Raises geo m level P r Q rest (btreeInsertLevel geo (f + 2)) := by
    apply raise_spec hgeo (insertLevel_enters geo f _)
    rintro u tl rfl b t m key k val hi hval
    rw [List.length_cons] at hfuel
    exact insertRetry_spec hgeo _ tl (by omega) hi.stack hi.occ hi.absent hi.keyAt hi.avoids
      hi.keylen hval hi.height
  apply (split_spec hgeo hins h hocc hlen hes).imp
  rintro err t' (⟨rfl, p, hp⟩ | ⟨rfl, rest', hu⟩)
  · exact Or.inl ⟨rfl, hp.done_of hrep⟩
  · exact Or.inr ⟨rfl, hu.failed, rest', hu.stack⟩

end Split

/-- The key that `steal_r` makes the separator.  For no entries it is read at slot -1, from the
words `before` that are in front of the node. -/
def stealRKey (geo : Geo) (before : Key) (right : Node) (noEntries : Nat) : Key :=
  if noEntries = 0 then before else bkey geo right (noEntries - 1)

/-- The loops that move pairs between two neighbours keep the sequence of their pairs, fill the
slots from the first one on, and leave the last key of the left node as its separator; for `split`
this is what `btree_insert_level` has stored above the node, at any level of a tree. -/
theorem pairs_conserved (geo : Geo) (left right parent : Node) (lfill rfill lpos n : Nat)
    (hl : Filled geo left lfill) (hr : Filled geo right rfill) :
    (n < lfill → rfill + n ≤ geo.noPairs →
      let r := stealL geo left lfill right rfill parent lpos n
      Cut geo (usedPairs geo left ++ usedPairs geo right) r.1 r.2.1 (lfill - n) (rfill + n) ∧
        LastKey geo r.1 (bkey geo r.2.2 lpos)) ∧
    (1 ≤ n → n < rfill → lfill + n ≤ geo.noPairs →
      let r := stealR geo left lfill right rfill parent lpos n
      Cut geo (usedPairs geo left ++ usedPairs geo right) r.1 r.2.1 (lfill + n) (rfill - n) ∧
        LastKey geo r.1 (bkey geo r.2.2 lpos) ∧
        ∀ before, bkey geo r.2.2 lpos = stealRKey geo before right n) ∧
    (lfill + rfill ≤ geo.noPairs →
      let w := mergeNodes geo left lfill right rfill
      usedPairs geo w = usedPairs geo left ++ usedPairs geo right ∧
        Filled geo w (lfill + rfill)) ∧
    (2 ≤ geo.noPairs → lfill = geo.noPairs →
      let p := splitNodes geo zeroNode left
      Cut geo (usedPairs geo left) p.1 p.2 (geo.noPairs / 2) (geo.noPairs - geo.noPairs / 2) ∧
        LastKey geo p.1 (bkey geo left (geo.noPairs / 2 - 1))) ∧
    (geo.Ok → lfill = geo.noPairs →
      ∀ {t : Tree} {P : Level} {r : Span Key} {Q : Level} {rest : List Level} {m level fuel : Nat},
        Stack geo t ((P ++ r :: Q) :: rest) → Occ m ((P ++ r :: Q) :: rest) →
        t.height = level + rest.length → t.mem r.addr = some left → 2 * rest.length + 2 ≤ fuel →
        Runs (split geo (btreeInsertLevel geo fuel) r.addr level) (fun err t' =>
          (err = 0 ∧ ∃ l r' u tl wl wr k, SplitDone geo left P r Q t' l r' u tl wl wr k) ∨
          (err = -ENOMEM ∧ true ∈ t.fails ∧ ∃ rest', Stack geo t' ((P ++ r :: Q) :: rest'))) t) := by
  refine ⟨stealL_cut hl hr, fun h1 hn hfit => ?_, mergeNodes_cut hl hr,
    fun htwo hfull => splitNodes_cut htwo (hfull ▸ hl), fun hgeo hfull t P r Q rest m level fuel hst hocc hlen hw hfuel => ?_⟩
  · obtain ⟨hcut, hkey, hlast⟩ := stealR_cut hl hr h1 hn hfit
    refine ⟨hcut, hlast, fun before => ?_⟩
    rw [stealRKey, if_neg (by omega), hkey]
  · exact split_done hgeo hst hocc hlen hw (hfull ▸ hl) hfuel

/-- A root that is a leaf is a stack of its own. -/
theorem Stores.leaf_root {t : Tree} {m : OrdMap Key Nat} (h : Stores geo t m)
    (h1 : t.height = 1) : ∃ r, Stack geo t [[] ++ r :: []] ∧ Occ 1 [[] ++ r :: []] ∧
      r.addr = t.node := by
  cases h with
  | empty _ _ h0 => omega
  | levels b rest stack occ hheight =>
    obtain rfl : rest = [] := List.length_eq_zero_iff.1 (by omega)
    obtain ⟨r, rfl, hroot⟩ := stack.linked
    exact ⟨r, stack, occ, hroot⟩

/-- A leaf of eight pairs is the root: three of them could be moved to an empty neighbour, and its
split adds a level. -/
theorem pairs_conserved_full :
    let geo := btreeGeo64 64
    let t := treeAfter geo [] (insertions 1 8)
    ∃ w r t' l r' u tl wl wr k, t.mem t.node = some w ∧
      usedPairs geo w = [8, 7, 6, 5, 4, 3, 2, 1].map (fun i => ([i], i)) ∧
      LastKey geo (stealL geo w 8 zeroNode 0 zeroNode 0 3).1 [4] ∧
      split geo (btreeInsertLevel geo 2) t.node 1 t = .ok 0 t' ∧
      SplitDone geo w [] r [] t' l r' u tl wl wr k := by
  have ht : Reachable (btreeGeo64 64) (treeAfter (btreeGeo64 64) [] (insertions 1 8)) :=
    reachable_treeAfter (exported_geo_ok 64 (by decide)).2.1 (by decide +kernel)
  have hheight : (treeAfter (btreeGeo64 64) [] (insertions 1 8)).height = 1 := by decide +kernel
  have hfails : (treeAfter (btreeGeo64 64) [] (insertions 1 8)).fails = [] := by decide +kernel
  have hpairs : ((treeAfter (btreeGeo64 64) [] (insertions 1 8)).pairs (btreeGeo64 64)) =
      [8, 7, 6, 5, 4, 3, 2, 1].map (fun i => ([i], i)) := by decide +kernel
  intro geo t
  change Reachable geo t at ht
  change t.height = 1 at hheight
  change t.fails = [] at hfails
  change t.pairs geo = _ at hpairs
  clear_value t
  have hgeo : geo.Ok := (exported_geo_ok 64 (by decide)).2.1
  obtain ⟨m, hm⟩ := ht.stores hgeo
  obtain ⟨r, hst, hocc, hroot⟩ := hm.leaf_root hheight
  obtain ⟨w, hw, hrep⟩ := (hst.bottom_holds r (by simp)).words
  have hused : usedPairs geo w = [8, 7, 6, 5, 4, 3, 2, 1].map fun i => ([i], i) := by
    rw [← hpairs, Tree.pairs, hheight, ← hroot, leafPairs_of_rep hw hrep, if_pos rfl, hrep.usedPairs]
  have hl : Filled geo w 8 := by
    have hfilled := hrep.filled
    rwa [← hrep.usedPairs, hused] at hfilled
  obtain ⟨hsteal, -, -, -, hsplit⟩ :=
    pairs_conserved geo w zeroNode zeroNode 8 0 0 3 hl Rep.zero.filled
  refine ⟨w, r, ?_⟩
  obtain ⟨err, t', hrun, ⟨rfl, l, r', u, tl, wl, wr, k, hdone⟩ | ⟨-, hfail, -⟩⟩ :=
    Runs.ok (hsplit hgeo rfl hst hocc hheight hw (Nat.le_refl 2))
  · refine ⟨t', l, r', u, tl, wl, wr, k, hroot ▸ hw, hused, ?_, hroot ▸ hrun, hdone⟩
    obtain ⟨hcut, -⟩ := hsteal (by decide) (by decide)
    have hleft := hcut.pairs
    rw [hused, Rep.zero.usedPairs, List.append_nil] at hleft
    have htake := congrArg (List.take 5) hleft
    rw [List.take_left' hcut.left.length] at htake
    unfold LastKey
    rw [htake]
    rfl
  · rw [hfails] at hfail
    cases hfail

/-- For no entries `steal_r` leaves a separator that has nothing to do with the node. -/
theorem steal_none_reads_before :
    ¬ ∀ (geo : Geo) (before : Key) (left right parent : Node) (lfill rfill lpos n : Nat),
      before.length = geo.keylen → Filled geo left lfill → Filled geo right rfill → n < rfill →
      lfill + n ≤ geo.noPairs →
      LastKey geo (stealR geo left lfill right rfill parent lpos n).1
        (stealRKey geo before right n) := by
  intro h
  have hkey := h (btreeGeo64 64) [3] (fun i => if i = 0 then 9 else if i = 8 then 1 else 0)
    (fun i => if i < 2 then 7 - i else if i = 8 then 2 else if i = 9 then 3 else 0) zeroNode 1 2 0 0
    (by decide) ⟨by decide, by decide⟩ ⟨by decide, by decide⟩ (by decide) (by decide)
  unfold LastKey at hkey
  exact absurd hkey (by decide)

end Concat

end Logfs.Btree
