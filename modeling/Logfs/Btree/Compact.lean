import Logfs.Btree.Cost

/-!
# Insertion with `AGGRESSIVE_COMPACTION`

When the switch is defined, `rebalance_insert` first looks for room in the
neighbours of a full node and moves pairs over to one of them; only where both
are full the node is split.  The trees of the two builds have different shapes,
so they are compared through the map that both of them store.
-/

namespace Logfs.Btree

open Levels

/-! ## The functions of the build -/

/-- `steal_l` on three nodes of the tree. -/
def stealLNodes (geo : Geo) (left lfill right rfill parent lpos noEntries : Nat) : TreeM Unit := do
  let wl ← load left
  let wr ← load right
  let wp ← load parent
  let ws := stealL geo wl lfill wr rfill wp lpos noEntries
  store left ws.1
  store right ws.2.1
  store parent ws.2.2

/-- `steal_r` on three nodes of the tree. -/
def stealRNodes (geo : Geo) (left lfill right rfill parent lpos noEntries : Nat) : TreeM Unit := do
  let wl ← load left
  let wr ← load right
  let wp ← load parent
  let ws := stealR geo wl lfill wr rfill wp lpos noEntries
  store left ws.1
  store right ws.2.1
  store parent ws.2.2

/-- `rebalance_insert` with `AGGRESSIVE_COMPACTION`, once the left neighbour has turned out to be
too full or is missing. -/
def rebalanceInsertRight (geo : Geo) (ins : KeyPtr → Nat → Nat → TreeM Int) (child level parent : Nat)
    (wp : Node) (childNo : Nat) : TreeM Int :=
  if childNo + 1 < getfill geo wp childNo then do
    let right := bval geo wp (childNo + 1)
    let noRight ← (fun w => getfill geo w 0) <$> load right
    let delta := geo.noPairs - noRight
    if delta ≥ 2 then do
      stealLNodes geo child geo.noPairs right noRight parent childNo (delta / 2)
      pure 0
    else split geo ins child level
  else split geo ins child level

/-- `rebalance_insert` with `AGGRESSIVE_COMPACTION`, from the parent it has found. -/
def rebalanceInsertParent (geo : Geo) (ins : KeyPtr → Nat → Nat → TreeM Int) (key : KeyPtr)
    (child level parent : Nat) : TreeM Int := do
  let k ← readKey geo key
  let wp ← load parent
  let childNo := getpos geo wp k
  if bval geo wp childNo ≠ child then throw .bug
  else if childNo > 0 then do
    let left := bval geo wp (childNo - 1)
    let noLeft ← (fun w => getfill geo w 0) <$> load left
    let delta := geo.noPairs - noLeft
    if delta ≥ 2 then do
      stealRNodes geo left noLeft child geo.noPairs parent (childNo - 1) (delta / 2)
      pure 0
    else rebalanceInsertRight geo ins child level parent wp childNo
  else rebalanceInsertRight geo ins child level parent wp childNo

/-- `rebalance_insert` with `AGGRESSIVE_COMPACTION`; `ins` is `btree_insert_level`. -/
def rebalanceInsertCompact (geo : Geo) (ins : KeyPtr → Nat → Nat → TreeM Int) (key : KeyPtr)
    (child level : Nat) : TreeM Int := do
  let t ← get
  if level = t.height then split geo ins child level
  else do
    let parent ← findLevel geo key (level + 1)
    rebalanceInsertParent geo ins key child level parent

mutual

/-- `btree_insert_level` with `AGGRESSIVE_COMPACTION`, up to the label `retry`. -/
def insertLevelCompact (geo : Geo) : Nat → KeyPtr → Nat → Nat → TreeM Int
  | 0, _, _, _ => throw .fuel
  | fuel + 1, key, val, level =>
    if val = 0 then throw .bug
    else do
      let t ← get
      let err ← if t.height < level then btreeGrow geo else pure 0
      if err ≠ 0 then pure err
      else insertRetryCompact geo fuel key val level
termination_by structural fuel => fuel

/-- `btree_insert_level` with `AGGRESSIVE_COMPACTION`, from the label `retry` on. -/
def insertRetryCompact (geo : Geo) : Nat → KeyPtr → Nat → Nat → TreeM Int
  | 0, _, _, _ => throw .fuel
  | fuel + 1, key, val, level => do
    let node ← findLevel geo key level
    let k ← readKey geo key
    let w ← load node
    let pos := getpos geo w k
    let fill := getfill geo w pos
    if pos < fill ∧ keycmp geo w pos k = 0 then throw .bug
    else if fill = geo.noPairs then do
      let err ← rebalanceInsertCompact geo (insertLevelCompact geo fuel) key node level
      if err ≠ 0 then pure err
      else insertRetryCompact geo fuel key val level
    else if fill ≥ geo.noPairs then throw .bug
    else do
      store node (setval geo (setkey geo (shiftInsert geo w pos fill) k pos) val pos)
      pure 0
termination_by structural fuel => fuel

end

/-- `btree_insert` with `AGGRESSIVE_COMPACTION`. -/
def btreeInsertCompact (geo : Geo) (key : KeyPtr) (val : Nat) : TreeM Int := do
  let t ← get
  insertLevelCompact geo (fuelFor t.height) key val 1

mutual

/-- `insertLevelCompact`, where every full node that is found again fails an assertion. -/
def insertLevelOnce (geo : Geo) : Nat → KeyPtr → Nat → Nat → TreeM Int
  | 0, _, _, _ => throw .fuel
  | fuel + 1, key, val, level =>
    if val = 0 then throw .bug
    else do
      let t ← get
      let err ← if t.height < level then btreeGrow geo else pure 0
      if err ≠ 0 then pure err
      else insertRetryOnce geo fuel false key val level
termination_by structural fuel => fuel

/-- `insertRetryCompact` with the assertion that the node is not full when the `goto` was taken. -/
def insertRetryOnce (geo : Geo) : Nat → Bool → KeyPtr → Nat → Nat → TreeM Int
  | 0, _, _, _, _ => throw .fuel
  | fuel + 1, retried, key, val, level => do
    let node ← findLevel geo key level
    let k ← readKey geo key
    let w ← load node
    let pos := getpos geo w k
    let fill := getfill geo w pos
    if pos < fill ∧ keycmp geo w pos k = 0 then throw .bug
    else if fill = geo.noPairs then
      if retried then throw .bug
      else do
        let err ← rebalanceInsertCompact geo (insertLevelOnce geo fuel) key node level
        if err ≠ 0 then pure err
        else insertRetryOnce geo fuel true key val level
    else if fill ≥ geo.noPairs then throw .bug
    else do
      store node (setval geo (setkey geo (shiftInsert geo w pos fill) k pos) val pos)
      pure 0
termination_by structural fuel => fuel

end

/-- `btreeInsertCompact` with the assertions of `insertRetryOnce`. -/
def btreeInsertOnce (geo : Geo) (key : KeyPtr) (val : Nat) : TreeM Int := do
  let t ← get
  insertLevelOnce geo (fuelFor t.height) key val 1

/-! ## Moving pairs to a neighbour -/

section Neighbour

variable {geo : Geo} {t t' : Tree} {P Q U V : Level} {l r p : Span Key} {tl : List Level}
  {X Y L R : Entries} {s1 s2 k : Key} {key : KeyPtr} {val level m n : Nat}

theorem Siblings.stealLNodes (h : Siblings geo t P l r Q U p V tl X s1 s2 Y)
    (hn : n < l.es.length) (hfit : r.es.length + n ≤ geo.noPairs) :
    Runs (stealLNodes geo l.addr l.es.length r.addr r.es.length p.addr X.length n)
      (fun _ t' => Recut geo t t' P l r Q U p V tl (l.es.take (l.es.length - n))
        (l.es.drop (l.es.length - n) ++ r.es)) t := by
  obtain ⟨wl, hwl, -⟩ := (h.stack.bottom_holds l h.mem.1).words
  obtain ⟨wr, hwr, -⟩ := (h.stack.bottom_holds r h.mem.2.1).words
  obtain ⟨wp, hwp, -⟩ := (h.stack.tail.bottom_holds p h.mem.2.2.1).words
  unfold Btree.stealLNodes
  rw [Runs, wp_bind, wp_load hwl, wp_bind, wp_load hwr, wp_bind, wp_load hwp]
  exact (h.write _).imp fun _ t' hw => h.stealL_moves hwl hwr hwp hn hfit hw

theorem Siblings.stealRNodes (h : Siblings geo t P l r Q U p V tl X s1 s2 Y) (hone : 1 ≤ n)
    (hn : n < r.es.length) (hfit : l.es.length + n ≤ geo.noPairs) :
    Runs (stealRNodes geo l.addr l.es.length r.addr r.es.length p.addr X.length n)
      (fun _ t' => Recut geo t t' P l r Q U p V tl (l.es ++ r.es.take n) (r.es.drop n)) t := by
  obtain ⟨wl, hwl, -⟩ := (h.stack.bottom_holds l h.mem.1).words
  obtain ⟨wr, hwr, -⟩ := (h.stack.bottom_holds r h.mem.2.1).words
  obtain ⟨wp, hwp, -⟩ := (h.stack.tail.bottom_holds p h.mem.2.2.1).words
  unfold Btree.stealRNodes
  rw [Runs, wp_bind, wp_load hwl, wp_bind, wp_load hwr, wp_bind, wp_load hwp]
  exact (h.write _).imp fun _ t' hw => h.stealR_moves hwl hwr hwp hone hn hfit hw

/-- A steal leaves the level ready for the same insertion. -/
theorem Recut.insertable (h : Insertable geo t m level key k (P ++ l :: r :: Q) ((U ++ p :: V) :: tl))
    (hcut : Recut geo t t' P l r Q U p V tl L R) (hL : 2 ≤ L.length) (hR : 2 ≤ R.length) :
    ∃ s p', p'.addr = p.addr ∧ KidsLe (kids (P ++ l :: r :: Q))
        (kids (P ++ cutLeft l r s L :: cutRight l r s R :: Q)) ∧
      Insertable geo t' m level key k (P ++ cutLeft l r s L :: cutRight l r s R :: Q)
        ((U ++ p' :: V) :: tl) := by
  obtain ⟨⟨s, p', hp, hplen, hst, hkids⟩, hext, hhead⟩ := hcut
  have haddrs : addrs ((P ++ cutLeft l r s L :: cutRight l r s R :: Q) :: (U ++ p' :: V) :: tl) =
      addrs ((P ++ l :: r :: Q) :: (U ++ p :: V) :: tl) := by
    simp [cutLeft, cutRight, hp]
  refine ⟨s, p', hp, hkids, hst, fun x hx y hy => ?_, ?_, h.keyAt.ext hext ?_, ?_, h.keylen, ?_⟩
  · rw [if_neg (by simp)]
    rcases List.mem_cons.1 hx with rfl | hx
    · simp only [List.mem_append, List.mem_cons] at hy
      have hold := h.occ _ List.mem_cons_self y
      rw [if_neg (by simp)] at hold
      rcases hy with hy | rfl | rfl | hy
      · exact hold (by simp [hy])
      · exact hL
      · exact hR
      · exact hold (by simp [hy])
    · have := (h.occ.tail.replace (le_of_eq hplen.symm)) x hx y hy
      rwa [ite_self] at this
  · rw [← kids_entries, ← hkids.entries, kids_entries]
    exact h.absent
  · refine h.avoids.mono fun a ha => ?_
    simp only [List.mem_cons, List.not_mem_nil, or_false] at ha
    rcases ha with rfl | rfl | rfl <;> simp
  · rw [haddrs]
    exact h.avoids
  · rw [hhead.height, h.height, List.length_cons, List.length_cons]

/-- After a steal the insertion is tried again and finds room in either node. -/
theorem Recut.retry (full : Nat → TreeM Int)
    (h : Insertable geo t m level key k (P ++ l :: r :: Q) ((U ++ p :: V) :: tl))
    (hcut : Recut geo t t' P l r Q U p V tl L R) (hL : 2 ≤ L.length) (hLroom : L.length < geo.noPairs)
    (hR : 2 ≤ R.length) (hRroom : R.length < geo.noPairs) (hk : l.rng k ∨ r.rng k) (hval : val ≠ 0) :
    Runs (findLevel geo key level >>= fun node => insertAt geo (full node) key val node)
      (InsertEnds geo m k val level (P ++ l :: r :: Q) ((U ++ p :: V) :: tl) t) t' := by
  obtain ⟨s, p', hp, hkids, h1⟩ := hcut.insertable h hL hR
  have haddrs : addrs ((P ++ cutLeft l r s L :: cutRight l r s R :: Q) :: (U ++ p' :: V) :: tl) =
      addrs ((P ++ l :: r :: Q) :: (U ++ p :: V) :: tl) := by
    simp [cutLeft, cutRight, hp]
  have hside : (cutLeft l r s L).rng k ∨ (cutRight l r s R).rng k := by
    by_cases hs : s ≤ k
    · exact Or.inl ⟨hk, hs⟩
    · exact Or.inr ⟨hk, not_le.1 hs⟩
  have hext : Ext (addrs ((P ++ l :: r :: Q) :: (U ++ p :: V) :: tl)) t t' := by
    refine hcut.ext.mono fun a ha => ?_
    simp only [List.mem_cons, List.not_mem_nil, or_false] at ha
    rcases ha with rfl | rfl | rfl <;> simp
  refine (insertRoom_spec full h1.stack h1.occ.nonempty_tail h1.absent
    (fun b1 hb1 hap => room_of_pair hLroom hRroom hside hb1 hap) h1.keyAt
    (h1.avoids.mono fun a ha => addrs_tail ha) h1.keylen hval h1.height).imp ?_
  rintro err t2 ⟨rfl, b', rest', hp⟩
  have hi := hp.inserted h1.occ h1.height
  refine Or.inl ⟨rfl, b', rest', hi.stack, hi.kids.of_le hkids, ?_, ?_, hi.height, hi.occ⟩
  · rw [← haddrs, ← hcut.head.next]
    exact hi.old
  · exact hext.trans (haddrs ▸ hi.ext) fun a ha => Or.inl ha

end Neighbour

/-! ## A full node -/

section Full

variable {geo : Geo} {t : Tree} {P Q U V : Level} {r p : Span Key} {rest tl : List Level}
  {X Y : Entries} {s k : Key} {key : KeyPtr} {val level m : Nat}
  {ins attempt : KeyPtr → Nat → Nat → TreeM Int}

/-- A descent to the level above leaves the insertion possible. -/
theorem Insertable.above {t1 : Tree} {b u u1 : Level} {tl1 : List Level} {a : Nat}
    (h : Insertable geo t m level key k b (u :: tl)) (hf : Found geo t k u tl a t1 u1 tl1) :
    Insertable geo t1 m level key k b (u1 :: tl1) where
  stack := hf.under h.stack
  occ := h.occ.of_shape (sameShape_refl b)
    (List.Forall₂.cons (spans_le_sameShape hf.bottom) hf.shape)
  absent := h.absent
  keyAt := h.keyAt.ext hf.ext (h.avoids.mono fun a ha => addrs_tail (addrs_tail ha))
  avoids := by
    rw [addrs_cons, ← hf.addrs_eq, ← addrs_cons]
    exact h.avoids
  keylen := h.keylen
  height := by
    rw [hf.head.height, h.height, List.length_cons, List.length_cons, hf.shape.length_eq]

/-- The second try. -/
def tryAgain (geo : Geo) (full : Nat → TreeM Int) (key : KeyPtr) (val level : Nat) (err : Int) :
    TreeM Int :=
  if err ≠ 0 then pure err
  else findLevel geo key level >>= fun node => insertAt geo (full node) key val node

/-- The right neighbour takes some of the pairs, or the node is split. -/
theorem rebalanceInsertRight_spec (hgeo : geo.Ok) (full : Nat → TreeM Int)
    (hraise : Raises geo m level P r Q ((U ++ p :: V) :: tl) ins)
    (h : Insertable geo t m level key k (P ++ r :: Q) ((U ++ p :: V) :: tl))
    (hfull : r.es.length = geo.noPairs) (hr : r.rng k) (hval : val ≠ 0) {wp : Node}
    (hwp : t.mem p.addr = some wp) (hes : p.es = X ++ (s, r.addr) :: Y) :
    Runs (rebalanceInsertRight geo ins r.addr level p.addr wp X.length >>=
        tryAgain geo full key val level)
      (InsertEnds geo m k val level (P ++ r :: Q) ((U ++ p :: V) :: tl) t) t := by
  have hfour := hgeo.four_le
  have hsplit := splitRetry_spec full hgeo hraise h hfull hr hval
  have hprep := (h.stack.tail.bottom_holds p (by simp)).rep hwp
  have hfill : getfill geo wp X.length = X.length + Y.length + 1 := by
    rw [hprep.getfill (by rw [hes]; simp), hes, List.length_append, List.length_cons]
    omega
  unfold rebalanceInsertRight
  rw [hfill]
  cases Y with
  | nil =>
    rw [if_neg (by simp)]
    exact hsplit
  | cons e Y =>
    obtain ⟨q, Q', rfl, hq, hs⟩ := h.stack.siblings_right
      (show p.es = X ++ (s, r.addr) :: (e.1, e.2) :: Y from hes)
    have hright : bval geo wp (X.length + 1) = q.addr := by
      rw [hq]
      have hval := (show Rep geo wp ((X ++ [(s, r.addr)]) ++ e :: Y) by
        rw [List.append_assoc, List.singleton_append, ← hes]
        exact hprep).bval_append
      simpa using hval
    obtain ⟨wq, hwq, hqrep⟩ := (h.stack.bottom_holds q (by simp)).words
    have htwo : 2 ≤ q.es.length := by
      have := h.occ _ List.mem_cons_self q (by simp)
      rwa [if_neg (by simp)] at this
    rw [if_pos (by rw [List.length_cons]; omega)]
    simp only [hright, Runs, wp_bind, wp_map, wp_load hwq, hqrep.getfill (Nat.zero_le _)]
    by_cases hroom : geo.noPairs - q.es.length ≥ 2
    · rw [if_pos hroom, wp_bind, ← hfull]
      refine (hs.stealLNodes (by omega) (by omega)).imp fun _ t1 hcut => ?_
      rw [wp_pure, tryAgain, if_neg (by simp)]
      refine hcut.retry full h ?_ ?_ ?_ ?_ (Or.inl hr) hval <;>
        simp only [List.length_append, List.length_take, List.length_drop] <;> omega
    · rw [if_neg hroom]
      exact wp_bind.1 hsplit

/-- The left neighbour takes some of the pairs, or the right one, or the node is split. -/
theorem rebalanceInsertParent_spec (hgeo : geo.Ok) (full : Nat → TreeM Int)
    (hraise : Raises geo m level P r Q ((U ++ p :: V) :: tl) ins)
    (h : Insertable geo t m level key k (P ++ r :: Q) ((U ++ p :: V) :: tl))
    (hfull : r.es.length = geo.noPairs) (hr : r.rng k) (hp : p.rng k) (hval : val ≠ 0) :
    Runs (rebalanceInsertParent geo ins key r.addr level p.addr >>= tryAgain geo full key val level)
      (InsertEnds geo m k val level (P ++ r :: Q) ((U ++ p :: V) :: tl) t) t := by
  have hfour := hgeo.four_le
  obtain ⟨X, s, Y, hes, hX, hB⟩ := h.stack.parent hr hp
  obtain ⟨wp, hwp, hprep⟩ := (h.stack.tail.bottom_holds p (by simp)).words
  have hpos : getpos geo wp k = X.length :=
    (hes ▸ hprep).getpos h.keylen hX fun e he => hB e (List.mem_of_mem_head? he)
  have hchild : bval geo wp X.length = r.addr := (hes ▸ hprep).bval_append
  have hright := rebalanceInsertRight_spec hgeo full hraise h hfull hr hval hwp hes
  unfold rebalanceInsertParent
  simp only [Runs, wp_bind, wp_readKey h.keyAt, wp_load hwp, hpos, hchild, ne_eq,
    not_true_eq_false, if_false]
  rcases List.eq_nil_or_concat X with rfl | ⟨X0, e0, rfl⟩
  · rw [if_neg (by simp)]
    exact wp_bind.1 hright
  · rw [List.concat_eq_append] at *
    obtain ⟨P0, l, rfl, hl, hs⟩ := h.stack.siblings_left
      (show p.es = X0 ++ (e0.1, e0.2) :: (s, r.addr) :: Y by rw [hes]; simp)
    have hlast : (X0 ++ [e0]).length - 1 = X0.length := by simp
    have hleft : bval geo wp X0.length = l.addr := by
      rw [hl]
      refine Rep.bval_append (B := (s, r.addr) :: Y) ?_
      rw [hes] at hprep
      simpa using hprep
    obtain ⟨wl, hwl, hlrep⟩ := (h.stack.bottom_holds l (by simp)).words
    have htwo : 2 ≤ l.es.length := by
      have := h.occ _ List.mem_cons_self l (by simp)
      rwa [if_neg (by simp)] at this
    rw [if_pos (by simp)]
    simp only [hlast, hleft, wp_bind, wp_map, wp_load hwl, hlrep.getfill (Nat.zero_le _)]
    by_cases hroom : geo.noPairs - l.es.length ≥ 2
    · rw [if_pos hroom, wp_bind, ← hfull]
      refine (hs.stealRNodes (by omega) (by omega) (by omega)).imp fun _ t1 hcut => ?_
      rw [wp_pure, tryAgain, if_neg (by simp)]
      rw [← List.append_cons] at h ⊢
      refine hcut.retry full h ?_ ?_ ?_ ?_ (Or.inr hr) hval <;>
        simp only [List.length_append, List.length_take, List.length_drop] <;> omega
    · rw [if_neg hroom]
      exact wp_bind.1 hright

/-- `rebalance_insert` and the second try, at a full node. -/
theorem rebalanceInsertCompact_spec (hgeo : geo.Ok) (full : Nat → TreeM Int)
    (he : Enters geo ins attempt (level + 1))
    (ih : ∀ rest1 : List Level, rest1.length = rest.length → ∀ u tl, rest1 = u :: tl →
      InsertsBy geo attempt (level + 1) tl)
    (h : Insertable geo t m level key k (P ++ r :: Q) rest) (hfull : r.es.length = geo.noPairs)
    (hr : r.rng k) (hval : val ≠ 0) :
    Runs (rebalanceInsertCompact geo ins key r.addr level >>= tryAgain geo full key val level)
      (InsertEnds geo m k val level (P ++ r :: Q) rest t) t := by
  unfold rebalanceInsertCompact
  rw [Runs, wp_bind, wp_bind, wp_get]
  cases rest with
  | nil =>
    rw [if_pos (by rw [h.height]; rfl)]
    have hraise := raise_spec (m := m) (P := P) (r := r) (Q := Q) hgeo he (ih [] rfl)
    exact wp_bind.1 (splitRetry_spec full hgeo hraise h hfull hr hval)
  | cons u tl =>
    rw [if_neg (by rw [h.height, List.length_cons]; omega), wp_bind]
    have hav : key.Avoids (addrs tl) := h.avoids.mono fun a ha => addrs_tail (addrs_tail ha)
    refine (findLevel_spec h.keylen h.stack.tail h.occ.tail.nonempty_tail h.keyAt hav
      (by rw [h.height, List.length_cons]; omega)).imp ?_
    rintro a t1 ⟨u1, tl1, hf⟩
    have h1 := h.above hf
    obtain ⟨U, p, V, rfl, rfl, hp⟩ := hf.here
    have hraise := raise_spec (m := m) (P := P) (r := r) (Q := Q) hgeo he
      (ih ((U ++ p :: V) :: tl1) (by rw [List.length_cons, List.length_cons, hf.shape.length_eq]))
    refine wp_bind.1 ((rebalanceInsertParent_spec hgeo full hraise h1 hfull hr hp hval).imp ?_)
    exact fun _ t' hend => hend.after (spans_le_refl _)
      (List.Forall₂.cons (spans_le_sameShape hf.bottom) hf.shape)
      (hf.ext.mono fun _ ha => addrs_tail (addrs_tail ha)) hf.head

end Full

/-! ## The insertion -/

section Insertion

variable {geo : Geo} {t : Tree} {m : OrdMap Key Nat} {key : KeyPtr} {k : Key} {val v level fuel : Nat}
  {rest : List Level}

theorem insertLevelOnce_enters (geo : Geo) (fuel level : Nat) :
    Enters geo (insertLevelOnce geo (fuel + 2)) (insertRetryOnce geo (fuel + 1) false) level where
  grow {key val t Q} hval hl h := by
    rwa [insertLevelOnce, if_neg hval, Runs, wp_bind, wp_get, if_pos hl]
  stay {key val t Q} hval hl h := by
    rw [insertLevelOnce, if_neg hval, Runs, wp_bind, wp_get, if_neg (by omega), wp_bind, wp_pure]
    simpa only [ne_eq, not_true_eq_false, if_false] using h
  room key val := ⟨_, rfl⟩

theorem insertRetryOnce_eq :
    insertRetryOnce geo (fuel + 3) false key val level =
      (findLevel geo key level >>= fun node =>
        insertAt geo (rebalanceInsertCompact geo (insertLevelOnce geo (fuel + 2)) key node level >>=
          tryAgain geo (fun _ => throw .bug) key val level) key val node) :=
  rfl

/-- One level of the insertion, given the level above. -/
theorem insertsOnce_step (hgeo : geo.Ok)
    (ih : ∀ rest1 : List Level, rest1.length = rest.length → ∀ u tl, rest1 = u :: tl →
      InsertsBy geo (insertRetryOnce geo (fuel + 1) false) (level + 1) tl) :
    InsertsBy geo (insertRetryOnce geo (fuel + 3) false) level rest := by
  intro b t m key k val h hval
  rw [insertRetryOnce_eq]
  refine attempt_spec _ h hval ?_
  intro t1 P r Q rest1 hr1 h1 hfull hr
  exact rebalanceInsertCompact_spec hgeo (fun _ => throw Stop.bug)
    (insertLevelOnce_enters geo fuel _) (hr1 ▸ ih) h1 hfull hr hval

theorem insertRetryOnce_spec (hgeo : geo.Ok) (top : Nat) :
    ∀ n fuel level (rest : List Level), rest.length = n → 2 * n + 3 ≤ fuel → level + n < top →
      InsertsBy geo (insertRetryOnce geo fuel false) level rest :=
  insertsBy_levels (fun fuel => insertRetryOnce geo fuel false) top
    fun _ _ _ _ ih => insertsOnce_step hgeo ih

/-- With `AGGRESSIVE_COMPACTION` too the insertion of an absent key adds the pair, or runs out of
memory and adds nothing; no node is found full twice. -/
theorem btreeInsertOnce_spec (hgeo : geo.Ok) (h : Stores geo t m) (hk : k.length = geo.keylen)
    (habs : m.get k = none) (hv : v ≠ 0) :
    Runs (btreeInsertOnce geo (.ext k) v) (fun err t' =>
      (err = 0 ∧ Stores geo t' (m.insert k v) ∧ ∀ f ∈ t'.fails, f ∈ t.fails) ∨
      (err = -ENOMEM ∧ Stores geo t' m ∧ (∀ f ∈ t'.fails, f ∈ t.fails) ∧ true ∈ t.fails)) t := by
  unfold btreeInsertOnce fuelFor
  rw [Runs, wp_bind, wp_get]
  exact insert_stores hgeo (insertLevelOnce_enters geo (2 * t.height + 6) 1) (fun rest hlen =>
    insertRetryOnce_spec hgeo _ rest.length _ 1 rest rfl (by omega) (Nat.lt_succ_self _)) h hk habs hv

/-! ## Without the assertion -/

theorem rebalanceInsertRight_extends (geo : Geo) {ins ins' : KeyPtr → Nat → Nat → TreeM Int}
    (h : ∀ key val level t, Extends (ins key val level) (ins' key val level) t)
    (child level parent : Nat) (wp : Node) (childNo : Nat) (t : Tree) :
    Extends (rebalanceInsertRight geo ins child level parent wp childNo)
      (rebalanceInsertRight geo ins' child level parent wp childNo) t := by
  unfold rebalanceInsertRight
  exact .ite (.bind (.refl _ _) fun _ _ => .ite (.refl _ _) (split_extends h _ _ _))
    (split_extends h _ _ _)

theorem rebalanceInsertCompact_extends {ins ins' : KeyPtr → Nat → Nat → TreeM Int}
    (h : ∀ key val level t, Extends (ins key val level) (ins' key val level) t)
    (key : KeyPtr) (child level : Nat) (t : Tree) :
    Extends (rebalanceInsertCompact geo ins key child level)
      (rebalanceInsertCompact geo ins' key child level) t := by
  have hright := rebalanceInsertRight_extends geo h
  unfold rebalanceInsertCompact rebalanceInsertParent
  refine .bind (.refl _ _) fun _ _ => .ite (split_extends h _ _ _) (.bind (.refl _ _) fun _ _ => ?_)
  refine .bind (.refl _ _) fun _ _ => .bind (.refl _ _) fun _ _ => .ite (.refl _ _) (.ite ?_ ?_)
  · exact .bind (.refl _ _) fun _ _ => .ite (.refl _ _) (hright _ _ _ _ _ _)
  · exact hright _ _ _ _ _ _

/-- What the insertion with the assertion returns, the one without returns too. -/
theorem insertOnce_extends (geo : Geo) : ∀ fuel,
    (∀ key val level t, Extends (insertLevelOnce geo fuel key val level)
      (insertLevelCompact geo fuel key val level) t) ∧
    (∀ retried key val level t, Extends (insertRetryOnce geo fuel retried key val level)
      (insertRetryCompact geo fuel key val level) t) := by
  intro fuel
  induction fuel with
  | zero => exact ⟨fun _ _ _ t => .refl _ t, fun _ _ _ _ t => .throw Stop.fuel _ t⟩
  | succ fuel ih =>
    obtain ⟨hlevel, hretry⟩ := ih
    constructor
    · intro key val level t
      rw [insertLevelOnce, insertLevelCompact]
      have htry := fun err t => Extends.ite (c := err ≠ 0) (.refl (pure err) t)
        (hretry false key val level t)
      exact .ite (.refl _ _) (.bind (.refl _ _) fun _ _ =>
        .ite (.bind (.refl _ _) htry) (.bind (.refl _ _) htry))
    · intro retried key val level t
      rw [insertRetryOnce, insertRetryCompact]
      refine .bind (.refl _ _) fun _ _ => .bind (.refl _ _) fun _ _ => .bind (.refl _ _) fun _ _ =>
        .ite (.refl _ _) (.ite ?_ (.refl _ _))
      cases retried with
      | true => exact .throw _ _ _
      | false =>
        exact .bind (rebalanceInsertCompact_extends hlevel _ _ _ _) fun _ _ =>
          .ite (.refl _ _) (hretry _ _ _ _ _)

theorem btreeInsertOnce_extends (geo : Geo) (key : KeyPtr) (val : Nat) (t : Tree) :
    Extends (btreeInsertOnce geo key val) (btreeInsertCompact geo key val) t :=
  .bind (.refl _ _) fun t _ => (insertOnce_extends geo (fuelFor t.height)).1 _ _ _ _

end Insertion

/-! ## Both builds -/

/-- A call of the interface, or a visit of the pairs with a function of the caller. -/
inductive Request (σ : Type) where
  | call (op : Op)
  | visitor (opaqueArg : Int) (func : Visit → σ → σ) (func2 : Nat) (x : σ)
  | grimVisitor (opaqueArg : Int) (func : Visit → σ → σ) (func2 : Nat) (x : σ)

inductive Reply (σ : Type) where
  | result (r : Result)
  | walked (r : Walked σ)

/-- A call in the build whose `btree_insert` is `ins`. -/
def Op.runWith (geo : Geo) (ins : KeyPtr → Nat → TreeM Int) : Op → TreeM Result
  | .insert k v => .err <$> ins (.ext k) v
  | .remove k => (Op.remove k).run geo
  | .lookup k => (Op.lookup k).run geo
  | .last => Op.last.run geo

section Requests

variable {σ : Type}

def Request.run (geo : Geo) (ins : KeyPtr → Nat → TreeM Int) : Request σ → TreeM (Reply σ)
  | .call op => .result <$> op.runWith geo ins
  | .visitor a func func2 x => .walked <$> btreeVisitor geo a func func2 x
  | .grimVisitor a func func2 x => .walked <$> btreeGrimVisitor geo a func func2 x

def runRequests (geo : Geo) (ins : KeyPtr → Nat → TreeM Int) :
    List (Request σ) → TreeM (List (Reply σ))
  | [] => pure []
  | rq :: rqs => do
    let r ← rq.run geo ins
    let rs ← runRequests geo ins rqs
    pure (r :: rs)

/-- What a map answers. -/
def Op.answer (m : OrdMap Key Nat) : Op → Result
  | .insert _ _ => .err 0
  | .remove k => .val ((m.get k).getD 0)
  | .lookup k => .val ((m.get k).getD 0)
  | .last => .key (m.last.map Prod.fst)

/-- The map after a call. -/
def Op.after (m : OrdMap Key Nat) : Op → OrdMap Key Nat
  | .insert k v => m.insert k v
  | .remove k => m.erase k
  | .lookup _ => m
  | .last => m

/-- A visit gets the pairs from the greatest key down. -/
def Request.answer (m : OrdMap Key Nat) : Request σ → Reply σ
  | .call op => .result (op.answer m)
  | .visitor a func func2 x | .grimVisitor a func func2 x =>
    .walked (callAll (if func2 = 0 then empty else func) a func2 (0, x) m.entries)

def Request.after (m : OrdMap Key Nat) : Request σ → OrdMap Key Nat
  | .call op => op.after m
  | .visitor .. => m
  | .grimVisitor .. => OrdMap.empty

def Request.Allowed (geo : Geo) (m : OrdMap Key Nat) : Request σ → Prop
  | .call op => op.Allowed geo m.get
  | .visitor .. => True
  | .grimVisitor .. => True

/-- What a map answers to a sequence of requests. -/
def answers : OrdMap Key Nat → List (Request σ) → List (Reply σ)
  | _, [] => []
  | m, rq :: rqs => rq.answer m :: answers (rq.after m) rqs

def RequestsAllowed (geo : Geo) : OrdMap Key Nat → List (Request σ) → Prop
  | _, [] => True
  | m, rq :: rqs => rq.Allowed geo m ∧ RequestsAllowed geo (rq.after m) rqs

/-- `ins` adds an absent key, as long as no allocation fails. -/
def Adds (geo : Geo) (ins : KeyPtr → Nat → TreeM Int) : Prop :=
  ∀ ⦃t : Tree⦄ ⦃m : OrdMap Key Nat⦄ ⦃k : Key⦄ ⦃v : Nat⦄, Stores geo t m → k.length = geo.keylen →
    m.get k = none → v ≠ 0 → true ∉ t.fails →
    Runs (ins (.ext k) v)
      (fun err t' => err = 0 ∧ Stores geo t' (m.insert k v) ∧ true ∉ t'.fails) t

variable {geo : Geo} {t : Tree} {m : OrdMap Key Nat} {ins ins' : KeyPtr → Nat → TreeM Int}

theorem btreeInsert_adds (hgeo : geo.Ok) : Adds geo (btreeInsert geo) := by
  intro t m k v h hk habs hv hf
  refine (btreeInsert_spec hgeo h hk habs hv).imp ?_
  rintro err t' (⟨rfl, hs, hfs⟩ | ⟨-, -, -, hc⟩)
  · exact ⟨rfl, hs, fun hc => hf (hfs _ hc)⟩
  · exact absurd hc hf

theorem btreeInsertOnce_adds (hgeo : geo.Ok) : Adds geo (btreeInsertOnce geo) := by
  intro t m k v h hk habs hv hf
  refine (btreeInsertOnce_spec hgeo h hk habs hv).imp ?_
  rintro err t' (⟨rfl, hs, hfs⟩ | ⟨-, -, -, hc⟩)
  · exact ⟨rfl, hs, fun hc => hf (hfs _ hc)⟩
  · exact absurd hc hf

/-- One call is answered as by the map, in every build that adds absent keys. -/
theorem Op.runWith_spec (hgeo : geo.Ok) (hins : Adds geo ins) (op : Op) (h : Stores geo t m)
    (hf : true ∉ t.fails) (hop : op.Allowed geo m.get) :
    Runs (op.runWith geo ins)
      (fun r t' => r = op.answer m ∧ Stores geo t' (op.after m) ∧ true ∉ t'.fails) t := by
  cases op with
  | insert k v =>
    obtain ⟨hk, habs, hv⟩ := hop
    rw [Op.runWith, Runs, wp_map]
    refine (hins h hk habs hv hf).imp ?_
    rintro err t' ⟨rfl, hs, hf'⟩
    exact ⟨rfl, hs, hf'⟩
  | remove k =>
    obtain ⟨v, hv⟩ := Option.ne_none_iff_exists'.1 hop
    rw [Op.runWith, Op.run, Runs, wp_map]
    refine (btreeRemove_spec hgeo h hv).imp ?_
    rintro r t' ⟨rfl, hs, hfs⟩
    exact ⟨by rw [Op.answer, hv, Option.getD_some], hs, fun hc => hf (hfs _ hc)⟩
  | lookup k =>
    rw [Op.runWith, Op.run, Runs, wp_map]
    refine (btreeLookup_spec h hop).imp ?_
    rintro r _ ⟨rfl, rfl⟩
    exact ⟨rfl, h, hf⟩
  | last =>
    rw [Op.runWith, Op.run, Runs, wp_bind]
    refine (btreeLast_spec h).imp ?_
    rintro (_ | p) _ ⟨rfl, ho⟩
    · exact ⟨by rw [Op.answer, show m.last = none from ho]; rfl, h, hf⟩
    · obtain ⟨e, he, hp⟩ := ho
      simp only [wp_bind, wp_readKey hp, wp_pure]
      exact ⟨by rw [Op.answer, he]; rfl, h, hf⟩

/-- So is one request. -/
theorem Request.run_spec (hgeo : geo.Ok) (hins : Adds geo ins) (rq : Request σ) (h : Stores geo t m)
    (hf : true ∉ t.fails) (hrq : rq.Allowed geo m) :
    Runs (rq.run geo ins)
      (fun r t' => r = rq.answer m ∧ Stores geo t' (rq.after m) ∧ true ∉ t'.fails) t := by
  cases rq with
  | call op =>
    rw [Request.run, Runs, wp_map]
    refine (op.runWith_spec hgeo hins h hf hrq).imp ?_
    rintro r t' ⟨rfl, hs, hf'⟩
    exact ⟨rfl, hs, hf'⟩
  | visitor a func func2 x =>
    rw [Request.run, Runs, wp_map]
    refine (btreeVisitor_spec h).imp ?_
    rintro r _ ⟨rfl, rfl⟩
    exact ⟨rfl, h, hf⟩
  | grimVisitor a func func2 x =>
    rw [Request.run, Runs, wp_map]
    refine (btreeGrimVisitor_spec h).imp ?_
    rintro r t' ⟨rfl, -, -, hfs, hs⟩
    exact ⟨rfl, hs, hfs ▸ hf⟩

/-- A sequence of requests is answered as by the map. -/
theorem runRequests_spec (hgeo : geo.Ok) (hins : Adds geo ins) (rqs : List (Request σ)) :
    ∀ {t : Tree} {m : OrdMap Key Nat}, Stores geo t m → true ∉ t.fails →
      RequestsAllowed geo m rqs → Runs (runRequests geo ins rqs) (fun rs _ => rs = answers m rqs) t := by
  induction rqs with
  | nil => exact fun _ _ _ => rfl
  | cons rq rqs ih =>
    intro t m h hf hrqs
    rw [runRequests]
    refine (rq.run_spec hgeo hins h hf hrqs.1).bind ?_
    rintro r t1 ⟨rfl, h1, hf1⟩
    refine (ih h1 hf1 hrqs.2).bind ?_
    rintro rs t2 rfl
    rfl

theorem Request.run_extends (h : ∀ key val t, Extends (ins key val) (ins' key val) t)
    (rq : Request σ) (t : Tree) : Extends (rq.run geo ins) (rq.run geo ins') t := by
  cases rq with
  | call op =>
    cases op with
    | insert k v => exact .map (.map (h _ _ _) _) _
    | remove k => exact .refl _ _
    | lookup k => exact .refl _ _
    | last => exact .refl _ _
  | visitor a func func2 x => exact .refl _ _
  | grimVisitor a func func2 x => exact .refl _ _

theorem runRequests_extends (h : ∀ key val t, Extends (ins key val) (ins' key val) t) :
    ∀ (rqs : List (Request σ)) (t : Tree),
      Extends (runRequests geo ins rqs) (runRequests geo ins' rqs) t := by
  intro rqs
  induction rqs with
  | nil => exact fun _ => .refl _ _
  | cons rq rqs ih =>
    exact fun t => .bind (rq.run_extends h t) fun _ t1 => .bind (ih t1) fun _ _ => .refl _ _

/-- The builds with and without `AGGRESSIVE_COMPACTION` are the same map: from `btree_init` on, with
no failing allocation, they return the same and hand the same pairs to the visitors in the same
order.  Nor does any assertion of the compacting build fail, and no node is full when the insertion
is tried again. -/
theorem builds_agree (geo : Geo) (hgeo : 4 ≤ geo.noPairs) (rqs : List (Request σ))
    (hrqs : RequestsAllowed geo OrdMap.empty rqs) (fails fails' : List Bool) (hf : true ∉ fails)
    (hf' : true ∉ fails') :
    ∃ rs t t', rs = answers OrdMap.empty rqs ∧
      runRequests geo (btreeInsert geo) rqs (btreeInit fails) = .ok rs t ∧
      runRequests geo (btreeInsertCompact geo) rqs (btreeInit fails') = .ok rs t' ∧
      runRequests geo (btreeInsertOnce geo) rqs (btreeInit fails') = .ok rs t' := by
  obtain ⟨rs, t, hrun, rfl⟩ := (runRequests_spec ⟨hgeo⟩ (btreeInsert_adds ⟨hgeo⟩) rqs
    (stores_init geo fails) hf hrqs).ok
  obtain ⟨rs', t', hrun', rfl⟩ := (runRequests_spec ⟨hgeo⟩ (btreeInsertOnce_adds ⟨hgeo⟩) rqs
    (stores_init geo fails') hf' hrqs).ok
  exact ⟨_, t, t', rfl, hrun, runRequests_extends (btreeInsertOnce_extends geo) rqs _ _ _ hrun',
    hrun'⟩

/-- Seven keys, the last of which makes a full leaf give a pair to its neighbour. -/
theorem builds_agree_seven_keys :
    ∃ t t', runRequests ⟨1, 4⟩ (btreeInsert ⟨1, 4⟩)
        ([1, 2, 3, 4, 5, 6, 7].map (fun k => .call (.insert [k] k)) ++
          [.visitor 0 (fun v l => l ++ [v.key]) 9 []]) (btreeInit []) =
        .ok (List.replicate 7 (.result (.err 0)) ++
          [.walked (7, [[7], [6], [5], [4], [3], [2], [1]])]) t ∧
      runRequests ⟨1, 4⟩ (btreeInsertCompact ⟨1, 4⟩)
        ([1, 2, 3, 4, 5, 6, 7].map (fun k => .call (.insert [k] k)) ++
          [.visitor 0 (fun v l => l ++ [v.key]) 9 []]) (btreeInit []) =
        .ok (List.replicate 7 (.result (.err 0)) ++
          [.walked (7, [[7], [6], [5], [4], [3], [2], [1]])]) t' := by
  obtain ⟨rs, t, t', rfl, hrun, hrun', -⟩ := builds_agree ⟨1, 4⟩ (by decide)
    ([1, 2, 3, 4, 5, 6, 7].map (fun k => .call (.insert [k] k)) ++
      [.visitor 0 (fun v (l : List Key) => l ++ [v.key]) 9 []])
    (by simp [RequestsAllowed, Request.Allowed, Op.Allowed, Request.after, Op.after, OrdMap.get,
      OrdMap.insert, OrdMap.empty]) [] [] (by simp) (by simp)
  exact ⟨t, t', hrun, hrun'⟩

end Requests

end Logfs.Btree
