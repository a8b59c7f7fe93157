import Logfs.Btree.Find

/-!
# Insertion

`btree_insert_level` at a level either fails for want of memory, leaving the
pairs of the level as they were, or adds its pair to the level.  A full node is
split first: the split inserts the separator of the new node one level up,
through the same function, then moves the upper half of the pairs into it.  The
induction is on the number of levels above; seen from a level, the insertion
above is one more pair between the kids.
-/

namespace Logfs.Btree

open Levels

/-- Every node holds at least two pairs, a root alone in its stack at least `m`. -/
def Occ (m : Nat) (ls : List Level) : Prop :=
  ∀ l ∈ ls, ∀ r ∈ l, (if ls.length = 1 then m else 2) ≤ r.es.length

/-- The pair `(k, v)` was added at the level `b` of the stack `b :: rest`. -/
structure Inserted (geo : Geo) (m : Nat) (k : Key) (v level : Nat) (b : Level) (rest : List Level)
    (t t' : Tree) (b' : Level) (rest' : List Level) : Prop where
  stack : Stack geo t' (b' :: rest')
  kids : KidsIns k v (kids b) (kids b')
  old : ∀ a ∈ addrs (b' :: rest'), a ∈ addrs (b :: rest) ∨ t.next ≤ a
  ext : Ext (addrs (b :: rest)) t t'
  height : t'.height = level + rest'.length
  occ : Occ m (b' :: rest')

/-- An insertion that failed for want of memory changed separators only. -/
structure Unchanged (geo : Geo) (b : Level) (rest : List Level) (t t' : Tree) (b' : Level)
    (rest' : List Level) : Prop where
  stack : Stack geo t' (b' :: rest')
  bottom : List.Forall₂ Span.Le b b'
  shape : List.Forall₂ (List.Forall₂ SameShape) rest rest'
  ext : Ext (addrs (b :: rest)) t t'
  height : t'.height = t.height
  failed : true ∈ t.fails

/-- The pair `(k, v)` was placed in a node of the level `b`, without a split. -/
structure Placed (geo : Geo) (k : Key) (v : Nat) (b : Level) (rest : List Level) (t t' : Tree)
    (b' : Level) (rest' : List Level) : Prop where
  stack : Stack geo t' (b' :: rest')
  kids : KidsIns k v (kids b) (kids b')
  addr : b.map Span.addr = b'.map Span.addr
  grows : List.Forall₂ (fun r r' : Span Key => r.es.length ≤ r'.es.length) b b'
  used : ∃ r ∈ b', 1 ≤ r.es.length
  shape : List.Forall₂ (List.Forall₂ SameShape) rest rest'
  ext : Ext (addrs (b :: rest)) t t'
  head : SameHead t t'

/-! ## Occupancy -/

section Occ

variable {m : Nat} {b b' : Level} {rest rest' : List Level}

theorem Occ.nonempty_tail (h : Occ m (b :: rest)) : ∀ l ∈ rest, ∀ r ∈ l, r.es ≠ [] := by
  intro l hl r hr hc
  have := h l (List.mem_cons_of_mem _ hl) r hr
  cases rest with
  | nil => simp at hl
  | cons u rest => simp [hc] at this

theorem Occ.of_bottom_le (h : Occ m (b :: rest))
    (hb : ∀ r' ∈ b', ∃ r ∈ b, r.es.length ≤ r'.es.length)
    (hrest : List.Forall₂ (List.Forall₂ SameShape) rest rest') : Occ m (b' :: rest') := by
  intro l hl r hr
  have hlen : (b' :: rest').length = (b :: rest).length := by
    rw [List.length_cons, List.length_cons, hrest.length_eq]
  rw [hlen]
  rcases List.mem_cons.1 hl with rfl | hl
  · obtain ⟨s, hs, hle⟩ := hb r hr
    have := h b List.mem_cons_self s hs
    split_ifs at this ⊢ <;> omega
  · obtain ⟨l', hl', hll⟩ := forall₂_mem_right hrest hl
    obtain ⟨s, hs, hsr⟩ := forall₂_mem_right hll hr
    rw [← hsr.length]
    exact h l' (List.mem_cons_of_mem _ hl') s hs

theorem Occ.of_shape (h : Occ m (b :: rest)) (hb : List.Forall₂ SameShape b b')
    (hrest : List.Forall₂ (List.Forall₂ SameShape) rest rest') : Occ m (b' :: rest') := by
  refine h.of_bottom_le (fun r' hr' => ?_) hrest
  obtain ⟨r, hr, hrr⟩ := forall₂_mem_right hb hr'
  exact ⟨r, hr, le_of_eq hrr.length⟩

end Occ

/-! ## A node with room -/

section Room

variable {geo : Geo} {t : Tree} {b : Level} {rest : List Level} {key : KeyPtr} {k : Key}
  {val level fuel m : Nat}

/-- `btree_insert_level` from the node it has found. -/
def insertBody (geo : Geo) (fuel : Nat) (key : KeyPtr) (val level node : Nat) : TreeM Int := do
  let k ← readKey geo key
  let w ← load node
  let pos := getpos geo w k
  let fill := getfill geo w pos
  if pos < fill ∧ keycmp geo w pos k = 0 then throw .bug
  else if fill = geo.noPairs then do
    let err ← rebalanceInsert geo (btreeInsertLevel geo fuel) node level
    if err ≠ 0 then pure err
    else btreeInsertRetry geo fuel key val level
  else if fill ≥ geo.noPairs then throw .bug
  else do
    store node (setval geo (setkey geo (shiftInsert geo w pos fill) k pos) val pos)
    pure 0

theorem btreeInsertRetry_eq :
    btreeInsertRetry geo (fuel + 1) key val level =
      findLevel geo key level >>= insertBody geo fuel key val level :=
  rfl

/-- The same, where `full` is what is done with a full node. -/
def insertAt (geo : Geo) (full : TreeM Int) (key : KeyPtr) (val node : Nat) : TreeM Int := do
  let k ← readKey geo key
  let w ← load node
  let pos := getpos geo w k
  let fill := getfill geo w pos
  if pos < fill ∧ keycmp geo w pos k = 0 then throw .bug
  else if fill = geo.noPairs then full
  else if fill ≥ geo.noPairs then throw .bug
  else do
    store node (setval geo (setkey geo (shiftInsert geo w pos fill) k pos) val pos)
    pure 0

theorem insertBody_eq (node : Nat) :
    insertBody geo fuel key val level node =
      insertAt geo (split geo (btreeInsertLevel geo fuel) node level >>= fun err =>
        if err ≠ 0 then pure err else btreeInsertRetry geo fuel key val level) key val node :=
  rfl

variable {P Q : Level} {r : Span Key} {full : TreeM Int}

/-- Where an absent key belongs among the pairs of a node. -/
theorem exists_split_absent {es : Entries} (hs : es.Pairwise fun a b => b.1 < a.1) (k : Key)
    (habs : ∀ e ∈ es, e.1 ≠ k) :
    ∃ A B, es = A ++ B ∧ (∀ e ∈ A, k < e.1) ∧ ∀ e ∈ B, e.1 < k := by
  obtain ⟨A, B, rfl, hA, hB⟩ := exists_split hs k
  exact ⟨A, B, rfl, hA, fun e he => lt_of_le_of_ne (hB e he) (habs e (by simp [he]))⟩

/-- The searches of the insertion in a node that does not hold the key. -/
theorem insertBody_search {w : Node} {A B : Entries} (hrep : Rep geo w (A ++ B))
    (hk : k.length = geo.keylen) (hA : ∀ e ∈ A, k < e.1) (hB : ∀ e ∈ B, e.1 < k) :
    getpos geo w k = A.length ∧ getfill geo w A.length = (A ++ B).length ∧
      ¬ (A.length < (A ++ B).length ∧ keycmp geo w A.length k = 0) := by
  refine ⟨hrep.getpos hk hA fun e he => le_of_lt (hB e (List.mem_of_mem_head? he)),
    hrep.getfill (by simp), ?_⟩
  rintro ⟨hlt, hcmp⟩
  rw [keycmp, longcmp_eq_zero (by simp [hk])] at hcmp
  cases B with
  | nil => simp at hlt
  | cons e B =>
    rw [hrep.bkey_append] at hcmp
    exact absurd hcmp (ne_of_lt (hB e (by simp)))

theorem insertAt_room (h : Stack geo t ((P ++ r :: Q) :: rest)) (hr : r.rng k)
    (habs : ∀ e ∈ r.es, e.1 ≠ k) (hroom : r.es.length < geo.noPairs) (hkey : KeyAt geo t key k)
    (hk : k.length = geo.keylen) (hval : val ≠ 0) :
    Runs (insertAt geo full key val r.addr) (fun err t' => err = 0 ∧
      ∃ r' : Span Key, Stack geo t' ((P ++ r' :: Q) :: rest) ∧ r'.addr = r.addr ∧
        r'.es.length = r.es.length + 1 ∧
        KidsIns k val (kids (P ++ r :: Q)) (kids (P ++ r' :: Q)) ∧
        Ext [r.addr] t t' ∧ SameHead t t') t := by
  have hold := h.bottom_holds r (by simp)
  obtain ⟨w, hw, hrep⟩ := hold.words
  obtain ⟨A, B, hes, hA, hB⟩ := exists_split_absent hold.ok.sorted k habs
  rw [hes] at hrep hroom
  obtain ⟨hpos, hfill, hdup⟩ := insertBody_search hrep hk hA hB
  have hins := hrep.insert hroom (e := (k, val)) ⟨hk, hval⟩
  unfold insertAt
  simp only [Runs, wp_bind, wp_readKey hkey, wp_load hw, hpos, hfill, if_neg hdup]
  rw [if_neg (by omega), if_neg (by omega), wp_bind, wp_store hw]
  refine ⟨rfl, ⟨r.addr, r.rng, A ++ (k, val) :: B⟩, h.store_bottom rfl (fun _ hx => hx) hins ?_, rfl,
    by rw [hes]; simp; omega, ?_, Ext.store _ _ _, ⟨rfl, rfl, rfl, rfl⟩⟩
  · have hs := hold.ok.sorted
    rw [hes] at hs
    obtain ⟨hsA, hsB, hAB⟩ := List.pairwise_append.1 hs
    refine ⟨List.pairwise_append.2 ⟨hsA, List.pairwise_cons.2 ⟨hB, hsB⟩, ?_⟩, ?_⟩
    · intro x hx y hy
      rcases List.mem_cons.1 hy with rfl | hy
      · exact hA x hx
      · exact hAB x hx y hy
    · intro x hx
      simp only [List.mem_append, List.mem_cons] at hx
      rcases hx with hx | rfl | hx
      · exact hold.ok.inRng x (by rw [hes]; simp [hx])
      · exact hr
      · exact hold.ok.inRng x (by rw [hes]; simp [hx])
  · refine ⟨kids P, r.rng, A, B, kids Q, ?_, ?_, hr, hA, hB⟩
    · rw [kids_append, kids_cons, hes, List.append_assoc]
      exact KidsLe.refl _
    · rw [kids_append, kids_cons, List.append_assoc]
      exact KidsLe.refl _

/-- With room in the node found, the insertion ends there. -/
theorem Found.insertRoom {t1 : Tree} {b1 : Level} {rest1 : List Level} {a : Nat}
    (hf : Found geo t k b rest a t1 b1 rest1) (habs : ∀ e ∈ b.flatMap Span.es, e.1 ≠ k)
    (hroom : ∀ r ∈ b1, r.rng k → r.es.length < geo.noPairs) (hkey : KeyAt geo t key k)
    (hav : key.Avoids (addrs rest)) (hk : k.length = geo.keylen) (hval : val ≠ 0) :
    Runs (insertAt geo full key val a)
      (fun err t' => err = 0 ∧ ∃ b' rest', Placed geo k val b rest t t' b' rest') t1 := by
  obtain ⟨P, r, Q, rfl, rfl, hr⟩ := hf.here
  have hrmem : r ∈ P ++ r :: Q := by simp
  have habs1 : ∀ e ∈ r.es, e.1 ≠ k := by
    intro e he
    refine habs e ?_
    rw [spans_le_entries hf.bottom]
    exact List.mem_flatMap.2 ⟨r, hrmem, he⟩
  have hkey1 := hkey.ext hf.ext hav
  refine (insertAt_room hf.stack hr habs1 (hroom r hrmem hr) hkey1 hk hval).imp ?_
  rintro err t2 ⟨rfl, r', hst, ha, hl, hkids, hext, hhead⟩
  have haddrs := sameShape_map_addr (spans_le_sameShape hf.bottom)
  refine ⟨rfl, P ++ r' :: Q, rest1, hst, hkids.of_le (spans_le_kids hf.bottom), ?_, ?_,
    ⟨r', by simp, by omega⟩, hf.shape, ?_, hf.head.trans hhead⟩
  · rw [haddrs]; simp [ha]
  · obtain ⟨c, s, d, rfl, hc, hs, hd⟩ := forall₂_split_cons hf.bottom.flip
    refine forall₂_append (hc.flip.imp fun _ _ h => le_of_eq (by rw [h.es]))
      (List.Forall₂.cons ?_ (hd.flip.imp fun _ _ h => le_of_eq (by rw [h.es])))
    rw [hs.es]
    omega
  · refine (hf.ext.mono fun a ha => addrs_tail ha).trans hext fun a ha => Or.inl ?_
    rw [List.mem_singleton] at ha
    subst ha
    rw [addrs_cons, haddrs]
    simp

/-- The insertion at a level none of whose candidate nodes is full. -/
theorem insertRoom_spec (full : Nat → TreeM Int) (h : Stack geo t (b :: rest))
    (hocc : ∀ l ∈ rest, ∀ r ∈ l, r.es ≠ []) (habs : ∀ e ∈ b.flatMap Span.es, e.1 ≠ k)
    (hroom : ∀ b1, List.Forall₂ Span.Le b b1 → Apart b1 → ∀ r ∈ b1, r.rng k →
      r.es.length < geo.noPairs)
    (hkey : KeyAt geo t key k) (hav : key.Avoids (addrs rest)) (hk : k.length = geo.keylen)
    (hval : val ≠ 0) (hlen : t.height = level + rest.length) :
    Runs (findLevel geo key level >>= fun node => insertAt geo (full node) key val node)
      (fun err t' => err = 0 ∧ ∃ b' rest', Placed geo k val b rest t t' b' rest') t := by
  refine (findLevel_spec hk h hocc hkey hav hlen).bind ?_
  rintro a t1 ⟨b1, rest1, hf⟩
  exact hf.insertRoom habs (hroom b1 hf.bottom hf.stack.apart) hkey hav hk hval

theorem Placed.inserted {b' : Level} {rest' : List Level} {t' : Tree}
    (h : Placed geo k val b rest t t' b' rest') (hocc : Occ m (b :: rest))
    (hlen : t.height = level + rest.length) :
    Inserted geo m k val level b rest t t' b' rest' where
  stack := h.stack
  kids := h.kids
  old a ha := by
    rw [addrs_cons, ← h.addr, ← sameShape_addrs h.shape, ← addrs_cons] at ha
    exact Or.inl ha
  ext := h.ext
  height := by rw [h.head.height, hlen, h.shape.length_eq]
  occ := by
    refine hocc.of_bottom_le (fun r' hr' => ?_) h.shape
    obtain ⟨r, hr, hle⟩ := forall₂_mem_right h.grows hr'
    exact ⟨r, hr, hle⟩

/-- A root with one pair has two after the insertion. -/
theorem Placed.root_occ {r : Span Key} {e : Key × Nat} {t' : Tree} {b' : Level}
    {rest' : List Level} (h : Placed geo k val [r] [] t t' b' rest') (hes : r.es = [e]) :
    Occ 2 (b' :: rest') := by
  obtain rfl : rest' = [] := by cases h.shape; rfl
  obtain ⟨s, rfl, -⟩ := h.stack.linked
  obtain ⟨A, B, h1, h2⟩ := h.kids.entries
  simp only [kids_entries, List.flatMap_cons, List.flatMap_nil, List.append_nil, hes] at h1 h2
  intro l hl r' hr'
  rw [List.mem_singleton] at hl
  subst hl
  rw [List.mem_singleton] at hr'
  subst hr'
  have := congrArg List.length h1
  simp only [List.length_append, List.length_singleton] at this
  simp only [h2, List.length_append, List.length_cons, ite_self]
  omega

end Room

/-! ## Splitting a node -/

/-- The separator `mid` of a new node was inserted above the level `P ++ r :: Q`.  When the
tree grew for it, the range of `r` has shrunk to the keys the new root admits. -/
structure Raised (geo : Geo) (mid : Key) (new level : Nat) (P : Level) (r : Span Key) (Q : Level)
    (rest : List Level) (t t' : Tree) (r1 : Span Key) (u : Level) (tl : List Level) : Prop where
  stack : Stack geo t' (u :: tl)
  addr : r1.addr = r.addr
  es : r1.es = r.es
  shrink : ∀ x, r1.rng x → r.rng x
  keep : ∀ e ∈ r.es, ∀ x, r.rng x → e.1 ≤ x → r1.rng x
  here : (∀ x, r.rng x → r1.rng x) ∨ P = [] ∧ Q = []
  links : ∃ cs, List.Forall₂ Link cs (P ++ r1 :: Q) ∧ KidsIns mid new cs (kids u)
  old : ∀ a ∈ addrs (u :: tl), a ∈ addrs rest ∨ t.next ≤ a
  ext : Ext (addrs rest) t t'
  height : t'.height = level + 1 + tl.length
  occ : Occ 2 (u :: tl)

/-- The address `new` was allocated and is no node of the levels `ls`. -/
structure Fresh (t : Tree) (new : Nat) (ls : List Level) : Prop where
  pos : 0 < new
  lt : new < t.next
  ne : ∀ a ∈ addrs ls, a ≠ new

/-- A full node, cut after the pair `(mid, v)`. -/
structure Halves (geo : Geo) (r : Span Key) (A : Entries) (mid : Key) (v : Nat) (B : Entries) :
    Prop where
  es : r.es = A ++ (mid, v) :: B
  half : A.length + 1 = geo.noPairs / 2
  full : r.es.length = geo.noPairs

/-- The parts of a split: the pairs of the two halves, the tree when the new node was allocated and
when the separator was inserted, the node and the levels above it then, and the words of the right
and the left half. -/
structure SplitParts where
  A : Entries
  mid : Key
  v : Nat
  B : Entries
  allocated : Tree
  inserted : Tree
  node : Span Key
  above : Level
  top : List Level
  wright : Node
  wleft : Node

/-- The node `r` was split. -/
structure IsSplit (geo : Geo) (level : Nat) (P : Level) (r : Span Key) (Q : Level)
    (rest : List Level) (t t' : Tree) (p : SplitParts) : Prop where
  half : Halves geo r p.A p.mid p.v p.B
  alloc : Ext [] t p.allocated
  stack : Stack geo p.allocated ((P ++ r :: Q) :: rest)
  fresh : Fresh p.allocated t.next ((P ++ r :: Q) :: rest)
  raised : Raised geo p.mid t.next level P r Q rest p.allocated p.inserted p.node p.above p.top
  left : Rep geo p.wleft (p.A ++ [(p.mid, p.v)])
  right : Rep geo p.wright p.B
  done : t' = { p.inserted with
    mem := Function.update (Function.update p.inserted.mem t.next (some p.wleft)) r.addr
      (some p.wright) }

/-- The left node of a split. -/
def splitLeft (r1 : Span Key) (mid : Key) (new : Nat) (A : Entries) : Span Key :=
  ⟨new, fun x => r1.rng x ∧ mid ≤ x, A⟩

/-- The right node of a split. -/
def splitRight (r1 : Span Key) (mid : Key) (B : Entries) : Span Key :=
  ⟨r1.addr, fun x => r1.rng x ∧ x < mid, B⟩

section Split

variable {geo : Geo} {t t' : Tree} {P Q u : Level} {r r1 : Span Key} {rest tl : List Level}
  {mid : Key} {new level v : Nat} {A B : Entries} {w wnew : Node}

/-- The kids of a split node are those of the two halves. -/
theorem Raised.kids (h : Raised geo mid new level P r Q rest t t' r1 u tl)
    (hes : r.es = A ++ (mid, v) :: B) (hs : r.es.Pairwise fun a b => b.1 < a.1) :
    KidsLe (kids (P ++ r :: Q))
      (Levels.kids (P ++ splitLeft r1 mid new (A ++ [(mid, v)]) :: splitRight r1 mid B :: Q)) := by
  have hes' : r.es = (A ++ [(mid, v)]) ++ B := by simp [hes]
  have hA : ∀ e ∈ A ++ [(mid, v)], mid ≤ e.1 :=
    last_le (List.pairwise_append.1 (hes' ▸ hs)).1
  simp only [kids_append, kids_cons, splitLeft, splitRight]
  refine (KidsLe.refl _).append ?_
  rw [← List.append_assoc]
  refine KidsLe.append ?_ (KidsLe.refl _)
  refine KidsLe.trans (kidsOf_le h.keep) ?_
  rw [hes']
  exact kidsOf_cut hA ⟨(mid, v), by simp, rfl⟩

/-- The two halves in memory, below the level that received the separator. -/
theorem Raised.split (h : Raised geo mid new level P r Q rest t t' r1 u tl)
    (hst : Stack geo t ((P ++ r :: Q) :: rest)) (hes : r.es = A ++ (mid, v) :: B)
    (hnew : Fresh t new ((P ++ r :: Q) :: rest)) (hwnew : Rep geo wnew (A ++ [(mid, v)]))
    (hw : Rep geo w B) :
    Stack geo { t' with mem := Function.update (Function.update t'.mem new (some wnew)) r.addr
                                (some w) }
      ((P ++ splitLeft r1 mid new (A ++ [(mid, v)]) :: splitRight r1 mid B :: Q) :: u :: tl) := by
  set t'' : Tree := { t' with mem := Function.update (Function.update t'.mem new (some wnew)) r.addr
                                (some w) } with ht''
  have hrmem : r ∈ P ++ r :: Q := by simp
  have hrnew : r.addr ≠ new := hnew.ne _ (addr_mem_addrs hrmem)
  have hlt := hnew.lt
  have hext : Ext [new, r.addr] t' t'' := by
    refine ⟨Nat.le_refl _, fun a ha _ => ?_, fun _ hf => hf⟩
    simp only [List.mem_cons, List.not_mem_nil, or_false, not_or] at ha
    rw [ht'']
    simp [Function.update_of_ne ha.1, Function.update_of_ne ha.2]
  -- neither half is a node of a level above
  have habove : ∀ a ∈ [new, r.addr], a ∉ addrs (u :: tl) := by
    intro a ha hc
    simp only [List.mem_cons, List.not_mem_nil, or_false] at ha
    rcases h.old a hc with ho | ho
    · rcases ha with rfl | rfl
      · exact hnew.ne a (addrs_tail ho) rfl
      · exact hst.bottom_not_mem hrmem ho
    · rcases ha with rfl | rfl
      · omega
      · have := (hst.bottom_live hrmem).2
        omega
  have hup := h.stack.frame hext habove rfl
  have hold := hst.bottom_holds r hrmem
  have hsorted := hold.ok.sorted
  rw [hes] at hsorted
  obtain ⟨hsA, hsB, hAB⟩ := List.pairwise_append.1 hsorted
  have hkeep : ∀ e ∈ r.es, r1.rng e.1 := fun e he =>
    h.keep e he e.1 (hold.ok.inRng e he) (le_refl _)
  have hmid : r.rng mid := hold.ok.inRng (mid, v) (by simp [hes])
  have hmid1 : r1.rng mid := hkeep (mid, v) (by simp [hes])
  obtain ⟨cs, hcs, hins⟩ := h.links
  have hlinks := hins.links h.stack.apart.kids hcs hmid1
    (show (splitLeft r1 mid new (A ++ [(mid, v)])).addr = new from rfl)
    (show (splitRight r1 mid B).addr = r1.addr from rfl) (fun x hx => hx) (fun x hx => hx)
  have hleft : Holds geo t'' (splitLeft r1 mid new (A ++ [(mid, v)])) := by
    refine ⟨⟨wnew, ?_, hwnew⟩, ?_, ?_⟩
    · simp [ht'', splitLeft, Function.update_of_ne hrnew.symm]
    · refine List.pairwise_append.2 ⟨hsA, List.pairwise_singleton _ _, fun x hx y hy => ?_⟩
      rw [List.mem_singleton] at hy
      subst hy
      exact hAB x hx _ (by simp)
    · intro e he
      refine ⟨hkeep e ?_, ?_⟩
      · rw [hes]
        rcases List.mem_append.1 he with he | he
        · simp [he]
        · simp_all
      · rcases List.mem_append.1 he with he | he
        · exact le_of_lt (hAB e he (mid, v) (by simp))
        · rw [List.mem_singleton] at he
          subst he
          exact le_refl _
  have hright : Holds geo t'' (splitRight r1 mid B) := by
    refine ⟨⟨w, by simp [ht'', splitRight, h.addr], hw⟩, (List.pairwise_cons.1 hsB).2, ?_⟩
    intro e he
    exact ⟨hkeep e (by simp [hes, show e ∈ B from he]), (List.pairwise_cons.1 hsB).1 e he⟩
  have hother : ∀ s ∈ P ++ Q, Holds geo t'' s ∧ s.addr ∉ [new, r.addr] ∧
      s.addr ∉ addrs (u :: tl) ∧ 0 < s.addr ∧ s.addr < t''.next := by
    intro s hs
    have hsm : s ∈ P ++ r :: Q := by
      simp only [List.mem_append, List.mem_cons] at hs ⊢
      tauto
    have hsne : s.addr ∉ [new, r.addr] := by
      simpa using ⟨hnew.ne _ (addr_mem_addrs hsm), hst.addr_ne hs⟩
    have hlive := hst.bottom_live hsm
    have hnext := h.ext.next_le
    refine ⟨((hst.bottom_holds s hsm).ext h.ext (hst.bottom_not_mem hsm) hlive.2).ext hext hsne
      (by omega), hsne, fun hc => ?_, hlive.1, Nat.lt_of_lt_of_le hlive.2 hnext⟩
    rcases h.old _ hc with ho | ho
    · exact hst.bottom_not_mem hsm ho
    · omega
  have hmem : ∀ s ∈ P ++ splitLeft r1 mid new (A ++ [(mid, v)]) :: splitRight r1 mid B :: Q,
      s ∈ P ++ Q ∨ s = splitLeft r1 mid new (A ++ [(mid, v)]) ∨ s = splitRight r1 mid B := by
    intro s hs
    simp only [List.mem_append, List.mem_cons] at hs ⊢
    tauto
  have hnext := h.ext.next_le
  have hrlive := hst.bottom_live hrmem
  refine hup.cons hlinks ?_ ?_ ?_ ?_
  · intro s hs
    rcases hmem s hs with hs | rfl | rfl
    · exact (hother s hs).1
    · exact hleft
    · exact hright
  · have hnd := hst.bottom_nodup
    rw [List.map_append, List.map_cons, List.nodup_middle, List.nodup_cons, ← List.map_append] at hnd
    simp only [List.map_append, List.map_cons, splitLeft, splitRight, h.addr]
    rw [List.nodup_middle, List.nodup_cons, List.nodup_middle, List.nodup_cons, ← List.map_append]
    refine ⟨?_, hnd⟩
    simp only [List.mem_append, List.mem_cons, List.mem_map]
    rintro (⟨s, hs, he⟩ | he | ⟨s, hs, he⟩)
    · exact hnew.ne s.addr (addr_mem_addrs (by simp [hs])) he
    · exact hrnew he.symm
    · exact hnew.ne s.addr (addr_mem_addrs (by simp [hs])) he
  · intro s hs
    rcases hmem s hs with hs | rfl | rfl
    · exact (hother s hs).2.2.1
    · exact habove new (by simp)
    · exact habove r1.addr (by simp [h.addr])
  · intro s hs
    rcases hmem s hs with hs | rfl | rfl
    · exact (hother s hs).2.2.2
    · exact ⟨hnew.pos, Nat.lt_of_lt_of_le hlt hnext⟩
    · exact ⟨h.addr ▸ hrlive.1, h.addr ▸ Nat.lt_of_lt_of_le hrlive.2 hnext⟩

end Split

/-! ## Growing the tree -/

section Grow

variable {geo : Geo} {t : Tree} {r : Span Key}

theorem rep_root {k : Key} {v : Nat} (hgeo : geo.Ok) (hk : k.length = geo.keylen) (hv : v ≠ 0) :
    Rep geo (setval geo (setkey geo zeroNode k 0) v 0) [(k, v)] :=
  Rep.insert (A := []) (B := []) (e := (k, v)) Rep.zero (by have := hgeo.four_le; simp; omega)
    ⟨hk, hv⟩

/-- `btree_grow` over a root puts a root with one pair above it. -/
theorem btreeGrow_spec (hgeo : geo.Ok) {A : Entries} {last : Key} {v : Nat}
    (h : Stack geo t [[r]]) (hes : r.es = A ++ [(last, v)]) :
    Runs (btreeGrow geo) (fun err t' =>
      (err = -ENOMEM ∧ true ∈ t.fails ∧ Stack geo t' [[r]] ∧ Ext [] t t' ∧ t'.height = t.height) ∨
      (err = 0 ∧ Stack geo t' [[⟨r.addr, fun x => r.rng x ∧ last ≤ x, r.es⟩],
          [⟨t.next, fun _ => True, [(last, r.addr)]⟩]] ∧
        Ext [] t t' ∧ t'.height = t.height + 1 ∧ t'.next = t.next + 1)) t := by
  have hold := h.bottom_holds r (by simp)
  have hlive := h.bottom_live (r := r) (by simp)
  obtain ⟨-, -, hroot⟩ := Stack.root_alone (P := []) (Q := []) h
  obtain ⟨w, hw, hrep⟩ := hold.words
  unfold btreeGrow
  rw [Runs, wp_bind]
  apply wp_alloc
  · intro fs hfs
    refine Or.inl ⟨rfl, by simp [hfs], ?_, ?_, rfl⟩
    · exact h.of_eq rfl rfl (Nat.le_refl _)
    · exact ⟨Nat.le_refl _, fun _ _ _ => rfl, fun f hf => by simp [hfs, hf]⟩
  · intro fs hfs
    have hne : r.addr ≠ t.next := by omega
    have hlast : A.length < r.es.length := by simp [hes]
    have hkey : (bkey geo w (getfill geo w 0 - 1)) = last := by
      rw [hrep.getfill (Nat.zero_le _), hrep.bkey (by omega)]
      simp [hes]
    have hk : last.length = geo.keylen := (hrep.entry (last, v) (by simp [hes])).1
    have hin : r.rng last := hold.ok.inRng (last, v) (by simp [hes])
    simp only [wp_bind, wp_get, if_neg (show t.next ≠ 0 by omega)]
    rw [if_pos (show t.node ≠ 0 by omega), wp_bind,
      wp_load (w := w) (by simpa [hroot, Function.update_of_ne hne] using hw), hkey, wp_bind,
      wp_store (w := zeroNode) (by simp)]
    rw [wp_bind, wp_modify, wp_pure, hroot]
    set wroot := setval geo (setkey geo zeroNode last 0) r.addr 0
    have hext : Ext [] t
        { node := t.next, height := t.height + 1,
          mem := Function.update (Function.update t.mem t.next (some zeroNode)) t.next (some wroot),
          next := t.next + 1, fails := fs } := by
      refine ⟨Nat.le_succ _, fun a _ ha => ?_, hfs⟩
      simp [Function.update_of_ne (show a ≠ t.next by omega)]
    refine Or.inr ⟨rfl, ?_, hext, rfl, rfl⟩
    refine Stack.cons (u := [⟨t.next, fun _ => True, [(last, r.addr)]⟩]) ?_ ?_ ?_
      (by simp) (by simpa using hne) ?_
    · refine ⟨⟨_, rfl, rfl⟩, ?_, by simp, ?_⟩
      · simp only [List.mem_singleton, forall_eq]
        exact ⟨⟨wroot, by simp, rep_root hgeo hk (by omega)⟩,
          List.pairwise_singleton _ _, fun _ _ => trivial⟩
      · simp only [addrs_cons, addrs_nil, List.map_cons, List.map_nil, List.append_nil,
          List.mem_singleton, forall_eq]
        omega
    · exact List.Forall₂.cons ⟨rfl, fun x hx => ⟨trivial, hx.2⟩⟩ List.Forall₂.nil
    · simp only [List.mem_singleton, forall_eq]
      obtain ⟨⟨w', hw', hrep'⟩, hok⟩ := hold.ext hext (by simp) hlive.2
      refine ⟨⟨w', hw', hrep'⟩, hok.sorted, fun e he => ⟨hok.inRng e he, ?_⟩⟩
      exact last_le (e := (last, v)) (hes ▸ hok.sorted) e (hes ▸ he)
    · simp only [List.mem_singleton, forall_eq]
      omega

end Grow

/-! ## The insertion at a level -/

/-- What the insertion at a level below the levels `rest` does. -/
def Inserts (geo : Geo) (fuel : Nat) (rest : List Level) : Prop :=
  ∀ ⦃b : Level⦄ ⦃t : Tree⦄ ⦃level m : Nat⦄ ⦃key : KeyPtr⦄ ⦃k : Key⦄ ⦃val : Nat⦄,
    Stack geo t (b :: rest) → Occ m (b :: rest) →
    (∀ e ∈ b.flatMap Span.es, e.1 ≠ k) → KeyAt geo t key k → key.Avoids (addrs (b :: rest)) →
    k.length = geo.keylen → val ≠ 0 → t.height = level + rest.length →
    Runs (btreeInsertRetry geo fuel key val level) (fun err t' =>
      (err = 0 ∧ ∃ b' rest', Inserted geo m k val level b rest t t' b' rest') ∨
      (err = -ENOMEM ∧ ∃ b' rest', Unchanged geo b rest t t' b' rest')) t

/-- The key `k`, which `key` points to, can be inserted at the level `b`. -/
structure Insertable (geo : Geo) (t : Tree) (m level : Nat) (key : KeyPtr) (k : Key) (b : Level)
    (rest : List Level) : Prop where
  stack : Stack geo t (b :: rest)
  occ : Occ m (b :: rest)
  absent : ∀ e ∈ b.flatMap Span.es, e.1 ≠ k
  keyAt : KeyAt geo t key k
  avoids : key.Avoids (addrs (b :: rest))
  keylen : k.length = geo.keylen
  height : t.height = level + rest.length

/-- How an insertion at the level `b` ends. -/
def InsertEnds (geo : Geo) (m : Nat) (k : Key) (v level : Nat) (b : Level) (rest : List Level)
    (t : Tree) (err : Int) (t' : Tree) : Prop :=
  (err = 0 ∧ ∃ b' rest', Inserted geo m k v level b rest t t' b' rest') ∨
    (err = -ENOMEM ∧ ∃ b' rest', Unchanged geo b rest t t' b' rest')

/-- What the insertion `attempt` does at a level below the levels `rest`. -/
def InsertsBy (geo : Geo) (attempt : KeyPtr → Nat → Nat → TreeM Int) (level : Nat)
    (rest : List Level) : Prop :=
  ∀ ⦃b : Level⦄ ⦃t : Tree⦄ ⦃m : Nat⦄ ⦃key : KeyPtr⦄ ⦃k : Key⦄ ⦃val : Nat⦄,
    Insertable geo t m level key k b rest → val ≠ 0 →
    Runs (attempt key val level) (InsertEnds geo m k val level b rest t) t

/-- `ins` adds a level where there is none yet, and makes an attempt at the level. -/
structure Enters (geo : Geo) (ins attempt : KeyPtr → Nat → Nat → TreeM Int) (level : Nat) :
    Prop where
  grow : ∀ {key : KeyPtr} {val : Nat} {t : Tree} {Q : Int → Tree → Prop}, val ≠ 0 →
    t.height < level → Runs (btreeGrow geo >>= fun err =>
      if err ≠ 0 then pure err else attempt key val level) Q t → Runs (ins key val level) Q t
  stay : ∀ {key : KeyPtr} {val : Nat} {t : Tree} {Q : Int → Tree → Prop}, val ≠ 0 →
    level ≤ t.height → Runs (attempt key val level) Q t → Runs (ins key val level) Q t
  room : ∀ (key : KeyPtr) (val : Nat), ∃ full : Nat → TreeM Int,
    attempt key val level =
      (findLevel geo key level >>= fun node => insertAt geo (full node) key val node)

/-- The insertion of the separator of a full node, one level up, by `ins`. -/
def Raises (geo : Geo) (m level : Nat) (P : Level) (r : Span Key) (Q : Level) (rest : List Level)
    (ins : KeyPtr → Nat → Nat → TreeM Int) : Prop :=
  ∀ ⦃t : Tree⦄ ⦃A : Entries⦄ ⦃mid : Key⦄ ⦃v : Nat⦄ ⦃B : Entries⦄ ⦃new : Nat⦄,
    Stack geo t ((P ++ r :: Q) :: rest) → Occ m ((P ++ r :: Q) :: rest) →
    r.es = A ++ (mid, v) :: B → B ≠ [] → new ≠ 0 → t.height = level + rest.length →
    Runs (ins (.slot r.addr A.length) new (level + 1)) (fun err t' =>
      (err = 0 ∧ ∃ r1 u tl, Raised geo mid new level P r Q rest t t' r1 u tl) ∨
      (err = -ENOMEM ∧ true ∈ t.fails ∧ ∃ rest', Stack geo t' ((P ++ r :: Q) :: rest') ∧
        List.Forall₂ (List.Forall₂ SameShape) rest rest' ∧ Ext (addrs rest) t t' ∧
        t'.height = t.height)) t

section Level

variable {geo : Geo} {t : Tree} {b P Q : Level} {r : Span Key} {rest : List Level} {key : KeyPtr}
  {k mid : Key} {val v level fuel m new : Nat} {A B : Entries}

theorem insertLevel_retry {Q : Int → Tree → Prop} (hval : val ≠ 0) (hl : level ≤ t.height) :
    Runs (btreeInsertLevel geo (fuel + 1) key val level) Q t ↔
      Runs (btreeInsertRetry geo fuel key val level) Q t := by
  rw [btreeInsertLevel, if_neg hval, Runs, wp_bind, wp_get, if_neg (by omega), wp_bind, wp_pure]
  simp only [ne_eq, not_true_eq_false, if_false]

theorem insertLevel_grow {Q : Int → Tree → Prop} (hval : val ≠ 0) (hl : t.height < level) :
    Runs (btreeInsertLevel geo (fuel + 1) key val level) Q t ↔
      Runs (btreeGrow geo >>= fun err =>
        if err ≠ 0 then pure err else btreeInsertRetry geo fuel key val level) Q t := by
  rw [btreeInsertLevel, if_neg hval, Runs, wp_bind, wp_get, if_pos hl]

/-- The separator of a node is not yet a key of the level above. -/
theorem Stack.mid_absent {u : Level} (h : Stack geo t ((P ++ r :: Q) :: u :: rest))
    (hes : r.es = A ++ (mid, v) :: B) (hB : B ≠ []) : ∀ e ∈ u.flatMap Span.es, e.1 ≠ mid := by
  intro e he hmid
  have hok := (h.bottom_holds r (by simp)).ok
  rw [← kids_entries] at he
  obtain ⟨c, hc, rfl⟩ := List.mem_map.1 he
  have hself : c.rng c.key := by
    obtain ⟨s, hs, hcs⟩ := kids_mem hc
    have hsok := (h.tail.bottom_holds s hs).ok
    exact kidsOf_key_rng hsok.sorted hsok.inRng hcs
  obtain ⟨X, d, Y, hk, hX, hd, hY⟩ : ∃ X d Y, kids u = X ++ d :: Y ∧ List.Forall₂ Link X P ∧
      Link d r ∧ List.Forall₂ Link Y Q := by
    obtain ⟨X, d, Y, hk, hX, hd, hY⟩ := forall₂_split_cons h.links.flip
    exact ⟨X, d, Y, hk, hX.flip, hd, hY.flip⟩
  obtain ⟨X', Y', hk'⟩ := List.append_of_mem hc
  have hdmid : d.rng mid := hd.rng _ (hok.inRng (mid, v) (by simp [hes]))
  simp only [Kid.entry] at hmid
  -- the kid of the separator is the kid above the node
  obtain ⟨-, rfl, -⟩ := h.tail.apart.kids.unique hk' hk (hmid ▸ hself) hdmid
  obtain ⟨e, he⟩ := List.exists_mem_of_ne_nil B hB
  have hlt : e.1 < mid := by
    have hs := hok.sorted
    rw [hes] at hs
    exact (List.pairwise_cons.1 (List.pairwise_append.1 hs).2.1).1 e he
  have hle := hd.rng _ (hok.inRng e (by simp [hes, he]))
  obtain ⟨s, hs, hcs⟩ := kids_mem hc
  exact absurd hlt (not_lt.2 (hmid ▸ (kidsOf_rng hcs hle).2))

/-- The separator of a node is read out of the node. -/
theorem Stack.slot_key (h : Stack geo t ((P ++ r :: Q) :: rest)) (hes : r.es = A ++ (mid, v) :: B) :
    KeyAt geo t (.slot r.addr A.length) mid ∧ mid.length = geo.keylen := by
  have hrmem : r ∈ P ++ r :: Q := by simp
  obtain ⟨w, hw, hrep⟩ := (h.bottom_holds r hrmem).words
  refine ⟨⟨(h.bottom_live hrmem).2, w, hw, ?_⟩, (hrep.entry (mid, v) (by simp [hes])).1⟩
  rw [hes] at hrep
  exact hrep.bkey_append

theorem Occ.tail {u : Level} (hocc : Occ m (b :: u :: rest)) : Occ 2 (u :: rest) := by
  intro l hl s hs
  have := hocc l (List.mem_cons_of_mem _ hl) s hs
  simpa using this

/-- The separator goes into the level above, or into a new root. -/
theorem raise_spec {ins attempt : KeyPtr → Nat → Nat → TreeM Int} (hgeo : geo.Ok)
    (he : Enters geo ins attempt (level + 1))
    (ih : ∀ u tl, rest = u :: tl → InsertsBy geo attempt (level + 1) tl) :
    Raises geo m level P r Q rest ins := by
  intro t A mid v B new h hocc hes hB hnew0 hlen
  have hrmem : r ∈ P ++ r :: Q := by simp
  have hold := h.bottom_holds r hrmem
  obtain ⟨hkey, hmidlen⟩ := h.slot_key hes
  cases rest with
  | nil =>
    -- the node is the root: the tree grows, and the new root has room
    obtain ⟨rfl, rfl, -⟩ := h.root_alone
    obtain ⟨B', last, rfl⟩ : ∃ B' last, B = B' ++ [last] :=
      ⟨B.dropLast, B.getLast hB, (List.dropLast_append_getLast hB).symm⟩
    have hes' : r.es = (A ++ (mid, v) :: B') ++ [(last.1, last.2)] := by simp [hes]
    refine he.grow hnew0 (by rw [hlen]; simp) ((btreeGrow_spec hgeo h hes').bind ?_)
    rintro err t1 (⟨rfl, hfail, hst, hext, hh⟩ | ⟨rfl, hst, hext, hh, hn⟩)
    · rw [if_pos (by decide), wp_pure]
      exact Or.inr ⟨rfl, hfail, [], hst, List.Forall₂.nil, hext, hh⟩
    · simp only [ne_eq, not_true_eq_false, if_false]
      have hlt : last.1 < mid := by
        have hs := hold.ok.sorted
        rw [hes] at hs
        exact (List.pairwise_cons.1 (List.pairwise_append.1 hs).2.1).1 last (by simp)
      have hkey1 := hkey.ext hext (by simp [KeyPtr.Avoids])
      obtain ⟨full, hfull⟩ := he.room (.slot r.addr A.length) new
      rw [hfull]
      refine (insertRoom_spec full hst.tail (by simp) (by simpa using ne_of_lt hlt) ?_ hkey1
        (by simp [KeyPtr.Avoids]) hmidlen hnew0 (by rw [hh, hlen]; rfl)).imp ?_
      · intro b1 hb1 _ s hs _
        obtain ⟨s', hs', hle⟩ := forall₂_mem_right hb1 hs
        rw [List.mem_singleton] at hs'
        subst hs'
        rw [← hle.es]
        have := hgeo.four_le
        simp only [List.length_singleton]
        omega
      · rintro err t2 ⟨rfl, u, tl, hp⟩
        have hold1 : ∀ a ∈ addrs (u :: tl), a = t.next := by
          intro a ha
          rw [addrs_cons, ← hp.addr, ← sameShape_addrs hp.shape] at ha
          simpa using ha
        refine Or.inl ⟨rfl, ⟨r.addr, fun x => r.rng x ∧ last.1 ≤ x, r.es⟩, u, tl, hp.stack, rfl,
          rfl, fun _ hx => hx.1, fun e he x hx hle => ⟨hx, ?_⟩, Or.inr ⟨rfl, rfl⟩,
          ⟨_, hst.links, hp.kids⟩, fun a ha => Or.inr (le_of_eq (hold1 a ha).symm), ?_, ?_, ?_⟩
        · exact le_trans (last_le (hes' ▸ hold.ok.sorted) e (hes' ▸ he)) hle
        · exact hext.trans hp.ext fun a ha => Or.inr (by simp at ha; omega)
        · rw [hp.head.height, hh, hlen, ← hp.shape.length_eq]
          rfl
        · exact hp.root_occ rfl
  | cons u tl =>
    have hup : Insertable geo t 2 (level + 1) (.slot r.addr A.length) mid u tl :=
      ⟨h.tail, hocc.tail, h.mid_absent hes hB, hkey, h.bottom_not_mem hrmem, hmidlen,
        by rw [hlen, List.length_cons]; omega⟩
    refine he.stay hnew0 (by rw [hlen]; simp) ((ih u tl rfl hup hnew0).imp ?_)
    rintro err t1 (⟨rfl, u', tl', hi⟩ | ⟨rfl, u', tl', hu⟩)
    · refine Or.inl ⟨rfl, r, u', tl', hi.stack, rfl, rfl, fun _ hx => hx, fun _ _ _ hx _ => hx,
        Or.inl fun _ hx => hx, ⟨kids u, h.links, hi.kids⟩, hi.old, hi.ext, hi.height, hi.occ⟩
    · refine Or.inr ⟨rfl, hu.failed, u' :: tl', ?_, ?_, hu.ext, hu.height⟩
      · refine h.reattach hu.stack hu.ext (links_le h.links (spans_le_kids hu.bottom))
          fun a ha => Or.inl ?_
        rwa [sameShape_addrs (List.Forall₂.cons (spans_le_sameShape hu.bottom) hu.shape)]
      · exact List.Forall₂.cons (spans_le_sameShape hu.bottom) hu.shape

theorem Halves.length (h : Halves geo r A mid v B) : A.length + 1 + B.length = geo.noPairs := by
  have := h.full
  rw [h.es] at this
  simp only [List.length_append, List.length_cons] at this
  omega

/-- There is room for a key that belongs to one of two nodes that are not full. -/
theorem room_of_pair {l r : Span Key} {b1 : Level} (hl : l.es.length < geo.noPairs)
    (hr : r.es.length < geo.noPairs) (hk : l.rng k ∨ r.rng k)
    (hb1 : List.Forall₂ Span.Le (P ++ l :: r :: Q) b1) (hap : Apart b1) :
    ∀ s ∈ b1, s.rng k → s.es.length < geo.noPairs := by
  intro s hs hsk
  obtain ⟨P', L, b2, rfl, hP, hL, hb2⟩ := forall₂_split_cons hb1
  cases hb2 with
  | @cons _ R _ Q' hR hQ =>
    obtain ⟨X, Y, hXY⟩ := List.append_of_mem hs
    rcases hk with hk | hk
    · obtain ⟨-, rfl, -⟩ := hap.unique hXY rfl hsk (hL.rng k hk)
      rwa [← hL.es]
    · obtain ⟨-, rfl, -⟩ := hap.unique hXY (List.append_cons P' L (R :: Q')) hsk (hR.rng k hk)
      rwa [← hR.es]

/-- Wherever the key belongs after the split, there is room for it. -/
theorem Halves.room {r1 : Span Key} {b1 : Level} (hgeo : geo.Ok) (h : Halves geo r A mid v B)
    (hhere : r1.rng k ∨ P = [] ∧ Q = [])
    (hb1 : List.Forall₂ Span.Le
      (P ++ splitLeft r1 mid new (A ++ [(mid, v)]) :: splitRight r1 mid B :: Q) b1)
    (hap : Apart b1) : ∀ s ∈ b1, s.rng k → s.es.length < geo.noPairs := by
  have hlen := h.length
  have hhalf := h.half
  have hfour := hgeo.four_le
  have hL : (splitLeft r1 mid new (A ++ [(mid, v)])).es.length < geo.noPairs := by
    simp only [splitLeft, List.length_append, List.length_singleton]
    omega
  have hR : (splitRight r1 mid B).es.length < geo.noPairs := by
    simp only [splitRight]
    omega
  rcases hhere with hr1 | ⟨rfl, rfl⟩
  · refine room_of_pair hL hR ?_ hb1 hap
    by_cases hmid : mid ≤ k
    · exact Or.inl ⟨hr1, hmid⟩
    · exact Or.inr ⟨hr1, not_le.1 hmid⟩
  · -- the tree has grown, and there are the two halves only
    intro s hs _
    obtain ⟨s', hs', hle⟩ := forall₂_mem_right hb1 hs
    rw [← hle.es]
    simp only [List.nil_append, List.mem_cons, List.not_mem_nil, or_false] at hs'
    rcases hs' with rfl | rfl
    · exact hL
    · exact hR

/-- After the split, the insertion is tried again and finds room. -/
theorem Raised.retry {t0 t' : Tree} {r1 : Span Key} {u : Level} {tl : List Level} {w wnew : Node}
    (full : Nat → TreeM Int) (hgeo : geo.Ok) (h : Raised geo mid new level P r Q rest t t' r1 u tl)
    (hst : Stack geo t ((P ++ r :: Q) :: rest)) (hhalf : Halves geo r A mid v B)
    (hnew : Fresh t new ((P ++ r :: Q) :: rest)) (hnew0 : t0.next ≤ new) (hext : Ext [] t0 t)
    (hwnew : Rep geo wnew (A ++ [(mid, v)])) (hw : Rep geo w B) (hr : r.rng k)
    (hocc : Occ m ((P ++ r :: Q) :: rest))
    (habs : ∀ e ∈ (P ++ r :: Q).flatMap Span.es, e.1 ≠ k) (hkey : KeyAt geo t0 key k)
    (hav : key.Avoids (addrs ((P ++ r :: Q) :: rest))) (hk : k.length = geo.keylen)
    (hval : val ≠ 0) :
    Runs (findLevel geo key level >>= fun node => insertAt geo (full node) key val node)
      (fun err t3 => err = 0 ∧
        ∃ b' rest', Inserted geo m k val level (P ++ r :: Q) rest t0 t3 b' rest')
      { t' with mem := Function.update (Function.update t'.mem new (some wnew)) r.addr
                         (some w) } := by
  have hrmem : r ∈ P ++ r :: Q := by simp
  have hsplit := h.split hst hhalf.es hnew hwnew hw
  have hle := h.kids hhalf.es (hst.bottom_holds r hrmem).ok.sorted
  have hlen := hhalf.length
  have hhalf' := hhalf.half
  have hfour := hgeo.four_le
  set b2 := P ++ splitLeft r1 mid new (A ++ [(mid, v)]) :: splitRight r1 mid B :: Q with hb2
  set t'' : Tree := { t' with mem := Function.update (Function.update t'.mem new (some wnew)) r.addr
                                (some w) } with ht''
  have hext' : Ext (addrs ((P ++ r :: Q) :: rest)) t0 t'' := by
    refine ((hext.mono (by simp)).trans h.ext fun a ha => Or.inl (addrs_tail ha)).trans
      (B := [new, r.addr]) ⟨Nat.le_refl _, fun a ha _ => ?_, fun _ hf => hf⟩ ?_
    · simp only [List.mem_cons, List.not_mem_nil, or_false, not_or] at ha
      simp [ht'', Function.update_of_ne ha.1, Function.update_of_ne ha.2]
    · simp only [List.mem_cons, List.not_mem_nil, or_false, forall_eq_or_imp, forall_eq]
      exact ⟨Or.inr hnew0, Or.inl (addr_mem_addrs hrmem)⟩
  have hold : ∀ a ∈ addrs (b2 :: u :: tl), a ∈ addrs ((P ++ r :: Q) :: rest) ∨ t0.next ≤ a := by
    intro a ha
    rw [addrs_cons, List.mem_append] at ha
    rcases ha with ha | ha
    · simp only [hb2, List.map_append, List.map_cons, List.mem_append, List.mem_cons, splitLeft,
        splitRight, h.addr] at ha
      rw [addrs_cons]
      simp only [List.map_append, List.map_cons, List.mem_append, List.mem_cons]
      rcases ha with ha | rfl | ha
      · tauto
      · exact Or.inr hnew0
      · tauto
    · rcases h.old a ha with ho | ho
      · exact Or.inl (addrs_tail ho)
      · exact Or.inr (Nat.le_trans hext.next_le ho)
  have hpairs : b2.flatMap Span.es = (P ++ r :: Q).flatMap Span.es := by
    rw [← kids_entries, ← kids_entries, hle.entries]
  have hheight : t''.height = level + (u :: tl).length :=
    h.height.trans (by rw [List.length_cons]; omega)
  have hsides : ∀ s ∈ P ++ Q, 2 ≤ s.es.length := by
    intro s hs
    cases rest with
    | nil =>
      obtain ⟨rfl, rfl, -⟩ := hst.root_alone
      simp at hs
    | cons v rest =>
      have := hocc _ List.mem_cons_self s (by simp only [List.mem_append, List.mem_cons] at hs ⊢; tauto)
      simpa using this
  have hocc2 : Occ m (b2 :: u :: tl) := by
    intro l hl s hs
    rw [if_neg (by simp)]
    rcases List.mem_cons.1 hl with rfl | hl
    · simp only [hb2, List.mem_append, List.mem_cons] at hs
      rcases hs with hs | rfl | rfl | hs
      · exact hsides s (by simp [hs])
      · simp only [splitLeft, List.length_append, List.length_singleton]
        omega
      · simp only [splitRight]
        omega
      · exact hsides s (by simp [hs])
    · have := h.occ l hl s hs
      rwa [ite_self] at this
  refine (insertRoom_spec full hsplit hocc2.nonempty_tail (hpairs ▸ habs)
    (fun b1 hb1 hap => hhalf.room hgeo (h.here.imp (fun hr1 => hr1 k hr) id) hb1 hap)
    (hkey.ext hext' hav) (hkey.avoids hav fun a ha => hold a (addrs_tail ha)) hk hval
    hheight).imp ?_
  · rintro err t3 ⟨rfl, b', rest', hp⟩
    have hi := hp.inserted hocc2 hheight
    refine ⟨rfl, b', rest', hi.stack, hi.kids.of_le hle, ?_, hext'.trans hi.ext hold, hi.height,
      hi.occ⟩
    intro a ha
    rcases hi.old a ha with ho | ho
    · exact hold a ho
    · exact Or.inr (Nat.le_trans hext'.next_le ho)

theorem insertAt_full {full : TreeM Int} (hrep : ∃ w, t.mem r.addr = some w ∧ Rep geo w r.es)
    (hok : r.Ok) (hkey : KeyAt geo t key k) (hk : k.length = geo.keylen)
    (habs : ∀ e ∈ r.es, e.1 ≠ k) (hfull : r.es.length = geo.noPairs) {Q : Int → Tree → Prop} :
    Runs (insertAt geo full key val r.addr) Q t ↔ Runs full Q t := by
  obtain ⟨w, hw, hrep⟩ := hrep
  obtain ⟨A, B, hes, hA, hB⟩ := exists_split_absent hok.sorted k habs
  rw [hes] at hrep hfull
  obtain ⟨hpos, hfill, hdup⟩ := insertBody_search hrep hk hA hB
  unfold insertAt
  simp only [Runs, wp_bind, wp_readKey hkey, wp_load hw, hpos, hfill, if_neg hdup, if_pos hfull]

theorem exists_halves (hgeo : geo.Ok) (hfull : r.es.length = geo.noPairs) :
    ∃ A mid v B, Halves geo r A mid v B ∧ B ≠ [] := by
  have hfour := hgeo.four_le
  obtain ⟨i, hi⟩ : ∃ i, geo.noPairs / 2 = i + 1 := ⟨geo.noPairs / 2 - 1, by omega⟩
  have hlt : i < r.es.length := by omega
  refine ⟨r.es.take i, r.es[i].1, r.es[i].2, r.es.drop (i + 1),
    ⟨by simp, by simp only [List.length_take]; omega, hfull⟩, fun hc => ?_⟩
  have := congrArg List.length hc
  simp only [List.length_drop, List.length_nil] at this
  omega

/-- `split` of a full node: it fails for want of memory, or its two halves are in the tree. -/
theorem split_spec {ins : KeyPtr → Nat → Nat → TreeM Int} (hgeo : geo.Ok)
    (hins : Raises geo m level P r Q rest ins) (h : Stack geo t ((P ++ r :: Q) :: rest))
    (hocc : Occ m ((P ++ r :: Q) :: rest)) (hlen : t.height = level + rest.length)
    (hfull : r.es.length = geo.noPairs) :
    Runs (split geo ins r.addr level) (fun err t' =>
      (err = 0 ∧ ∃ p, IsSplit geo level P r Q rest t t' p) ∨
      (err = -ENOMEM ∧ ∃ rest', Unchanged geo (P ++ r :: Q) rest t t' (P ++ r :: Q) rest')) t := by
  have hrmem : r ∈ P ++ r :: Q := by simp
  obtain ⟨A, mid, v, B, hhalf, hB⟩ := exists_halves hgeo hfull
  have hlive := h.bottom_live hrmem
  unfold split
  rw [Runs, wp_bind]
  apply wp_alloc
  · intro fs hfs
    rw [if_pos rfl, wp_pure]
    exact Or.inr ⟨rfl, _, h.of_eq rfl rfl (Nat.le_refl _), spans_le_refl _,
      List.forall₂_same.2 fun l _ => sameShape_refl l,
      ⟨Nat.le_refl _, fun _ _ _ => rfl, fun f hf => by simp [hfs, hf]⟩, rfl, by simp [hfs]⟩
  · intro fs hfs
    rw [if_neg (by omega), wp_bind]
    set t2 : Tree := { t with mem := Function.update t.mem t.next (some zeroNode),
                              next := t.next + 1, fails := fs } with ht2
    have hext2 : Ext [] t t2 :=
      ⟨Nat.le_succ _, fun a _ ha => Function.update_of_ne (by omega) _ _, hfs⟩
    have hst2 := h.frame hext2 (by simp) rfl
    have hnew : Fresh t2 t.next ((P ++ r :: Q) :: rest) :=
      ⟨by omega, Nat.lt_succ_self _, fun a ha => ne_of_lt (h.live a ha).2⟩
    have hraise := hins hst2 hocc hhalf.es hB (show t.next ≠ 0 by omega) hlen
    rw [show A.length = geo.noPairs / 2 - 1 by have := hhalf.half; omega] at hraise
    refine hraise.imp ?_
    rintro err t3 (⟨rfl, r1, u, tl, hra⟩ | ⟨rfl, hfail, rest', hst3, hshape, hext3, hh⟩)
    · -- the separator is in: move the pairs
      obtain ⟨w, hw, hrep⟩ := (hst2.bottom_holds r hrmem).words
      have hw3 : t3.mem r.addr = some w :=
        (hra.ext.mem_eq _ (h.bottom_not_mem hrmem) (hst2.bottom_live hrmem).2).trans hw
      have hz3 : t3.mem t.next = some zeroNode :=
        (hra.ext.mem_eq _ (fun hc => hnew.ne _ (addrs_tail hc) rfl) hnew.lt).trans (by simp [ht2])
      have htake : r.es.take (geo.noPairs / 2) = A ++ [(mid, v)] := by
        rw [hhalf.es, ← hhalf.half]
        simp [List.take_append]
      have hdrop : r.es.drop (geo.noPairs / 2) = B := by
        rw [hhalf.es, ← hhalf.half]
        simp [List.drop_append]
      have hfst := hrep.split_fst Rep.zero hfull
      have hsnd := hrep.split_snd zeroNode hfull (by have := hgeo.four_le; omega)
      rw [htake] at hfst
      rw [hdrop] at hsnd
      simp only [ne_eq, not_true_eq_false, if_false, wp_bind, wp_load hz3, wp_load hw3,
        wp_store hz3, wp_pure]
      rw [wp_store (w := w) (by simpa [Function.update_of_ne (show r.addr ≠ t.next by omega)] using hw3)]
      exact Or.inl ⟨trivial, ⟨A, mid, v, B, t2, t3, r1, u, tl, _, _⟩, hhalf, hext2, hst2, hnew,
        hra, hfst, hsnd, rfl⟩
    · -- no memory above: the new node is freed again
      have hz3 : t3.mem t.next = some zeroNode :=
        (hext3.mem_eq _ (fun hc => hnew.ne _ (addrs_tail hc) rfl) hnew.lt).trans (by simp [ht2])
      rw [if_pos (by decide), wp_bind, wp_free hz3, wp_pure]
      have hfree : Ext [t.next] t3 { t3 with mem := Function.update t3.mem t.next none } :=
        ⟨Nat.le_refl _, fun a ha _ => Function.update_of_ne (by simpa using ha) _ _, fun _ hf => hf⟩
      refine Or.inr ⟨rfl, rest', hst3.frame hfree ?_ rfl, spans_le_refl _, hshape, ?_, hh,
        hfs _ hfail⟩
      · intro a ha hc
        rw [List.mem_singleton] at ha
        rw [addrs_cons, ← sameShape_addrs hshape, ← addrs_cons] at hc
        exact hnew.ne a hc ha
      · refine ((hext2.mono (by simp)).trans hext3 fun a ha => Or.inl (addrs_tail ha)).trans hfree ?_
        simp

/-- The split of a full node and the second try. -/
theorem splitRetry_spec {ins : KeyPtr → Nat → Nat → TreeM Int} (full : Nat → TreeM Int)
    (hgeo : geo.Ok) (hins : Raises geo m level P r Q rest ins)
    (h : Insertable geo t m level key k (P ++ r :: Q) rest) (hfull : r.es.length = geo.noPairs)
    (hr : r.rng k) (hval : val ≠ 0) :
    Runs (split geo ins r.addr level >>= fun err =>
        if err ≠ 0 then pure err
        else findLevel geo key level >>= fun node => insertAt geo (full node) key val node)
      (InsertEnds geo m k val level (P ++ r :: Q) rest t) t := by
  refine (split_spec hgeo hins h.stack h.occ h.height hfull).bind ?_
  rintro err t1 (⟨rfl, p, hs⟩ | ⟨rfl, rest', hu⟩)
  · rw [if_neg (by decide), hs.done]
    refine (hs.raised.retry full hgeo hs.stack hs.half hs.fresh (Nat.le_refl _) hs.alloc hs.left
      hs.right hr h.occ h.absent h.keyAt h.avoids h.keylen hval).imp ?_
    exact fun err t4 h4 => Or.inl h4
  · rw [if_pos (by decide)]
    exact Or.inr ⟨rfl, _, rest', hu⟩

/-- What came before an insertion has lowered separators at most. -/
theorem InsertEnds.after {t1 t' : Tree} {b1 : Level} {rest1 : List Level} {err : Int}
    (h : InsertEnds geo m k val level b1 rest1 t1 err t') (hb : List.Forall₂ Span.Le b b1)
    (hrest : List.Forall₂ (List.Forall₂ SameShape) rest rest1)
    (hext : Ext (addrs (b :: rest)) t t1) (hhead : SameHead t t1) :
    InsertEnds geo m k val level b rest t err t' := by
  have haddrs : addrs (b :: rest) = addrs (b1 :: rest1) := by
    rw [addrs_cons, addrs_cons, sameShape_map_addr (spans_le_sameShape hb), sameShape_addrs hrest]
  rcases h with ⟨rfl, b', rest', hi⟩ | ⟨rfl, b', rest', hu⟩
  · refine Or.inl ⟨rfl, b', rest', hi.stack, hi.kids.of_le (spans_le_kids hb), ?_, ?_, hi.height,
      hi.occ⟩
    · rw [haddrs, ← hhead.next]
      exact hi.old
    · exact hext.trans (haddrs ▸ hi.ext) fun a ha => Or.inl ha
  · refine Or.inr ⟨rfl, b', rest', hu.stack, spans_le_trans hb hu.bottom,
      sameShapes_trans hrest hu.shape, ?_, hu.height.trans hhead.height, hhead.fails ▸ hu.failed⟩
    exact hext.trans (haddrs ▸ hu.ext) fun a ha => Or.inl ha

theorem InsertEnds.of_found {t1 t' : Tree} {a : Nat} {b1 : Level} {rest1 : List Level} {err : Int}
    (h : InsertEnds geo m k val level b1 rest1 t1 err t') (hf : Found geo t k b rest a t1 b1 rest1) :
    InsertEnds geo m k val level b rest t err t' :=
  h.after hf.bottom hf.shape (hf.ext.mono fun _ ha => addrs_tail ha) hf.head

theorem Insertable.found {t1 : Tree} {a : Nat} {b1 : Level} {rest1 : List Level}
    (h : Insertable geo t m level key k b rest) (hf : Found geo t k b rest a t1 b1 rest1) :
    Insertable geo t1 m level key k b1 rest1 where
  stack := hf.stack
  occ := h.occ.of_shape (spans_le_sameShape hf.bottom) hf.shape
  absent := by rw [← spans_le_entries hf.bottom]; exact h.absent
  keyAt := h.keyAt.ext hf.ext (h.avoids.mono fun a ha => addrs_tail ha)
  avoids := by rw [← hf.addrs_eq]; exact h.avoids
  keylen := h.keylen
  height := by rw [hf.head.height, h.height, hf.shape.length_eq]

/-- An attempt at a level, where `full` is what is done with a full node. -/
theorem attempt_spec (full : Nat → TreeM Int) (h : Insertable geo t m level key k b rest)
    (hval : val ≠ 0) (hfull : ∀ {t1 : Tree} {P : Level} {r : Span Key} {Q : Level}
      {rest1 : List Level}, rest1.length = rest.length →
      Insertable geo t1 m level key k (P ++ r :: Q) rest1 → r.es.length = geo.noPairs → r.rng k →
      Runs (full r.addr) (InsertEnds geo m k val level (P ++ r :: Q) rest1 t1) t1) :
    Runs (findLevel geo key level >>= fun node => insertAt geo (full node) key val node)
      (InsertEnds geo m k val level b rest t) t := by
  have hav' : key.Avoids (addrs rest) := h.avoids.mono fun a ha => addrs_tail ha
  refine (findLevel_spec h.keylen h.stack h.occ.nonempty_tail h.keyAt hav' h.height).bind ?_
  rintro a t1 ⟨b1, rest1, hf⟩
  have h1 := h.found hf
  obtain ⟨P, r, Q, rfl, rfl, hr⟩ := hf.here
  by_cases hlen : r.es.length = geo.noPairs
  · have hold := hf.stack.bottom_holds r (by simp)
    have habsr : ∀ e ∈ r.es, e.1 ≠ k :=
      fun e he => h1.absent e (List.mem_flatMap.2 ⟨r, by simp, he⟩)
    refine (insertAt_full hold.words hold.ok h1.keyAt h.keylen habsr hlen).2 ?_
    exact (hfull hf.shape.length_eq.symm h1 hlen hr).imp fun err t' he => he.of_found hf
  · refine (hf.insertRoom h.absent ?_ h.keyAt hav' h.keylen hval).imp ?_
    · intro s hs hsk
      obtain ⟨X, Y, hXY⟩ := List.append_of_mem hs
      obtain ⟨-, rfl, -⟩ := hf.stack.apart.unique hXY rfl hsk hr
      obtain ⟨w, -, hrep⟩ := (hf.stack.bottom_holds s hs).words
      exact lt_of_le_of_ne hrep.length_le hlen
    · rintro err t' ⟨rfl, b', rest', hp⟩
      exact Or.inl ⟨rfl, b', rest', hp.inserted h.occ h.height⟩

/-- The induction on the number of levels above, with two more turns of the recursion for each
of them. -/
theorem insertsBy_levels (attempt : Nat → KeyPtr → Nat → Nat → TreeM Int) (top : Nat)
    (hstep : ∀ (fuel level : Nat) (rest : List Level), level + rest.length < top →
      (∀ rest1 : List Level, rest1.length = rest.length → ∀ u tl, rest1 = u :: tl →
        InsertsBy geo (attempt (fuel + 1)) (level + 1) tl) →
      InsertsBy geo (attempt (fuel + 3)) level rest) :
    ∀ n fuel level (rest : List Level), rest.length = n → 2 * n + 3 ≤ fuel → level + n < top →
      InsertsBy geo (attempt fuel) level rest := by
  intro n
  induction n with
  | zero =>
    intro fuel level rest hn hfuel htop
    obtain ⟨f, rfl⟩ : ∃ f, fuel = f + 3 := ⟨fuel - 3, by omega⟩
    exact hstep f level rest (by omega) fun rest1 hr1 u tl h => by simp_all
  | succ n ih =>
    intro fuel level rest hn hfuel htop
    obtain ⟨f, rfl⟩ : ∃ f, fuel = f + 3 := ⟨fuel - 3, by omega⟩
    refine hstep f level rest (by omega) fun rest1 hr1 u tl h => ?_
    rw [h, hn, List.length_cons] at hr1
    exact ih _ _ tl (by omega) (by omega) (by omega)

theorem insertLevel_enters (geo : Geo) (fuel level : Nat) :
    Enters geo (btreeInsertLevel geo (fuel + 2)) (btreeInsertRetry geo (fuel + 1)) level where
  grow hval hl h := (insertLevel_grow hval hl).2 h
  stay hval hl h := (insertLevel_retry hval hl).2 h
  room key val := ⟨_, by rw [btreeInsertRetry_eq, funext insertBody_eq]⟩

/-- One level of the insertion, given the level above. -/
theorem inserts_step (hgeo : geo.Ok)
    (ih : ∀ rest1 : List Level, rest1.length = rest.length → ∀ u tl, rest1 = u :: tl →
      InsertsBy geo (btreeInsertRetry geo (fuel + 1)) (level + 1) tl) :
    InsertsBy geo (btreeInsertRetry geo (fuel + 3)) level rest := by
  intro b t m key k val h hval
  rw [btreeInsertRetry_eq, funext insertBody_eq, btreeInsertRetry_eq, funext insertBody_eq]
  refine attempt_spec _ h hval fun {t1 P r Q rest1} hr1 h1 hfull hr => ?_
  exact splitRetry_spec _ hgeo (raise_spec hgeo (insertLevel_enters geo fuel _) (ih rest1 hr1)) h1
    hfull hr hval

/-- `btree_insert_level` with enough fuel, by induction on the number of levels above. -/
theorem insertRetry_spec (hgeo : geo.Ok) (fuel : Nat) (rest : List Level)
    (hfuel : 2 * rest.length + 3 ≤ fuel) : Inserts geo fuel rest := by
  intro b t level m key k val h hocc habs hkey hav hk hval hlen
  exact insertsBy_levels (btreeInsertRetry geo) (level + rest.length + 1)
    (fun _ _ _ _ ih => inserts_step hgeo ih) rest.length fuel level rest rfl hfuel (by omega)
    ⟨h, hocc, habs, hkey, hav, hk, hlen⟩ hval

end Level

end Logfs.Btree
