import Logfs.Btree.Query
import Logfs.Btree.Remove

/-!
# The tree as a finite map

`Stores geo t m`: the tree `t` holds the pairs of the finite map `m`.  Every
operation of `btree.c` has one specification against it: a lookup and
`btree_last` read the map, an insertion of an absent key and a removal of a
stored one change it at that key.  A sequence of operations then refines the
same sequence on the map.
-/

namespace Logfs.Btree

open Levels

/-- The tree holds the pairs of `m` in its leaves. -/
inductive Stores (geo : Geo) (t : Tree) (m : OrdMap Key Nat) : Prop
  | empty (hm : m.entries = []) (hnode : t.node = 0) (hheight : t.height = 0) (hnext : 0 < t.next)
  | levels (b : Level) (rest : List Level) (stack : Stack geo t (b :: rest))
      (occ : Occ 1 (b :: rest)) (hheight : t.height = 1 + rest.length)
      (hm : m.entries = b.flatMap Span.es)

section Operations

variable {geo : Geo} {t : Tree} {m : OrdMap Key Nat} {k : Key} {v : Nat}

theorem stores_init (geo : Geo) (fails : List Bool) : Stores geo (btreeInit fails) OrdMap.empty :=
  .empty rfl rfl rfl Nat.one_pos

theorem Occ.nonempty {ls : List Level} (h : Occ 1 ls) : ∀ l ∈ ls, ∀ r ∈ l, r.es ≠ [] := by
  intro l hl r hr hc
  have := h l hl r hr
  rw [hc, List.length_nil] at this
  split_ifs at this <;> omega

/-- The keys of the map are as long as the geometry says. -/
theorem Stores.keylen (h : Stores geo t m) (hk : m.get k = some v) : k.length = geo.keylen := by
  have hmem := OrdMap.mem_entries.2 hk
  cases h with
  | empty hm => rw [hm] at hmem; cases hmem
  | levels b rest stack _ _ hm =>
    rw [hm] at hmem
    obtain ⟨r, hr, he⟩ := List.mem_flatMap.1 hmem
    obtain ⟨w, -, hrep⟩ := (stack.bottom_holds r hr).words
    exact (hrep.entry _ he).1

/-- No value of the map is `NULL`. -/
theorem Stores.val_ne_zero (h : Stores geo t m) (hk : m.get k = some v) : v ≠ 0 := by
  have hmem := OrdMap.mem_entries.2 hk
  cases h with
  | empty hm => rw [hm] at hmem; cases hmem
  | levels b rest stack _ _ hm =>
    rw [hm] at hmem
    obtain ⟨r, hr, he⟩ := List.mem_flatMap.1 hmem
    obtain ⟨w, -, hrep⟩ := (stack.bottom_holds r hr).words
    exact (hrep.entry _ he).2

/-- `btree_lookup` returns the value of the key it points to, `NULL` when there is none. -/
theorem btreeLookup_at {key : KeyPtr} (h : Stores geo t m) (hkey : KeyAt geo t key k)
    (hk : k.length = geo.keylen) :
    Runs (btreeLookup geo key) (fun r t' => t' = t ∧ r = (m.get k).getD 0) t := by
  unfold btreeLookup
  rw [Runs, wp_bind, wp_get]
  cases h with
  | empty hm _ hheight _ =>
    have : m.get k = none := OrdMap.get_eq_none.2 (by simp [hm])
    rw [if_pos hheight, wp_pure, this]
    exact ⟨rfl, rfl⟩
  | levels b rest stack _ hheight hm =>
    rw [if_neg (by omega), show t.height - 1 = rest.length by omega]
    exact btreeLookupLoop_spec hk hkey stack m hm

theorem btreeLookup_spec (h : Stores geo t m) (hk : k.length = geo.keylen) :
    Runs (btreeLookup geo (.ext k)) (fun r t' => t' = t ∧ r = (m.get k).getD 0) t :=
  btreeLookup_at h (keyAt_ext geo t k) hk

/-- `btree_last` points to the greatest key, to nothing when there is none. -/
theorem btreeLast_spec (h : Stores geo t m) :
    Runs (btreeLast geo) (fun o t' => t' = t ∧ match o with
      | none => m.last = none
      | some p => ∃ e, m.last = some e ∧ KeyAt geo t p e.1) t := by
  unfold btreeLast
  rw [Runs, wp_bind, wp_get]
  cases h with
  | empty hm _ hheight _ =>
    rw [if_pos hheight, wp_pure]
    exact ⟨rfl, by simp [OrdMap.last, hm]⟩
  | levels b rest stack occ hheight hm =>
    rw [if_neg (by omega), show t.height - 1 = rest.length by omega, wp_map]
    refine (btreeLastLoop_spec stack occ.nonempty).imp ?_
    rintro p _ ⟨rfl, e, he, hp⟩
    exact ⟨rfl, e, by rw [OrdMap.last, hm, he], hp⟩

/-- The map after an insertion, from the pairs of the bottom level. -/
theorem insert_stored {b b' : Level} (hm : m.entries = b.flatMap Span.es)
    (hins : KidsIns k v (kids b) (kids b')) (hs : (b'.flatMap Span.es).Pairwise fun a b => b.1 < a.1) :
    (m.insert k v).entries = b'.flatMap Span.es := by
  obtain ⟨A, B, h1, h2⟩ := hins.entries
  rw [kids_entries] at h1 h2
  rw [h2] at hs ⊢
  obtain ⟨-, hB, hA⟩ := List.pairwise_append.1 hs
  exact OrdMap.insert_entries (hm.trans h1) (fun e he => hA e he (k, v) (by simp))
    (List.pairwise_cons.1 hB).1

theorem Stack.sorted {b : Level} {rest : List Level} (h : Stack geo t (b :: rest)) :
    (b.flatMap Span.es).Pairwise fun a b => b.1 < a.1 :=
  h.apart.sorted fun r hr => (h.bottom_holds r hr).ok

/-- An empty tree grows a leaf and puts the first pair there. -/
theorem insert_first {ins attempt : KeyPtr → Nat → Nat → TreeM Int} (hgeo : geo.Ok)
    (he : Enters geo ins attempt 1) (hm : m.entries = []) (hnode : t.node = 0)
    (hheight : t.height = 0) (hnext : 0 < t.next) (hk : k.length = geo.keylen) (hv : v ≠ 0) :
    Runs (ins (.ext k) v 1) (fun err t' =>
      (err = 0 ∧ Stores geo t' (m.insert k v) ∧ ∀ f ∈ t'.fails, f ∈ t.fails) ∨
      (err = -ENOMEM ∧ Stores geo t' m ∧ (∀ f ∈ t'.fails, f ∈ t.fails) ∧ true ∈ t.fails)) t := by
  refine he.grow hv (by omega) ?_
  obtain ⟨full, hfull⟩ := he.room (.ext k) v
  unfold btreeGrow
  rw [hfull, Runs, wp_bind, wp_bind]
  apply wp_alloc
  · intro fs hfs
    rw [if_pos rfl, wp_pure, if_pos (by decide), wp_pure]
    exact Or.inr ⟨rfl, .empty hm hnode hheight hnext, fun f hf => by simp [hfs, hf], by simp [hfs]⟩
  · intro fs hfs
    rw [if_neg (by omega), wp_bind, wp_get, if_neg (by simpa using hnode), wp_bind, wp_modify,
      wp_pure]
    simp only [ne_eq, not_true_eq_false, if_false]
    set t1 : Tree := { node := t.next, height := t.height + 1,
                       mem := Function.update t.mem t.next (some zeroNode), next := t.next + 1,
                       fails := fs } with ht1
    have hroot : Stack geo t1 [[⟨t.next, fun _ => True, []⟩]] := by
      refine ⟨⟨_, rfl, rfl⟩, ?_, by simp, ?_⟩
      · simp only [List.mem_singleton, forall_eq]
        exact ⟨⟨zeroNode, by simp [ht1], Rep.zero⟩, List.Pairwise.nil, by simp⟩
      · simp only [addrs_cons, addrs_nil, List.map_cons, List.map_nil, List.append_nil,
          List.mem_singleton, forall_eq, ht1]
        omega
    refine (insertRoom_spec full hroot (by simp) (by simp) ?_ (keyAt_ext geo t1 k) trivial hk hv
      (by simp [ht1, hheight])).imp ?_
    · intro b1 hb1 _ s hs _
      obtain ⟨s', hs', hle⟩ := forall₂_mem_right hb1 hs
      rw [List.mem_singleton] at hs'
      rw [← hle.es, hs']
      have := hgeo.four_le
      simp only [List.length_nil]
      omega
    · rintro err t' ⟨rfl, b', rest', hp⟩
      obtain rfl : rest' = [] := by cases hp.shape; rfl
      refine Or.inl ⟨rfl, .levels b' [] hp.stack ?_ ?_ ?_, fun f hf => hfs f ?_⟩
      · obtain ⟨s, rfl, -⟩ := hp.stack.linked
        intro l hl r hr
        rw [List.mem_singleton] at hl
        subst hl
        rw [List.mem_singleton] at hr
        subst hr
        simpa using hp.used
      · rw [hp.head.height]
        simp [ht1, hheight]
      · exact insert_stored (b := [⟨t.next, fun _ => True, []⟩]) (by simpa using hm) hp.kids
          hp.stack.sorted
      · rw [hp.head.fails] at hf
        exact hf

/-- The insertion of an absent key adds the pair, or runs out of memory and adds nothing. -/
theorem insert_stores {ins attempt : KeyPtr → Nat → Nat → TreeM Int} (hgeo : geo.Ok)
    (he : Enters geo ins attempt 1)
    (hby : ∀ rest : List Level, t.height = 1 + rest.length → InsertsBy geo attempt 1 rest)
    (h : Stores geo t m) (hk : k.length = geo.keylen) (habs : m.get k = none) (hv : v ≠ 0) :
    Runs (ins (.ext k) v 1) (fun err t' =>
      (err = 0 ∧ Stores geo t' (m.insert k v) ∧ ∀ f ∈ t'.fails, f ∈ t.fails) ∨
      (err = -ENOMEM ∧ Stores geo t' m ∧ (∀ f ∈ t'.fails, f ∈ t.fails) ∧ true ∈ t.fails)) t := by
  cases h with
  | empty hm hnode hheight hnext =>
    exact insert_first hgeo he hm hnode hheight hnext hk hv
  | levels b rest stack occ hheight hm =>
    rw [OrdMap.get_eq_none, hm] at habs
    refine he.stay hv (by omega) ((hby rest hheight
      ⟨stack, occ, habs, keyAt_ext geo t k, trivial, hk, hheight⟩ hv).imp ?_)
    rintro err t' (⟨rfl, b', rest', hi⟩ | ⟨rfl, b', rest', hu⟩)
    · exact Or.inl ⟨rfl, .levels b' rest' hi.stack hi.occ hi.height
        (insert_stored hm hi.kids hi.stack.sorted), hi.ext.fails⟩
    · refine Or.inr ⟨rfl, .levels b' rest' hu.stack
        (occ.of_shape (spans_le_sameShape hu.bottom) hu.shape) ?_ ?_, hu.ext.fails, hu.failed⟩
      · rw [hu.height, hheight, hu.shape.length_eq]
      · rw [hm, spans_le_entries hu.bottom]

/-- `btree_insert` of an absent key adds the pair, or runs out of memory and adds nothing. -/
theorem btreeInsert_spec (hgeo : geo.Ok) (h : Stores geo t m) (hk : k.length = geo.keylen)
    (habs : m.get k = none) (hv : v ≠ 0) :
    Runs (btreeInsert geo (.ext k) v) (fun err t' =>
      (err = 0 ∧ Stores geo t' (m.insert k v) ∧ ∀ f ∈ t'.fails, f ∈ t.fails) ∨
      (err = -ENOMEM ∧ Stores geo t' m ∧ (∀ f ∈ t'.fails, f ∈ t.fails) ∧ true ∈ t.fails)) t := by
  unfold btreeInsert
  rw [Runs, wp_bind, wp_get]
  refine insert_stores hgeo (insertLevel_enters geo (2 * t.height + 6) 1) (fun rest hlen => ?_) h hk
    habs hv
  intro b t m key k val h hval
  exact insertRetry_spec hgeo _ rest (by omega) h.stack h.occ h.absent h.keyAt h.avoids h.keylen
    hval h.height

/-- What is left of the tree after a removal at the bottom level. -/
theorem stores_of_removed {c : Level} {t' : Tree} {A : List Nat} (hnext : 0 < t.next)
    (hd : (∃ b' rest', Removed geo 1 1 c A t t' b' rest') ∨ Vanished 1 c A t t')
    (hm : m.entries = c.flatMap Span.es) : Stores geo t' m := by
  rcases hd with ⟨b', rest', hd⟩ | hd
  · exact .levels b' rest' hd.stack hd.occ hd.height
      (by rw [hm, ← kids_entries, ← kids_entries, hd.kids.entries])
  · have hc : kids c = [] := List.length_eq_zero_iff.1 (hd.leaf rfl)
    have := hd.ext.next_le
    refine .empty ?_ (by simpa [hc] using hd.node) (by have := hd.height; omega) (by omega)
    rw [hm, ← kids_entries, hc]
    rfl

/-- The removal of a stored key removes its pair and returns the value. -/
theorem removeLevel_stores (hgeo : geo.Ok) (h : Stores geo t m) (hk : m.get k = some v)
    {fuel : Nat} (hfuel : t.height ≤ fuel) :
    Runs (btreeRemoveLevel geo fuel (.ext k) 1) (fun r t' => r = v ∧ Stores geo t' (m.erase k) ∧
      ∀ f ∈ t'.fails, f ∈ t.fails) t := by
  have hmem := OrdMap.mem_entries.2 hk
  cases h with
  | empty hm => rw [hm] at hmem; cases hmem
  | levels b rest stack occ hheight hm =>
    rw [hm] at hmem
    obtain ⟨r, hr, he⟩ := List.mem_flatMap.1 hmem
    obtain ⟨P, Q, rfl⟩ := List.append_of_mem hr
    obtain ⟨E1, E2, hes⟩ := List.append_of_mem he
    refine (removeLevel_spec hgeo rest.length _ rest rfl (by omega) stack occ (Or.inl ⟨rfl, rfl⟩) hes
      (Or.inl rfl) hheight).imp ?_
    rintro ret t' ⟨rfl, hd⟩
    have hlive := stack.bottom_live hr
    refine ⟨rfl, stores_of_removed (by omega) hd ?_, ?_⟩
    · refine (OrdMap.erase_entries (A := P.flatMap Span.es ++ E1) (B := E2 ++ Q.flatMap Span.es)
        (v := ret) ?_).trans ?_
      · rw [hm]
        simp [hes]
      · simp [without]
    · rcases hd with ⟨b', rest', hd⟩ | hd
      · exact hd.ext.fails
      · exact hd.ext.fails

/-- A tree without levels stores nothing. -/
theorem Stores.height_ne_zero (h : Stores geo t m) (hk : m.get k = some v) : t.height ≠ 0 := by
  have hmem := OrdMap.mem_entries.2 hk
  cases h with
  | empty hm => rw [hm] at hmem; cases hmem
  | levels b rest stack occ hheight hm => omega

/-- `btree_remove` of a stored key removes its pair and returns the value. -/
theorem btreeRemove_spec (hgeo : geo.Ok) (h : Stores geo t m) (hk : m.get k = some v) :
    Runs (btreeRemove geo (.ext k)) (fun r t' => r = v ∧ Stores geo t' (m.erase k) ∧
      ∀ f ∈ t'.fails, f ∈ t.fails) t := by
  unfold btreeRemove fuelFor
  rw [Runs, wp_bind, wp_get, if_neg (h.height_ne_zero hk)]
  exact removeLevel_stores hgeo h hk (by omega)

end Operations

/-! ## Sequences of operations -/

/-- One call of the interface. -/
inductive Op where
  | insert (key : Key) (val : Nat)
  | remove (key : Key)
  | lookup (key : Key)
  | last
deriving DecidableEq, Repr

/-- What a call returns. -/
inductive Result where
  | err (e : Int)
  | val (v : Nat)
  | key (k : Option Key)
deriving DecidableEq, Repr

def Op.run (geo : Geo) : Op → TreeM Result
  | .insert k v => .err <$> btreeInsert geo (.ext k) v
  | .remove k => .val <$> btreeRemove geo (.ext k)
  | .lookup k => .val <$> btreeLookup geo (.ext k)
  | .last => do
    match ← btreeLast geo with
    | none => pure (.key none)
    | some p => do
      let k ← readKey geo p
      pure (.key (some k))

def runOps (geo : Geo) : List Op → TreeM (List Result)
  | [] => pure []
  | op :: ops => do
    let r ← op.run geo
    let rs ← runOps geo ops
    pure (r :: rs)

/-- A finite map, as what it says of each key. -/
abbrev FinMap := Key → Option Nat

/-- The calls made: keys of the right length, an absent key with a value that is not `NULL` to
insert, a stored one to remove. -/
def Op.Allowed (geo : Geo) (m : FinMap) : Op → Prop
  | .insert k v => k.length = geo.keylen ∧ m k = none ∧ v ≠ 0
  | .remove k => m k ≠ none
  | .lookup k => k.length = geo.keylen
  | .last => True

/-- The map after a call. -/
def Op.next (m : FinMap) : Op → FinMap
  | .insert k v => Function.update m k (some v)
  | .remove k => Function.update m k none
  | .lookup _ => m
  | .last => m

/-- What a call returns on a map ordered by `longcmp`. -/
def Op.Returns (m : FinMap) : Op → Result → Prop
  | .insert _ _, r => r = .err 0
  | .remove k, r => ∃ v, m k = some v ∧ r = .val v
  | .lookup k, r => r = .val ((m k).getD 0)
  | .last, r => ((∀ k, m k = none) ∧ r = .key none) ∨
      ∃ k, m k ≠ none ∧ (∀ k', m k' ≠ none → longcmp k' k ≤ 0) ∧ r = .key (some k)

/-- What a call returns and leaves, when it may also run out of memory. -/
def Op.Outcome (m : FinMap) (op : Op) (r : Result) (m' : FinMap) : Prop :=
  (op.Returns m r ∧ m' = op.next m) ∨ ∃ k v, op = .insert k v ∧ r = .err (-ENOMEM) ∧ m' = m

def Allowed (geo : Geo) : FinMap → List Op → Prop
  | _, [] => True
  | m, op :: ops => op.Allowed geo m ∧ Allowed geo (op.next m) ops

def Behaves : FinMap → List Op → List Result → Prop
  | _, [], rs => rs = []
  | m, op :: ops, rs => ∃ r rs', rs = r :: rs' ∧ op.Returns m r ∧ Behaves (op.next m) ops rs'

section Runs

variable {geo : Geo} {t : Tree} {m : OrdMap Key Nat}

theorem get_insert_eq (m : OrdMap Key Nat) (k : Key) (v : Nat) :
    (m.insert k v).get = Function.update m.get k (some v) := by
  funext x
  rw [OrdMap.get_insert, Function.update_apply]
  split_ifs <;> rfl

theorem get_erase_eq (m : OrdMap Key Nat) (k : Key) :
    (m.erase k).get = Function.update m.get k none := by
  funext x
  rw [OrdMap.get_erase, Function.update_apply]
  split_ifs <;> rfl

/-- One call does to the tree what it does to the map, unless it runs out of memory. -/
theorem Op.run_outcome (hgeo : geo.Ok) (op : Op) (h : Stores geo t m)
    (hop : op.Allowed geo m.get) :
    Runs (op.run geo) (fun r t' => (∀ f ∈ t'.fails, f ∈ t.fails) ∧
      ∃ m' : OrdMap Key Nat, Stores geo t' m' ∧ op.Outcome m.get r m'.get ∧
        (true ∉ t.fails → op.Returns m.get r ∧ m'.get = op.next m.get)) t := by
  cases op with
  | insert k v =>
    obtain ⟨hk, habs, hv⟩ := hop
    rw [Op.run, Runs, wp_map]
    refine (btreeInsert_spec hgeo h hk habs hv).imp ?_
    rintro err t' (⟨rfl, hs, hfs⟩ | ⟨rfl, hs, hfs, hc⟩)
    · have hr := get_insert_eq m k v
      exact ⟨hfs, _, hs, Or.inl ⟨rfl, hr⟩, fun _ => ⟨rfl, hr⟩⟩
    · exact ⟨hfs, _, hs, Or.inr ⟨k, v, rfl, rfl, rfl⟩, fun hf => absurd hc hf⟩
  | remove k =>
    obtain ⟨v, hv⟩ := Option.ne_none_iff_exists'.1 hop
    rw [Op.run, Runs, wp_map]
    refine (btreeRemove_spec hgeo h hv).imp ?_
    rintro r t' ⟨rfl, hs, hfs⟩
    have hr : (Op.remove k).Returns m.get (.val r) := ⟨r, hv, rfl⟩
    exact ⟨hfs, _, hs, Or.inl ⟨hr, get_erase_eq m k⟩, fun _ => ⟨hr, get_erase_eq m k⟩⟩
  | lookup k =>
    rw [Op.run, Runs, wp_map]
    refine (btreeLookup_spec h hop).imp ?_
    rintro r _ ⟨rfl, rfl⟩
    exact ⟨fun _ hf => hf, m, h, Or.inl ⟨rfl, rfl⟩, fun _ => ⟨rfl, rfl⟩⟩
  | last =>
    rw [Op.run, Runs, wp_bind]
    refine (btreeLast_spec h).imp ?_
    rintro (_ | p) _ ⟨rfl, ho⟩
    · have hr : Op.last.Returns m.get (.key none) := Or.inl ⟨OrdMap.last_eq_none.1 ho, rfl⟩
      exact ⟨fun _ hf => hf, m, h, Or.inl ⟨hr, rfl⟩, fun _ => ⟨hr, rfl⟩⟩
    · obtain ⟨e, he, hp⟩ := ho
      obtain ⟨hget, hmax⟩ := OrdMap.last_eq_some (k := e.1) (v := e.2) he
      simp only [wp_bind, wp_readKey hp, wp_pure]
      have hr : Op.last.Returns m.get (.key (some e.1)) := by
        refine Or.inr ⟨e.1, by simp [hget], fun k' hk' => ?_, rfl⟩
        obtain ⟨v', hv'⟩ := Option.ne_none_iff_exists'.1 hk'
        rw [longcmp_le_zero (by rw [h.keylen hv', h.keylen hget])]
        exact hmax k' hk'
      exact ⟨fun _ hf => hf, m, h, Or.inl ⟨hr, rfl⟩, fun _ => ⟨hr, rfl⟩⟩

/-- One call does to the tree what it does to the map. -/
theorem Op.run_spec (hgeo : geo.Ok) (op : Op) (h : Stores geo t m) (hf : true ∉ t.fails)
    (hop : op.Allowed geo m.get) :
    Runs (op.run geo) (fun r t' => op.Returns m.get r ∧ true ∉ t'.fails ∧
      ∃ m' : OrdMap Key Nat, Stores geo t' m' ∧ m'.get = op.next m.get) t := by
  refine (op.run_outcome hgeo h hop).imp ?_
  rintro r t' ⟨hfs, m', hs, -, hret⟩
  obtain ⟨hr, hm'⟩ := hret hf
  exact ⟨hr, fun hc => hf (hfs _ hc), m', hs, hm'⟩

/-- A sequence of calls on a tree returns what it returns on the map. -/
theorem runOps_spec (hgeo : geo.Ok) (ops : List Op) :
    ∀ {t : Tree} {m : OrdMap Key Nat}, Stores geo t m → true ∉ t.fails → Allowed geo m.get ops →
      Runs (runOps geo ops) (fun rs _ => Behaves m.get ops rs) t := by
  induction ops with
  | nil => exact fun _ _ _ => rfl
  | cons op ops ih =>
    intro t m h hf hops
    rw [runOps]
    refine (op.run_spec hgeo h hf hops.1).bind ?_
    rintro r t1 ⟨hr, hf1, m1, h1, hm1⟩
    refine (ih h1 hf1 (hm1 ▸ hops.2)).bind ?_
    intro rs t2 hrs
    exact ⟨r, rs, rfl, hr, hm1 ▸ hrs⟩

/-- From `btree_init` on, with no failing allocation, the tree behaves as a finite map. -/
theorem btree_behaves_as_map (geo : Geo) (hgeo : geo.Ok) (fails : List Bool) (hf : true ∉ fails)
    (ops : List Op) (hops : Allowed geo (fun _ => none) ops) :
    ∃ rs t, runOps geo ops (btreeInit fails) = .ok rs t ∧ Behaves (fun _ => none) ops rs :=
  (runOps_spec hgeo ops (stores_init geo fails) hf hops).ok

/-- Five keys split a leaf, a sixth one fills it; three removals make a leaf take a pair from its
neighbour, merge the two and let the root go.  The all zero key is one of the six. -/
def sixKeys : List Op := [.lookup [0], .insert [9] 3, .insert [8] 4, .insert [6] 5, .insert [5] 6,
  .insert [0] 7, .insert [7] 8, .last, .lookup [0], .remove [9], .lookup [7], .remove [8],
  .remove [7], .last, .lookup [7]]

theorem btree_behaves_as_map_six_keys :
    let rs := [.val 0, .err 0, .err 0, .err 0, .err 0, .err 0, .err 0, .key (some [9]), .val 7,
      .val 3, .val 8, .val 4, .val 8, .key (some [6]), .val 0]
    runOps ⟨1, 4⟩ sixKeys (btreeInit []) = .ok rs (stateOf (runOps ⟨1, 4⟩ sixKeys) (btreeInit [])) ∧
      Behaves (fun _ => none) sixKeys rs := by
  intro rs
  have hrun := run_eq (show valueOf (runOps ⟨1, 4⟩ sixKeys) (btreeInit []) = some rs by
    decide +kernel)
  obtain ⟨rs', t, hrun', hbehaves⟩ := btree_behaves_as_map ⟨1, 4⟩ ⟨by decide⟩ [] (by simp) sixKeys
    (by simp [sixKeys, Allowed, Op.Allowed, Op.next, Function.update])
  rw [hrun] at hrun'
  cases hrun'
  exact ⟨hrun, hbehaves⟩

end Runs

end Logfs.Btree
