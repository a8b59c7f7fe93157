import Logfs.Btree.Failed

/-!
# Keys of 64 bits

mkfs uses its trees through the wrappers of `btree.h` that take a `u64` and pass
its address on as that of the `unsigned long` words of a key.  Where these words
compare as the number does, a tree is a map on numbers; on a machine with 32 bit
words, least significant first, the last key is not the greatest number.
-/

namespace Logfs.Btree

/-! ## Words in memory -/

/-- How a `u64` lies in memory. -/
structure Machine where
  /-- `BITS_PER_LONG` is 64. -/
  wide : Bool
  bigEndian : Bool
deriving DecidableEq, Repr

def Machine.bits (M : Machine) : Nat := if M.wide then 64 else 32

def Machine.geo (M : Machine) : Geo := btreeGeo64 M.bits

/-- `(unsigned long *)&key`. -/
def Machine.words (M : Machine) (key : Nat) : Key :=
  if M.wide then [key]
  else if M.bigEndian then [key / 2 ^ 32, key % 2 ^ 32]
  else [key % 2 ^ 32, key / 2 ^ 32]

/-- `*(u64 *)key`. -/
def Machine.u64 (M : Machine) (k : Key) : Nat :=
  if M.wide then k.getD 0 0
  else if M.bigEndian then k.getD 0 0 * 2 ^ 32 + k.getD 1 0
  else k.getD 1 0 * 2 ^ 32 + k.getD 0 0

/-! ## The wrappers -/

section Wrappers

variable (M : Machine)

def btreeLookup64 (key : Nat) : TreeM Nat := btreeLookup M.geo (.ext (M.words key))

def btreeInsert64 (key val : Nat) : TreeM Int := btreeInsert M.geo (.ext (M.words key)) val

def btreeRemove64 (key : Nat) : TreeM Nat := btreeRemove M.geo (.ext (M.words key))

/-- The key is zero when there is none. -/
def btreeLast64 : TreeM Nat := do
  match ← btreeLast M.geo with
  | none => pure 0
  | some p => do
    let k ← readKey M.geo p
    pure (M.u64 k)

/-- One call through the wrappers; `takeLast` is a turn of the loop of `logfs_file_flush`, which
removes the key that `btree_last64` returns also when that is of no entry. -/
inductive Op64 where
  | insert (key val : Nat)
  | remove (key : Nat)
  | lookup (key : Nat)
  | last
  | takeLast
deriving DecidableEq, Repr

inductive Result64 where
  | err (e : Int)
  | val (v : Nat)
  | key (k : Nat)
  | pair (k v : Nat)
deriving DecidableEq, Repr

def Op64.run : Op64 → TreeM Result64
  | .insert key val => .err <$> btreeInsert64 M key val
  | .remove key => .val <$> btreeRemove64 M key
  | .lookup key => .val <$> btreeLookup64 M key
  | .last => .key <$> btreeLast64 M
  | .takeLast => do
    let key ← btreeLast64 M
    let val ← btreeRemove64 M key
    pure (.pair key val)

def runOps64 : List Op64 → TreeM (List Result64)
  | [] => pure []
  | op :: ops => do
    let r ← op.run M
    let rs ← runOps64 ops
    pure (r :: rs)

end Wrappers

/-! ## Maps on numbers -/

/-- A finite map on numbers, as what it says of each. -/
abbrev NumMap := Nat → Option Nat

/-- The greatest number that is bound. -/
def NumMap.Greatest (m : NumMap) (key val : Nat) : Prop :=
  m key = some val ∧ ∀ x, m x ≠ none → x ≤ key

/-- The calls made: an absent key and a value that is not `NULL` to insert, a stored key to
remove. -/
def Op64.Ok (m : NumMap) : Op64 → Prop
  | .insert key val => key < 2 ^ 64 ∧ m key = none ∧ val ≠ 0
  | .remove key => m key ≠ none
  | .lookup key => key < 2 ^ 64
  | .last => True
  | .takeLast => True

/-- What a call returns on a map of numbers, and the map it leaves. -/
def Op64.Does (m : NumMap) : Op64 → Result64 → NumMap → Prop
  | .insert key val, r, m' => r = .err 0 ∧ m' = Function.update m key (some val)
  | .remove key, r, m' => ∃ v, m key = some v ∧ r = .val v ∧ m' = Function.update m key none
  | .lookup key, r, m' => r = .val ((m key).getD 0) ∧ m' = m
  | .last, r, m' => m' = m ∧ ((∀ x, m x = none) ∧ r = .key 0 ∨
      ∃ key val, m.Greatest key val ∧ r = .key key)
  | .takeLast, r, m' => (∀ x, m x = none) ∧ r = .pair 0 0 ∧ m' = m ∨
      ∃ key val, m.Greatest key val ∧ r = .pair key val ∧ m' = Function.update m key none

def Allowed64 : NumMap → List Op64 → Prop
  | _, [] => True
  | m, op :: ops => op.Ok m ∧ ∀ r m', op.Does m r m' → Allowed64 m' ops

def Behaves64 : NumMap → List Op64 → List Result64 → Prop
  | _, [], rs => rs = []
  | m, op :: ops, rs => ∃ r rs' m', rs = r :: rs' ∧ op.Does m r m' ∧ Behaves64 m' ops rs'

/-! ## Words and numbers -/

section Words

variable {M : Machine} {x y : Nat}

theorem Machine.geo_ok (M : Machine) : M.geo.Ok := by
  have hbits : M.bits ∈ [32, 64] := by
    unfold Machine.bits
    split_ifs <;> decide
  exact (exported_geo_ok M.bits hbits).2.1

theorem words_length (M : Machine) (x : Nat) : (M.words x).length = M.geo.keylen := by
  unfold Machine.words Machine.geo btreeGeo64 longPerU64 Machine.bits
  split_ifs <;> rfl

/-- The number is read back from its words. -/
theorem u64_words (M : Machine) (x : Nat) : M.u64 (M.words x) = x := by
  have hx := Nat.div_add_mod x (2 ^ 32)
  rw [Nat.mul_comm] at hx
  unfold Machine.u64 Machine.words
  split_ifs
  · rfl
  · exact hx
  · exact hx

theorem words_inj (h : M.words x = M.words y) : x = y := by
  rw [← u64_words M x, h, u64_words]

/-- The words compare as the numbers do. -/
def Machine.Numeric (M : Machine) : Prop := M.wide = true ∨ M.bigEndian = true

/-- The most significant word is compared first. -/
theorem le_of_words_le (hM : M.Numeric) (h : M.words x ≤ M.words y) : x ≤ y := by
  by_contra hlt
  refine absurd h (not_le.2 ?_)
  rw [not_le] at hlt
  unfold Machine.words
  split_ifs with hw hb
  · exact List.Lex.rel hlt
  · rcases Nat.lt_or_ge (y / 2 ^ 32) (x / 2 ^ 32) with hhigh | hhigh
    · exact List.Lex.rel hhigh
    · have heq : y / 2 ^ 32 = x / 2 ^ 32 :=
        Nat.le_antisymm (Nat.div_le_div_right (Nat.le_of_lt hlt)) hhigh
      have hlow : y % 2 ^ 32 < x % 2 ^ 32 := by omega
      rw [heq]
      exact List.Lex.cons (List.Lex.rel hlow)
  · exact (hM.elim hw hb).elim

end Words

/-! ## Trees that hold numbers -/

/-- The tree holds the words of the numbers that are bound. -/
structure Holds64 (M : Machine) (t : Tree) (m : NumMap) : Prop where
  stores : ∃ om : OrdMap Key Nat, Stores M.geo t om ∧ (∀ x, om.get (M.words x) = m x) ∧
    ∀ k, om.get k ≠ none → ∃ x, k = M.words x

section Ops

variable {M : Machine} {t : Tree} {m : NumMap} {om : OrdMap Key Nat} {x v : Nat}

theorem holds64_init (M : Machine) (fails : List Bool) :
    Holds64 M (btreeInit fails) fun _ => none :=
  ⟨_, stores_init _ fails, fun _ => rfl, fun _ h => absurd rfl h⟩

/-- What `btree_last64` returns. -/
theorem btreeLast64_spec (hM : M.Numeric) (h : Stores M.geo t om)
    (hget : ∀ x, om.get (M.words x) = m x) (hkeys : ∀ k, om.get k ≠ none → ∃ x, k = M.words x) :
    Runs (btreeLast64 M) (fun r t' => t' = t ∧
      (om.last = none ∧ (∀ x, m x = none) ∧ r = 0 ∨ ∃ val, m.Greatest r val)) t := by
  unfold btreeLast64
  apply (btreeLast_spec h).bind
  rintro (_ | p) t1 ⟨rfl, hlast⟩
  · refine ⟨rfl, Or.inl ⟨hlast, fun x => ?_, rfl⟩⟩
    rw [← hget]
    exact OrdMap.last_eq_none.1 hlast _
  · obtain ⟨⟨k, v⟩, hlast, hp⟩ := hlast
    obtain ⟨hk, hmax⟩ := OrdMap.last_eq_some hlast
    obtain ⟨x, rfl⟩ := hkeys k (by rw [hk]; exact Option.some_ne_none v)
    rw [wp_bind, wp_readKey hp, wp_pure, u64_words]
    refine ⟨rfl, Or.inr ⟨v, by rw [← hget, hk], fun y hy => ?_⟩⟩
    exact le_of_words_le hM (hmax _ (by rw [hget]; exact hy))

/-- The map with a number bound to something else. -/
theorem get_update (hget : ∀ x, om.get (M.words x) = m x) {o : Option Nat} {om' : OrdMap Key Nat}
    (h : om'.get = Function.update om.get (M.words x) o) (y : Nat) :
    om'.get (M.words y) = Function.update m x o y := by
  rw [h, Function.update_apply, Function.update_apply, hget]
  exact if_congr ⟨words_inj, congrArg _⟩ rfl rfl

theorem keys_update (hkeys : ∀ k, om.get k ≠ none → ∃ x, k = M.words x) {o : Option Nat}
    {om' : OrdMap Key Nat} (h : om'.get = Function.update om.get (M.words x) o) (k : Key)
    (hk : om'.get k ≠ none) : ∃ x, k = M.words x := by
  by_cases hx : k = M.words x
  · exact ⟨x, hx⟩
  · rw [h, Function.update_of_ne hx] at hk
    exact hkeys k hk

theorem btreeRemove64_spec (h : Stores M.geo t om) (hget : ∀ x, om.get (M.words x) = m x)
    (hkeys : ∀ k, om.get k ≠ none → ∃ x, k = M.words x) (hf : true ∉ t.fails) (hx : m x = some v) :
    Runs (btreeRemove64 M x) (fun r t' => r = v ∧ true ∉ t'.fails ∧
      Holds64 M t' (Function.update m x none)) t := by
  rw [← hget] at hx
  apply (btreeRemove_spec M.geo_ok h hx).imp
  rintro r t' ⟨hr, hs, hfails⟩
  have heq := get_erase_eq om (M.words x)
  exact ⟨hr, fun hc => hf (hfails _ hc), _, hs, get_update hget heq, keys_update hkeys heq⟩

/-- A call does to the tree what it does to the map of numbers. -/
theorem Op64.run_spec (hM : M.Numeric) (op : Op64) (h : Holds64 M t m) (hf : true ∉ t.fails)
    (hop : op.Ok m) :
    Runs (op.run M) (fun r t' => true ∉ t'.fails ∧ ∃ m', op.Does m r m' ∧ Holds64 M t' m') t := by
  obtain ⟨om, hs, hget, hkeys⟩ := h.stores
  cases op with
  | insert key val =>
    obtain ⟨-, habs, hv⟩ := hop
    unfold Op64.run
    rw [Runs, wp_map]
    rw [← hget] at habs
    apply (btreeInsert_spec M.geo_ok hs (words_length M key) habs hv).imp
    rintro err t' (⟨rfl, hs', hfails⟩ | ⟨-, -, -, hc⟩)
    · have heq := get_insert_eq om (M.words key) val
      exact ⟨fun hc => hf (hfails _ hc), _, ⟨rfl, rfl⟩, _, hs', get_update hget heq,
        keys_update hkeys heq⟩
    · exact absurd hc hf
  | remove key =>
    obtain ⟨v, hv⟩ := Option.ne_none_iff_exists'.1 hop
    unfold Op64.run
    rw [Runs, wp_map]
    apply (btreeRemove64_spec hs hget hkeys hf hv).imp
    rintro r t' ⟨rfl, hfails, hs'⟩
    exact ⟨hfails, _, ⟨r, hv, rfl, rfl⟩, hs'⟩
  | lookup key =>
    unfold Op64.run
    rw [Runs, wp_map]
    apply (btreeLookup_spec hs (words_length M key)).imp
    rintro r t' ⟨rfl, rfl⟩
    exact ⟨hf, m, ⟨by rw [hget], rfl⟩, h⟩
  | last =>
    unfold Op64.run
    rw [Runs, wp_map]
    apply (btreeLast64_spec hM hs hget hkeys).imp
    rintro r t' ⟨rfl, ⟨-, hnone, rfl⟩ | ⟨val, hmax⟩⟩
    · exact ⟨hf, m, ⟨rfl, Or.inl ⟨hnone, rfl⟩⟩, h⟩
    · exact ⟨hf, m, ⟨rfl, Or.inr ⟨r, val, hmax, rfl⟩⟩, h⟩
  | takeLast =>
    unfold Op64.run
    apply (btreeLast64_spec hM hs hget hkeys).bind
    rintro r t' ⟨rfl, ⟨hlast, hnone, rfl⟩ | ⟨val, hmax⟩⟩
    · -- nothing is removed from an empty tree
      unfold btreeRemove64 btreeRemove
      have h0 := hs.height_eq_zero.2 (OrdMap.last_eq_none_iff_entries.1 hlast)
      rw [wp_bind, wp_bind, wp_get, if_pos h0, wp_pure, wp_pure]
      exact ⟨hf, m, Or.inl ⟨hnone, rfl, rfl⟩, h⟩
    · apply (btreeRemove64_spec hs hget hkeys hf hmax.1).bind
      rintro v t1 ⟨rfl, hfails, hs'⟩
      exact ⟨hfails, _, Or.inr ⟨r, v, hmax, rfl, rfl⟩, hs'⟩

/-- So does a sequence of calls. -/
theorem runOps64_spec (hM : M.Numeric) (ops : List Op64) : ∀ {t : Tree} {m : NumMap},
    Holds64 M t m → true ∉ t.fails → Allowed64 m ops →
      Runs (runOps64 M ops) (fun rs _ => Behaves64 m ops rs) t := by
  induction ops with
  | nil => exact fun _ _ _ => rfl
  | cons op ops ih =>
    intro t m h hf hops
    unfold runOps64
    apply (op.run_spec hM h hf hops.1).bind
    rintro r t1 ⟨hf1, m1, hdoes, h1⟩
    apply (ih h1 hf1 (hops.2 r m1 hdoes)).bind
    intro rs t2 hrs
    exact ⟨r, rs, m1, rfl, hdoes, hrs⟩

/-- The results of a run that returns. -/
def results64 (M : Machine) (ops : List Op64) : List Result64 :=
  match runOps64 M ops (btreeInit []) with
  | .ok rs _ => rs
  | .error _ _ => []

/-- Two numbers of which the smaller one has the greater low word. -/
def twoKeys : List Op64 := [.insert 1 5, .insert (2 ^ 32) 6, .last]

theorem twoKeys_allowed : Allowed64 (fun _ => none) twoKeys := by
  refine ⟨⟨by decide, rfl, by decide⟩, ?_⟩
  rintro r m1 ⟨-, rfl⟩
  refine ⟨⟨by decide, ?_, by decide⟩, ?_⟩
  · exact Function.update_of_ne (by decide) _ _
  · rintro r m2 -
    exact ⟨trivial, fun _ _ _ => trivial⟩

/-- A map on numbers has the greater one last. -/
theorem twoKeys_last {rs : List Result64} (h : Behaves64 (fun _ => none) twoKeys rs) :
    rs.getLast? = some (.key (2 ^ 32)) := by
  obtain ⟨r1, rs1, m1, rfl, ⟨-, rfl⟩, r2, rs2, m2, rfl, ⟨-, rfl⟩, r3, rs3, m3, rfl, ⟨-, hr⟩, h⟩ := h
  obtain rfl : rs3 = [] := h
  rcases hr with ⟨hnone, -⟩ | ⟨key, val, ⟨hkey, hmax⟩, rfl⟩
  · have := hnone (2 ^ 32)
    rw [Function.update_self] at this
    cases this
  · have hle : 2 ^ 32 ≤ key := by
      apply hmax
      rw [Function.update_self]
      exact Option.some_ne_none _
    obtain rfl : key = 2 ^ 32 := by
      by_contra hne
      have hone : key ≠ 1 := by omega
      rw [Function.update_of_ne hne, Function.update_of_ne hone] at hkey
      cases hkey
    rfl

/-- The calls that mkfs makes do to a tree what they do to a map on numbers, the turns of
`logfs_file_flush` included, on all machines but those with 32 bit words of which the least
significant one comes first. -/
theorem calls64_numeric_iff (M : Machine) :
    (∀ ops fails, true ∉ fails → Allowed64 (fun _ => none) ops →
        ∃ rs t, runOps64 M ops (btreeInit fails) = .ok rs t ∧
          Behaves64 (fun _ => none) ops rs) ↔
      M.wide = true ∨ M.bigEndian = true := by
  constructor
  · intro h
    by_contra hM
    obtain rfl : M = ⟨false, false⟩ := by
      cases M with
      | mk wide bigEndian => cases wide <;> cases bigEndian <;> simp_all
    obtain ⟨rs, t, hrun, hbehaves⟩ := h twoKeys [] List.not_mem_nil twoKeys_allowed
    have hres : results64 ⟨false, false⟩ twoKeys = [.err 0, .err 0, .key 1] := by decide +kernel
    unfold results64 at hres
    rw [hrun] at hres
    have hlast := twoKeys_last hbehaves
    rw [show rs = [.err 0, .err 0, .key 1] from hres] at hlast
    exact absurd hlast (by decide)
  · intro hM ops fails hf hops
    exact (runOps64_spec hM ops (holds64_init M fails) hf hops).ok

end Ops

end Logfs.Btree
